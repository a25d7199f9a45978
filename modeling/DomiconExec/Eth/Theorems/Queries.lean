import DomiconExec.Objects.Theorems.Curve
import DomiconExec.Db.Theorems.Readers
import DomiconExec.Eth.Queries
import DomiconExec.Eth.Theorems.Crash

namespace Eth

open Db

variable {ctx : Context} {commit : Bytes} {cmHash : Hash}

section Ask

variable {get : Nat → Option DA} {read : Nat → Except GoPanic (Except Error (Option DA))}

-- A single event is sent, and what the second attempt finds in the pool is returned.
def Asks (get : Nat → Option DA) (cmHash : Hash) (r : Except GoPanic Found) : Prop :=
  ∃ f, r = .ok f ∧ f.events = [[cmHash]] ∧ ∀ da, get 1 = some da → f.da = some da

theorem lookupCommit_of_get {da : DA} {i : Nat} (hg : get i = some da) :
    lookupCommit get read cmHash i = .ok ⟨some da, none, []⟩ := by
  rw [lookupCommit, hg]

theorem lookupCommit_of_error {err : Error} {i : Nat} (hg : get i = none)
    (hr : read i = .ok (.error err)) :
    lookupCommit get read cmHash i = .ok ⟨none, some err, []⟩ := by
  rw [lookupCommit, hg]
  exact Loop.bind_of_eq_ok hr

-- There is always an error instead.
theorem getDAByCommit_eq {b : Nat → Backend}
    (h : (b 0).pool.all.get (ctx.setBytes commit).fst.hash = none) :
    Backend.getDAByCommit ctx b commit = .ok ⟨none,
      some (if (b 0).das.rows.length = 0 then .tableIsEmpty else .noSuchColumn), []⟩ := by
  refine lookupCommit_of_error (by rw [h]; rfl) ?_
  rw [getDAByCommitment_eq]
  rfl

end Ask

-- What the pool and the table contain at the beginning, without the commitment.
structure Missing (ctx : Context) (b : Backend) (commit : Bytes) : Prop where
  pool : b.pool.all.get (ctx.setBytes commit).fst.hash = none
  das : ∀ r ∈ b.das.rows, r.commitment ≠ Hex.bytes2Hex (ctx.setBytes commit).fst.marshal

-- The reader reports missing data by an error, after which no event is sent.
theorem not_asks (ctx : Context) (b : Nat → Backend) (commit : Bytes)
    (h : Missing ctx (b 0) commit) :
    (∃ err, Backend.getDAByCommit ctx b commit = .ok ⟨none, some err, []⟩) ∧
      ¬Asks (fun i => (b i).pool.all.get (ctx.setBytes commit).fst.hash |>.map ctx.heap)
        (ctx.setBytes commit).fst.hash (Backend.getDAByCommit ctx b commit) := by
  rw [getDAByCommit_eq h.pool]
  refine ⟨⟨_, rfl⟩, ?_⟩
  rintro ⟨f, hf, he, -⟩
  cases hf
  contradiction

theorem missing_empty : Missing ctx emptyBackend commit where
  pool := rfl
  das := List.forall_mem_nil _

-- A pool that holds the generator of the curve.
def held : DA :=
  { DA.zero with commitment := .generator }

def holding : Backend :=
  { emptyBackend with pool := { emptyBackend.pool with all := .add .newLookup 0 held } }

def heldContext (setBytes : SetBytes) (popOrder : Nat → IterOrder Hash) : Context :=
  { quietContext popOrder with heap := fun _ => held, setBytes }

theorem holding_get : holding.pool.all.get Digest.generator.hash = some 0 := by
  decide +kernel

-- Even if the data arrives before the second attempt.
theorem not_asks_holding : ∃ (ctx : Context) (b : Nat → Backend), Missing ctx (b 0) [] ∧
    ((b 1).pool.all.get (ctx.setBytes []).fst.hash).isSome ∧
    ¬Asks (fun i => (b i).pool.all.get (ctx.setBytes []).fst.hash |>.map ctx.heap)
      (ctx.setBytes []).fst.hash (Backend.getDAByCommit ctx b []) := by
  refine ⟨heldContext (fun _ => (.generator, none)) fun _ => .along [],
    fun | 0 => emptyBackend | _ + 1 => holding, missing_empty, ?_, ?_⟩
  case refine_1 => exact Option.isSome_of_eq_some holding_get
  case refine_2 => exact (not_asks _ (fun | 0 => emptyBackend | _ + 1 => holding) [] missing_empty).right

theorem not_forall_asks :
    ¬∀ (ctx : Context) (b : Nat → Backend) (commit : Bytes), Digest.Codec ctx.setBytes →
      Missing ctx (b 0) commit →
      Asks (fun i => (b i).pool.all.get (ctx.setBytes commit).fst.hash |>.map ctx.heap)
        (ctx.setBytes commit).fst.hash (Backend.getDAByCommit ctx b commit) := by
  intro h
  obtain ⟨setBytes, hs⟩ := Digest.exists_codec
  obtain ⟨f, hf, he, -⟩ := h (heldContext setBytes fun _ => .along []) (fun _ => emptyBackend) [] hs
    missing_empty
  rw [getDAByCommit_eq missing_empty.pool] at hf
  cases hf
  contradiction

section Batch

variable {b : Backend} {commitments : List Bytes}

theorem da_get (hash : Hash) : Found.da <$> b.get ctx hash = getDA ctx b hash := by
  unfold Backend.get getDA
  rw [getDAByCommitmentHash_eq]
  cases b.pool.all.get hash
  case some fd => rfl
  case none =>
    rcases getCommitmentByTxHash ctx.setBytes b.das hash with p | err | da
    case error     => rfl
    case ok.error  => rfl
    case ok.ok     => rfl

theorem getDA_eq_some_iff {hash : Hash} {da : DA} : getDA ctx b hash = .ok (some da) ↔
    (∃ fd, b.pool.all.get hash = some fd ∧ ctx.heap fd = da) ∨
    b.pool.all.get hash = none ∧ getCommitmentByTxHash ctx.setBytes b.das hash = .ok (.ok da) := by
  unfold getDA
  cases b.pool.all.get hash
  case some fd => simp
  case none =>
    rcases getCommitmentByTxHash ctx.setBytes b.das hash with p | err | da'
    case error    => simp [bind, Except.bind]
    case ok.error => simp [bind, Except.bind, getDAByCommitmentHash_eq, pure, Except.pure]
    case ok.ok    => simp [bind, Except.bind, pure, Except.pure]

theorem get_ok_iff {hash : Hash} : (∃ r, b.get ctx hash = .ok r) ↔
    (b.pool.all.get hash = none →
      ∀ r, b.das.rows.find? (·.txHash = hash.hex) = some r → ¬Unloadable ctx.setBytes r) := by
  rw [← @Loop.map_ok_iff _ _ _ _ Found.da, da_get, getDA_ok_iff]
  cases b.pool.all.get hash <;> simp

theorem get_err {hash : Hash} {r : Found} (h : b.get ctx hash = .ok r) : r.err = none := by
  unfold Backend.get at h
  rw [getDAByCommitmentHash_eq] at h
  cases hg : b.pool.all.get hash
  case some fd =>
    rw [hg] at h
    cases h
    rfl
  case none =>
    rw [hg] at h
    obtain ⟨e, -, h⟩ := Loop.bind_eq_ok h
    cases e <;> cases h <;> rfl

theorem getBatchDAsByCommitments_eq : EthAPIBackend.getBatchDAsByCommitments ctx b commitments =
    commitments.mapM (b.get ctx <| bytesToHash ·) := by
  unfold EthAPIBackend.getBatchDAsByCommitments
  congr
  funext commitment
  cases h : b.get ctx (bytesToHash commitment)
  case error => rfl
  case ok r =>
    have he := get_err h
    cases r
    cases he
    exact congrArg Except.ok (ite_self _)

theorem getDAByCommitment_of_held {fd : FilePool.Ref}
    (h : b.pool.all.get (ctx.setBytes commit).fst.hash = some fd) :
    EthAPIBackend.getDAByCommitment ctx (fun _ => b) commit =
      .ok ⟨some (ctx.heap fd), none, []⟩ := by
  have hg : Backend.getDAByCommit ctx (fun _ => b) commit = .ok ⟨some (ctx.heap fd), none, []⟩ :=
    lookupCommit_of_get (by rw [h]; rfl)
  exact Loop.bind_of_eq_ok hg

-- At the index of each commitment that the pool holds there is the data that a single lookup finds.
def BatchAgrees (ctx : Context) (b : Backend) (commitments : List Bytes) : Prop :=
  ∃ rs, EthAPIBackend.getBatchDAsByCommitments ctx b commitments = .ok rs ∧
    ∀ (i : Nat) (commitment : Bytes), commitments[i]? = some commitment →
      (b.pool.all.get (ctx.setBytes commitment).fst.hash).isSome →
      ∃ r r' : Found, EthAPIBackend.getDAByCommitment ctx (fun _ => b) commitment = .ok r ∧
        rs[i]? = some r' ∧ r'.da = r.da

-- The last bytes of a commitment lead to the data that is held for its point.
def LeadsTo (ctx : Context) (b : Backend) (commitment : Bytes) : Prop :=
  ∀ fd, b.pool.all.get (ctx.setBytes commitment).fst.hash = some fd →
    (∃ fd', b.pool.all.get (bytesToHash commitment) = some fd' ∧ ctx.heap fd' = ctx.heap fd) ∨
    b.pool.all.get (bytesToHash commitment) = none ∧
      getCommitmentByTxHash ctx.setBytes b.das (bytesToHash commitment) = .ok (.ok (ctx.heap fd))

-- The last bytes of a commitment do not lead to a row that cannot be read.
def Readable (ctx : Context) (b : Backend) (commitment : Bytes) : Prop :=
  b.pool.all.get (bytesToHash commitment) = none →
    ∀ r, b.das.rows.find? (·.txHash = (bytesToHash commitment).hex) = some r →
      ¬Unloadable ctx.setBytes r

theorem leadsTo_iff {r : Found} (hr : b.get ctx (bytesToHash commit) = .ok r) :
    LeadsTo ctx b commit ↔ ∀ fd, b.pool.all.get (ctx.setBytes commit).fst.hash = some fd →
      r.da = some (ctx.heap fd) := by
  have hd := @da_get ctx b (bytesToHash commit)
  rw [hr] at hd
  refine forall₂_congr fun fd _ => getDA_eq_some_iff.symm.trans ?_
  rw [← hd]
  exact ⟨Except.ok.inj, congrArg _⟩

theorem BatchAgrees.leadsTo (h : BatchAgrees ctx b commitments) :
    ∀ commitment ∈ commitments, Readable ctx b commitment ∧ LeadsTo ctx b commitment := by
  obtain ⟨rs, hf, h⟩ := h
  rw [getBatchDAsByCommitments_eq, Loop.mapM_eq_ok_iff] at hf
  intro commitment hc
  obtain ⟨i, hi⟩ := List.mem_iff_getElem?.mp hc
  obtain ⟨r', hr', hg⟩ := Loop.forall₂_getElem? hf hi
  refine ⟨get_ok_iff.mp ⟨r', hg⟩, (leadsTo_iff hg).mpr fun fd hfd => ?_⟩
  obtain ⟨r, r'', hr, hr'', he⟩ := h i commitment hi (Option.isSome_of_eq_some hfd)
  rw [getDAByCommitment_of_held hfd] at hr
  cases hr
  cases hr'.symm.trans hr''
  exact he

theorem batchAgrees_iff (ctx : Context) (b : Backend) (commitments : List Bytes) :
    BatchAgrees ctx b commitments ↔
      ∀ commitment ∈ commitments, Readable ctx b commitment ∧ LeadsTo ctx b commitment := by
  constructor
  case mp  => exact BatchAgrees.leadsTo
  case mpr =>
    intro h
    obtain ⟨rs, hf⟩ := Loop.exists_forall₂ fun c hc => get_ok_iff.mpr (h c hc).left
    refine ⟨rs, by rw [getBatchDAsByCommitments_eq, Loop.mapM_eq_ok_iff]; exact hf, ?_⟩
    intro i commitment hi hs
    obtain ⟨fd, hfd⟩ := Option.isSome_iff_exists.mp hs
    obtain ⟨r', hr', hg⟩ := Loop.forall₂_getElem? hf hi
    refine ⟨_, r', getDAByCommitment_of_held hfd, hr', ?_⟩
    exact (leadsTo_iff hg).mp (h commitment (List.mem_of_getElem? hi)).right fd hfd

-- The compressed one does not.
theorem not_forall_batchAgrees :
    ¬∀ (ctx : Context) (b : Backend) (commitments : List Bytes), Digest.Codec ctx.setBytes →
      (∀ commitment ∈ commitments, (ctx.setBytes commitment).snd = none) →
      BatchAgrees ctx b commitments := by
  intro h
  obtain ⟨setBytes, hs⟩ := Digest.exists_codec
  have hg := hs.compressed _ Digest.isPoint_generator
  have hb := h (heldContext setBytes fun _ => .along []) holding [Digest.generator.compressed] hs
    (List.forall_mem_singleton.mpr (congrArg Prod.snd hg))
  have hf : holding.pool.all.get (setBytes Digest.generator.compressed).fst.hash = some 0 := by
    rw [hg]
    exact holding_get
  have hn : holding.pool.all.get (bytesToHash Digest.generator.compressed) = none := by
    decide +kernel
  obtain ⟨fd', hd, -⟩ | ⟨-, hd⟩ := (hb.leadsTo _ (List.mem_singleton_self _)).right 0 hf
  case inl => exact absurd (hn.symm.trans hd) (by simp)
  case inr => exact absurd (Except.ok.inj hd) (by simp)

end Batch
end Eth
