import DomiconExec.Db.Theorems.RoundTrip
import DomiconExec.Eth.Handler
import DomiconExec.Fetcher.Theorems.Intake

namespace Eth

open List
open FilePool (Ref Heap)
open Fetcher (ValidBatch)
open Db

variable {ctx : Context} {b : Backend} {peer : Peer} {heap : Heap} {fd : Ref}
variable {fds : List (Option Ref)}

def AllValid (ctx : Context) (fds : List Ref) : Prop :=
  ∀ i, ValidBatch ctx.heap ctx.env fds i

theorem handle_fileData_ok_iff {fds : List Ref} :
    (∃ r, handle ctx b peer (.fileData fds) = .ok r) ↔ AllValid ctx fds :=
  (Loop.bind_ok_iff fun _ => ⟨_, rfl⟩).trans Fetcher.enqueue_ok_iff

theorem handle_pooledFileDataResponse_ok_iff {fds : List Ref} :
    (∃ r, handle ctx b peer (.pooledFileDataResponse fds) = .ok r) ↔ AllValid ctx fds :=
  (Loop.bind_ok_iff fun _ => ⟨_, rfl⟩).trans Fetcher.enqueue_ok_iff

theorem handle_newPooledFileDataHashes67_ok_iff {hashes : List Hash} :
    (∃ r, handle ctx b peer (.newPooledFileDataHashes67 hashes) = .ok r) ↔
      ∀ hash ∈ hashes, (b.pool.all.get hash).isSome := by
  refine (Loop.bind_ok_iff fun _ => ⟨_, rfl⟩).trans <| Fetcher.notify_ok_iff.trans ?_
  simp only [length_nil, Nat.not_lt_zero, or_false, mem_iff_getElem?]
  refine ⟨?_, fun h j hash hj => h hash ⟨j, hj⟩⟩
  rintro h hash ⟨j, hj⟩
  exact h j hash hj

theorem handle_newPooledFileDataHashes68_ok {sizes : List UInt32} {hashes : List Hash}
    (h : hashes.length = sizes.length) :
    ∃ r, handle ctx b peer (.newPooledFileDataHashes68 sizes hashes) = .ok r := by
  refine (Loop.bind_ok_iff fun _ => ⟨_, rfl⟩).mpr <| Fetcher.notify_ok_iff.mpr fun j hash hj => ?_
  exact .inr <| h ▸ (List.getElem?_eq_some_iff.mp hj).fst

-- The elements that `handleFileDatas` does not reject: none is nil, and no commitment is empty up
-- to an element without a transaction hash.
structure Legal (heap : Heap) (fds : List (Option Ref)) : Prop where
  not_nil : none ∉ fds
  commit : ∀ l fd r, fds = l ++ some fd :: r → (heap fd).txHash = .zero →
    ∀ g, some g ∈ l ++ [some fd] → ¬(heap g).commitIsEmpty

theorem legal_cons : Legal heap (some fd :: fds) ↔
    ¬((heap fd).txHash = .zero ∧ (heap fd).commitIsEmpty) ∧ Legal heap fds ∧
      ((heap fd).commitIsEmpty → ∀ g, some g ∈ fds → (heap g).txHash ≠ .zero) where
  mp h := by
    refine ⟨?_, ⟨?_, ?_⟩, ?_⟩
    case refine_1 => exact fun hf => h.commit [] fd fds rfl hf.left fd (by simp) hf.right
    case refine_2 => exact fun hn => h.not_nil (mem_cons_of_mem _ hn)
    case refine_3 =>
      intro l g r hl ht g' hg
      exact h.commit (some fd :: l) g r (congrArg _ hl) ht g' (mem_cons_of_mem _ hg)
    case refine_4 =>
      intro hc g hg ht
      obtain ⟨l, r, hl⟩ := append_of_mem hg
      exact h.commit (some fd :: l) g r (congrArg _ hl) ht fd mem_cons_self hc
  mpr := by
    rintro ⟨hf, hl, hc⟩
    refine ⟨?_, ?_⟩
    case refine_1 => simpa using hl.not_nil
    case refine_2 =>
      rintro (_ | ⟨x, l⟩) g r he ht g' hg
      case nil =>
        cases he
        cases mem_singleton.mp hg
        exact fun hc => hf ⟨ht, hc⟩
      case cons =>
        cases he
        obtain hg | hg := mem_cons.mp hg
        case inr => exact hl.commit l g r rfl ht g' hg
        case inl =>
          cases hg
          exact fun he => hc he g (by simp) ht

theorem validateFileDatas_eq_none {c : Bool} {i : Nat} :
    (validateFileDatas heap c i fds).snd = none ↔
      Legal heap fds ∧ (c → ∀ g, some g ∈ fds → (heap g).txHash ≠ .zero) := by
  induction fds generalizing c i
  case nil => exact ⟨fun _ => ⟨⟨by simp, by simp⟩, by simp⟩, fun _ => rfl⟩
  case cons x fds hi =>
    cases x
    case none =>
      refine ⟨fun h => ?_, fun h => absurd h.left.not_nil (by simp)⟩
      simp [validateFileDatas] at h
    case some fd =>
      rw [legal_cons, validateFileDatas]
      dsimp only
      split
      case isTrue h  => grind
      case isFalse h => grind

-- A broadcast whose first element is known is ignored, if its commitment is not empty.
structure Known (known : KnownCache) (da : DA) : Prop where
  commit : ¬da.commitIsEmpty
  mem : da.commitment.hash ∈ known.hashes ∨ da.txHash ≠ .zero ∧ da.txHash ∈ known.hashes

theorem isKnown_iff {known : KnownCache} {da : DA} : isKnown known da ↔ Known known da := by
  have hk : Known known da ↔ ¬da.commitIsEmpty ∧
      (da.commitment.hash ∈ known.hashes ∨ da.txHash ≠ .zero ∧ da.txHash ∈ known.hashes) :=
    ⟨fun h => ⟨h.commit, h.mem⟩, fun h => ⟨h.left, h.right⟩⟩
  rw [hk]
  by_cases hc : da.commitIsEmpty <;> by_cases ht : da.txHash = .zero <;>
    simp [isKnown, KnownCache.contains, hc, ht]

theorem validatePooledFileDatas_eq_none {i : Nat} :
    (validatePooledFileDatas heap i fds).snd = none ↔ none ∉ fds := by
  induction fds generalizing i
  case nil => simp [validatePooledFileDatas]
  case cons x fds hi =>
    cases x
    case none => simp [validatePooledFileDatas]
    case some fd => simp [validatePooledFileDatas, hi]

theorem getDA_ok_iff {hash : Hash} : (∃ r, getDA ctx b hash = .ok r) ↔
    (b.pool.all.get hash).isSome ∨
    ∀ r, b.das.rows.find? (·.txHash = hash.hex) = some r → ¬Unloadable ctx.setBytes r := by
  unfold getDA
  cases b.pool.all.get hash
  case some fd => simp
  case none =>
    simp only [Option.isSome_none, Bool.false_eq_true, false_or, ← getCommitmentByTxHash_ok_iff,
      getDAByCommitmentHash_eq]
    refine Loop.bind_ok_iff fun e => ?_
    cases e <;> exact ⟨_, rfl⟩

theorem answer_ok_iff {query : List Hash} {l : List (Hash × Bytes)} :
    (∃ r, answer ctx b query l = .ok r) ↔
      ∀ hash ∈ query.takeWhile (· ≠ .zero), ∃ r, getDA ctx b hash = .ok r := by
  induction query generalizing l
  case nil => simp [answer]
  case cons hash query hi =>
    rw [answer, takeWhile_cons]
    split
    case isTrue h => simp [h]
    case isFalse h =>
      simp only [ne_eq, h, not_false_eq_true, decide_true, if_true, forall_mem_cons]
      cases hg : getDA ctx b hash
      case error => simp [bind, Except.bind]
      case ok da =>
        simp only [bind, Except.bind, Except.ok.injEq, exists_eq', true_and]
        cases da
        case none => exact hi
        case some da =>
          dsimp only
          split <;> exact hi

-- The messages that do not crash the handler.
def Harmless (ctx : Context) (b : Backend) (peer : Peer) {v : Version} : Message v → Prop
  | .fileData fds =>
    ∃ fd rest, fds = some fd :: rest ∧
      (¬Known peer.knownFds (ctx.heap fd) → Legal ctx.heap fds → AllValid ctx fds.reduceOption)
  | .newPooledFileDataHashes67 hashes =>
    ∀ hash ∈ hashes, (b.pool.all.get hash).isSome
  | .newPooledFileDataHashes68 _ _ =>
    True
  | .getPooledFileDatas _ query =>
    query ≠ [] ∧ ∀ hash ∈ query.takeWhile (· ≠ .zero),
      (b.pool.all.get hash).isSome ∨
      ∀ r, b.das.rows.find? (·.txHash = hash.hex) = some r → ¬Unloadable ctx.setBytes r
  | .pooledFileDatas fds =>
    none ∉ fds → AllValid ctx fds.reduceOption

-- Initially `commitIsEmpty` is that of the first element, which makes no difference.
theorem validateFileDatas_cons_eq_none {i : Nat} :
    (validateFileDatas heap (heap fd).commitIsEmpty i (some fd :: fds)).snd = none ↔
      Legal heap (some fd :: fds) := by
  rw [validateFileDatas_eq_none, and_iff_left_iff_imp]
  intro h hc g hg
  obtain ⟨hf, _, hr⟩ := legal_cons.mp h
  obtain hg | hg := mem_cons.mp hg
  case inl =>
    cases hg
    exact fun ht => hf ⟨ht, hc⟩
  case inr => exact hr hc g hg

theorem handleFileDatas_cons_ok_iff :
    (∃ r, handleFileDatas ctx b peer (some fd :: fds) = .ok r) ↔
      (¬Known peer.knownFds (ctx.heap fd) → Legal ctx.heap (some fd :: fds) →
        AllValid ctx (some fd :: fds).reduceOption) := by
  have hv := @validateFileDatas_cons_eq_none ctx.heap fd fds 0
  simp only [handleFileDatas]
  split
  case isTrue h =>
    exact iff_of_true ⟨_, rfl⟩ fun _ hl => absurd h (legal_cons.mp hl).left
  case isFalse h =>
    split
    case isTrue hk =>
      exact iff_of_true ⟨_, rfl⟩ fun hn => absurd (isKnown_iff.mp hk) hn
    case isFalse hk =>
      rw [imp_iff_right (mt isKnown_iff.mpr hk), ← hv]
      cases (validateFileDatas ctx.heap (ctx.heap fd).commitIsEmpty 0 (some fd :: fds)).snd
      case some err => exact iff_of_true ⟨_, rfl⟩ nofun
      case none     => exact handle_fileData_ok_iff.trans (imp_iff_right rfl).symm

theorem handleFileDatas_ok_iff : (∃ r, handleFileDatas ctx b peer fds = .ok r) ↔
    ∃ fd rest, fds = some fd :: rest ∧
      (¬Known peer.knownFds (ctx.heap fd) → Legal ctx.heap fds →
        AllValid ctx fds.reduceOption) := by
  rcases fds with _ | ⟨_ | fd, rest⟩
  case nil       => simp [handleFileDatas]
  case cons.none => simp [handleFileDatas]
  case cons.some =>
    rw [handleFileDatas_cons_ok_iff]
    refine ⟨fun h => ⟨fd, rest, rfl, h⟩, ?_⟩
    rintro ⟨g, l, he, h⟩
    cases he
    exact h

theorem handlePooledFileDatas_ok_iff : (∃ r, handlePooledFileDatas ctx b peer fds = .ok r) ↔
    (none ∉ fds → AllValid ctx fds.reduceOption) := by
  have hv := @validatePooledFileDatas_eq_none ctx.heap fds 0
  unfold handlePooledFileDatas
  rcases hp : validatePooledFileDatas ctx.heap 0 fds with ⟨marks, err⟩
  rw [hp] at hv
  dsimp only at hv ⊢
  cases err
  case some err => simp [← hv]
  case none     => simp [← hv, handle_pooledFileDataResponse_ok_iff]

theorem handleGetPooledFileDatas_ok_iff {requestId : UInt64} {query : List Hash} :
    (∃ r, handleGetPooledFileDatas ctx b peer requestId query = .ok r) ↔
      query ≠ [] ∧ ∀ hash ∈ query.takeWhile (· ≠ .zero), ∃ r, getDA ctx b hash = .ok r := by
  cases query
  case nil             => simp [handleGetPooledFileDatas]
  case cons hash query =>
    rw [and_iff_right (cons_ne_nil _ _), ← answer_ok_iff]
    exact Loop.bind_ok_iff fun _ => ⟨_, rfl⟩

-- Exactly the harmless messages are processed up to a proper return.
theorem handleMessage_ok_iff_harmless (v : Version) (ctx : Context) (b : Backend) (peer : Peer)
    (msg : Message v) : (∃ r, handleMessage ctx b peer msg = .ok r) ↔ Harmless ctx b peer msg := by
  cases msg
  case fileData fds => exact handleFileDatas_ok_iff
  case newPooledFileDataHashes67 hashes => exact handle_newPooledFileDataHashes67_ok_iff
  case newPooledFileDataHashes68 sizes hashes =>
    refine iff_of_true ?_ trivial
    simp only [handleMessage, handleNewPooledFileDataHashes68]
    split
    case isTrue    => exact ⟨_, rfl⟩
    case isFalse h => exact handle_newPooledFileDataHashes68_ok (not_not.mp h)
  case getPooledFileDatas requestId query =>
    simp only [handleMessage, handleGetPooledFileDatas_ok_iff, getDA_ok_iff]
    rfl
  case pooledFileDatas fds => exact handlePooledFileDatas_ok_iff

def quietContext (popOrder : Nat → IterOrder Hash) : Context where
  heap _ := .zero
  setBytes _ := (.zero, none)
  env _ := FilePool.mismatchedEnv
  popOrder := popOrder
  quit := false
  sendError := none
  text := ""

def emptyBackend : Backend where
  pool := .new FilePool.DefaultConfig "fileData.rlp" ""
  das := []

def newPeer : Peer where
  id := "p"
  knownFds := .newKnownCache maxKnownFds

-- An announcement of a hash that is not in the pool is enough.
theorem not_handleMessage_ok :
    ¬∀ (v : Version) (ctx : Context) (b : Backend) (peer : Peer) (msg : Message v),
      ∃ r, handleMessage ctx b peer msg = .ok r := by
  intro h
  have hr := h .eth67 (quietContext fun _ => .along []) emptyBackend newPeer
    (.newPooledFileDataHashes67 [.fill 1])
  have hk := handle_newPooledFileDataHashes67_ok_iff.mp hr (.fill 1) List.mem_cons_self
  exact absurd hk (by decide)

end Eth
