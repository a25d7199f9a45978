import DomiconExec.Eth.Backend
import DomiconExec.Objects.Theorems.Signing
import DomiconExec.Pool.Theorems.Journal

open List

namespace DA

-- The data without its times, which are not part of the encoding.
def untimed (da : DA) : DA :=
  { da with receiveAt := .zero, outOfTime := .zero }

variable {data : Bytes} {d : DA}

-- It makes no difference for an encoding which data is decoded into, except for the times.
theorem decode_of_zero (h : zero.decode data = .ok d) (old : DA) :
    old.decode data = .ok { d with receiveAt := old.receiveAt, outOfTime := old.outOfTime } := by
  have ht := decode_target zero old data
  rw [h] at ht
  generalize old.decode data = x at ht
  cases ht
  case ok hd => rw [hd.right.right]

theorem decode_error_of_zero {err : Rlp.DecodeError} (h : zero.decode data = .error err)
    (old : DA) : old.decode data = .error err := by
  have ht := decode_target zero old data
  rw [h] at ht
  generalize old.decode data = x at ht
  cases ht
  rfl

theorem outOfTime_of_decode (h : zero.decode data = .ok d) : d.outOfTime = .zero := by
  have hd := Except.ok.inj (h.symm.trans (decode_of_zero h zero))
  exact congrArg outOfTime hd

end DA

namespace FilePool.Lookup

variable {limit : UInt64} {ref : Ref} {t : Lookup} {ds : List DA} {k : Hash}

def submit (limit : UInt64) (ref : Ref) (t : Lookup) (d : DA) : Lookup :=
  t.enter (fun _ => d) limit ref

def taken (limit : UInt64) (ref : Ref) : Lookup → List DA → List DA
  | _, [] => []
  | t, d :: ds =>
    let rest := taken limit ref (t.submit limit ref d) ds
    if t.Blocks (fun _ => d) limit ref then rest else d :: rest

-- All keys of the data lead to the same address.
theorem get_foldl_submit : (ds.foldl (submit limit ref) t).get k =
    if ∃ d ∈ taken limit ref t ds, k ∈ d.keys then some ref else t.get k := by
  induction ds generalizing t
  case nil => simp [taken]
  case cons d ds hi =>
    rw [foldl_cons, hi, taken]
    by_cases hb : t.Blocks (fun _ => d) limit ref
    case pos => simp only [hb, if_true, submit, enter_of_blocks]
    case neg =>
      simp only [hb, if_false, submit, enter_of_not_blocks hb, add_get, exists_mem_cons_iff]
      by_cases hr : ∃ e ∈ taken limit ref (t.add ref d) ds, k ∈ e.keys
      case pos => simp only [hr, if_true, or_true]
      case neg => simp only [hr, if_false, or_false]

end FilePool.Lookup

namespace Eth.EthAPIBackend

open FilePool FilePool.Lookup

variable {PrivateKey : Type} {b : EthAPIBackend PrivateKey} {env : Nat → FilePool.Env} {da : Ref}
variable {pool : FilePool} {heap : Heap} {s : Batch} {data : Bytes} {datas : List Bytes} {d : DA}
variable {ds : List DA}

def Accepts (b : EthAPIBackend PrivateKey) (d : DA) : Bool :=
  SingerTool.verifyEth b.sdk d = (true, none)

def outcome (b : EthAPIBackend PrivateKey) (d : DA) : Option Bytes × Option GoError :=
  if b.Accepts d then
    ((SingerTool.sign b.crypto b.config b.prv d).toOption, none)
  else
    (none, (SingerTool.verifyEth b.sdk d).snd)

def Signs (b : EthAPIBackend PrivateKey) : Prop :=
  ∀ d, ∃ sign, SingerTool.sign b.crypto b.config b.prv d = .ok sign

section Step

variable {fd : DA}

theorem sendDA_rejected (hd : (s.heap da).decode data = .ok fd) (hv : ¬b.Accepts fd) :
    b.sendDA env da s data = .ok ⟨s.pool, Function.update s.heap da fd,
      s.outcomes ++ [(none, (SingerTool.verifyEth b.sdk fd).snd)]⟩ := by
  unfold sendDA
  rw [hd]
  dsimp only
  split
  case h_1 h => exact absurd (decide_eq_true h) hv
  case h_2 h => rw [h]

theorem sendDA_accepted {r : Added} {sign : Bytes} (hd : (s.heap da).decode data = .ok fd)
    (hv : b.Accepts fd)
    (hr : s.pool.add { env s.outcomes.length with
      heap := Function.update s.heap da { fd with receiveAt := (env s.outcomes.length).now } }
      [da] true = .ok r)
    (hs : SingerTool.sign b.crypto b.config b.prv
      { fd with receiveAt := (env s.outcomes.length).now } = .ok sign) :
    b.sendDA env da s data = .ok ⟨r.pool,
      Function.update s.heap da { fd with receiveAt := (env s.outcomes.length).now },
      s.outcomes ++ [(some sign, none)]⟩ := by
  unfold sendDA
  rw [hd]
  dsimp only
  rw [of_decide_eq_true hv]
  dsimp only
  rw [Loop.bind_of_eq_ok hr, Loop.bind_of_eq_ok hs]
  rfl

end Step

-- The state after the items that are decoded to `ds`.
structure After (b : EthAPIBackend PrivateKey) (da : Ref) (pool : FilePool) (heap : Heap)
    (ds : List DA) (s : Batch) : Prop where
  outcomes : s.outcomes = ds.map b.outcome
  config : s.pool.config = pool.config
  all : s.pool.all = (ds.filter b.Accepts).foldl (submit pool.config.globalSlots da) pool.all
  last : ∀ d ∈ ds.getLast?, (s.heap da).untimed = d.untimed
  outOfTime : (s.heap da).outOfTime = .zero
  frame : ∀ fd, fd ≠ da → s.heap fd = heap fd

theorem After.nil : After b da pool heap [] ⟨pool, Function.update heap da .zero, []⟩ where
  outcomes := rfl
  config := rfl
  all := rfl
  last := by simp
  outOfTime := by simp [DA.zero]
  frame fd hne := Function.update_of_ne hne ..

theorem After.decode (a : After b da pool heap ds s) (hd : DA.zero.decode data = .ok d) :
    (s.heap da).decode data = .ok { d with receiveAt := (s.heap da).receiveAt } := by
  rw [DA.decode_of_zero hd, a.outOfTime, ← DA.outOfTime_of_decode hd]

theorem After.rejected (a : After b da pool heap ds s) (hd : DA.zero.decode data = .ok d)
    (hv : ¬b.Accepts d) :
    ∃ s', b.sendDA env da s data = .ok s' ∧ After b da pool heap (ds ++ [d]) s' := by
  refine ⟨_, sendDA_rejected (a.decode hd) hv, ?_, a.config, ?_, ?_, ?_, fun fd hne => ?_⟩
  case refine_1 =>
    have ho : b.outcome d = (none, (SingerTool.verifyEth b.sdk d).snd) := if_neg hv
    rw [map_append, ← a.outcomes, map_singleton, ho]
    rfl
  case refine_2 => simpa [hv] using a.all
  case refine_3 => simp [DA.untimed]
  case refine_4 => simpa using DA.outOfTime_of_decode hd
  case refine_5 => exact (Function.update_of_ne hne ..).trans (a.frame fd hne)

theorem After.accepted (hs : b.Signs) (a : After b da pool heap ds s)
    (hd : DA.zero.decode data = .ok d) (hv : b.Accepts d) :
    ∃ s', b.sendDA env da s data = .ok s' ∧ After b da pool heap (ds ++ [d]) s' := by
  obtain ⟨sign, hg⟩ := hs d
  obtain ⟨r, hr, hall, _⟩ := add_ok
    { env s.outcomes.length with
      heap := Function.update s.heap da { d with receiveAt := (env s.outcomes.length).now } }
    s.pool [da] true
  refine ⟨_, sendDA_accepted (a.decode hd) hv hr hg, ?_, (add_kept hr).left.trans a.config, ?_, ?_,
    ?_, fun fd hne => ?_⟩
  case refine_1 =>
    have ho : b.outcome d = (some sign, none) := by
      simp [outcome, hv, hg, Except.toOption]
    rw [map_append, ← a.outcomes, map_singleton, ho]
  case refine_2 =>
    have hf : (ds ++ [d]).filter b.Accepts = ds.filter b.Accepts ++ [d] := by simp [hv]
    rw [hall, hf, foldl_append, ← a.all, a.config]
    simp only [foldl_cons, foldl_nil, submit, enter, Blocks, Function.update_self]
    rfl
  case refine_3 => simp [DA.untimed]
  case refine_4 => simpa using DA.outOfTime_of_decode hd
  case refine_5 => exact (Function.update_of_ne hne ..).trans (a.frame fd hne)

theorem After.sendDA (hs : b.Signs) (a : After b da pool heap ds s)
    (hd : DA.zero.decode data = .ok d) :
    ∃ s', b.sendDA env da s data = .ok s' ∧ After b da pool heap (ds ++ [d]) s' := by
  by_cases hv : b.Accepts d
  case pos => exact a.accepted hs hd hv
  case neg => exact a.rejected hd hv

theorem After.foldlM {ds₀ : List DA} (hs : b.Signs) (a : After b da pool heap ds₀ s)
    (h : List.Forall₂ (fun data d => DA.zero.decode data = .ok d) datas ds) :
    ∃ r, datas.foldlM (b.sendDA env da) s = .ok r ∧ After b da pool heap (ds₀ ++ ds) r := by
  induction h generalizing s ds₀
  case nil => exact ⟨s, rfl, (append_nil ds₀).symm ▸ a⟩
  case cons hd _ hi =>
    obtain ⟨s', hs', a'⟩ := a.sendDA hs hd
    obtain ⟨r, hr, a''⟩ := hi a'
    refine ⟨r, ?_, by simpa using a''⟩
    rw [foldlM_cons, Loop.bind_of_eq_ok hs', hr]

theorem sendBatchDA_after (hs : b.Signs) (hd : datas.mapM DA.zero.decode = .ok ds) :
    ∃ r, b.sendBatchDA env da pool heap datas = .ok r ∧ After b da pool heap ds r :=
  After.nil.foldlM hs (Loop.mapM_eq_ok_iff.mp hd)

-- There is neither a signature nor an error for an item that cannot be decoded.
def Lost (data : Bytes) (o : Option Bytes × Option GoError) : Prop :=
  ∀ err, DA.zero.decode data = .error err → o = (none, none)

theorem sendDA_lost {s' : Batch} (h : b.sendDA env da s data = .ok s') :
    ∃ o, s'.outcomes = s.outcomes ++ [o] ∧ Lost data o := by
  cases hd : DA.zero.decode data
  case error err =>
    unfold sendDA at h
    rw [DA.decode_error_of_zero hd] at h
    cases h
    exact ⟨_, rfl, fun _ _ => rfl⟩
  case ok d =>
    have ho : ∃ o, s'.outcomes = s.outcomes ++ [o] := by
      unfold sendDA at h
      rw [DA.decode_of_zero hd] at h
      dsimp only at h
      split at h
      case h_1 =>
        obtain ⟨r, _, h⟩ := Loop.bind_eq_ok h
        obtain ⟨sign, _, h⟩ := Loop.bind_eq_ok h
        cases h
        exact ⟨_, rfl⟩
      case h_2 =>
        cases h
        exact ⟨_, rfl⟩
    obtain ⟨o, ho⟩ := ho
    refine ⟨o, ho, fun err he => ?_⟩
    cases hd.symm.trans he

theorem foldlM_lost {r : Batch} (h : datas.foldlM (b.sendDA env da) s = .ok r) :
    ∃ os, r.outcomes = s.outcomes ++ os ∧ List.Forall₂ Lost datas os := by
  induction datas generalizing s
  case nil =>
    cases h
    exact ⟨[], by simp, .nil⟩
  case cons data datas hi =>
    obtain ⟨s', hs, h⟩ := Loop.bind_eq_ok h
    obtain ⟨o, ho, hl⟩ := sendDA_lost hs
    obtain ⟨os, hos, hls⟩ := hi h
    exact ⟨o :: os, by rw [hos, ho, append_assoc]; rfl, .cons hl hls⟩

-- Each item has the pair that it would have alone. The key of an accepted item leads to its
-- contents.
structure Itemwise (b : EthAPIBackend PrivateKey) (da : Ref) (pool : FilePool) (heap : Heap)
    (datas : List Bytes) (r : Batch) : Prop where
  alone : ∀ (i : Nat) data, datas[i]? = some data → ∀ env, ∃ r' o,
    b.sendBatchDA env da pool heap [data] = .ok r' ∧ r'.outcomes = [o] ∧ r.outcomes[i]? = some o
  one : ∀ o ∈ r.outcomes, o.fst.isSome ↔ o.snd = none
  stored : ∀ (i : Nat) data o, datas[i]? = some data → r.outcomes[i]? = some o → o.fst.isSome →
    ∃ d fd, DA.zero.decode data = .ok d ∧ r.pool.all.get d.key = some fd ∧
      (r.heap fd).untimed = d.untimed

def Takes (pool : FilePool) (da : Ref) (sent : List DA) (key : Hash) : Prop :=
  ∃ e ∈ taken pool.config.globalSlots da pool.all sent, key ∈ e.keys

-- What the pool has in the end for the key of `d`: the last item of the batch if it took one with
-- this key, and otherwise what it had.
structure Kept (pool : FilePool) (heap : Heap) (da : Ref) (sent : List DA) (last d : DA) :
    Prop where
  taken : Takes pool da sent d.key → last.untimed = d.untimed
  known : ¬Takes pool da sent d.key →
    ∃ fd, pool.all.get d.key = some fd ∧ (heap fd).untimed = d.untimed

theorem After.kept_iff {r : Batch} {last : DA} (a : After b da pool heap ds r)
    (hf : ∀ k, pool.all.get k ≠ some da) (hl : ds.getLast? = some last) :
    (∃ fd, r.pool.all.get d.key = some fd ∧ (r.heap fd).untimed = d.untimed) ↔
      Kept pool heap da (ds.filter b.Accepts) last d := by
  by_cases ht : Takes pool da (ds.filter b.Accepts) d.key
  case pos =>
    have hk : Kept pool heap da (ds.filter b.Accepts) last d ↔ last.untimed = d.untimed :=
      ⟨fun h => h.taken ht, fun h => ⟨fun _ => h, absurd ht⟩⟩
    rw [hk, a.all, get_foldl_submit.trans (if_pos ht)]
    simp [a.last last hl]
  case neg =>
    have hk : Kept pool heap da (ds.filter b.Accepts) last d ↔
        ∃ fd, pool.all.get d.key = some fd ∧ (heap fd).untimed = d.untimed :=
      ⟨fun h => h.known ht, fun h => ⟨fun h => absurd h ht, fun _ => h⟩⟩
    rw [hk, a.all, get_foldl_submit.trans (if_neg ht)]
    refine exists_congr fun fd => and_congr_right fun hg => ?_
    rw [a.frame fd fun he => hf d.key (he ▸ hg)]

theorem outcome_isSome (hs : b.Signs) : (b.outcome d).fst.isSome ↔ b.Accepts d := by
  obtain ⟨sign, hg⟩ := hs d
  unfold outcome
  split
  case isTrue h  => simp [h, hg, Except.toOption]
  case isFalse h => simp [h]

theorem outcome_one_iff (hs : b.Signs) :
    ((b.outcome d).fst.isSome ↔ (b.outcome d).snd = none) ↔
      ¬(d.length = UInt64.ofNat d.data.length ∧ Refuted b.sdk d) := by
  rw [outcome_isSome hs, ← verifyEth_eq_false]
  unfold outcome Accepts
  generalize SingerTool.verifyEth b.sdk d = v
  obtain ⟨flag, err⟩ := v
  cases flag <;> cases err <;> simp

theorem decodes_of_one {r : Batch} (h : b.sendBatchDA env da pool heap datas = .ok r)
    (ho : ∀ o ∈ r.outcomes, o.fst.isSome ↔ o.snd = none) :
    ∃ ds, datas.mapM DA.zero.decode = .ok ds := by
  obtain ⟨os, he, hl⟩ := foldlM_lost h
  rw [nil_append] at he
  refine Loop.mapM_ok_iff.mpr fun data hm => ?_
  cases hd : DA.zero.decode data
  case ok d      => exact ⟨d, rfl⟩
  case error err =>
    obtain ⟨o, hm, hl⟩ := Loop.forall₂_mem hl hm
    exact absurd (ho o (he ▸ hm)) (by simp [hl err hd])

-- A batch is as good as its items exactly if all can be decoded, no proof is refuted, and the pool
-- ends up with the right data under the keys of the accepted ones.
theorem itemwise_iff (b : EthAPIBackend PrivateKey) (env : Nat → FilePool.Env) (da : Ref)
    (pool : FilePool) (heap : Heap) (datas : List Bytes) (hs : b.Signs)
    (hf : ∀ k, pool.all.get k ≠ some da) :
    (∃ r, b.sendBatchDA env da pool heap datas = .ok r ∧ Itemwise b da pool heap datas r) ↔
      ∃ ds, datas.mapM DA.zero.decode = .ok ds ∧
        (∀ d ∈ ds, ¬(d.length = UInt64.ofNat d.data.length ∧ Refuted b.sdk d)) ∧
        ∀ d ∈ ds.filter b.Accepts, ∀ last ∈ ds.getLast?,
          Kept pool heap da (ds.filter b.Accepts) last d := by
  constructor
  case mp =>
    rintro ⟨r, hr, hi⟩
    obtain ⟨ds, hd⟩ := decodes_of_one hr hi.one
    obtain ⟨r', hr', a⟩ := @sendBatchDA_after _ b env da pool heap datas ds hs hd
    cases hr.symm.trans hr'
    refine ⟨ds, hd, fun d hm => ?_, fun d hm last hl => ?_⟩
    case refine_1 =>
      refine (outcome_one_iff hs).mp (hi.one _ ?_)
      exact a.outcomes ▸ mem_map_of_mem hm
    case refine_2 =>
      obtain ⟨hm, hv⟩ := mem_filter.mp hm
      obtain ⟨i, hi'⟩ := mem_iff_getElem?.mp hm
      obtain ⟨data, hg, hz⟩ := Loop.forall₂_getElem? (Loop.mapM_eq_ok_iff.mp hd).flip hi'
      obtain ⟨d', fd, hd', h⟩ := hi.stored i data (b.outcome d) hg (by simp [a.outcomes, hi'])
        ((outcome_isSome hs).mpr hv)
      cases hz.symm.trans hd'
      exact (a.kept_iff hf hl).mp ⟨fd, h⟩
  case mpr =>
    rintro ⟨ds, hd, hn, hk⟩
    obtain ⟨r, hr, a⟩ := @sendBatchDA_after _ b env da pool heap datas ds hs hd
    refine ⟨r, hr, fun i data hi env' => ?_, fun o ho => ?_, fun i data o hi ho hv => ?_⟩
    case refine_1 =>
      obtain ⟨d, hg, hz⟩ := Loop.forall₂_getElem? (Loop.mapM_eq_ok_iff.mp hd) hi
      obtain ⟨r', hr', a'⟩ := @sendBatchDA_after _ b env' da pool heap [data] [d] hs
        (Loop.mapM_eq_ok_iff.mpr (.cons hz .nil))
      exact ⟨r', b.outcome d, hr', a'.outcomes, by simp [a.outcomes, hg]⟩
    case refine_2 =>
      rw [a.outcomes] at ho
      obtain ⟨d, hm, rfl⟩ := mem_map.mp ho
      exact (outcome_one_iff hs).mpr (hn d hm)
    case refine_3 =>
      obtain ⟨d, hg, hz⟩ := Loop.forall₂_getElem? (Loop.mapM_eq_ok_iff.mp hd) hi
      rw [a.outcomes, List.getElem?_map, hg] at ho
      cases ho
      have hm : d ∈ ds.filter b.Accepts :=
        mem_filter.mpr ⟨mem_of_getElem? hg, (outcome_isSome hs).mp hv⟩
      obtain ⟨last, hl⟩ : ∃ last, ds.getLast? = some last :=
        ⟨_, (getLast_eq_iff_getLast?_eq_some (ne_nil_of_mem (mem_of_getElem? hg))).mp
          rfl⟩
      obtain ⟨fd, h⟩ := (a.kept_iff hf hl).mpr (hk d hm last hl)
      exact ⟨d, fd, hz, h⟩

def sampleBackend : EthAPIBackend Unit where
  crypto := sampleCrypto false
  config := sampleConfig
  prv := ()
  sdk := answering true
  leftover old _ := old

theorem sampleBackend_signs : sampleBackend.Signs :=
  fun _ => ⟨_, singerTool_sign_bytes rfl⟩

def submitted (n : UInt8) : DA :=
  { DA.zero with txHash := .fill n, nameSpaceID := some 0 }

theorem decode_submitted (n : UInt8) (h : (submitted n).item.encode.length < 2 ^ 64) :
    DA.zero.decode (submitted n).item.encode = .ok (submitted n) :=
  (@DA.decode_item (submitted n) (Int.le_refl 0) h).right

theorem decode_seven : DA.zero.decode (submitted 7).item.encode = .ok (submitted 7) :=
  decode_submitted 7 (by decide +kernel)

-- The second item has the contents of the first one.
theorem itemwise_repeated :
    ∃ r, sampleBackend.sendBatchDA (fun _ => plainEnv) 0 (new DefaultConfig "" "a")
        plainEnv.heap [(submitted 7).item.encode, (submitted 7).item.encode] = .ok r ∧
      Itemwise sampleBackend 0 (new DefaultConfig "" "a") plainEnv.heap
        [(submitted 7).item.encode, (submitted 7).item.encode] r := by
  refine (itemwise_iff sampleBackend _ 0 _ _ _ sampleBackend_signs fun k => ?_).mpr
    ⟨[submitted 7, submitted 7],
      Loop.mapM_eq_ok_iff.mpr (.cons decode_seven (.cons decode_seven .nil)), ?_, ?_⟩
  case refine_1 => simp [new, newLookup, Lookup.get]
  case refine_2 => simp [Refuted, sampleBackend, answering]
  case refine_3 =>
    have hf : [submitted 7, submitted 7].filter sampleBackend.Accepts =
        [submitted 7, submitted 7] := by decide
    rw [hf]
    intro d hd last hl
    have hd : d = submitted 7 := by simpa using hd
    rw [hd, ← Option.some.inj hl]
    exact ⟨fun _ => rfl, fun h => absurd ⟨submitted 7, by decide, by decide⟩ h⟩

-- The first item leads to the contents of the second one.
theorem not_itemwise_overwritten :
    ¬∀ (PrivateKey : Type) (b : EthAPIBackend PrivateKey) (env : Nat → FilePool.Env) (da : Ref)
      (pool : FilePool) (heap : Heap) (datas : List Bytes), b.Signs →
      (∀ k, pool.all.get k ≠ some da) →
        ∃ r, b.sendBatchDA env da pool heap datas = .ok r ∧ Itemwise b da pool heap datas r := by
  intro h
  have hn (k : Hash) : (new DefaultConfig "" "a").all.get k ≠ some 0 := by
    simp [new, newLookup, Lookup.get]
  obtain ⟨r, hr, hi⟩ := h Unit sampleBackend (fun _ => plainEnv) 0 _ plainEnv.heap _
    sampleBackend_signs hn
  have decode_both : List.Forall₂ (fun data d => DA.zero.decode data = .ok d)
      [(submitted 7).item.encode, (submitted 8).item.encode] [submitted 7, submitted 8] :=
    .cons decode_seven (.cons (decode_submitted 8 (by decide +kernel)) .nil)
  obtain ⟨r', hr', a⟩ := sendBatchDA_after sampleBackend_signs <|
    Loop.mapM_eq_ok_iff.mpr decode_both
  cases hr.symm.trans hr'
  have ha : (sampleBackend.outcome (submitted 7)).fst.isSome :=
    (outcome_isSome sampleBackend_signs).mpr (by decide)
  obtain ⟨d, fd, hd, hs⟩ := hi.stored 0 _ _ rfl (congrArg (·[0]?) a.outcomes) ha
  obtain ⟨d', hg, hd'⟩ := @Loop.forall₂_getElem? _ _ _ _ _ 0 _ decode_both rfl
  cases hg
  cases hd'.symm.trans hd
  have hk := ((a.kept_iff hn rfl).mp ⟨fd, hs⟩).taken ⟨submitted 7, by decide, by decide⟩
  exact absurd (congrArg DA.txHash hk) (by decide)

end Eth.EthAPIBackend
