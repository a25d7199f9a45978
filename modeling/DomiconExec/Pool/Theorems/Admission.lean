import DomiconExec.Primitives.Loop
import DomiconExec.Objects.Signing
import DomiconExec.Pool.Theorems.Lookup

namespace FilePool

open List Lookup

variable {env : Env} {fp : FilePool} {fd : Ref} {da : DA}

section Insert

variable {fds : List Ref}

theorem journalFd_all {hash : Hash} : (fp.journalFd env hash fd).all = fp.all := by
  unfold journalFd
  split
  case h_1 => rfl
  case h_2 => split <;> rfl

theorem journalFd_config {hash : Hash} : (fp.journalFd env hash fd).config = fp.config := by
  unfold journalFd
  split
  case h_1 => rfl
  case h_2 => split <;> rfl

def journaled (fp : FilePool) : List (Ref × Bytes) :=
  (fp.journal.map Journal.file).getD []

theorem insert_file (j : Journal) : ∃ added, (j.insert env fd).fst.file = j.file ++ added ∧
    ∀ e ∈ added, e.fst = fd := by
  unfold Journal.insert Journal.append
  split
  case h_1 => exact ⟨[], by simp⟩
  case h_2 =>
    split
    case h_1 => exact ⟨[], by simp⟩
    case h_2 =>
      split
      case h_1 => exact ⟨[], by simp⟩
      case h_2 => split <;> exact ⟨[_], rfl, by simp⟩

theorem journalFd_journaled {hash : Hash} : ∃ added,
    (fp.journalFd env hash fd).journaled = fp.journaled ++ added ∧ ∀ e ∈ added, e.fst = fd := by
  unfold journalFd
  split
  case h_1 => exact ⟨[], by simp⟩
  case h_2 j hj =>
    split
    case isTrue  => exact ⟨[], by simp⟩
    case isFalse => simpa [journaled, hj] using insert_file j

-- What `addFd` does, depending on whether the data is turned away.
theorem addFd_of_blocks (h : fp.all.Blocks env.heap fp.config.globalSlots fd) :
    ∃ err, fp.addFd env fd = (fp, some err) := by
  unfold addFd
  by_cases hk : (fp.all.get (env.heap fd).key).isSome
  case pos => exact ⟨errAlreadyKnown, by simp only [hk, if_true]⟩
  case neg => exact ⟨errFdPoolOverflow, by simp only [hk, h.resolve_left hk, if_true]; rfl⟩

theorem addFd_of_not_blocks (h : ¬fp.all.Blocks env.heap fp.config.globalSlots fd) :
    ∃ fp', fp.addFd env fd = (fp', none) ∧ fp'.all = fp.all.add fd (env.heap fd) ∧
      fp'.config = fp.config ∧
      ∃ added, fp'.journaled = fp.journaled ++ added ∧ ∀ e ∈ added, e.fst = fd := by
  have ⟨hk, hs⟩ := not_or.mp h
  simp only [addFd, hk, hs, if_false]
  refine ⟨_, rfl, ?_, journalFd_config, journalFd_journaled⟩
  simp only [journalFd_all]

def inserted (l : List (Ref × Option GoError)) : List Ref :=
  l.filter (·.snd.isNone) |>.map Prod.fst

theorem addFdsLocked_ok (env : Env) (fp : FilePool) (fds : List Ref) :
    (fp.addFdsLocked env fds).fst.all = fds.foldl (enter env.heap fp.config.globalSlots) fp.all ∧
    (fp.addFdsLocked env fds).snd.length = fds.length ∧
    inserted (fds.zip (fp.addFdsLocked env fds).snd) =
      admitted env.heap fp.config.globalSlots fp.all fds ∧
    ∃ added, (fp.addFdsLocked env fds).fst.journaled = fp.journaled ++ added ∧
      ∀ e ∈ added, e.fst ∈ admitted env.heap fp.config.globalSlots fp.all fds := by
  induction fds generalizing fp
  case nil => exact ⟨rfl, rfl, rfl, [], by simp [addFdsLocked]⟩
  case cons fd fds hi =>
    by_cases hb : fp.all.Blocks env.heap fp.config.globalSlots fd
    case pos =>
      obtain ⟨err, he⟩ := addFd_of_blocks hb
      obtain ⟨ha, hl, hn, hj⟩ := hi fp
      simp only [addFdsLocked, he, foldl_cons, enter_of_blocks hb, admitted, hb, if_true,
        length_cons]
      exact ⟨ha, congrArg _ hl, hn, hj⟩
    case neg =>
      obtain ⟨fp', he, ha', hc, added', hj', hm'⟩ := addFd_of_not_blocks hb
      obtain ⟨ha, hl, hn, added, hj, hm⟩ := hi fp'
      rw [ha', hc] at ha hn hm
      simp only [addFdsLocked, he, foldl_cons, enter_of_not_blocks hb, admitted, hb, if_false,
        length_cons]
      refine ⟨ha, congrArg _ hl, congrArg (fd :: ·) hn, added' ++ added, ?_, ?_⟩
      case refine_1 => rw [hj, hj', append_assoc]
      case refine_2 =>
        intro e h
        cases mem_append.mp h
        case inl h => exact hm' e h ▸ List.mem_cons_self
        case inr h => exact mem_cons_of_mem _ (hm e h)

end Insert

section Add

variable {isLocal : Bool} {errs : List (Option GoError)}

theorem validateFileDataSignature_err : validateFileDataSignature env da isLocal = (true, none) ∨
    ∃ err, validateFileDataSignature env da isLocal = (false, some err) := by
  unfold validateFileDataSignature
  grind

theorem count_none_set {i : Nat} (err : GoError) (h : errs[i]? = some none) :
    (errs.set i (some err)).count none + 1 = errs.count none := by
  have ⟨hi, he⟩ := List.getElem?_eq_some_iff.mp h
  rw [count_set hi]
  have : errs.count none ≠ 0 := by
    rw [Ne, count_eq_zero, not_not]
    exact he ▸ getElem_mem hi
  simp [he]
  omega

-- Data that another peer may send.
structure Valid (env : Env) (da : DA) : Prop where
  length : da.length = UInt64.ofNat da.data.length
  signData : da.signData ≠ []
  sdk : env.initMultiAdaptiveSdk = none
  proof : env.verifyCommitWithProof da.commitment.marshal da.proof da.claimedValue = none

theorem validateFileDataSignature_eq_none :
    (validateFileDataSignature env da false).snd = none ↔ Valid env da where
  mp h := by
    simp only [validateFileDataSignature] at h
    constructor <;> grind
  mpr h := by
    simp [validateFileDataSignature, h.length, h.signData, h.sdk, h.proof]

-- The validation only appends an error behind the error slots.
theorem screen_cons (s : Screened) (fds : List Ref) (i : Nat) : ∃ s₁ : Screened,
    s₁.news = s.news ∧ s₁.errs.count none = s.errs.count none ∧ (∃ v, s₁.errs = s.errs ++ v) ∧
    screen env fp isLocal (fd :: fds) i s =
      if fp.all.Unknown env.heap fd then
        screen env fp isLocal fds (i + 1) { s₁ with news := s₁.news ++ [fd] }
      else
        screen env fp isLocal fds (i + 1)
          { s₁ with errs := s₁.errs.set i (some errAlreadyKnown) } := by
  have hk : fp.all.Unknown env.heap fd ↔ ¬(fp.all.get (env.heap fd).key).isSome := by
    simp [Lookup.Unknown]
  simp only [screen, hk, ite_not]
  rcases @validateFileDataSignature_err env (env.heap fd) isLocal with hv | ⟨err, hv⟩
  case inl =>
    rw [hv]
    refine ⟨_, ?_, ?_, ⟨[], ?_⟩, rfl⟩
    all_goals split <;> simp
  case inr =>
    rw [hv]
    refine ⟨_, ?_, ?_, ⟨[some err], ?_⟩, rfl⟩
    all_goals split <;> simp

theorem screen_ok (s : Screened) (fds : List Ref) (i : Nat)
    (h : ∀ j < fds.length, s.errs[i + j]? = some none) :
    (screen env fp isLocal fds i s).news = s.news ++ fds.filter (fp.all.Unknown env.heap) ∧
    (screen env fp isLocal fds i s).errs.count none + fds.length =
      s.errs.count none + (fds.filter (fp.all.Unknown env.heap)).length := by
  induction fds generalizing s i
  case nil => simp [screen]
  case cons fd fds hi =>
    have ⟨s₁, hn, hc, ⟨v, hv⟩, he⟩ := @screen_cons env fp fd isLocal s fds i
    have hf (j : Nat) (hj : s.errs[j]? = some none) : s₁.errs[j]? = some none := by
      rw [hv, List.getElem?_append_left (List.getElem?_eq_some_iff.mp hj).fst, hj]
    have h₁ (j : Nat) (hj : j < fds.length) : s₁.errs[i + 1 + j]? = some none :=
      hf _ <| Nat.add_right_comm i j 1 ▸ h (j + 1) (Nat.succ_lt_succ hj)
    rw [he]
    split
    case isTrue hu =>
      have ⟨hn', hc'⟩ := hi { s₁ with news := s₁.news ++ [fd] } (i + 1) h₁
      rw [filter_cons_of_pos hu, hn', ← hn]
      refine ⟨by simp, ?_⟩
      dsimp only at hc'
      simp only [length_cons]
      omega
    case isFalse hu =>
      have hs := count_none_set errAlreadyKnown <| hf i <| h 0 (Nat.succ_pos _)
      have ⟨hn', hc'⟩ := hi { s₁ with errs := s₁.errs.set i (some errAlreadyKnown) } (i + 1) <| by
        intro j hj
        rw [List.getElem?_set_ne (by omega)]
        exact h₁ j hj
      rw [filter_cons_of_neg hu, hn', ← hn]
      refine ⟨rfl, ?_⟩
      dsimp only at hc'
      rw [length_cons]
      omega

theorem count_none_drop_findIdx (h : none ∈ errs) :
    (errs.drop (errs.findIdx Option.isNone + 1)).count none + 1 = errs.count none := by
  induction errs
  case nil => contradiction
  case cons err errs hi =>
    cases err
    case none     => simp [findIdx_cons]
    case some err => simpa [findIdx_cons] using hi (by simpa using h)

theorem merge_ok (l : List (Ref × Option GoError)) (nilSlot : Nat) (final : List Ref)
    (h : l.length ≤ (errs.drop nilSlot).count none) :
    ∃ errs', merge l nilSlot errs final = .ok (errs', final ++ inserted l) := by
  induction l generalizing nilSlot errs final
  case nil => exact ⟨errs, by simp [merge, inserted]⟩
  case cons p l hi =>
    have ⟨fd, err⟩ := p
    simp only [length_cons] at h
    have hm : none ∈ errs.drop nilSlot := count_pos_iff.mp (by omega)
    have hd := count_none_drop_findIdx hm
    have hl : nilSlot + (errs.drop nilSlot).findIdx Option.isNone < errs.length := by
      have := findIdx_lt_length_of_exists (p := Option.isNone) ⟨none, hm, rfl⟩
      rw [length_drop] at this
      omega
    rw [drop_drop, ← Nat.add_assoc] at hd
    rw [merge, if_pos hl]
    generalize nilSlot + (errs.drop nilSlot).findIdx Option.isNone = n at hd
    have hr : l.length ≤ ((errs.set n err).drop (n + 1)).count none := by
      rw [drop_set_of_lt (Nat.lt_add_one n)]
      omega
    have ⟨errs', he⟩ := hi (n + 1) (if err.isNone then final ++ [fd] else final) hr
    refine ⟨errs', he.trans ?_⟩
    cases err <;> simp [inserted]

-- The error of the validation is not taken back, the slice of errors grows by it.
theorem screen_errs_length (s : Screened) (fds : List Ref) (i : Nat) :
    (screen env fp isLocal fds i s).errs.length = s.errs.length +
      fds.countP fun fd => (validateFileDataSignature env (env.heap fd) isLocal).snd.isSome := by
  induction fds generalizing s i
  case nil => rfl
  case cons fd fds hi =>
    rw [countP_cons]
    simp only [screen]
    obtain hv | ⟨err, hv⟩ := @validateFileDataSignature_err env (env.heap fd) isLocal
    case inl =>
      rw [hv]
      split <;> rw [hi] <;> split <;> simp
    case inr =>
      rw [hv]
      split <;> rw [hi] <;> split <;> simp <;> omega

theorem merge_length {l : List (Ref × Option GoError)} {nilSlot : Nat} {final : List Ref}
    {r : List (Option GoError) × List Ref} (h : merge l nilSlot errs final = .ok r) :
    r.fst.length = errs.length := by
  induction l generalizing nilSlot errs final
  case nil =>
    cases h
    rfl
  case cons p l hi =>
    obtain ⟨fd, err⟩ := p
    simp only [merge] at h
    split at h
    case isTrue  => exact (hi h).trans List.length_set
    case isFalse => contradiction

theorem add_errs_length {fds : List Ref} {r : Added} (h : fp.add env fds isLocal = .ok r) :
    r.errs.length = fds.length +
      fds.countP fun fd => (validateFileDataSignature env (env.heap fd) isLocal).snd.isSome := by
  have hs := @screen_errs_length env fp isLocal
    ⟨fp.diskCache, List.replicate fds.length none, []⟩ fds 0
  simp only [add] at h
  rw [length_replicate] at hs
  split at h
  case isTrue =>
    cases h
    exact hs
  case isFalse =>
    obtain ⟨⟨errs, final⟩, hm, h⟩ := Loop.bind_eq_ok h
    cases h
    exact (merge_length hm).trans hs

def Added.sent (r : Added) : List Ref :=
  r.event.getD []

theorem journalFd_collector {hash : Hash} :
    (fp.journalFd env hash fd).collector = fp.collector := by
  unfold journalFd
  split
  case h_1 => rfl
  case h_2 => split <;> rfl

theorem addFd_kept : (fp.addFd env fd).fst.config = fp.config ∧
    (fp.addFd env fd).fst.collector = fp.collector := by
  simp only [addFd]
  split
  case isTrue => exact ⟨rfl, rfl⟩
  case isFalse =>
    split
    case isTrue  => exact ⟨rfl, rfl⟩
    case isFalse => exact ⟨journalFd_config, journalFd_collector⟩

theorem addFdsLocked_kept : (fp.addFdsLocked env fds).fst.config = fp.config ∧
    (fp.addFdsLocked env fds).fst.collector = fp.collector := by
  induction fds generalizing fp
  case nil => exact ⟨rfl, rfl⟩
  case cons fd fds hi =>
    obtain ⟨hc, hm⟩ := @addFd_kept env fp fd
    exact ⟨hi.left.trans hc, hi.right.trans hm⟩

theorem add_kept {r : Added} (h : fp.add env fds isLocal = .ok r) :
    r.pool.config = fp.config ∧ r.pool.collector = fp.collector := by
  simp only [add] at h
  split at h
  case isTrue =>
    cases h
    exact ⟨rfl, rfl⟩
  case isFalse =>
    obtain ⟨_, _, h⟩ := Loop.bind_eq_ok h
    cases h
    exact addFdsLocked_kept

theorem add_ok (env : Env) (fp : FilePool) (fds : List Ref) (isLocal : Bool) :
    ∃ r, fp.add env fds isLocal = .ok r ∧
      r.pool.all = fds.foldl (enter env.heap fp.config.globalSlots) fp.all ∧
      r.sent = admitted env.heap fp.config.globalSlots fp.all fds ∧
      ∃ added, r.pool.journaled = fp.journaled ++ added ∧
        ∀ e ∈ added, e.fst ∈ admitted env.heap fp.config.globalSlots fp.all fds := by
  have ⟨hf, ha⟩ := @filter_unknown env.heap fp.config.globalSlots fp.all fp.all fds fun _ h => h
  have ⟨hn, hc⟩ := @screen_ok env fp isLocal
    ⟨fp.diskCache, List.replicate fds.length none, []⟩ fds 0 (by simp +contextual)
  simp only [add]
  generalize screen env fp isLocal fds 0 _ = s at hn hc
  rw [nil_append] at hn
  rw [← hn] at hf ha hc
  rw [← hf, ← ha]
  split
  case isTrue h =>
    rw [length_eq_zero_iff.mp h]
    exact ⟨_, rfl, rfl, rfl, [], by simp [journaled], by simp⟩
  case isFalse h =>
    have ⟨hp, hl, hi, hj⟩ := addFdsLocked_ok env { fp with diskCache := s.diskCache } s.news
    have hs : (s.news.zip ({ fp with diskCache := s.diskCache }.addFdsLocked env s.news).snd).length
        ≤ (s.errs.drop 0).count none := by
      rw [length_zip, hl, Nat.min_self, drop_zero]
      simp only [count_replicate_self] at hc
      omega
    have ⟨errs', he⟩ := merge_ok _ 0 [] hs
    rw [he, nil_append, hi]
    refine ⟨_, rfl, hp, ?_, hj⟩
    dsimp only [Added.sent]
    split
    case isTrue h  => rfl
    case isFalse h => exact (length_eq_zero_iff.mp (not_not.mp h)).symm

end Add

-- The call left no trace of `fd` in the pool `fp`. All slots are used by other data.
structure Rejected (fp : FilePool) (r : Added) (fd : Ref) : Prop where
  lookup : ∀ k, fp.all.get k = none → r.pool.all.get k ≠ some fd
  slots : r.pool.all.slots = fp.all.slots + (r.sent.filter (· ≠ fd)).length
  journal : ∃ added, r.pool.journaled = fp.journaled ++ added ∧ ∀ e ∈ added, e.fst ≠ fd
  event : fd ∉ r.sent

-- Data is rejected exactly if, at each of its turns, its key is taken or all slots are. Whether it
-- is valid does not matter.
theorem rejected_iff_blocked (env : Env) (fp : FilePool) (fds : List Ref) (fd : Ref) :
    (∃ r, fp.add env fds false = .ok r ∧ Rejected fp r fd) ↔
      ∀ l l', fds = l ++ fd :: l' →
        (l.foldl (enter env.heap fp.config.globalSlots) fp.all).Blocks
          env.heap fp.config.globalSlots fd := by
  have ⟨r, hr, ha, he, added, hj, hm⟩ := add_ok env fp fds false
  have hb : (∀ l l', fds = l ++ fd :: l' →
      (l.foldl (enter env.heap fp.config.globalSlots) fp.all).Blocks
        env.heap fp.config.globalSlots fd) ↔
      fd ∉ admitted env.heap fp.config.globalSlots fp.all fds := by
    simp [mem_admitted]
  rw [hb]
  constructor
  case mp =>
    rintro ⟨r', hr', h⟩
    cases hr.symm.trans hr'
    exact he ▸ h.event
  case mpr =>
    intro hn
    refine ⟨r, hr, ?_, ?_, ⟨added, hj, ?_⟩, ?_⟩
    case refine_1 =>
      intro k hk h
      rw [ha] at h
      cases get_foldl_enter h
      case inl h => cases hk.symm.trans h
      case inr h => exact hn h
    case refine_2 =>
      have : r.sent.filter (· ≠ fd) = r.sent := by
        refine filter_eq_self.mpr fun g hg => decide_eq_true fun h => hn ?_
        exact he ▸ h ▸ hg
      rw [this, ha, foldl_enter_slots, ← he]
    case refine_3 => exact fun e h heq => hn <| heq ▸ hm e h
    case refine_4 => exact he ▸ hn

def mismatched : DA :=
  { DA.zero with length := 5, txHash := .fill 1 }

def mismatchedEnv : Env where
  heap _ := mismatched
  now := .zero
  initMultiAdaptiveSdk := none
  verifyCommitWithProof _ _ _ := none
  writeError _ := none

theorem not_rejected_mismatched :
    ¬∀ (env : Env) (fp : FilePool) (fds : List Ref) (fd : Ref), fd ∈ fds →
      ((validateFileDataSignature env (env.heap fd) false).fst = false ∨
        (validateFileDataSignature env (env.heap fd) false).snd.isSome) →
      ∃ r, fp.add env fds false = .ok r ∧ Rejected fp r fd := by
  intro h
  have ⟨r, hr, hj⟩ := h mismatchedEnv (new DefaultConfig "fileData.rlp" "") [0] 0 (by simp)
    (.inl (by decide))
  have he : Added.sent <$> (new DefaultConfig "fileData.rlp" "").add mismatchedEnv [0] false =
    .ok [0] := by rfl
  rw [hr] at he
  exact hj.event <| (Except.ok.inj he) ▸ mem_singleton_self 0

section Gates

-- The pool only looks at the errors of the library.
def Env.withSdk (env : Env) (sdk : KzgSdk) : Env :=
  { env with
    initMultiAdaptiveSdk := sdk.initMultiAdaptiveSdk
    verifyCommitWithProof c p v := (sdk.verifyCommitWithProof c p v).snd }

-- The library has no error to report, but the proof is wrong.
def Refuted (sdk : KzgSdk) (da : DA) : Prop :=
  sdk.initMultiAdaptiveSdk = none ∧
  sdk.verifyCommitWithProof da.commitment.marshal da.proof da.claimedValue = (false, none)

variable {sdk : KzgSdk}

theorem validateFileDataSignature_withSdk :
    validateFileDataSignature (env.withSdk sdk) da false = (true, none) ↔
      da.length = UInt64.ofNat da.data.length ∧ da.signData ≠ [] ∧
      sdk.initMultiAdaptiveSdk = none ∧
      (sdk.verifyCommitWithProof da.commitment.marshal da.proof da.claimedValue).snd = none := by
  obtain h | ⟨err, h⟩ := @validateFileDataSignature_err (env.withSdk sdk) da false
  case inl =>
    have hv := validateFileDataSignature_eq_none.mp (congrArg Prod.snd h)
    exact iff_of_true h ⟨hv.length, hv.signData, hv.sdk, hv.proof⟩
  case inr =>
    have hn : ¬Valid (env.withSdk sdk) da := fun hv => by
      have := validateFileDataSignature_eq_none.mpr hv
      rw [h] at this
      contradiction
    refine iff_of_false (by simp [h]) ?_
    rintro ⟨hl, hd, hi, hp⟩
    exact hn ⟨hl, hd, hi, hp⟩

theorem verifyEth_eq_true : SingerTool.verifyEth sdk da = (true, none) ↔
    da.length = UInt64.ofNat da.data.length ∧ sdk.initMultiAdaptiveSdk = none ∧
    sdk.verifyCommitWithProof da.commitment.marshal da.proof da.claimedValue = (true, none) := by
  unfold SingerTool.verifyEth
  grind

theorem verifyEth_eq_false : SingerTool.verifyEth sdk da = (false, none) ↔
    da.length = UInt64.ofNat da.data.length ∧ Refuted sdk da := by
  unfold SingerTool.verifyEth Refuted
  grind

-- The pool and the interface for clients agree, unless the proof of data with the right length is
-- refuted.
theorem gates_agree_iff (env : Env) (sdk : KzgSdk) (da : DA) (hs : da.signData ≠ []) :
    (validateFileDataSignature (env.withSdk sdk) da false = (true, none) ↔
      SingerTool.verifyEth sdk da = (true, none)) ↔
    ¬(da.length = UInt64.ofNat da.data.length ∧ Refuted sdk da) := by
  rw [validateFileDataSignature_withSdk, verifyEth_eq_true]
  unfold Refuted
  generalize sdk.verifyCommitWithProof _ _ _ = answer
  obtain ⟨flag, err⟩ := answer
  cases flag
  case true  => simp [hs]
  case false => simp +contextual [hs]

def signed : DA :=
  { DA.zero with signData := [[]] }

def answering (flag : Bool) : KzgSdk where
  initMultiAdaptiveSdk := none
  verifyCommitWithProof _ _ _ := (flag, none)

theorem gates_agree_signed :
    validateFileDataSignature (mismatchedEnv.withSdk (answering true)) signed false = (true, none) ∧
    (validateFileDataSignature (mismatchedEnv.withSdk (answering true)) signed false = (true, none) ↔
      SingerTool.verifyEth (answering true) signed = (true, none)) :=
  ⟨by decide, gates_agree_iff mismatchedEnv (answering true) signed (by decide)
    |>.mpr (by unfold Refuted; decide)⟩

theorem not_gates_agree_refuted :
    ¬∀ (env : Env) (sdk : KzgSdk) (da : DA), da.signData ≠ [] →
      (validateFileDataSignature (env.withSdk sdk) da false = (true, none) ↔
        SingerTool.verifyEth sdk da = (true, none)) := by
  intro h
  have := (h mismatchedEnv (answering false) signed (by decide)).mp (by decide)
  exact absurd this (by decide)

end Gates
end FilePool
