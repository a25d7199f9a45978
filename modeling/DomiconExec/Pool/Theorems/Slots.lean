import DomiconExec.Pool.Theorems.Admission

namespace FilePool

open List Lookup Transition.System

namespace Lookup

variable {heap : Heap} {limit : UInt64} {t : Lookup} {fd : Ref}

def Counts (t : Lookup) : Prop :=
  t.slots = t.collector.values.card

structure Fresh (heap : Heap) (t : Lookup) (fd : Ref) : Prop where
  keyed : (heap fd).keys ≠ []
  new : fd ∉ t.collector.values
  keeps : ∀ g ∈ t.collector.values, ∃ k ∉ (heap fd).keys, t.get k = some g

theorem Counts.add (h : t.Counts) (hf : t.Fresh heap fd) : (t.add fd (heap fd)).Counts := by
  have hv : (t.add fd (heap fd)).collector.values = insert fd t.collector.values := by
    ext g
    have hg (k : Hash) : (t.add fd (heap fd)).collector.get k = _ := add_get
    simp only [Finset.mem_insert, GoMap.mem_values, hg]
    constructor
    case mp =>
      rintro ⟨k, hk⟩
      split at hk
      case isTrue  => exact .inl (Option.some.inj hk).symm
      case isFalse => exact .inr ⟨k, hk⟩
    case mpr =>
      rintro (rfl | h)
      case inl =>
        have ⟨k, hk⟩ := exists_mem_of_ne_nil _ hf.keyed
        exact ⟨k, if_pos hk⟩
      case inr =>
        have ⟨k, hk, hg⟩ := hf.keeps g (GoMap.mem_values.mpr h)
        exact ⟨k, (if_neg hk).trans hg⟩
  rw [Counts, hv, Finset.card_insert_of_notMem hf.new, add_slots, h]
  rfl

-- Whatever is admitted from the list `fds` is fresh at its turn.
def AdmitsFresh (heap : Heap) (limit : UInt64) (t : Lookup) (fds : List Ref) : Prop :=
  ∀ l fd l', fds = l ++ fd :: l' →
    ¬(l.foldl (enter heap limit) t).Blocks heap limit fd →
      (l.foldl (enter heap limit) t).Fresh heap fd

theorem Counts.foldl_enter {fds : List Ref} (h : t.Counts) (hf : t.AdmitsFresh heap limit fds) :
    (fds.foldl (enter heap limit) t).Counts := by
  induction fds generalizing t
  case nil => exact h
  case cons fd fds hi =>
    refine hi ?_ fun l g l' hl => hf (fd :: l) g l' (hl ▸ rfl)
    by_cases hb : t.Blocks heap limit fd
    case pos =>
      rw [enter_of_blocks hb]
      exact h
    case neg =>
      rw [enter_of_not_blocks hb]
      exact h.add (hf [] fd fds rfl hb)

def SoleKey (t : Lookup) (hash : Hash) : Prop :=
  ∀ fd k, t.get hash = some fd → t.get k = some fd → k = hash

theorem Counts.remove {hash : Hash} (h : t.Counts) (hg : t.get hash = some fd)
    (hs : t.SoleKey hash) : (t.remove hash).Counts := by
  have hv : (t.remove hash).collector.values = t.collector.values.erase fd := by
    ext g
    have hr (k : Hash) : (t.remove hash).collector.get k = _ := GoMap.get_del
    simp only [Finset.mem_erase, GoMap.mem_values, hr]
    constructor
    case mp =>
      rintro ⟨k, hk⟩
      split at hk
      case isTrue     => contradiction
      case isFalse hn => exact ⟨fun he => hn <| hs fd k hg (he ▸ hk), k, hk⟩
    case mpr =>
      rintro ⟨hn, k, hk⟩
      refine ⟨k, (if_neg fun he => hn ?_).trans hk⟩
      exact Option.some.inj <| hk.symm.trans (he ▸ hg)
  have hm : fd ∈ t.collector.values := GoMap.mem_values.mpr ⟨hash, hg⟩
  have hc : (t.remove hash).slots = t.collector.values.card - 1 := congrArg (· - 1) h
  have := Finset.card_pos.mpr ⟨fd, hm⟩
  rw [Counts, hv, Finset.card_erase_of_mem hm, hc]
  omega

def deleted (heap : Heap) (das : List Ref) : List Hash :=
  das.flatMap fun fd => [(heap fd).txHash, (heap fd).commitment.hash]

end Lookup

variable {fp : FilePool} {heap : Heap} {das : List Ref}

theorem removeAll_get {k : Hash} :
    (fp.removeAll heap das).all.get k = if k ∈ deleted heap das then none else fp.all.get k := by
  induction das generalizing fp
  case nil => rfl
  case cons fd das hi =>
    have hc : fp.removeAll heap (fd :: das) = removeAll heap _ das := foldl_cons ..
    rw [hc, hi]
    simp only [deleted, Lookup.get, GoMap.get_del, flatMap_cons, mem_append,
      mem_cons, not_mem_nil]
    grind

theorem removeAll_slots : (fp.removeAll heap das).all.slots = fp.all.slots := by
  induction das generalizing fp
  case nil            => rfl
  case cons fd das hi => exact hi

-- Each object that can be retrieved has a key that is not deleted.
def SparesAll (heap : Heap) (das : List Ref) (t : Lookup) : Prop :=
  ∀ g ∈ t.collector.values, ∃ k ∉ deleted heap das, t.get k = some g

theorem Lookup.Counts.removeAll (h : fp.all.Counts) (hs : SparesAll heap das fp.all) :
    (fp.removeAll heap das).all.Counts := by
  have hv : (fp.removeAll heap das).all.collector.values = fp.all.collector.values := by
    ext g
    have hr (k : Hash) : (fp.removeAll heap das).all.collector.get k = _ := removeAll_get
    constructor
    case mp =>
      simp only [GoMap.mem_values, hr]
      rintro ⟨k, hk⟩
      split at hk
      case isTrue  => contradiction
      case isFalse => exact ⟨k, hk⟩
    case mpr =>
      intro hg
      have ⟨k, hd, hk⟩ := hs g hg
      exact GoMap.mem_values.mpr ⟨k, (hr k).trans <| (if_neg hd).trans hk⟩
  rw [Counts, hv, removeAll_slots, h]

-- The steps that change the slots like the retrievable objects: what is added becomes retrievable
-- and replaces nothing, `RemoveFileData` only takes away superfluous keys, and `removeFileData` the
-- last key of an object.
def KeepsCount (fp : FilePool) : Event → Prop
  | .add env fds _       => fp.all.AdmitsFresh env.heap fp.config.globalSlots fds
  | .removeAll heap das  => SparesAll heap das fp.all
  | .removeFileData hash => fp.all.SoleKey hash

theorem step_counts {fp' : FilePool} {e : Event} (h : fp.all.Counts) (hk : fp.KeepsCount e)
    (hs : fp.step e = .ok fp') : fp'.all.Counts := by
  cases e
  case add env fds isLocal =>
    have ⟨r, hr, ha, _⟩ := add_ok env fp fds isLocal
    rw [step, hr] at hs
    cases hs
    exact ha ▸ h.foldl_enter hk
  case removeAll heap das =>
    cases hs
    exact h.removeAll hk
  case removeFileData hash =>
    cases hs
    unfold removeFileData
    split
    case h_1    => exact h
    case h_2 hg => exact h.remove hg hk

def Accepts (fp : FilePool) (env : Env) (fd : Ref) (isLocal : Bool) : Prop :=
  ∃ r, fp.add env [fd] isLocal = .ok r ∧ r.sent = [fd]

theorem Lookup.Counts.accepts (h : fp.all.Counts) (he : fp.all.collector = ∅)
    (hg : 0 < fp.config.globalSlots) (env : Env) (fd : Ref) (isLocal : Bool) :
    fp.Accepts env fd isLocal := by
  have ⟨r, hr, _, hs, _⟩ := add_ok env fp [fd] isLocal
  refine ⟨r, hr, hs.trans ?_⟩
  have hz : fp.all.slots = 0 := by
    rw [h, he]
    rfl
  have hb : ¬fp.all.Blocks env.heap fp.config.globalSlots fd := by
    simp only [Lookup.Blocks, Lookup.get, he, hz, GoMap.get_empty, not_or]
    exact ⟨by simp, UInt64.not_lt.mpr <| UInt64.le_iff_toNat_le.mpr hg⟩
  simp only [admitted, hb, if_false]

-- As long as all steps keep the count, there is one slot for each retrievable object, and a pool
-- that was emptied is not full.
theorem counts_of_keepsCount (config : Config) (path nodeType : String) (fp : FilePool)
    (r : (machine config path nodeType).Reachable KeepsCount fp) :
    fp.all.Counts ∧ (fp.all.collector = ∅ → 0 < fp.config.globalSlots →
      ∀ env fd isLocal, fp.Accepts env fd isLocal) := by
  have h : fp.all.Counts :=
    r.invariant (I := fun fp => fp.all.Counts) rfl fun _ _ _ => step_counts
  exact ⟨h, h.accepts⟩

-- Data without commitments. The transaction hashes differ.
def plainEnv : Env where
  heap fd := { DA.zero with txHash := .fill (UInt8.ofNat (fd + 1)) }
  now := .zero
  initMultiAdaptiveSdk := none
  verifyCommitWithProof _ _ _ := none
  writeError _ := none

def small : Transition.System FilePool Event GoPanic :=
  machine { DefaultConfig with globalSlots := 1 } "" "a"

theorem plain_admitsFresh : small.init.KeepsCount (.add plainEnv [0] true) := by
  intro l fd l' hl _
  have ⟨h₁, h₂, _⟩ : l = [] ∧ fd = 0 ∧ l' = [] := by
    cases l <;> simp_all
  subst h₁ h₂
  exact ⟨by decide, by decide, fun g hg => absurd hg (by simp [GoMap.mem_values, small, machine,
    new, newLookup])⟩

-- The single slot can be used again after `removeFileData`.
theorem counts_removed : ∃ fp, small.run small.init
      [.add plainEnv [0] true, .removeFileData (.fill 1)] = .ok fp ∧
    fp.all.Counts ∧ fp.Accepts plainEnv 1 true := by
  obtain ⟨fp₁, fp₂, h₁, h₂, hc₁, hc₂, hg⟩ : ∃ fp₁ fp₂,
      small.step small.init (.add plainEnv [0] true) = .ok fp₁ ∧
      small.step fp₁ (.removeFileData (.fill 1)) = .ok fp₂ ∧
      fp₁.all.collector = GoMap.set ∅ (.fill 1) 0 ∧ fp₂.all.collector = ∅ ∧
      fp₂.config.globalSlots = 1 := ⟨_, _, rfl, rfl, rfl, by decide, rfl⟩
  have hk : fp₁.KeepsCount (.removeFileData (.fill 1)) := by
    intro fd k _ hk
    rw [Lookup.get, hc₁, GoMap.get_set] at hk
    by_contra hn
    simp [hn] at hk
  have r : small.Reachable KeepsCount fp₂ := .step (.step .init plain_admitsFresh h₁) hk h₂
  obtain ⟨h, ha⟩ := counts_of_keepsCount { DefaultConfig with globalSlots := 1 } "" "a" fp₂ r
  refine ⟨fp₂, ?_, h, ha hc₂ (hg ▸ by decide) plainEnv 1 true⟩
  simp [run, h₁, h₂, bind, Except.bind, pure, Except.pure]

-- After `RemoveFileData` the slot remains in use, and all further data is refused.
theorem not_counts_leaked :
    ¬(∀ config path nodeType fp, (machine config path nodeType).Reachable anyStep fp →
      fp.all.Counts) ∧
    ¬(∀ config path nodeType fp, (machine config path nodeType).Reachable anyStep fp →
      fp.all.collector = ∅ → 0 < fp.config.globalSlots →
        ∀ env fd isLocal, fp.Accepts env fd isLocal) := by
  have ⟨fp, hr, hs, hc, hg, he⟩ : ∃ fp, small.run small.init
        [.add plainEnv [0] true, .removeAll plainEnv.heap [0]] = .ok fp ∧
      fp.all.slots = 1 ∧ fp.all.collector = ∅ ∧ fp.config.globalSlots = 1 ∧
      Added.sent <$> fp.add plainEnv [1] true = .ok [] := ⟨_, rfl, rfl, by decide, rfl, rfl⟩
  have r : small.Reachable anyStep fp := .run .init (fun _ _ _ => trivial) hr
  constructor
  case left =>
    intro h
    have h := h _ _ _ fp r
    rw [Counts, hs, hc] at h
    exact absurd h (by decide)
  case right =>
    intro h
    have ⟨a, ha, hs⟩ := h _ _ _ fp r hc (hg ▸ by decide) plainEnv 1 true
    rw [ha] at he
    cases hs.symm.trans (Except.ok.inj he)

end FilePool
