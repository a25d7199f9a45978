import DomiconExec.Pool.Theorems.Slots

namespace FilePool

open List Lookup Transition.System

variable {heap : Heap} {limit : UInt64} {env : Env} {fp : FilePool} {fd : Ref} {isLocal : Bool}
variable {fds l rest : List Ref} {k : Hash}

section Errors

variable {errs new tail : List (Option GoError)}

-- The free slots of `errs` are filled from left to right.
def fill : List (Option GoError) → List (Option GoError) → List (Option GoError)
  | [], _                    => []
  | some err :: errs, new    => some err :: fill errs new
  | none :: errs, []         => none :: errs
  | none :: errs, err :: new => err :: fill errs new

theorem fill_nil : fill errs [] = errs := by
  induction errs
  case nil => rfl
  case cons err errs hi =>
    cases err
    case none     => rfl
    case some err => rw [fill, hi]

theorem fill_findIdx {err : Option GoError} (h : errs.findIdx Option.isNone < errs.length) :
    fill errs (err :: new) = errs.take (errs.findIdx Option.isNone) ++
      err :: fill (errs.drop (errs.findIdx Option.isNone + 1)) new := by
  induction errs
  case nil => contradiction
  case cons e errs hi =>
    cases e
    case none   => simp [fill, findIdx_cons]
    case some e =>
      simp only [findIdx_cons, Option.isNone_some, cond_false, length_cons,
        Nat.add_lt_add_iff_right] at h
      simp [fill, findIdx_cons, hi h]

theorem merge_fill {m : List (Ref × Option GoError)} {nilSlot : Nat} {final : List Ref}
    {r : List (Option GoError) × List Ref} (h : merge m nilSlot errs final = .ok r) :
    r.fst = errs.take nilSlot ++ fill (errs.drop nilSlot) (m.map Prod.snd) := by
  induction m generalizing nilSlot errs final
  case nil =>
    cases h
    rw [map_nil, fill_nil, take_append_drop]
  case cons p m hi =>
    obtain ⟨fd, err⟩ := p
    simp only [merge] at h
    split at h
    case isFalse => contradiction
    case isTrue hl =>
      have hd : (errs.drop nilSlot).findIdx Option.isNone < (errs.drop nilSlot).length := by
        rw [length_drop]
        omega
      rw [hi h, map_cons, fill_findIdx hd, drop_drop, ← Nat.add_assoc]
      generalize (errs.drop nilSlot).findIdx Option.isNone = i at hl
      rw [drop_set_of_lt (Nat.lt_add_one _), take_add_one, take_set_of_le (Nat.le_refl _),
        List.getElem?_set_self hl, take_add]
      simp

def slot (heap : Heap) (t : Lookup) (fd : Ref) : Option GoError :=
  if t.Unknown heap fd then none else some errAlreadyKnown

theorem screen_errs (front tail : List (Option GoError)) (s : Screened) (i : Nat)
    (hi : front.length = i) (hs : s.errs = front ++ List.replicate fds.length none ++ tail) :
    ∃ tail', (screen env fp isLocal fds i s).errs =
      front ++ fds.map (slot env.heap fp.all) ++ tail' := by
  induction fds generalizing s i front tail
  case nil => exact ⟨tail, by simpa [screen] using hs⟩
  case cons fd fds ih =>
    obtain ⟨s₁, _, _, ⟨v, hv⟩, he⟩ := @screen_cons env fp fd isLocal s fds i
    rw [he]
    split
    case isTrue hu =>
      obtain ⟨tail', ht⟩ := ih (front ++ [none]) (tail ++ v) { s₁ with news := s₁.news ++ [fd] }
        (i + 1) (by simp [hi]) (by simp [hv, hs, replicate_succ])
      exact ⟨tail', by simpa [slot, hu] using ht⟩
    case isFalse hu =>
      obtain ⟨tail', ht⟩ := ih (front ++ [some errAlreadyKnown]) (tail ++ v)
        { s₁ with errs := s₁.errs.set i (some errAlreadyKnown) } (i + 1) (by simp [hi])
        (by simp [hv, hs, ← hi, replicate_succ])
      exact ⟨tail', by simpa [slot, hu] using ht⟩

theorem add_errs {r : Added} (h : fp.add env fds isLocal = .ok r) : ∃ cache tail,
    r.errs = fill (fds.map (slot env.heap fp.all) ++ tail)
      ({ fp with diskCache := cache }.addFdsLocked env (fds.filter (fp.all.Unknown env.heap))).snd := by
  obtain ⟨hn, _⟩ := @screen_ok env fp isLocal
    ⟨fp.diskCache, List.replicate fds.length none, []⟩ fds 0 (by simp +contextual)
  obtain ⟨tail, ht⟩ := @screen_errs env fp isLocal fds [] []
    ⟨fp.diskCache, List.replicate fds.length none, []⟩ 0 rfl (by simp)
  rw [nil_append] at hn ht
  simp only [add] at h
  generalize screen env fp isLocal fds 0 _ = s at h hn ht
  refine ⟨s.diskCache, tail, ?_⟩
  rw [← hn, ← ht]
  split at h
  case isTrue hz =>
    cases h
    rw [length_eq_zero_iff.mp hz]
    exact fill_nil.symm
  case isFalse =>
    obtain ⟨⟨errs, final⟩, hm, h⟩ := Loop.bind_eq_ok h
    cases h
    have hl := (addFdsLocked_ok env { fp with diskCache := s.diskCache } s.news).right.left
    rw [merge_fill hm, map_snd_zip (Nat.le_of_eq hl)]
    rfl

theorem inserted_fill {t : Lookup} :
    inserted (fds.zip (fill (fds.map (slot env.heap t) ++ tail)
      (fp.addFdsLocked env (fds.filter (t.Unknown env.heap))).snd)) =
    admitted env.heap fp.config.globalSlots fp.all (fds.filter (t.Unknown env.heap)) := by
  induction fds generalizing fp
  case nil => rfl
  case cons fd fds hi =>
    by_cases hu : t.Unknown env.heap fd
    case neg =>
      rw [filter_cons_of_neg hu, ← hi]
      simp [slot, hu, fill, inserted]
    case pos =>
      rw [filter_cons_of_pos hu, admitted]
      by_cases hb : fp.all.Blocks env.heap fp.config.globalSlots fd
      case pos =>
        obtain ⟨err, he⟩ := addFd_of_blocks hb
        rw [if_pos hb, enter_of_blocks hb, ← hi]
        simp [slot, hu, fill, addFdsLocked, he, inserted]
      case neg =>
        obtain ⟨fp', he, ha, hc, _⟩ := addFd_of_not_blocks hb
        rw [if_neg hb, enter_of_not_blocks hb, ← ha, ← hc, ← hi]
        simp [slot, hu, fill, addFdsLocked, he, inserted]

theorem add_inserted {r : Added} (h : fp.add env fds isLocal = .ok r) :
    inserted (fds.zip r.errs) = admitted env.heap fp.config.globalSlots fp.all fds := by
  obtain ⟨cache, tail, he⟩ := add_errs h
  rw [he, inserted_fill]
  exact (filter_unknown fun _ h => h).right

end Errors

section Lookups

-- The index `t` resolves exactly the keys of the data in `live`, and only to such data.
structure Resolves (heap : Heap) (t : Lookup) (live : List DA) : Prop where
  sound : ∀ k fd, t.get k = some fd → heap fd ∈ live ∧ k ∈ (heap fd).keys
  complete : ∀ da ∈ live, ∀ k ∈ da.keys, ∃ fd, t.get k = some fd

variable {t : Lookup} {live : List DA} {das : List Ref}

theorem Resolves.empty : Resolves heap newLookup [] := by
  constructor <;> simp [newLookup, Lookup.get]

theorem Resolves.add (r : Resolves heap t live) :
    Resolves heap (t.add fd (heap fd)) (live ++ [heap fd]) := by
  constructor
  case sound =>
    intro k g hg
    rw [add_get] at hg
    split at hg
    case isTrue hk =>
      cases hg
      exact ⟨by simp, hk⟩
    case isFalse =>
      obtain ⟨hl, hk⟩ := r.sound k g hg
      exact ⟨mem_append_left _ hl, hk⟩
  case complete =>
    intro da hd k hk
    rw [add_get]
    split
    case isTrue => exact ⟨fd, rfl⟩
    case isFalse hn =>
      obtain hd | hd := mem_append.mp hd
      case inl => exact r.complete da hd k hk
      case inr => exact absurd (mem_singleton.mp hd ▸ hk) hn

theorem Resolves.foldl_enter (r : Resolves heap t live) :
    Resolves heap (fds.foldl (enter heap limit) t)
      (live ++ (admitted heap limit t fds).map heap) := by
  induction fds generalizing t live
  case nil => simpa [admitted] using r
  case cons fd fds hi =>
    rw [foldl_cons, admitted]
    by_cases hb : t.Blocks heap limit fd
    case pos => simpa only [hb, if_true, enter_of_blocks hb] using hi r
    case neg =>
      simpa only [hb, if_false, enter_of_not_blocks hb, map_cons, append_assoc,
        cons_append, nil_append] using hi r.add

-- A key stays with the data as long as later data that has it is known by it.
theorem get_foldl_enter_of_not_mem (h : ∀ g ∈ fds, g ≠ fd → k ∈ (heap g).keys → k = (heap g).key)
    (ht : t.get k = some fd) : (fds.foldl (enter heap limit) t).get k = some fd := by
  induction fds generalizing t
  case nil => exact ht
  case cons g fds hi =>
    obtain ⟨hg, h⟩ := forall_mem_cons.mp h
    refine hi h ?_
    by_cases hb : t.Blocks heap limit g
    case pos => rw [enter_of_blocks hb, ht]
    case neg =>
      rw [enter_of_not_blocks hb, add_get]
      split
      case isFalse => exact ht
      case isTrue hk =>
        by_contra hne
        have he := hg (fun he => hne (congrArg some he)) hk
        exact hb (.inl (by simp [← he, ht]))

def Spares (heap : Heap) (live : List DA) (das : List Ref) : Prop :=
  ∀ da ∈ live, da ∉ das.map heap → ∀ k ∈ deleted heap das, k ∉ da.keys

theorem Resolves.removeAll (r : Resolves heap fp.all live) (hs : Spares heap live das) :
    Resolves heap (fp.removeAll heap das).all (live.filter (· ∉ das.map heap)) := by
  constructor
  case sound =>
    intro k fd hg
    rw [removeAll_get] at hg
    split at hg
    case isTrue     => contradiction
    case isFalse hd =>
      obtain ⟨hl, hk⟩ := r.sound k fd hg
      refine ⟨mem_filter.mpr ⟨hl, decide_eq_true fun hm => hd ?_⟩, hk⟩
      obtain ⟨g, hg, he⟩ := mem_map.mp hm
      rw [← he] at hk
      exact mem_flatMap.mpr ⟨g, hg, by simpa using DA.mem_keys hk⟩
  case complete =>
    intro da hd k hk
    obtain ⟨hl, hn⟩ := mem_filter.mp hd
    rw [removeAll_get, if_neg fun h => hs da hl (of_decide_eq_true hn) k h hk]
    exact r.complete da hl k hk

end Lookups

-- A pool, with the data for which `Add` returned no error and that was not removed since.
structure Ledger where
  pool : FilePool
  live : List DA

namespace Ledger

inductive Op
  | add (env : Env) (fds : List Ref) (isLocal : Bool)
  | removeFileData (das : List Ref)

def step (heap : Heap) (s : Ledger) : Op → Except GoPanic Ledger
  | .add env fds isLocal => do
    let r ← s.pool.add { env with heap } fds isLocal
    return ⟨r.pool, s.live ++ (inserted (fds.zip r.errs)).map heap⟩
  | .removeFileData das =>
    .ok ⟨s.pool.removeAll heap das, s.live.filter (· ∉ das.map heap)⟩

def machine (heap : Heap) (config : Config) (path nodeType : String) :
    Transition.System Ledger Op GoPanic where
  init := ⟨new config path nodeType, []⟩
  step := step heap

-- A key resolves exactly if it is a key of live data, and then to live data with this key.
def Coherent (heap : Heap) (s : Ledger) : Prop :=
  Resolves heap s.pool.all s.live

def Sparing (heap : Heap) (s : Ledger) : Op → Prop
  | .add _ _ _           => True
  | .removeFileData das  => Spares heap s.live das

theorem step_coherent {s s' : Ledger} {op : Op} (h : s.Coherent heap) (hs : s.Sparing heap op)
    (ho : s.step heap op = .ok s') : s'.Coherent heap := by
  cases op
  case add env fds isLocal =>
    obtain ⟨r, hr, ho⟩ := Loop.bind_eq_ok ho
    cases ho
    obtain ⟨r', hr', ha, _⟩ := add_ok { env with heap } s.pool fds isLocal
    cases hr.symm.trans hr'
    rw [Coherent, ha, add_inserted hr]
    exact h.foldl_enter
  case removeFileData das =>
    cases ho
    exact h.removeAll hs

end Ledger

def Retrievable (heap : Heap) (t : Lookup) (fd : Ref) : Prop :=
  ∃ k ∈ (heap fd).keys, t.get k = some fd

-- Each item has a key that no item after it has, unless `Add` looks it up by the key.
def OwnKeys (heap : Heap) (fds : List Ref) : Prop :=
  ∀ l fd rest, fds = l ++ fd :: rest →
    ∃ k ∈ (heap fd).keys, ∀ g ∈ rest, g ≠ fd → k ∈ (heap g).keys → k = (heap g).key

theorem retrievable_of_admitted {t : Lookup} (ho : OwnKeys heap fds)
    (h : fd ∈ admitted heap limit t fds) :
    Retrievable heap (fds.foldl (enter heap limit) t) fd := by
  obtain ⟨l, rest, hl, hb⟩ := mem_admitted.mp h
  obtain ⟨k, hk, hr⟩ := ho l fd rest hl
  refine ⟨k, hk, ?_⟩
  rw [hl, foldl_append, foldl_cons, enter_of_not_blocks hb]
  exact get_foldl_enter_of_not_mem hr <| add_get.trans (if_pos hk)

theorem mem_inserted {errs : List (Option GoError)} {i : Nat} (hf : fds[i]? = some fd)
    (he : errs[i]? = some none) : fd ∈ inserted (fds.zip errs) := by
  have : (fds.zip errs)[i]? = some (fd, none) := List.getElem?_zip_eq_some.mpr ⟨hf, he⟩
  refine mem_map.mpr ⟨(fd, none), mem_filter.mpr ⟨?_, rfl⟩, rfl⟩
  exact mem_of_getElem? this

-- If no removal takes away a key of data that stays, then the index is coherent. Data for which
-- `Add` returns no error is then retrievable if it has a key of its own.
theorem coherent_of_sparing (heap : Heap) (config : Config) (path nodeType : String) (s : Ledger)
    (r : (Ledger.machine heap config path nodeType).Reachable (Ledger.Sparing heap) s) :
    s.Coherent heap ∧
    ∀ (env : Env) fds isLocal, OwnKeys heap fds →
      ∃ a, s.pool.add { env with heap } fds isLocal = .ok a ∧
        ∀ (i : Nat) fd, fds[i]? = some fd → a.errs[i]? = some none → Retrievable heap a.pool.all fd := by
  constructor
  case left =>
    exact r.invariant (I := Ledger.Coherent heap) .empty fun _ _ _ => Ledger.step_coherent
  case right =>
    intro env fds isLocal ho
    obtain ⟨a, ha, hp, _⟩ := add_ok { env with heap } s.pool fds isLocal
    refine ⟨a, ha, fun i fd hf he => ?_⟩
    rw [hp]
    exact retrievable_of_admitted ho <| add_inserted ha ▸ mem_inserted hf he

theorem ownKeys_plain : OwnKeys plainEnv.heap [0] := by
  intro l fd rest h
  cases l
  case cons _ l => simp at h
  case nil =>
    cases h
    exact ⟨.fill 1, by decide, by simp⟩

-- Of two items with different transactions, the first one can be removed and added again.
theorem coherent_plain : ∃ s,
    (Ledger.machine plainEnv.heap DefaultConfig "" "a").run ⟨new DefaultConfig "" "a", []⟩
      [.add plainEnv [0, 1] true, .removeFileData [0]] = .ok s ∧
    s.live = [plainEnv.heap 1] ∧ s.Coherent plainEnv.heap ∧
    ∃ a, s.pool.add plainEnv [0] true = .ok a ∧ Retrievable plainEnv.heap a.pool.all 0 := by
  obtain ⟨s₁, s₂, h₁, h₂, hl₁, hl₂, he⟩ : ∃ s₁ s₂,
      (Ledger.machine plainEnv.heap DefaultConfig "" "a").step ⟨new DefaultConfig "" "a", []⟩
        (.add plainEnv [0, 1] true) = .ok s₁ ∧
      (Ledger.machine plainEnv.heap DefaultConfig "" "a").step s₁ (.removeFileData [0]) = .ok s₂ ∧
      s₁.live = [plainEnv.heap 0, plainEnv.heap 1] ∧ s₂.live = [plainEnv.heap 1] ∧
      Added.errs <$> s₂.pool.add plainEnv [0] true = .ok [none] :=
    ⟨_, _, rfl, rfl, by decide, by decide, rfl⟩
  have hi : Ledger.Sparing plainEnv.heap ⟨new DefaultConfig "" "a", []⟩
    (.add plainEnv [0, 1] true) := trivial
  have hs : s₁.Sparing plainEnv.heap (.removeFileData [0]) := by
    rw [Ledger.Sparing, hl₁]
    unfold Spares
    decide
  obtain ⟨h, hn⟩ := coherent_of_sparing plainEnv.heap DefaultConfig "" "a" s₂ <|
    .step (.step .init hi h₁) hs h₂
  obtain ⟨a, ha, hr⟩ := hn plainEnv [0] true ownKeys_plain
  refine ⟨s₂, ?_, hl₂, h, a, ha, hr 0 0 rfl ?_⟩
  case refine_1 => simp [run, h₁, h₂, bind, Except.bind, pure, Except.pure]
  case refine_2 =>
    obtain ⟨a', ha', he⟩ := Loop.map_eq_ok he
    cases ha.symm.trans ha'
    rw [he]
    rfl

-- Data with a transaction of its own, for a commitment that is the same for all.
def sharedHeap : Heap := fun fd =>
  { DA.zero with
    commitment := ⟨.zero, ⟨[3, 0, 0, 0], rfl⟩⟩
    txHash := .fill (UInt8.ofNat (fd + 1)) }

-- The removal of the first item takes away the commitment of the second, and data without any key
-- is never retrievable.
theorem not_coherent_shared :
    ¬(∀ heap config path nodeType s,
      (Ledger.machine heap config path nodeType).Reachable anyStep s → s.Coherent heap) ∧
    ¬(∀ heap config path nodeType s,
      (Ledger.machine heap config path nodeType).Reachable anyStep s →
        ∀ (env : Env) fds isLocal a, s.pool.add { env with heap } fds isLocal = .ok a →
          ∀ (i : Nat) fd, fds[i]? = some fd → a.errs[i]? = some none →
            Retrievable heap a.pool.all fd) := by
  constructor
  case left =>
    intro h
    obtain ⟨s, hr, hl, hg⟩ : ∃ s,
        (Ledger.machine sharedHeap DefaultConfig "" "a").run ⟨new DefaultConfig "" "a", []⟩
          [.add plainEnv [0] true, .add plainEnv [1] true, .removeFileData [0]] = .ok s ∧
        s.live = [sharedHeap 1] ∧ s.pool.all.get (sharedHeap 1).commitment.hash = none :=
      ⟨_, rfl, by decide, by decide⟩
    have c := h _ _ _ _ s <| .run .init (fun _ _ _ => trivial) hr
    obtain ⟨fd, hf⟩ := c.complete (sharedHeap 1) (hl ▸ mem_singleton_self _)
      (sharedHeap 1).commitment.hash (by decide)
    cases hg.symm.trans hf
  case right =>
    intro h
    obtain ⟨k, hk, _⟩ := h (fun _ => DA.zero) DefaultConfig "" "a" _ .init plainEnv [0] true _ rfl
      0 0 rfl rfl
    have : DA.zero.keys = [] := by decide
    exact not_mem_nil (this ▸ hk)
end FilePool
