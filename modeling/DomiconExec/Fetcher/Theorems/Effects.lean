import DomiconExec.Primitives.Loop
import DomiconExec.Fetcher.Step

namespace Fetcher

open List

namespace Tracker

variable {m : Tracker} {p q : Peer} {h : Hash} {md : Option FdMetadata}

-- No peer is kept with an empty map of announcements.
def Filled (m : Tracker) : Prop :=
  ∀ p inner, m.get p = some inner → inner.len ≠ 0

theorem Filled.empty : Filled ∅ := by
  simp [Filled]

theorem Filled.track (f : m.Filled) : (m.track p h md).Filled := by
  intro q inner hq
  rw [Tracker.track, GoMap.get_set] at hq
  split at hq
  case isFalse => exact f q inner hq
  case isTrue  =>
    cases hq
    intro hz
    simpa using GoMap.len_eq_zero.mp hz h

theorem Filled.untrack (f : m.Filled) : (m.untrack p h).Filled := by
  intro q inner hq
  unfold Tracker.untrack at hq
  dsimp only at hq
  split at hq
  case isTrue =>
    rw [GoMap.get_del] at hq
    split at hq
    case isTrue  => contradiction
    case isFalse => exact f q inner hq
  case isFalse hz =>
    rw [GoMap.get_set] at hq
    split at hq
    case isTrue  => exact Option.some.inj hq ▸ hz
    case isFalse => exact f q inner hq

theorem Filled.mem_iff (f : m.Filled) : p ∈ m ↔ ∃ h, m.Tracks p h := by
  constructor
  case mpr =>
    rintro ⟨h, ht⟩
    obtain ⟨inner, hi, _⟩ := tracks_iff.mp ht
    exact GoMap.mem_of_get hi
  case mp =>
    intro hp
    obtain ⟨inner, hi⟩ := GoMap.mem_iff.mp hp
    have hz := f p inner hi
    by_contra hn
    refine hz <| GoMap.len_eq_zero.mpr fun h => GoMap.get_eq_none.mpr fun hm => hn ⟨h, ?_⟩
    exact tracks_iff.mpr ⟨inner, hi, hm⟩

-- In a filled tracker there is nothing to remove after a timeout.
theorem Filled.del_of_len_eq_zero (f : m.Filled) (hz : (m.of p).len = 0) : m.del p = m := by
  apply GoMap.del_of_not_mem
  intro hp
  obtain ⟨inner, hi⟩ := GoMap.mem_iff.mp hp
  refine f p inner hi ?_
  simpa [Tracker.of, hi] using hz

end Tracker

section Filled

variable {m : GoMap Hash Origins} {h : Hash} {peers : Finset Peer}

-- Every entry of the map is an allocated set with at least one peer in it.
def Filled (m : GoMap Hash Origins) : Prop :=
  ∀ h o, m.get h = some o → ∃ peers, o = some peers ∧ peers.Nonempty

namespace Filled

theorem empty : Filled ∅ := by
  simp [Filled]

theorem set (f : Filled m) (hp : peers.Nonempty) : Filled (m.set h (some peers)) := by
  intro h' o ho
  rw [GoMap.get_set] at ho
  split at ho
  case isTrue  => exact ⟨_, (Option.some.inj ho).symm, hp⟩
  case isFalse => exact f _ _ ho

theorem del (f : Filled m) : Filled (m.del h) := by
  intro h' o ho
  rw [GoMap.get_del] at ho
  split at ho
  case isTrue  => contradiction
  case isFalse => exact f _ _ ho

-- In a filled map, reading a non-nil set is the same as finding the key.
theorem origins_of_mem (f : Filled m) (hm : h ∈ m) :
    ∃ peers, origins m h = some peers ∧ peers.Nonempty := by
  have ⟨o, ho⟩ := GoMap.mem_iff.mp hm
  have ⟨peers, hp, hn⟩ := f _ _ ho
  exact ⟨peers, by simp [origins, ho, hp], hn⟩

end Filled

theorem mem_of_origins (ho : origins m h = some peers) : h ∈ m := by
  cases hg : m.get h
  case none   => simp [origins, hg] at ho
  case some o => exact GoMap.mem_of_get hg

theorem origins_eq_none (hm : h ∉ m) : origins m h = none := by
  simp [origins, GoMap.get_eq_none.mpr hm]

end Filled

@[grind =]
theorem origins_set {m : GoMap Hash Origins} {h k : Hash} {os : Origins} :
    origins (m.set h os) k = if k = h then os else origins m k := by
  unfold origins
  rw [GoMap.get_set]
  split <;> rfl

@[grind =]
theorem origins_del {m : GoMap Hash Origins} {h k : Hash} :
    origins (m.del h) k = if k = h then none else origins m k := by
  unfold origins
  rw [GoMap.get_del]
  split <;> rfl

theorem origins_congr {m₁ m₂ : GoMap Hash Origins} {h : Hash} (he : m₁.get h = m₂.get h) :
    origins m₁ h = origins m₂ h :=
  congrArg Option.join he

def HasOrigin (m : GoMap Hash Origins) (h : Hash) (p : Peer) : Prop :=
  p ∈ (origins m h).getD ∅

section HasOrigin

variable {m : GoMap Hash Origins} {h k : Hash} {p : Peer} {peers : Finset Peer}

instance : Decidable (HasOrigin m h p) :=
  inferInstanceAs <| Decidable (p ∈ (origins m h).getD ∅)

theorem hasOrigin_iff : HasOrigin m h p ↔ ∃ peers, origins m h = some peers ∧ p ∈ peers := by
  unfold HasOrigin
  cases origins m h <;> simp

@[simp]
theorem not_hasOrigin_empty : ¬HasOrigin ∅ h p := by
  simp [HasOrigin, origins]

@[grind =]
theorem hasOrigin_set : HasOrigin (m.set h (some peers)) k p ↔
    k = h ∧ p ∈ peers ∨ k ≠ h ∧ HasOrigin m k p := by
  simp only [HasOrigin, origins_set]
  split <;> simp_all

@[grind =]
theorem hasOrigin_del : HasOrigin (m.del h) k p ↔ k ≠ h ∧ HasOrigin m k p := by
  simp only [HasOrigin, origins_del]
  split <;> simp_all

@[grind →]
theorem HasOrigin.mem (ho : HasOrigin m h p) : h ∈ m := by
  obtain ⟨_, ho, _⟩ := hasOrigin_iff.mp ho
  exact mem_of_origins ho

end HasOrigin

theorem Filled.congr {m₁ m₂ : GoMap Hash Origins} (f : Filled m₁)
    (h : ∀ k, m₂.get k = m₁.get k ∨ m₂.get k = none ∨
      ∃ peers, m₂.get k = some (some peers) ∧ peers.Nonempty) : Filled m₂ := by
  intro k os hk
  obtain he | he | ⟨peers, he, hn⟩ := h k
  case inl     => exact f k os (he ▸ hk)
  case inr.inl => cases he.symm.trans hk
  case inr.inr => exact ⟨peers, (Option.some.inj (he.symm.trans hk)).symm, hn⟩

namespace State

variable {s s₁ s' : State} {p q peer : Peer} {h k : Hash} {o : Oracle} {l hashes : List Hash}

-- The hashes went from the queue into flight from peer `p`.
structure Assigned (p : Peer) (hashes : List Hash) (s s' : State) : Prop where
  nodup : hashes.Nodup
  eligible : ∀ h ∈ hashes, h ∉ s.fetching ∧ h ∉ s.alternates
  fetching : ∀ h, s'.fetching.get h = if h ∈ hashes then some p else s.fetching.get h
  alternates : ∀ h, s'.alternates.get h =
    if h ∈ hashes then some (origins s.announced h) else s.alternates.get h
  announced : ∀ h, s'.announced.get h = if h ∈ hashes then none else s.announced.get h
  frame : s' = { s with
    fetching := s'.fetching, alternates := s'.alternates, announced := s'.announced }

namespace Assigned

theorem nil : Assigned p [] s s := by
  constructor <;> simp

theorem cons (hf : h ∉ s.fetching) (ha : h ∉ s.alternates)
    (a : Assigned p l
      { s with
        fetching := s.fetching.set h p
        alternates := s.alternates.set h (origins s.announced h)
        announced := s.announced.del h } s') : Assigned p (h :: l) s s' := by
  have hn : h ∉ l := fun hm => (a.eligible h hm).left <| by simp
  constructor
  case nodup => exact nodup_cons.mpr ⟨hn, a.nodup⟩
  case eligible =>
    intro k hm
    cases mem_cons.mp hm
    case inl he => exact he ▸ ⟨hf, ha⟩
    case inr hm =>
      have := a.eligible k hm
      grind
  case fetching =>
    intro k
    have := a.fetching k
    grind
  case alternates =>
    intro k
    have := a.alternates k
    simp only [origins] at this ⊢
    grind
  case announced =>
    intro k
    have := a.announced k
    grind
  case frame => exact a.frame

theorem eq_of_nil (a : Assigned p [] s s') : s' = s := by
  have hf : s'.fetching = s.fetching := GoMap.ext fun h => by simpa using a.fetching h
  have ha : s'.alternates = s.alternates := GoMap.ext fun h => by simpa using a.alternates h
  have hq : s'.announced = s.announced := GoMap.ext fun h => by simpa using a.announced h
  exact a.frame.trans <| by rw [hf, ha, hq]

end Assigned

theorem allocate_spec (peer : Peer) (ann : GoMap Hash (Option FdMetadata)) (l hashes : List Hash)
    (bytes : UInt64) (ha : ∀ h, h ∈ s.alternates → h ∈ s.fetching) :
    ∃ s' new, allocate peer ann l s hashes bytes = .ok (s', hashes ++ new) ∧
      Assigned peer new s s' ∧ (∀ h ∈ new, h ∈ l) ∧
      new.head? = l.find? fun h => h ∉ s.fetching := by
  induction l generalizing s hashes bytes
  case nil => exact ⟨s, [], by simp [allocate], .nil, by simp, rfl⟩
  case cons h l hi =>
    unfold allocate
    split
    case isTrue hf =>
      obtain ⟨s', new, he, a, hn, hh⟩ := hi hashes bytes ha
      refine ⟨s', new, he, a, fun k hk => mem_cons_of_mem _ (hn k hk), ?_⟩
      simpa [List.find?_cons, hf] using hh
    case isFalse hf =>
      have hna := mt (ha h) hf
      have hh : (h :: l).find? (fun h => h ∉ s.fetching) = some h := by simp [hf]
      rw [if_neg hna, hh]
      have stop := (Assigned.nil (p := peer)).cons hf hna
      have ha' : ∀ k, k ∈ s.alternates.set h (origins s.announced h) →
          k ∈ s.fetching.set h peer := by
        grind
      -- The hash is allocated, and the loop either stops or goes on after it.
      have next bytes := hi (hashes ++ [h]) bytes (s := { s with
        fetching := s.fetching.set h peer
        alternates := s.alternates.set h (origins s.announced h)
        announced := s.announced.del h }) ha'
      have go bytes : ∃ s' new, allocate peer ann l { s with
          fetching := s.fetching.set h peer
          alternates := s.alternates.set h (origins s.announced h)
          announced := s.announced.del h } (hashes ++ [h]) bytes = .ok (s', hashes ++ new) ∧
          Assigned peer new s s' ∧ (∀ k ∈ new, k ∈ h :: l) ∧ new.head? = some h := by
        obtain ⟨s', new, he, a, hn, _⟩ := next bytes
        refine ⟨s', h :: new, by simpa using he, a.cons hf hna, ?_, rfl⟩
        intro k hk
        have := hn k
        grind
      dsimp only
      split
      case isTrue => exact ⟨_, [h], rfl, stop, by simp, rfl⟩
      case isFalse =>
        split
        case h_1 => exact go bytes
        case h_2 =>
          split
          case isTrue  => exact ⟨_, [h], rfl, stop, by simp, rfl⟩
          case isFalse => exact go _

structure Requested (p : Peer) (hashes : List Hash) (s s' : State) : Prop where
  idle : p ∉ s.requests
  ne_nil : hashes ≠ []
  nodup : hashes.Nodup
  tracked : ∀ h ∈ hashes, s.announces.Tracks p h
  eligible : ∀ h ∈ hashes, h ∉ s.fetching ∧ h ∉ s.alternates
  fetching : ∀ h, s'.fetching.get h = if h ∈ hashes then some p else s.fetching.get h
  alternates : ∀ h, s'.alternates.get h =
    if h ∈ hashes then some (origins s.announced h) else s.alternates.get h
  announced : ∀ h, s'.announced.get h = if h ∈ hashes then none else s.announced.get h
  requests : ∃ t, s'.requests = s.requests.set p ⟨hashes, ∅, t⟩
  calls : s'.calls = s.calls ++ [.fetchFds p hashes]
  waitlist : s'.waitlist = s.waitlist
  waittime : s'.waittime = s.waittime
  waitslots : s'.waitslots = s.waitslots
  announces : s'.announces = s.announces

namespace Requested

variable (r : Requested p hashes s s')

include r in
theorem hasOrigin_announced : HasOrigin s'.announced h q ↔ h ∉ hashes ∧ HasOrigin s.announced h q := by
  simp only [HasOrigin, origins, r.announced]
  split <;> simp_all

include r in
theorem hasOrigin_alternates : HasOrigin s'.alternates h q ↔
    h ∈ hashes ∧ HasOrigin s.announced h q ∨ h ∉ hashes ∧ HasOrigin s.alternates h q := by
  simp only [HasOrigin, origins, r.alternates]
  split <;> simp_all

end Requested

theorem Assigned.requested {t : AbsTime} (a : Assigned p hashes s s') (hi : p ∉ s.requests)
    (hn : hashes ≠ []) (ht : ∀ h ∈ hashes, s.announces.Tracks p h) :
    Requested p hashes s { s' with
      requests := s'.requests.set p ⟨hashes, ∅, t⟩
      calls := s'.calls ++ [.fetchFds p hashes] } where
  idle := hi
  ne_nil := hn
  nodup := a.nodup
  tracked := ht
  eligible := a.eligible
  fetching := a.fetching
  alternates := a.alternates
  announced := a.announced
  requests := ⟨t, by rw [a.frame]⟩
  calls := by rw [a.frame]
  waitlist := by rw [a.frame]
  waittime := by rw [a.frame]
  waitslots := by rw [a.frame]
  announces := by rw [a.frame]

theorem schedulePeer_head (o : Oracle) (p : Peer)
    (ha : ∀ h, h ∈ s.alternates → h ∈ s.fetching) :
    ∃ s', s.schedulePeer o p = .ok s' ∧
      (s' = s ∧ (p ∈ s.requests ∨ ∀ h, s.announces.Tracks p h → h ∈ s.fetching) ∨
      ∃ hashes, Requested p hashes s s' ∧ hashes.head? =
        ((o.announceOrder p).list (s.announces.of p).keys).find? fun h => h ∉ s.fetching) := by
  unfold schedulePeer
  split
  case isTrue hi => exact ⟨s, rfl, .inl ⟨rfl, .inl hi⟩⟩
  case isFalse hi =>
    dsimp only
    split
    case isTrue hz =>
      refine ⟨s, rfl, .inl ⟨rfl, .inr fun h ht => ?_⟩⟩
      exact absurd ht <| GoMap.get_eq_none.mp <| GoMap.len_eq_zero.mp hz h
    case isFalse =>
      let ann := s.announces.of p
      obtain ⟨s', new, he, a, hn, hh⟩ := allocate_spec p ann
        ((o.announceOrder p).list ann.keys) [] 0 ha
      simp only [ann, he, bind, Except.bind, nil_append]
      split
      case isTrue hz =>
        refine ⟨_, rfl, .inr ⟨new, a.requested hi (ne_nil_of_length_pos hz) ?_, hh⟩⟩
        exact fun h hm => by simpa [ann, Tracker.Tracks] using hn h hm
      case isFalse hz =>
        have hz : new = [] := length_eq_zero_iff.mp (Nat.eq_zero_of_not_pos hz)
        subst hz
        refine ⟨s', rfl, .inl ⟨a.eq_of_nil, .inr fun h ht => ?_⟩⟩
        simpa using List.find?_eq_none.mp hh.symm h (by simpa [ann, Tracker.Tracks] using ht)

theorem schedulePeer_spec (ha : ∀ h, h ∈ s.alternates → h ∈ s.fetching) :
    ∃ s', s.schedulePeer o p = .ok s' ∧ (s' = s ∨ ∃ hashes, Requested p hashes s s') := by
  obtain ⟨s', he, hc⟩ := schedulePeer_head o p ha
  refine ⟨s', he, ?_⟩
  obtain hc | ⟨hashes, r, _⟩ := hc
  case inl => exact .inl hc.left
  case inr => exact .inr ⟨hashes, r⟩

section Wait

variable {peers : Finset Peer}

-- The hash went from the waiting list into the queue, together with all announcements of it.
structure Promoted (h : Hash) (peers : Finset Peer) (s s' : State) : Prop where
  waiting : origins s.waitlist h = some peers
  fresh : origins s.announced h = none
  announced : s'.announced = s.announced.set h (some peers)
  waitlist : s'.waitlist = s.waitlist.del h
  waittime : s'.waittime = s.waittime.del h
  announces : ∀ p k, s'.announces.Tracks p k ↔ s.announces.Tracks p k ∨ p ∈ peers ∧ k = h
  announces_filled : s.announces.Filled → s'.announces.Filled
  waitslots : ∀ p k, s'.waitslots.Tracks p k ↔ s.waitslots.Tracks p k ∧ ¬(p ∈ peers ∧ k = h)
  waitslots_filled : s.waitslots.Filled → s'.waitslots.Filled
  fetching : s'.fetching = s.fetching
  alternates : s'.alternates = s.alternates
  requests : s'.requests = s.requests
  calls : s'.calls = s.calls

theorem promotePeer_spec (l : List Peer) : ∃ announces waitslots,
    l.foldl (promotePeer h) s = { s with announces, waitslots } ∧
      (∀ p k, announces.Tracks p k ↔ s.announces.Tracks p k ∨ p ∈ l ∧ k = h) ∧
      (s.announces.Filled → announces.Filled) ∧
      (∀ p k, waitslots.Tracks p k ↔ s.waitslots.Tracks p k ∧ ¬(p ∈ l ∧ k = h)) ∧
      (s.waitslots.Filled → waitslots.Filled) := by
  induction l generalizing s
  case nil => exact ⟨_, _, rfl, by simp, id, by simp, id⟩
  case cons q l hi =>
    obtain ⟨announces, waitslots, he, ha, hfa, hw, hfw⟩ := hi (s := promotePeer h s q)
    refine ⟨announces, waitslots, he, ?_, hfa ∘ .track, ?_, hfw ∘ .untrack⟩
    all_goals
      intro p k
      have := ha p k
      have := hw p k
      simp only [promotePeer] at *
      grind

theorem promote_spec (actives : Finset Peer) (hw : h ∈ s.waittime → origins s.waitlist h = some peers ∧
    origins s.announced h = none) : ∃ r, promote o (s, actives) h = .ok r ∧
      (r.fst = s ∨ Promoted h peers s r.fst) := by
  unfold promote
  dsimp only
  split
  case h_1 => exact ⟨_, rfl, .inl rfl⟩
  case h_2 instant ht =>
    split
    case isFalse => exact ⟨_, rfl, .inl rfl⟩
    case isTrue =>
      obtain ⟨ho, hq⟩ := hw <| GoMap.mem_of_get ht
      simp only [hq, ho, Option.isSome_none, Bool.false_eq_true, if_false, Option.getD_some]
      obtain ⟨announces, waitslots, he, ha, hfa, hs, hfs⟩ := promotePeer_spec (h := h)
        (s := { s with announced := s.announced.set h (some peers) })
        ((o.originOrder h).list peers)
      rw [he]
      simp only [IterOrder.mem] at ha hs
      exact ⟨_, rfl, .inr ⟨ho, hq, rfl, rfl, rfl, ha, hfa, hs, hfs, rfl, rfl, rfl, rfl⟩⟩

end Wait

section Release

variable {stolen : Finset Hash}

def others (s : State) (p : Peer) (h : Hash) : Finset Peer :=
  ((origins s.alternates h).getD ∅).erase p

-- The hashes that satisfy `out` left the flight, and those with origins `rest` were queued again.
structure Requeued (out : Hash → Prop) (rest : Hash → Finset Peer) (s s' : State) : Prop where
  fetching : ∀ h, (out h → s'.fetching.get h = none) ∧
    (¬out h → s'.fetching.get h = s.fetching.get h)
  alternates : ∀ h, (out h → s'.alternates.get h = none) ∧
    (¬out h → s'.alternates.get h = s.alternates.get h)
  announced : ∀ h, (out h ∧ rest h ≠ ∅ → s'.announced.get h = some (some (rest h))) ∧
    (¬(out h ∧ rest h ≠ ∅) → s'.announced.get h = s.announced.get h)
  calls : s'.calls = s.calls
  waitlist : s'.waitlist = s.waitlist
  waittime : s'.waittime = s.waittime
  waitslots : s'.waitslots = s.waitslots

namespace Requeued

variable {out : Hash → Prop} {rest : Hash → Finset Peer} (r : Requeued out rest s s')

include r in
theorem hasOrigin_announced : HasOrigin s'.announced h q ↔
    (out h ∧ rest h ≠ ∅) ∧ q ∈ rest h ∨ ¬(out h ∧ rest h ≠ ∅) ∧ HasOrigin s.announced h q := by
  have := r.announced h
  by_cases hc : out h ∧ rest h ≠ ∅
  case pos => simp [HasOrigin, origins, this.left hc, hc]
  case neg =>
    simp only [HasOrigin, origins, this.right hc, hc, false_and, not_false_eq_true, true_and, false_or]

include r in
theorem hasOrigin_alternates : HasOrigin s'.alternates h q ↔ ¬out h ∧ HasOrigin s.alternates h q := by
  have := r.alternates h
  by_cases hc : out h
  case pos => simp [HasOrigin, origins, this.left hc, hc]
  case neg => simp only [HasOrigin, origins, this.right hc, hc, not_false_eq_true, true_and]

end Requeued

-- The hashes that satisfy `out` were taken away from peer `p`.
structure Released (p : Peer) (out : Hash → Prop) (s s' : State) : Prop
    extends Requeued out (s.others p) s s' where
  requests : s'.requests = s.requests
  announces : s'.announces = s.announces

theorem release_spec (p : Peer) (stolen : Finset Hash) (l : List Hash) (s : State) :
    Released p (fun h => h ∈ l ∧ h ∉ stolen) s (l.foldl (releaseHash p stolen) s) := by
  induction l generalizing s
  case nil =>
    refine ⟨?_, rfl, rfl⟩
    constructor <;> simp
  case cons h l hi =>
    rw [foldl_cons]
    have r := hi (releaseHash p stolen s h)
    unfold releaseHash at r ⊢
    split at r
    case isTrue hs =>
      rw [if_pos hs]
      refine { r with fetching := ?_, alternates := ?_, announced := ?_ }
      all_goals
        intro k
        have := r.fetching k
        have := r.alternates k
        have := r.announced k
        grind
    case isFalse hs =>
      rw [if_neg hs]
      refine { r with fetching := ?_, alternates := ?_, announced := ?_ }
      case refine_1 =>
        intro k
        have := r.fetching k
        grind
      case refine_2 =>
        intro k
        have := r.alternates k
        grind
      case refine_3 =>
        intro k
        have := r.announced k
        simp only [others, origins, Finset.card_eq_zero] at this ⊢
        grind

-- A timeout has the effect of a drop, unless one of the hashes is queued already.
theorem requeue_eq_release (p : Peer) (stolen : Finset Hash) (s : State) (hn : l.Nodup) :
    l.foldlM (requeueHash p stolen) s = .ok (l.foldl (releaseHash p stolen) s) ∨
    l.foldlM (requeueHash p stolen) s = .error .timeoutContainsAlternate ∧
      ∃ h ∈ l, h ∉ stolen ∧ h ∈ s.announced := by
  induction l generalizing s
  case nil => exact .inl rfl
  case cons h l hi =>
    obtain ⟨hh, hn⟩ := nodup_cons.mp hn
    have he : s.requeueHash p stolen h = .ok (s.releaseHash p stolen h) ∨
        s.requeueHash p stolen h = .error .timeoutContainsAlternate ∧ h ∉ stolen ∧
          h ∈ s.announced := by
      unfold requeueHash releaseHash
      grind
    simp only [foldlM_cons, foldl_cons]
    obtain he | ⟨he, hc⟩ := he <;> rw [he]
    case inr => exact .inr ⟨rfl, h, mem_cons_self, hc⟩
    case inl =>
      refine (hi _ hn).imp id fun hc => ?_
      obtain ⟨he, k, hk, hs, hm⟩ := hc
      refine ⟨he, k, mem_cons_of_mem _ hk, hs, ?_⟩
      have hne : k ≠ h := fun he => hh (he ▸ hk)
      unfold releaseHash at hm
      grind

end Release

section Deliver

variable {d : FdDelivery} {md : FdMetadata} {requests : GoMap Peer FdRequest}

def issued (s : State) (p : Peer) : List (List Hash) :=
  s.calls.filterMap fun
    | .fetchFds q hashes => if q = p then some hashes else none
    | .dropPeer _        => none

theorem deliverPeer_spec (md : FdMetadata) (m : Tracker) (calls : List Call) (l : List Peer) :
    ∃ drops : List Peer, (l.foldl (deliverPeer h md) (m, calls)).snd = calls ++ drops.map .dropPeer ∧
      (m.Filled → (l.foldl (deliverPeer h md) (m, calls)).fst.Filled) := by
  induction l generalizing m calls
  case nil => exact ⟨[], by simp, id⟩
  case cons q l hi =>
    rw [foldl_cons, deliverPeer]
    split
    case isTrue =>
      obtain ⟨drops, hd, hf⟩ := hi (m.untrack q h) (calls ++ [.dropPeer q])
      exact ⟨q :: drops, by simpa using hd, hf ∘ .untrack⟩
    case isFalse =>
      obtain ⟨drops, hd, hf⟩ := hi (m.untrack q h) calls
      exact ⟨drops, hd, hf ∘ .untrack⟩

theorem deliverPeer_tracks {md : FdMetadata} {m : Tracker} {calls : List Call} (l : List Peer) :
    (l.foldl (deliverPeer h md) (m, calls)).fst.Tracks p k ↔
      m.Tracks p k ∧ ¬(p ∈ l ∧ k = h) := by
  induction l generalizing m calls
  case nil => simp
  case cons q l ih =>
    rw [foldl_cons, deliverPeer, ih]
    grind

theorem deliver_tracks (m : Tracker) (io : IterOrder Peer) {calls : List Call} :
    ((io.list m.keys).foldl (deliverPeer h md) (m, calls)).fst.Tracks p k ↔
      m.Tracks p k ∧ k ≠ h := by
  rw [deliverPeer_tracks, IterOrder.mem, GoMap.mem_keys]
  refine and_congr_right fun ht => not_congr <| and_iff_right ?_
  obtain ⟨_, hg, _⟩ := Tracker.tracks_iff.mp ht
  exact GoMap.mem_of_get hg

-- A delivered hash left the waiting list.
structure Arrived (h : Hash) (s s' : State) : Prop where
  waiting : h ∈ s.waitlist
  waitlist : s'.waitlist = s.waitlist.del h
  waittime : s'.waittime = s.waittime.del h
  waitslots : ∀ p k, s'.waitslots.Tracks p k ↔ s.waitslots.Tracks p k ∧ k ≠ h
  waitslots_filled : s.waitslots.Filled → s'.waitslots.Filled
  announces : s'.announces = s.announces
  announced : s'.announced = s.announced
  fetching : s'.fetching = s.fetching
  alternates : s'.alternates = s.alternates
  requests : s'.requests = s.requests
  issued : ∀ p, s'.issued p = s.issued p

-- The request of peer `p` after `h` was delivered.
def mark (d : FdDelivery) (s : State) (h : Hash) (p : Peer) (req : FdRequest) : FdRequest :=
  if s.fetching.get h = some p ∧ ¬(d.direct ∧ p = d.origin) then
    { req with stolen := insert h req.stolen }
  else
    req

-- A delivered hash left the stages after waiting, and its request remembers that it was stolen.
structure Swept (d : FdDelivery) (h : Hash) (s s' : State) : Prop where
  not_waiting : h ∉ s.waitlist
  announced : s'.announced = s.announced.del h
  fetching : s'.fetching = s.fetching.del h
  alternates : s'.alternates = s.alternates.del h
  announces : ∀ p k, s'.announces.Tracks p k ↔ s.announces.Tracks p k ∧ k ≠ h
  announces_filled : s.announces.Filled → s'.announces.Filled
  requests : ∀ p, s'.requests.get p = (s.requests.get p).map (mark d s h p)
  waitlist : s'.waitlist = s.waitlist
  waittime : s'.waittime = s.waittime
  waitslots : s'.waitslots = s.waitslots
  issued : ∀ p, s'.issued p = s.issued p

theorem issued_append_drops {drops : List Peer} (hc : s'.calls = s.calls ++ drops.map .dropPeer) :
    s'.issued p = s.issued p := by
  simp [issued, hc]

theorem steal_spec (hr : ∀ p, s.fetching.get h = some p → p ∈ s.requests) :
    ∃ requests, s.steal d h = .ok { s with requests } ∧
      ∀ p, requests.get p = (s.requests.get p).map (mark d s h p) := by
  unfold steal
  split
  case h_1 hn =>
    refine ⟨s.requests, rfl, fun p => ?_⟩
    cases s.requests.get p <;> simp [mark, hn]
  case h_2 q hq =>
    split
    case isFalse hc =>
      refine ⟨s.requests, rfl, fun p => ?_⟩
      cases s.requests.get p <;> grind [mark]
    case isTrue hc =>
      obtain ⟨req, hg⟩ := GoMap.mem_iff.mp (hr q hq)
      rw [hg]
      refine ⟨_, rfl, fun p => ?_⟩
      rw [GoMap.get_set]
      split
      case isTrue hp  =>
        subst hp
        simp only [hg, Option.map_some, mark]
        grind
      case isFalse hp =>
        cases s.requests.get p
        case none   => rfl
        case some r =>
          simp only [Option.map_some, mark]
          grind

theorem deliverHash_spec (md : FdMetadata) (hr : ∀ p, s.fetching.get h = some p → p ∈ s.requests) :
    ∃ s', s.deliverHash o d (h, md) = .ok s' ∧ (Arrived h s s' ∨ Swept d h s s') := by
  unfold deliverHash
  dsimp only
  split
  case isTrue hw =>
    obtain ⟨drops, hc, hf⟩ := deliverPeer_spec (h := h) md s.waitslots s.calls
      ((o.slotOrder h).list s.waitslots.keys)
    refine ⟨_, rfl, .inl ⟨hw, rfl, rfl, ?_, hf, rfl, rfl, rfl, rfl, rfl, ?_⟩⟩
    case refine_1 => exact fun _ _ => deliver_tracks _ _
    case refine_2 => exact fun _ => issued_append_drops hc
  case isFalse hw =>
    obtain ⟨drops, hc, hf⟩ := deliverPeer_spec (h := h) md s.announces s.calls
      ((o.slotOrder h).list s.announces.keys)
    let r := ((o.slotOrder h).list s.announces.keys).foldl (deliverPeer h md) (s.announces, s.calls)
    obtain ⟨requests, he, hq⟩ := steal_spec (d := d) (s := { s with
      announces := r.fst
      calls := r.snd
      announced := s.announced.del h
      alternates := s.alternates.del h }) hr
    simp only [r] at he
    simp only [he, bind, Except.bind]
    refine ⟨_, rfl, .inr ⟨hw, rfl, rfl, rfl, ?_, hf, hq, rfl, rfl, rfl, ?_⟩⟩
    case refine_1 => exact fun _ _ => deliver_tracks _ _
    case refine_2 => exact fun _ => issued_append_drops hc

end Deliver

section Settle

variable {d : FdDelivery} {req : FdRequest} {es : List (Hash × Nat)}

def Brings (d : FdDelivery) (h : Hash) : Prop :=
  h ∈ d.hashes

instance : Decidable (Brings d h) :=
  inferInstanceAs <| Decidable (h ∈ d.hashes)

-- The peer deliberately left the hash out of its answer.
def Refused (d : FdDelivery) (req : FdRequest) (h : Hash) : Prop :=
  h ∉ d.hashes ∧ req.hashes.idxOf h < cutoff req d.hashes

instance : Decidable (Refused d req h) :=
  inferInstanceAs <| Decidable (_ ∧ _)

def remaining (d : FdDelivery) (req : FdRequest) (s : State) (h : Hash) : Finset Peer :=
  if Brings d h then ∅
  else if Refused d req h then s.others d.origin h
  else (origins s.alternates h).getD ∅

theorem remaining_of_mem (hm : h ∈ d.hashes) : remaining d req s h = ∅ :=
  if_pos hm

theorem remaining_of_not_mem (hm : h ∉ d.hashes) : remaining d req s h =
    if Refused d req h then s.others d.origin h else (origins s.alternates h).getD ∅ :=
  if_neg hm

-- The hashes that satisfy `out` were taken out of flight by the answer `d` to the request `req`.
structure Answered (d : FdDelivery) (req : FdRequest) (out : Hash → Prop) (s s' : State) : Prop
    extends Requeued out (remaining d req s) s s' where
  announces : ∀ p h, s'.announces.Tracks p h ↔
    s.announces.Tracks p h ∧ ¬(p = d.origin ∧ out h ∧ Refused d req h)
  announces_filled : s.announces.Filled → s'.announces.Filled
  requests : s'.requests = s.requests

theorem settleHash_spec {i : Nat} (hi : req.hashes.idxOf h = i)
    (hq : origins s.alternates h ≠ none → h ∉ s.announced) :
    ∃ s', s.settleHash d req (h, i) = .ok s' ∧
      Answered d req (fun k => k = h ∧ h ∉ req.stolen) s s' := by
  unfold settleHash
  dsimp only
  split
  case isTrue hs =>
    refine ⟨s, rfl, ⟨?_, by simp [hs], id, rfl⟩⟩
    constructor <;> simp [hs]
  case isFalse hs =>
    split
    case isTrue hd =>
      refine ⟨_, rfl, ?_⟩
      refine ⟨?_, ?_, id, rfl⟩
      case refine_1 =>
        have hz : remaining d req s h = ∅ := remaining_of_mem hd
        constructor <;> grind
      case refine_2 => grind [Refused]
    case isFalse hd =>
      have hr : i < cutoff req d.hashes ↔ Refused d req h := by simp [Refused, hd, hi]
      have hm : (if i < cutoff req d.hashes then ((origins s.alternates h).getD ∅).erase d.origin
          else (origins s.alternates h).getD ∅) = remaining d req s h := by
        simp only [hr, remaining_of_not_mem hd, others]
      simp only [hm]
      -- Nothing is left of a nil set, so that the panic needs a hash in flight with origins.
      have hp : ¬((remaining d req s h).card > 0 ∧ h ∈ s.announced) := by
        rintro ⟨hc, ha⟩
        refine hq ?_ ha
        intro hz
        simp [remaining, others, hz] at hc
      rw [if_neg hp]
      refine ⟨_, rfl, ?_⟩
      simp only [hr]
      refine ⟨?_, ?_, ?_, rfl⟩
      case refine_1 =>
        constructor
        case announced =>
          intro k
          simp only [gt_iff_lt, Finset.card_pos, Finset.nonempty_iff_ne_empty]
          grind
        all_goals grind
      case refine_2 =>
        intro p k
        simp only
        split <;> grind
      case refine_3 =>
        intro hf
        simp only
        split
        case isTrue  => exact hf.untrack
        case isFalse => exact hf

theorem remaining_congr (h : s.alternates.get k = s₁.alternates.get k) :
    remaining d req s k = remaining d req s₁ k := by
  simp [remaining, others, origins, h]

-- The answers to several hashes add up, as each of them only concerns its own hash.
theorem Answered.append {out₁ out₂ : Hash → Prop} (a₁ : Answered d req out₁ s s₁)
    (a₂ : Answered d req out₂ s₁ s') (hd : ∀ h, out₁ h → ¬out₂ h) :
    Answered d req (fun h => out₁ h ∨ out₂ h) s s' := by
  constructor
  case announces =>
    intro p h
    rw [a₂.announces, a₁.announces]
    grind
  case announces_filled => exact a₂.announces_filled ∘ a₁.announces_filled
  case requests         => exact a₂.requests.trans a₁.requests
  case toRequeued =>
    constructor
    case fetching =>
      intro h
      have := a₁.fetching h
      have := a₂.fetching h
      grind
    case alternates =>
      intro h
      have := a₁.alternates h
      have := a₂.alternates h
      grind
    case announced =>
      intro h
      have h₁ := a₁.announced h
      have h₂ := a₂.announced h
      by_cases ho : out₁ h
      case pos => grind
      case neg =>
        rw [remaining_congr ((a₁.alternates h).right ho)] at h₂
        grind
    case calls     => exact a₂.calls.trans a₁.calls
    case waitlist  => exact a₂.waitlist.trans a₁.waitlist
    case waittime  => exact a₂.waittime.trans a₁.waittime
    case waitslots => exact a₂.waitslots.trans a₁.waitslots

theorem settle_spec (hi : ∀ e ∈ es, req.hashes.idxOf e.fst = e.snd)
    (hn : (es.map Prod.fst).Nodup)
    (hq : ∀ e ∈ es, origins s.alternates e.fst ≠ none → e.fst ∉ s.announced) :
    ∃ s', es.foldlM (settleHash d req) s = .ok s' ∧
      Answered d req (fun h => h ∈ es.map Prod.fst ∧ h ∉ req.stolen) s s' := by
  induction es generalizing s
  case nil =>
    refine ⟨s, rfl, ⟨?_, by simp, id, rfl⟩⟩
    constructor <;> simp
  case cons e es ih =>
    obtain ⟨h, i⟩ := e
    obtain ⟨hi₁, hi₂⟩ := forall_mem_cons.mp hi
    obtain ⟨hq₁, hq₂⟩ := forall_mem_cons.mp hq
    obtain ⟨hn₁, hn₂⟩ := nodup_cons.mp hn
    obtain ⟨s₁, he₁, a₁⟩ := settleHash_spec (d := d) hi₁ hq₁
    -- The other hashes are still where they were.
    have hq' : ∀ e ∈ es, origins s₁.alternates e.fst ≠ none → e.fst ∉ s₁.announced := by
      intro e hm
      have hne : ¬(e.fst = h ∧ h ∉ req.stolen) := fun hc => hn₁ <| mem_map.mpr ⟨e, hm, hc.left⟩
      have ha : s₁.alternates.get e.fst = s.alternates.get e.fst := (a₁.alternates e.fst).right hne
      have hb : s₁.announced.get e.fst = s.announced.get e.fst :=
        (a₁.announced e.fst).right fun hc => hne hc.left
      have := hq₂ e hm
      simp only [origins, ← GoMap.get_eq_none, ha, hb] at this ⊢
      exact this
    obtain ⟨s₂, he₂, a₂⟩ := ih hi₂ hn₂ hq'
    refine ⟨s₂, by simp only [foldlM_cons, he₁]; exact he₂, ?_⟩
    have a := a₁.append a₂ (by grind)
    have ho : (fun k => (k = h ∧ h ∉ req.stolen) ∨ k ∈ es.map Prod.fst ∧ k ∉ req.stolen) =
        fun k => k ∈ ((h, i) :: es).map Prod.fst ∧ k ∉ req.stolen := by
      ext k
      simp only [map_cons, mem_cons]
      grind
    exact ho ▸ a

end Settle

end State
end Fetcher
