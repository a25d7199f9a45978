import DomiconExec.Fetcher.Theorems.Requests

namespace Fetcher

open List

namespace State

variable {s s₁ s₂ s' : State} {p q : Peer} {h : Hash} {o : Oracle} {l hashes hashes' : List Hash}
variable {ann : GoMap Hash (Option FdMetadata)} {bytes : UInt64} {req : FdRequest}

-- The size that was announced for a hash. It is not announced before version 68 of the protocol.
def announcedSize (ann : GoMap Hash (Option FdMetadata)) (h : Hash) : Nat :=
  match (ann.get h).join with
  | none    => 0
  | some md => md.size.toNat

def totalSize (ann : GoMap Hash (Option FdMetadata)) : List Hash → Nat
  | []          => 0
  | h :: hashes => announcedSize ann h + totalSize ann hashes

theorem totalSize_concat : totalSize ann (hashes ++ [h]) = totalSize ann hashes + announcedSize ann h := by
  induction hashes
  case nil => simp [totalSize]
  case cons k hashes hi =>
    rw [cons_append, totalSize, totalSize, hi, Nat.add_assoc]

theorem totalSize_dropLast_le : totalSize ann hashes.dropLast ≤ totalSize ann hashes := by
  rcases eq_nil_or_concat hashes with rfl | ⟨hashes, h, rfl⟩
  case inl => exact Nat.le_refl _
  case inr =>
    rw [concat_eq_append, dropLast_concat, totalSize_concat]
    exact Nat.le_add_right ..

-- The limits of a request. The size may be exceeded by the last hash.
structure Within (ann : GoMap Hash (Option FdMetadata)) (hashes : List Hash) : Prop where
  count : hashes.length ≤ maxFdRetrievals
  size : totalSize ann hashes.dropLast < maxFdRetrievalSize.toNat

theorem toNat_add_size {md : FdMetadata} (h : bytes.toNat < maxFdRetrievalSize.toNat) :
    (bytes + md.size.toUInt64).toNat = bytes.toNat + md.size.toNat := by
  have hm : maxFdRetrievalSize.toNat = 512000 := rfl
  have hs := md.size.toNat_lt
  rw [UInt64.toNat_add, UInt32.toNat_toUInt64]
  omega

theorem allocate_within (hc : hashes.length < maxFdRetrievals)
    (hb : bytes.toNat = totalSize ann hashes) (hl : bytes.toNat < maxFdRetrievalSize.toNat)
    (ha : allocate p ann l s hashes bytes = .ok (s', hashes')) : Within ann hashes' := by
  induction l generalizing s hashes bytes
  case nil =>
    cases ha
    exact ⟨Nat.le_of_lt hc, Nat.lt_of_le_of_lt (totalSize_dropLast_le.trans_eq hb.symm) hl⟩
  case cons h l hi =>
    have hlen : (hashes ++ [h]).length = hashes.length + 1 := List.length_append
    -- The loop may stop after any hash.
    have stop : Within ann (hashes ++ [h]) := by
      refine ⟨hlen ▸ hc, ?_⟩
      rw [dropLast_concat, ← hb]
      exact hl
    unfold allocate at ha
    split at ha
    case isTrue => exact hi hc hb hl ha
    case isFalse =>
      split at ha
      case isTrue => cases ha
      case isFalse =>
        dsimp only at ha
        split at ha
        case isTrue =>
          cases ha
          exact stop
        case isFalse hn =>
          have hc' := Nat.lt_of_not_ge hn
          split at ha
          case h_1 hg =>
            refine hi hc' ?_ hl ha
            simp only [hb, totalSize_concat, announcedSize, hg, Nat.add_zero]
          case h_2 md hg =>
            split at ha
            case isTrue =>
              cases ha
              exact stop
            case isFalse hs =>
              refine hi hc' ?_ (UInt64.lt_iff_toNat_lt.mp (UInt64.not_le.mp hs)) ha
              rw [toNat_add_size hl, hb, totalSize_concat, announcedSize, hg]

theorem schedulePeer_within (ha : ∀ h, h ∈ s.alternates → h ∈ s.fetching) (hi : p ∉ s.requests)
    (he : s.schedulePeer o p = .ok s') (hr : s'.requests.get p = some req) :
    Within (s.announces.of p) req.hashes := by
  unfold schedulePeer at he
  rw [if_neg hi] at he
  dsimp only at he
  split at he
  case isTrue =>
    cases he
    exact absurd (GoMap.mem_of_get hr) hi
  case isFalse =>
    obtain ⟨s₁, new, hn, a, _⟩ := allocate_spec p (s.announces.of p)
      ((o.announceOrder p).list (s.announces.of p).keys) [] 0 ha
    have hw := allocate_within (by decide) rfl (by decide) hn
    simp only [hn, bind, Except.bind, nil_append] at he hw
    split at he
    case isTrue =>
      cases he
      rw [GoMap.get_set_self] at hr
      exact Option.some.inj hr ▸ hw
    case isFalse =>
      cases he
      rw [a.frame] at hr
      exact absurd (GoMap.mem_of_get hr) hi

-- The request was made between the two states.
def Made (p : Peer) (req : FdRequest) (s s' : State) : Prop :=
  p ∉ s.requests ∧ s'.requests.get p = some req

-- The hash went from the queue into flight, together with its origins.
structure Moved (p : Peer) (h : Hash) (s s' : State) : Prop where
  tracked : s.announces.Tracks p h
  idle : h ∉ s.fetching
  queued : HasOrigin s.announced h p
  stashed : s'.alternates.get h = s.announced.get h
  unqueued : h ∉ s'.announced
  fetching : s'.fetching.get h = some p

structure Allotted (p : Peer) (hashes : List Hash) (s s' : State) : Prop where
  ne_nil : hashes ≠ []
  nodup : hashes.Nodup
  within : Within (s.announces.of p) hashes
  moved : ∀ h ∈ hashes, Moved p h s s'

-- What holds after each turn of the loop over the peers.
structure Allotting (l : List Peer) (s s' : State) : Prop where
  announces : s'.announces = s.announces
  alternates : ∀ h, h ∈ s'.alternates → h ∈ s'.fetching
  fetching : ∀ h, h ∈ s.fetching → h ∈ s'.fetching
  announced : ∀ h, h ∉ s'.fetching → s'.announced.get h = s.announced.get h
  kept : ∀ p, p ∈ s.requests → s'.requests.get p = s.requests.get p
  listed : ∀ p req, Made p req s s' → p ∈ l
  allotted : ∀ p req, Made p req s s' → Allotted p req.hashes s s'

namespace Requested

variable (r : Requested p hashes s₁ s₂)

include r in
theorem mem_fetching : h ∈ s₂.fetching ↔ h ∈ hashes ∨ h ∈ s₁.fetching := by
  have := r.fetching h
  grind [GoMap.mem_iff]

include r in
theorem get_requests_of_ne (hq : q ≠ p) : s₂.requests.get q = s₁.requests.get q := by
  obtain ⟨t, hr⟩ := r.requests
  rw [hr, GoMap.get_set_ne hq]

end Requested

-- Later requests leave alone what is already in flight.
theorem Moved.requested (m : Moved q h s s₁) (r : Requested p hashes s₁ s₂) : Moved q h s s₂ := by
  have hm : h ∉ hashes := fun hm => (r.eligible h hm).left <| GoMap.mem_of_get m.fetching
  exact {
    tracked := m.tracked
    idle := m.idle
    queued := m.queued
    stashed := by rw [r.alternates, if_neg hm, m.stashed]
    unqueued := GoMap.not_mem_of_get <| by rw [r.announced, if_neg hm, GoMap.get_of_not_mem m.unqueued]
    fetching := by rw [r.fetching, if_neg hm, m.fetching]
  }

namespace Allotting

variable {l : List Peer} (a : Allotting l s s₁)

theorem refl (ha : ∀ h, h ∈ s.alternates → h ∈ s.fetching) : Allotting l s s where
  announces := rfl
  alternates := ha
  fetching _ := id
  announced _ _ := rfl
  kept _ _ := rfl
  listed _ _ m := absurd (GoMap.mem_of_get m.right) m.left
  allotted _ _ m := absurd (GoMap.mem_of_get m.right) m.left

include a in
theorem not_mem_requests (h : p ∉ s₁.requests) : p ∉ s.requests := by
  intro hp
  obtain ⟨req, hr⟩ := GoMap.mem_iff.mp hp
  exact h <| GoMap.mem_of_get <| (a.kept p hp).trans hr

include a in
theorem moved (hq : ∀ p h, s.announces.Tracks p h → h ∉ s.fetching → HasOrigin s.announced h p)
    (r : Requested p hashes s₁ s₂) (hm : h ∈ hashes) : Moved p h s s₂ := by
  have hf₁ := (r.eligible h hm).left
  have hf := mt (a.fetching h) hf₁
  have ht := a.announces ▸ r.tracked h hm
  have ho := hq p h ht hf
  have hs : s₂.alternates.get h = s.announced.get h := by
    obtain ⟨os, hg⟩ := GoMap.mem_iff.mp ho.mem
    rw [r.alternates, if_pos hm, origins, a.announced h hf₁, hg]
    rfl
  have hn : h ∉ s₂.announced := GoMap.not_mem_of_get <| by rw [r.announced, if_pos hm]
  exact ⟨ht, hf, ho, hs, hn, by rw [r.fetching, if_pos hm]⟩

include a in
theorem request (hq : ∀ p h, s.announces.Tracks p h → h ∉ s.fetching → HasOrigin s.announced h p)
    (hl : p ∈ l) (r : Requested p hashes s₁ s₂) (hw : Within (s₁.announces.of p) hashes) :
    Allotting l s s₂ := by
  -- A request is either the last one or an earlier one.
  have made {q req} (m : Made q req s s₂) : q = p ∧ req.hashes = hashes ∨ Made q req s s₁ := by
    by_cases hp : q = p
    case neg => exact .inr ⟨m.left, (r.get_requests_of_ne hp).symm.trans m.right⟩
    case pos =>
      obtain ⟨t, hr⟩ := r.requests
      have hg := m.right
      rw [hr, hp, GoMap.get_set_self] at hg
      exact .inl ⟨hp, (congrArg FdRequest.hashes (Option.some.inj hg)).symm⟩
  constructor
  case announces => exact r.announces.trans a.announces
  case alternates =>
    intro h hh
    have := r.alternates h
    have := a.alternates h
    rw [r.mem_fetching]
    grind [GoMap.mem_iff]
  case fetching =>
    intro h hh
    exact r.mem_fetching.mpr <| .inr <| a.fetching h hh
  case announced =>
    intro h hh
    rw [r.mem_fetching, not_or] at hh
    rw [r.announced, if_neg hh.left]
    exact a.announced h hh.right
  case kept =>
    intro q hp
    have hn : q ≠ p := fun he => a.not_mem_requests r.idle (he ▸ hp)
    exact (r.get_requests_of_ne hn).trans <| a.kept q hp
  case listed =>
    intro q req m
    obtain ⟨rfl, _⟩ | m := made m
    case inl => exact hl
    case inr => exact a.listed q req m
  case allotted =>
    intro q req m
    obtain ⟨rfl, he⟩ | m := made m
    case inl => exact he ▸ ⟨r.ne_nil, r.nodup, a.announces ▸ hw, fun h hm => a.moved hq r hm⟩
    case inr =>
      have b := a.allotted q req m
      exact ⟨b.ne_nil, b.nodup, b.within, fun h hm => (b.moved h hm).requested r⟩

end Allotting

structure Scheduled (w : Option (Finset Peer)) (s s' : State) : Prop where
  kept : ∀ p, p ∈ s.requests → s'.requests.get p = s.requests.get p
  allotted : ∀ p req, Made p req s s' → Allotted p req.hashes s s'
  disjoint : ∀ p₁ p₂ req₁ req₂, Made p₁ req₁ s s' → Made p₂ req₂ s s' → p₁ ≠ p₂ →
    req₁.hashes.Disjoint req₂.hashes
  listed : ∀ peers, w = some peers → ∀ p req, Made p req s s' → p ∈ peers

theorem Allotting.scheduled {w : Option (Finset Peer)} {io : IterOrder Peer}
    (a : Allotting (io.list (w.getD s.announces.keys)) s s') : Scheduled w s s' where
  kept := a.kept
  allotted := a.allotted
  disjoint := by
    intro p₁ p₂ req₁ req₂ m₁ m₂ hn h h₁ h₂
    -- A hash is in flight from one peer only.
    have hf₁ := ((a.allotted p₁ req₁ m₁).moved h h₁).fetching
    have hf₂ := ((a.allotted p₂ req₂ m₂).moved h h₂).fetching
    exact hn <| Option.some.inj <| hf₁.symm.trans hf₂
  listed := by
    intro peers hw p req m
    have hm := a.listed p req m
    rw [hw] at hm
    exact (io.mem peers p).mp hm

theorem scheduleFetches_scheduled (s : State) (o : Oracle) (w : Option (Finset Peer))
    (ha : ∀ h, h ∈ s.alternates ↔ h ∈ s.fetching)
    (hq : ∀ p h, s.announces.Tracks p h → h ∉ s.fetching → HasOrigin s.announced h p) :
    ∃ s', s.scheduleFetches o w = .ok s' ∧ Scheduled w s s' := by
  let all := o.peerOrder.list (w.getD s.announces.keys)
  have body p l s₁ : (p :: l ⊆ all ∧ Allotting all s s₁) →
      ∃ s₂, s₁.schedulePeer o p = .ok s₂ ∧ l ⊆ all ∧ Allotting all s s₂ := by
    rintro ⟨hl, a⟩
    obtain ⟨hp, hl⟩ := cons_subset.mp hl
    obtain ⟨s₂, he, hc⟩ := schedulePeer_spec (o := o) (p := p) a.alternates
    refine ⟨s₂, he, hl, ?_⟩
    obtain rfl | ⟨hashes, r⟩ := hc
    case inl => exact a
    case inr =>
      obtain ⟨t, hr⟩ := r.requests
      have hg := hr ▸ GoMap.get_set_self
      exact a.request hq hp r <| schedulePeer_within a.alternates r.idle he hg
  obtain ⟨s', he, _, a⟩ := Loop.foldlM_rule (fun l s₁ => l ⊆ all ∧ Allotting all s s₁) body
    ⟨List.Subset.refl all, .refl fun h => (ha h).mp⟩
  exact ⟨s', he, a.scheduled⟩

-- The hash is queued with the origins "p" and "q".
noncomputable def queued : State where
  __ := State.init
  announces := (Tracker.track ∅ "p" fixedHash none).track "q" fixedHash none
  announced := GoMap.set ∅ fixedHash (some {"p", "q"})

-- The hash is requested from the first of the two peers only.
theorem scheduleFetches_queued : ∃ s', queued.scheduleFetches early none = .ok s' ∧
    Scheduled none queued s' ∧ s'.requests = GoMap.set ∅ "p" ⟨[fixedHash], ∅, 0⟩ := by
  have ha h : h ∈ queued.alternates ↔ h ∈ queued.fetching := Iff.rfl
  have hq p h : queued.announces.Tracks p h → h ∉ queued.fetching →
      HasOrigin queued.announced h p := by
    intro ht _
    simp only [queued, Tracker.tracks_track, Tracker.not_tracks_empty, or_false] at ht
    rcases ht with ⟨rfl, rfl⟩ | ⟨rfl, rfl⟩
    case inl => decide
    case inr => decide
  obtain ⟨s', he, hs⟩ := scheduleFetches_scheduled queued early none ha hq
  obtain ⟨s₁, he₁, hr⟩ : ∃ s₁, queued.scheduleFetches early none = .ok s₁ ∧
    s₁.requests = GoMap.set ∅ "p" ⟨[fixedHash], ∅, 0⟩ := ⟨_, rfl, rfl⟩
  cases he.symm.trans he₁
  exact ⟨s', he, hs, hr⟩

end State
end Fetcher
