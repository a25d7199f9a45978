import DomiconExec.Fetcher.Theorems.Sound

namespace Fetcher

open Transition.System

variable {s : State}

namespace State

variable {s₀ s₁ s' : State} {p q : Peer} {h k : Hash} {o : Oracle} {d : FdDelivery} {req : FdRequest}

-- A hash is in at most one of the stages: waiting, queued or in flight.
structure Exclusive (s : State) : Prop where
  waiting : ∀ h, h ∈ s.waitlist → h ∉ s.announced ∧ h ∉ s.fetching ∧ h ∉ s.alternates
  queued : ∀ h, h ∈ s.announced → h ∉ s.fetching

def HasOther (s : State) (peer : Peer) (hash : Hash) : Prop :=
  (((origins s.alternates hash).getD ∅).erase peer).Nonempty

def Droppable (s : State) (p : Peer) : Prop :=
  ∀ req, s.requests.get p = some req → ∀ h ∈ req.hashes, h ∉ req.stolen → s.HasOther p h

-- All hashes of an expired request have another origin.
def Replaceable (o : Oracle) (s : State) (p : Peer) : Prop :=
  ∀ req, s.requests.get p = some req → timedOut o p req →
    ∀ h ∈ req.hashes, h ∉ req.stolen → s.HasOther p h

-- When a hash that the answering peer left out is given up, nobody else may have it tracked.
def Settled (d : FdDelivery) (req : FdRequest) (s : State) : Hash × Nat → Prop
  | (h, i) => h ∉ req.stolen → h ∉ d.hashes → i < cutoff req d.hashes →
    s.HasOther d.origin h ∨ ∀ q, q ≠ d.origin → ¬s.announces.Tracks q h

-- Every hash that the answering peer left out can be settled.
def Answerable (s : State) (d : FdDelivery) : Prop :=
  d.direct → ∀ req, s.requests.get d.origin = some req →
    ∀ e ∈ req.hashes.zipIdx, Settled d req s e

-- The events that do not take away the last origin of a hash in flight while an announcement of it
-- stays tracked. Timeouts and drops do not clean the trackers, so any other origin has to exist.
def KeepsOrigins (s : State) : Oracle × Event → Prop
  | (_, .notify _)       => True
  | (_, .waitTrigger)    => True
  | (o, .timeoutTrigger) => ∀ p, s.Replaceable o p
  | (_, .cleanup d)      => s.Answerable d
  | (_, .drop p)         => s.Droppable p

-- Every hash in flight has an origin, and every tracked announcement belongs to a hash that is
-- queued or in flight, on which `scheduleFetches` relies when it looks up the origins.
structure Covered (s : State) : Prop where
  filled : Filled s.alternates
  tracked : ∀ {p h}, s.announces.Tracks p h → h ∈ s.announced ∨ h ∈ s.fetching

namespace Covered

theorem init : Covered .init := by
  constructor <;> simp [State.init, Filled.empty]

theorem excl {a : Option FdDelivery} (c : s.Covered) (i : Sound a s) (hf : h ∈ s.fetching) :
    h ∉ s.waitlist ∧ h ∉ s.announced := by
  obtain ⟨_, ho, _⟩ := c.filled.origins_of_mem <| i.alternates_iff.mpr hf
  exact i.alternates_excl ho |>.right

theorem exclusive (c : s.Covered) (i : Sound none s) : s.Exclusive where
  queued _ ha hf := c.excl i hf |>.right ha
  waiting _ hw := by
    refine ⟨fun ha => i.announced_excl ha hw, fun hf => c.excl i hf |>.left hw, fun ha => ?_⟩
    exact c.excl i (i.alternates_iff.mp ha) |>.left hw

theorem requested {hashes : List Hash} (c : s.Covered) (i : Sound none s)
    (r : Requested p hashes s s') : s'.Covered where
  filled := by
    refine c.filled.congr fun k => ?_
    rw [r.alternates]
    split
    case isFalse => exact .inl rfl
    case isTrue hk =>
      -- Only hashes with a tracked announcement are requested, and those were queued.
      have hq := c.tracked (r.tracked k hk) |>.resolve_right (r.eligible k hk).left
      obtain ⟨peers, ho, hn⟩ := i.announced_filled.origins_of_mem hq
      exact .inr <| .inr ⟨peers, by rw [ho], hn⟩
  tracked {p k} ht := by
    have := c.tracked (r.announces ▸ ht)
    have := r.announced k
    have := r.fetching k
    grind

theorem notified {md : Option FdMetadata} (c : s.Covered) (i : Sound none s) :
    (s.notifyHash o p (h, md)).Covered := by
  unfold notifyHash
  dsimp only
  have := @c.tracked
  split
  case h_1 ho =>
    have := i.alternates_iff.mp <| mem_of_origins ho
    exact ⟨c.filled.set <| Finset.insert_nonempty .., by grind⟩
  case h_2 =>
    split
    case h_1 => exact ⟨c.filled, by grind⟩
    case h_2 =>
      split
      case h_2 => exact ⟨c.filled, c.tracked⟩
      case h_1 =>
        split
        case isTrue  => exact c
        case isFalse => exact ⟨c.filled, c.tracked⟩

theorem promoted {peers : Finset Peer} (c : s.Covered) (w : Promoted h peers s s') :
    s'.Covered where
  filled := w.alternates ▸ c.filled
  tracked {p k} ht := by
    have := @c.tracked p k
    rw [w.announces] at ht
    rw [w.announced, w.fetching]
    grind

-- Hashes can be taken out of flight if each of them is either queued again or not tracked any more.
theorem requeued {out : Hash → Prop} {rest : Hash → Finset Peer} (c : s.Covered)
    (r : Requeued out rest s s')
    (ht : ∀ {p h}, s'.announces.Tracks p h → s.announces.Tracks p h ∧ (out h → rest h ≠ ∅)) :
    s'.Covered where
  filled := by
    refine c.filled.congr fun k => ?_
    have := r.alternates k
    grind
  tracked {p k} hk := by
    obtain ⟨hk, hr⟩ := ht hk
    have := c.tracked hk
    have := r.announced k
    have := r.fetching k
    grind

theorem released {requests : GoMap Peer FdRequest} (c : s.Covered) (r : Released p (Live req) s s₁)
    (ho : ∀ h ∈ req.hashes, h ∉ req.stolen → s.HasOther p h) :
    { s₁ with requests : State }.Covered := by
  have hs : Requeued (Live req) (s.others p) s { s₁ with requests } := { r.toRequeued with }
  refine c.requeued hs fun {_ h} ht => ⟨r.announces ▸ ht, fun hl => ?_⟩
  exact (ho h hl.left hl.right).ne_empty

theorem expired (c : s.Covered) (i : Sound none s) (hr : ∀ p, s.Replaceable o p)
    (x : Expired o p req s s₁) :
    { s₁ with requests := s₁.requests.set p { req with hashes := [] } : State }.Covered ∧
      ∀ q, { s₁ with requests := s₁.requests.set p { req with hashes := [] } : State }.Replaceable
        o q := by
  refine ⟨c.released x.released (hr p req x.request x.timedOut), fun q req' hq ht h hm hs => ?_⟩
  dsimp only at hq
  by_cases he : q = p
  case pos =>
    rw [he, GoMap.get_set_self] at hq
    cases hq
    simp at hm
  case neg =>
    -- The hashes of another request are not among the released ones.
    rw [GoMap.get_set_ne he, x.released.requests] at hq
    have hn : ¬Live req h := by
      intro hl
      have h₁ := i.fetched x.request hl.left hl.right
      have h₂ := i.fetched hq hm hs
      grind
    have ha := x.released.alternates h |>.right hn
    simpa only [HasOther, origins, ha] using hr q req' hq ht h hm hs

theorem timeout (c : s.Covered) (i : Sound none s) (hr : ∀ p, s.Replaceable o p) :
    ∃ s', s.timeoutTrigger o = .ok s' ∧ Sound none s' ∧ s'.Covered := by
  let I (s : State) := Sound none s ∧ s.Covered ∧ ∀ p, s.Replaceable o p
  have body p (_ : List Peer) s : I s → ∃ s', s.timeoutPeer o p = .ok s' ∧ I s' := by
    rintro ⟨i, c, hr⟩
    obtain ⟨s', he, hc⟩ | ⟨_, req, h, hg, hl, ha⟩ := timeoutPeer_spec (o := o) (p := p) i
    case inr =>
      have hf := i.fetched hg hl.left hl.right |>.resolve_right (by simp)
      exact absurd ha <| c.excl i (GoMap.mem_of_get hf) |>.right
    case inl =>
      refine ⟨s', he, ?_⟩
      obtain rfl | ⟨req, s₁, x, rfl⟩ := hc
      case inl => exact ⟨i, c, hr⟩
      case inr => exact ⟨x.sound i, c.expired i hr x⟩
  obtain ⟨s₁, he, i₁, c₁, _⟩ := Loop.foldlM_rule (l := o.requestOrder.list s.requests.keys)
    (fun _ => I) body ⟨i, c, hr⟩
  unfold timeoutTrigger
  simp only [he, bind, Except.bind]
  exact scheduleFetches_rule i₁ c₁ fun _ _ _ _ i c => c.requested i

end Covered

-- The state `s` in the middle of a delivery to `s₀`, with the hashes in `rest` still to come.
structure Delivering (d : FdDelivery) (s₀ : State) (rest : List Hash) (s : State) : Prop where
  covered : s.Covered
  gone : ∀ {p h}, h ∈ d.hashes → h ∉ rest → ¬s.announces.Tracks p h
  alternates : ∀ {h}, h ∉ d.hashes → s.alternates.get h = s₀.alternates.get h
  tracks : ∀ {p h}, s.announces.Tracks p h → s₀.announces.Tracks p h
  request : d.direct → s.requests.get d.origin = s₀.requests.get d.origin

namespace Delivering

variable {rest : List Hash} (dl : Delivering d s₀ (h :: rest) s)

include dl in
theorem arrived (i : Sound (some d) s) (w : Arrived h s s') : Delivering d s₀ rest s' where
  covered := ⟨w.alternates ▸ dl.covered.filled, by
    rw [w.announces, w.announced, w.fetching]
    exact dl.covered.tracked⟩
  alternates := w.alternates ▸ dl.alternates
  tracks := w.announces ▸ dl.tracks
  request := w.requests ▸ dl.request
  gone {p k} hk hn ht := by
    rw [w.announces] at ht
    have hw := w.waiting
    have := @dl.gone p k hk
    have := dl.covered.tracked ht
    have := @i.announced_excl h
    have := @dl.covered.excl _ h _ i
    grind

include dl in
theorem swept (hm : h ∈ d.hashes) (w : Swept d h s s') : Delivering d s₀ rest s' where
  covered := ⟨w.alternates ▸ dl.covered.filled.del, by
    intro p k ht
    rw [w.announces] at ht
    have := dl.covered.tracked ht.left
    rw [w.announced, w.fetching]
    grind⟩
  alternates {k} hk := by
    have := dl.alternates hk
    rw [w.alternates]
    grind
  tracks ht := dl.tracks (w.announces .. |>.mp ht).left
  request hd := by
    rw [w.requests, ← dl.request hd]
    cases s.requests.get d.origin <;> simp [mark, hd]
  gone {p k} hk hn ht := by
    rw [w.announces] at ht
    have := @dl.gone p k hk
    grind

end Delivering

theorem Delivering.answered (dl : Delivering d s₀ [] s) (i : Sound (some d) s)
    (ha : s₀.Answerable d) (hd : d.direct) (hr : s.requests.get d.origin = some req)
    (w : Answered d req (Live req) { s with requests := s.requests.del d.origin } s') :
    s'.Covered := by
  have hs : Requeued (Live req) (remaining d req s) s s' := { w.toRequeued with }
  refine dl.covered.requeued hs fun {p h} ht => ?_
  obtain ⟨ht, hn⟩ := w.announces .. |>.mp ht
  refine ⟨ht, fun hl => ?_⟩
  have hh : h ∉ d.hashes := fun hm => dl.gone hm List.not_mem_nil ht
  rw [remaining_of_not_mem hh]
  split
  case isFalse =>
    -- The hash was cut off, so that it keeps its origins.
    have hf := i.fetched hr hl.left hl.right |>.resolve_right fun hc => by
      simp [Answers, hh] at hc
    obtain ⟨peers, ho, hp⟩ := dl.covered.filled.origins_of_mem <|
      i.alternates_iff.mpr (GoMap.mem_of_get hf)
    simpa [ho] using hp.ne_empty
  case isTrue hf =>
    have hi : (h, req.hashes.idxOf h) ∈ req.hashes.zipIdx := by
      simp [List.mem_zipIdx_iff_getElem?, hl.left]
    obtain ho | ho := ha hd req (dl.request hd ▸ hr) _ hi hl.right hh hf.right
    case inl =>
      rw [HasOther, ← origins_congr (dl.alternates hh)] at ho
      exact ho.ne_empty
    case inr =>
      by_cases hp : p = d.origin
      case pos => exact absurd ⟨hp, hl, hf⟩ hn
      case neg => exact absurd (dl.tracks ht) (ho p hp)

theorem Covered.delivered (c : s.Covered) (i : Sound none s) (ha : s.Answerable d) :
    ∃ s', s.cleanup o d = .ok s' ∧ Sound none s' ∧ s'.Covered := by
  have start : Delivering d s d.hashes s :=
    ⟨c, fun hm hn => absurd hm hn, fun _ => rfl, id, fun _ => rfl⟩
  refine cleanup_rule (I := Delivering d s) i start ?_ ?_ ?_ ?_ ?_
  case refine_1 => exact fun _ _ _ _ i dl _ w => dl.arrived i w
  case refine_2 => exact fun _ _ _ _ _ dl hm w => dl.swept hm w
  case refine_3 => exact fun _ _ dl _ => dl.covered
  case refine_4 => exact fun _ _ _ i dl hd hr w => dl.answered i ha hd hr w
  case refine_5 => exact fun _ _ _ _ i c => c.requested i

theorem step_ok {e : Oracle × Event} (i : Sound none s) (c : s.Covered) (hk : s.KeepsOrigins e) :
    ∃ s', machine.step s e = .ok s' ∧ Sound none s' ∧ s'.Covered := by
  obtain ⟨o, e⟩ := e
  have request s₁ s₂ p hashes (i : Sound none s₁) (c : s₁.Covered)
      (r : Requested p hashes s₁ s₂) := c.requested i r
  cases e
  case notify ann     => exact notify_rule ann i c (fun _ _ _ i c => c.notified i) request
  case waitTrigger    => exact waitTrigger_rule i c (fun _ _ _ _ _ c => c.promoted) request
  case timeoutTrigger => exact c.timeout i hk
  case cleanup d      => exact c.delivered i hk
  case drop p         =>
    refine drop_rule i (fun _ => c) (fun req _ hr r => c.released r (hk req hr)) request

theorem reachable_covered (r : machine.Reachable KeepsOrigins s) : s.Covered := by
  refine (r.invariant (I := fun s => Sound none s ∧ s.Covered) ⟨.init, .init⟩ ?_).right
  rintro s e s' ⟨i, c⟩ hk hs
  obtain ⟨_, he, hc⟩ := step_ok i c hk
  exact Except.ok.inj (he.symm.trans hs) ▸ hc

end State

-- As long as origins are kept, the stages exclude each other and no event runs into a panic.
theorem exclusive_of_keepsOrigins (s : State) (r : machine.Reachable State.KeepsOrigins s) :
    s.Exclusive ∧ ∀ e, s.KeepsOrigins e → ∃ s', machine.step s e = .ok s' := by
  have i := State.reachable_sound r
  have c := State.reachable_covered r
  refine ⟨c.exclusive i, ?_⟩
  intro e hk
  obtain ⟨s', hs, _⟩ := State.step_ok i c hk
  exact ⟨s', hs⟩

def fixedHash : Hash :=
  ByteArr.fill 1

def announceFixed (p : Peer) : FdAnnounce where
  origin := p
  hashes := [fixedHash]
  metas := [some ⟨10⟩]
  len_eq := rfl

-- All clocks show the time `now`, except that requests are stamped with time 0.
noncomputable def fixedOracle (now : AbsTime) : Oracle where
  hashClock _ := now
  peerClock _ := now
  requestClock _ := 0
  waitOrder := .along [fixedHash]
  originOrder _ := .along ["p", "q"]
  requestOrder := .along ["p", "q"]
  slotOrder _ := .along ["p", "q"]
  peerOrder := .along ["p", "q"]
  announceOrder _ := .along [fixedHash]

noncomputable def early : Oracle :=
  fixedOracle 0

noncomputable def late : Oracle :=
  fixedOracle 1000000000000

-- The hash is requested from "p" while "q" is an alternate origin.
noncomputable def twoOrigins : List (Oracle × Event) := [
  (early, .notify (announceFixed "p")),
  (early, .notify (announceFixed "q")),
  (late,  .waitTrigger)
]

-- The only origin of the hash is dropped, but its announcement remains and is requested once more.
-- Then "q" enters the waiting list although the hash is in flight.
noncomputable def stranded : List (Oracle × Event) := [
  (early, .notify (announceFixed "p")),
  (late,  .waitTrigger),
  (late,  .drop "p"),
  (early, .notify (announceFixed "q"))
]

-- The request to "p" can time out, because "q" has the hash as well.
theorem exclusive_twoOrigins : ∃ s, machine.run machine.init twoOrigins = .ok s ∧
    fixedHash ∈ s.fetching ∧ s.Exclusive ∧ ∃ s', machine.step s (late, .timeoutTrigger) = .ok s' := by
  obtain ⟨s, hs, hf, hr, ha⟩ : ∃ s, machine.run machine.init twoOrigins = .ok s ∧
      fixedHash ∈ s.fetching ∧ s.requests = GoMap.set ∅ "p" ⟨[fixedHash], ∅, 0⟩ ∧
      origins s.alternates fixedHash = some {"p", "q"} := ⟨_, rfl, by decide, rfl, by decide⟩
  have hk : s.KeepsOrigins (late, .timeoutTrigger) := by
    intro p req hp _ h hm _
    rw [hr, GoMap.get_set] at hp
    split at hp
    case isFalse    => simp at hp
    case isTrue he  =>
      cases hp
      rw [List.mem_singleton.mp hm, he, State.HasOther, ha]
      decide
  have r : machine.Reachable State.KeepsOrigins s :=
    .run .init (by simp [twoOrigins, State.KeepsOrigins]) hs
  obtain ⟨hx, hp⟩ := exclusive_of_keepsOrigins s r
  exact ⟨s, hs, hf, hx, hp _ hk⟩

theorem stages_overlap_of_stranded :
    ¬(∀ s, machine.Reachable anyStep s → s.Exclusive) ∧
    ¬(∀ s e, machine.Reachable anyStep s → ∃ s', machine.step s e = .ok s') := by
  constructor
  case left =>
    intro h
    have ⟨s, hs, hw, hf⟩ : ∃ s, machine.run machine.init stranded = .ok s ∧
        fixedHash ∈ s.waitlist ∧ fixedHash ∈ s.fetching := ⟨_, rfl, by decide, by decide⟩
    have hx := h s <| .run .init (fun _ _ _ => trivial) hs
    exact hx.waiting _ hw |>.right.left hf
  case right =>
    intro h
    have ⟨s, hs, hp⟩ : ∃ s, machine.run machine.init (stranded ++ [(late, .waitTrigger)]) = .ok s ∧
        machine.step s (late, .timeoutTrigger) = .error .timeoutContainsAlternate := ⟨_, rfl, rfl⟩
    have ⟨s', hs'⟩ := h s (late, .timeoutTrigger) <| .run .init (fun _ _ _ => trivial) hs
    cases hp.symm.trans hs'

end Fetcher
