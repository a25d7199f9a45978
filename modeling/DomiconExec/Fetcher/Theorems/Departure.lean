import DomiconExec.Fetcher.Theorems.Index

namespace Fetcher

open Transition.System

variable {s s₁ s' : State} {p q : Peer} {h k : Hash} {o : Oracle}

namespace State

structure NoTrace (s : State) (p : Peer) : Prop where
  waitlist : ∀ h, ¬HasOrigin s.waitlist h p
  announced : ∀ h, ¬HasOrigin s.announced h p
  alternates : ∀ h, ¬HasOrigin s.alternates h p
  waitslots : p ∉ s.waitslots
  announces : p ∉ s.announces
  requests : p ∉ s.requests
  fetching : ∀ h, s.fetching.get h ≠ some p

-- In a reachable state some of these imply the others.
structure Absent (p : Peer) (s : State) : Prop where
  announced : ∀ h, ¬HasOrigin s.announced h p
  alternates : ∀ h, ¬HasOrigin s.alternates h p
  waitslots : ∀ h, ¬s.waitslots.Tracks p h
  announces : ∀ h, ¬s.announces.Tracks p h
  requests : p ∉ s.requests

theorem Absent.noTrace (b : Absent p s) (i : Sound none s) : s.NoTrace p where
  waitlist h := i.slots_iff.not.mp (b.waitslots h)
  announced := b.announced
  alternates := b.alternates
  waitslots := i.slots_filled.mem_iff.not.mpr <| not_exists.mpr b.waitslots
  announces := i.announces_filled.mem_iff.not.mpr <| not_exists.mpr b.announces
  requests := b.requests
  fetching _ hf := b.requests <| i.mem_requests hf

-- A peer is an origin of a hash as long as it is listed for the hash or has it tracked.
def IsOrigin (s : State) (q : Peer) (h : Hash) : Prop :=
  HasOrigin s.waitlist h q ∨ HasOrigin s.announced h q ∨ HasOrigin s.alternates h q ∨
    s.waitslots.Tracks q h ∨ s.announces.Tracks q h

structure Untracked (s : State) (h : Hash) : Prop where
  waitlist : h ∉ s.waitlist
  waittime : h ∉ s.waittime
  announced : h ∉ s.announced
  alternates : h ∉ s.alternates
  fetching : h ∉ s.fetching

-- The event is not an announcement by `p`.
def Silent (p : Peer) : Oracle × Event → Prop
  | (_, .notify ann) => ann.origin ≠ p
  | _                => True

-- What is expected of the state `s'` after peer `p` was dropped.
structure Forgets (s : State) (p : Peer) (s' : State) : Prop where
  noTrace : s'.NoTrace p
  untracked : ∀ h, s.IsOrigin p h → (∀ q, s.IsOrigin q h → q = p) → s'.Untracked h
  silent : ∀ es s'', (∀ e ∈ es, Silent p e) → machine.run s' es = .ok s'' →
    s''.issued p = s'.issued p

-- The peer only occurs in its own request and among the alternates of what it still has to deliver.
structure Confined (s : State) (p : Peer) : Prop where
  waitslots : p ∉ s.waitslots
  announces : p ∉ s.announces
  announced : ∀ h, ¬HasOrigin s.announced h p
  alternates : ∀ h, HasOrigin s.alternates h p → s.Awaits p h

section Silence

variable {hashes : List Hash} {peers : Finset Peer} {d : FdDelivery} {req : FdRequest}

theorem Requested.listed_iff (r : Requested p hashes s s') :
    HasOrigin s'.announced h q ∨ HasOrigin s'.alternates h q ↔
      HasOrigin s.announced h q ∨ HasOrigin s.alternates h q := by
  rw [r.hasOrigin_announced, r.hasOrigin_alternates]
  have (hm : h ∈ hashes) : ¬HasOrigin s.alternates h q := fun ho => (r.eligible h hm).right ho.mem
  grind

theorem Requested.issued (r : Requested q hashes s s') (hq : q ≠ p) :
    s'.issued p = s.issued p := by
  simp [State.issued, r.calls, hq]

theorem Requested.ne_of_absent (r : Requested q hashes s s') (ha : ∀ h, ¬s.announces.Tracks p h) :
    q ≠ p := by
  rintro rfl
  obtain ⟨h, hm⟩ := List.exists_mem_of_ne_nil _ r.ne_nil
  exact ha h <| r.tracked h hm

theorem Requested.absent (r : Requested q hashes s s') (b : Absent p s) : Absent p s' := by
  have hl h := not_or.mp <| r.listed_iff.not.mpr <| not_or.mpr ⟨b.announced h, b.alternates h⟩
  obtain ⟨t, hr⟩ := r.requests
  constructor
  case announced  => exact fun h => (hl h).left
  case alternates => exact fun h => (hl h).right
  case waitslots  => exact r.waitslots ▸ b.waitslots
  case announces  => exact r.announces ▸ b.announces
  case requests =>
    have := r.ne_of_absent b.announces
    have := b.requests
    grind

theorem notifyHash_absent {md : Option FdMetadata} (hq : q ≠ p) (b : Absent p s) :
    Absent p (s.notifyHash o q (h, md)) := by
  have h₁ := b.announced
  have h₂ := b.alternates
  unfold notifyHash
  dsimp only
  split
  case h_1 alternates ho =>
    have hn : p ∉ alternates := by simpa [HasOrigin, ho] using h₂ h
    refine { b with alternates := ?_, announces := ?_ }
    case refine_1 => grind
    case refine_2 => have := b.announces; grind
  case h_2 =>
    split
    case h_1 announced ho =>
      have hn : p ∉ announced := by simpa [HasOrigin, ho] using h₁ h
      refine { b with announced := ?_, announces := ?_ }
      case refine_1 => grind
      case refine_2 => have := b.announces; grind
    case h_2 =>
      have hw : ∀ k, ¬(s.waitslots.track q h md).Tracks p k := by
        have := b.waitslots
        grind
      split
      case h_2 => exact { b with waitslots := hw }
      case h_1 =>
        split
        case isTrue  => exact b
        case isFalse => exact { b with waitslots := hw }

theorem notifyHash_issued {md : Option FdMetadata} :
    (s.notifyHash o q (h, md)).issued p = s.issued p := by
  unfold notifyHash
  dsimp only
  split
  case h_1 => rfl
  case h_2 =>
    split
    case h_1 => rfl
    case h_2 =>
      split
      case h_2 => rfl
      case h_1 => split <;> rfl

theorem Promoted.absent (w : Promoted h peers s s') (i : Sound none s) (b : Absent p s) :
    Absent p s' := by
  have hn : p ∉ peers := by
    have := i.slots_iff.not.mp <| b.waitslots h
    simpa [HasOrigin, w.waiting] using this
  have h₁ := b.announced
  have h₂ := b.announces
  have h₃ := b.waitslots
  constructor
  case announced  => rw [w.announced]; grind
  case alternates => exact w.alternates ▸ b.alternates
  case waitslots  => intro k; rw [w.waitslots]; grind
  case announces  => intro k; rw [w.announces]; grind
  case requests   => exact w.requests ▸ b.requests

-- What goes back to the queue comes from the alternates.
theorem Requeued.absent {out : Hash → Prop} {rest : Hash → Finset Peer}
    (r : Requeued out rest s s') (b : Absent p s)
    (hr : ∀ h q, q ∈ rest h → HasOrigin s.alternates h q)
    (ht : ∀ h, s'.announces.Tracks p h → s.announces.Tracks p h)
    (hq : p ∈ s'.requests → p ∈ s.requests) : Absent p s' where
  announced h := by
    rw [r.hasOrigin_announced]
    have := b.announced h
    have := b.alternates h
    have := hr h p
    grind
  alternates h := by
    rw [r.hasOrigin_alternates]
    have := b.alternates h
    grind
  waitslots := r.waitslots ▸ b.waitslots
  announces h := mt (ht h) (b.announces h)
  requests := mt hq b.requests

theorem hasOrigin_of_mem_others (ho : q ∈ s.others p h) : HasOrigin s.alternates h q :=
  Finset.mem_of_mem_erase ho

theorem hasOrigin_of_mem_remaining (ho : q ∈ remaining d req s h) : HasOrigin s.alternates h q := by
  unfold remaining at ho
  split at ho
  case isTrue  => simp at ho
  case isFalse =>
    split at ho
    case isTrue  => exact hasOrigin_of_mem_others ho
    case isFalse => exact ho

theorem Released.absent {requests : GoMap Peer FdRequest} (r : Released q (Live req) s s₁)
    (b : Absent p s) (hq : p ∈ requests → p ∈ s.requests) : Absent p { s₁ with requests } := by
  have hs : Requeued (Live req) (s.others q) s { s₁ with requests } := { r.toRequeued with }
  exact hs.absent b (fun _ _ => hasOrigin_of_mem_others) (fun _ => r.announces ▸ id) hq

theorem Arrived.absent (w : Arrived h s s') (b : Absent p s) : Absent p s' where
  announced := w.announced ▸ b.announced
  alternates := w.alternates ▸ b.alternates
  waitslots k := mt (fun h => (w.waitslots p k).mp h |>.left) (b.waitslots k)
  announces := w.announces ▸ b.announces
  requests := w.requests ▸ b.requests

theorem Swept.absent (w : Swept d h s s') (b : Absent p s) : Absent p s' where
  announced k := by rw [w.announced, hasOrigin_del]; exact mt And.right (b.announced k)
  alternates k := by rw [w.alternates, hasOrigin_del]; exact mt And.right (b.alternates k)
  waitslots := w.waitslots ▸ b.waitslots
  announces k := mt (fun h => (w.announces p k).mp h |>.left) (b.announces k)
  requests := by
    have hn := GoMap.get_eq_none.mpr b.requests
    exact GoMap.get_eq_none.mp <| by rw [w.requests, hn]; rfl

theorem Answered.absent
    (w : Answered d req (Live req) { s with requests := s.requests.del d.origin } s')
    (b : Absent p s) : Absent p s' := by
  have hs : Requeued (Live req) (remaining d req s) s s' := { w.toRequeued with }
  refine hs.absent b (fun _ _ => hasOrigin_of_mem_remaining) ?_ ?_
  case refine_1 => exact fun h ht => (w.announces p h).mp ht |>.left
  case refine_2 => rw [w.requests]; simp

-- Nothing is requested from an absent peer, and it stays absent until it announces something.
theorem step_absent {e : Oracle × Event} (i : Sound none s) (b : Absent p s) (hq : Silent p e)
    (hs : machine.step s e = .ok s') : Absent p s' ∧ s'.issued p = s.issued p := by
  let I (s' : State) := Absent p s' ∧ s'.issued p = s.issued p
  have request : ∀ s₁ s₂ q hashes, Sound none s₁ → I s₁ → Requested q hashes s₁ s₂ → I s₂ := by
    rintro s₁ s₂ q hashes _ ⟨b, hi⟩ r
    exact ⟨r.absent b, (r.issued (r.ne_of_absent b.announces)).trans hi⟩
  obtain ⟨o, e⟩ := e
  have done {s₁} (he : machine.step s (o, e) = .ok s₁) (hi : I s₁) : I s' :=
    Except.ok.inj (he.symm.trans hs) ▸ hi
  cases e
  case notify ann =>
    obtain ⟨s₁, he, _, hi⟩ := notify_rule (I := I) (o := o) ann i ⟨b, rfl⟩
      (fun _ _ _ _ hi => ⟨notifyHash_absent hq hi.left, notifyHash_issued.trans hi.right⟩) request
    exact done he hi
  case waitTrigger =>
    obtain ⟨s₁, he, _, hi⟩ := waitTrigger_rule (I := I) (o := o) i ⟨b, rfl⟩
      (fun _ _ _ _ i hi w => ⟨w.absent i hi.left, by rw [State.issued, w.calls]; exact hi.right⟩)
      request
    exact done he hi
  case timeoutTrigger =>
    have expire : ∀ s s₁ q req, Sound none s → I s → Expired o q req s s₁ →
        I { s₁ with requests := s₁.requests.set q { req with hashes := [] } } := by
      rintro s s₁ q req _ ⟨b, hi⟩ x
      have hr := GoMap.mem_of_get x.request
      refine ⟨x.released.absent b ?_, by rw [State.issued, x.released.calls]; exact hi⟩
      rw [x.released.requests]
      grind
    obtain ⟨s₁, he, _, hi⟩ | he := timeoutTrigger_rule (J := I) i ⟨b, rfl⟩ expire (fun _ _ hi => hi)
      request
    case inl => exact done he hi
    case inr => cases he.symm.trans hs
  case cleanup d =>
    obtain ⟨s₁, he, _, hi⟩ := cleanup_rule (I := fun _ => I) (J := I) (o := o) (d := d) i ⟨b, rfl⟩
      (fun _ _ _ _ _ hi _ w => ⟨w.absent hi.left, (w.issued p).trans hi.right⟩)
      (fun _ _ _ _ _ hi _ w => ⟨w.absent hi.left, (w.issued p).trans hi.right⟩)
      (fun _ _ hi _ => hi)
      (fun _ _ _ _ hi _ _ w => ⟨w.absent hi.left, by rw [State.issued, w.calls]; exact hi.right⟩)
      request
    exact done he hi
  case drop q =>
    obtain ⟨s₁, he, _, hi⟩ := drop_rule (I := I) (o := o) (p := q) i (fun _ => ⟨b, rfl⟩)
      (fun req _ hr r => ⟨r.absent b (by rw [r.requests]; simp), by
        rw [State.issued, r.calls]; rfl⟩) request
    exact done he hi

theorem run_absent {es : List (Oracle × Event)} (i : Sound none s) (b : Absent p s)
    (hq : ∀ e ∈ es, Silent p e) (hs : machine.run s es = .ok s') : s'.issued p = s.issued p := by
  induction es generalizing s
  case nil =>
    cases hs
    rfl
  case cons e es hi =>
    obtain ⟨hq₁, hq₂⟩ := List.forall_mem_cons.mp hq
    obtain ⟨s₁, he, hs⟩ := Loop.bind_eq_ok hs
    obtain ⟨b₁, h₁⟩ := step_absent i b hq₁ he
    obtain ⟨s₂, he', i₂⟩ | he' := step_sound (e := e) i
    case inr => cases he'.symm.trans he
    case inl =>
      cases he'.symm.trans he
      exact (hi i₂ b₁ hq₂ hs).trans h₁

end Silence

structure Dropped (p : Peer) (s s' : State) : Prop where
  announces : s'.announces = s.announces
  waitslots : s'.waitslots = s.waitslots
  listed : ∀ h, HasOrigin s'.announced h p ∨ HasOrigin s'.alternates h p ↔
    HasOrigin s.announced h p ∨ HasOrigin s.alternates h p ∧ ¬s.Awaits p h
  requests : (∀ h, ¬s.announces.Tracks p h) → p ∉ s'.requests
  untracked : ∀ h, s.Awaits p h → s.others p h = ∅ → h ∉ s.waitlist → h ∉ s.announced →
    (∀ q, ¬s.announces.Tracks q h) → s'.Untracked h

theorem Requested.dropped {hashes : List Hash} (r : Requested q hashes s₁ s') (b : Dropped p s s₁) :
    Dropped p s s' where
  announces := r.announces.trans b.announces
  waitslots := r.waitslots.trans b.waitslots
  listed h := r.listed_iff.trans (b.listed h)
  requests ha := by
    obtain ⟨t, hr⟩ := r.requests
    have := r.ne_of_absent (p := p) (b.announces ▸ ha)
    have := b.requests ha
    grind
  untracked h ha ho hw hq ht := by
    have u := b.untracked h ha ho hw hq ht
    have hn : h ∉ hashes := fun hm => ht q <| b.announces ▸ r.tracked h hm
    have := r.fetching h
    have := r.alternates h
    have := r.announced h
    have := u.fetching
    have := u.alternates
    have := u.announced
    constructor
    case waitlist => exact r.waitlist ▸ u.waitlist
    case waittime => exact r.waittime ▸ u.waittime
    all_goals grind

theorem Released.dropped {req : FdRequest} (r : Released p (Live req) s s₁) (i : Sound none s)
    (hr : s.requests.get p = some req) : Dropped p s { s₁ with requests := s₁.requests.del p } := by
  have hl h : s.Awaits p h ↔ Live req h := by simp [Awaits, hr]
  constructor
  case announces => exact r.announces
  case waitslots => exact r.waitslots
  case requests  => simp
  case listed =>
    intro h
    rw [hl, r.hasOrigin_announced, r.hasOrigin_alternates]
    -- A hash with alternates is not queued, and the peer itself does not stay an alternate.
    have hx : s.others p h ≠ ∅ → ¬HasOrigin s.announced h p := by
      intro ho hq
      cases hn : origins s.alternates h
      case none   => simp [others, hn] at ho
      case some _ => exact i.alternates_excl hn |>.right.right hq.mem
    have : p ∉ s.others p h := Finset.notMem_erase p _
    grind
  case untracked =>
    intro h ha ho hw hq _
    have ha := (hl h).mp ha
    have := (r.announced h).right fun hc => hc.right ho
    constructor
    case waitlist   => exact r.waitlist ▸ hw
    case waittime   => exact r.waittime ▸ i.waiting_iff.not.mpr hw
    case announced  => grind
    case alternates => exact GoMap.get_eq_none.mp <| (r.alternates h).left ha
    case fetching   => exact GoMap.get_eq_none.mp <| (r.fetching h).left ha

theorem drop_dropped (i : Sound none s) :
    ∃ s', s.drop o p = .ok s' ∧ Sound none s' ∧ Dropped p s s' := by
  refine drop_rule i ?_ (fun _ _ hr r => r.dropped i hr) (fun _ _ _ _ _ b r => r.dropped b)
  intro hr
  have hn h : ¬s.Awaits p h := by simp [Awaits, hr]
  refine ⟨rfl, rfl, by simp [hn], fun _ => GoMap.get_eq_none.mp hr, ?_⟩
  exact fun h ha => absurd ha (hn h)

theorem Dropped.confined (b : Dropped p s s') (n : s'.NoTrace p) : s.Confined p := by
  have hl h := not_or.mp <| (b.listed h).not.mp <| not_or.mpr ⟨n.announced h, n.alternates h⟩
  constructor
  case waitslots  => exact b.waitslots ▸ n.waitslots
  case announces  => exact b.announces ▸ n.announces
  case announced  => exact fun h => (hl h).left
  case alternates => exact fun h ho => by_contra fun ha => (hl h).right ⟨ho, ha⟩

theorem Dropped.absent (b : Dropped p s s') (i : Sound none s) (c : s.Confined p) :
    Absent p s' := by
  have ha : ∀ h, ¬s.announces.Tracks p h :=
    not_exists.mp <| i.announces_filled.mem_iff.not.mp c.announces
  have hl h := not_or.mp <| (b.listed h).not.mpr <| not_or.mpr
    ⟨c.announced h, fun hc => hc.right <| c.alternates h hc.left⟩
  constructor
  case announced  => exact fun h => (hl h).left
  case alternates => exact fun h => (hl h).right
  case waitslots  => exact b.waitslots ▸ not_exists.mp (i.slots_filled.mem_iff.not.mp c.waitslots)
  case announces  => exact b.announces ▸ ha
  case requests   => exact b.requests ha

theorem Dropped.untracked_of_sole (b : Dropped p s s') (i : Sound none s) (c : s.Confined p)
    (ho : s.IsOrigin p h) (hs : ∀ q, s.IsOrigin q h → q = p) : s'.Untracked h := by
  have ha : ∀ h, ¬s.announces.Tracks p h :=
    not_exists.mp <| i.announces_filled.mem_iff.not.mp c.announces
  have hw : ∀ h, ¬HasOrigin s.waitlist h p :=
    fun h => i.slots_iff.not.mp <| not_exists.mp (i.slots_filled.mem_iff.not.mp c.waitslots) h
  have filled {m : GoMap Hash Origins} (f : Filled m) (hm : h ∈ m) : ∃ q, HasOrigin m h q := by
    obtain ⟨peers, ho, q, hq⟩ := f.origins_of_mem hm
    exact ⟨q, hasOrigin_iff.mpr ⟨peers, ho, hq⟩⟩
  have := c.announced h
  have := c.alternates h
  have := @i.slots_iff p h
  refine b.untracked h ?_ ?_ ?_ ?_ ?_
  case refine_1 => grind [IsOrigin]
  case refine_2 =>
    apply Finset.eq_empty_of_forall_notMem
    intro q hq
    have := hs q <| .inr <| .inr <| .inl <| hasOrigin_of_mem_others hq
    exact Finset.ne_of_mem_erase hq this
  case refine_3 =>
    intro hm
    obtain ⟨q, hq⟩ := filled i.waiting_filled hm
    exact hw h <| hs q (.inl hq) ▸ hq
  case refine_4 =>
    intro hm
    obtain ⟨q, hq⟩ := filled i.announced_filled hm
    exact c.announced h <| hs q (.inr <| .inl hq) ▸ hq
  case refine_5 =>
    intro q hq
    exact ha h <| hs q (.inr <| .inr <| .inr <| .inr hq) ▸ hq

end State

theorem forgets_iff_confined (s : State) (o : Oracle) (p : Peer) (r : machine.Reachable anyStep s) :
    ∃ s', machine.step s (o, .drop p) = .ok s' ∧ (s.Forgets p s' ↔ s.Confined p) := by
  have i := State.reachable_sound r
  obtain ⟨s', he, i', b⟩ := State.drop_dropped (o := o) (p := p) i
  refine ⟨s', he, fun f => b.confined f.noTrace, fun c => ?_⟩
  have hb := b.absent i c
  exact ⟨hb.noTrace i', fun _ => b.untracked_of_sole i c, fun _ _ => State.run_absent i' hb⟩

-- The hash is broadcast by "q" while it is being fetched from "p".
def broadcastFixed : FdDelivery where
  origin := "q"
  hashes := [fixedHash]
  metas := [⟨10⟩]
  direct := false
  len_eq := rfl

noncomputable def requestedFixed : List (Oracle × Event) := [
  (early, .notify (announceFixed "p")),
  (late,  .waitTrigger)
]

theorem forgets_broadcast : ∃ s s',
    machine.run machine.init (requestedFixed ++ [(early, .cleanup broadcastFixed)]) = .ok s ∧
    "p" ∈ s.requests ∧ machine.step s (early, .drop "p") = .ok s' ∧ s.Forgets "p" s' := by
  obtain ⟨s, hs, hr, hw, ha, hq, hl⟩ : ∃ s,
      machine.run machine.init (requestedFixed ++ [(early, .cleanup broadcastFixed)]) = .ok s ∧
      "p" ∈ s.requests ∧ "p" ∉ s.waitslots ∧ "p" ∉ s.announces ∧
      s.announced = ∅ ∧ s.alternates = ∅ :=
    ⟨_, rfl, by decide, by decide, by decide, by decide, by decide⟩
  obtain ⟨s', he, hf⟩ := forgets_iff_confined s early "p" <| .run .init (fun _ _ _ => trivial) hs
  refine ⟨s, s', hs, hr, he, hf.mpr ⟨hw, ha, ?_, ?_⟩⟩
  case refine_1 => simp [hq]
  case refine_2 => simp [hl]

-- The peer that was asked for the hash is dropped, and is asked for the same hash again.
theorem not_forgets_requested : ¬∀ s o p s', machine.Reachable anyStep s →
    machine.step s (o, .drop p) = .ok s' → s.Forgets p s' := by
  intro h
  obtain ⟨s, s', hs, he, hr⟩ : ∃ s s', machine.run machine.init requestedFixed = .ok s ∧
      machine.step s (late, .drop "p") = .ok s' ∧ "p" ∈ s'.requests := ⟨_, _, rfl, rfl, by decide⟩
  have hf := h s late "p" s' (.run .init (fun _ _ _ => trivial) hs) he
  exact hf.noTrace.requests hr

end Fetcher
