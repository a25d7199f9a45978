import DomiconExec.Fetcher.Theorems.Requests

namespace Fetcher

open Transition.System

variable {s s₁ s' : State} {p q : Peer} {h k : Hash} {o : Oracle}

namespace State

-- The announcements that are tracked for the peers and the origins of the hashes that are queued or
-- in flight describe the same relation, and none of the sets in them is empty.
structure Indexed (s : State) : Prop where
  tracks_iff : ∀ p h, s.announces.Tracks p h ↔
    HasOrigin s.announced h p ∨ HasOrigin s.alternates h p
  announces_filled : s.announces.Filled
  announced_filled : Filled s.announced

-- What is kept along with the agreement of the two indexes: no hash is in flight without origins.
structure Indexing (s : State) : Prop where
  tracks_iff : ∀ p h, s.announces.Tracks p h ↔
    HasOrigin s.announced h p ∨ HasOrigin s.alternates h p
  allocated : ∀ {h}, h ∈ s.alternates → ∃ peers, origins s.alternates h = some peers

theorem Indexing.indexed (x : s.Indexing) (i : Sound none s) : s.Indexed where
  tracks_iff := x.tracks_iff
  announces_filled := i.announces_filled
  announced_filled := i.announced_filled

theorem Indexing.init : Indexing .init := by
  constructor <;> simp [State.init]

def NothingDue (s : State) (p : Peer) : Prop :=
  ∀ h, ¬s.Awaits p h

-- Timeouts and drops take hashes out of flight without removing the announcements of the peer. They
-- do no harm as long as nothing is due from it.
def KeepsIndex (s : State) : Oracle × Event → Prop
  | (_, .notify _)       => True
  | (_, .waitTrigger)    => True
  | (o, .timeoutTrigger) => ∀ p req, s.requests.get p = some req → timedOut o p req → s.NothingDue p
  | (_, .cleanup _)      => True
  | (_, .drop p)         => s.NothingDue p

section Effects

variable {peers : Finset Peer} {d : FdDelivery} {req : FdRequest}

theorem Requested.indexing {hashes : List Hash} (r : Requested p hashes s s') (x : s.Indexing) :
    s'.Indexing := by
  have ha q k (hk : k ∈ hashes) : ¬HasOrigin s.alternates k q :=
    fun ho => (r.eligible k hk).right ho.mem
  constructor
  case tracks_iff =>
    intro q k
    -- The origins of a requested hash move along with it.
    have := ha q k
    rw [r.announces, x.tracks_iff, r.hasOrigin_announced, r.hasOrigin_alternates]
    grind
  case allocated =>
    intro k hk
    by_cases hm : k ∈ hashes
    case pos =>
      have ho := (x.tracks_iff p k).mp (r.tracked k hm) |>.resolve_right (ha p k hm)
      obtain ⟨peers, ho, _⟩ := hasOrigin_iff.mp <| r.hasOrigin_alternates.mpr <| .inl ⟨hm, ho⟩
      exact ⟨peers, ho⟩
    case neg =>
      have he : s'.alternates.get k = s.alternates.get k := by rw [r.alternates, if_neg hm]
      rw [origins_congr he]
      apply x.allocated
      grind

theorem notifyHash_indexing {md : Option FdMetadata} (i : Sound none s) (x : s.Indexing) :
    (s.notifyHash o p (h, md)).Indexing := by
  unfold notifyHash
  dsimp only
  split
  case h_1 alternates ho =>
    have hx := i.alternates_excl ho
    constructor
    case tracks_iff =>
      intro q k
      have := x.tracks_iff q k
      have : HasOrigin s.alternates h q ↔ q ∈ alternates := by simp [HasOrigin, ho]
      grind
    case allocated =>
      intro k hk
      have := @x.allocated k
      grind
  case h_2 =>
    split
    case h_1 announced ho =>
      refine { x with tracks_iff := ?_ }
      intro q k
      have := x.tracks_iff q k
      have : HasOrigin s.announced h q ↔ q ∈ announced := by simp [HasOrigin, ho]
      grind
    case h_2 =>
      split
      case h_2 => exact { x with }
      case h_1 =>
        split
        case isTrue  => exact x
        case isFalse => exact { x with }

theorem Promoted.indexing (w : Promoted h peers s s') (i : Sound none s) (x : s.Indexing) :
    s'.Indexing := by
  -- A waiting hash has no origins in the later stages yet.
  have hq q : ¬HasOrigin s.announced h q := by simp [HasOrigin, w.fresh]
  have ha q : ¬HasOrigin s.alternates h q := by
    intro ho
    obtain ⟨_, ho, _⟩ := hasOrigin_iff.mp ho
    exact i.alternates_excl ho |>.right.left <| mem_of_origins w.waiting
  constructor
  case allocated => exact w.alternates ▸ x.allocated
  case tracks_iff =>
    intro q k
    have := x.tracks_iff q k
    rw [w.announces, w.announced, w.alternates]
    grind

theorem Arrived.indexing (w : Arrived h s s') (x : s.Indexing) : s'.Indexing where
  tracks_iff := by
    rw [w.announces, w.announced, w.alternates]
    exact x.tracks_iff
  allocated := w.alternates ▸ x.allocated

theorem Swept.indexing (w : Swept d h s s') (x : s.Indexing) : s'.Indexing where
  tracks_iff q k := by
    have := x.tracks_iff q k
    rw [w.announces, w.announced, w.alternates]
    grind
  allocated {k} hk := by
    have := @x.allocated k
    rw [w.alternates] at hk ⊢
    grind

-- A release of no hashes at all leaves the stages as they are.
theorem Released.indexing {requests : GoMap Peer FdRequest} (r : Released p (Live req) s s₁)
    (hn : ∀ h, ¬Live req h) (x : s.Indexing) : Indexing { s₁ with requests } := by
  have hq : s₁.announced = s.announced := GoMap.ext fun k => (r.announced k).right fun hc => hn k hc.left
  have ha : s₁.alternates = s.alternates := GoMap.ext fun k => (r.alternates k).right (hn k)
  constructor
  case tracks_iff =>
    simp only [r.announces, hq, ha]
    exact x.tracks_iff
  case allocated =>
    simp only [ha]
    exact x.allocated

theorem Answered.indexing
    (w : Answered d req (Live req) { s with requests := s.requests.del d.origin } s')
    (hr : s.requests.get d.origin = some req) (i : Sound (some d) s) (x : s.Indexing)
    (hd : ∀ k ∈ d.hashes, k ∉ s.alternates) : s'.Indexing := by
  constructor
  case allocated =>
    intro k hk
    have hn : ¬Live req k := fun hl => GoMap.get_eq_none.mp ((w.alternates k).left hl) hk
    have he := (w.alternates k).right hn
    rw [origins_congr he]
    apply x.allocated
    grind
  case tracks_iff =>
    intro q k
    rw [w.announces, w.hasOrigin_announced, w.hasOrigin_alternates]
    simp only [x.tracks_iff, ne_eq]
    by_cases hm : k ∈ d.hashes
    case pos =>
      have hn : ¬HasOrigin s.alternates k q := fun ho => hd k hm ho.mem
      simp [remaining_of_mem hm, Refused, hm, hn]
    case neg =>
      by_cases hl : Live req k
      case neg => simp [hl]
      case pos =>
        -- The hash is still in flight, so that all announcements of it are from its alternates.
        have hf : s.fetching.get k = some d.origin := by
          refine i.fetched hr hl.left hl.right |>.resolve_right ?_
          rintro ⟨⟨_, he, _, _, hc⟩, _⟩
          exact hm <| Option.some.inj he ▸ hc
        obtain ⟨peers, ho⟩ := x.allocated <| i.alternates_iff.mpr <| GoMap.mem_of_get hf
        have hq := i.alternates_excl ho |>.right.right
        have ha : HasOrigin s.alternates k q ↔ q ∈ peers := by simp [HasOrigin, ho]
        have hn : ¬HasOrigin s.announced k q := fun ho => hq ho.mem
        simp only [remaining_of_not_mem hm, others, ho, Option.getD_some]
        grind

theorem cleanup_indexing (i : Sound none s) (x : s.Indexing) :
    ∃ s', s.cleanup o d = .ok s' ∧ Sound none s' ∧ s'.Indexing := by
  -- The delivered hashes have left the alternates when the answered request is settled.
  refine cleanup_rule (I := fun l s => s.Indexing ∧ ∀ k ∈ d.hashes, k ∉ l → k ∉ s.alternates) i
    ⟨x, fun _ hm hn => absurd hm hn⟩ ?arrive ?sweep ?skip ?answer ?request
  case skip    => exact fun _ _ x _ => x.left
  case answer =>
    exact fun _ _ _ i x _ hr w => w.indexing hr i x.left fun k hk => x.right k hk List.not_mem_nil
  case request => exact fun _ _ _ _ _ x r => r.indexing x
  case arrive =>
    rintro s s' h l i ⟨x, hd⟩ _ w
    refine ⟨w.indexing x, ?_⟩
    intro k hk hn ha
    rw [w.alternates] at ha
    -- A waiting hash has no alternates.
    have hne : k ≠ h := by
      rintro rfl
      obtain ⟨_, ho⟩ := x.allocated ha
      exact i.alternates_excl ho |>.right.left w.waiting
    exact hd k hk (by simp [hne, hn]) ha
  case sweep =>
    rintro s s' h l i ⟨x, hd⟩ _ w
    refine ⟨w.indexing x, ?_⟩
    intro k hk hn
    have := hd k hk
    rw [w.alternates]
    grind

theorem timeoutTrigger_indexing (i : Sound none s) (x : s.Indexing)
    (hn : ∀ p req, s.requests.get p = some req → timedOut o p req → s.NothingDue p) :
    (∃ s', s.timeoutTrigger o = .ok s' ∧ Sound none s' ∧ s'.Indexing) ∨
      s.timeoutTrigger o = .error .timeoutContainsAlternate := by
  refine timeoutTrigger_rule (I := fun s => s.Indexing ∧ ∀ p req, s.requests.get p = some req →
    timedOut o p req → s.NothingDue p) i ⟨x, hn⟩ ?expire ?finish ?request
  case finish  => exact fun _ _ x => x.left
  case request => exact fun _ _ _ _ _ x r => r.indexing x
  case expire =>
    rintro s s₁ p req i ⟨x, hn⟩ e
    have hp := hn p req e.request e.timedOut
    refine ⟨e.released.indexing (fun h hl => hp h ⟨req, e.request, hl⟩) x, ?_⟩
    rintro q req' hq ht h ⟨req'', hq', hl⟩
    simp only [e.released.requests, GoMap.get_set] at hq hq'
    split at hq
    case isTrue he =>
      rw [if_pos he] at hq'
      cases hq'
      simp [Live] at hl
    case isFalse he =>
      rw [if_neg he] at hq'
      exact hn q req' hq ht h ⟨req'', hq', hl⟩

end Effects

theorem step_indexing {e : Oracle × Event} (i : Sound none s) (x : s.Indexing)
    (hk : s.KeepsIndex e) (hs : machine.step s e = .ok s') : s'.Indexing := by
  obtain ⟨o, e⟩ := e
  have request : ∀ s₁ s₂ p hashes, Sound none s₁ → s₁.Indexing → Requested p hashes s₁ s₂ →
      s₂.Indexing := fun _ _ _ _ _ x r => r.indexing x
  have done {s₁} (he : machine.step s (o, e) = .ok s₁) (x : s₁.Indexing) : s'.Indexing :=
    Except.ok.inj (he.symm.trans hs) ▸ x
  cases e
  case notify ann =>
    obtain ⟨s₁, he, _, x'⟩ := notify_rule (o := o) ann i x
      (fun _ _ _ i x => notifyHash_indexing i x) request
    exact done he x'
  case waitTrigger =>
    obtain ⟨s₁, he, _, x'⟩ := waitTrigger_rule (o := o) i x (fun _ _ _ _ i x w => w.indexing i x)
      request
    exact done he x'
  case timeoutTrigger =>
    obtain ⟨s₁, he, _, x'⟩ | he := timeoutTrigger_indexing i x hk
    case inl => exact done he x'
    case inr => cases he.symm.trans hs
  case cleanup d =>
    obtain ⟨s₁, he, _, x'⟩ := cleanup_indexing (o := o) (d := d) i x
    exact done he x'
  case drop p =>
    obtain ⟨s₁, he, _, x'⟩ := drop_rule (o := o) (p := p) i (fun _ => x)
      (fun req _ hr r => r.indexing (fun h hl => hk h ⟨req, hr, hl⟩) x) request
    exact done he x'

theorem reachable_indexing (r : machine.Reachable KeepsIndex s) : s.Indexing := by
  suffices h : Sound none s ∧ s.Indexing from h.right
  refine r.invariant (I := fun s => Sound none s ∧ s.Indexing) ⟨.init, .init⟩ ?_
  rintro s e s' ⟨i, x⟩ hk hs
  refine ⟨?_, step_indexing i x hk hs⟩
  obtain ⟨s₁, he, i₁⟩ | he := step_sound (e := e) i
  case inl => exact Except.ok.inj (he.symm.trans hs) ▸ i₁
  case inr => cases he.symm.trans hs

end State

theorem indexed_of_keepsIndex (s : State) (r : machine.Reachable State.KeepsIndex s) : s.Indexed :=
  (State.reachable_indexing r).indexed (State.reachable_sound r)

theorem indexed_twoOrigins : ∃ s, machine.run machine.init twoOrigins = .ok s ∧
    s.announces.Tracks "q" fixedHash ∧ s.Indexed := by
  obtain ⟨s, hs, ht⟩ : ∃ s, machine.run machine.init twoOrigins = .ok s ∧
      s.announces.Tracks "q" fixedHash := ⟨_, rfl, by decide⟩
  exact ⟨s, hs, ht, indexed_of_keepsIndex s <| .run .init (by simp [twoOrigins, State.KeepsIndex]) hs⟩

-- The request to "p" times out. The hash is requested from "q", but the announcement stays tracked.
theorem not_indexed_expired : ¬∀ s, machine.Reachable anyStep s → s.Indexed := by
  intro h
  obtain ⟨s, hs, ht, ho⟩ : ∃ s,
      machine.run machine.init (twoOrigins ++ [(late, .timeoutTrigger)]) = .ok s ∧
      s.announces.Tracks "p" fixedHash ∧
      ¬(HasOrigin s.announced fixedHash "p" ∨ HasOrigin s.alternates fixedHash "p") :=
    ⟨_, rfl, by decide, by decide⟩
  have x := h s <| .run .init (fun _ _ _ => trivial) hs
  exact ho <| (x.tracks_iff _ _).mp ht

namespace State

-- The three maps of the waiting stage describe the same hashes and the same announcements.
structure Waiting (s : State) : Prop where
  times_iff : ∀ h, h ∈ s.waitlist ↔ h ∈ s.waittime
  filled : Filled s.waitlist
  slots_filled : s.waitslots.Filled
  slots_iff : ∀ p h, HasOrigin s.waitlist h p ↔ s.waitslots.Tracks p h

-- The two loops of the promotion find the announcement of each peer that they come to, after they
-- have visited the hashes `done` and, for the hash `h`, moved the announcements of `moved`.
def FindsSlots (o : Oracle) (s : State) : Prop :=
  ∀ done h rest, o.waitOrder.list s.waittime.keys = done ++ h :: rest →
    ∃ r, done.foldlM (promote o) (s, ∅) = .ok r ∧ ∀ peers, origins r.fst.waitlist h = some peers →
      ∀ moved p left, (o.originOrder h).list peers = moved ++ p :: left →
        (moved.foldl (promotePeer h)
          { r.fst with announced := r.fst.announced.set h (some peers) }).waitslots.Tracks p h

theorem Sound.waiting (i : Sound none s) : s.Waiting where
  times_iff _ := i.waiting_iff.symm
  filled := i.waiting_filled
  slots_filled := i.slots_filled
  slots_iff _ _ := i.slots_iff.symm

theorem Sound.findsSlots (i : Sound none s) : s.FindsSlots o := by
  intro done h rest _
  obtain ⟨r, he, i₁, _⟩ := promote_rule (I := fun _ => True) (o := o) done i trivial
    fun _ _ _ _ _ _ _ => trivial
  refine ⟨r, he, ?_⟩
  intro peers ho moved p left hl
  have hp : p ∈ peers := by simp [← (o.originOrder h).mem peers, hl]
  have hn : p ∉ moved := by
    intro hm
    have hd := hl ▸ (o.originOrder h).nodup peers
    exact (List.nodup_append.mp hd).right.right p hm p List.mem_cons_self rfl
  -- The announcement has not been moved yet, and it was there before the hash was visited.
  obtain ⟨_, waitslots, hf, _, _, hw, _⟩ := promotePeer_spec (h := h)
    (s := { r.fst with announced := r.fst.announced.set h (some peers) }) moved
  rw [hf]
  refine (hw p h).mpr ⟨?_, fun hm => hn hm.left⟩
  exact i₁.slots_iff.mpr <| hasOrigin_iff.mpr ⟨peers, ho, hp⟩

end State

theorem waiting_of_reachable (s : State) (r : machine.Reachable anyStep s) :
    s.Waiting ∧ ∀ o, s.FindsSlots o :=
  ⟨(State.reachable_sound r).waiting, fun _ => (State.reachable_sound r).findsSlots⟩

-- The hash is waiting with the announcements of "p" and "q".
theorem waiting_twoOrigins : ∃ s, machine.run machine.init (twoOrigins.take 2) = .ok s ∧
    HasOrigin s.waitlist fixedHash "q" ∧ s.Waiting ∧ ∀ o, s.FindsSlots o := by
  obtain ⟨s, hs, ho⟩ : ∃ s, machine.run machine.init (twoOrigins.take 2) = .ok s ∧
      HasOrigin s.waitlist fixedHash "q" := ⟨_, rfl, by decide⟩
  exact ⟨s, hs, ho, waiting_of_reachable s <| .run .init (fun _ _ _ => trivial) hs⟩

end Fetcher
