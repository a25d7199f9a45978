import DomiconExec.Fetcher.Theorems.Departure
import DomiconExec.Fetcher.Theorems.Intake

namespace Fetcher

open List Transition.System
open FilePool (Ref Heap Env)

namespace State

variable {s s₁ s₂ s' : State} {p q : Peer} {h k : Hash} {o : Oracle}

section Schedule

variable {hashes : List Hash}

noncomputable def leading (q : Peer) (h : Hash) : Oracle where
  hashClock _ := 0
  peerClock _ := 0
  requestClock _ := 0
  waitOrder := .leading h
  originOrder _ := .leading q
  requestOrder := .leading q
  slotOrder _ := .leading q
  peerOrder := .leading q
  announceOrder _ := .leading h

-- The hash is fetched from a peer, as the first one of a request.
structure Leads (q : Peer) (h : Hash) (s : State) : Prop where
  fetching : s.fetching.get h = some q
  request : ∃ req, s.requests.get q = some req ∧ req.hashes.head? = some h

theorem Requested.leads (r : Requested p hashes s s') (b : Leads q h s) : Leads q h s' := by
  obtain ⟨hf, req, hg, hh⟩ := b
  obtain ⟨t, hr⟩ := r.requests
  have hm : h ∉ hashes := fun hm => (r.eligible h hm).left (GoMap.mem_of_get hf)
  have hq : q ≠ p := by
    rintro rfl
    exact r.idle (GoMap.mem_of_get hg)
  refine ⟨?_, req, ?_, hh⟩
  case refine_1 => rw [r.fetching, if_neg hm, hf]
  case refine_2 => rw [hr, GoMap.get_set_ne hq, hg]

-- A peer that comes first is asked for the hash that comes first.
theorem scheduleFetches_leading (i : Sound none s) (hi : q ∉ s.requests)
    (ht : s.announces.Tracks q h) (hf : h ∉ s.fetching) :
    ∃ s', s.scheduleFetches (leading q h) none = .ok s' ∧ Leads q h s' := by
  have hq : q ∈ s.announces.keys := by
    obtain ⟨_, hg, _⟩ := Tracker.tracks_iff.mp ht
    exact GoMap.mem_of_get hg
  obtain ⟨l, hl⟩ := IterOrder.leading_list hq
  obtain ⟨l', hl'⟩ := IterOrder.leading_list (s := (s.announces.of q).keys) ht
  have hfind : (h :: l').find? (fun h => h ∉ s.fetching) = some h := by simp [hf]
  obtain ⟨s₁, he, hc⟩ := schedulePeer_head (leading q h) q fun _ => i.alternates_iff.mp
  simp only [leading, hl', hfind] at hc
  obtain ⟨_, hc | hc⟩ | ⟨hashes, r, hh⟩ := hc
  case inl.inl => exact absurd hc hi
  case inl.inr => exact absurd (hc h ht) hf
  case inr =>
    obtain ⟨t, hr⟩ := r.requests
    have b : Leads q h s₁ := by
      refine ⟨?_, _, by rw [hr, GoMap.get_set_self], hh⟩
      rw [r.fetching, if_pos (mem_of_mem_head? hh)]
    obtain ⟨s', hs, _, hb⟩ := schedule_rule (o := leading q h) (l := l) (r.sound i) b
      fun _ _ _ _ _ b r => r.leads b
    refine ⟨s', ?_, hb⟩
    simp only [scheduleFetches, Option.getD_none]
    rw [show (leading q h).peerOrder.list s.announces.keys = q :: l from hl, foldlM_cons, he]
    exact hs

end Schedule

section Deliver

variable {d : FdDelivery} {l : List Hash}

-- The delivered hashes `l` take a hash out of all stages behind the waiting list. Its first
-- occurrence only takes it from that list.
def Sweeps (l : List Hash) (s : State) (h : Hash) : Prop :=
  h ∈ l ∧ (h ∈ s.waitlist → 2 ≤ l.count h)

instance : Decidable (Sweeps l s h) :=
  inferInstanceAs <| Decidable (_ ∧ _)

theorem sweeps_concat_self : Sweeps (l ++ [h]) s h ↔ (h ∈ s.waitlist → h ∈ l) := by
  simp [Sweeps, one_le_count_iff]

theorem sweeps_concat_ne (hn : k ≠ h) : Sweeps (l ++ [h]) s k ↔ Sweeps l s k := by
  simp [Sweeps, hn, hn.symm]

-- What the hashes `l` of a delivery have done.
structure Delivered (d : FdDelivery) (l : List Hash) (s s' : State) : Prop where
  waitlist : ∀ h, h ∈ s'.waitlist ↔ h ∈ s.waitlist ∧ h ∉ l
  announced : ∀ h, s'.announced.get h = if Sweeps l s h then none else s.announced.get h
  alternates : ∀ h, s'.alternates.get h = if Sweeps l s h then none else s.alternates.get h
  fetching : ∀ h, s'.fetching.get h = if Sweeps l s h then none else s.fetching.get h
  announces : ∀ q h, s'.announces.Tracks q h ↔ s.announces.Tracks q h ∧ ¬Sweeps l s h
  requests : ∀ q, q ∈ s'.requests ↔ q ∈ s.requests
  answered : d.direct → s'.requests.get d.origin = s.requests.get d.origin

theorem Delivered.nil : Delivered d [] s s := by
  constructor <;> simp [Sweeps]

theorem Delivered.arrive (b : Delivered d l s s₁) (w : Arrived h s₁ s') :
    Delivered d (l ++ [h]) s s' := by
  -- The hash was on the waiting list until now.
  have hs k : Sweeps (l ++ [h]) s k ↔ Sweeps l s k := by
    by_cases hk : k = h
    case neg => exact sweeps_concat_ne hk
    case pos =>
      subst hk
      obtain ⟨hw, hl⟩ := (b.waitlist k).mp w.waiting
      rw [sweeps_concat_self]
      exact iff_of_false (fun h => hl (h hw)) (fun h => hl h.left)
  constructor
  case waitlist =>
    intro k
    rw [w.waitlist, GoMap.mem_del, b.waitlist]
    grind
  case announced  => simpa only [w.announced, hs] using b.announced
  case alternates => simpa only [w.alternates, hs] using b.alternates
  case fetching   => simpa only [w.fetching, hs] using b.fetching
  case announces  => simpa only [w.announces, hs] using b.announces
  case requests   => exact w.requests ▸ b.requests
  case answered   => exact w.requests ▸ b.answered

theorem Delivered.sweep (b : Delivered d l s s₁) (w : Swept d h s₁ s') :
    Delivered d (l ++ [h]) s s' := by
  have hs k : Sweeps (l ++ [h]) s k ↔ k = h ∨ Sweeps l s k := by
    by_cases hk : k = h
    case neg => simp [sweeps_concat_ne hk, hk]
    case pos =>
      subst hk
      have := (b.waitlist k).not.mp w.not_waiting
      rw [sweeps_concat_self]
      grind
  constructor
  case waitlist =>
    intro k
    have := (b.waitlist h).not.mp w.not_waiting
    rw [w.waitlist, b.waitlist]
    grind
  case announced =>
    intro k
    rw [w.announced, GoMap.get_del, b.announced]
    grind
  case alternates =>
    intro k
    rw [w.alternates, GoMap.get_del, b.alternates]
    grind
  case fetching =>
    intro k
    rw [w.fetching, GoMap.get_del, b.fetching]
    grind
  case announces =>
    intro q k
    rw [w.announces, b.announces, hs]
    grind
  case requests =>
    intro q
    rw [← b.requests q, GoMap.mem_iff, GoMap.mem_iff, w.requests, ← Option.isSome_iff_exists,
      ← Option.isSome_iff_exists, Option.isSome_map]
  case answered =>
    intro hd
    have hm : mark d s₁ h d.origin = id := funext fun req => if_neg (by simp [hd])
    rw [w.requests, hm, Option.map_id, id, b.answered hd]

theorem deliver_spec (o : Oracle) (d : FdDelivery) (i : Sound none s) :
    ∃ s₁, (d.hashes.zip d.metas).foldlM (deliverHash o d) s = .ok s₁ ∧ Sound (some d) s₁ ∧
      Delivered d d.hashes s s₁ := by
  let I (l : List Hash) (s₁ : State) := ∃ l', d.hashes = l' ++ l ∧ Delivered d l' s s₁
  have arrive s₁ s₂ h l (_ : Sound (some d) s₁) : I (h :: l) s₁ → h ∈ d.hashes → Arrived h s₁ s₂ →
      I l s₂ := by
    rintro ⟨l', hl, b⟩ _ w
    exact ⟨l' ++ [h], by simpa using hl, b.arrive w⟩
  have sweep s₁ s₂ h l (_ : Sound (some d) s₁) : I (h :: l) s₁ → h ∈ d.hashes → Swept d h s₁ s₂ →
      I l s₂ := by
    rintro ⟨l', hl, b⟩ _ w
    exact ⟨l' ++ [h], by simpa using hl, b.sweep w⟩
  obtain ⟨s₁, he, i₁, l, hl, b⟩ := deliver_rule (o := o) (d := d) (I := I) i ⟨[], rfl, .nil⟩
    arrive sweep
  rw [append_nil] at hl
  exact ⟨s₁, he, i₁, hl ▸ b⟩

end Deliver

section Settle

variable {d : FdDelivery} {req : FdRequest}

-- The state in which the request `req` was answered, and from which new requests are made.
structure Concluded (d : FdDelivery) (req : FdRequest) (s s' : State) : Prop where
  waitlist : ∀ h, h ∈ s'.waitlist ↔ h ∈ s.waitlist ∧ h ∉ d.hashes
  announced : ∀ h, h ∈ s'.announced ↔ h ∈ s.announced ∧ ¬Sweeps d.hashes s h ∨
    Live req h ∧ remaining d req s h ≠ ∅
  fetching : ∀ h, h ∈ s'.fetching ↔ h ∈ s.fetching ∧ ¬Sweeps d.hashes s h ∧ ¬Live req h
  announces : ∀ q h, s'.announces.Tracks q h ↔ s.announces.Tracks q h ∧
    ¬Sweeps d.hashes s h ∧ ¬(q = d.origin ∧ Live req h ∧ Refused d req h)
  requests : ∀ q, q ∈ s'.requests ↔ q ≠ d.origin ∧ q ∈ s.requests

theorem Delivered.conclude (b : Delivered d d.hashes s s₁)
    (w : Answered d req (Live req) { s₁ with requests := s₁.requests.del d.origin } s') :
    Concluded d req s s' := by
  -- What is left of a hash that was not delivered only depends on the initial state.
  have hr h : remaining d req { s₁ with requests := s₁.requests.del d.origin } h =
      remaining d req s h := by
    by_cases hm : h ∈ d.hashes
    case pos => rw [remaining_of_mem hm, remaining_of_mem hm]
    case neg => exact remaining_congr <| (b.alternates h).trans (if_neg fun hs => hm hs.left)
  constructor
  case waitlist => exact w.waitlist ▸ b.waitlist
  case announced =>
    intro h
    have hw := w.announced h
    have hb := b.announced h
    rw [hr] at hw
    have : Sweeps d.hashes s h → remaining d req s h = ∅ := fun hs => remaining_of_mem hs.left
    grind
  case fetching =>
    intro h
    have := w.fetching h
    have := b.fetching h
    grind
  case announces =>
    intro q h
    rw [w.announces, b.announces, and_assoc]
  case requests =>
    intro q
    rw [w.requests, GoMap.mem_del, b.requests]

theorem cleanup_cases (o : Oracle) (d : FdDelivery) (i : Sound none s) :
    (¬(d.direct ∧ d.origin ∈ s.requests) ∧ ∃ s₁, s.cleanup o d = .ok s₁ ∧ Sound none s₁ ∧
      Delivered d d.hashes s s₁) ∨
    (d.direct ∧ ∃ req s₂, s.requests.get d.origin = some req ∧ Sound none s₂ ∧
      Concluded d req s s₂ ∧ s.cleanup o d = s₂.scheduleFetches o none) := by
  obtain ⟨s₁, he, i₁, b⟩ := deliver_spec o d i
  unfold cleanup
  simp only [he, bind, Except.bind]
  split
  case isFalse hd => exact .inl ⟨fun h => hd h.left, s₁, rfl, i₁.finish fun h => absurd h hd, b⟩
  case isTrue hd =>
    split
    case h_1 hr =>
      refine .inl ⟨fun h => ?_, s₁, rfl, i₁.finish fun _ => hr, b⟩
      exact GoMap.get_eq_none.mp (b.answered hd ▸ hr) h.right
    case h_2 req hr =>
      obtain ⟨s₂, he₂, w⟩ := settle_answered (d := d) i₁ hr
      simp only [he₂]
      exact .inr ⟨hd, req, s₂, b.answered hd ▸ hr, w.sound i₁ hr, b.conclude w, rfl⟩

theorem cleanup_concluded (o : Oracle) (i : Sound none s) (hd : d.direct)
    (hr : s.requests.get d.origin = some req) : ∃ s₂, Sound none s₂ ∧ Concluded d req s s₂ ∧
      s.cleanup o d = s₂.scheduleFetches o none := by
  obtain ⟨hn, _⟩ | ⟨_, req', s₂, hr', h⟩ := cleanup_cases o d i
  case inl => exact absurd ⟨hd, GoMap.mem_of_get hr⟩ hn
  case inr =>
    cases hr.symm.trans hr'
    exact ⟨s₂, h⟩

def Busy (h : Hash) (s : State) : Prop :=
  h ∈ s.waitlist ∨ h ∈ s.announced ∨ h ∈ s.fetching

theorem Sound.untracked_iff (i : Sound none s) : s.Untracked h ↔ ¬Busy h s where
  mp u := by
    have := u.waitlist
    have := u.announced
    have := u.fetching
    simp_all [Busy]
  mpr hn := by
    obtain ⟨hw, hq, hf⟩ : h ∉ s.waitlist ∧ h ∉ s.announced ∧ h ∉ s.fetching := by
      simpa [Busy, not_or] using hn
    exact ⟨hw, i.waiting_iff.not.mpr hw, hq, i.alternates_iff.not.mpr hf, hf⟩

theorem Requested.busy {hashes : List Hash} (r : Requested p hashes s s') (b : Busy h s) :
    Busy h s' := by
  have := r.announced h
  have := r.fetching h
  unfold Busy at *
  rw [r.waitlist]
  grind

structure Quiet (h : Hash) (s : State) : Prop where
  idle : ¬Busy h s
  busy : ∀ q, s.announces.Tracks q h → q ∈ s.requests

theorem Requested.quiet {hashes : List Hash} (r : Requested p hashes s s') (b : Quiet h s) :
    Quiet h s' := by
  have hm : h ∉ hashes := fun hm => r.idle <| b.busy p <| r.tracked h hm
  have hb := b.idle
  have := r.announced h
  have := r.fetching h
  obtain ⟨t, hr⟩ := r.requests
  constructor
  case idle =>
    unfold Busy at *
    rw [r.waitlist]
    grind
  case busy =>
    intro q hq
    have := b.busy q (r.announces ▸ hq)
    rw [hr]
    grind

theorem Quiet.untracked (b : Quiet h s) (i : Sound none s)
    (he : s.scheduleFetches o none = .ok s') : s'.Untracked h := by
  obtain ⟨s₁, he', i₁, b⟩ := scheduleFetches_rule (o := o) (w := none) i b
    fun _ _ _ _ _ b r => r.quiet b
  cases he'.symm.trans he
  exact i₁.untracked_iff.mpr b.idle

end Settle

section Untrack

variable {d : FdDelivery}

-- The hash is in none of the stages that the delivery leaves alone, and nobody is asked for it:
-- whoever announced it has another request in flight, or has just refused to deliver it.
structure Unused (s : State) (d : FdDelivery) (h : Hash) : Prop where
  waiting : h ∈ s.waitlist → h ∈ d.hashes
  announced : h ∉ s.announced
  fetching : ∀ q, s.fetching.get h = some q → d.direct ∧ q = d.origin
  remaining : ∀ req, d.direct → s.requests.get d.origin = some req → Live req h →
    remaining d req s h = ∅
  tracked : ∀ q req, d.direct → s.requests.get d.origin = some req → s.announces.Tracks q h →
    q ≠ d.origin ∧ q ∈ s.requests ∨ q = d.origin ∧ Live req h ∧ Refused d req h

theorem cleanup_untracked_of_sweeps (i : Sound none s) (hs : Sweeps d.hashes s h)
    (he : s.cleanup o d = .ok s') : s'.Untracked h := by
  have hm := hs.left
  obtain ⟨_, s₁, hc, i₁, b⟩ | ⟨_, req, s₂, _, i₂, c, hc⟩ := cleanup_cases o d i
  case inl =>
    cases hc.symm.trans he
    have := b.waitlist h
    have := b.announced h
    have := b.fetching h
    apply i₁.untracked_iff.mpr
    grind [Busy]
  case inr =>
    have := c.waitlist h
    have := c.announced h
    have := c.fetching h
    have : remaining d req s h = ∅ := remaining_of_mem hm
    refine Quiet.untracked ⟨by grind [Busy], fun q hq => ?_⟩ i₂ (hc.symm.trans he)
    exact absurd hs ((c.announces q h).mp hq).right.left

theorem cleanup_untracked_of_unused (i : Sound none s) (hs : ¬Sweeps d.hashes s h)
    (u : Unused s d h) (he : s.cleanup o d = .ok s') : s'.Untracked h := by
  have := u.waiting
  have := u.announced
  obtain ⟨hn, s₁, hc, i₁, b⟩ | ⟨hd, req, s₂, hr, i₂, c, hc⟩ := cleanup_cases o d i
  case inl =>
    cases hc.symm.trans he
    have hf : h ∉ s.fetching := by
      intro hf
      obtain ⟨q, hf⟩ := GoMap.mem_iff.mp hf
      obtain ⟨hd, rfl⟩ := u.fetching q hf
      exact hn ⟨hd, i.mem_requests hf⟩
    have := b.waitlist h
    have := b.announced h
    have := b.fetching h
    apply i₁.untracked_iff.mpr
    grind [Busy]
  case inr =>
    have hf : h ∈ s.fetching → Live req h := by
      intro hf
      obtain ⟨q, hf⟩ := GoMap.mem_iff.mp hf
      obtain ⟨_, rfl⟩ := u.fetching q hf
      obtain ⟨req', hr', hl⟩ := i.requested hf
      cases hr.symm.trans hr'
      exact hl
    have := u.remaining req hd hr
    have := c.waitlist h
    have := c.announced h
    have := c.fetching h
    refine Quiet.untracked ⟨by grind [Busy], fun q hq => ?_⟩ i₂ (hc.symm.trans he)
    obtain ⟨ht, _, hq⟩ := (c.announces q h).mp hq
    exact (c.requests q).mpr <| (u.tracked q req hd hr ht).resolve_right hq

-- If the hash is never left behind, then nothing is left of it when new requests are made.
theorem not_busy_of_scheduleFetches (i : Sound none s)
    (hu : ∀ s', s.scheduleFetches o none = .ok s' → s'.Untracked h) : ¬Busy h s := by
  intro hb
  obtain ⟨s₃, he, i₃, hb⟩ := scheduleFetches_rule (o := o) (w := none) i hb
    fun _ _ _ _ _ b r => r.busy b
  exact i₃.untracked_iff.mp (hu s₃ he) hb

-- A peer that announced the hash and is idle may be the first one that is asked.
theorem tracked_of_cleanup_untracked {req : FdRequest} (i : Sound none s)
    (hs : ¬Sweeps d.hashes s h) (hu : ∀ o s', s.cleanup o d = .ok s' → s'.Untracked h)
    (hd : d.direct) (hr : s.requests.get d.origin = some req) (ht : s.announces.Tracks q h) :
    q ≠ d.origin ∧ q ∈ s.requests ∨ q = d.origin ∧ Live req h ∧ Refused d req h := by
  obtain ⟨s₂, i₂, c, hc⟩ := cleanup_concluded (leading q h) i hd hr
  have hu := hu (leading q h)
  rw [hc] at hu
  have hb := not_busy_of_scheduleFetches i₂ hu
  by_contra hx
  obtain ⟨hq, hx⟩ := not_or.mp hx
  obtain ⟨s', he, hl⟩ := scheduleFetches_leading i₂ (mt (c.requests q).mp hq)
    ((c.announces q h).mpr ⟨ht, hs, hx⟩) fun hf => hb (.inr (.inr hf))
  exact (hu s' he).fetching (GoMap.mem_of_get hl.fetching)

theorem unused_of_cleanup_untracked (i : Sound none s) (hs : ¬Sweeps d.hashes s h)
    (hu : ∀ o s', s.cleanup o d = .ok s' → s'.Untracked h) : Unused s d h := by
  obtain ⟨hn, s₁, hc, i₁, b⟩ | ⟨hd, req, s₂, hr, i₂, c, hc⟩ :=
    cleanup_cases (leading d.origin h) d i
  case inl =>
    have hb := i₁.untracked_iff.mp (hu _ _ hc)
    have := b.waitlist h
    have := b.announced h
    have := b.fetching h
    unfold Busy at hb
    constructor
    case waiting   => grind
    case announced => grind
    case fetching  => grind
    case remaining => exact fun req hd hr => absurd ⟨hd, GoMap.mem_of_get hr⟩ hn
    case tracked   => exact fun q req hd hr => absurd ⟨hd, GoMap.mem_of_get hr⟩ hn
  case inr =>
    have hb := not_busy_of_scheduleFetches i₂ fun s' he => hu _ s' (hc.trans he)
    have := c.waitlist h
    have := c.announced h
    have := c.fetching h
    unfold Busy at hb
    constructor
    case waiting   => grind
    case announced => grind
    case fetching =>
      intro q hf
      have hl : Live req h := by grind
      have := i.fetched hr hl.left hl.right
      grind
    case remaining =>
      intro req' _ hr'
      cases hr.symm.trans hr'
      grind
    case tracked => exact fun q req hd hr ht => tracked_of_cleanup_untracked i hs hu hd hr ht

theorem cleanup_untracked_iff (i : Sound none s) :
    (∀ o s', s.cleanup o d = .ok s' → s'.Untracked h) ↔
      Sweeps d.hashes s h ∨ Unused s d h where
  mp hu := by
    by_cases hs : Sweeps d.hashes s h
    case pos => exact .inl hs
    case neg => exact .inr (unused_of_cleanup_untracked i hs hu)
  mpr hc o s' he := by
    by_cases hs : Sweeps d.hashes s h
    case pos => exact cleanup_untracked_of_sweeps i hs he
    case neg => exact cleanup_untracked_of_unused i hs (hc.resolve_left hs) he

theorem cleanup_returns (o : Oracle) (d : FdDelivery) (i : Sound none s) :
    ∃ s', s.cleanup o d = .ok s' := by
  obtain ⟨_, s₁, hc, _⟩ | ⟨_, _, s₂, _, i₂, _, hc⟩ := cleanup_cases o d i
  case inl => exact ⟨s₁, hc⟩
  case inr =>
    obtain ⟨s₃, he, _⟩ := scheduleFetches_rule (o := o) (w := none) (I := fun _ => True) i₂ trivial
      fun _ _ _ _ _ _ _ => trivial
    exact ⟨s₃, hc.trans he⟩

end Untrack
end State

def Stored (heap : Heap) (fds : List Ref) (pool : FilePool) (h : Hash) : Prop :=
  ∃ fd ∈ fds, h ∈ (heap fd).keys ∧ pool.all.get h = some fd

-- What the loop is told about a batch takes the hash out of all stages, or the hash is in none that
-- is left alone. The loop is only told about the transaction hashes.
def Clears (s : State) (heap : Heap) (p : Peer) (fds : List Ref) (direct : Bool) (h : Hash) :
    Prop :=
  State.Sweeps (fds.map fun fd => (heap fd).txHash) s h ∨
    State.Unused s (.of p (fds.map (reported heap)) direct) h

-- A batch untracks the hashes of its data exactly if it clears each of them.
theorem untracks_iff_clears (s : State) (heap : Heap) (env : Nat → Env) (pool pool' : FilePool)
    (p : Peer) (fds : List Ref) (direct : Bool) (d : FdDelivery)
    (r : machine.Reachable anyStep s)
    (he : enqueue false heap env pool p fds direct = .ok (pool', some (.cleanup d), none)) :
    (∀ o, ∃ s', machine.step s (o, .cleanup d) = .ok s' ∧
      ∀ h, Stored heap fds pool' h → s'.Untracked h) ↔
    ∀ h, Stored heap fds pool' h → Clears s heap p fds direct h := by
  have i := State.reachable_sound r
  have hd : d = .of p (fds.map (reported heap)) direct := by
    simpa [send] using enqueue_eq_ok he
  have hh : d.hashes = fds.map fun fd => (heap fd).txHash := by
    simp [hd, FdDelivery.of, reported]
  have hc h : Clears s heap p fds direct h ↔ ∀ o s', s.cleanup o d = .ok s' → s'.Untracked h := by
    rw [State.cleanup_untracked_iff i, hh, hd, Clears]
  simp only [hc]
  constructor
  case mp =>
    intro hu h hs o s' he
    obtain ⟨s₁, he₁, hu⟩ := hu o
    cases he₁.symm.trans he
    exact hu h hs
  case mpr =>
    intro hu o
    obtain ⟨s', he⟩ := State.cleanup_returns o d i
    exact ⟨s', he, fun h hs => hu h hs o s' he⟩

def committed : DA :=
  { DA.zero with
    commitment := ⟨.zero, ⟨[2, 0, 0, 0], rfl⟩⟩
    signData := [[1]]
    txHash := fixedHash
  }

def committedEnv : Env where
  heap _ := committed
  now := .zero
  initMultiAdaptiveSdk := none
  verifyCommitWithProof _ _ _ := none
  writeError _ := none

-- The result of the first delivery of this data to an empty pool.
def deliverCommitted : FdDelivery :=
  .of "p" [reported (fun _ => committed) 0] true

theorem enqueue_committed : ∃ pool,
    enqueue false (fun _ => committed) (fun _ => committedEnv) (.new FilePool.DefaultConfig "" "")
      "p" [0] true = .ok (pool, some (.cleanup deliverCommitted), none) ∧
    ∀ k ∈ committed.keys, pool.all.get k = some 0 :=
  ⟨_, rfl, by decide⟩

-- The data is requested from "p", while "q" has announced it as well.
theorem untracks_twoOrigins : ∃ pool s,
    enqueue false (fun _ => committed) (fun _ => committedEnv) (.new FilePool.DefaultConfig "" "")
      "p" [0] true = .ok (pool, some (.cleanup deliverCommitted), none) ∧
    machine.run machine.init twoOrigins = .ok s ∧ fixedHash ∈ s.fetching ∧
    Stored (fun _ => committed) [0] pool fixedHash ∧
    ∀ o, ∃ s', machine.step s (o, .cleanup deliverCommitted) = .ok s' ∧
      ∀ h, Stored (fun _ => committed) [0] pool h → s'.Untracked h := by
  obtain ⟨pool, he, hk⟩ := enqueue_committed
  obtain ⟨s, req, hs, hf, hw, hn, hr, ha, hu⟩ : ∃ s req,
      machine.run machine.init twoOrigins = .ok s ∧ fixedHash ∈ s.fetching ∧ fixedHash ∉ s.waitlist ∧
      (committed.commitment.hash ∉ s.waitlist ∧ committed.commitment.hash ∉ s.announced ∧
        committed.commitment.hash ∉ s.fetching ∧ committed.commitment.hash ∉ req.hashes) ∧
      s.requests.get "p" = some req ∧ s.announces.keys = {"p", "q"} ∧
      ∀ q ∈ ["p", "q"], ¬s.announces.Tracks q committed.commitment.hash :=
    ⟨_, _, rfl, by decide, by decide, by decide, rfl, by decide, by decide⟩
  have hb : Stored (fun _ => committed) [0] pool fixedHash :=
    ⟨0, mem_cons_self, by decide, hk _ (by decide)⟩
  refine ⟨pool, s, he, hs, hf, hb,
    (untracks_iff_clears s _ _ _ _ _ _ _ _ (.run .init (fun _ _ _ => trivial) hs) he).mpr ?_⟩
  rintro h ⟨_, _, hm, _⟩
  obtain rfl | rfl := DA.mem_keys hm
  case inl => exact .inl ⟨mem_singleton_self _, fun h => absurd h hw⟩
  case inr =>
    refine .inr ⟨fun h => absurd h hn.left, hn.right.left, ?_, ?_, ?_⟩
    case refine_1 => exact fun q hq => absurd (GoMap.mem_of_get hq) hn.right.right.left
    case refine_2 =>
      intro req' _ hr' hl
      cases hr.symm.trans hr'
      exact absurd hl.left hn.right.right.right
    case refine_3 =>
      intro q _ _ _ ht
      obtain ⟨_, hg, _⟩ := Tracker.tracks_iff.mp ht
      have hq := ha ▸ GoMap.mem_keys.mpr (GoMap.mem_of_get hg)
      exact absurd ht (hu q (by simpa using hq))

def announceCommitment : FdAnnounce :=
  .of "p" [(committed.commitment.hash, ⟨10⟩)]

-- The commitment was announced, and is still on the waiting list after the data has arrived.
theorem not_untracks_commitment : ¬∀ (s : State) (heap : Heap) (env : Nat → Env)
    (pool pool' : FilePool) (p : Peer) (fds : List Ref) (direct : Bool) (d : FdDelivery),
    machine.Reachable anyStep s →
    enqueue false heap env pool p fds direct = .ok (pool', some (.cleanup d), none) →
    ∀ o s', machine.step s (o, .cleanup d) = .ok s' →
      ∀ h, Stored heap fds pool' h → s'.Untracked h := by
  intro hu
  obtain ⟨pool, he, hk⟩ := enqueue_committed
  obtain ⟨s, s', hs, hs', hw⟩ : ∃ s s',
      machine.run machine.init [(early, .notify announceCommitment)] = .ok s ∧
      machine.step s (early, .cleanup deliverCommitted) = .ok s' ∧
      committed.commitment.hash ∈ s'.waitlist := ⟨_, _, rfl, rfl, by decide⟩
  have hb : Stored (fun _ => committed) [0] pool committed.commitment.hash :=
    ⟨0, mem_cons_self, by decide, hk _ (by decide)⟩
  have u := hu s _ _ _ pool _ _ _ _ (.run .init (fun _ _ _ => trivial) hs) he early s' hs' _ hb
  exact u.waitlist hw

end Fetcher
