import DomiconExec.Fetcher.Theorems.Effects

namespace Fetcher.State

open List

variable {s s₁ s' : State} {p q : Peer} {h k : Hash} {o : Oracle}
  {a : Option FdDelivery}

-- The delivery `a` that is being processed answers a request to `p` for `h`.
def Answers (a : Option FdDelivery) (p : Peer) (h : Hash) : Prop :=
  ∃ d, a = some d ∧ d.direct ∧ p = d.origin ∧ h ∈ d.hashes

-- What holds in every reachable state. While the delivery `a` is being processed, the hashes that
-- it answers may already have left `fetching`.
structure Sound (a : Option FdDelivery) (s : State) : Prop where
  waiting_iff : ∀ {h}, h ∈ s.waittime ↔ h ∈ s.waitlist
  waiting_filled : Filled s.waitlist
  slots_iff : ∀ {p h}, s.waitslots.Tracks p h ↔ HasOrigin s.waitlist h p
  slots_filled : s.waitslots.Filled
  announces_filled : s.announces.Filled
  announced_filled : Filled s.announced
  announced_excl : ∀ {h}, h ∈ s.announced → h ∉ s.waitlist
  alternates_iff : ∀ {h}, h ∈ s.alternates ↔ h ∈ s.fetching
  alternates_excl : ∀ {h peers}, origins s.alternates h = some peers →
    peers.Nonempty ∧ h ∉ s.waitlist ∧ h ∉ s.announced
  nodup : ∀ {p req}, s.requests.get p = some req → req.hashes.Nodup
  fetched : ∀ {p h req}, s.requests.get p = some req → h ∈ req.hashes → h ∉ req.stolen →
    s.fetching.get h = some p ∨ Answers a p h ∧ h ∉ s.fetching
  requested : ∀ {p h}, s.fetching.get h = some p →
    ∃ req, s.requests.get p = some req ∧ h ∈ req.hashes ∧ h ∉ req.stolen

@[simp, grind .]
theorem not_answers_none : ¬Answers none p h := by
  simp [Answers]

theorem Sound.init : Sound none .init := by
  constructor <;> simp [State.init, Filled.empty, Tracker.Filled.empty, origins]

theorem Sound.mem_requests (i : Sound a s) (hf : s.fetching.get h = some p) : p ∈ s.requests := by
  obtain ⟨req, hr, _⟩ := i.requested hf
  exact GoMap.mem_of_get hr

section Schedule

variable {hashes : List Hash}

theorem Requested.sound (r : Requested p hashes s s') (i : Sound none s) : Sound none s' := by
  have hf := r.fetching
  have ha := r.alternates
  have hq := r.announced
  obtain ⟨t, hr⟩ := r.requests
  constructor
  case waiting_iff      => rw [r.waittime, r.waitlist]; exact i.waiting_iff
  case waiting_filled   => rw [r.waitlist]; exact i.waiting_filled
  case slots_iff        => rw [r.waitlist, r.waitslots]; exact i.slots_iff
  case slots_filled     => rw [r.waitslots]; exact i.slots_filled
  case announces_filled => rw [r.announces]; exact i.announces_filled
  case announced_filled =>
    refine i.announced_filled.congr fun k => ?_
    grind
  case announced_excl =>
    intro k hk
    rw [r.waitlist]
    apply i.announced_excl
    grind
  case alternates_iff =>
    intro k
    have := @i.alternates_iff k
    grind
  case alternates_excl =>
    intro k peers hk
    rw [r.waitlist]
    simp only [origins, ha k] at hk
    split at hk
    case isTrue hm =>
      have hk : origins s.announced k = some peers := hk
      have hn := mem_of_origins hk
      obtain ⟨peers', ho, hp⟩ := i.announced_filled.origins_of_mem hn
      cases hk.symm.trans ho
      refine ⟨hp, i.announced_excl hn, ?_⟩
      grind
    case isFalse hm =>
      have := i.alternates_excl hk
      grind
  case nodup =>
    intro q req hg
    have := @i.nodup q req
    have := r.nodup
    grind
  case fetched =>
    intro q k req hg hm hs
    have := @i.fetched q k req
    have := r.eligible k
    have := r.idle
    grind
  case requested =>
    intro q k hk
    rw [hf] at hk
    split at hk
    case isTrue hm =>
      cases hk
      exact ⟨_, hr ▸ GoMap.get_set_self, hm, Finset.notMem_empty _⟩
    case isFalse =>
      obtain ⟨req, hg, hl⟩ := i.requested hk
      have hq : q ≠ p := fun he => r.idle <| GoMap.mem_of_get (he ▸ hg)
      exact ⟨req, by rw [hr, GoMap.get_set_ne hq, hg], hl⟩

-- The rule for `scheduleFetches`: an invariant has to be kept by each request.
theorem schedule_rule {I : State → Prop} {l : List Peer} (i : Sound none s) (hs : I s)
    (step : ∀ s₁ s₂ p hashes, Sound none s₁ → I s₁ → Requested p hashes s₁ s₂ → I s₂) :
    ∃ s', l.foldlM (schedulePeer o) s = .ok s' ∧ Sound none s' ∧ I s' := by
  apply Loop.foldlM_rule (fun _ s => Sound none s ∧ I s) ?_ ⟨i, hs⟩
  rintro p _ s ⟨i, hs⟩
  obtain ⟨s', he, hc⟩ := schedulePeer_spec (o := o) (p := p) fun _ => i.alternates_iff.mp
  refine ⟨s', he, ?_⟩
  obtain rfl | ⟨hashes, r⟩ := hc
  case inl => exact ⟨i, hs⟩
  case inr => exact ⟨r.sound i, step _ _ _ _ i hs r⟩

theorem scheduleFetches_rule {I : State → Prop} {w : Option (Finset Peer)} (i : Sound none s)
    (hs : I s)
    (step : ∀ s₁ s₂ p hashes, Sound none s₁ → I s₁ → Requested p hashes s₁ s₂ → I s₂) :
    ∃ s', s.scheduleFetches o w = .ok s' ∧ Sound none s' ∧ I s' :=
  schedule_rule i hs step

end Schedule

section Notify

variable {md : Option FdMetadata}

theorem notifyHash_sound (i : Sound none s) : Sound none (s.notifyHash o p (h, md)) := by
  unfold notifyHash
  dsimp only
  split
  case h_1 alternates ho =>
    obtain ⟨_, hx⟩ := i.alternates_excl ho
    refine { i with
      announces_filled := i.announces_filled.track
      alternates_iff := ?_
      alternates_excl := ?_
    }
    case refine_1 =>
      intro k
      have := @i.alternates_iff k
      have := mem_of_origins ho
      grind
    case refine_2 =>
      intro k peers hk
      rw [origins_set] at hk
      split at hk
      case isFalse   => exact i.alternates_excl hk
      case isTrue he =>
        subst he
        exact ⟨Option.some.inj hk ▸ Finset.insert_nonempty .., hx⟩
  case h_2 ha =>
    -- From here on there is no set of alternates for the hash.
    have hne {k peers} (hk : origins s.alternates k = some peers) : k ≠ h := by
      rintro rfl
      cases ha.symm.trans hk
    split
    case h_1 announced ho =>
      refine { i with
        announces_filled := i.announces_filled.track
        announced_filled := i.announced_filled.set <| Finset.insert_nonempty ..
        announced_excl := ?_
        alternates_excl := ?_
      }
      case refine_1 =>
        intro k
        have := @i.announced_excl k
        have := mem_of_origins ho
        grind
      case refine_2 =>
        intro k peers hk
        have := i.alternates_excl hk
        have := hne hk
        grind
    case h_2 hq =>
      have hnq : h ∉ s.announced := by
        intro hm
        obtain ⟨_, ho, _⟩ := i.announced_filled.origins_of_mem hm
        cases ho.symm.trans hq
      -- In both remaining cases the peer is added to the waiting set of the hash.
      have add {waiting : Finset Peer} {waittime : GoMap Hash AbsTime}
          (ht : ∀ {k}, k ∈ waittime ↔ k = h ∨ k ∈ s.waittime)
          (hw : waiting = insert p ((origins s.waitlist h).getD ∅)) :
          Sound none { s with
            waitlist := s.waitlist.set h (some waiting)
            waittime
            waitslots := s.waitslots.track p h md } := by
        refine { i with
          waiting_iff := ?_
          waiting_filled := i.waiting_filled.set <| hw ▸ Finset.insert_nonempty ..
          slots_iff := ?_
          slots_filled := i.slots_filled.track
          announced_excl := ?_
          alternates_excl := ?_
        }
        case refine_1 =>
          intro k
          rw [ht, GoMap.mem_set, i.waiting_iff]
        case refine_2 =>
          intro q k
          have := @i.slots_iff q k
          grind [HasOrigin]
        case refine_3 =>
          intro k
          have := @i.announced_excl k
          grind
        case refine_4 =>
          intro k peers hk
          have := i.alternates_excl hk
          have := hne hk
          grind
      split
      case h_1 waitlist ho =>
        split
        case isTrue => exact i
        case isFalse =>
          have hm := i.waiting_iff.mpr <| mem_of_origins ho
          exact add (by grind) (by simp [ho])
      case h_2 hw => exact add GoMap.mem_set (by simp [hw])

theorem notify_rule {I : State → Prop} (ann : FdAnnounce) (i : Sound none s) (hs : I s)
    (entry : ∀ s h md, Sound none s → I s → I (s.notifyHash o ann.origin (h, md)))
    (request : ∀ s₁ s₂ p hashes, Sound none s₁ → I s₁ → Requested p hashes s₁ s₂ → I s₂) :
    ∃ s', s.notify o ann = .ok s' ∧ Sound none s' ∧ I s' := by
  unfold notify
  split
  case isTrue => exact ⟨s, rfl, i, hs⟩
  case isFalse =>
    obtain ⟨i', hs'⟩ := List.foldlRecOn (motive := fun s => Sound none s ∧ I s) (s.considered ann)
      (notifyHash o ann.origin) ⟨i, hs⟩
      fun s hs e _ => ⟨notifyHash_sound hs.left, entry s _ _ hs.left hs.right⟩
    dsimp only
    split
    case isTrue  => exact scheduleFetches_rule i' hs' request
    case isFalse => exact ⟨_, rfl, i', hs'⟩

end Notify

section Wait

variable {peers : Finset Peer}

theorem Promoted.sound (w : Promoted h peers s s') (i : Sound none s) : Sound none s' := by
  have hm := mem_of_origins w.waiting
  have hn : peers.Nonempty := by
    obtain ⟨_, ho, hn⟩ := i.waiting_filled.origins_of_mem hm
    cases w.waiting.symm.trans ho
    exact hn
  constructor
  case waiting_iff      => simp [w.waittime, w.waitlist, i.waiting_iff]
  case waiting_filled   => exact w.waitlist ▸ i.waiting_filled.del
  case slots_filled     => exact w.waitslots_filled i.slots_filled
  case announces_filled => exact w.announces_filled i.announces_filled
  case announced_filled => exact w.announced ▸ i.announced_filled.set hn
  case alternates_iff   => rw [w.alternates, w.fetching]; exact i.alternates_iff
  case nodup            => rw [w.requests]; exact i.nodup
  case fetched          => rw [w.requests, w.fetching]; exact i.fetched
  case requested        => rw [w.requests, w.fetching]; exact i.requested
  case slots_iff =>
    intro q k
    rw [w.waitslots, w.waitlist, i.slots_iff]
    have := w.waiting
    grind [HasOrigin]
  case announced_excl =>
    intro k
    rw [w.announced, w.waitlist]
    have := @i.announced_excl k
    grind
  case alternates_excl =>
    intro k peers' hk
    rw [w.alternates] at hk
    rw [w.announced, w.waitlist]
    have := i.alternates_excl hk
    grind

-- The rule for the loop over the waiting hashes, which may also be cut short.
theorem promote_rule {I : State → Prop} (l : List Hash) (i : Sound none s) (hs : I s)
    (promote : ∀ s₁ s₂ h peers, Sound none s₁ → I s₁ → Promoted h peers s₁ s₂ → I s₂) :
    ∃ r, l.foldlM (State.promote o) (s, ∅) = .ok r ∧ Sound none r.fst ∧ I r.fst := by
  have body h (l : List Hash) (r : State × Finset Peer) : Sound none r.fst ∧ I r.fst →
      ∃ r', State.promote o r h = .ok r' ∧ Sound none r'.fst ∧ I r'.fst := by
    obtain ⟨s, actives⟩ := r
    rintro ⟨i, hs⟩
    have hw : ∃ peers, h ∈ s.waittime →
        origins s.waitlist h = some peers ∧ origins s.announced h = none := by
      by_cases hm : h ∈ s.waittime
      case neg => exact ⟨∅, fun h => absurd h hm⟩
      case pos =>
        have hm := i.waiting_iff.mp hm
        obtain ⟨peers, ho, _⟩ := i.waiting_filled.origins_of_mem hm
        exact ⟨peers, fun _ => ⟨ho, origins_eq_none fun hq => i.announced_excl hq hm⟩⟩
    obtain ⟨peers, hw⟩ := hw
    obtain ⟨r, he, hc⟩ := promote_spec (o := o) actives hw
    refine ⟨r, he, ?_⟩
    obtain hr | w := hc
    case inl => exact hr ▸ ⟨i, hs⟩
    case inr => exact ⟨w.sound i, promote _ _ _ _ i hs w⟩
  exact Loop.foldlM_rule (b := (s, ∅)) (fun _ r => Sound none r.fst ∧ I r.fst) body ⟨i, hs⟩

theorem waitTrigger_rule {I : State → Prop} (i : Sound none s) (hs : I s)
    (promote : ∀ s₁ s₂ h peers, Sound none s₁ → I s₁ → Promoted h peers s₁ s₂ → I s₂)
    (request : ∀ s₁ s₂ p hashes, Sound none s₁ → I s₁ → Requested p hashes s₁ s₂ → I s₂) :
    ∃ s', s.waitTrigger o = .ok s' ∧ Sound none s' ∧ I s' := by
  obtain ⟨⟨s₁, actives⟩, he, i₁, hs₁⟩ := promote_rule (o := o) (o.waitOrder.list s.waittime.keys)
    i hs promote
  unfold waitTrigger
  simp only [he, bind, Except.bind]
  split
  case isTrue  => exact scheduleFetches_rule i₁ hs₁ request
  case isFalse => exact ⟨s₁, rfl, i₁, hs₁⟩

end Wait

section Release

variable {req : FdRequest} {requests : GoMap Peer FdRequest}

def Live (req : FdRequest) (h : Hash) : Prop :=
  h ∈ req.hashes ∧ h ∉ req.stolen

instance : Decidable (Live req h) :=
  inferInstanceAs <| Decidable (_ ∧ _)

-- The requests after an answer: the others are untouched, and nothing is left to fetch from `p`.
structure Closes (p : Peer) (requests₁ requests₂ : GoMap Peer FdRequest) : Prop where
  other : ∀ {q}, q ≠ p → requests₂.get q = requests₁.get q
  done : ∀ {req}, requests₂.get p = some req → req.hashes = []

theorem Closes.del : Closes p requests (requests.del p) where
  other := GoMap.get_del_ne
  done := by simp

theorem Closes.dangle :
    Closes p requests (requests.set p { req with hashes := [] }) where
  other := GoMap.get_set_ne
  done := by simp

-- Taking all live hashes of a request out of flight keeps everything sound. What goes back into the
-- queue has to come from the origins of the hash.
theorem Requeued.sound {rest : Hash → Finset Peer} (r : Requeued (Live req) rest s s')
    (i : Sound a s) (ha : ∀ {q h}, Answers a q h → q = p) (hr : s.requests.get p = some req)
    (hc : Closes p s.requests s'.requests) (hf : s'.announces.Filled)
    (ho : ∀ {h}, rest h ≠ ∅ → ∃ peers, origins s.alternates h = some peers) : Sound none s' := by
  have other {q h req'} (hq : q ≠ p) (hg : s.requests.get q = some req') (hl : Live req' h) :
      s.fetching.get h = some q ∧ ¬Live req h := by
    have h₁ := i.fetched hg hl.left hl.right
    have h₂ := fun hl : Live req h => i.fetched hr hl.left hl.right
    grind
  constructor
  case waiting_iff      => rw [r.waittime, r.waitlist]; exact i.waiting_iff
  case waiting_filled   => rw [r.waitlist]; exact i.waiting_filled
  case slots_iff        => rw [r.waitslots, r.waitlist]; exact i.slots_iff
  case slots_filled     => rw [r.waitslots]; exact i.slots_filled
  case announces_filled => exact hf
  case announced_filled =>
    refine i.announced_filled.congr fun k => ?_
    have := r.announced k
    grind [Finset.nonempty_iff_ne_empty]
  case announced_excl =>
    intro k hk
    rw [r.waitlist]
    by_cases hc : Live req k ∧ rest k ≠ ∅
    case neg =>
      apply i.announced_excl
      have := (r.announced k).right hc
      grind
    case pos =>
      -- The hash comes from a set of alternates, which excludes the waiting list.
      obtain ⟨_, ho⟩ := ho hc.right
      exact i.alternates_excl ho |>.right.left
  case alternates_iff =>
    intro k
    have := @i.alternates_iff k
    have := r.fetching k
    have := r.alternates k
    grind
  case alternates_excl =>
    intro k peers hk
    rw [r.waitlist]
    have hn : ¬Live req k := by
      intro hl
      simp [origins, (r.alternates k).left hl] at hk
    rw [origins_congr ((r.alternates k).right hn)] at hk
    obtain ⟨hp, hw, hx⟩ := i.alternates_excl hk
    have := (r.announced k).right fun hc => hn hc.left
    grind
  case nodup =>
    intro q req' hg
    by_cases hq : q = p
    case pos => simp [hc.done (hq ▸ hg)]
    case neg => exact i.nodup <| hc.other hq ▸ hg
  case fetched =>
    intro q k req' hg hm hs
    by_cases hq : q = p
    case pos => simp [hc.done (hq ▸ hg)] at hm
    case neg =>
      obtain ⟨hk, hn⟩ := other hq (hc.other hq ▸ hg) ⟨hm, hs⟩
      exact .inl <| ((r.fetching k).right hn).trans hk
  case requested =>
    intro q k hk
    have hn : ¬Live req k := fun hl => by cases (r.fetching k).left hl ▸ hk
    obtain ⟨req', hg, hl⟩ := i.requested <| (r.fetching k).right hn ▸ hk
    have hq : q ≠ p := by
      rintro rfl
      cases hr.symm.trans hg
      exact hn hl
    exact ⟨req', (hc.other hq).trans hg, hl⟩

theorem Released.sound (r : Released p (Live req) s s₁) (i : Sound none s)
    (hr : s.requests.get p = some req) (hc : Closes p s₁.requests requests) :
    Sound none { s₁ with requests } := by
  have hs : Requeued (Live req) (s.others p) s { s₁ with requests } := { r.toRequeued with }
  refine hs.sound i (by simp) hr (r.requests ▸ hc) ?_ ?_
  case refine_1 => exact r.announces ▸ i.announces_filled
  case refine_2 =>
    intro h hz
    apply Option.ne_none_iff_exists'.mp
    intro hn
    simp [others, hn] at hz

theorem drop_rule {I : State → Prop} (i : Sound none s) (hs : s.requests.get p = none → I s)
    (release : ∀ req s₁, s.requests.get p = some req → Released p (Live req) s s₁ →
      I { s₁ with requests := s₁.requests.del p })
    (request : ∀ s₁ s₂ p hashes, Sound none s₁ → I s₁ → Requested p hashes s₁ s₂ → I s₂) :
    ∃ s', s.drop o p = .ok s' ∧ Sound none s' ∧ I s' := by
  unfold drop
  split
  case h_1 hr => exact ⟨s, rfl, i, hs hr⟩
  case h_2 req hr =>
    have r := release_spec p req.stolen req.hashes s
    exact scheduleFetches_rule (r.sound i hr .del) (release req _ hr r) request

structure Expired (o : Oracle) (p : Peer) (req : FdRequest) (s s₁ : State) : Prop where
  request : s.requests.get p = some req
  timedOut : timedOut o p req
  released : Released p (Live req) s s₁

theorem timeoutPeer_spec (i : Sound none s) :
    (∃ s', s.timeoutPeer o p = .ok s' ∧ (s' = s ∨ ∃ req s₁, Expired o p req s s₁ ∧
      s' = { s₁ with requests := s₁.requests.set p { req with hashes := [] } })) ∨
    s.timeoutPeer o p = .error .timeoutContainsAlternate ∧
      ∃ req h, s.requests.get p = some req ∧ Live req h ∧ h ∈ s.announced := by
  unfold timeoutPeer
  split
  case h_1 => exact .inl ⟨s, rfl, .inl rfl⟩
  case h_2 req hr =>
    split
    case isFalse => exact .inl ⟨s, rfl, .inl rfl⟩
    case isTrue ht =>
      have r := release_spec p req.stolen req.hashes s
      obtain he | ⟨he, h, hm, hs, ha⟩ := requeue_eq_release p req.stolen s (i.nodup hr)
        <;> simp only [he, bind, Except.bind]
      case inr => exact .inr ⟨trivial, req, h, hr, ⟨hm, hs⟩, ha⟩
      case inl =>
        refine .inl ⟨_, rfl, .inr ⟨req, _, ⟨hr, ht, r⟩, ?_⟩⟩
        -- No inner map of the trackers is empty, so that there is nothing to clean up.
        have hf := r.announces ▸ i.announces_filled
        split
        case isTrue hz => rw [hf.del_of_len_eq_zero hz]
        case isFalse   => rfl

theorem Expired.sound {req : FdRequest} (x : Expired o p req s s₁) (i : Sound none s) :
    Sound none { s₁ with requests := s₁.requests.set p { req with hashes := [] } } :=
  x.released.sound i x.request .dangle

-- The rule for timeouts: `I` holds while requests expire, and `J` while others are asked instead.
theorem timeoutTrigger_rule {I J : State → Prop} (i : Sound none s) (hs : I s)
    (expire : ∀ s s₁ p req, Sound none s → I s → Expired o p req s s₁ →
      I { s₁ with requests := s₁.requests.set p { req with hashes := [] } })
    (finish : ∀ s, Sound none s → I s → J s)
    (request : ∀ s₁ s₂ p hashes, Sound none s₁ → J s₁ → Requested p hashes s₁ s₂ → J s₂) :
    (∃ s', s.timeoutTrigger o = .ok s' ∧ Sound none s' ∧ J s') ∨
      s.timeoutTrigger o = .error .timeoutContainsAlternate := by
  have body p (l : List Peer) (s : State) : Sound none s ∧ I s →
      (∃ s', s.timeoutPeer o p = .ok s' ∧ Sound none s' ∧ I s') ∨
        s.timeoutPeer o p = .error .timeoutContainsAlternate := by
    rintro ⟨i, hs⟩
    obtain ⟨s', he, hc⟩ | ⟨he, _⟩ := timeoutPeer_spec (o := o) (p := p) i
    case inr => exact .inr he
    case inl =>
      refine .inl ⟨s', he, ?_⟩
      obtain rfl | ⟨req, s₁, x, rfl⟩ := hc
      case inl => exact ⟨i, hs⟩
      case inr => exact ⟨x.sound i, expire _ _ _ _ i hs x⟩
  unfold timeoutTrigger
  obtain ⟨s₁, he, i₁, hs₁⟩ | he := Loop.foldlM_rule_or (l := o.requestOrder.list s.requests.keys)
    (fun _ s => Sound none s ∧ I s) body ⟨i, hs⟩ <;> simp only [he, bind, Except.bind]
  case inl => exact .inl <| scheduleFetches_rule i₁ (finish s₁ i₁ hs₁) request
  case inr => exact .inr trivial

end Release

section Deliver

variable {d : FdDelivery} {req : FdRequest}

theorem Arrived.sound (w : Arrived h s s') (i : Sound a s) : Sound a s' := by
  constructor
  case waiting_iff      => simp [w.waittime, w.waitlist, i.waiting_iff]
  case waiting_filled   => exact w.waitlist ▸ i.waiting_filled.del
  case slots_filled     => exact w.waitslots_filled i.slots_filled
  case announces_filled => exact w.announces ▸ i.announces_filled
  case announced_filled => exact w.announced ▸ i.announced_filled
  case alternates_iff   => rw [w.alternates, w.fetching]; exact i.alternates_iff
  case nodup            => rw [w.requests]; exact i.nodup
  case fetched          => rw [w.requests, w.fetching]; exact i.fetched
  case requested        => rw [w.requests, w.fetching]; exact i.requested
  case slots_iff =>
    intro q k
    rw [w.waitslots, w.waitlist, i.slots_iff]
    grind
  case announced_excl =>
    intro k
    rw [w.announced, w.waitlist]
    have := @i.announced_excl k
    grind
  case alternates_excl =>
    intro k peers hk
    rw [w.alternates] at hk
    rw [w.announced, w.waitlist]
    have := i.alternates_excl hk
    grind

theorem Swept.request (w : Swept d h s s') (hr : s'.requests.get p = some req) :
    ∃ req₀, s.requests.get p = some req₀ ∧ req = mark d s h p req₀ := by
  rw [w.requests] at hr
  obtain ⟨req₀, hr₀, he⟩ := Option.map_eq_some_iff.mp hr
  exact ⟨req₀, hr₀, he.symm⟩

theorem mark_hashes : (mark d s h p req).hashes = req.hashes := by
  unfold mark
  split <;> rfl

theorem Swept.sound (w : Swept d h s s') (hm : h ∈ d.hashes) (i : Sound (some d) s) :
    Sound (some d) s' := by
  constructor
  case waiting_iff      => rw [w.waittime, w.waitlist]; exact i.waiting_iff
  case waiting_filled   => exact w.waitlist ▸ i.waiting_filled
  case slots_iff        => rw [w.waitslots, w.waitlist]; exact i.slots_iff
  case slots_filled     => exact w.waitslots ▸ i.slots_filled
  case announces_filled => exact w.announces_filled i.announces_filled
  case announced_filled => exact w.announced ▸ i.announced_filled.del
  case announced_excl =>
    intro k
    rw [w.announced, w.waitlist]
    have := @i.announced_excl k
    grind
  case alternates_iff =>
    intro k
    have := @i.alternates_iff k
    rw [w.alternates, w.fetching]
    grind
  case alternates_excl =>
    intro k peers hk
    rw [w.alternates] at hk
    rw [w.announced, w.waitlist]
    have := @i.alternates_excl k peers
    grind
  case nodup =>
    intro p req hr
    obtain ⟨req₀, hr₀, rfl⟩ := w.request hr
    rw [mark_hashes]
    exact i.nodup hr₀
  case fetched =>
    intro p k req hr hm hs
    obtain ⟨req₀, hr₀, rfl⟩ := w.request hr
    have hm := mark_hashes ▸ hm
    have := i.fetched hr₀ hm
    rw [w.fetching]
    simp only [mark, Answers, Option.some.injEq, exists_eq_left'] at hs this ⊢
    grind
  case requested =>
    intro p k hk
    rw [w.fetching, GoMap.get_del] at hk
    split at hk
    case isTrue     => contradiction
    case isFalse he =>
      obtain ⟨req, hr, hm, hs⟩ := i.requested hk
      refine ⟨_, by rw [w.requests, hr]; rfl, mark_hashes ▸ hm, ?_⟩
      unfold mark
      grind

theorem Sound.weaken (i : Sound none s) : Sound a s :=
  { i with fetched := fun hr hm hs => .inl <| i.fetched hr hm hs |>.resolve_right (by simp) }

theorem Sound.finish (i : Sound (some d) s) (hr : d.direct → s.requests.get d.origin = none) :
    Sound none s := by
  refine { i with fetched := ?_ }
  intro p h req hg hm hs
  refine .inl <| i.fetched hg hm hs |>.resolve_right ?_
  rintro ⟨⟨d', hd', hd, rfl, _⟩, _⟩
  cases hd'
  cases (hr hd).symm.trans hg

theorem settle_answered (i : Sound a s) (hr : s.requests.get d.origin = some req) :
    ∃ s', req.hashes.zipIdx.foldlM (settleHash d req)
        { s with requests := s.requests.del d.origin } = .ok s' ∧
      Answered d req (Live req) { s with requests := s.requests.del d.origin } s' := by
  have hn := i.nodup hr
  have hi : ∀ e ∈ req.hashes.zipIdx, req.hashes.idxOf e.fst = e.snd := by
    rintro ⟨h, n⟩ hm
    obtain ⟨hi, he⟩ := List.getElem?_eq_some_iff.mp <| mem_zipIdx_iff_getElem?.mp hm
    simpa only [he] using hn.idxOf_getElem n hi
  have hq : ∀ e ∈ req.hashes.zipIdx, origins s.alternates e.fst ≠ none → e.fst ∉ s.announced := by
    intro e _ ho
    obtain ⟨peers, ho⟩ := Option.ne_none_iff_exists'.mp ho
    exact i.alternates_excl ho |>.right.right
  obtain ⟨s', he, w⟩ := settle_spec (d := d) (s := { s with requests := s.requests.del d.origin }) hi
    (zipIdx_map_fst .. ▸ hn) hq
  rw [zipIdx_map_fst] at w
  exact ⟨s', he, w⟩

theorem Answered.sound
    (w : Answered d req (Live req) { s with requests := s.requests.del d.origin } s')
    (i : Sound (some d) s) (hr : s.requests.get d.origin = some req) : Sound none s' := by
  have hs : Requeued (Live req) (remaining d req s) s s' := { w.toRequeued with }
  refine hs.sound i ?_ hr (w.requests ▸ .del) (w.announces_filled i.announces_filled) ?_
  case refine_1 => simp +contextual [Answers]
  case refine_2 =>
    intro h hz
    apply Option.ne_none_iff_exists'.mp
    intro hn
    simp [remaining, others, hn] at hz

-- The rule for the hashes of a delivery, whose invariant has the ones that are still to come.
theorem deliver_rule {I : List Hash → State → Prop} (i : Sound none s) (hs : I d.hashes s)
    (arrive : ∀ s s' h l, Sound (some d) s → I (h :: l) s → h ∈ d.hashes → Arrived h s s' → I l s')
    (sweep : ∀ s s' h l, Sound (some d) s → I (h :: l) s → h ∈ d.hashes → Swept d h s s' →
      I l s') :
    ∃ s', (d.hashes.zip d.metas).foldlM (deliverHash o d) s = .ok s' ∧ Sound (some d) s' ∧
      I [] s' := by
  let K (l : List (Hash × FdMetadata)) (s : State) :=
    l ⊆ d.hashes.zip d.metas ∧ Sound (some d) s ∧ I (l.map Prod.fst) s
  have body e l s : K (e :: l) s → ∃ s', s.deliverHash o d e = .ok s' ∧ K l s' := by
    rintro ⟨hl, i, hs⟩
    obtain ⟨h, md⟩ := e
    obtain ⟨hm, hl⟩ := cons_subset.mp hl
    have hm := of_mem_zip hm |>.left
    obtain ⟨s', he, hc⟩ := deliverHash_spec (o := o) (d := d) (h := h) md fun _ =>
      i.mem_requests
    refine ⟨s', he, hl, ?_⟩
    obtain w | w := hc
    case inl => exact ⟨w.sound i, arrive _ _ _ _ i hs hm w⟩
    case inr => exact ⟨w.sound hm i, sweep _ _ _ _ i hs hm w⟩
  have hz : (d.hashes.zip d.metas).map Prod.fst = d.hashes :=
    map_fst_zip (Nat.le_of_eq d.len_eq.symm)
  obtain ⟨s₁, he, _, hs₁⟩ := Loop.foldlM_rule (l := d.hashes.zip d.metas) K body
    ⟨List.Subset.refl _, i.weaken, hz.symm ▸ hs⟩
  exact ⟨s₁, he, hs₁⟩

-- The rule for deliveries: `I` holds while the hashes are processed, and `J` while the hashes that
-- were left out are requested again.
theorem cleanup_rule {I : List Hash → State → Prop} {J : State → Prop} (i : Sound none s)
    (hs : I d.hashes s)
    (arrive : ∀ s s' h l, Sound (some d) s → I (h :: l) s → h ∈ d.hashes → Arrived h s s' → I l s')
    (sweep : ∀ s s' h l, Sound (some d) s → I (h :: l) s → h ∈ d.hashes → Swept d h s s' → I l s')
    (skip : ∀ s, Sound none s → I [] s → (d.direct → s.requests.get d.origin = none) → J s)
    (answer : ∀ s s' req, Sound (some d) s → I [] s → d.direct →
      s.requests.get d.origin = some req →
      Answered d req (Live req) { s with requests := s.requests.del d.origin } s' → J s')
    (request : ∀ s₁ s₂ p hashes, Sound none s₁ → J s₁ → Requested p hashes s₁ s₂ → J s₂) :
    ∃ s', s.cleanup o d = .ok s' ∧ Sound none s' ∧ J s' := by
  obtain ⟨s₁, he, i₁, hs₁⟩ := deliver_rule (o := o) i hs arrive sweep
  unfold cleanup
  simp only [he, bind, Except.bind]
  split
  case isFalse hd =>
    have i₁ := i₁.finish fun h => absurd h hd
    exact ⟨s₁, rfl, i₁, skip s₁ i₁ hs₁ fun h => absurd h hd⟩
  case isTrue hd =>
    split
    case h_1 hr =>
      have i₁ := i₁.finish fun _ => hr
      exact ⟨s₁, rfl, i₁, skip s₁ i₁ hs₁ fun _ => hr⟩
    case h_2 req hr =>
      obtain ⟨s₂, he₂, w⟩ := settle_answered (d := d) i₁ hr
      simp only [he₂]
      exact scheduleFetches_rule (w.sound i₁ hr) (answer _ _ _ i₁ hs₁ hd hr w) request

end Deliver

theorem step_sound {e : Oracle × Event} (i : Sound none s) :
    (∃ s', machine.step s e = .ok s' ∧ Sound none s') ∨
      machine.step s e = .error .timeoutContainsAlternate := by
  obtain ⟨o, e⟩ := e
  cases e
  case notify ann =>
    obtain ⟨s', he, i', _⟩ := notify_rule (I := fun _ => True) (o := o) ann i trivial
      (fun _ _ _ _ _ => trivial) (fun _ _ _ _ _ _ _ => trivial)
    exact .inl ⟨s', he, i'⟩
  case waitTrigger =>
    obtain ⟨s', he, i', _⟩ := waitTrigger_rule (I := fun _ => True) (o := o) i trivial
      (fun _ _ _ _ _ _ _ => trivial) (fun _ _ _ _ _ _ _ => trivial)
    exact .inl ⟨s', he, i'⟩
  case timeoutTrigger =>
    obtain ⟨s', he, i', _⟩ | he := timeoutTrigger_rule (I := fun _ => True) (J := fun _ => True)
      (o := o) i trivial (fun _ _ _ _ _ _ _ => trivial) (fun _ _ _ => trivial)
      (fun _ _ _ _ _ _ _ => trivial)
    case inl => exact .inl ⟨s', he, i'⟩
    case inr => exact .inr he
  case cleanup d =>
    obtain ⟨s', he, i', _⟩ := cleanup_rule (I := fun _ _ => True) (J := fun _ => True) (o := o)
      (d := d) i trivial (fun _ _ _ _ _ _ _ _ => trivial) (fun _ _ _ _ _ _ _ _ => trivial)
      (fun _ _ _ _ => trivial) (fun _ _ _ _ _ _ _ _ => trivial) (fun _ _ _ _ _ _ _ => trivial)
    exact .inl ⟨s', he, i'⟩
  case drop p =>
    obtain ⟨s', he, i', _⟩ := drop_rule (I := fun _ => True) (o := o) (p := p) i (fun _ => trivial)
      (fun _ _ _ _ => trivial) (fun _ _ _ _ _ _ _ => trivial)
    exact .inl ⟨s', he, i'⟩

theorem reachable_sound {G : State → Oracle × Event → Prop} (r : machine.Reachable G s) :
    Sound none s := by
  refine r.invariant .init ?_
  intro s e s' i _ hs
  obtain ⟨s₁, he, i₁⟩ | he := step_sound (e := e) i
  case inl => exact Except.ok.inj (he.symm.trans hs) ▸ i₁
  case inr => cases he.symm.trans hs

end Fetcher.State
