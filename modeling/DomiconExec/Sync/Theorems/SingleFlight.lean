import DomiconExec.Sync.ChainSyncer

namespace Sync.ChainSyncer

open List Transition System

variable {u : Setup} {s : ChainSyncer} {i c : Nat} {w : Worker}

-- The result of the goroutine is in the channel, or it will be sent to the channel, which is empty.
def Bound (s : ChainSyncer) (c i : Nat) (w : Worker) : Prop :=
  (w.pc = .sent → s.channels[c]? = some (some i)) ∧
  (w.pc ≠ .sent → s.channels[c]? = some none ∧ (w.ch = none ∨ w.ch = some (some c)))

-- The result has been received, or `loop` still listens to the channel for it.
def Kept (s : ChainSyncer) (i : Nat) (w : Worker) : Prop :=
  i ∈ s.received ∨ s.pc ≠ .returned ∧ ∃ c, s.doneCh = some c ∧ Bound s c i w

structure SingleFlight (s : ChainSyncer) : Prop where
  exclusive : ∀ (i j : Nat) (v w : Worker), s.workers[i]? = some v → s.workers[j]? = some w →
    v.pc.Critical → w.pc.Critical → i = j
  kept : ∀ i w, s.workers[i]? = some w → Kept s i w

-- When a tick finds `forced` cleared, no synchronization is on its way.
def Calm (s : ChainSyncer) (e : Event) : Prop :=
  s.pc = .ticked → e = .loop .next → ¬s.forced → s.doneCh = none

-- Nothing to receive, the last result just received, or the last goroutine without its result.
inductive Phase (s : ChainSyncer) : Prop
  | idle : s.doneCh = none → s.pc ≠ .received → s.pc ≠ .awaiting →
    (∀ i < s.workers.length, i ∈ s.received) → Phase s
  | received (c : Nat) : s.doneCh = some c → s.pc = .received ∨ s.pc = .returned →
    (∀ i < s.workers.length, i ∈ s.received) → Phase s
  | running (c : Nat) (w : Worker) : s.doneCh = some c →
    s.pc = .select ∨ s.pc = .ticked ∨ s.pc = .awaiting → s.workers.length = c + 1 →
    (∀ i < c, i ∈ s.received) → s.workers[c]? = some w → Bound s c c w → Phase s

structure Single (s : ChainSyncer) : Prop where
  channels : s.channels.length = s.workers.length
  started : ∀ i ∈ s.received, i < s.workers.length
  sent : ∀ i w, s.workers[i]? = some w → i ∈ s.received → w.pc = .sent
  phase : Phase s

theorem Single.singleFlight (h : Single s) : SingleFlight s := by
  -- A goroutine whose result has been received is at its end.
  have hc (i : Nat) (w : Worker) (hw : s.workers[i]? = some w) (hc : w.pc.Critical) :
      i ∉ s.received := by
    intro hr
    rw [h.sent i w hw hr] at hc
    exact hc
  have hl (i : Nat) (w : Worker) (hw : s.workers[i]? = some w) : i < s.workers.length :=
    (List.getElem?_eq_some_iff.mp hw).fst
  cases h.phase
  case idle _ _ _ hr =>
    refine ⟨fun i _ v _ hv _ hcv _ => ?_, fun i w hw => .inl (hr i (hl i w hw))⟩
    exact absurd (hr i (hl i v hv)) (hc i v hv hcv)
  case received _ _ _ hr =>
    refine ⟨fun i _ v _ hv _ hcv _ => ?_, fun i w hw => .inl (hr i (hl i w hw))⟩
    exact absurd (hr i (hl i v hv)) (hc i v hv hcv)
  case running c w hd hp hn hr hw hb =>
    have he (i : Nat) (v : Worker) (hv : s.workers[i]? = some v) (hi : i ∉ s.received) : i = c := by
      have := hl i v hv
      by_contra hne
      exact hi (hr i (by omega))
    refine ⟨fun i j v w hv hw hcv hcw => ?_, fun i v hv => ?_⟩
    case refine_1 => exact (he i v hv (hc i v hv hcv)).trans (he j w hw (hc j w hw hcw)).symm
    case refine_2 =>
      by_cases hi : i ∈ s.received
      case pos => exact .inl hi
      case neg =>
        cases he i v hv hi
        cases hw.symm.trans hv
        exact .inr ⟨fun he => by simp [he] at hp, _, hd, hb⟩

theorem Single.init : Single init where
  channels := rfl
  started := by simp [ChainSyncer.init]
  sent := by simp [ChainSyncer.init]
  phase := by apply Phase.idle <;> simp [ChainSyncer.init]

theorem Single.receive {next : Pc} (h : Single s) (hp : s.pc = .select ∨ s.pc = .awaiting)
    (hn : next = .received ∨ next = .returned) : Single (s.receive next) := by
  cases h.phase
  case idle hd _ _ _ => simpa only [ChainSyncer.receive, hd] using h
  case received _ hd hp' _ =>
    obtain hp | hp := hp <;> simp [hp] at hp'
  case running c w hd _ hl hr hw hb =>
    by_cases hs : w.pc = .sent
    case neg => simpa only [ChainSyncer.receive, hd, (hb.right hs).left] using h
    case pos =>
      simp only [ChainSyncer.receive, hd, hb.left hs]
      refine ⟨by simpa using h.channels, fun i hi => ?_, fun i v hv hi => ?_,
        .received c rfl hn fun i hi => ?_⟩
      case refine_1 =>
        obtain hi | hi := mem_append.mp hi
        case inl => exact h.started i hi
        case inr =>
          cases mem_singleton.mp hi
          exact (List.getElem?_eq_some_iff.mp hw).fst
      case refine_2 =>
        obtain hi | hi := mem_append.mp hi
        case inl => exact h.sent i v hv hi
        case inr =>
          cases mem_singleton.mp hi
          cases hw.symm.trans hv
          exact hs
      case refine_3 =>
        have hi : i < c + 1 := hl ▸ hi
        obtain hi | rfl := Nat.lt_succ_iff_lt_or_eq.mp hi
        case inl => exact mem_append_left _ (hr i hi)
        case inr => simp

theorem Single.startSync (h : Single s) (hd : s.doneCh = none) :
    Single { s.startSync u with timer := .set, pc := .select } := by
  have hr : ∀ i < s.workers.length, i ∈ s.received := by
    cases h.phase
    case idle hr           => exact hr
    case received hd' _ _  => simp [hd] at hd'
    case running hd' _ _ _ _ _ => simp [hd] at hd'
  have hs : (Worker.start u).pc ≠ .sent := by
    simp only [Worker.start]
    split <;> simp
  refine ⟨by simp [ChainSyncer.startSync, h.channels], fun i hi => ?_, fun i w hw hi => ?_, ?_⟩
  case refine_1 =>
    have := h.started i hi
    simp only [ChainSyncer.startSync, length_append]
    omega
  case refine_2 =>
    have hl := h.started i hi
    simp only [ChainSyncer.startSync, List.getElem?_append_left hl] at hw
    exact h.sent i w hw hi
  case refine_3 =>
    refine .running s.workers.length (.start u) rfl (.inl rfl) ?_ hr ?_
      ⟨fun h => absurd h hs, fun _ => ?_⟩
    case refine_1 => simp [ChainSyncer.startSync]
    case refine_2 => simp [ChainSyncer.startSync]
    case refine_3 => simp [ChainSyncer.startSync, ← h.channels, Worker.start]

theorem Single.settled (h : Single s)
    (hp : s.pc = .received ∨ s.pc = .released ∨ s.pc = .starting) :
    ∀ i < s.workers.length, i ∈ s.received := by
  cases h.phase
  case idle hr             => exact hr
  case received hr         => exact hr
  case running hp' _ _ _ _ => obtain hp | hp | hp := hp <;> simp [hp] at hp'

theorem Single.doneCh_eq_none (h : Single s) (hp : s.pc = .released ∨ s.pc = .starting) :
    s.doneCh = none := by
  cases h.phase
  case idle hd _ _ _       => exact hd
  case received hp' _      => obtain hp | hp := hp <;> simp [hp] at hp'
  case running hp' _ _ _ _ => obtain hp | hp := hp <;> simp [hp] at hp'

theorem Single.listening (h : Single s) (hp : s.pc = .select ∨ s.pc = .ticked) :
    (s.doneCh = none ∧ ∀ i < s.workers.length, i ∈ s.received) ∨
    ∃ c w, s.doneCh = some c ∧ s.workers.length = c + 1 ∧ (∀ i < c, i ∈ s.received) ∧
      s.workers[c]? = some w ∧ Bound s c c w := by
  cases h.phase
  case idle hd _ _ hr               => exact .inl ⟨hd, hr⟩
  case received hp' _               => obtain hp | hp := hp <;> simp [hp] at hp'
  case running c w hd _ hl hr hw hb => exact .inr ⟨c, w, hd, hl, hr, hw, hb⟩

-- A step that does not touch the goroutines and their channels.
theorem Single.turn {t : ChainSyncer} (h : Single s) (hc : t.channels = s.channels)
    (hw : t.workers = s.workers) (hr : t.received = s.received) (hp : Phase t) : Single t where
  channels := hc ▸ hw ▸ h.channels
  started := hr ▸ hw ▸ h.started
  sent := hr ▸ hw ▸ h.sent
  phase := hp

theorem Single.loop {a : Action} (h : Single s) (hc : Calm s (.loop a)) :
    Single (s.loop u a) := by
  unfold ChainSyncer.loop
  split
  case h_1 hp => exact h.receive (.inl hp) (.inl rfl)
  case h_2 hp =>
    split
    case isFalse => exact h
    case isTrue  =>
      refine h.turn rfl rfl rfl ?_
      obtain ⟨hd, hr⟩ | ⟨c, w, hd, hl, hr, hw, hb⟩ := h.listening (.inl hp)
      case inl => exact .idle hd (by simp) (by simp) hr
      case inr => exact .running c w hd (.inr <| .inl rfl) hl hr hw hb
  case h_3 hp =>
    dsimp only
    split
    case isFalse => exact h
    case isTrue  =>
      refine h.turn rfl rfl rfl ?_
      obtain ⟨hd, hr⟩ | ⟨c, w, hd, hl, hr, hw, hb⟩ := h.listening (.inl hp)
      case inl => exact .idle hd (by simp [hd]) (by simp [hd]) hr
      case inr => exact .running c w hd (.inr <| .inr <| by simp [hd]) hl hr hw hb
  case h_4 hp =>
    exact h.turn rfl rfl rfl <| .idle rfl (by simp) (by simp) (h.settled (.inl hp))
  case h_5 hp =>
    refine h.turn rfl rfl rfl <| .idle ?_ (by simp) (by simp) (h.settled <| .inr <| .inl hp)
    exact h.doneCh_eq_none (.inl hp)
  case h_6 hp =>
    split
    case isTrue =>
      refine h.turn rfl rfl rfl ?_
      obtain ⟨hd, hr⟩ | ⟨c, w, hd, hl, hr, hw, hb⟩ := h.listening (.inr hp)
      case inl => exact .idle hd (by simp) (by simp) hr
      case inr => exact .running c w hd (.inl rfl) hl hr hw hb
    case isFalse hf =>
      refine h.turn rfl rfl rfl ?_
      have hd := hc hp rfl hf
      obtain ⟨_, hr⟩ | ⟨c, w, hd', _⟩ := h.listening (.inr hp)
      case inl => exact .idle hd (by simp) (by simp) hr
      case inr => simp [hd] at hd'
  case h_7 hp => exact h.startSync <| h.doneCh_eq_none (.inr hp)
  case h_8 hp => exact h.receive (.inr hp) (.inr rfl)
  case h_9    => exact h

theorem chunkStep_ne_sent {cancelled : Bool} {c : Chunk} {e : Worker.Event} :
    Worker.chunkStep cancelled c e ≠ .sent := by
  unfold Worker.chunkStep
  split
  all_goals try simp
  all_goals split <;> simp

theorem doSync_ne_sent {cancelled forced : Bool} {pc : Worker.Pc} {e : Worker.Event}
    (h : pc ≠ .sent) : (Worker.doSync u cancelled forced pc e).fst ≠ .sent := by
  unfold Worker.doSync
  split
  case h_1      => dsimp only; split_ifs <;> simp
  case h_6      => dsimp only; split_ifs <;> simp
  case h_7      => exact chunkStep_ne_sent
  case h_11     => dsimp only; split <;> simp
  case h_16     => exact h
  all_goals simp

theorem workers_set (hw : s.workers[i]? = some w) : s.workers.set i w = s.workers := by
  obtain ⟨hl, he⟩ := List.getElem?_eq_some_iff.mp hw
  rw [← he, set_getElem_self]

theorem goroutine_sent {j : Job} (hw : s.workers[i]? = some w) (hs : w.pc = .sent) :
    s.goroutine u i j = s := by
  obtain ⟨pc, ch⟩ := w
  cases hs
  cases j
  case evaluate => simp [goroutine, hw, evaluate]
  case send     => simp [goroutine, hw, send]
  case work     => simp [goroutine, hw, work, Worker.doSync, workers_set hw]

-- The running goroutine changes in a way that keeps its result within reach.
theorem Single.update {t : ChainSyncer} {w' : Worker} (h : Single s) (hw : s.workers[i]? = some w)
    (hs : w.pc ≠ .sent) (hd : t.doneCh = s.doneCh) (hp : t.pc = s.pc)
    (hr : t.received = s.received) (hw' : t.workers = s.workers.set i w')
    (hc : t.channels.length = s.channels.length) (hb : s.doneCh = some i → Bound s i i w → Bound t i i w') :
    Single t := by
  have hi : i ∉ s.received := fun hr => hs (h.sent i w hw hr)
  have hl := (List.getElem?_eq_some_iff.mp hw).fst
  refine ⟨by rw [hc, hw', length_set, h.channels], ?_, fun j v hv hj => ?_, ?_⟩
  case refine_1 => rw [hw', length_set, hr]; exact h.started
  case refine_2 =>
    rw [hr] at hj
    have hne : i ≠ j := fun he => hi (he ▸ hj)
    rw [hw', List.getElem?_set_ne hne] at hv
    exact h.sent j v hv hj
  case refine_3 =>
    cases h.phase
    case idle hr     => exact absurd (hr i hl) hi
    case received hr => exact absurd (hr i hl) hi
    case running c v hd' hp' hn hr' hv hb' =>
      obtain rfl : i = c := by
        by_contra hne
        exact hi (hr' i (by omega))
      cases hw.symm.trans hv
      refine .running i w' (hd.trans hd') (hp ▸ hp') ?_ (hr ▸ hr') ?_ (hb hd' hb')
      case refine_1 => rw [hw', length_set, hn]
      case refine_2 => rw [hw', List.getElem?_set_self hl]

theorem Single.evaluate (h : Single s) (hw : s.workers[i]? = some w) (hs : w.pc ≠ .sent) :
    Single (s.evaluate i w) := by
  have hb (hd : s.doneCh = some i) (hb : Bound s i i w) :
      Bound { s with workers := s.workers.set i { w with ch := some s.doneCh } } i i
        { w with ch := some s.doneCh } :=
    ⟨fun he => absurd he hs, fun _ => ⟨(hb.right hs).left, .inr (congrArg some hd)⟩⟩
  unfold ChainSyncer.evaluate
  split
  case h_1 => exact h.update hw hs rfl rfl rfl rfl rfl hb
  case h_2 => exact h.update hw hs rfl rfl rfl rfl rfl hb
  case h_3 => exact h

theorem Single.work {e : Worker.Event} (h : Single s) (hw : s.workers[i]? = some w)
    (hs : w.pc ≠ .sent) : Single (s.work u i w e) := by
  refine h.update hw hs rfl rfl rfl rfl rfl fun _ hb => ?_
  have hn := @doSync_ne_sent u s.cancelled s.forced w.pc e hs
  exact ⟨fun he => absurd he hn, fun _ => hb.right hs⟩

theorem Single.send (h : Single s) (hw : s.workers[i]? = some w) (hs : w.pc ≠ .sent) :
    Single (s.send i w) := by
  unfold ChainSyncer.send
  split
  case h_2 => exact h
  case h_1 c _ hch _ =>
    split
    case isFalse => exact h
    case isTrue hfree =>
      refine h.update hw hs rfl rfl rfl rfl (length_set ..) fun hd hb => ?_
      obtain hn | hn := (hb.right hs).right
      case inl => simp [hch] at hn
      case inr =>
        obtain rfl : c = i := by simpa [hch] using hn
        have hl := (List.getElem?_eq_some_iff.mp hfree).fst
        exact ⟨fun _ => List.getElem?_set_self hl, fun he => absurd rfl he⟩

theorem Single.goroutine {j : Job} (h : Single s) : Single (s.goroutine u i j) := by
  cases hw : s.workers[i]?
  case none => simpa only [ChainSyncer.goroutine, hw] using h
  case some w =>
    by_cases hs : w.pc = .sent
    case pos => rwa [goroutine_sent hw hs]
    case neg =>
      cases j <;> simp only [ChainSyncer.goroutine, hw]
      case evaluate => exact h.evaluate hw hs
      case work e   => exact h.work hw hs
      case send     => exact h.send hw hs

theorem Single.outside {t : ChainSyncer} (h : Single s) (hd : t.doneCh = s.doneCh)
    (hp : t.pc = s.pc) (hc : t.channels = s.channels) (hw : t.workers = s.workers)
    (hr : t.received = s.received) : Single t := by
  refine h.turn hc hw hr ?_
  cases h.phase
  case idle hd' h₁ h₂ hr'               => exact .idle (hd ▸ hd') (hp ▸ h₁) (hp ▸ h₂) (hw ▸ hr ▸ hr')
  case received c hd' h₁ hr'            => exact .received c (hd ▸ hd') (hp ▸ h₁) (hw ▸ hr ▸ hr')
  case running c w hd' h₁ hl hr' hw' hb =>
    refine .running c w (hd ▸ hd') (hp ▸ h₁) (hw ▸ hl) (hr ▸ hr') (hw ▸ hw') ?_
    unfold Bound
    rwa [hc]

theorem Single.step {e : Event} (h : Single s) (hc : Calm s e) : Single (s.step u e) := by
  cases e
  case expire        => exact h.outside rfl rfl rfl rfl rfl
  case quitSync      => exact h.outside rfl rfl rfl rfl rfl
  case loop a        => exact h.loop hc
  case goroutine i j => exact h.goroutine

theorem singleFlight_of_calm (u : Setup) (s : ChainSyncer) (r : (machine u).Reachable Calm s) :
    SingleFlight s := by
  apply Single.singleFlight
  apply r.invariant .init
  intro s e s' h hc hs
  cases hs
  exact h.step hc

def mainnet : Setup where
  chain := .ethereum
  genesisBlockNumber := 1

theorem calm_of_ne {e : Event} (h : s.pc ≠ .ticked) : Calm s e :=
  fun hp => absurd hp h

-- The second goroutine passes the guard after the result of the first one was received.
theorem singleFlight_second : ∃ s, (machine mainnet).Reachable Calm s ∧
    (∃ v w, s.workers = [v, w] ∧ v.pc = .sent ∧ w.pc.Critical) ∧ SingleFlight s := by
  have tick {s s' : ChainSyncer} (r : (machine mainnet).Reachable Calm s)
      (h : (machine mainnet).run s [.expire, .loop .tick] = .ok s') :
      (machine mainnet).Reachable Calm s' := r.run (by simp [Calm]) h
  have work {s s' : ChainSyncer} (r : (machine mainnet).Reachable Calm s)
      (h : (machine mainnet).run s [.goroutine 0 (.work .guard),
        .goroutine 0 (.work (.header (.error ⟨"timeout"⟩))), .goroutine 0 .evaluate,
        .goroutine 0 .send, .loop .receive] = .ok s') :
      (machine mainnet).Reachable Calm s' := r.run (by simp [Calm]) h
  have r₁ := tick .init rfl
  have r₂ := r₁.step (e := .loop .next) (fun _ _ _ => rfl) rfl
  have r₃ := r₂.step (e := .loop .next) (calm_of_ne (by decide)) rfl
  have r₄ := work r₃ rfl
  have r₅ := r₄.step (e := .loop .next) (calm_of_ne (by decide)) rfl
  have r₆ := r₅.step (e := .loop .next) (calm_of_ne (by decide)) rfl
  have r₇ := tick r₆ rfl
  have r₈ := r₇.step (e := .loop .next) (fun _ _ _ => rfl) rfl
  have r₉ := r₈.step (e := .loop .next) (calm_of_ne (by decide)) rfl
  have r := r₉.step (e := .goroutine 1 (.work .guard)) (calm_of_ne (by decide)) rfl
  exact ⟨_, r, ⟨_, _, rfl, rfl, trivial⟩, singleFlight_of_calm mainnet _ r⟩

-- The second tick finds `forced` cleared, because the first goroutine waits for the head. If both
-- are started before that, `loop` receives the first result from the second channel, and the second
-- goroutine is left without one.
theorem not_singleFlight_waiting :
    ¬(∀ (u : Setup) (s : ChainSyncer), (machine u).Reachable anyStep s → SingleFlight s) ∧
    ¬(∀ (u : Setup) (s : ChainSyncer), (machine u).Reachable anyStep s →
      ∀ i w, s.workers[i]? = some w → Kept s i w) := by
  refine ⟨fun h => ?_, fun h => ?_⟩
  case refine_1 =>
    obtain ⟨s, hs, v, w, hv, hw, hcv, hcw⟩ : ∃ s,
        (machine mainnet).run (machine mainnet).init [
          .expire, .loop .tick, .loop .next, .loop .next,
          .goroutine 0 (.work .guard), .goroutine 0 (.work (.header (.ok 5))),
          .expire, .loop .tick, .loop .next, .loop .next,
          .goroutine 1 (.work .guard)
        ] = .ok s ∧ ∃ v w, s.workers[0]? = some v ∧ s.workers[1]? = some w ∧
          v.pc.Critical ∧ w.pc.Critical :=
      ⟨_, rfl, _, _, rfl, rfl, trivial, trivial⟩
    have r := Reachable.run .init (fun _ _ _ => trivial) hs
    exact absurd ((h mainnet s r).exclusive 0 1 v w hv hw hcv hcw) (by decide)
  case refine_2 =>
    obtain ⟨s, hs, hd, w, hw, hn⟩ : ∃ s,
        (machine mainnet).run (machine mainnet).init [
          .expire, .loop .tick, .loop .next, .loop .next,
          .expire, .loop .tick, .loop .next, .loop .next,
          .goroutine 0 (.work .guard), .goroutine 0 (.work (.header (.error ⟨"timeout"⟩))),
          .goroutine 0 .evaluate, .goroutine 0 .send,
          .loop .receive, .loop .next, .loop .next,
          .goroutine 1 (.work .guard), .goroutine 1 (.work (.header (.error ⟨"timeout"⟩))),
          .goroutine 1 .evaluate, .goroutine 1 .send
        ] = .ok s ∧ s.doneCh = none ∧ ∃ w, s.workers[1]? = some w ∧ 1 ∉ s.received :=
      ⟨_, rfl, rfl, _, rfl, by decide⟩
    have r := Reachable.run .init (fun _ _ _ => trivial) hs
    obtain hr | ⟨_, c, hc, _⟩ := h mainnet s r 1 w hw
    case inl => exact hn hr
    case inr => simp [hd] at hc

end Sync.ChainSyncer
