import DomiconExec.Discover.UdpV4

namespace Discover.UDPv4

open List

variable {visit : ReplyMatcher → Visit} {p : ReplyMatcher} {ps : List ReplyMatcher}
variable {r : Reply} {answer : ReplyMatcher → Bool × Bool} {now : Int}

-- The outcome of a loop that visits all elements.
def full (visit : ReplyMatcher → Visit) (ps : List ReplyMatcher) : Outcome where
  plist := ps.filter (visit · |>.removed.isNone)
  invoked := ps.filter (visit · |>.matched.isSome)
  sent := ps.filterMap fun p => (visit p).removed.map (p.errc, ·)
  matched := ps.any (visit · |>.matched.getD false)

def Clear (visit : ReplyMatcher → Visit) (ps : List ReplyMatcher) : Prop :=
  ps.Pairwise fun p q => (visit p).removed.isSome → visit q = {}

theorem clear_of_idle (h : ∀ q ∈ ps, visit q = {}) : Clear visit ps := by
  induction ps
  case nil => exact .nil
  case cons q ps hi =>
    have hps := (forall_mem_cons.mp h).right
    exact pairwise_cons.mpr ⟨fun q hq _ => hps q hq, hi hps⟩

theorem full_eq_of_idle (h : ∀ q ∈ ps, visit q = {}) : full visit ps = ⟨ps, [], [], false⟩ := by
  induction ps
  case nil => rfl
  case cons q ps hi =>
    obtain ⟨hq, hps⟩ := forall_mem_cons.mp h
    have hi := hi hps
    simp only [full, Outcome.mk.injEq] at hi ⊢
    simp [hq, hi]

theorem invoked_cons : (full visit (p :: ps)).invoked =
    (if (visit p).matched.isSome then [p] else []) ++ (full visit ps).invoked := by
  simp only [full, filter_cons]
  split <;> rfl

theorem sweep_of_clear (h : Clear visit ps) : sweep visit ps = full visit ps := by
  induction ps
  case nil => rfl
  case cons p ps hi =>
    obtain ⟨hp, hps⟩ := pairwise_cons.mp h
    have hc := @invoked_cons visit p ps
    cases hr : (visit p).removed
    case none =>
      simp only [sweep, hr, hi hps, ← hc]
      simp [full, hr]
    case some err =>
      have hf := full_eq_of_idle fun q hq => hp q hq (by rw [hr]; rfl)
      simp only [hf, append_nil] at hc
      simp only [full, Outcome.mk.injEq] at hf
      simp only [sweep, hr, ← hc]
      simp [full, hr, hf]

-- The matchers that are kept and those that are called tell whether all elements were visited.
theorem clear_of_sweep (hp : (sweep visit ps).plist = (full visit ps).plist)
    (hc : (sweep visit ps).invoked = (full visit ps).invoked) : Clear visit ps := by
  induction ps
  case nil => exact .nil
  case cons p ps hi =>
    rw [invoked_cons] at hc
    cases hr : (visit p).removed
    case none =>
      simp only [sweep, hr] at hp hc
      refine pairwise_cons.mpr ⟨fun q _ h => ?_, hi ?_ (append_cancel_left hc)⟩
      case refine_1 => rw [hr] at h; contradiction
      case refine_2 => simpa [full, hr] using hp
    case some err =>
      simp only [sweep, hr] at hp hc
      have hi : ∀ q ∈ ps, visit q = {} := by
        intro q hq
        have hn := filter_eq_nil_iff.mp (self_eq_append_right.mp hc) q hq
        have hs : ps = ps.filter (visit · |>.removed.isNone) := by simpa [full, hr] using hp
        have hk := filter_eq_self.mp hs.symm q hq
        cases hv : visit q with | mk matched removed =>
        simp only [hv, Option.isNone_iff_eq_none, Bool.not_eq_true, Option.isSome_eq_false_iff] at hn hk
        rw [hn, hk]
      exact pairwise_cons.mpr ⟨fun q hq _ => hi q hq, clear_of_idle hi⟩

-- All matchers for a reply are called, and those that are done receive nil and are removed.
def allReplied (r : Reply) (answer : ReplyMatcher → Bool × Bool) (ps : List ReplyMatcher) :
    Outcome where
  plist := ps.filter fun p => !(r.isFor p && (answer p).snd)
  invoked := ps.filter r.isFor
  sent := ps.filter (fun p => r.isFor p && (answer p).snd) |>.map (·.errc, none)
  matched := ps.any fun p => r.isFor p && (answer p).fst

-- All matchers whose time is over receive an error and are removed.
def allExpired (now : Int) (ps : List ReplyMatcher) : Outcome where
  plist := ps.filter (now < ·.deadline)
  invoked := []
  sent := ps.filter (·.deadline ≤ now) |>.map (·.errc, some errTimeout)
  matched := false

theorem sweep_eq_iff : sweep visit ps = full visit ps ↔ Clear visit ps :=
  ⟨fun h => clear_of_sweep (by rw [h]) (by rw [h]), sweep_of_clear⟩

theorem full_eq {called done ok : ReplyMatcher → Bool} {err : Option GoError}
    (hm : ∀ p, (visit p).matched = if called p then some (ok p) else none)
    (hr : ∀ p, (visit p).removed = if done p then some err else none) :
    full visit ps = ⟨ps.filter (!done ·), ps.filter called, ps.filter done |>.map (·.errc, err),
      ps.any fun p => called p && ok p⟩ := by
  induction ps
  case nil => rfl
  case cons p ps hi =>
    simp only [full, Outcome.mk.injEq] at hi ⊢
    cases hc : called p <;> cases hd : done p <;> simp [hm p, hr p, hc, hd, hi]

theorem dispatch_eq_iff : dispatch r answer ps = allReplied r answer ps ↔
    ps.Pairwise fun p q => r.isFor p → (answer p).snd → ¬r.isFor q := by
  have hf : full (r.visit answer) ps = allReplied r answer ps := by
    refine full_eq (fun p => ?_) fun p => ?_
    all_goals cases hf : r.isFor p <;> simp [Reply.visit, hf]
  rw [← hf]
  refine sweep_eq_iff.trans <| List.Pairwise.iff fun p q => ?_
  cases hp : r.isFor p <;> cases hd : (answer p).snd <;> cases hq : r.isFor q <;>
    simp [Reply.visit, hp, hd, hq]

theorem expire_eq_iff : expire now ps = allExpired now ps ↔
    ps.Pairwise fun p q => p.deadline ≤ now → ¬q.deadline ≤ now := by
  have hf := @full_eq (overdue now) ps (fun _ => false) (·.deadline ≤ now) (fun _ => false)
    (some errTimeout) (fun p => rfl) fun p => by simp [overdue]
  have hn : (ps.any fun _ => false) = false := any_eq_false.mpr fun _ _ => Bool.false_ne_true
  have he : allExpired now ps = full (overdue now) ps := by simp [hf, hn, allExpired, ← decide_not]
  rw [he]
  refine sweep_eq_iff.trans <| List.Pairwise.iff fun p q => ?_
  by_cases hp : p.deadline ≤ now <;> by_cases hq : q.deadline ≤ now <;> simp [overdue, hp, hq]

-- The channels of the matchers that are pending, and of those that were sent something.
def Loop.channels (s : Loop) : List Nat :=
  s.plist.map (·.errc) ++ s.sent.map Prod.fst

-- No channel is used twice.
structure Loop.Sound (s : Loop) : Prop where
  nodup : s.channels.Nodup
  created : ∀ c ∈ s.channels, c < s.created

theorem sweep_perm : ((sweep visit ps).plist.map (·.errc) ++ (sweep visit ps).sent.map Prod.fst).Perm
    (ps.map (·.errc)) := by
  induction ps
  case nil => exact .nil
  case cons p ps hi =>
    cases hr : (visit p).removed
    case none     => simpa [sweep, hr] using hi
    case some err => simp [sweep, hr]

namespace Loop

variable {s s' : Loop} {e : Event} {c : Case}

theorem Sound.perm (h : s.Sound) (hp : s'.channels.Perm s.channels) (hc : s'.created = s.created) :
    s'.Sound where
  nodup := hp.nodup_iff.mpr h.nodup
  created c m := hc ▸ h.created c (hp.subset m)

theorem Sound.create (h : s.Sound) (hp : s'.channels.Perm (s.created :: s.channels))
    (hc : s'.created = s.created + 1) : s'.Sound where
  nodup := hp.nodup_iff.mpr <| nodup_cons.mpr ⟨fun m => Nat.lt_irrefl _ (h.created _ m), h.nodup⟩
  created c m := by
    rw [hc]
    obtain rfl | m := mem_cons.mp (hp.subset m)
    case inl => exact Nat.lt_succ_self _
    case inr => exact Nat.lt_succ_of_lt (h.created c m)

-- Matchers that are sent something leave the list.
theorem Sound.send {sent : List (Nat × Option GoError)} {nextTimeout : Option Nat} {returned : Bool}
    (h : s.Sound) (hp : (ps.map (·.errc) ++ sent.map Prod.fst).Perm (s.plist.map (·.errc))) :
    Sound { s with plist := ps, nextTimeout, returned, sent := s.sent ++ sent } := by
  refine h.perm ?_ rfl
  unfold channels
  rw [map_append]
  refine (perm_append_comm.append_left _).trans ?_
  rw [← append_assoc]
  exact hp.append_right _

theorem resetTimeout_sound (h : s.Sound) : (s.resetTimeout now).Sound := by
  unfold resetTimeout
  split
  case h_1 => exact h
  case h_2 p ps hp =>
    split
    case isTrue => exact h
    case isFalse =>
      split
      case isTrue  => exact h.perm (.refl _) rfl
      case isFalse => exact h.send (hp ▸ perm_append_singleton ..)

theorem select_sound (h : s.Sound) : (s.select c).Sound := by
  cases c
  case closeCtx        => exact h.send (.of_eq (by simp))
  case gotreply        => exact h.send sweep_perm
  case timeout         => exact h.send sweep_perm
  case addReplyMatcher =>
    refine h.create ?_ rfl
    simp [select, channels, perm_middle]

theorem step_sound (h : s.Sound) : (s.step e).Sound := by
  cases e
  case refuse =>
    refine h.create ?_ rfl
    simp only [step, channels, map_append, ← append_assoc]
    exact perm_append_singleton ..
  case select now c =>
    by_cases hr : s.returned
    case pos => simpa [step, hr] using h
    case neg => simpa [step, hr] using select_sound (resetTimeout_sound h)

end Loop

open Transition.System

-- A reply or a timeout is handled as intended if and only if nothing is to be done behind the first
-- matcher that is removed. No matcher is ever sent two values.
theorem replied_iff (r : Reply) (answer : ReplyMatcher → Bool × Bool) (now : Int)
    (ps : List ReplyMatcher) :
    (dispatch r answer ps = allReplied r answer ps ↔
      ps.Pairwise fun p q => r.isFor p → (answer p).snd → ¬r.isFor q) ∧
    (expire now ps = allExpired now ps ↔
      ps.Pairwise fun p q => p.deadline ≤ now → ¬q.deadline ≤ now) ∧
    ∀ s, Loop.machine.Reachable anyStep s → (s.sent.map Prod.fst).Nodup := by
  refine ⟨dispatch_eq_iff, expire_eq_iff, fun s hr => ?_⟩
  have hs : s.Sound := by
    refine hr.invariant ⟨.nil, fun c hc => absurd hc not_mem_nil⟩ ?_
    intro s e s' h _ he
    cases he
    exact Loop.step_sound h
  exact (nodup_append.mp hs.nodup).right.left

def twoPings : Loop :=
  ((({} : Loop).step (.select 0 (.addReplyMatcher 0 .zero [127, 0, 0, 1] 2))).step
    (.select 1 (.addReplyMatcher 1 .zero [127, 0, 0, 1] 2)))

theorem twoPings_reachable : Loop.machine.Reachable anyStep twoPings :=
  .step (.step .init trivial rfl) trivial rfl

-- A reply is for both matchers, and only the first one is satisfied by it. The other one is closed.
def twoSent : Loop :=
  (twoPings.step (.select 2 (.gotreply ⟨.zero, [127, 0, 0, 1], 2⟩ fun p => (true, p.errc = 0)))).step
    (.select 3 .closeCtx)

theorem replied_twoSent : twoSent.sent = [(0, none), (1, some errClosed)] ∧
    (twoSent.sent.map Prod.fst).Nodup :=
  ⟨by decide, (replied_iff ⟨.zero, [127, 0, 0, 1], 2⟩ (fun _ => (true, false)) 0 []).right.right
    twoSent (.step (.step twoPings_reachable trivial rfl) trivial rfl)⟩

-- The second matcher is not called if the first one is done.
theorem not_always_replied : ¬∀ s, Loop.machine.Reachable anyStep s →
    ∀ r answer, dispatch r answer s.plist = allReplied r answer s.plist := by
  intro h
  have hd := h twoPings twoPings_reachable ⟨.zero, [127, 0, 0, 1], 2⟩ fun _ => (true, true)
  exact absurd (congrArg Outcome.invoked hd) (by decide)

end Discover.UDPv4
