import DomiconExec.Eth.PeerSet

namespace Eth

open List

def Wait.got (peer : SnapPeer) (w : Wait) : Bool :=
  w.pc = .returned (some peer) none

namespace Peering

open Transition.System

variable {s s' : Peering} {c : Call} {err : Option GoError} {id : String} {i : Nat}
variable {peer x : SnapPeer} {eth : EthPeer}

def handed (s : Peering) (peer : SnapPeer) : Nat :=
  s.waits.countP (Wait.got peer)

def pending (s : Peering) (peer : SnapPeer) : Nat :=
  if s.set.snapPend.get peer.id = some peer then 1 else 0

-- What a call can do, with the error that it returns.
inductive Turn (s : Peering) : Peering → Option GoError → Prop
  | reject (err : GoError) : Turn s s (some err)
  | skip (eth : EthPeer) (err : Option GoError) :
    Turn s { s with waits := s.waits ++ [⟨eth, .returned none err⟩] } err
  | offer {peer : SnapPeer} : s.set.snapPend.get peer.id = none → s.set.snapWait.get peer.id = none →
    Turn s { s with
      set := { s.set with snapPend := s.set.snapPend.set peer.id peer }
      registered := s.registered ++ [peer] } none
  | hand {peer : SnapPeer} {i : Nat} {eth : EthPeer} : s.set.snapWait.get peer.id = some i →
    s.waits[i]? = some ⟨eth, .waiting⟩ → Turn s ⟨
      { s.set with snapWait := s.set.snapWait.del peer.id },
      s.waits.set i ⟨eth, .returned (some peer) none⟩,
      s.registered ++ [peer]⟩ none
  | take {eth : EthPeer} {peer : SnapPeer} : s.set.snapPend.get eth.id = some peer → Turn s { s with
      set := { s.set with snapPend := s.set.snapPend.del eth.id }
      waits := s.waits ++ [⟨eth, .returned (some peer) none⟩] } none
  | wait {eth : EthPeer} : s.set.snapWait.get eth.id = none → s.set.snapPend.get eth.id = none →
    Turn s { s with
      set := { s.set with snapWait := s.set.snapWait.set eth.id s.waits.length }
      waits := s.waits ++ [⟨eth, .waiting⟩] } none
  | register {eth : EthPeer} {ext : Option SnapPeer} : eth.id ∉ s.set.peers →
    Turn s { s with set := { s.set with
      peers := s.set.peers.set eth.id ⟨eth, ext⟩
      snapPeers := if ext.isSome then s.set.snapPeers + 1 else s.set.snapPeers } } none
  | unregister {id : String} {p : PeerEntry} : s.set.peers.get id = some p →
    Turn s { s with set := { s.set with
      peers := s.set.peers.del id
      snapPeers := if p.snapExt.isSome then s.set.snapPeers - 1 else s.set.snapPeers } } none
  | close : Turn s { s with set := { s.set with closed := true } } none

theorem turn_of_registerSnapExtension (h : s.registerSnapExtension peer = some (s', err)) :
    s.Turn s' err := by
  unfold registerSnapExtension PeerSet.registerSnapExtension at h
  by_cases hr : ¬peer.conn.runningCap "eth" ethProtocolVersions
  case pos =>
    rw [if_pos hr] at h
    cases h
    exact .reject _
  by_cases hm : peer.id ∈ s.set.peers
  case pos =>
    rw [if_neg hr, if_pos hm] at h
    cases h
    exact .reject _
  by_cases hp : peer.id ∈ s.set.snapPend
  case pos =>
    rw [if_neg hr, if_neg hm, if_pos hp] at h
    cases h
    exact .reject _
  rw [if_neg hr, if_neg hm, if_neg hp] at h
  cases hw : s.set.snapWait.get peer.id <;> simp only [hw] at h
  case none =>
    cases h
    exact .offer (GoMap.get_of_not_mem hp) hw
  case some i =>
    split at h <;> cases h
    case h_1 hi => exact .hand hw hi

theorem turn_of_waitSnapExtension (h : s.waitSnapExtension eth = (s', err)) : s.Turn s' err := by
  unfold waitSnapExtension PeerSet.waitSnapExtension at h
  by_cases hr : ¬eth.conn.runningCap "snap" snapProtocolVersions
  case pos =>
    rw [if_pos hr] at h
    cases h
    exact .skip ..
  by_cases hm : eth.id ∈ s.set.peers
  case pos =>
    rw [if_neg hr, if_pos hm] at h
    cases h
    exact .skip ..
  by_cases hw : eth.id ∈ s.set.snapWait
  case pos =>
    rw [if_neg hr, if_neg hm, if_pos hw] at h
    cases h
    exact .skip ..
  rw [if_neg hr, if_neg hm, if_neg hw] at h
  cases hp : s.set.snapPend.get eth.id <;> simp only [hp] at h
  case none =>
    cases h
    exact .wait (GoMap.get_of_not_mem hw) hp
  case some =>
    cases h
    exact .take hp

theorem turn_of_call (h : s.call c = some (s', err)) : s.Turn s' err := by
  cases c <;> simp only [call] at h
  case registerSnapExtension => exact turn_of_registerSnapExtension h
  case waitSnapExtension     => exact turn_of_waitSnapExtension (Option.some.inj h)
  case registerPeer eth ext =>
    unfold PeerSet.registerPeer at h
    split at h
    case isTrue =>
      cases h
      exact .reject _
    case isFalse =>
      split at h <;> cases h
      case isTrue     => exact .reject _
      case isFalse hm => exact .register hm
  case unregisterPeer id =>
    unfold PeerSet.unregisterPeer at h
    split at h <;> cases h
    case h_1    => exact .reject _
    case h_2 hp => exact .unregister hp
  case close =>
    cases h
    exact .close

theorem Turn.set_eq {err : GoError} (t : s.Turn s' (some err)) : s'.set = s.set := by
  cases t <;> rfl

structure Valid (s : Peering) : Prop where
  snapPeers : s.set.snapPeers = s.set.peers.countP (·.snapExt.isSome)
  pend : ∀ {id peer}, s.set.snapPend.get id = some peer → peer.id = id
  wait : ∀ {id i}, s.set.snapWait.get id = some i ↔
    ∃ eth, s.waits[i]? = some ⟨eth, .waiting⟩ ∧ eth.id = id
  disjoint : ∀ {id}, id ∈ s.set.snapWait → id ∉ s.set.snapPend
  -- Each peer that was registered has been handed to a call, or it is still there.
  conserved : ∀ peer, s.registered.count peer = s.handed peer + s.pending peer

theorem valid_start : Valid start := by
  constructor
  case snapPeers => rfl
  case pend      => simp [start, PeerSet.newPeerSet]
  case wait      => simp [start, PeerSet.newPeerSet]
  case disjoint  => simp [start, PeerSet.newPeerSet]
  case conserved => simp [start, PeerSet.newPeerSet, handed, pending]

section Waits

variable {l : List Wait} {w : Wait}

theorem getElem?_concat_eq_some {w' : Wait} :
    (l ++ [w])[i]? = some w' ↔ l[i]? = some w' ∨ i = l.length ∧ w = w' := by
  grind

theorem waiting_concat (h : w.pc ≠ .waiting) :
    (l ++ [w])[i]? = some ⟨eth, .waiting⟩ ↔ l[i]? = some ⟨eth, .waiting⟩ := by
  rw [getElem?_concat_eq_some]
  refine or_iff_left ?_
  rintro ⟨_, rfl⟩
  exact h rfl

theorem countP_got_concat :
    (l ++ [w]).countP (Wait.got x) = l.countP (Wait.got x) + if w.got x then 1 else 0 := by
  rw [countP_append, countP_singleton]

theorem countP_got_set (h : l[i]? = some ⟨eth, .waiting⟩) :
    (l.set i w).countP (Wait.got x) = l.countP (Wait.got x) + if w.got x then 1 else 0 := by
  obtain ⟨hl, he⟩ := List.getElem?_eq_some_iff.mp h
  rw [List.countP_set hl, he]
  rfl

end Waits

theorem got_returned : Wait.got x ⟨eth, .returned (some peer) none⟩ ↔ peer = x := by
  simp [Wait.got]

namespace Valid

variable (v : Valid s)

include v in
theorem skip (eth : EthPeer) (err : Option GoError) :
    Valid { s with waits := s.waits ++ [⟨eth, .returned none err⟩] } := by
  constructor
  case snapPeers => exact v.snapPeers
  case pend      => exact v.pend
  case disjoint  => exact v.disjoint
  case wait =>
    intro id i
    simp only [waiting_concat (w := ⟨eth, .returned none err⟩) Wait.Pc.noConfusion]
    exact v.wait
  case conserved =>
    intro x
    have hg : ¬Wait.got x ⟨eth, .returned none err⟩ := by simp [Wait.got]
    rw [handed, countP_got_concat, if_neg hg]
    exact v.conserved x

include v in
theorem offer (hp : s.set.snapPend.get peer.id = none) (hw : s.set.snapWait.get peer.id = none) :
    Valid { s with
      set := { s.set with snapPend := s.set.snapPend.set peer.id peer }
      registered := s.registered ++ [peer] } := by
  constructor
  case snapPeers => exact v.snapPeers
  case wait      => exact v.wait
  case pend =>
    intro id x h
    rw [GoMap.get_set] at h
    split at h
    case isTrue he  => exact Option.some.inj h ▸ he.symm
    case isFalse    => exact v.pend h
  case disjoint =>
    intro id hi hm
    rcases GoMap.mem_set.mp hm with rfl | hm
    case inl => exact GoMap.not_mem_of_get hw hi
    case inr => exact v.disjoint hi hm
  case conserved =>
    intro x
    have hc := v.conserved x
    rw [count_append, count_singleton, hc, Nat.add_assoc]
    refine congrArg (s.handed x + ·) ?_
    simp only [pending, GoMap.get_set, beq_iff_eq]
    by_cases he : x.id = peer.id
    case neg =>
      have hn : peer ≠ x := fun h => he (congrArg SnapPeer.id h.symm)
      rw [if_neg hn, if_neg he, Nat.add_zero]
    case pos =>
      rw [he, hp, if_pos rfl]
      simp

include v in
theorem hand (hw : s.set.snapWait.get peer.id = some i) (hi : s.waits[i]? = some ⟨eth, .waiting⟩) :
    Valid ⟨{ s.set with snapWait := s.set.snapWait.del peer.id },
      s.waits.set i ⟨eth, .returned (some peer) none⟩, s.registered ++ [peer]⟩ := by
  constructor
  case snapPeers => exact v.snapPeers
  case pend      => exact v.pend
  case disjoint  =>
    intro id hi
    exact v.disjoint (GoMap.mem_del.mp hi).right
  case wait =>
    intro id j
    obtain ⟨eth', hi', he⟩ := v.wait.mp hw
    cases hi.symm.trans hi'
    rw [GoMap.get_del]
    constructor
    case mp =>
      intro h
      split at h
      case isTrue     => cases h
      case isFalse hn =>
        obtain ⟨eth', hj, rfl⟩ := v.wait.mp h
        have hij : i ≠ j := by
          rintro rfl
          cases hi.symm.trans hj
          exact hn he
        exact ⟨eth', (List.getElem?_set_ne hij).trans hj, rfl⟩
    case mpr =>
      rintro ⟨eth', hj, rfl⟩
      rw [List.getElem?_set] at hj
      split at hj
      case isTrue      => split at hj <;> cases hj
      case isFalse hij =>
        have hg := v.wait.mpr ⟨eth', hj, rfl⟩
        have hn : eth'.id ≠ peer.id := fun h => hij (Option.some.inj (hw.symm.trans (h ▸ hg)))
        rw [if_neg hn, hg]
  case conserved =>
    intro x
    have hc := v.conserved x
    simp only [count_append, count_singleton, handed, pending, countP_got_set hi,
      got_returned, beq_iff_eq] at hc ⊢
    rw [hc, Nat.add_right_comm]

include v in
theorem take (hp : s.set.snapPend.get eth.id = some peer) : Valid { s with
      set := { s.set with snapPend := s.set.snapPend.del eth.id }
      waits := s.waits ++ [⟨eth, .returned (some peer) none⟩] } := by
  constructor
  case snapPeers => exact v.snapPeers
  case pend =>
    intro id x h
    rw [GoMap.get_del] at h
    split at h
    case isTrue  => cases h
    case isFalse => exact v.pend h
  case disjoint =>
    intro id hi hm
    exact v.disjoint hi (GoMap.mem_del.mp hm).right
  case wait =>
    intro id i
    simp only [waiting_concat (w := ⟨eth, .returned (some peer) none⟩) Wait.Pc.noConfusion]
    exact v.wait
  case conserved =>
    intro x
    have hc := v.conserved x
    have hi := v.pend hp
    simp only [handed, pending, countP_got_concat, got_returned, GoMap.get_del] at hc ⊢
    rw [hc, Nat.add_assoc]
    refine congrArg _ ?_
    by_cases he : x.id = eth.id
    case pos =>
      rw [he, hp, if_pos rfl]
      simp
    case neg =>
      have hn : peer ≠ x := fun h => he (h ▸ hi)
      rw [if_neg hn, if_neg he, Nat.zero_add]

include v in
theorem waiting (hw : s.set.snapWait.get eth.id = none) (hp : s.set.snapPend.get eth.id = none) :
    Valid { s with
      set := { s.set with snapWait := s.set.snapWait.set eth.id s.waits.length }
      waits := s.waits ++ [⟨eth, .waiting⟩] } := by
  constructor
  case snapPeers => exact v.snapPeers
  case pend      => exact v.pend
  case disjoint =>
    intro id hi
    rcases GoMap.mem_set.mp hi with rfl | hi
    case inl => exact GoMap.not_mem_of_get hp
    case inr => exact v.disjoint hi
  case wait =>
    intro id i
    simp only [getElem?_concat_eq_some, GoMap.get_set]
    by_cases he : id = eth.id
    case pos =>
      rw [if_pos he]
      constructor
      case mp =>
        intro h
        exact ⟨eth, .inr ⟨(Option.some.inj h).symm, rfl⟩, he.symm⟩
      case mpr =>
        rintro ⟨eth', h | h, hid⟩
        case inl => cases hw.symm.trans (he ▸ v.wait.mpr ⟨eth', h, hid⟩)
        case inr => exact congrArg some h.left.symm
    case neg =>
      rw [if_neg he, v.wait]
      refine exists_congr fun eth' => and_congr_left fun hid => (or_iff_left ?_).symm
      rintro ⟨_, h⟩
      cases h
      exact he hid.symm
  case conserved =>
    intro x
    have hg : ¬Wait.got x ⟨eth, .waiting⟩ := by simp [Wait.got]
    rw [handed, countP_got_concat, if_neg hg]
    exact v.conserved x

include v in
theorem register {ext : Option SnapPeer} (hn : eth.id ∉ s.set.peers) :
    Valid { s with set := { s.set with
      peers := s.set.peers.set eth.id ⟨eth, ext⟩
      snapPeers := if ext.isSome then s.set.snapPeers + 1 else s.set.snapPeers } } := by
  refine ⟨?_, v.pend, v.wait, v.disjoint, v.conserved⟩
  rw [GoMap.countP_set hn, v.snapPeers]
  split <;> rfl

include v in
theorem unregister {p : PeerEntry} (hp : s.set.peers.get id = some p) :
    Valid { s with set := { s.set with
      peers := s.set.peers.del id
      snapPeers := if p.snapExt.isSome then s.set.snapPeers - 1 else s.set.snapPeers } } := by
  refine ⟨?_, v.pend, v.wait, v.disjoint, v.conserved⟩
  have hs := v.snapPeers
  rw [GoMap.countP_del hp] at hs
  simp only [hs]
  split <;> simp

include v in
theorem turn (t : s.Turn s' err) : Valid s' := by
  cases t
  case reject           => exact v
  case skip             => exact v.skip _ _
  case offer hp hw      => exact v.offer hp hw
  case hand hw hi       => exact v.hand hw hi
  case take hp          => exact v.take hp
  case wait hw hp       => exact v.waiting hw hp
  case register hn      => exact v.register hn
  case unregister hp    => exact v.unregister hp
  case close            => exact ⟨v.snapPeers, v.pend, v.wait, v.disjoint, v.conserved⟩

-- The peer that is sent is received, and so the lock is released.
include v in
theorem exists_call (c : Call) : ∃ s' err, s.call c = some (s', err) := by
  cases c
  case registerSnapExtension peer =>
    rw [call, Peering.registerSnapExtension]
    split
    case h_1 => exact ⟨_, _, rfl⟩
    case h_3 => exact ⟨_, _, rfl⟩
    case h_2 set i h =>
      have hw : s.set.snapWait.get peer.id = some i := by
        unfold PeerSet.registerSnapExtension at h
        grind
      obtain ⟨eth, hi, _⟩ := v.wait.mp hw
      rw [hi]
      exact ⟨_, _, rfl⟩
  all_goals exact ⟨_, _, rfl⟩

theorem reachable (r : machine.Reachable anyStep s) : Valid s := by
  refine r.invariant valid_start ?_
  intro s c s' v _ h
  obtain ⟨s₁, err, hc⟩ := v.exists_call c
  simp only [machine, hc] at h
  cases h
  exact v.turn (turn_of_call hc)

end Valid

structure Bookkept (s : Peering) : Prop where
  snapPeers : s.set.snapPeers = s.set.peers.countP (·.snapExt.isSome)
  disjoint : ∀ id, ¬(id ∈ s.set.snapWait ∧ id ∈ s.set.snapPend)
  -- A peer is handed on as often as it was registered, or it is there to be handed on once more.
  conserved : ∀ peer, s.registered.count peer = s.handed peer + s.pending peer
  once : ∀ peer, s.registered.count peer ≤ 1 → s.handed peer ≤ 1
  rejected : ∀ c s' err, s.call c = some (s', some err) → s'.set = s.set
  returns : ∀ c, (s.call c).isSome

theorem bookkept_of_reachable (r : machine.Reachable anyStep s) : Bookkept s := by
  have v := Valid.reachable r
  constructor
  case snapPeers => exact v.snapPeers
  case disjoint  => exact fun id h => v.disjoint h.left h.right
  case conserved => exact v.conserved
  case once =>
    intro peer h
    rw [v.conserved] at h
    exact Nat.le_trans (Nat.le_add_right ..) h
  case rejected => exact fun c s' err h => (turn_of_call h).set_eq
  case returns =>
    intro c
    obtain ⟨s', err, h⟩ := v.exists_call c
    exact h ▸ rfl

def sampleConn : P2PPeer where
  running := (∅ : GoMap String Nat).set "eth" 68 |>.set "snap" 1
  caps := [⟨"eth", 68⟩, ⟨"snap", 1⟩]

def sampleSnap (ref : Nat) (id : String) : SnapPeer :=
  ⟨ref, id, sampleConn⟩

-- The peers connect on both protocols, in one order and in the other. Another connection has an id
-- that is taken, and one of the peers disconnects.
def sampleCalls : List Call := [
  .registerSnapExtension (sampleSnap 0 "a"),
  .waitSnapExtension ⟨"b", sampleConn⟩,
  .waitSnapExtension ⟨"a", sampleConn⟩,
  .registerSnapExtension (sampleSnap 1 "b"),
  .registerPeer ⟨"a", sampleConn⟩ (some (sampleSnap 0 "a")),
  .registerSnapExtension (sampleSnap 2 "a"),
  .registerPeer ⟨"b", sampleConn⟩ (some (sampleSnap 1 "b")),
  .unregisterPeer "a"
]

theorem bookkept_sampleCalls : ∃ s, machine.run start sampleCalls = .ok s ∧ s.set.snapPeers = 1 ∧
    s.registered = [sampleSnap 0 "a", sampleSnap 1 "b"] ∧
    s.waits.map Wait.pc = [.returned (some (sampleSnap 1 "b")) none,
      .returned (some (sampleSnap 0 "a")) none] ∧ Bookkept s := by
  obtain ⟨s, hs, hn, hr, hw⟩ : ∃ s, machine.run start sampleCalls = .ok s ∧ s.set.snapPeers = 1 ∧
      s.registered = [sampleSnap 0 "a", sampleSnap 1 "b"] ∧
      s.waits.map Wait.pc = [.returned (some (sampleSnap 1 "b")) none,
        .returned (some (sampleSnap 0 "a")) none] := ⟨_, rfl, rfl, rfl, rfl⟩
  exact ⟨s, hs, hn, hr, hw, bookkept_of_reachable <| .run .init (fun _ _ _ => trivial) hs⟩

-- The same object is registered again after it was handed on.
theorem not_handed_once :
    ¬∀ s, machine.Reachable anyStep s → ∀ peer, s.handed peer ≤ 1 := by
  intro h
  let calls : List Call :=
    [.registerSnapExtension (sampleSnap 0 "a"), .waitSnapExtension ⟨"a", sampleConn⟩]
  obtain ⟨s, hs, hh⟩ : ∃ s, machine.run start (calls ++ calls) = .ok s ∧
      s.handed (sampleSnap 0 "a") = 2 := ⟨_, rfl, rfl⟩
  have hl := h s (.run .init (fun _ _ _ => trivial) hs) (sampleSnap 0 "a")
  rw [hh] at hl
  contradiction

end Peering
end Eth
