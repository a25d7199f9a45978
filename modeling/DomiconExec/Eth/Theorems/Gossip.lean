import DomiconExec.Eth.Gossip
import DomiconExec.Eth.Theorems.Crash

namespace Eth

open List
open FilePool (Ref Heap)
open Transition System

namespace Broadcaster

variable {ctx : Context} {b b' : Broadcaster}

def served (b : Broadcaster) (hashes : List Hash) (peer : Peer) : Broadcaster :=
  { b.receive hashes with peer }

-- What a goroutine of a peer can do on its own, without looking at the pool.
inductive Turn (b : Broadcaster) : Broadcaster → Prop
  | start : b.pc = .top → b.flight = .idle → b.queue ≠ [] →
    Turn b { b with pc := .looking b.queue [], queue := [] }
  | wait : b.pc = .top → (b.flight = .idle → b.queue = []) → Turn b { b with pc := .select }
  | launch {fds : List DA} : b.pc = .looking [] fds → fds ≠ [] →
    Turn b { b with pc := .select, flight := .running fds, handed := b.handed ++ fds }
  | skip : b.pc = .looking [] [] → Turn b { b with pc := .select }
  | done : b.pc = .select → b.flight = .done → Turn b { b with pc := .top, flight := .idle }
  | fail : b.pc = .select → b.flight = .fail →
    Turn b { b with pc := .top, flight := .received, failed := true }
  | term : b.pc = .select → b.connection = .closed → Turn b { b with pc := .returned }
  | sent {fds : List DA} {peer : Peer} {flight : Flight} : b.flight = .running fds →
    flight = .done ∨ flight = .fail → Turn b { b with peer, flight }
  | unregister : b.connection = .registered → Turn b { b with connection := .unregistered }
  | close : b.connection = .unregistered → Turn b { b with connection := .closed }

theorem act_turn {a : Action} (h : b.act ctx a = .ok b') : b.Turn b' := by
  unfold act at h
  split at h
  case h_1 hp hf =>
    split at h <;> cases h
    case isTrue hq  => exact .start hp hf (length_pos_iff.mp hq)
    case isFalse hq => exact .wait hp fun _ => by simpa using hq
  case h_2 hp hf =>
    cases h
    exact .wait hp fun hi => absurd hi hf
  case h_3 hp =>
    split at h <;> cases h
    case isTrue hf  => exact .launch hp (length_pos_iff.mp hf)
    case isFalse hf =>
      simp only [gt_iff_lt, Nat.not_lt, Nat.le_zero, length_eq_zero_iff] at hf
      exact .skip (hf ▸ hp)
  case h_4 hp hf =>
    cases h
    exact .done hp hf
  case h_5 hp hf =>
    cases h
    exact .fail hp hf
  case h_6 hp =>
    split at h <;> cases h
    case isTrue hc => exact .term hp hc
  case h_7 hf =>
    cases h
    refine .sent hf ?_
    split
    case isTrue  => exact .inr rfl
    case isFalse => exact .inl rfl
  case h_8 => cases h

-- A send fails because of its data or because of the network.
theorem act_fail {a : Action} (h : b.act ctx a = .ok b') (hf : b'.flight = .fail) :
    b.flight = .fail ∨ ∃ popOrder err fds, a = .sent popOrder err ∧ b.flight = .running fds ∧
      ((sendFileDatas false fds).snd ≠ none ∨ err ≠ none) := by
  unfold act at h
  split at h
  case h_7 popOrder err fds hr =>
    cases h
    refine .inr ⟨popOrder, err, fds, rfl, hr, ?_⟩
    dsimp only at hf
    cases he : (sendFileDatas false fds).snd
    case some => exact .inl (by simp)
    case none =>
      refine .inr fun hn => ?_
      simp [he, hn] at hf
  all_goals grind

theorem act_error {a : Action} {stop : Stop} (h : b.act ctx a = .error stop) : stop = .blocked := by
  unfold act at h
  split at h
  all_goals
    try split at h
    all_goals
      cases h
      try rfl

theorem disconnect_turn (h : b.disconnect = .ok b') : b.Turn b' := by
  unfold disconnect at h
  split at h <;> cases h
  case h_1 hc => exact .unregister hc
  case h_2 hc => exact .close hc

end Broadcaster

theorem sum_set {α : Type} {f : α → Nat} {l : List α} {i : Nat} {a : α} (h : l[i]? = some a)
    (a' : α) : ((l.set i a').map f).sum + f a = (l.map f).sum + f a' := by
  induction l generalizing i
  case nil => cases h
  case cons x l hi =>
    cases i
    case zero =>
      cases h
      simp only [set_cons_zero, map_cons, sum_cons]
      omega
    case succ i =>
      have := hi h
      simp only [set_cons_succ, map_cons, sum_cons]
      omega

def Connection.load : Connection → Nat
  | .registered   => 2
  | .unregistered => 1
  | .closed       => 0

def Flight.load : Flight → Nat
  | .running _ => 3
  | .done      => 2
  | .fail      => 2
  | .idle      => 0
  | .received  => 0

def Broadcaster.Pc.load : Broadcaster.Pc → Nat
  | .top            => 2
  | .looking rest _ => 5 + rest.length
  | .select         => 1
  | .returned       => 0

-- What is still ahead of a peer.
def Broadcaster.load (b : Broadcaster) : Nat :=
  b.connection.load + b.flight.load + b.pc.load + 5 * b.queue.length

theorem Broadcaster.Turn.load_lt {b b' : Broadcaster} (h : b.Turn b') : b'.load < b.load := by
  cases h <;> simp_all [load, Pc.load, Flight.load, Connection.load]
  case start hq =>
    have := length_pos_iff.mpr hq
    omega
  case sent hf => cases hf <;> simp_all

theorem Broadcaster.load_served {b : Broadcaster} {hashes : List Hash} (h : b.pc = .select)
    (peer : Peer) :
    (b.served hashes peer).load ≤ b.load + 5 * hashes.length + 1 := by
  unfold served receive enqueue load
  split <;> simp only [h, Pc.load, length_drop, length_append] <;> omega

namespace Broadcaster

def Pc.rest : Pc → List Hash
  | .looking rest _ => rest
  | _               => []

def Pc.fds : Pc → List DA
  | .looking _ fds => fds
  | _              => []

variable {b b' : Broadcaster} {max : Nat} {hash h : Hash} {hashes rest : List Hash} {peer : Peer}
variable {fds fds' : List DA} {da : DA}

-- The goroutine only waits with a queue if data is sent, and only returns after the connection's
-- end.
structure Valid (b : Broadcaster) : Prop where
  select : b.pc = .select → b.flight = .idle → b.queue = []
  looking : ∀ rest fds, b.pc = .looking rest fds → b.queue = []
  returned : b.pc = .returned → b.connection = .closed
  received : b.flight = .received → b.failed

theorem Valid.turn (v : b.Valid) (h : b.Turn b') : b'.Valid := by
  have hs := v.select
  have hl := v.looking
  have hr := v.returned
  have hf := v.received
  cases h <;> constructor <;> try simp_all
  case sent.select he   => cases he <;> simp_all
  case sent.looking     => exact hl
  case sent.received he => cases he <;> simp_all
  case unregister.looking => exact hl
  case close.looking      => exact hl

@[simp]
theorem served_pc : (b.served hashes peer).pc = .top :=
  rfl

@[simp]
theorem served_rest : (b.served hashes peer).flight = b.flight ∧
    (b.served hashes peer).failed = b.failed ∧
    (b.served hashes peer).connection = b.connection ∧
    (b.served hashes peer).handed = b.handed := by
  have he {max : Nat} : (b.enqueue max hashes).flight = b.flight ∧
      (b.enqueue max hashes).failed = b.failed ∧
      (b.enqueue max hashes).connection = b.connection ∧
      (b.enqueue max hashes).handed = b.handed := ⟨rfl, rfl, rfl, rfl⟩
  simp only [served, receive]
  split
  case isTrue  => exact ⟨rfl, rfl, rfl, rfl⟩
  case isFalse => exact he

theorem mem_enqueue (h : hash ∈ b.queue ∨ hash ∈ hashes) :
    hash ∈ (b.enqueue max hashes).queue ∨ hash ∈ (b.enqueue max hashes).dropped := by
  have hm := mem_append.mpr h
  rw [← take_append_drop ((b.queue ++ hashes).length - max) (b.queue ++ hashes),
    mem_append] at hm
  exact hm.symm.imp_right (mem_append_right _)

theorem mem_of_mem_enqueue (h : hash ∈ (b.enqueue max hashes).queue) :
    hash ∈ b.queue ∨ hash ∈ hashes :=
  mem_append.mp (mem_of_mem_drop h)

theorem dropped_subset_enqueue : b.dropped ⊆ (b.enqueue max hashes).dropped :=
  subset_append_left ..

-- A hash is only lost if the connection has failed or if there is no room for it.
theorem mem_served (h : hash ∈ b.queue ∨ hash ∈ hashes) (hf : ¬b.failed) :
    hash ∈ (b.served hashes peer).queue ∨ hash ∈ (b.served hashes peer).dropped := by
  simp only [served, receive, if_neg hf]
  exact mem_enqueue h

theorem dropped_subset_served : b.dropped ⊆ (b.served hashes peer).dropped := by
  simp only [served, receive]
  split
  case isTrue  => exact fun _ h => h
  case isFalse => exact dropped_subset_enqueue

theorem mem_of_mem_served (h : hash ∈ (b.served hashes peer).queue) :
    hash ∈ b.queue ∨ hash ∈ hashes := by
  simp only [served, receive] at h
  split at h
  case isTrue  => exact .inl h
  case isFalse => exact mem_of_mem_enqueue h

theorem Valid.served (v : b.Valid) : (b.served hashes peer).Valid where
  select := by simp
  looking _ _ := by simp
  returned := by simp
  received := by simpa using v.received

theorem Valid.found (v : b.Valid) (h : b.pc = .looking (hash :: rest) fds) :
    Valid { b with pc := .looking rest fds' } where
  select h := by cases h
  looking _ _ _ := v.looking _ _ h
  returned h := by cases h
  received := v.received

-- The hashes that will be looked up as long as nothing fails.
def awaited (b : Broadcaster) : List Hash :=
  if b.failed then [] else b.queue ++ b.pc.rest

-- The data was handed to `SendFileDatas`, unless the peer has left or its queue had no room.
def Reaches (b : Broadcaster) (hash : Hash) (da : DA) : Prop :=
  b.connection ≠ .registered ∨ hash ∈ b.dropped ∨ da ∈ b.handed

-- No send to the peer has failed while it is connected.
def Intact (b : Broadcaster) : Prop :=
  b.connection = .registered → ¬b.failed ∧ b.flight ≠ .fail

theorem Intact.turn (h : b.Turn b') (n : b.Intact)
    (hf : b.connection = .registered → b'.flight ≠ .fail) : b'.Intact := by
  cases h <;> simp_all [Intact]

-- The data is on its way.
def Keeps (b : Broadcaster) (hash : Hash) (da : DA) : Prop :=
  b.Reaches hash da ∨ da ∈ b.pc.fds ∨ hash ∈ b.queue ∨ hash ∈ b.pc.rest

theorem Turn.awaited_subset (h : b.Turn b') : b'.awaited ⊆ b.awaited := by
  cases h <;> simp_all [awaited, Pc.rest]

theorem awaited_looking (hp : b.pc = .looking (h :: rest) fds) :
    awaited { b with pc := .looking rest fds' } ⊆ b.awaited := by
  intro x hx
  simp only [awaited, hp, Pc.rest] at hx ⊢
  split at hx
  case isTrue hf => cases hx
  case isFalse hf =>
    rw [if_neg hf, mem_append]
    exact (mem_append.mp hx).imp_right (mem_cons_of_mem h)

theorem mem_of_mem_awaited_served (h : hash ∈ (b.served hashes peer).awaited) :
    hash ∈ b.awaited ∨ hash ∈ hashes := by
  simp only [awaited, served_rest] at h ⊢
  split at h
  case isTrue => cases h
  case isFalse hf =>
    rw [if_neg hf]
    simp only [served_pc, Pc.rest, append_nil] at h
    exact (mem_of_mem_served h).imp_left (mem_append_left _)

theorem Reaches.turn (h : b.Turn b') (k : b.Reaches hash da) : b'.Reaches hash da := by
  cases h <;> simp_all [Reaches]
  case launch => tauto

theorem Reaches.served (k : b.Reaches hash da) : (b.served hashes peer).Reaches hash da := by
  simp only [Reaches, served_rest]
  exact k.imp_right <| Or.imp_left fun h => dropped_subset_served h

theorem Keeps.turn (h : b.Turn b') (k : b.Keeps hash da) : b'.Keeps hash da := by
  cases k
  case inl k => exact .inl (k.turn h)
  case inr k =>
    cases h <;> simp_all [Keeps, Reaches, Pc.fds, Pc.rest]
    case launch => tauto

theorem Keeps.served (hp : b.pc = .select) (n : b.Intact) (k : b.Keeps hash da ∨ hash ∈ hashes) :
    (b.served hashes peer).Keeps hash da := by
  by_cases hr : b.Reaches hash da
  case pos => exact .inl hr.served
  case neg =>
    have hf : ¬b.failed := (n (by_contra fun hc => hr (.inl hc))).left
    have hm : hash ∈ b.queue ∨ hash ∈ hashes := by
      simpa [Keeps, hr, hp, Pc.fds, Pc.rest] using k
    cases mem_served hm hf
    case inl hq => exact .inr (.inr (.inl hq))
    case inr hd => exact .inl (.inr (.inl hd))

theorem Keeps.look {da' : Option DA} (hp : b.pc = .looking (h :: rest) fds)
    (hd : h = hash → da' = some da) (k : b.Keeps hash da) :
    Keeps { b with pc := .looking rest (fds ++ da'.toList) } hash da := by
  simp only [Keeps, hp, Pc.fds, Pc.rest, mem_cons, mem_append] at k ⊢
  refine k.imp_right fun k => ?_
  obtain k | k | rfl | k := k
  case inl         => exact .inl (.inl k)
  case inr.inl     => exact .inr (.inl k)
  case inr.inr.inl => exact .inl (.inr (by simp [hd rfl]))
  case inr.inr.inr => exact .inr (.inr k)

end Broadcaster

namespace Gossip

def chosenFor (ctx : Context) (s : Gossip) (fd : Ref) : List (Nat × Hash) :=
  (peersWithOut s.peers (ctx.heap fd)).map (·, hashOf (ctx.heap fd))

inductive Move (ctx : Context) (s : Gossip) : Event → Gossip → Prop
  | pass : s.syncer = .sending [] → Move ctx s .sync { s with syncer := .finished }
  | announce {daDatas : List Ref} : s.syncer = .sending daDatas → daDatas ≠ [] →
    Move ctx s .sync { s with syncer := .removing daDatas, fdsCh := s.fdsCh ++ [daDatas] }
  | remove {daDatas : List Ref} {pool : FilePool} : s.syncer = .removing daDatas →
    Move ctx s .sync { s with syncer := .finished, backend := { s.backend with pool } }
  | receive {e : Event} {fds : List Ref} {fdsCh : List (List Ref)} : s.loop = .select →
    s.fdsCh = fds :: fdsCh → Move ctx s e { s with loop := .choosing fds [], fdsCh }
  | abort {e : Event} {fd : Ref} {fds : List Ref} {fdset : List (Nat × Hash)} :
    s.loop = .choosing (fd :: fds) fdset → (ctx.heap fd).txHash = .zero →
    Move ctx s e { s with loop := .select }
  | choose {e : Event} {fd : Ref} {fds : List Ref} {fdset : List (Nat × Hash)} :
    s.loop = .choosing (fd :: fds) fdset →
    Move ctx s e { s with loop := .choosing fds (fdset ++ chosenFor ctx s fd) }
  | chosen {e : Event} {fdset : List (Nat × Hash)} : s.loop = .choosing [] fdset →
    Move ctx s e { s with loop := .sending fdset }
  | leave {e : Event} : s.loop = .sending [] → Move ctx s e { s with loop := .select }
  | serve {e : Event} {fdset : List (Nat × Hash)} {i : Nat} {b : Broadcaster} {peer : Peer} :
    s.loop = .sending fdset → s.peers[i]? = some b → b.pc = .select → hashesFor fdset i ≠ [] →
    Move ctx s e { s with
      loop := .sending (without fdset i)
      peers := s.peers.set i (b.served (hashesFor fdset i) peer) }
  | drop {e : Event} {fdset : List (Nat × Hash)} {i : Nat} {b : Broadcaster} :
    s.loop = .sending fdset → s.peers[i]? = some b → b.connection = .closed →
    hashesFor fdset i ≠ [] →
    Move ctx s e { s with loop := .sending (without fdset i) }
  | look {e : Event} {i : Nat} {b : Broadcaster} {hash : Hash} {rest fdHashCh : List Hash}
    {fds : List DA} {da : Option DA} : s.peers[i]? = some b →
    b.pc = .looking (hash :: rest) fds → getDA ctx s.backend hash = .ok da →
    Move ctx s e { s with
      fdHashCh
      peers := s.peers.set i { b with pc := .looking rest (fds ++ da.toList) } }
  | turn {e : Event} {i : Nat} {b b' : Broadcaster} : s.peers[i]? = some b → b.Turn b' →
    (b'.flight = .fail → b.flight = .fail ∨ ∃ popOrder err fds, e = .peer i (.sent popOrder err) ∧
      b.flight = .running fds ∧ ((sendFileDatas false fds).snd ≠ none ∨ err ≠ none)) →
    Move ctx s e { s with peers := s.peers.set i b' }

variable {ctx : Context} {s s' s₀ : Gossip} {e : Event} {i j : Nat} {b b' : Broadcaster}
variable {peers : List Broadcaster} {hash : Hash} {fd : Ref} {da : DA}

theorem sync_move (h : s.sync ctx = .ok s') : Move ctx s .sync s' := by
  unfold sync at h
  split at h
  case h_1 hs =>
    cases h
    exact .pass hs
  case h_2 hn hs =>
    split at h <;> cases h
    exact .announce hs hn
  case h_3 hs =>
    cases h
    exact .remove hs
  case h_4 => cases h

theorem broadcast_move (h : s.broadcast ctx = .ok s') : Move ctx s e s' := by
  unfold broadcast at h
  split at h
  case h_1 hl hc =>
    cases h
    exact .receive hl hc
  case h_2 hl =>
    unfold choose at h
    split_ifs at h with hz <;> cases h
    case pos => exact .abort hl hz.left
    case neg => exact .choose hl
  case h_3 hl =>
    cases h
    exact .chosen hl
  case h_4 hl =>
    cases h
    exact .leave hl
  case h_5 => cases h

theorem serve_move {popOrder : IterOrder Hash} (h : s.serve i popOrder = .ok s') :
    Move ctx s e s' := by
  unfold serve at h
  split at h
  case h_2 => cases h
  case h_1 hl hb =>
    split at h <;> cases h
    case h_1 hp hh =>
      rw [← hh]
      exact .serve hl hb hp (by simp [hh])

theorem drop_move (h : s.drop i = .ok s') : Move ctx s e s' := by
  unfold drop at h
  split at h
  case h_2 => cases h
  case h_1 hl hb =>
    split at h <;> cases h
    case isTrue hc => exact .drop hl hb hc.left (length_pos_iff.mp hc.right)

theorem peer_move {a : Broadcaster.Action} (h : s.peer ctx i a = .ok s') :
    Move ctx s (.peer i a) s' := by
  unfold peer at h
  split at h
  case h_1 => cases h
  case h_2 b hb =>
    split at h
    case h_1 hp =>
      unfold lookup at h
      split at h <;> cases h
      case h_2 hg => exact .look hb hp hg
      case h_3 hg => simpa using Move.look hb hp hg
    case h_2 =>
      obtain ⟨b', ha, h⟩ := Loop.bind_eq_ok h
      cases h
      refine .turn hb (Broadcaster.act_turn ha) fun hf => (Broadcaster.act_fail ha hf).imp_right ?_
      rintro ⟨popOrder, err, fds, rfl, hr⟩
      exact ⟨popOrder, err, fds, rfl, hr⟩

theorem step_move (h : step ctx s e = .ok s') : Move ctx s e s' := by
  cases e
  case sync      => exact sync_move h
  case broadcast => exact broadcast_move h
  case serve     => exact serve_move h
  case drop      => exact drop_move h
  case peer      => exact peer_move h
  case disconnect i =>
    simp only [step, disconnect] at h
    split at h
    case h_1 => cases h
    case h_2 b hb =>
      obtain ⟨b', hd, h⟩ := Loop.bind_eq_ok h
      cases h
      refine .turn hb (Broadcaster.disconnect_turn hd) fun hf => .inl ?_
      unfold Broadcaster.disconnect at hd
      grind

-- Data can be chosen for each of `n` peers.
def fdsLoad (n : Nat) (fds : List Ref) : Nat :=
  (1 + 7 * n) * fds.length

def Syncer.load (n : Nat) : Syncer → Nat
  | .sending daDatas => 5 + fdsLoad n daDatas
  | .removing _      => 1
  | .finished        => 0

def Loop.load (n : Nat) : Loop → Nat
  | .select             => 0
  | .choosing fds fdset => 2 + fdsLoad n fds + 7 * fdset.length
  | .sending fdset      => 1 + 7 * fdset.length

def load (s : Gossip) : Nat :=
  Syncer.load s.peers.length s.syncer + (s.fdsCh.map (3 + fdsLoad s.peers.length ·)).sum +
    Loop.load s.peers.length s.loop + (s.peers.map Broadcaster.load).sum

theorem length_peersWithOut (peers : List Broadcaster) (da : DA) :
    (peersWithOut peers da).length ≤ peers.length :=
  (length_filterMap_le _ _).trans length_zipIdx.le

theorem mem_hashesFor {fdset : List (Nat × Hash)} :
    hash ∈ hashesFor fdset i ↔ (i, hash) ∈ fdset := by
  simp [hashesFor]

theorem mem_without {fdset : List (Nat × Hash)} {x : Nat × Hash} :
    x ∈ without fdset i ↔ x ∈ fdset ∧ x.fst ≠ i := by
  simp [without]

theorem length_without (fdset : List (Nat × Hash)) (i : Nat) :
    (without fdset i).length + (hashesFor fdset i).length = fdset.length := by
  have := length_eq_length_filter_add (l := fdset) (·.fst = i)
  simp only [without, hashesFor, length_map]
  simp at this ⊢
  omega

theorem load_set_lt (hb : s.peers[i]? = some b) (h : b'.load < b.load) (fdHashCh : List Hash) :
    load { s with fdHashCh, peers := s.peers.set i b' } < s.load := by
  have := sum_set (f := Broadcaster.load) hb b'
  simp only [load, length_set]
  omega

theorem load_lt (h : Move ctx s e s') : s'.load < s.load := by
  cases h
  case pass h => simp [load, h, Syncer.load]
  case announce h _ =>
    simp only [load, h, Syncer.load, map_append, sum_append, map_cons, map_nil,
      sum_cons, sum_nil]
    omega
  case remove h => simp [load, h, Syncer.load]
  case receive hl hc =>
    simp only [load, hl, hc, Loop.load, map_cons, sum_cons, length_nil]
    omega
  case abort h _ =>
    simp only [load, h, Loop.load]
    omega
  case choose fd _ _ h =>
    have := length_peersWithOut s.peers (ctx.heap fd)
    simp only [load, h, Loop.load, fdsLoad, chosenFor, length_append, length_map,
      length_cons, Nat.mul_succ]
    omega
  case chosen h =>
    simp only [load, h, Loop.load]
    omega
  case leave h => simp [load, h, Loop.load]
  case serve fdset i b peer hl hb hp hn =>
    have := sum_set (f := Broadcaster.load) hb (b.served (hashesFor fdset i) peer)
    have := @Broadcaster.load_served b (hashesFor fdset i) hp peer
    have := length_without fdset i
    have := length_pos_iff.mpr hn
    simp only [load, hl, Loop.load, length_set]
    omega
  case drop fdset i _ h _ _ hn =>
    have := length_without fdset i
    have := length_pos_iff.mpr hn
    simp only [load, h, Loop.load]
    omega
  case look hb hp _ => exact load_set_lt hb (by simp [Broadcaster.load, hp, Broadcaster.Pc.load]) _
  case turn hb ht _ => exact load_set_lt hb ht.load_lt _

theorem terminates (ctx : Context) (s : Gossip) : (machine ctx s).Terminates :=
  terminates_of_decreasing load fun _ _ _ h => load_lt (step_move h)

def Loop.fds : Loop → List Ref
  | .choosing fds _ => fds
  | _               => []

def Loop.fdset : Loop → List (Nat × Hash)
  | .select           => []
  | .choosing _ fdset => fdset
  | .sending fdset    => fdset

structure Valid (s : Gossip) : Prop where
  peers : ∀ b ∈ s.peers, b.Valid
  fdset : ∀ x ∈ s.loop.fdset, x.fst < s.peers.length

theorem lt_of_mem_peersWithOut (h : i ∈ peersWithOut peers da) : i < peers.length := by
  obtain ⟨x, hx, he⟩ := mem_filterMap.mp h
  split at he <;> cases he
  simpa using snd_lt_of_mem_zipIdx hx

theorem forall_mem_set {α : Type} {P : α → Prop} {l : List α} {a : α} (h : ∀ a ∈ l, P a)
    (ha : P a) : ∀ a' ∈ l.set i a, P a' := by
  intro a' hm
  cases mem_or_eq_of_mem_set hm
  case inl hm => exact h a' hm
  case inr he => exact he ▸ ha

theorem Valid.move (h : Move ctx s e s') (v : s.Valid) : s'.Valid := by
  have hm {i : Nat} {b : Broadcaster} (hb : s.peers[i]? = some b) : b.Valid :=
    v.peers b (mem_of_getElem? hb)
  have hf {i : Nat} {b : Broadcaster} : ∀ x ∈ s.loop.fdset, x.fst < (s.peers.set i b).length :=
    fun x hx => (v.fdset x hx).trans_eq length_set.symm
  cases h
  case pass     => exact ⟨v.peers, v.fdset⟩
  case announce => exact ⟨v.peers, v.fdset⟩
  case remove   => exact ⟨v.peers, v.fdset⟩
  case receive  => exact ⟨v.peers, by simp [Loop.fdset]⟩
  case abort    => exact ⟨v.peers, by simp [Loop.fdset]⟩
  case leave    => exact ⟨v.peers, by simp [Loop.fdset]⟩
  case choose hl =>
    refine ⟨v.peers, fun x hx => ?_⟩
    cases mem_append.mp hx
    case inl h => exact v.fdset x (hl ▸ h)
    case inr h =>
      obtain ⟨i, hi, rfl⟩ := mem_map.mp h
      exact lt_of_mem_peersWithOut hi
  case chosen hl => exact ⟨v.peers, fun x hx => v.fdset x (hl ▸ hx)⟩
  case serve fdset i b peer hl hb hp _ =>
    refine ⟨forall_mem_set v.peers (hm hb).served, fun x hx => ?_⟩
    exact hf x (hl ▸ mem_of_mem_filter hx)
  case drop hl _ _ _ =>
    exact ⟨v.peers, fun x hx => v.fdset x (hl ▸ mem_of_mem_filter hx)⟩
  case look hb hp _ => exact ⟨forall_mem_set v.peers ((hm hb).found hp), hf⟩
  case turn hb ht _ => exact ⟨forall_mem_set v.peers ((hm hb).turn ht), hf⟩

-- Nothing more happens, unless a connection ends.
def AtRest (ctx : Context) (s : Gossip) : Prop :=
  ∀ e, (∀ i, e ≠ .disconnect i) → step ctx s e = .error .blocked

theorem AtRest.pc (h : AtRest ctx s) (hb : s.peers[i]? = some b) :
    b.pc = .select ∨ b.pc = .returned := by
  have hn := h (.peer i .next) (by simp)
  simp only [step, peer, hb] at hn
  cases hp : b.pc
  case select   => exact .inl rfl
  case returned => exact .inr rfl
  case top =>
    simp only [hp, Broadcaster.act] at hn
    cases hf : b.flight <;> simp only [hf] at hn
    case idle => split at hn <;> cases hn
    all_goals cases hn
  case looking rest fds =>
    cases rest <;> simp only [hp, Broadcaster.act, lookup] at hn
    case nil  => split at hn <;> cases hn
    case cons => split at hn <;> cases hn

theorem AtRest.flight (h : AtRest ctx s) (hb : s.peers[i]? = some b) (hp : b.pc = .select) :
    b.flight = .idle ∨ b.flight = .received := by
  have hd := h (.peer i .done) (by simp)
  have hf := h (.peer i .fail) (by simp)
  have hs := h (.peer i (.sent (fun _ => .along []) none)) (by simp)
  simp only [step, peer, hb, hp, Broadcaster.act] at hd hf hs
  cases hfl : b.flight <;> simp only [hfl] at hd hf hs
  case idle     => exact .inl rfl
  case received => exact .inr rfl
  case running  => cases hs
  case done     => cases hd
  case fail     => cases hf

theorem AtRest.loop (h : AtRest ctx s) (v : s.Valid) : s.loop = .select ∧ s.fdsCh = [] := by
  have hb := h .broadcast (by simp)
  simp only [step, broadcast] at hb
  cases hl : s.loop
  case select =>
    cases hc : s.fdsCh <;> simp only [hl, hc] at hb
    case nil  => exact ⟨rfl, rfl⟩
    case cons => cases hb
  case choosing fds fdset =>
    cases fds <;> simp only [hl] at hb
    case nil  => cases hb
    case cons => split at hb <;> cases hb
  case sending fdset =>
    cases fdset <;> simp only [hl] at hb
    case nil => cases hb
    case cons x fdset =>
      have hx := List.getElem?_eq_getElem (v.fdset x (by simp [hl, Loop.fdset]))
      have hh : hashesFor (x :: fdset) x.fst = x.snd :: hashesFor fdset x.fst := by
        simp [hashesFor]
      cases h.pc hx
      case inl hp =>
        have hs := h (.serve x.fst (.along [])) (by simp)
        simp only [step, serve, hl, hx, hp, hh] at hs
        cases hs
      case inr hp =>
        have hs := h (.drop x.fst) (by simp)
        have hc := (v.peers _ (mem_of_getElem? hx)).returned hp
        simp [step, drop, hl, hx, hc, hh] at hs

theorem AtRest.syncer (h : AtRest ctx s) (hc : s.fdsCh = []) : s.syncer = .finished := by
  have hs := h .sync (by simp)
  simp only [step, sync, hc] at hs
  cases hy : s.syncer
  case finished => rfl
  case removing => simp [hy] at hs
  case sending daDatas =>
    cases daDatas <;> simp [hy, fdChanSize] at hs

def Syncer.fds : Syncer → List Ref
  | .sending daDatas => daDatas
  | _                => []

-- The hashes that will be looked up in the pool as long as nothing fails.
def awaited (ctx : Context) (s : Gossip) : List Hash :=
  (s.syncer.fds ++ s.fdsCh.flatten ++ s.loop.fds).map (fun fd => hashOf (ctx.heap fd)) ++
    s.loop.fdset.map Prod.snd ++ s.peers.flatMap Broadcaster.awaited

theorem mem_awaited : hash ∈ s.awaited ctx ↔
    (∃ fd, (fd ∈ s.syncer.fds ∨ fd ∈ s.fdsCh.flatten ∨ fd ∈ s.loop.fds) ∧
      hashOf (ctx.heap fd) = hash) ∨
    (∃ i, (i, hash) ∈ s.loop.fdset) ∨ ∃ b ∈ s.peers, hash ∈ b.awaited := by
  simp only [awaited, map_append, mem_append, mem_map, mem_flatMap,
    Prod.exists, exists_eq_right, or_and_right, exists_or, or_assoc]

-- The hashes of the other peers are not affected by a step of one peer.
theorem exists_of_mem_set (h : ∃ x ∈ peers.set i b', hash ∈ x.awaited) :
    (∃ x ∈ peers, hash ∈ x.awaited) ∨ hash ∈ b'.awaited := by
  obtain ⟨x, hx, hh⟩ := h
  cases mem_or_eq_of_mem_set hx
  case inl hx => exact .inl ⟨x, hx, hh⟩
  case inr he => exact .inr (he ▸ hh)

theorem awaited_set (hb : s.peers[i]? = some b) (h : b'.awaited ⊆ b.awaited)
    (fdHashCh : List Hash) :
    awaited ctx { s with fdHashCh, peers := s.peers.set i b' } ⊆ s.awaited ctx := by
  intro hash hm
  refine mem_awaited.mpr ((mem_awaited.mp hm).imp_right (Or.imp_right fun hm => ?_))
  cases exists_of_mem_set hm
  case inl hm => exact hm
  case inr hm => exact ⟨b, mem_of_getElem? hb, h hm⟩

theorem awaited_subset (h : Move ctx s e s') : s'.awaited ctx ⊆ s.awaited ctx := by
  cases h
  case look hb hp _ => exact awaited_set hb (Broadcaster.awaited_looking hp) _
  case turn hb ht _ => exact awaited_set hb ht.awaited_subset _
  all_goals
    intro hash hm
    rw [mem_awaited] at hm ⊢
  case pass h       => grind [Syncer.fds]
  case announce h _ => grind [Syncer.fds, flatten_append]
  case remove h     => grind [Syncer.fds]
  case receive hl _ => grind [Loop.fds, Loop.fdset]
  case abort hl _   => grind [Loop.fds, Loop.fdset]
  case chosen hl    => grind [Loop.fds, Loop.fdset]
  case leave hl     => grind [Loop.fds, Loop.fdset]
  case choose hl    => grind [Loop.fds, Loop.fdset, chosenFor]
  case drop hl _ _ _ => grind [Loop.fds, Loop.fdset, without]
  case serve fdset i b peer hl hb _ _ =>
    simp only [hl, Loop.fds, Loop.fdset] at hm ⊢
    refine hm.imp_right fun hm => ?_
    cases hm
    case inl hm => exact .inl (hm.imp fun _ => mem_of_mem_filter)
    case inr hm =>
      cases exists_of_mem_set hm
      case inl hm => exact .inr hm
      case inr hm =>
        cases Broadcaster.mem_of_mem_awaited_served hm
        case inl hm => exact .inr ⟨b, mem_of_getElem? hb, hm⟩
        case inr hm => exact .inl ⟨i, mem_hashesFor.mp hm⟩

-- Data that a peer was chosen for is on its way, and the broadcast will not be given up.
def Kept (ctx : Context) (i : Nat) (fd : Ref) (s : Gossip) : Prop :=
  ∃ b, s.peers[i]? = some b ∧
    (b.Keeps (hashOf (ctx.heap fd)) (ctx.heap fd) ∨
      (i, hashOf (ctx.heap fd)) ∈ s.loop.fdset ∧ ∀ fd ∈ s.loop.fds, (ctx.heap fd).txHash ≠ .zero)

-- The pool has the data as long as it will be looked up.
def Secure (ctx : Context) (fd : Ref) (s : Gossip) : Prop :=
  hashOf (ctx.heap fd) ∈ s.awaited ctx → s.backend.pool.all.get (hashOf (ctx.heap fd)) = some fd

theorem Secure.getDA_eq {rest : List Hash} {fds : List DA} (c : Secure ctx fd s)
    (hb : s.peers[i]? = some b) (hp : b.pc = .looking (hashOf (ctx.heap fd) :: rest) fds)
    (hf : ¬b.failed) :
    getDA ctx s.backend (hashOf (ctx.heap fd)) = .ok (some (ctx.heap fd)) := by
  have hm : hashOf (ctx.heap fd) ∈ b.awaited := by
    simp [Broadcaster.awaited, hf, hp, Broadcaster.Pc.rest]
  rw [getDA, c (mem_awaited.mpr (.inr (.inr ⟨b, mem_of_getElem? hb, hm⟩)))]

theorem Kept.set (hb : s.peers[j]? = some b)
    (h : b.Keeps (hashOf (ctx.heap fd)) (ctx.heap fd) →
      b'.Keeps (hashOf (ctx.heap fd)) (ctx.heap fd)) (k : Kept ctx i fd s) (fdHashCh : List Hash) :
    Kept ctx i fd { s with fdHashCh, peers := s.peers.set j b' } := by
  obtain ⟨x, hx, k⟩ := k
  by_cases hj : j = i
  case pos =>
    subst hj
    cases hb.symm.trans hx
    exact ⟨b', List.getElem?_set_self (List.getElem?_eq_some_iff.mp hb).fst, k.imp_left h⟩
  case neg => exact ⟨x, (List.getElem?_set_ne hj).trans hx, k⟩

theorem Kept.move (h : Move ctx s e s') (c : Secure ctx fd s)
    (n : ∀ b ∈ s.peers, b.Intact) (k : Kept ctx i fd s) : Kept ctx i fd s' := by
  cases h
  case turn hb ht _ => exact k.set hb (.turn ht) _
  case look b hash _ _ _ _ hb hp hg =>
    refine k.set hb (fun k => ?_) _
    by_cases hf : b.failed
    case pos => exact .inl (.inl fun hc => (n b (mem_of_getElem? hb) hc).left hf)
    case neg =>
      refine k.look hp fun he => ?_
      subst he
      cases hg.symm.trans (c.getDA_eq hb hp hf)
      rfl
  all_goals obtain ⟨b, hb, k⟩ := k
  case pass     => exact ⟨b, hb, k⟩
  case announce => exact ⟨b, hb, k⟩
  case remove   => exact ⟨b, hb, k⟩
  case receive hl _ => exact ⟨b, hb, .inl (k.resolve_right (by simp [hl, Loop.fdset]))⟩
  case leave hl     => exact ⟨b, hb, .inl (k.resolve_right (by simp [hl, Loop.fdset]))⟩
  case chosen hl    => exact ⟨b, hb, by simpa [hl, Loop.fdset, Loop.fds] using k⟩
  case abort hl hz  =>
    refine ⟨b, hb, .inl (k.resolve_right fun k => ?_)⟩
    exact k.right _ (by simp [hl, Loop.fds]) hz
  case choose hl =>
    refine ⟨b, hb, k.imp_right fun k => ⟨?_, fun fd hf => ?_⟩⟩
    case refine_1 =>
      rw [hl] at k
      exact mem_append_left _ k.left
    case refine_2 => exact k.right fd (by simpa [hl, Loop.fds] using .inr hf)
  case drop j x hl hx hc _ =>
    refine ⟨b, hb, ?_⟩
    by_cases hj : j = i
    case pos =>
      subst hj
      cases hb.symm.trans hx
      exact .inl (.inl (.inl (by simp [hc])))
    case neg =>
      rw [hl] at k
      exact k.imp_right fun k => ⟨mem_without.mpr ⟨k.left, Ne.symm hj⟩, k.right⟩
  case serve fdset j x peer hl hx hp _ =>
    rw [hl] at k
    by_cases hj : j = i
    case pos =>
      subst hj
      cases hb.symm.trans hx
      have hk := k.imp_right fun k => mem_hashesFor.mpr k.left
      exact ⟨_, List.getElem?_set_self (List.getElem?_eq_some_iff.mp hb).fst,
        .inl (.served hp (n x (mem_of_getElem? hb)) hk)⟩
    case neg =>
      refine ⟨b, (List.getElem?_set_ne hj).trans hb, k.imp_right fun k => ?_⟩
      exact ⟨mem_without.mpr ⟨k.left, Ne.symm hj⟩, k.right⟩

theorem Kept.reaches (h : AtRest ctx s) (v : s.Valid) (n : ∀ b ∈ s.peers, b.Intact)
    (k : Kept ctx i fd s) :
    ∃ b, s.peers[i]? = some b ∧ b.Reaches (hashOf (ctx.heap fd)) (ctx.heap fd) := by
  obtain ⟨b, hb, k⟩ := k
  have hk := k.resolve_right (by simp [(h.loop v).left, Loop.fdset])
  have hv := v.peers b (mem_of_getElem? hb)
  refine ⟨b, hb, ?_⟩
  cases h.pc hb
  case inr hp => exact .inl (by simp [hv.returned hp])
  case inl hp =>
    cases h.flight hb hp
    case inr hf => exact .inl fun hc => (n b (mem_of_getElem? hb) hc).left (hv.received hf)
    case inl hf =>
      refine hk.resolve_right ?_
      simp [hp, hv.select hp hf, Broadcaster.Pc.fds, Broadcaster.Pc.rest]

section Gossiped

variable {daDatas : List Ref}

-- The batch is complete, and the pool has it. The other goroutines are anywhere.
structure Ready (ctx : Context) (daDatas : List Ref) (s : Gossip) : Prop where
  syncer : s.syncer = .sending daDatas
  held : ∀ fd ∈ daDatas, s.backend.pool.all.get (hashOf (ctx.heap fd)) = some fd
  txHash : ∀ fd ∈ daDatas, (ctx.heap fd).txHash ≠ .zero
  valid : s.Valid

-- The step in which peers are chosen for data of the batch.
def Chooses (ctx : Context) (daDatas : List Ref) (fd : Ref) (s₁ s₂ : Gossip) : Prop :=
  ∃ fds fdset, s₁.loop = .choosing (fd :: fds) fdset ∧ (fd :: fds) <:+ daDatas ∧
    step ctx s₁ .broadcast = .ok s₂

-- Nothing runs forever or panics. Peers are chosen for all data of the batch before everything
-- comes to rest, and the data then reaches those that did not know it.
structure Gossiped (ctx : Context) (G : Gossip → Event → Prop) (daDatas : List Ref)
    (s₀ : Gossip) : Prop where
  terminates : (machine ctx s₀).Terminates
  safe : ∀ s e, (machine ctx s₀).Reachable G s → G s e → ∀ p, step ctx s e ≠ .error (.panic p)
  chosen : ∀ s, (machine ctx s₀).Reachable G s → AtRest ctx s → ∀ fd ∈ daDatas, ∃ s₁ s₂,
    (machine ctx s₀).Reachable G s₁ ∧ Chooses ctx daDatas fd s₁ s₂ ∧ (machine ctx s₂).Reachable G s
  reached : ∀ s₁ s₂ s fd, (machine ctx s₀).Reachable G s₁ → Chooses ctx daDatas fd s₁ s₂ →
    (machine ctx s₂).Reachable G s → AtRest ctx s →
    ∀ (i : Nat) (b : Broadcaster), s₁.peers[i]? = some b → b.connection = .registered →
      isWithOut b.peer (ctx.heap fd) →
      ∃ b, s.peers[i]? = some b ∧ b.Reaches (hashOf (ctx.heap fd)) (ctx.heap fd)

structure Careful (ctx : Context) (s : Gossip) (e : Event) : Prop where
  -- Data is not removed from the pool while it will still be looked up.
  removed : e = .sync → ∀ daDatas, s.syncer = .removing daDatas →
    ∀ fd ∈ daDatas, hashOf (ctx.heap fd) ∉ s.awaited ctx
  -- No send to a connected peer fails.
  sent : ∀ i popOrder err b fds, e = .peer i (.sent popOrder err) → s.peers[i]? = some b →
    b.flight = .running fds → b.connection = .registered →
    (sendFileDatas false fds).snd = none ∧ err = none
  -- A row that is read for data that the pool does not have can be loaded.
  loads : ∀ i b hash rest fds, e = .peer i .next → s.peers[i]? = some b →
    b.pc = .looking (hash :: rest) fds → s.backend.pool.all.get hash = none →
    ∀ r, s.backend.das.rows.find? (·.txHash = hash.hex) = some r → ¬Db.Unloadable ctx.setBytes r

structure Sound (ctx : Context) (daDatas : List Ref) (s : Gossip) : Prop where
  valid : s.Valid
  syncer : s.syncer = .sending daDatas ∨ s.syncer = .removing daDatas ∨ s.syncer = .finished
  secure : ∀ fd ∈ daDatas, Secure ctx fd s
  intact : ∀ b ∈ s.peers, b.Intact

theorem Careful.intact (g : Careful ctx s e) (h : Move ctx s e s') (n : ∀ b ∈ s.peers, b.Intact) :
    ∀ b ∈ s'.peers, b.Intact := by
  have hm {i : Nat} {b : Broadcaster} (hb : s.peers[i]? = some b) : b.Intact :=
    n b (mem_of_getElem? hb)
  cases h
  case serve hb _ _ => exact forall_mem_set n (by simpa [Broadcaster.Intact] using hm hb)
  case look hb _ _ =>
    have hi := hm hb
    exact forall_mem_set n hi
  case turn i b b' hb ht hf =>
    refine forall_mem_set n ((hm hb).turn ht fun hc hb' => ?_)
    obtain hf | ⟨popOrder, err, fds, he, hr, hn⟩ := hf hb'
    case inl => exact (hm hb hc).right hf
    case inr =>
      have := g.sent i popOrder err b fds he hb hr hc
      simp [this] at hn
  all_goals exact n

-- Only a lookup can panic.
theorem exists_of_panic {p : GoPanic} (h : step ctx s e = .error (.panic p)) :
    ∃ i b hash rest fds, e = .peer i .next ∧ s.peers[i]? = some b ∧
      b.pc = .looking (hash :: rest) fds ∧ getDA ctx s.backend hash = .error p := by
  cases e
  case peer i a =>
    simp only [step, peer] at h
    split at h
    case h_1 => cases h
    case h_2 b hb =>
      split at h
      case h_1 hash rest fds hp =>
        unfold lookup at h
        split at h <;> cases h
        case h_1 hd => exact ⟨i, b, hash, rest, fds, rfl, hb, hp, hd⟩
      case h_2 a _ _ _ =>
        cases ha : b.act ctx a <;> rw [ha] at h <;> cases h
        case error => cases Broadcaster.act_error ha
  all_goals
    simp only [step, sync, broadcast, serve, drop, disconnect, Broadcaster.disconnect] at h
    split at h <;> try cases h
    split at h <;> cases h

theorem Careful.not_panic (g : Careful ctx s e) (p : GoPanic) : step ctx s e ≠ .error (.panic p) := by
  intro h
  obtain ⟨i, b, hash, rest, fds, he, hb, hp, hd⟩ := exists_of_panic h
  have hn : s.backend.pool.all.get hash = none := by
    cases hg : s.backend.pool.all.get hash
    case none => rfl
    case some => simp [getDA, hg] at hd
  obtain ⟨r, hr⟩ := getDA_ok_iff.mpr (.inr (g.loads i b hash rest fds he hb hp hn))
  cases hd.symm.trans hr

theorem Ready.sound (r : Ready ctx daDatas s) (n : ∀ b ∈ s.peers, b.Intact) :
    Sound ctx daDatas s where
  valid := r.valid
  syncer := .inl r.syncer
  secure fd hf _ := r.held fd hf
  intact := n

theorem Secure.mono (c : Secure ctx fd s) (ha : s'.awaited ctx ⊆ s.awaited ctx)
    (hp : s'.backend.pool = s.backend.pool) : Secure ctx fd s' :=
  fun hm => hp ▸ c (ha hm)

theorem Sound.move (g : Careful ctx s e) (h : Move ctx s e s') (i : Sound ctx daDatas s) :
    Sound ctx daDatas s' := by
  have ha := awaited_subset h
  refine ⟨i.valid.move h, ?_, fun fd hf => ?_, g.intact h i.intact⟩
  case refine_1 =>
    have hs := i.syncer
    cases h <;> simp_all
  case refine_2 =>
    have hs := i.syncer
    have hc := i.secure fd hf
    cases h
    case remove h =>
      have hd : s.syncer = .removing daDatas := by simp_all
      exact fun hm => absurd (ha hm) (g.removed rfl daDatas hd fd hf)
    all_goals exact hc.mono ha rfl

theorem Sound.reachable (i : Sound ctx daDatas s₀)
    (r : (machine ctx s₀).Reachable (Careful ctx) s) : Sound ctx daDatas s :=
  r.invariant i fun _ _ _ i g h => i.move g (step_move h)

theorem Kept.reachable (hf : fd ∈ daDatas) (so : Sound ctx daDatas s₀)
    (k : Kept ctx i fd s₀) (r : (machine ctx s₀).Reachable (Careful ctx) s) : Kept ctx i fd s := by
  have h := r.invariant (I := fun s => Sound ctx daDatas s ∧ Kept ctx i fd s) ⟨so, k⟩
    fun _ _ _ h g hs =>
      ⟨h.left.move g (step_move hs), h.right.move (step_move hs) (h.left.secure fd hf) h.left.intact⟩
  exact h.right

theorem mem_peersWithOut (hb : peers[i]? = some b) (hc : b.connection = .registered)
    (hw : isWithOut b.peer da) : i ∈ peersWithOut peers da := by
  refine mem_filterMap.mpr ⟨(b, i), mem_zipIdx_iff_getElem?.mpr hb, ?_⟩
  exact if_pos ⟨hc, hw⟩

theorem broadcast_eq {fds : List Ref} {fdset : List (Nat × Hash)}
    (hl : s.loop = .choosing (fd :: fds) fdset) (ht : (ctx.heap fd).txHash ≠ .zero) :
    step ctx s .broadcast =
      .ok { s with loop := .choosing fds (fdset ++ chosenFor ctx s fd) } := by
  simp only [step, broadcast, choose, hl, ht, false_and, if_false]
  rfl

-- The steps of the loop that chooses the peers, if nothing else happens meanwhile.
theorem run_broadcast {fds : List Ref} {fdset fdset' : List (Nat × Hash)}
    (hl : s.loop = .choosing fds fdset)
    (h : broadcastFileData s.peers (fds.map ctx.heap) fdset = some fdset') :
    (machine ctx s₀).run s (List.replicate fds.length .broadcast) =
      .ok { s with loop := .choosing [] fdset' } := by
  induction fds generalizing s fdset
  case nil =>
    cases h
    rw [← hl]
    rfl
  case cons fd fds hi =>
    obtain ⟨fdset₁, h₁, h⟩ := Option.bind_eq_some_iff.mp h
    refine (Loop.bind_of_eq_ok ?_).trans (hi (s := { s with loop := .choosing fds fdset₁ }) rfl h)
    simp only [machine, step, broadcast, hl, h₁]

theorem Chooses.kept {s₁ s₂ : Gossip} (ht : ∀ fd ∈ daDatas, (ctx.heap fd).txHash ≠ .zero)
    (h : Chooses ctx daDatas fd s₁ s₂) (hb : s₁.peers[i]? = some b)
    (hc : b.connection = .registered) (hw : isWithOut b.peer (ctx.heap fd)) : Kept ctx i fd s₂ := by
  obtain ⟨fds, fdset, hl, hs, h⟩ := h
  cases h.symm.trans (broadcast_eq hl (ht fd (hs.subset mem_cons_self)))
  refine ⟨b, hb, .inr ⟨?_, fun fd hf => ht fd (hs.subset (mem_cons_of_mem _ hf))⟩⟩
  exact mem_append_right _ (mem_map_of_mem (mem_peersWithOut hb hc hw))

def Pending (daDatas : List Ref) (fd : Ref) (s : Gossip) : Prop :=
  s.syncer = .sending daDatas ∨ daDatas ∈ s.fdsCh ∨ s.loop.fds <:+ daDatas ∧ fd ∈ s.loop.fds

theorem Pending.of_loop {loop : Loop} (p : Pending daDatas fd s)
    (hl : s.loop.fds = []) : Pending daDatas fd { s with loop, peers } := by
  simp only [Pending, hl, not_mem_nil, and_false, or_false] at p
  exact p.imp_right .inl

theorem Pending.move (ht : ∀ fd ∈ daDatas, (ctx.heap fd).txHash ≠ .zero) (hf : fd ∈ daDatas)
    (h : Move ctx s e s') (p : Pending daDatas fd s) :
    Pending daDatas fd s' ∨ Chooses ctx daDatas fd s s' := by
  cases h
  case look => exact .inl p
  case turn => exact .inl p
  case chosen hl      => exact .inl (p.of_loop (by rw [hl, Loop.fds]))
  case leave hl       => exact .inl (p.of_loop (by rw [hl]; rfl))
  case serve hl _ _ _ => exact .inl (p.of_loop (by rw [hl]; rfl))
  case drop hl _ _ _  => exact .inl (p.of_loop (by rw [hl]; rfl))
  case remove hs =>
    refine .inl (.inr (p.resolve_left fun h => ?_))
    cases hs.symm.trans h
  case pass hs =>
    refine .inl (.inr (p.resolve_left fun h => ?_))
    cases hs.symm.trans h
    cases hf
  case announce hs _ =>
    left
    obtain p | p | p := p
    case inl =>
      cases hs.symm.trans p
      exact .inr (.inl (mem_append_right _ mem_cons_self))
    case inr.inl => exact .inr (.inl (mem_append_left _ p))
    case inr.inr => exact .inr (.inr p)
  case receive fds _ hl hc =>
    left
    obtain p | p | p := p
    case inl => exact .inl p
    case inr.inl =>
      rw [hc] at p
      cases p
      case head   => exact .inr (.inr ⟨suffix_refl _, hf⟩)
      case tail p => exact .inr (.inl p)
    case inr.inr => simp [hl, Loop.fds] at p
  case abort hl hz =>
    refine .inl (p.imp_right fun p => .inl (p.resolve_right fun p => ?_))
    rw [hl] at p
    exact ht _ (p.left.subset mem_cons_self) hz
  case choose fd' fds fdset hl =>
    obtain p | p | p := p
    case inl     => exact .inl (.inl p)
    case inr.inl => exact .inl (.inr (.inl p))
    case inr.inr =>
      rw [hl] at p
      cases mem_cons.mp p.right
      case inl he =>
        subst he
        exact .inr ⟨fds, fdset, hl, p.left, broadcast_eq hl (ht fd hf)⟩
      case inr hm => exact .inl (.inr (.inr ⟨(suffix_cons fd' fds).trans p.left, hm⟩))

theorem AtRest.not_pending (h : AtRest ctx s) (v : s.Valid) : ¬Pending daDatas fd s := by
  obtain ⟨hl, hc⟩ := h.loop v
  simp [Pending, hl, hc, h.syncer hc, Loop.fds]

def confirmed : DA :=
  { DA.zero with
    txHash := .fill 1
    commitment := { Digest.zero with x := ⟨[5, 0, 0, 0], rfl⟩ }
  }

noncomputable def confirmedContext : Context :=
  { quietContext (fun _ => .along []) with heap := fun _ => confirmed }

def waiting : Broadcaster where
  peer := newPeer
  connection := .registered
  queue := []
  flight := .idle
  failed := false
  pc := .select
  handed := []
  dropped := []

def confirmedPool : FilePool :=
  { emptyBackend.pool with all := emptyBackend.pool.all.add 0 confirmed }

-- There is one peer, which does not know anything.
def completed : Gossip where
  backend := { emptyBackend with pool := confirmedPool }
  syncer := .sending [0]
  fdsCh := []
  fdHashCh := []
  loop := .select
  peers := [waiting]

theorem waiting_valid : waiting.Valid where
  select _ _ := rfl
  looking _ _ h := by cases h
  returned h := by cases h
  received h := by cases h

theorem ready_completed : Ready confirmedContext [0] completed where
  syncer := rfl
  held := by
    have hg : confirmedPool.all.get (hashOf confirmed) = some 0 := by decide +kernel
    exact forall_mem_singleton.mpr hg
  txHash := by
    have ht : confirmed.txHash ≠ .zero := by decide
    exact forall_mem_singleton.mpr ht
  valid := ⟨forall_mem_singleton.mpr waiting_valid, by simp [completed, Loop.fdset]⟩

theorem atRest_of_idle (hs : s.syncer = .finished) (hc : s.fdsCh = []) (hl : s.loop = .select)
    (hp : ∀ b ∈ s.peers, b.pc = .select ∧ b.flight = .idle ∧ b.connection ≠ .closed) :
    AtRest ctx s := by
  intro e he
  cases e
  case sync         => simp [step, sync, hs]
  case broadcast    => simp [step, broadcast, hl, hc]
  case serve        => simp [step, serve, hl]
  case drop         => simp [step, drop, hl]
  case disconnect i => exact absurd rfl (he i)
  case peer i a =>
    simp only [step, peer]
    cases hb : s.peers[i]?
    case none   => rfl
    case some b =>
      obtain ⟨hpc, hf, hn⟩ := hp b (mem_of_getElem? hb)
      cases a <;> simp only [hpc, hf, hn, Broadcaster.act, if_false] <;> rfl

theorem careful_of_empty (hs : e ≠ .sync) (he : ∀ i popOrder err, e ≠ .peer i (.sent popOrder err))
    (hd : s.backend.das = []) : Careful ctx s e where
  removed h := absurd h hs
  sent i popOrder err _ _ h := absurd h (he i popOrder err)
  loads _ _ _ _ _ _ _ _ _ r hr := by simp [hd, Sql.Table.rows] at hr

theorem Move.das (h : Move ctx s e s') : s'.backend.das = s.backend.das := by
  cases h <;> rfl

theorem reachable_of_empty {es : List Event}
    (r : (machine ctx s₀).Reachable (Careful ctx) s) (hd : s.backend.das = [])
    (he : ∀ e ∈ es, e ≠ .sync ∧ ∀ i popOrder err, e ≠ .peer i (.sent popOrder err))
    (h : (machine ctx s₀).run s es = .ok s') : (machine ctx s₀).Reachable (Careful ctx) s' := by
  induction es generalizing s
  case nil =>
    cases h
    exact r
  case cons e es hi =>
    obtain ⟨hx, he⟩ := forall_mem_cons.mp he
    obtain ⟨s₁, h₁, h⟩ := Loop.bind_eq_ok h
    exact hi (r.step (careful_of_empty hx.left hx.right hd) h₁)
      ((step_move h₁).das.trans hd) he h

-- The data is removed after it was looked up for the peer.
theorem handed_completed :
    ∃ s b, (machine confirmedContext completed).Reachable (Careful confirmedContext) s ∧
      AtRest confirmedContext s ∧ s.syncer = .finished ∧ s.peers[0]? = some b ∧
      b.handed = [confirmed] := by
  let m := machine confirmedContext completed
  obtain ⟨s₁, s₂, s₃, s₄, s₅, h₁, h₂, h₃, h₄, h₅, d₁, ha, hp, hy, d₄, hr, hs, b, hb⟩ :
      ∃ s₁ s₂ s₃ s₄ s₅, step confirmedContext completed .sync = .ok s₁ ∧
      m.run s₁ [.broadcast, .broadcast, .broadcast, .serve 0 (.along []), .broadcast,
        .peer 0 .next, .peer 0 .next, .peer 0 .next] = .ok s₂ ∧
      step confirmedContext s₂ .sync = .ok s₃ ∧
      step confirmedContext s₃ (.peer 0 (.sent (fun _ => .along []) none)) = .ok s₄ ∧
      m.run s₄ [.peer 0 .done, .peer 0 .next] = .ok s₅ ∧
      s₁.backend.das = [] ∧ s₂.awaited confirmedContext = [] ∧
      (∀ b, s₃.peers[0]? = some b → b.flight = .running [confirmed]) ∧
      (sendFileDatas false [confirmed]).snd = none ∧ s₄.backend.das = [] ∧
      AtRest confirmedContext s₅ ∧ s₅.syncer = .finished ∧
      ∃ b, s₅.peers[0]? = some b ∧ b.handed = [confirmed] := by
    refine ⟨_, _, _, _, _, rfl, rfl, rfl, rfl, rfl, rfl, rfl, ?_, rfl, rfl, ?_, rfl, _, rfl, rfl⟩
    case refine_1 =>
      rintro b ⟨⟩
      rfl
    case refine_2 =>
      refine atRest_of_idle rfl rfl rfl (forall_mem_singleton.mpr ⟨rfl, rfl, ?_⟩)
      exact Connection.noConfusion
  have r₁ : m.Reachable (Careful confirmedContext) s₁ :=
    .step (e := .sync) .init ⟨fun _ _ h => (by cases h), by simp, by simp⟩ h₁
  have r₂ := reachable_of_empty r₁ d₁ (by simp) h₂
  have r₃ : m.Reachable (Careful confirmedContext) s₃ :=
    .step (e := .sync) r₂ ⟨fun _ _ _ _ _ => by simp [ha], by simp, by simp⟩ h₃
  have r₄ : m.Reachable (Careful confirmedContext) s₄ := by
    refine .step (e := .peer 0 (.sent (fun _ => .along []) none)) r₃ ⟨by simp, ?_, by simp⟩ h₄
    rintro _ _ _ b fds ⟨⟩ hb hf -
    cases (hp b hb).symm.trans hf
    exact ⟨hy, rfl⟩
  exact ⟨s₅, b, reachable_of_empty r₄ d₄ (by simp) h₅, hr, hs, hb⟩

-- The data is gossiped if it is only removed after it has been looked up, and if no send fails.
theorem gossiped_of_careful (ctx : Context) (daDatas : List Ref) (s : Gossip)
    (r : Ready ctx daDatas s) (n : ∀ b ∈ s.peers, b.Intact) :
    Gossiped ctx (Careful ctx) daDatas s where
  terminates := terminates ctx s
  safe s e _ g := g.not_panic
  chosen s' rs h fd hf := by
    have hp : ¬Pending daDatas fd s' := h.not_pending ((r.sound n).reachable rs).valid
    exact rs.exists_of_leave (.inl r.syncer)
      (fun _ _ _ p hs => p.move r.txHash hf (step_move hs)) hp
  reached s₁ s₂ s' fd rs hc rs' h i b hb hr hw := by
    have so₁ := (r.sound n).reachable rs
    obtain ⟨fds, fdset, hl, hs, hst⟩ := id hc
    have hf : fd ∈ daDatas := hs.subset List.mem_cons_self
    have so₂ := so₁.move ⟨by simp, by simp, by simp⟩ (step_move hst)
    have k := (hc.kept r.txHash hb hr hw).reachable hf so₂ rs'
    exact k.reaches h (so₂.reachable rs').valid (so₂.reachable rs').intact

theorem gossiped_completed :
    Gossiped confirmedContext (Careful confirmedContext)
      [0] completed ∧
    ∃ s b, (machine confirmedContext completed).Reachable
        (Careful confirmedContext) s ∧
      AtRest confirmedContext s ∧ s.syncer = .finished ∧
      s.peers[0]? = some b ∧ b.handed = [confirmed] := by
  have n : ∀ b ∈ completed.peers, b.Intact :=
    forall_mem_singleton.mpr fun _ => ⟨by decide, by simp [waiting]⟩
  exact ⟨gossiped_of_careful _ _ _ ready_completed n, handed_completed⟩

theorem not_gossiped_removed :
    ¬∀ (ctx : Context) (daDatas : List Ref) (s : Gossip), Ready ctx daDatas s →
      Gossiped ctx anyStep daDatas s := by
  intro h
  have h := (h _ _ _ ready_completed).reached
  obtain ⟨s₁, s₂, s, h₁, hc, h₂, hb, hn, hs⟩ : ∃ s₁ s₂ s,
      (machine confirmedContext completed).run completed
        [.sync, .sync, .broadcast] = .ok s₁ ∧
      Chooses confirmedContext [0] 0 s₁ s₂ ∧
      (machine confirmedContext s₂).run s₂ [.broadcast,
        .serve 0 (.along []), .peer 0 .next, .peer 0 .next, .peer 0 .next, .broadcast] = .ok s ∧
      s₁.peers[0]? = some waiting ∧
      (∀ b, s.peers[0]? = some b →
        b.connection = .registered ∧ ¬b.failed ∧ b.dropped = [] ∧ b.handed = []) ∧
      AtRest confirmedContext s := by
    refine ⟨_, _, _, rfl, ⟨[], [], rfl, suffix_refl _, rfl⟩, rfl, rfl, fun b hb => ?_, ?_⟩
    case refine_1 =>
      cases hb
      exact ⟨rfl, Bool.false_ne_true, rfl, rfl⟩
    case refine_2 =>
      refine atRest_of_idle rfl rfl rfl (forall_mem_singleton.mpr ⟨rfl, rfl, ?_⟩)
      exact Connection.noConfusion
  obtain ⟨b, hb', hr⟩ := h s₁ s₂ s 0 (Reachable.init.run (fun _ _ _ => trivial) h₁) hc
    (Reachable.init.run (fun _ _ _ => trivial) h₂) hs 0 waiting hb rfl (by decide +kernel)
  obtain ⟨hc, hf, hd, hh⟩ := hn b hb'
  simp [Broadcaster.Reaches, hc, hd, hh] at hr

end Gossiped

end Gossip
end Eth
