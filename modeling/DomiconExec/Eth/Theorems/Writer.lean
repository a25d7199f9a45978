import DomiconExec.Eth.Writer
import DomiconExec.Eth.Theorems.Gossip

namespace Eth.Writer

open List Transition.System

variable {s s' : Writer} {e : Event} {i hashesCount : Nat} {fds : List DA}

section Queue

variable {α : Type}

-- Source and destination overlap, but what remains is the end of the queue.
@[simp]
theorem shift_eq_drop (queue : List α) (n : Nat) : shift queue n = queue.drop n := by
  have hl : (queue.drop n).length ≤ queue.length := by simp
  rw [shift, copy, take_of_length_le hl, Nat.min_eq_right hl, take_left']
  rfl

end Queue

inductive Turn (s : Writer) : Writer → Prop
  | idle : s.pc = .top → Turn s { s with pc := .select }
  | look : s.pc = .top → s.done = none → Turn s { s with pc := .looking 0 0 [] }
  | lookup {i hashesCount : Nat} {fds : List DA} {hash : Hash} (fd : Option DA)
    (err : Option GoError) : s.pc = .looking i hashesCount fds → s.queue[i]? = some hash →
      Turn s (s.lookup i hashesCount fds hash fd err)
  | launch {i hashesCount : Nat} {fds : List DA} : s.pc = .looking i hashesCount fds →
    s.queue.length ≤ i → Turn s (s.launch hashesCount fds)
  | receive (hashes : List Hash) : s.pc = .select → Turn s (s.receive hashes)
  | done {i : Nat} : s.pc = .select → s.done = some i → s.senders[i]? = some .closed →
    Turn s { s with done := none, pc := .top }
  | fail {err : GoError} {fail : List GoError} : s.pc = .select → s.fail = err :: fail →
    Turn s { s with fail, failed := true, pc := .top }
  | term : s.pc = .select → Turn s { s with pc := .returned }
  | close {i : Nat} {fds : List DA} : s.senders[i]? = some (.sending fds) →
    Turn s { s with senders := s.senders.set i .closed }
  | refuse {i : Nat} {fds : List DA} (err : GoError) : s.senders[i]? = some (.sending fds) →
    Turn s { s with senders := s.senders.set i (.failing err) }
  | push {i : Nat} {err : GoError} : s.senders[i]? = some (.failing err) →
    Turn s { s with fail := s.fail ++ [err], senders := s.senders.set i .returned }

theorem turn_of_step (h : s.step e = .ok s') : Turn s s' := by
  unfold step at h
  split at h
  case h_1 hp =>
    split at h
    case isTrue hd =>
      cases h
      exact .look hp hd.left
    case isFalse =>
      cases h
      exact .idle hp
  case h_2 fd err i hashesCount fds hp =>
    split at h
    case h_1 hq =>
      cases h
      exact .lookup fd err hp hq
    case h_2 => cases h
  case h_3 hp =>
    split at h
    case isTrue => cases h
    case isFalse hi =>
      cases h
      exact .launch hp (Nat.le_of_not_lt hi)
  case h_4 hashes hp =>
    cases h
    exact .receive hashes hp
  case h_5 hp =>
    split at h
    case h_2 => cases h
    case h_1 hs =>
      cases h
      obtain ⟨i, hd, hs⟩ := Option.bind_eq_some_iff.mp hs
      exact .done hp hd hs
  case h_6 hp =>
    split at h
    case h_1 hf =>
      cases h
      exact .fail hp hf
    case h_2 => cases h
  case h_7 hp =>
    cases h
    exact .term hp
  case h_8 =>
    split at h
    case h_1 hs =>
      cases h
      exact .close hs
    case h_2 err hs =>
      cases h
      exact .refuse err hs
    case h_3 => cases h
  case h_9 =>
    split at h
    case h_2 => cases h
    case h_1 hs =>
      split at h
      case isFalse => cases h
      case isTrue =>
        cases h
        exact .push hs
  case h_10 => cases h

section Senders

variable {done : Option Nat} {senders : List Sender} {x : Sender}

-- All goroutines have closed their channel, but for the last one while it is waited for.
inductive Settled : Option Nat → List Sender → Prop
  | idle {l : List Sender} : (∀ x ∈ l, x = .closed) → Settled none l
  | busy {l : List Sender} (x : Sender) : (∀ x ∈ l, x = .closed) → Settled (some l.length) (l ++ [x])

def Sender.isSending : Sender → Bool
  | .sending _ => true
  | _          => false

def Sender.isFailed : Sender → Bool
  | .failing _ | .returned => true
  | _                      => false

namespace Settled

theorem launch (h : Settled none senders) : Settled (some senders.length) (senders ++ [x]) := by
  cases h
  case idle hc => exact .busy x hc

-- The goroutine that has not closed its channel is the last one.
theorem done_eq (h : Settled done senders) (hi : senders[i]? = some x) (hx : x ≠ .closed) :
    done = some i := by
  cases h
  case idle hc => exact absurd (hc x (mem_of_getElem? hi)) hx
  case busy l y hc =>
    by_cases hl : i < l.length
    case pos =>
      rw [List.getElem?_append_left hl] at hi
      exact absurd (hc x (mem_of_getElem? hi)) hx
    case neg =>
      have hb := (List.getElem?_eq_some_iff.mp hi).choose
      rw [length_append, length_singleton] at hb
      exact congrArg some <| Nat.le_antisymm (Nat.le_of_not_lt hl) (Nat.le_of_lt_succ hb)

theorem set (h : Settled (some i) senders) (y : Sender) : Settled (some i) (senders.set i y) := by
  cases h
  case busy l x hc =>
    rw [set_append_right _ _ (Nat.le_refl _), Nat.sub_self]
    exact .busy y hc

theorem received (h : Settled (some i) senders) (hi : senders[i]? = some .closed) :
    Settled none senders := by
  cases h
  case busy l x hc =>
    rw [List.getElem?_concat_length] at hi
    refine .idle fun y hy => ?_
    rcases mem_append.mp hy with hy | hy
    case inl => exact hc y hy
    case inr => exact (mem_singleton.mp hy).trans (Option.some.inj hi)

theorem countP_isSending (h : Settled done senders) : senders.countP Sender.isSending ≤ 1 := by
  have hz {l : List Sender} (hc : ∀ x ∈ l, x = .closed) : l.countP Sender.isSending = 0 :=
    List.countP_eq_zero.mpr fun x hx => hc x hx ▸ Bool.false_ne_true
  cases h
  case idle hc => exact (hz hc).symm ▸ Nat.zero_le 1
  case busy l x hc =>
    rw [countP_append, hz hc, Nat.zero_add]
    exact List.countP_le_length

end Settled

end Senders

def waiting (s : Writer) : List Hash :=
  match s.pc with
  | .looking i _ _ => s.queue.drop i
  | _              => s.queue

def piling (s : Writer) : List DA :=
  match s.pc with
  | .looking _ _ fds => fds
  | _                => []

def Fate.da? : Fate → Option DA
  | .found da => some da
  | _         => none

-- The queue hands on the data for the hashes in the order of their arrival, each one once. A hash is
-- left out if the pool does not have the data, or if it was cut off from a full queue.
structure Orderly (s : Writer) : Prop where
  single : s.senders.countP Sender.isSending ≤ 1
  bounded : s.queue.length ≤ maxQueuedFileData
  order : s.left.map Prod.fst ++ s.waiting = s.enqueued
  handed : s.handed ++ s.piling = s.left.filterMap (·.snd.da?)
  cut : ∀ hash n, (hash, .cut n) ∈ s.left → n > maxQueuedFileData

structure Valid (s : Writer) : Prop extends Orderly s where
  settled : Settled s.done s.senders
  looking : ∀ {i hashesCount fds}, s.pc = .looking i hashesCount fds → s.done = none ∧
    hashesCount = i ∧ i ≤ s.queue.length

theorem Valid.start : Valid start where
  single := Nat.zero_le 1
  bounded := Nat.zero_le _
  order := rfl
  handed := rfl
  cut := by simp [Writer.start]
  settled := .idle (forall_mem_nil _)
  looking := by simp [Writer.start]

namespace Valid

variable (v : Valid s)

include v in
theorem lookup {hash : Hash} (fd : Option DA) (err : Option GoError)
    (hp : s.pc = .looking i hashesCount fds) (hq : s.queue[i]? = some hash) :
    Valid (s.lookup i hashesCount fds hash fd err) := by
  obtain ⟨hd, rfl, hi⟩ := v.looking hp
  obtain ⟨hl, he⟩ := List.getElem?_eq_some_iff.mp hq
  have ho := v.order
  have hh := v.handed
  simp only [waiting, piling, hp] at ho hh
  rw [drop_eq_getElem_cons hl, he, append_cons] at ho
  -- The hash leaves the queue in both cases.
  have leave {fate : Fate} {fds' : List DA} (hc : fate = .missing ∨ ∃ da, fate = .found da)
      (hf : fds' = fds ++ fate.da?.toList) : Valid { s with
        left := s.left ++ [(hash, fate)]
        pc := .looking (hashesCount + 1) (hashesCount + 1) fds' } := by
    constructor
    case settled => exact v.settled
    case looking =>
      intro j c fds h
      cases h
      exact ⟨hd, rfl, hl⟩
    constructor
    case single  => exact v.single
    case bounded => exact v.bounded
    case order   =>
      rw [map_append]
      exact ho
    case handed =>
      rw [filterMap_append, ← hh, append_assoc, hf]
      cases fate <;> rfl
    case cut =>
      intro h n hm
      rcases mem_append.mp hm with hm | hm
      case inl => exact v.cut h n hm
      case inr =>
        cases mem_singleton.mp hm
        rcases hc with hc | ⟨_, hc⟩ <;> cases hc
  unfold Writer.lookup
  split
  case h_1 da => exact leave (.inr ⟨da, rfl⟩) rfl
  case h_2    => exact leave (.inl rfl) (append_nil _).symm

include v in
theorem launch (hp : s.pc = .looking i hashesCount fds) (hi : s.queue.length ≤ i) :
    Valid (s.launch hashesCount fds) := by
  obtain ⟨hd, rfl, hl⟩ := v.looking hp
  have hq : s.queue.drop hashesCount = [] := drop_eq_nil_of_le hi
  have ho := v.order
  have hh := v.handed
  simp only [waiting, piling, hp, hq] at ho hh
  have hs := v.settled
  unfold Writer.launch
  rw [shift_eq_drop, hq]
  dsimp only
  split
  case isFalse hf =>
    cases length_eq_zero_iff.mp (Nat.eq_zero_of_not_pos hf)
    exact {
      single := v.single
      bounded := Nat.zero_le _
      order := ho
      handed := hh
      cut := v.cut
      settled := hs
      looking := Pc.noConfusion
    }
  case isTrue =>
    rw [hd] at hs
    exact {
      single := hs.launch.countP_isSending
      bounded := Nat.zero_le _
      order := ho
      handed := (append_nil _).trans hh
      cut := v.cut
      settled := hs.launch
      looking := Pc.noConfusion
    }

include v in
theorem receive (hashes : List Hash) (hp : s.pc = .select) : Valid (s.receive hashes) := by
  have ho := v.order
  have hh := v.handed
  simp only [waiting, piling, hp] at ho hh
  unfold Writer.receive
  split
  case isTrue =>
    exact {
      single := v.single
      bounded := v.bounded
      order := ho
      handed := hh
      cut := v.cut
      settled := v.settled
      looking := Pc.noConfusion
    }
  case isFalse =>
    dsimp only
    split
    case isFalse hm =>
      exact {
        single := v.single
        bounded := Nat.le_of_not_lt hm
        order := by rw [← ho, append_assoc]; rfl
        handed := hh
        cut := v.cut
        settled := v.settled
        looking := Pc.noConfusion
      }
    case isTrue hm =>
      rw [shift_eq_drop]
      constructor
      case settled => exact v.settled
      case looking => exact Pc.noConfusion
      constructor
      case single  => exact v.single
      case bounded =>
        rw [length_drop]
        omega
      case order =>
        -- What is cut off from the front and what remains are the whole queue.
        simp only [map_append, map_map, Function.comp_def, map_id', waiting]
        rw [append_assoc, take_append_drop, ← append_assoc, ho]
      case handed =>
        simp only [filterMap_append, filterMap_map, piling]
        refine hh.trans <| (append_nil _).symm.trans <| congrArg _ <| Eq.symm ?_
        exact filterMap_eq_nil_iff.mpr fun _ _ => rfl
      case cut =>
        intro h n hn
        rcases mem_append.mp hn with hn | hn
        case inl => exact v.cut h n hn
        case inr =>
          obtain ⟨_, _, he⟩ := mem_map.mp hn
          cases he
          exact hm

-- A step that leaves the queue and the history as they are.
include v in
theorem frame (ho : s'.queue = s.queue ∧ s'.enqueued = s.enqueued ∧ s'.left = s.left ∧
    s'.handed = s.handed ∧ s'.waiting = s.waiting ∧ s'.piling = s.piling)
    (hs : Settled s'.done s'.senders)
    (hl : ∀ {i hashesCount fds}, s'.pc = .looking i hashesCount fds → s'.done = none ∧
      hashesCount = i ∧ i ≤ s'.queue.length) : Valid s' := by
  obtain ⟨hq, he, hf, hh, hw, hp⟩ := ho
  exact {
    single := hs.countP_isSending
    bounded := hq ▸ v.bounded
    order := by rw [hf, hw, he, v.order]
    handed := by rw [hh, hp, hf, v.handed]
    cut := hf ▸ v.cut
    settled := hs
    looking := hl
  }

include v in
theorem turn (t : Turn s s') : Valid s' := by
  cases t
  case lookup fd err hp hq => exact v.lookup fd err hp hq
  case launch hp hi        => exact v.launch hp hi
  case receive hashes hp   => exact v.receive hashes hp
  case idle hp => exact v.frame (by simp [waiting, piling, hp]) v.settled Pc.noConfusion
  case term hp => exact v.frame (by simp [waiting, piling, hp]) v.settled Pc.noConfusion
  case fail hp _ => exact v.frame (by simp [waiting, piling, hp]) v.settled Pc.noConfusion
  case look hp hd =>
    refine v.frame (by simp [waiting, piling, hp]) v.settled ?_
    intro i hashesCount fds h
    cases h
    exact ⟨hd, rfl, Nat.zero_le _⟩
  case done i hp hd hs =>
    have hr := (hd ▸ v.settled).received hs
    exact v.frame (by simp [waiting, piling, hp]) hr Pc.noConfusion
  case close i fds hi =>
    have hd := v.settled.done_eq hi Sender.noConfusion
    exact v.frame ⟨rfl, rfl, rfl, rfl, rfl, rfl⟩ (hd ▸ (hd ▸ v.settled).set _) v.looking
  case refuse i fds err hi =>
    have hd := v.settled.done_eq hi Sender.noConfusion
    exact v.frame ⟨rfl, rfl, rfl, rfl, rfl, rfl⟩ (hd ▸ (hd ▸ v.settled).set _) v.looking
  case push i err hi =>
    have hd := v.settled.done_eq hi Sender.noConfusion
    exact v.frame ⟨rfl, rfl, rfl, rfl, rfl, rfl⟩ (hd ▸ (hd ▸ v.settled).set _) v.looking

end Valid

def Failed (s : Writer) : Prop :=
  ∃ x ∈ s.senders, x.isFailed

-- The goroutine with the error is the last one, and its channel stays open.
theorem Valid.failed (v : Valid s) (f : s.Failed) :
    ∃ i x, s.done = some i ∧ s.senders[i]? = some x ∧ x.isFailed := by
  obtain ⟨x, hm, hx⟩ := f
  obtain ⟨i, hi⟩ := mem_iff_getElem?.mp hm
  have hc : x ≠ .closed := by
    rintro rfl
    contradiction
  exact ⟨i, x, v.settled.done_eq hi hc, hi, hx⟩

theorem Valid.turn_of_failed (v : Valid s) (f : s.Failed) (t : Turn s s') :
    s'.Failed ∧ s'.handed = s.handed ∧ s'.senders.length = s.senders.length := by
  obtain ⟨i, x, hd, hi, hx⟩ := v.failed f
  -- The error of the last goroutine is not lost.
  have kept {j : Nat} {y z : Sender} (hj : s.senders[j]? = some y) (hy : y ≠ .closed)
      (hz : y.isFailed → z.isFailed) : ∃ x ∈ s.senders.set j z, x.isFailed := by
    have hij := Option.some.inj <| hd.symm.trans <| v.settled.done_eq hj hy
    cases hij
    cases hi.symm.trans hj
    have hl := (List.getElem?_eq_some_iff.mp hi).choose
    exact ⟨z, List.mem_set hl z, hz hx⟩
  cases t
  case idle => exact ⟨f, rfl, rfl⟩
  case look => exact ⟨f, rfl, rfl⟩
  case fail => exact ⟨f, rfl, rfl⟩
  case term => exact ⟨f, rfl, rfl⟩
  case lookup =>
    unfold Writer.lookup
    split <;> exact ⟨f, rfl, rfl⟩
  case launch hp _ => cases hd.symm.trans (v.looking hp).left
  case receive =>
    unfold Writer.receive
    dsimp only
    split
    case isTrue  => exact ⟨f, rfl, rfl⟩
    case isFalse => split <;> exact ⟨f, rfl, rfl⟩
  case done j _ hj hs =>
    cases hd.symm.trans hj
    cases hi.symm.trans hs
    contradiction
  case close hj      => exact ⟨kept hj Sender.noConfusion Bool.noConfusion, rfl, length_set⟩
  case refuse err hj => exact ⟨kept hj Sender.noConfusion fun _ => rfl, rfl, length_set⟩
  case push hj       => exact ⟨kept hj Sender.noConfusion fun _ => rfl, rfl, length_set⟩

theorem Valid.reachable (r : machine.Reachable anyStep s) : Valid s := by
  refine r.invariant .start ?_
  intro s e s' v _ hs
  exact v.turn (turn_of_step hs)

theorem orderly_of_reachable (s : Writer) (r : machine.Reachable anyStep s) : Orderly s ∧
    (s.Failed → ∀ s', Reachable { machine with init := s } anyStep s' →
      s'.handed = s.handed ∧ s'.senders.length = s.senders.length) := by
  have v := Valid.reachable r
  refine ⟨v.toOrderly, ?_⟩
  intro f s' r'
  let I (s' : Writer) := Valid s' ∧ s'.Failed ∧ s'.handed = s.handed ∧
    s'.senders.length = s.senders.length
  suffices h : I s' from h.right.right
  refine r'.invariant (I := I) ⟨v, f, rfl, rfl⟩ ?_
  rintro s₁ e s₂ ⟨v₁, f₁, hh, hl⟩ _ hs
  have t := turn_of_step hs
  obtain ⟨f₂, hh', hl'⟩ := v₁.turn_of_failed f₁ t
  exact ⟨v₁.turn t, f₂, hh'.trans hh, hl'.trans hl⟩

def sampleRun : List Event := [
  .next,
  .receive [.fill 1, .fill 2],
  .next,
  .lookup none none,
  .lookup (some .zero) none,
  .next,
  .sent 0 (some ⟨"closed"⟩),
  .push 0,
  .fail
]

theorem orderly_sampleRun : ∃ s, machine.run machine.init sampleRun = .ok s ∧ s.Failed ∧
    s.handed = [.zero] ∧ Orderly s ∧ (s.Failed → ∀ s', Reachable { machine with init := s } anyStep s' →
      s'.handed = s.handed ∧ s'.senders.length = s.senders.length) := by
  obtain ⟨s, hs, hf, hh⟩ : ∃ s, machine.run machine.init sampleRun = .ok s ∧ s.Failed ∧
      s.handed = [.zero] := ⟨_, rfl, ⟨.returned, mem_singleton.mpr rfl, rfl⟩, rfl⟩
  obtain ⟨ho, hn⟩ := orderly_of_reachable s <| .run .init (fun _ _ _ => trivial) hs
  exact ⟨s, hs, hf, hh, ho, hn⟩

end Eth.Writer
