import DomiconExec.Sync.Worker

namespace Sync.Following

open Transition System

variable {num : UInt64} {cancelled : Bool} {s s' : Following} {e : Event}

-- The function does not wait for an event that cannot come.
def Awake (s : Following) : Prop :=
  s.pc = .select → s.timer ≠ .consumed ∨ s.cancelled

-- An answer without a block, which sends the function back to its `select` without a timer.
def Lost (s : Following) (e : Event) : Prop :=
  s.pc = .blockByNumber ∧ ¬s.cancelled ∧
    ∃ answer, e = .follow (.blockByNumber answer) ∧ ∀ block, answer ≠ .ok (some block)

-- What a step can do, by the place that it starts from.
inductive Move (s : Following) : Event → Following → Prop
  | stay {e : Event} : ¬Lost s e → Move s e s
  | cancel : Move s .cancel { s with cancelled := true }
  | expire : Move s (.follow .expire) { s with timer := s.timer.expire }
  | tick : s.pc = .select → s.timer = .expired →
    Move s (.follow .tick) { s with timer := .consumed, pc := .blockByNumber }
  | done : s.pc = .select → s.cancelled → Move s (.follow .done) { s with pc := .returned }
  | block {block : EthBlock} : s.pc = .blockByNumber →
    Move s (.follow (.blockByNumber (.ok (some block)))) { s with pc := .blockNumber block }
  | noBlock {answer : Except GoError (Option EthBlock)} : s.pc = .blockByNumber →
    (∀ block, answer ≠ .ok (some block)) →
    Move s (.follow (.blockByNumber answer)) { s with pc := .select }
  | reached {block : EthBlock} : s.pc = .blockNumber block →
    Move s (.follow (.blockNumber block.numberU64)) { s with pc := .clear }
  | below {block : EthBlock} {currentNum : UInt64} : s.pc = .blockNumber block →
    block.numberU64 < currentNum →
    Move s (.follow (.blockNumber currentNum))
      { s with num := s.num + 1, timer := .set, pc := .processBlocks block }
  | above {block : EthBlock} {currentNum : UInt64} : s.pc = .blockNumber block →
    currentNum < block.numberU64 →
    Move s (.follow (.blockNumber currentNum)) { s with pc := .returned }
  | processed {block : EthBlock} : s.pc = .processBlocks block →
    Move s (.follow .processBlocks) { s with pc := .select }
  | cleared : s.pc = .clear → Move s (.follow .clear) { s with pc := .returned, forced := false }

theorem step_move (s : Following) (e : Event) : Move s e (s.step e) := by
  obtain ⟨⟨num, timer, pc⟩, forced, cancelled⟩ := s
  obtain _ | e := e
  case cancel => exact .cancel
  cases e
  case follow.expire => exact .expire
  case follow.tick =>
    cases pc <;> try exact .stay (by simp [Lost])
    simp only [step, Follow.step]
    split
    case isTrue h  => exact .tick rfl h
    case isFalse h => exact .stay (by simp [Lost])
  case follow.done =>
    cases pc <;> try exact .stay (by simp [Lost])
    simp only [step, Follow.step]
    split
    case isTrue h  => exact .done rfl h
    case isFalse h => exact .stay (by simp [Lost])
  case follow.blockByNumber answer =>
    obtain err | (_ | block) := answer <;> cases pc <;> try exact .stay (by simp [Lost])
    case error   => exact .noBlock rfl (by simp)
    case ok.none => exact .noBlock rfl (by simp)
    case ok.some => exact .block rfl
  case follow.blockNumber currentNum =>
    cases pc <;> try exact .stay (by simp [Lost])
    case blockNumber block =>
      simp only [step, Follow.step, Follow.compare]
      split
      case isTrue h  => exact h ▸ .reached rfl
      case isFalse h =>
        split
        case isTrue h'  => exact .below rfl h'
        case isFalse h' =>
          exact .above rfl (UInt64.lt_of_le_of_ne (UInt64.not_lt.mp h') (Ne.symm h))
  case follow.processBlocks =>
    cases pc <;> try exact .stay (by simp [Lost])
    exact .processed rfl
  case follow.clear =>
    cases pc <;> try exact .stay (by simp [Lost])
    exact .cleared rfl

-- When a block is requested, the tick has been received. The timer is set before it is processed.
structure Sound (s : Following) : Prop where
  request : s.pc = .blockByNumber → s.timer = .consumed
  process : ∀ block, s.pc = .processBlocks block → s.timer ≠ .consumed
  forced : s.pc ≠ .returned → s.forced

theorem expire_consumed {t : Timer} : t.expire = .consumed ↔ t = .consumed := by
  cases t <;> simp [Timer.expire]

theorem Move.sound (m : Move s e s') (h : Sound s) : Sound s' := by
  obtain ⟨hr, hp, hf⟩ := h
  cases m
  case stay         => exact ⟨hr, hp, hf⟩
  case cancel       => exact ⟨hr, hp, hf⟩
  case expire       =>
    exact ⟨expire_consumed.mpr ∘ hr, fun b hb => expire_consumed.not.mpr (hp b hb), hf⟩
  case tick hs _    => exact ⟨fun _ => rfl, by simp, fun _ => hf (by simp [hs])⟩
  case below hs _   => exact ⟨by simp, by simp, fun _ => hf (by simp [hs])⟩
  case done         => exact ⟨by simp, by simp, by simp⟩
  case above        => exact ⟨by simp, by simp, by simp⟩
  case cleared      => exact ⟨by simp, by simp, by simp⟩
  case block hs     => exact ⟨by simp, by simp, fun _ => hf (by simp [hs])⟩
  case noBlock hs _ => exact ⟨by simp, by simp, fun _ => hf (by simp [hs])⟩
  case reached hs   => exact ⟨by simp, by simp, fun _ => hf (by simp [hs])⟩
  case processed hs => exact ⟨by simp, by simp, fun _ => hf (by simp [hs])⟩

theorem Sound.reachable {G : Following → Event → Prop}
    (r : (machine num cancelled).Reachable G s) : Sound s := by
  apply r.invariant
  case init => exact ⟨by simp [machine, Follow.start], by simp [machine, Follow.start], by simp [machine]⟩
  case step =>
    intro s e s' h _ hs
    cases hs
    exact (step_move s e).sound h

theorem Move.awake_iff (m : Move s e s') (hs : Sound s) (ha : Awake s) :
    Awake s' ↔ ¬Lost s e := by
  have hl (h : s.pc ≠ .blockByNumber) : ¬Lost s e := fun hl => h hl.left
  cases m
  case stay h          => exact iff_of_true ha h
  case cancel          => exact iff_of_true (fun _ => .inr rfl) (by simp [Lost])
  case expire          =>
    exact iff_of_true (fun hp => (ha hp).imp_left expire_consumed.not.mpr) (by simp [Lost])
  case tick hp _       => exact iff_of_true (by simp [Awake]) (hl (by simp [hp]))
  case done hp _       => exact iff_of_true (by simp [Awake]) (hl (by simp [hp]))
  case block           => exact iff_of_true (by simp [Awake]) (by simp [Lost])
  case reached hp      => exact iff_of_true (by simp [Awake]) (hl (by simp [hp]))
  case below hp _      => exact iff_of_true (by simp [Awake]) (hl (by simp [hp]))
  case above hp _      => exact iff_of_true (by simp [Awake]) (hl (by simp [hp]))
  case cleared hp      => exact iff_of_true (by simp [Awake]) (hl (by simp [hp]))
  case processed b hp  => exact iff_of_true (fun _ => .inl (hs.process b hp)) (hl (by simp [hp]))
  case noBlock a hp ha =>
    have ht := hs.request hp
    simp [Awake, Lost, hp, ht, ha]

-- Whichever steps are possible, the function is always awake if and only if no request is left
-- without a block.
theorem always_awake_iff (num : UInt64) (cancelled : Bool) (G : Following → Event → Prop) :
    (∀ s, (machine num cancelled).Reachable G s → Awake s) ↔
      ∀ s e, (machine num cancelled).Reachable G s → G s e → ¬Lost s e where
  mp h s e r hg := ((step_move s e).awake_iff (.reachable r) (h s r)).mp (h _ (r.step hg rfl))
  mpr h s r := by
    induction r
    case init => exact fun _ => .inl (by simp [machine, Follow.start])
    case step s s' e r hg hs hi =>
      cases hs
      exact ((step_move s e).awake_iff (.reachable r) hi).mpr (h s e r hg)

-- The first request fails.
theorem not_awake_failed :
    ¬∀ (num : UInt64) (cancelled : Bool) (s : Following),
      (machine num cancelled).Reachable anyStep s → Awake s := by
  intro h
  have hs : (machine 1 false).run (machine 1 false).init [.follow .expire, .follow .tick,
      .follow (.blockByNumber (.error ⟨"not found"⟩))] =
        .ok ⟨⟨1, .consumed, .select⟩, true, false⟩ := rfl
  have r := Reachable.run .init (fun _ _ _ => trivial) hs
  simpa [Awake] using h 1 false _ r rfl

end Sync.Following
