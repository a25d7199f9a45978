import DomiconExec.Rlp.Session
import DomiconExec.Rlp.Theorems.Strict

namespace Rlp

open List Bytes Program

namespace Stream

variable {input b : Bytes} {s s' s₁ s₂ : Stream} {n m : Nat} {k : Kind}

theorem raw_consumes (hb : b.length < 2 ^ 64) :
    Consumes raw (header 0xC0 0xF7 b.length ++ b) (header 0xC0 0xF7 b.length ++ b) := by
  intro s hk hp hr
  rw [length_append] at hr ⊢
  obtain ⟨r, hr'⟩ := hp
  obtain ⟨s₁, hs₁, hm₁⟩ := readKind_header (k := .list) (by decide) hb (hr.mono (Nat.le_add_right ..))
    ⟨b ++ r, (append_assoc ..).symm.trans hr'⟩
  obtain ⟨s₂, hs₂, hm₂, _⟩ := getKind_ok hk hr header_length_pos hs₁ hm₁
  have hf := readFull_ok (hm₂.room hr) ⟨r, by simp [hm₂.r, ← hr']⟩
  unfold raw
  rw [bind_ok hs₂]
  simp only [reduceCtorEq, if_false]
  rw [bind_ok hf, pure_apply, puthead_eq hb]
  exact ⟨_, rfl, rfl, hm₂.trans consume_moved⟩

-- The input is limited to what is there, and the value ahead is within it.
structure InSync (input : Bytes) (s : Stream) : Prop where
  suffix : s.r <:+ input
  limited : s.limited = true
  remaining : s.remaining = s.r.length
  ahead : s.kind ≠ none → s.kinderr = none → s.size ≤ s.r.length

-- The innermost list is within the input as well.
def Calm (s : Stream) : Prop :=
  ∀ limit ∈ s.stack.head?, limit ≤ s.r.length ∧ limit < 2 ^ 64

-- What a call does that neither enters nor leaves a list.
structure Onward (input : Bytes) (s s' : Stream) : Prop where
  sync : s.InSync input → s'.InSync input
  moved : s.InSync input → s.Calm → ∃ n, s.Room n ∧ s.Moved n s'

theorem Moved.calm (hm : s.Moved n s') (h : s.Calm) : s'.Calm := by
  intro limit hl
  rw [hm.stack] at hl
  cases hst : s.stack
  case nil =>
    rw [hst] at hl
    cases hl
  case cons l stack =>
    rw [hst] at hl
    cases hl
    obtain ⟨h₁, h₂⟩ := h l (by rw [hst]; rfl)
    rw [hm.r, length_drop]
    dsimp only
    omega

theorem Room.add (hr : s.Room n) (hm : s.Moved n s₁) (hr' : s₁.Room m) : s.Room (n + m) where
  list limit hl := by
    obtain ⟨hn, hlt⟩ := hr.list limit hl
    have hm' := (hr'.list (limit - n) (by
      rw [hm.stack]
      cases hst : s.stack
      case nil => rw [hst] at hl; cases hl
      case cons => rw [hst] at hl; cases hl; rfl)).left
    omega
  input hl := by
    have hn := hr.input hl
    have hm' := hr'.input (hm.limited.trans hl)
    rw [hm.remaining, if_pos hl] at hm'
    omega

theorem Room.zero (h : s.Calm) : s.Room 0 where
  list limit hl := ⟨Nat.zero_le _, (h limit hl).right⟩
  input _ := Nat.zero_le _

instance : Std.Refl (Onward input) where
  refl _ := ⟨id, fun _ hc => ⟨0, .zero hc, .refl⟩⟩

instance : IsTrans Stream (Onward input) where
  trans s₁ s₂ s₃ h h' := by
    refine ⟨fun hs => h'.sync (h.sync hs), fun hs hc => ?_⟩
    obtain ⟨n, hr, hm⟩ := h.moved hs hc
    obtain ⟨m, hr', hm'⟩ := h'.moved (h.sync hs) (hm.calm hc)
    exact ⟨n + m, hr.add hm hr', hm.trans hm'⟩

-- Fields that the limits do not depend on may change.
theorem Onward.of_eq (hr : s'.r = s.r) (hm : s'.remaining = s.remaining) (hl : s'.limited = s.limited)
    (hst : s'.stack = s.stack) (ha : s.InSync input → s'.kind ≠ none → s'.kinderr = none →
      s'.size ≤ s'.r.length) : Onward input s s' where
  sync hs := ⟨hr ▸ hs.suffix, hl.trans hs.limited, by rw [hm, hs.remaining, hr], ha hs⟩
  moved _ hc := by
    refine ⟨0, .zero hc, hr, hl, ?_, ?_⟩
    case refine_1 => rw [hm]; split <;> rfl
    case refine_2 => rw [hst]; exact Moved.refl.stack

theorem willRead_outcome (n : Nat) (hl : s.limited = true) :
    (willRead n s = .ok () (s.consume n) ∧ (∀ limit ∈ s.stack.head?, n ≤ limit) ∧
      n ≤ s.remaining) ∨
    willRead n s = .error .elemTooLarge { s with kind := none } ∨
    (willRead n s = .error .valueTooLarge
        { s with kind := none, stack := s.stack.modifyHead (· - n) } ∧
      (∀ limit ∈ s.stack.head?, n ≤ limit) ∧ s.remaining < n) := by
  rw [willRead_eq]
  split
  case isFalse => exact .inr (.inl rfl)
  case isTrue hn =>
    split
    case isTrue h  => exact .inl ⟨rfl, hn, h hl⟩
    case isFalse h => exact .inr (.inr ⟨rfl, hn, by simpa [hl] using h⟩)

-- The outcomes of an attempt to read `n` bytes.
inductive Attempted (n : Nat) (s : Stream) : Stream → Prop
  | done : n ≤ s.r.length → (∀ limit ∈ s.stack.head?, n ≤ limit) →
    Attempted n s { s.consume n with r := s.r.drop n }
  | elemTooLarge : Attempted n s { s with kind := none }
  | valueTooLarge : s.r.length < n → (∀ limit ∈ s.stack.head?, n ≤ limit) →
    Attempted n s { s with kind := none, stack := s.stack.modifyHead (· - n) }

theorem readByte_attempted (hs : s.InSync input) : Attempted 1 s (final (readByte s)) := by
  obtain ⟨hw, hl, hn⟩ | hw | ⟨hw, hl, hn⟩ := willRead_outcome 1 hs.limited
  case inl =>
    rw [hs.remaining] at hn
    obtain ⟨x, r, hr⟩ := exists_cons_of_length_pos hn
    have hf : readByte s = .ok x { s.consume 1 with r := s.r.drop 1 } := by
      unfold readByte
      rw [bind_ok hw, get_bind]
      simp only [consume, hr]
      rfl
    rw [hf]
    exact .done hn hl
  case inr.inl =>
    rw [readByte, bind_error hw]
    exact .elemTooLarge
  case inr.inr =>
    rw [readByte, bind_error hw]
    exact .valueTooLarge (hs.remaining ▸ hn) hl

theorem readFull_attempted (hs : s.InSync input) (n : Nat) :
    Attempted n s (final (readFull n s)) := by
  obtain ⟨hw, hl, hn⟩ | hw | ⟨hw, hl, hn⟩ := willRead_outcome n hs.limited
  case inl =>
    rw [hs.remaining] at hn
    have hf : readFull n s = .ok (s.r.take n) { s.consume n with r := s.r.drop n } := by
      unfold readFull
      rw [bind_ok hw, get_bind]
      simp only [consume, set_bind, Nat.not_lt.mpr hn, if_false]
      rfl
    rw [hf]
    exact .done hn hl
  case inr.inl =>
    rw [readFull, bind_error hw]
    exact .elemTooLarge
  case inr.inr =>
    rw [readFull, bind_error hw]
    exact .valueTooLarge (hs.remaining ▸ hn) hl

theorem Onward.of_attempted (h : s.InSync input → Attempted n s s') : Onward input s s' where
  sync hs := by
    cases h hs
    case done hn hl =>
      refine ⟨(drop_suffix n s.r).trans hs.suffix, hs.limited, ?_, by simp [consume]⟩
      simp only [consume, hs.limited, if_true, hs.remaining, length_drop]
    case elemTooLarge => exact ⟨hs.suffix, hs.limited, hs.remaining, by simp⟩
    case valueTooLarge => exact ⟨hs.suffix, hs.limited, hs.remaining, by simp⟩
  moved hs hc := by
    cases h hs
    case done hn hl =>
      exact ⟨n, ⟨fun limit h => ⟨hl limit h, (hc limit h).right⟩, fun _ => hs.remaining ▸ hn⟩,
        consume_moved⟩
    case elemTooLarge => exact ⟨0, .zero hc, { Moved.refl with }⟩
    case valueTooLarge hn hl =>
      -- This only happens at toplevel, where there is no limit to update.
      cases hst : s.stack
      case nil => exact ⟨0, .zero hc, { Moved.refl with stack := by rw [hst]; rfl }⟩
      case cons limit stack =>
        have h₁ := hl limit (by rw [hst]; rfl)
        have h₂ := (hc limit (by rw [hst]; rfl)).left
        omega

theorem readByte_onward : Leads (Onward input) readByte :=
  fun _ => .of_attempted readByte_attempted

theorem readFull_onward (n : Nat) : Leads (Onward input) (readFull n) :=
  fun _ => .of_attempted fun hs => readFull_attempted hs n

theorem rearm_onward : Leads (Onward input) rearm :=
  fun _ => .of_eq rfl rfl rfl rfl fun _ hk => absurd rfl hk

theorem byteval_onward (x : UInt8) :
    Leads (Onward input) (modify fun s => { s with byteval := x } : Reader PUnit) :=
  fun _ => .of_eq rfl rfl rfl rfl InSync.ahead

theorem readUint_onward (n : Nat) : Leads (Onward input) (readUint n) := by
  unfold readUint
  split
  case h_1 => exact rearm_onward.bind fun _ => .pure _
  case h_2 => exact readByte_onward.bind fun _ => .pure _
  case h_3 => exact (readFull_onward _).bind fun b => .ite (.bind (.throw _) fun _ => .pure _) (.pure _)

theorem readSize_onward (n : Nat) : Leads (Onward input) (readSize n) := by
  refine (readUint_onward n).attempt.bind fun r => ?_
  cases r <;> exact .pure _

theorem readKind_onward : Leads (Onward input) readKind := by
  refine readByte_onward.attempt.bind fun r => ?_
  cases r
  case error => exact .bind .get fun _ => .pure _
  case ok x =>
    refine (byteval_onward 0).bind fun _ => ?_
    refine .ite ((byteval_onward x).bind fun _ => .pure _) ?_
    refine .ite (.pure _) ?_
    refine .ite ((readSize_onward _).bind fun _ => .pure _) ?_
    exact .ite (.pure _) ((readSize_onward _).bind fun _ => .pure _)

theorem le_of_checkSize {limit : Option Nat} (hl : s.limited = true)
    (h : s.checkSize limit n = none) : n ≤ s.remaining := by
  unfold checkSize at h
  split at h
  case isTrue => cases h
  case isFalse =>
    split at h
    case isTrue => cases h
    case isFalse hn => exact Nat.le_of_not_lt fun hlt => hn ⟨hl, hlt⟩

theorem getKind_onward : Leads (Onward input) getKind := by
  intro s
  unfold getKind
  rw [get_bind]
  cases hk : s.kind
  case some k =>
    dsimp only
    cases s.kinderr <;> exact Std.Refl.refl s
  case none =>
    dsimp only
    split
    case isTrue => exact Std.Refl.refl s
    case isFalse =>
      refine readKind_onward.bind (fun r s₁ => ?_) s
      obtain ⟨k, n, err⟩ := r
      simp only [get_bind, set_bind]
      have ho : Onward input s₁ { s₁ with
          kind := some k, size := n, kinderr := err.or (s₁.checkSize s.listLimit n) } := by
        refine .of_eq rfl rfl rfl rfl fun hs _ he => ?_
        exact hs.remaining ▸ le_of_checkSize hs.limited (Option.or_eq_none_iff.mp he).right
      generalize err.or (s₁.checkSize s.listLimit n) = e at *
      cases e <;> exact ho

theorem bytes_onward : Leads (Onward input) bytes := by
  refine getKind_onward.bind fun r => ?_
  obtain ⟨k, n⟩ := r
  cases k
  case byte   => exact rearm_onward.bind fun _ => .bind .get fun _ => .pure _
  case string =>
    refine (readFull_onward n).bind fun b => .bind ?_ fun _ => .pure _
    exact .ite (.throw _) (.pure _)
  case list   => exact .throw _

theorem raw_onward : Leads (Onward input) raw := by
  refine getKind_onward.bind fun r => ?_
  refine .ite (rearm_onward.bind fun _ => .bind .get fun _ => .pure _) ?_
  exact (readFull_onward _).bind fun b => .ite (.pure _) (.pure _)

theorem uint_onward (maxbits : Nat) : Leads (Onward input) (uint maxbits) := by
  refine getKind_onward.bind fun r => ?_
  obtain ⟨k, n⟩ := r
  cases k
  case byte =>
    refine .bind .get fun s => .ite (.bind (.throw _) fun _ => ?_) ?_
    all_goals exact rearm_onward.bind fun _ => .pure _
  case string =>
    refine .ite (.bind (.throw _) fun _ => ?_) ?_
    all_goals
      refine ((readUint_onward n).adaptExcept _).bind fun v => ?_
      exact .ite (.bind (.throw _) fun _ => .pure _) (.pure _)
  case list => exact .throw _

theorem le_of_getKind (hs : s.InSync input) (h : getKind s = .ok (k, n) s') : n ≤ s'.r.length := by
  obtain ⟨hk, he, rfl⟩ := getKind_caches h
  exact ((getKind_onward.of_ok h).sync hs).ahead (by rw [hk]; exact Option.some_ne_none k) he

-- The list that is ahead, if there is one, fits into what its enclosing list has left.
def Fits (s : Stream) : Prop :=
  ∀ n s', getKind s = .ok (.list, n) s' → ∀ limit ∈ s'.stack.head?, n ≤ limit

def enter (s : Stream) (n : Nat) : Stream :=
  { s with stack := n :: s.stack.modifyHead (wrappingSub · n), kind := none, size := 0 }

theorem InSync.enter (h : s.InSync input) (n : Nat) : (s.enter n).InSync input :=
  ⟨h.suffix, h.limited, h.remaining, fun hk => absurd rfl hk⟩

theorem list_outcome (input : Bytes) (s : Stream) :
    (∃ e s₁, list s = .error e s₁ ∧ Onward input s s₁) ∨
    ∃ n s₁, getKind s = .ok (.list, n) s₁ ∧ list s = .ok n (s₁.enter n) := by
  unfold list
  cases hg : getKind s
  case error e s₁ => exact .inl ⟨e, s₁, bind_error hg, getKind_onward.of_error hg⟩
  case ok r s₁ =>
    obtain ⟨k, n⟩ := r
    rw [bind_ok hg]
    cases k
    case list => exact .inr ⟨n, s₁, rfl, rfl⟩
    all_goals exact .inl ⟨_, s₁, rfl, getKind_onward.of_ok hg⟩

theorem listEnd_outcome (s : Stream) :
    (∃ e, listEnd s = .error e s) ∨
    ∃ stack, s.stack = 0 :: stack ∧ listEnd s = .ok () { s with stack, kind := none, size := 0 } := by
  unfold listEnd
  rw [get_bind]
  cases hst : s.stack
  case nil => exact .inl ⟨_, rfl⟩
  case cons limit stack =>
    dsimp only
    split
    case isTrue => exact .inl ⟨_, rfl⟩
    case isFalse hl => exact .inr ⟨stack, by rw [Nat.eq_zero_of_not_pos hl], rfl⟩
end Stream

theorem Call.onward {input : Bytes} (c : Call) (hl : c ≠ .list) (he : c ≠ .listEnd) :
    Leads (Stream.Onward input) c.run := by
  cases c
  case list           => contradiction
  case listEnd        => contradiction
  case kind           => exact Stream.getKind_onward.bind fun _ => .pure _
  case bytes          => exact Stream.bytes_onward.bind fun _ => .pure _
  case raw            => exact Stream.raw_onward.bind fun _ => .pure _
  case uint64         => exact (Stream.uint_onward 64).bind fun _ => .pure _
  case moreDataInList => exact .bind .get fun _ => .pure _

namespace Session

variable {input : Bytes} {x : Session input} {s' : Stream} {o n N : Nat} {ls es : List Nat}
  {P : Call → Stream → Prop}

-- The limits tell how far it is to the end of each list from the end of the list in it.
inductive Aligned : Nat → List Nat → List Nat → Prop
  | nil {p : Nat} : Aligned p [] []
  | cons {p l : Nat} {ls es : List Nat} : Aligned (p + l) ls es → Aligned p (l :: ls) ((p + l) :: es)

namespace Aligned

theorem sum_le (h : Aligned o ls es) (ho : o ≤ N) (he : ∀ e ∈ es, e ≤ N) : o + ls.sum ≤ N := by
  induction h
  case nil => exact ho
  case cons hi =>
    obtain ⟨hl, hes⟩ := forall_mem_cons.mp he
    rw [sum_cons, ← Nat.add_assoc]
    exact hi hl hes

theorem head_le (h : Aligned o ls es) (he : ∀ e ∈ es, e ≤ N) (limit : Nat) (hl : limit ∈ ls.head?) :
    o + limit ≤ N := by
  cases h
  case nil => cases hl
  case cons =>
    cases hl
    exact he _ List.mem_cons_self

theorem read (h : Aligned o ls es) (hn : ∀ limit ∈ ls.head?, n ≤ limit) :
    Aligned (o + n) (ls.modifyHead (· - n)) es := by
  cases h
  case nil => exact .nil
  case cons l ls es h =>
    have hl : o + l = o + n + (l - n) := by
      have := hn l rfl
      omega
    rw [modifyHead_cons, hl]
    rw [hl] at h
    exact .cons h

theorem le_ends (h : Aligned o ls es) (e : Nat) (he : e ∈ es) : o ≤ e := by
  induction h
  case nil => cases he
  case cons hi =>
    cases mem_cons.mp he
    case inl h => rw [h]; exact Nat.le_add_right ..
    case inr h => exact Nat.le_trans (Nat.le_add_right ..) (hi h)

end Aligned

-- The limits agree with the ends of the open lists, which are within the input.
structure Confined (x : Session input) : Prop where
  sync : x.stream.InSync input
  aligned : Aligned x.offset x.stream.stack x.ends
  within : ∀ e ∈ x.ends, e ≤ input.length

theorem start_confined (input : Bytes) : (start input).Confined where
  sync := ⟨suffix_refl _, rfl, rfl, fun hk => absurd rfl hk⟩
  aligned := .nil
  within := fun _ he => absurd he List.not_mem_nil

theorem Confined.calm (h : x.Confined) (hb : input.length < 2 ^ 63) : x.stream.Calm := by
  intro limit hl
  have hle := h.aligned.head_le h.within limit hl
  have hs := h.sync.suffix.length_le
  unfold offset at hle
  omega

-- The offset moves with the input that is read.
theorem Confined.onward (h : x.Confined) (hb : input.length < 2 ^ 63)
    (ho : x.stream.Onward input s') : Confined (⟨s', x.ends⟩ : Session input) := by
  obtain ⟨n, hr, hm⟩ := ho.moved h.sync (h.calm hb)
  have hn : (⟨s', x.ends⟩ : Session input).offset = x.offset + n := by
    have hs := h.sync.suffix.length_le
    have hi := h.sync.remaining ▸ hr.input h.sync.limited
    unfold offset
    rw [hm.r, length_drop]
    omega
  refine ⟨ho.sync h.sync, ?_, h.within⟩
  rw [hn, hm.stack]
  exact h.aligned.read fun limit hl => (hr.list limit hl).left

-- What a call does: it moves on in the input, it enters a list, or it leaves one.
theorem call_cases (x : Session input) (c : Call) :
    (∃ s', x.stream.Onward input s' ∧ x.call c = ⟨s', x.ends⟩) ∨
    (∃ n s₁, c = .list ∧ Stream.getKind x.stream = .ok (.list, n) s₁ ∧
      x.call c = ⟨s₁.enter n, (input.length - s₁.r.length + n) :: x.ends⟩) ∨
    (∃ stack, c = .listEnd ∧ x.stream.stack = 0 :: stack ∧
      x.call c = ⟨{ x.stream with stack, kind := none, size := 0 }, x.ends.tail⟩) := by
  by_cases hl : c = .list
  case pos =>
    subst hl
    obtain ⟨e, s₁, hl, ho⟩ | ⟨n, s₁, hg, hl⟩ := Stream.list_outcome input x.stream
    case inl =>
      have hr : Call.list.run x.stream = .error e s₁ := bind_error hl
      exact .inl ⟨s₁, ho, by simp only [call, Call.next, hr, final]⟩
    case inr =>
      have hr : Call.list.run x.stream = .ok (.size n) (s₁.enter n) := bind_ok hl
      refine .inr (.inl ⟨n, s₁, rfl, hg, ?_⟩)
      simp only [call, Call.next, hr, final]
      rfl
  case neg =>
    by_cases he : c = .listEnd
    case pos =>
      subst he
      obtain ⟨e, hl⟩ | ⟨stack, hst, hl⟩ := Stream.listEnd_outcome x.stream
      case inl =>
        have hr : Call.listEnd.run x.stream = .error e x.stream := bind_error hl
        exact .inl ⟨x.stream, Std.Refl.refl _, by simp only [call, Call.next, hr, final]⟩
      case inr =>
        have hr : Call.listEnd.run x.stream = .ok .none _ := bind_ok hl
        exact .inr (.inr ⟨stack, rfl, hst, by simp only [call, Call.next, hr, final]⟩)
    case neg =>
      refine .inl ⟨c.next x.stream, c.onward hl he x.stream, ?_⟩
      unfold call
      split <;> simp_all

theorem Confined.enter {s₁ : Stream} (h : x.Confined) (hb : input.length < 2 ^ 63)
    (hg : Stream.getKind x.stream = .ok (.list, n) s₁) (hw : ∀ limit ∈ s₁.stack.head?, n ≤ limit) :
    Confined (⟨s₁.enter n, (input.length - s₁.r.length + n) :: x.ends⟩ : Session input) := by
  have hs := h.onward hb (Stream.getKind_onward.of_ok hg)
  have hn := Stream.le_of_getKind h.sync hg
  have hi : s₁.r.length ≤ input.length := hs.sync.suffix.length_le
  refine ⟨hs.sync.enter n, ?_, forall_mem_cons.mpr ⟨by omega, h.within⟩⟩
  have hst := Stream.modifyHead_wrappingSub fun limit hl =>
    ⟨hw limit hl, (hs.calm hb limit hl).right⟩
  have ha := hs.aligned.read hw
  rw [← hst] at ha
  exact .cons ha

theorem Confined.leave {stack : List Nat} (h : x.Confined) (hst : x.stream.stack = 0 :: stack) :
    x.ends.head? = some x.offset ∧ Confined
      (⟨{ x.stream with stack, kind := none, size := 0 }, x.ends.tail⟩ : Session input) := by
  have ha := h.aligned
  rw [hst] at ha
  generalize he : x.ends = ends at ha
  cases ha
  case cons es ha =>
    refine ⟨rfl, ⟨h.sync.suffix, h.sync.limited, h.sync.remaining, fun hk => absurd rfl hk⟩, ha, ?_⟩
    exact fun e he' => h.within e (he ▸ mem_cons_of_mem _ he')

theorem confined_of_reached (hb : input.length < 2 ^ 63)
    (h : Reached (fun c s => c = .list → s.Fits) x) : x.Confined := by
  induction h
  case start => exact start_confined _
  case call x c _ hf hi =>
    obtain ⟨s', ho, hx⟩ | ⟨n, s₁, rfl, hg, hx⟩ | ⟨stack, rfl, hst, hx⟩ := x.call_cases c
    case inl     => exact hx ▸ hi.onward hb ho
    case inr.inl => exact hx ▸ hi.enter hb hg (hf rfl n s₁ hg)
    case inr.inr => exact hx ▸ (hi.leave hst).right

-- This does not depend on the limits of the lists.
theorem inSync_of_reached (h : Reached P x) : x.stream.InSync input := by
  induction h
  case start => exact (start_confined _).sync
  case call x c _ _ hi =>
    obtain ⟨s', ho, hx⟩ | ⟨n, s₁, -, hg, hx⟩ | ⟨stack, -, -, hx⟩ := x.call_cases c
    all_goals rw [hx]
    case inl     => exact ho.sync hi
    case inr.inl => exact ((Stream.getKind_onward.of_ok hg).sync hi).enter n
    case inr.inr => exact ⟨hi.suffix, hi.limited, hi.remaining, fun hk => absurd rfl hk⟩

theorem headsize_le (size : UInt64) : headsize size ≤ 9 := by
  unfold headsize
  split
  case isTrue => decide
  case isFalse h =>
    have hp : 0 < size.toNat := by
      rw [UInt64.lt_iff_toNat_lt] at h
      exact Nat.lt_of_lt_of_le (by decide) (Nat.not_lt.mp h)
    have hl : (bigEndian size.toNat).length ≤ 8 := bigEndian_length_le.mpr size.toNat_lt
    rw [intsize_eq hp]
    omega

theorem allocated_le (hs : x.stream.InSync input) (c : Call) :
    c.allocated x.stream ≤ input.length + 9 := by
  have hn {k : Kind} {n : Nat} {s' : Stream} (hg : Stream.getKind x.stream = .ok (k, n) s') :
      n ≤ input.length :=
    Nat.le_trans (Stream.le_of_getKind hs hg)
      ((Stream.getKind_onward.of_ok hg).sync hs).suffix.length_le
  unfold Call.allocated
  split
  case h_1 => omega
  case h_2 hg =>
    have := hn hg
    omega
  case h_3 => omega
  case h_4 hg => exact Nat.add_comm .. ▸ Nat.add_le_add (hn hg) (headsize_le _)
  case h_5 => omega

-- If only lists are entered that fit into the enclosing one, the stream does not leave the open
-- lists.
theorem confined_of_fits (hb : input.length < 2 ^ 63) :
    (∀ x : Session input, Reached (fun c s => c = .list → s.Fits) x →
      x.stream.stack.sum ≤ x.stream.r.length ∧
      (∀ c ∈ [Call.bytes, .raw, .uint64], ∀ e ∈ x.ends, (x.call c).offset ≤ e) ∧
      (∀ limit ∈ x.stream.stack.head?, ∃ e ∈ x.ends.head?, x.offset + limit = e) ∧
      (∀ s', Stream.listEnd x.stream = .ok () s' → x.ends.head? = some x.offset ∧
        ∀ limit ∈ s'.stack.head?, ∃ e ∈ x.ends.tail.head?, x.offset + limit = e)) ∧
    (∀ x : Session input, Reached (fun _ _ => True) x →
      ∀ c : Call, c.allocated x.stream ≤ input.length + 9) := by
  have hl {x : Session input} (h : x.Confined) :
      ∀ limit ∈ x.stream.stack.head?, ∃ e ∈ x.ends.head?, x.offset + limit = e := by
    intro limit hl
    have ha := h.aligned
    generalize x.stream.stack = ls, x.ends = es at *
    cases ha
    case nil => cases hl
    case cons =>
      cases hl
      exact ⟨_, rfl, rfl⟩
  refine ⟨fun x h => ?_, fun x h c => allocated_le (inSync_of_reached h) c⟩
  have hc := confined_of_reached hb h
  refine ⟨?_, fun c hm e he => ?_, hl hc, fun s' hs' => ?_⟩
  case refine_1 =>
    have hs := hc.sync.suffix.length_le
    have hsum := hc.aligned.sum_le (Nat.sub_le ..) hc.within
    unfold offset at hsum
    omega
  case refine_2 =>
    obtain ⟨s', ho, hx⟩ | ⟨_, _, rfl, -⟩ | ⟨_, rfl, -⟩ := x.call_cases c
    case inl =>
      rw [hx]
      exact (hc.onward hb ho).aligned.le_ends e he
    all_goals simp at hm
  case refine_3 =>
    obtain ⟨e, hl'⟩ | ⟨stack, hst, hl'⟩ := Stream.listEnd_outcome x.stream
    case inl => cases hl'.symm.trans hs'
    case inr =>
      cases hl'.symm.trans hs'
      exact ⟨(hc.leave hst).left, hl (hc.leave hst).right⟩

-- A list of one byte, which is the header of another one. Its limit wraps around, and the byte
-- behind it is returned.
theorem not_confined : ∃ x : Session [0xC1, 0xC1, 0x01], Reached (fun _ _ => True) x ∧
    x.stream.r.length < x.stream.stack.sum ∧ (∃ e ∈ x.ends, e < (x.call .bytes).offset) ∧
    ∃ s', Stream.bytes x.stream = .ok [0x01] s' :=
  ⟨_, .call .list (.call .list .start trivial) trivial, by decide, ⟨2, by decide, by decide⟩, _, rfl⟩

-- A list of two bytes that contains a list of one byte.
theorem confined_of_fits_nested : ∃ x : Session [0xC2, 0xC1, 0x01],
    x.ends = [3, 3] ∧ x.stream.stack.sum ≤ x.stream.r.length ∧ Call.raw.allocated x.stream ≤ 12 := by
  have h₀ : Reached (fun c s => c = .list → s.Fits) ((start [0xC2, 0xC1, 0x01]).call .list) := by
    refine .call .list .start fun _ n s' hg limit hl => ?_
    cases hg
    cases hl
  have h₁ : Reached (fun c s => c = .list → s.Fits)
      (((start [0xC2, 0xC1, 0x01]).call .list).call .list) := by
    refine .call .list h₀ fun _ n s' hg limit hl => ?_
    cases hg
    cases hl
    decide
  have h₂ : Reached (fun _ _ => True) (((start [0xC2, 0xC1, 0x01]).call .list).call .list) :=
    .call .list (.call .list .start trivial) trivial
  exact ⟨_, by decide, ((confined_of_fits (by decide)).left _ h₁).left,
    (confined_of_fits (by decide)).right _ h₂ .raw⟩

end Session
end Rlp
