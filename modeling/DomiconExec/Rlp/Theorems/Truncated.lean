import DomiconExec.Rlp.Theorems.Strict

namespace Rlp

open List Program

variable {α β : Type} {x : Bytes} {m n k : Nat} {p : Reader α} {s s' : Stream}

-- The stream with more input.
def Stream.extend (s : Stream) (x : Bytes) : Stream :=
  { s with r := s.r ++ x }

-- What a run tells about the run with more input: it has run out of input, or the other one ends
-- alike. If it succeeds then it ends in the given number of lists.
inductive Foretells (x : Bytes) (n : Nat) :
    EStateM.Result DecodeError Stream α → EStateM.Result DecodeError Stream α → Prop
  | ok (a : α) (s : Stream) : s.stack.length = n → Foretells x n (.ok a s) (.ok a (s.extend x))
  | error (e : DecodeError) (s : Stream) : Foretells x n (.error e s) (.error e (s.extend x))
  | eof (s : Stream) (r : EStateM.Result DecodeError Stream α) :
    Foretells x n (.error .unexpectedEOF s) r

-- The reader starts in `m` lists, ends in `n` of them, and notices if there is not enough input.
def Incremental (m n : Nat) (p : Reader α) : Prop :=
  ∀ x s, s.stack.length = m → Foretells x n (p s) (p (s.extend x))

namespace Foretells

variable {f : α → Reader β} {g : DecodeError → DecodeError}

theorem bind (h : Foretells x n (p s) (p (s.extend x))) (hf : ∀ a, Incremental n k (f a)) :
    Foretells x k ((p >>= f) s) ((p >>= f) (s.extend x)) := by
  simp only [Bind.bind, EStateM.bind]
  generalize p s = r, p (s.extend x) = r' at h
  cases h
  case ok a s hs => exact hf a x s hs
  case error e s => exact .error e s
  case eof s     => exact .eof s _

theorem adaptExcept (h : Foretells x n (p s) (p (s.extend x)))
    (hg : g .unexpectedEOF = .unexpectedEOF) :
    Foretells x n (p.adaptExcept g s) (p.adaptExcept g (s.extend x)) := by
  simp only [EStateM.adaptExcept]
  generalize p s = r, p (s.extend x) = r' at h
  cases h
  case ok a s hs => exact .ok a s hs
  case error e s => exact .error _ s
  case eof s     =>
    simp only [hg]
    exact .eof s _

-- A failure is turned into a result and back, up to what `f` makes of it.
theorem attempt_bind {f : Except DecodeError α → Reader β}
    (h : Foretells x n (p s) (p (s.extend x))) (hf : ∀ a, Incremental n k (f (.ok a)))
    (he : ∀ e s', p s = .error e s' → Foretells x k (f (.error e) s') (f (.error e) (s'.extend x)))
    (hu : ∀ s, ∃ s', f (.error .unexpectedEOF) s = .error .unexpectedEOF s') :
    Foretells x k ((attempt p >>= f) s) ((attempt p >>= f) (s.extend x)) := by
  simp only [Bind.bind, EStateM.bind, attempt]
  generalize p s = r, p (s.extend x) = r' at h he
  cases h
  case ok a s hs => exact hf a x s hs
  case error e s => exact he e s rfl
  case eof s     =>
    obtain ⟨s', hs⟩ := hu s
    simp only [hs]
    exact .eof s' _

end Foretells

namespace Incremental

variable {f : α → Reader β} {g : DecodeError → DecodeError}

theorem pure (a : α) : Incremental n n (Pure.pure a) :=
  fun _ s hs => .ok a s hs

theorem throw (e : DecodeError) : Incremental m n (throwThe DecodeError e : Reader α) :=
  fun _ s _ => .error e s

theorem bind (h : Incremental m n p) (hf : ∀ a, Incremental n k (f a)) :
    Incremental m k (p >>= f) :=
  fun x s hs => (h x s hs).bind hf

theorem throw_bind (e : DecodeError) : Incremental m k (throwThe DecodeError e >>= f) :=
  fun _ s _ => .error e s

theorem adaptExcept (h : Incremental m n p) (hg : g .unexpectedEOF = .unexpectedEOF) :
    Incremental m n (p.adaptExcept g) :=
  fun x s hs => (h x s hs).adaptExcept hg

theorem ite {c : Prop} [Decidable c] {q : Reader α} (hp : c → Incremental m n p)
    (hq : ¬c → Incremental m n q) : Incremental m n (if c then p else q) := by
  split
  case isTrue h  => exact hp h
  case isFalse h => exact hq h

-- What the stream knows besides its input is the same in both runs.
theorem get_bind {f : Stream → Reader β} (hf : ∀ s x, f (s.extend x) = f s)
    (h : ∀ s, s.stack.length = m → Incremental m n (f s)) : Incremental m n (get >>= f) := by
  intro x s hs
  simp only [Program.get_bind, hf]
  exact h s hs x s hs

theorem modify {f : Stream → Stream} (hf : ∀ s x, f (s.extend x) = (f s).extend x)
    (hs : ∀ s, (f s).stack.length = s.stack.length) :
    Incremental n n (modify f : Reader PUnit) := by
  intro x s h
  simp only [modify_apply, hf]
  exact .ok _ _ ((hs s).trans h)

end Incremental

namespace Stream

theorem rearm_incremental : Incremental n n rearm :=
  .modify (fun _ _ => rfl) fun _ => rfl

theorem length_stack_consume : (s.consume n).stack.length = s.stack.length := by
  cases hs : s.stack <;> simp [consume, hs]

theorem willRead_incremental (size : Nat) : Incremental n n (willRead size) := by
  intro x s hs
  -- The limits are checked without regard to the input.
  simp only [willRead_eq, extend]
  split
  case isFalse => exact .error _ _
  case isTrue  =>
    split
    case isFalse => exact .error _ _
    case isTrue  => exact .ok _ _ (length_stack_consume.trans hs)

theorem readByte_incremental : Incremental n n readByte := by
  refine (willRead_incremental 1).bind fun _ x s hs => ?_
  cases hr : s.r
  case nil =>
    simp only [Program.get_bind, hr]
    exact .eof _ _
  case cons b r =>
    simp only [Program.get_bind, hr, extend, cons_append]
    exact .ok b _ hs

theorem readFull_incremental (size : Nat) : Incremental n n (readFull size) := by
  refine (willRead_incremental size).bind fun _ x s hs => ?_
  simp only [Program.get_bind, set_bind]
  by_cases hl : s.r.length < size
  case pos =>
    rw [if_pos hl]
    exact .eof _ _
  case neg =>
    have hl' : ¬(s.r ++ x).length < size := by
      rw [length_append]
      omega
    rw [if_neg hl, extend, if_neg hl', drop_append_of_le_length (Nat.le_of_not_lt hl),
      take_append_of_le_length (Nat.le_of_not_lt hl)]
    exact .ok _ _ hs

theorem readUint_incremental (size : Nat) : Incremental n n (readUint size) := by
  unfold readUint
  split
  case h_1 => exact rearm_incremental.bind fun _ => .pure _
  case h_2 => exact readByte_incremental.bind fun _ => .pure _
  case h_3 =>
    refine (readFull_incremental _).bind fun b => ?_
    exact .ite (fun _ => .throw_bind _) fun _ => .pure _

-- The same for a size, whose error is part of the result.
theorem readSize_foretells (size : Nat) (x : Bytes) (hs : s.stack.length = n) :
    (∃ s', readSize size s = .ok (0, some .unexpectedEOF) s') ∨
    ∃ v e s', readSize size s = .ok (v, e) s' ∧
      readSize size (s.extend x) = .ok (v, e) (s'.extend x) ∧ (e = none → s'.stack.length = n) := by
  have h := readUint_incremental size x s hs
  simp only [readSize, Bind.bind, EStateM.bind, attempt]
  generalize readUint size s = r, readUint size (s.extend x) = r' at h
  cases h
  case ok v s hs => exact .inr ⟨v, _, s, rfl, rfl, fun _ => hs⟩
  case error e s => exact .inr ⟨0, some e, s, rfl, rfl, by simp⟩
  case eof s     => exact .inl ⟨s, rfl⟩

-- The input ends before the next value. Within a list, this is not an ordinary end.
theorem of_readByte_eof (h : readByte s = .error .unexpectedEOF s') :
    s.r = [] ∧ s'.stack.length = s.stack.length := by
  obtain hw | ⟨u, s₁, hw, h⟩ := of_bind_error h
  case inl =>
    rw [willRead_eq] at hw
    repeat' split at hw
    all_goals cases hw
  case inr =>
    obtain ⟨rfl, -⟩ := of_willRead_ok hw
    rw [Program.get_bind] at h
    cases hr : s.r <;> simp only [consume, hr] at h
    case cons => cases h
    case nil =>
      cases h
      exact ⟨rfl, length_stack_consume⟩

-- What is told by the kind of a value, if its error is part of the result.
def KindForetells (x : Bytes) (n : Nat)
    (r r' : EStateM.Result DecodeError Stream (Kind × Nat × Option DecodeError)) : Prop :=
  (∃ k size s, r = .ok (k, size, some .unexpectedEOF) s) ∨
    ∃ k size e s, r = .ok (k, size, e) s ∧ r' = .ok (k, size, e) (s.extend x) ∧
      (e = none → s.stack.length = n)

theorem longSize_foretells (k : Kind) (size : Nat) (x : Bytes) (hs : s.stack.length = n) :
    KindForetells x n ((readSize size >>= fun v => pure (k, v)) s)
      ((readSize size >>= fun v => pure (k, v)) (s.extend x)) := by
  obtain ⟨s', h⟩ | ⟨v, e, s', h, h', hn⟩ := readSize_foretells size x hs
  case inl => exact .inl ⟨k, 0, s', bind_ok h⟩
  case inr => exact .inr ⟨k, v, e, s', bind_ok h, bind_ok h', hn⟩

theorem readKind_foretells (x : Bytes) (hs : s.stack.length = n) (hr : n = 0 → s.r ≠ []) :
    KindForetells x n (readKind s) (readKind (s.extend x)) := by
  have h := readByte_incremental x s hs
  rw [readKind_eq, readKind_eq]
  generalize hb : readByte s = r, readByte (s.extend x) = r' at h
  cases h
  case error e s₁ => exact .inr ⟨.byte, 0, _, s₁, rfl, rfl, by simp⟩
  case eof s₁ =>
    obtain ⟨he, hl⟩ := of_readByte_eof hb
    have hn : s₁.stack ≠ [] := by
      intro h
      rw [h] at hl
      exact hr (hs.symm.trans hl.symm) he
    refine .inl ⟨.byte, 0, s₁, ?_⟩
    simp [adjustEOF, hn]
  case ok b s₁ hs₁ =>
    dsimp only
    cases tagOf b
    case single    => exact .inr ⟨.byte, 0, none, _, rfl, rfl, fun _ => hs₁⟩
    case short k m => exact .inr ⟨k, m, none, _, rfl, rfl, fun _ => hs₁⟩
    case long k m  => exact longSize_foretells (s := { s₁ with byteval := 0 }) k m x hs₁

theorem getKind_foretells (x : Bytes) (hs : s.stack.length = n) (hr : n = 0 → s.r ≠ []) :
    Foretells x n (getKind s) (getKind (s.extend x)) := by
  have hr := readKind_foretells x hs hr
  unfold getKind
  simp only [Program.get_bind]
  cases hk : s.kind
  case some k =>
    have hk' : (s.extend x).kind = some k := hk
    rw [hk']
    cases he : s.kinderr
    case some e =>
      have he' : (s.extend x).kinderr = some e := he
      rw [he']
      exact .error e s
    case none =>
      have he' : (s.extend x).kinderr = none := he
      rw [he']
      exact .ok _ s hs
  case none =>
    have hk' : (s.extend x).kind = none := hk
    rw [hk']
    dsimp only
    have hl : (s.extend x).listLimit = s.listLimit := rfl
    rw [hl]
    by_cases hz : s.listLimit = some 0
    case pos =>
      rw [if_pos hz]
      exact .error .eol s
    case neg =>
      rw [if_neg hz]
      obtain ⟨k, size, s', h⟩ | ⟨k, size, e, s', h, h', hn⟩ := hr
      case inl =>
        rw [bind_ok h]
        exact .eof _ _
      case inr =>
        rw [bind_ok h, bind_ok h']
        simp only [Program.get_bind, set_bind]
        have hc : (s'.extend x).checkSize s.listLimit size = s'.checkSize s.listLimit size := rfl
        rw [hc]
        cases he : e.or (s'.checkSize s.listLimit size)
        case some err => exact .error err _
        case none     => exact .ok _ _ (hn (Option.or_eq_none_iff.mp he).left)

theorem getKind_incremental : Incremental (n + 1) (n + 1) getKind :=
  fun x _ hs => getKind_foretells x hs fun h => absurd h (Nat.succ_ne_zero n)

theorem checkCanonSize_incremental (b : Bytes) : Incremental n n (checkCanonSize b) :=
  .ite (fun _ => .throw _) fun _ => .pure _

theorem byteval_incremental (f : UInt8 → α) : Incremental n n (do return f (← get).byteval) :=
  .get_bind (fun _ _ => rfl) fun _ _ => .pure _

theorem bytes_incremental : Incremental (n + 1) (n + 1) bytes := by
  refine getKind_incremental.bind fun v => ?_
  obtain ⟨kind, size⟩ := v
  cases kind
  case byte =>
    exact rearm_incremental.bind fun _ => byteval_incremental fun b => [b]
  case string =>
    refine (readFull_incremental size).bind fun b => ?_
    exact (checkCanonSize_incremental b).bind fun _ => .pure b
  case list => exact .throw _

theorem uint_incremental (maxbits : Nat) : Incremental (n + 1) (n + 1) (uint maxbits) := by
  refine getKind_incremental.bind fun v => ?_
  obtain ⟨kind, size⟩ := v
  cases kind
  case byte =>
    refine .get_bind (fun _ _ => rfl) fun s _ => ?_
    exact .ite (fun _ => .throw_bind _) fun _ => rearm_incremental.bind fun _ => .pure _
  case string =>
    have hu := (readUint_incremental size).adaptExcept (n := n + 1)
      (g := fun err => if err = .canonSize then .canonInt else err) rfl
    refine .ite (fun _ => .throw_bind _) fun _ => hu.bind fun v => ?_
    exact .ite (fun _ => .throw_bind _) fun _ => .pure _
  case list => exact .throw _

theorem bigIntBuffer_incremental (kind : Kind) (size : Nat) :
    Incremental n n (bigIntBuffer kind size) := by
  unfold bigIntBuffer
  split
  case h_1 => exact .throw _
  case h_2 =>
    exact rearm_incremental.bind fun _ => byteval_incremental fun b => [b]
  case h_3 => exact rearm_incremental.bind fun _ => .pure _
  case h_4 =>
    refine (readFull_incremental _).bind fun b => ?_
    exact (checkCanonSize_incremental b).bind fun _ => .pure b

theorem decodeBigInt_incremental : Incremental (n + 1) (n + 1) decodeBigInt := by
  refine getKind_incremental.bind fun v => ?_
  refine (bigIntBuffer_incremental v.fst v.snd).bind fun b => ?_
  exact .ite (fun _ => .throw_bind _) fun _ => .pure _

theorem list_foretells (x : Bytes) (hs : s.stack.length = n) (hr : n = 0 → s.r ≠ []) :
    Foretells x (n + 1) (list s) (list (s.extend x)) := by
  refine (getKind_foretells x hs hr).bind fun v x s hs => ?_
  obtain ⟨kind, size⟩ := v
  dsimp only
  by_cases hk : kind ≠ .list
  case pos =>
    rw [if_pos hk]
    exact .error _ _
  case neg =>
    rw [if_neg hk]
    exact .ok _ _ (by simp [hs])

theorem list_incremental : Incremental (n + 1) (n + 2) list :=
  fun x _ hs => list_foretells x hs fun h => absurd h (Nat.succ_ne_zero n)

theorem listEnd_incremental : Incremental (n + 1) n listEnd := by
  intro x s hs
  unfold listEnd
  simp only [Program.get_bind]
  have hst : (s.extend x).stack = s.stack := rfl
  rw [hst]
  cases h : s.stack
  case nil => exact .error _ _
  case cons limit stack =>
    rw [h, length_cons] at hs
    dsimp only
    by_cases hl : limit > 0
    case pos =>
      rw [if_pos hl, if_pos hl]
      exact .error _ _
    case neg =>
      have hn : stack.length = n := Nat.succ.inj hs
      rw [if_neg hl, if_neg hl]
      exact .ok _ _ hn

end Stream

section Types

variable {t : TypeInfo α}

def TypeInfo.Incremental (t : TypeInfo α) : Prop :=
  ∀ n old, Rlp.Incremental (n + 1) (n + 1) (t.decoder old)

namespace TypeInfo

theorem uint64_incremental : uint64.Incremental :=
  fun _ _ => ((Stream.uint_incremental 64).adaptExcept rfl).bind fun _ => .pure _

theorem ofBytes_incremental (typ : String) : (ofBytes typ).Incremental :=
  fun _ _ => Stream.bytes_incremental.adaptExcept rfl

theorem bigIntPtr_incremental : bigIntPtr.Incremental :=
  fun _ _ => (Stream.decodeBigInt_incremental.adaptExcept rfl).bind fun _ => .pure _

theorem byteArray_incremental (typ : String) (size : Nat) : (byteArray typ size).Incremental := by
  intro n old
  refine Stream.getKind_incremental.bind fun v => ?_
  obtain ⟨kind, size'⟩ := v
  cases kind
  case byte =>
    refine .ite (fun _ => .throw_bind _) fun _ => .ite (fun _ => .throw_bind _) fun _ => ?_
    exact Stream.rearm_incremental.bind fun _ => Stream.byteval_incremental fun b => ByteArr.copy [b]
  case string =>
    refine .ite (fun _ => .throw_bind _) fun _ => .ite (fun _ => .throw_bind _) fun _ => ?_
    refine (Stream.readFull_incremental size).bind fun b => ?_
    exact ((Stream.checkCanonSize_incremental b).adaptExcept rfl).bind fun _ => .pure _
  case list => exact .throw _

theorem decodeSliceElems_incremental (h : t.Incremental) (he : ∀ old, EOLInPlace (t.decoder old))
    (fuel : Nat) (old : List α) (i : Nat) :
    Rlp.Incremental (n + 1) (n + 1) (decodeSliceElems t fuel old i) := by
  induction fuel generalizing old i
  case zero => exact .throw _
  case succ fuel hi =>
    intro x s hs
    refine (h n (old.headD t.zero) x s hs).attempt_bind ?_ ?_ ?_
    case refine_1 => exact fun a => (hi old.tail (i + 1)).bind fun l => .pure _
    case refine_2 =>
      intro e s' hd
      cases e
      case eol =>
        cases he _ s s' hd
        exact .ok _ _ hs
      all_goals exact .error _ _
    case refine_3 => exact fun s => ⟨s, rfl⟩

theorem slice_incremental (h : t.Incremental) (he : ∀ old, EOLInPlace (t.decoder old)) :
    t.slice.Incremental := by
  intro n old
  refine .bind (.adaptExcept Stream.list_incremental rfl) fun size => ?_
  refine .bind (n := n + 2) (.ite (fun _ => .pure _) fun _ => ?_) fun l => ?_
  case refine_1 => exact decodeSliceElems_incremental h he _ _ _
  case refine_2 => exact Stream.listEnd_incremental.bind fun _ => .pure _

theorem decodeArrayElems_incremental (typ : String) (h : t.Incremental) (old : List α) (i : Nat) :
    Rlp.Incremental (n + 1) (n + 1) (decodeArrayElems typ t old i) := by
  induction old generalizing i
  case nil => exact .pure _
  case cons a old hi =>
    intro x s hs
    refine (h n a x s hs).attempt_bind ?_ ?_ ?_
    case refine_1 => exact fun a => (hi (i + 1)).bind fun l => .pure _
    case refine_2 =>
      intro e s' _
      cases e <;> exact .error _ _
    case refine_3 => exact fun s => ⟨s, rfl⟩

theorem array_incremental (typ : String) (size : Nat) (h : t.Incremental) :
    (array typ size t).Incremental := by
  intro n old
  refine .bind (.adaptExcept Stream.list_incremental rfl) fun _ => ?_
  refine (decodeArrayElems_incremental typ h old.val 0).bind fun l => ?_
  exact (Stream.listEnd_incremental.adaptExcept rfl).bind fun _ => .pure _

end TypeInfo

def Field.Incremental (f : Field α) : Prop :=
  ∀ n old, Rlp.Incremental (n + 1) (n + 1) (f.decoder old)

theorem Field.Incremental.of {name : String} {t : TypeInfo β} {get : α → β} {set : α → β → α}
    (h : t.Incremental) : (Field.of name t get set).Incremental :=
  fun n old => (h n (get old)).bind fun _ => .pure _

inductive FieldsIncremental : List (Field α) → Prop
  | nil : FieldsIncremental []
  | cons {f : Field α} {fields : List (Field α)} : f.Incremental → FieldsIncremental fields →
    FieldsIncremental (f :: fields)

variable {fields : List (Field α)}

theorem decodeFields_incremental (typ : String) (h : FieldsIncremental fields) (old : α) :
    Incremental (n + 1) (n + 1) (decodeFields typ fields old) := by
  induction h generalizing old
  case nil => exact .pure _
  case cons hf _ hi =>
    intro x s hs
    refine (hf n old x s hs).attempt_bind ?_ ?_ ?_
    case refine_1 => exact hi
    case refine_2 =>
      intro e s' _
      cases e <;> exact .error _ _
    case refine_3 => exact fun s => ⟨s, rfl⟩

theorem decodeStruct_foretells (typ : String) (x : Bytes) (hs : s.stack.length = n)
    (hr : n = 0 → s.r ≠ []) (h : FieldsIncremental fields) (old : α) :
    Foretells x n (decodeStruct typ fields old s) (decodeStruct typ fields old (s.extend x)) := by
  refine ((Stream.list_foretells x hs hr).adaptExcept rfl).bind fun _ => ?_
  refine (decodeFields_incremental typ h old).bind fun a => ?_
  exact (Stream.listEnd_incremental.adaptExcept rfl).bind fun _ => .pure _

theorem TypeInfo.struct_incremental (typ : String) (zero : α) (h : FieldsIncremental fields) :
    (TypeInfo.struct typ zero fields).Incremental :=
  fun n old x _ hs => decodeStruct_foretells typ x hs (fun h => absurd h (Nat.succ_ne_zero n)) h old

theorem struct_decode_truncated {typ : String} {zero old a a' : α} {item : Item}
    (h : (TypeInfo.struct typ zero fields).Transfers old a a' item) (hf : FieldsIncremental fields)
    (hb : item.encode.length < 2 ^ 64) (hs : s.Toplevel) (hp : s.r <+: item.encode)
    (hn : s.r ≠ []) (he : s.r ≠ item.encode) :
    ∃ s', Stream.decode (.struct typ zero fields) old s = .error .unexpectedEOF s' := by
  obtain ⟨x, hx⟩ := hp
  have hd : Foretells x 0 (Stream.decode (.struct typ zero fields) old s)
      (Stream.decode (.struct typ zero fields) old (s.extend x)) :=
    (decodeStruct_foretells typ x (congrArg List.length hs.stack) (fun _ => hn) hf old).adaptExcept rfl
  -- With the rest of its input, the value is read, and nothing is left.
  obtain ⟨s₁, h₁, -, hr₁⟩ := h.decode (s := s.extend x) hb ⟨hs.kind, hs.stack, hs.limited⟩
    (hx ▸ prefix_refl _)
  have hl : s₁.r = [] := by
    rw [hr₁, Stream.extend, hx, drop_length]
  rw [h₁] at hd
  generalize Stream.decode (.struct typ zero fields) old s = r at hd
  cases hd
  case eof s' => exact ⟨s', rfl⟩
  case ok s' _ =>
    rw [(append_eq_nil_iff.mp hl).right, append_nil] at hx
    exact absurd hx he

end Types
end Rlp
