import DomiconExec.Rlp.Theorems.Canonical

namespace Rlp

open List Bytes Program

variable {α β : Type} {p : Reader α} {P Q : α → Bytes → Prop} {s s' s₁ s₂ : Stream} {b : Bytes}
  {n m : Nat}

-- The reader only accepts input that is related to its result.
def Accepts (p : Reader α) (P : α → Bytes → Prop) : Prop :=
  ∀ s a s', s.Bounded → s.kind = none → p s = .ok a s' → ∃ b, P a b ∧ s.Took b s' ∧ s'.kind = none

namespace Accepts

theorem mono (h : Accepts p P) (hq : ∀ a b, P a b → Q a b) : Accepts p Q := by
  intro s a s' hs hk hp
  obtain ⟨b, hb, ht, hk'⟩ := h s a s' hs hk hp
  exact ⟨b, hq a b hb, ht, hk'⟩

theorem pure (a : α) : Accepts (Pure.pure a) fun a' b => a' = a ∧ b = [] := by
  intro s a' s' hs hk h
  cases h
  exact ⟨[], ⟨rfl, rfl⟩, Stream.took_nil hs, hk⟩

theorem adaptExcept (h : Accepts p P) (g : DecodeError → DecodeError) :
    Accepts (p.adaptExcept g) P :=
  fun s a s' hs hk hp => h s a s' hs hk (of_adaptExcept_ok hp)

theorem bind_pure {R : β → Bytes → Prop} (h : Accepts p P) (f : α → β)
    (hr : ∀ a b, P a b → R (f a) b) : Accepts (do return f (← p)) R := by
  intro s c s' hs hk hp
  obtain ⟨a, s₁, h₁, h₂⟩ := of_bind_ok hp
  cases h₂
  obtain ⟨b, hb, ht⟩ := h s a _ hs hk h₁
  exact ⟨b, hr a b hb, ht⟩

theorem list (p : Nat → Reader α) {q : Reader Unit} (g : DecodeError → DecodeError)
    (hp : ∀ n, Accepts (p n) P) (hq : ∀ s s', q s = .ok () s' → Stream.listEnd s = .ok () s') :
    Accepts (do
      let size ← Stream.list.adaptExcept g
      let a ← p size
      q
      return a) fun a b => ∃ c, P a c ∧ b = header 0xC0 0xF7 c.length ++ c := by
  intro s a s' hs hk h
  obtain ⟨n, s₁, h₁, h⟩ := of_bind_ok h
  obtain ⟨a', s₂, h₂, h⟩ := of_bind_ok h
  obtain ⟨u, s₃, h₃, h⟩ := of_bind_ok h
  cases h
  have hl := of_adaptExcept_ok h₁
  obtain ⟨-, -, -, -, -, hs₁, hk₁⟩ := Stream.of_list_ok hs hk hl
  obtain ⟨c, hc, ht, -⟩ := hp n s₁ a s₂ hs₁ hk₁ h₂
  exact ⟨_, ⟨c, hc, rfl⟩, Stream.took_of_list hs hk hl ht (hq s₂ s' h₃)⟩

end Accepts

-- The reader never reports the end of a list.
def NoEOL (p : Reader α) : Prop :=
  ∀ s s', p s ≠ .error .eol s'

-- The reader reports the end of a list without having read anything.
def EOLInPlace (p : Reader α) : Prop :=
  ∀ s s', p s = .error .eol s' → s' = s

namespace NoEOL

theorem of_ok (h : ∀ s, ∃ a s', p s = .ok a s') : NoEOL p := by
  intro s s' hp
  obtain ⟨a, s₁, ha⟩ := h s
  cases ha.symm.trans hp

theorem pure (a : α) : NoEOL (Pure.pure a) :=
  of_ok fun _ => ⟨_, _, rfl⟩

theorem throw {e : DecodeError} (he : e ≠ .eol) : NoEOL (throwThe DecodeError e : Reader α) := by
  intro s s' h
  cases h
  exact he rfl

theorem bind {f : α → Reader β} (h : NoEOL p) (hf : ∀ a, NoEOL (f a)) : NoEOL (p >>= f) := by
  intro s s' hp
  obtain hp | ⟨a, s₁, -, hp⟩ := of_bind_error hp
  case inl => exact h s s' hp
  case inr => exact hf a s₁ s' hp

theorem throw_bind {e : DecodeError} {f : α → Reader β} (he : e ≠ .eol) :
    NoEOL (throwThe DecodeError e >>= f) := by
  intro s s' h
  cases h
  exact he rfl

theorem get : NoEOL (MonadState.get : Reader Stream) :=
  of_ok fun _ => ⟨_, _, rfl⟩

theorem attempt (p : Reader α) : NoEOL (Program.attempt p) := by
  intro s s' h
  unfold Program.attempt at h
  split at h <;> cases h

theorem ite {c : Prop} [Decidable c] {q : Reader α} (hp : NoEOL p) (hq : NoEOL q) :
    NoEOL (if c then p else q) := by
  split
  case isTrue  => exact hp
  case isFalse => exact hq

-- An error of another kind does not become the end of a list.
theorem adaptExcept {g : DecodeError → DecodeError} (h : NoEOL p)
    (hg : ∀ e, g e = .eol → e = .eol) : NoEOL (p.adaptExcept g) := by
  intro s s' hp
  obtain ⟨e, he, hge⟩ := of_adaptExcept_error hp
  cases hg e hge
  exact h s s' he

end NoEOL

theorem wrapStreamError_eol (typ : String) (e : DecodeError) (h : e.wrapStreamError typ = .eol) :
    e = .eol := by
  cases e
  case eol => rfl
  all_goals cases h

namespace EOLInPlace

theorem bind {f : α → Reader β} (h : EOLInPlace p) (hf : ∀ a, NoEOL (f a)) :
    EOLInPlace (p >>= f) := by
  intro s s' hp
  obtain hp | ⟨a, s₁, -, hp⟩ := of_bind_error hp
  case inl => exact h s s' hp
  case inr => exact (hf a s₁ s' hp).elim

theorem adaptExcept (h : EOLInPlace p) (typ : String) :
    EOLInPlace (p.adaptExcept (.wrapStreamError typ)) := by
  intro s s' hp
  obtain ⟨e, he, hg⟩ := of_adaptExcept_error hp
  cases wrapStreamError_eol typ e hg
  exact h s s' he

end EOLInPlace

namespace Stream

theorem willRead_noEOL (n : Nat) : NoEOL (willRead n) := by
  intro s s' h
  rw [willRead_eq] at h
  repeat' split at h
  all_goals cases h

theorem readByte_noEOL : NoEOL readByte := by
  refine (willRead_noEOL 1).bind fun _ => NoEOL.get.bind fun s => ?_
  cases s.r
  case nil  => exact .throw (by decide)
  case cons => exact (NoEOL.of_ok fun _ => ⟨_, _, rfl⟩).bind fun _ => .pure _

theorem readFull_noEOL (n : Nat) : NoEOL (readFull n) := by
  refine (willRead_noEOL n).bind fun _ => NoEOL.get.bind fun s =>
    (NoEOL.of_ok fun _ => ⟨_, _, rfl⟩).bind fun _ => ?_
  exact .ite (.throw_bind (by decide)) (.pure _)

theorem readUint_noEOL (n : Nat) : NoEOL (readUint n) := by
  unfold readUint
  split
  case h_1 => exact (NoEOL.of_ok fun _ => ⟨_, _, rfl⟩).bind fun _ => .pure _
  case h_2 => exact readByte_noEOL.bind fun _ => .pure _
  case h_3 =>
    refine (readFull_noEOL _).bind fun _ => ?_
    exact .ite (.throw_bind (by decide)) (.pure _)

theorem readSize_ne_eol : readSize m s ≠ .ok (n, some .eol) s' := by
  intro h
  obtain ⟨y, s₁, hy, h⟩ := of_bind_ok h
  cases y
  case error e =>
    cases h
    exact readUint_noEOL m s _ (of_attempt_error hy)
  case ok v =>
    by_cases hv : v < 56 <;> simp [hv] at h

theorem adjustEOF_ne_eol {e : DecodeError} (h : e ≠ .eol) : s.adjustEOF e ≠ .eol := by
  unfold adjustEOF
  split
  case h_1 => split <;> simp
  case h_2 => split <;> simp
  case h_3 => exact h

theorem readKind_ne_eol {k : Kind} : readKind s ≠ .ok (k, n, some .eol) s' := by
  intro h
  rw [readKind_eq] at h
  cases hb : readByte s <;> simp only [hb] at h
  case error e s₁ =>
    have he : e ≠ .eol := fun he => readByte_noEOL s s₁ (he ▸ hb)
    simp only [EStateM.Result.ok.injEq, Prod.mk.injEq, Option.some.injEq] at h
    exact adjustEOF_ne_eol he h.left.right.right
  case ok x s₁ =>
    cases ht : tagOf x <;> simp only [ht] at h
    case single => cases h
    case short  => cases h
    case long   =>
      obtain ⟨v, s₂, hv, h⟩ := of_bind_ok h
      cases h
      exact readSize_ne_eol hv

theorem checkSize_ne_eol {limit : Option Nat} : s.checkSize limit n ≠ some .eol := by
  unfold checkSize
  repeat' split
  all_goals simp

theorem readSize_noEOL (n : Nat) : NoEOL (readSize n) := by
  refine (NoEOL.attempt _).bind fun y => ?_
  cases y <;> exact .pure _

theorem readKind_noEOL : NoEOL readKind := by
  intro s s' h
  rw [readKind_eq] at h
  cases hb : readByte s <;> simp only [hb] at h
  case error => cases h
  case ok x s₁ =>
    cases ht : tagOf x <;> simp only [ht] at h
    case single => cases h
    case short  => cases h
    case long   => exact (readSize_noEOL _).bind (fun _ => .pure _) _ _ h

theorem getKind_eolInPlace : EOLInPlace getKind := by
  intro s s' h
  unfold getKind at h
  rw [get_bind] at h
  cases hk : s.kind
  case some k =>
    simp only [hk] at h
    cases he : s.kinderr
    all_goals
      simp only [he] at h
      cases h
    case some => rfl
  case none =>
    simp only [hk] at h
    split at h
    case isTrue =>
      cases h
      rfl
    case isFalse =>
      obtain hr | ⟨⟨k, n, err⟩, s₁, hr, h⟩ := of_bind_error h
      case inl => exact (readKind_noEOL s s' hr).elim
      case inr =>
        simp only [get_bind, set_bind] at h
        cases he : err.or (s₁.checkSize s.listLimit n)
        all_goals
          rw [he] at h
          cases h
        cases err
        case none => exact (checkSize_ne_eol he).elim
        case some =>
          cases he
          exact (readKind_ne_eol hr).elim

theorem bytes_eolInPlace : EOLInPlace bytes := by
  refine getKind_eolInPlace.bind ?_
  rintro ⟨k, m⟩
  cases k
  case byte   => exact (NoEOL.of_ok fun _ => ⟨_, _, rfl⟩).bind fun _ => NoEOL.get.bind fun _ => .pure _
  case string =>
    refine (readFull_noEOL m).bind fun b => ?_
    exact (NoEOL.ite (.throw (by decide)) (.pure _)).bind fun _ => .pure b
  case list   => exact .throw (by decide)

theorem encodeStr_of_single {x : UInt8} (h : x < 0x80) : Item.encodeStr [x] = [x] :=
  if_pos (by simpa [single] using h)

theorem encodeStr_of_not_single (h : ¬single b) :
    Item.encodeStr b = header 0x80 0xB7 b.length ++ b :=
  if_neg h

-- Only the shortest representation of a number is accepted.
theorem uint_accepts (maxbits : Nat) (hm : 0 < maxbits / 8) : Accepts (uint maxbits) fun n b =>
    n < 256 ^ (maxbits / 8) ∧ b = Item.encodeStr (bigEndian n) := by
  intro s n s' hs hk h
  obtain ⟨⟨k, m⟩, s₁, hg, h⟩ := of_bind_ok h
  obtain ⟨ht, -, hb⟩ := took_of_getKind hs hk hg
  cases k
  case byte =>
    simp only [get_bind] at h
    split at h
    case isTrue => cases h
    case isFalse hz =>
      cases h
      have hx := hb rfl
      have hp : 0 < s₁.byteval.toNat := Nat.pos_of_ne_zero fun h => hz <| UInt8.toNat_inj.mp h
      have hn : s₁.byteval.toNat < 256 ^ (maxbits / 8) :=
        Nat.lt_of_lt_of_le s₁.byteval.toNat_lt (Nat.pow_le_pow_right (n := 256) (by decide) hm)
      refine ⟨[s₁.byteval], ⟨hn, ?_⟩, ht.congr rfl rfl, rfl⟩
      rw [bigEndian_of_lt hp s₁.byteval.toNat_lt, UInt8.ofNat_toNat, encodeStr_of_single hx]
  case string =>
    simp only at h
    split at h
    case isTrue => cases h
    case isFalse hl =>
      obtain ⟨v, s₂, hv, h⟩ := of_bind_ok h
      have hv := of_adaptExcept_ok hv
      split at h
      case isTrue => cases h
      case isFalse hc =>
        cases h
        cases Nat.eq_zero_or_pos m
        case inl hz =>
          subst hz
          cases hv
          exact ⟨_, ⟨Nat.pow_pos (by omega), rfl⟩, ht.congr rfl rfl, rfl⟩
        case inr hp =>
          have hn : 128 ≤ n := Nat.le_of_not_lt fun hn => hc ⟨hp, hn⟩
          obtain ⟨ht', hl', hk'⟩ := took_of_readUint ht.bounded (Nat.ne_of_gt hp) (by omega) hv
          have hs' : ¬single (bigEndian n) := by
            rw [single_bigEndian (by omega)]
            omega
          refine ⟨_, ⟨bigEndian_length_le.mp (hl' ▸ Nat.le_of_not_lt hl), ?_⟩, ht.trans hs ht', hk'⟩
          rw [encodeStr_of_not_single hs', hl']
          rfl
  case list => cases h

theorem bool_accepts : Accepts bool fun v b => b = Item.encodeStr (bigEndian v.toNat) := by
  intro s v s' hs hk h
  obtain ⟨n, s₁, hn, h⟩ := of_bind_ok h
  obtain ⟨b, ⟨-, hb⟩, ht⟩ := uint_accepts 8 (by decide) s n s₁ hs hk hn
  split at h
  case h_1 =>
    cases h
    exact ⟨b, hb, ht⟩
  case h_2 =>
    cases h
    exact ⟨b, hb, ht⟩
  case h_3 => cases h

theorem bytes_accepts : Accepts bytes fun v b => b = Item.encodeStr v :=
  fun _ _ _ hs hk h => ⟨_, rfl, took_of_bytes hs hk h⟩

theorem took_of_bigIntBuffer {k : Kind} (hs : s.Bounded) (hk : s.kind = none)
    (hg : getKind s = .ok (k, m) s₁) (h : bigIntBuffer k m s₁ = .ok b s₂) :
    s.Took (Item.encodeStr b) s₂ ∧ s₂.kind = none ∧ (k = .string ∧ b.length = m ∨ b.length = 1) := by
  obtain ⟨ht, -, hb⟩ := took_of_getKind hs hk hg
  unfold bigIntBuffer at h
  split at h
  case h_1 => cases h
  case h_2 =>
    cases h
    rw [encodeStr_of_single (hb rfl)]
    exact ⟨ht.congr rfl rfl, rfl, .inr rfl⟩
  case h_3 =>
    cases h
    exact ⟨ht.congr rfl rfl, rfl, .inl ⟨rfl, rfl⟩⟩
  case h_4 =>
    obtain ⟨b', s₃, hf, h⟩ := of_bind_ok h
    obtain ⟨u, s₄, hc, h⟩ := of_bind_ok h
    cases h
    obtain ⟨hn, rfl⟩ := not_single_of_checkCanonSize hc
    obtain ⟨ht', hl, hk'⟩ := took_of_readFull ht.bounded hf
    rw [encodeStr_of_not_single hn, hl]
    exact ⟨ht.trans hs ht', hk', .inl ⟨rfl, rfl⟩⟩

theorem decodeBigInt_accepts : Accepts decodeBigInt fun n b => b = Item.encodeStr (bigEndian n) := by
  intro s n s' hs hk h
  obtain ⟨⟨k, m⟩, s₁, hg, h⟩ := of_bind_ok h
  obtain ⟨b, s₂, hb, h⟩ := of_bind_ok h
  obtain ⟨ht, hk', -⟩ := took_of_bigIntBuffer hs hk hg hb
  split at h
  case isTrue => cases h
  case isFalse hz =>
    cases h
    exact ⟨_, congrArg Item.encodeStr (bigEndian_toNat hz).symm, ht, hk'⟩

theorem readUint256_accepts :
    Accepts readUint256 fun z b => b = Item.encodeStr (bigEndian z.toNat) := by
  intro s z s' hs hk h
  obtain ⟨⟨k, m⟩, s₁, hg, h⟩ := of_bind_ok h
  simp only at h
  split at h
  case isTrue => cases h
  case isFalse hc =>
    obtain ⟨b, s₂, hb, h⟩ := of_bind_ok h
    obtain ⟨ht, hk', hl⟩ := took_of_bigIntBuffer hs hk hg hb
    split at h
    case isTrue => cases h
    case isFalse hz =>
      cases h
      -- At most 32 bytes were read, so that nothing is cut off.
      have hl : b.length ≤ 32 := by
        obtain ⟨rfl, hl⟩ | hl := hl
        case inl => exact hl ▸ Nat.le_of_not_lt fun hm => hc ⟨rfl, hm⟩
        case inr => omega
      have hn : toNat b < 2 ^ 256 :=
        Nat.lt_of_lt_of_le (toNat_lt b) (Nat.pow_le_pow_right (n := 256) (by decide) hl)
      have hv : bigEndian (BitVec.ofNat 256 (toNat b)).toNat = b := by
        rw [BitVec.toNat_ofNat, Nat.mod_eq_of_lt hn, bigEndian_toNat hz]
      exact ⟨_, congrArg Item.encodeStr hv.symm, ht, hk'⟩

end Stream

-- What is accepted as a value of the type is exactly what represents the value.
def TypeInfo.Strict (t : TypeInfo α) (f : α → Item) (P : α → Prop) : Prop :=
  ∀ old, Accepts (t.decoder old) fun a b => P a ∧ b = (f a).encode

namespace TypeInfo

theorem uint64_strict : uint64.Strict (fun n => .str (bigEndian n.toNat)) fun _ => True := by
  intro old
  refine ((Stream.uint_accepts 64 (by decide)).adaptExcept _).bind_pure UInt64.ofNat ?_
  rintro n b ⟨hn, rfl⟩
  exact ⟨trivial, by rw [Item.encode, UInt64.toNat_ofNat_of_lt' hn]⟩

theorem bool_strict : bool.Strict (fun v => .str (bigEndian v.toNat)) fun _ => True := by
  intro old
  refine (Stream.bool_accepts.adaptExcept _).mono ?_
  rintro v b rfl
  exact ⟨trivial, by rw [Item.encode]⟩

theorem ofBytes_strict (typ : String) : (ofBytes typ).Strict .str fun _ => True := by
  intro old
  refine (Stream.bytes_accepts.adaptExcept _).mono ?_
  rintro v b rfl
  exact ⟨trivial, by rw [Item.encode]⟩

theorem bigIntPtr_strict : bigIntPtr.Strict (fun i => .str (bigEndian (i.getD 0).toNat))
    fun i => ∃ n : Nat, i = some (n : Int) := by
  intro old
  refine (Stream.decodeBigInt_accepts.adaptExcept _).bind_pure (fun n => some (n : Int)) ?_
  rintro n b rfl
  exact ⟨⟨n, rfl⟩, by rw [Item.encode]; rfl⟩

theorem u256IntPtr_strict : u256IntPtr.Strict (fun z => .str (bigEndian (z.getD 0).toNat))
    fun z => ∃ v, z = some v := by
  intro old
  refine (Stream.readUint256_accepts.adaptExcept _).bind_pure some ?_
  rintro z b rfl
  exact ⟨⟨z, rfl⟩, by rw [Item.encode]; rfl⟩

theorem byteArray_strict (typ : String) (n : Nat) :
    (byteArray typ n).Strict (fun a => .str a.val) fun _ => True := by
  intro old s a s' hs hk h
  obtain ⟨⟨k, m⟩, s₁, hg, h⟩ := of_bind_ok h
  obtain ⟨ht, -, hb⟩ := Stream.took_of_getKind hs hk hg
  simp only [Item.encode]
  have hv {b : Bytes} (hl : b.length = n) : (ByteArr.copy b : ByteArr n).val = b := by
    simp [ByteArr.copy, takeD_eq_take, ← hl]
  cases k
  case byte =>
    simp only at h
    split at h
    case isTrue => cases h
    split at h
    case isTrue => cases h
    case isFalse h₀ h₁ =>
      cases h
      refine ⟨[s₁.byteval], ⟨trivial, ?_⟩, ht.congr rfl rfl, rfl⟩
      rw [hv (by simp; omega), Stream.encodeStr_of_single (hb rfl)]
  case string =>
    simp only at h
    split at h
    case isTrue => cases h
    split at h
    case isTrue => cases h
    case isFalse h₀ h₁ =>
      obtain ⟨b, s₂, hf, h⟩ := of_bind_ok h
      obtain ⟨u, s₃, hc, h⟩ := of_bind_ok h
      cases h
      obtain ⟨hn, rfl⟩ := Stream.not_single_of_checkCanonSize (of_adaptExcept_ok hc)
      obtain ⟨ht', hl, hk'⟩ := Stream.took_of_readFull ht.bounded hf
      refine ⟨_, ⟨trivial, ?_⟩, ht.trans hs ht', hk'⟩
      rw [hv hl, Stream.encodeStr_of_not_single hn, hl, show m = n by omega]
      rfl
  case list => cases h

theorem ofBytes_eolInPlace (typ : String) (old : Bytes) : EOLInPlace ((ofBytes typ).decoder old) :=
  Stream.bytes_eolInPlace.adaptExcept typ

theorem byteArray_eolInPlace (typ : String) {n : Nat} (old : ByteArr n) :
    EOLInPlace ((byteArray typ n).decoder old) := by
  refine Stream.getKind_eolInPlace.bind ?_
  rintro ⟨k, m⟩
  cases k
  case byte =>
    refine .ite (.throw_bind (by simp)) <| .ite (.throw_bind (by simp)) ?_
    exact (NoEOL.of_ok fun _ => ⟨_, _, rfl⟩).bind fun _ => NoEOL.get.bind fun _ => .pure _
  case string =>
    refine .ite (.throw_bind (by simp)) <| .ite (.throw_bind (by simp)) ?_
    refine (Stream.readFull_noEOL _).bind fun b => ?_
    refine (NoEOL.adaptExcept ?_ (wrapStreamError_eol typ)).bind fun _ => .pure _
    exact .ite (.throw (by simp)) (.pure _)
  case list => exact .throw (by simp [DecodeError.wrapStreamError])

section Pointers

variable {t : TypeInfo α} {f : α → Item}

-- Empty strings stand for no value, so that no value may be represented by one.
theorem nilPtr_strict (ht : t.Strict f fun _ => True) (hp : ∀ old, Peeks (t.decoder old)) :
    (nilPtr .string t).Strict (fun a => (a.map f).getD (.str [])) fun _ => True := by
  intro old s a s' hs hk h
  obtain ⟨⟨k, m⟩, s₁, hg, h⟩ := of_bind_ok h
  have hg := of_adaptExcept_ok hg
  simp only at h
  split at h
  case isTrue hn =>
    obtain ⟨hn, rfl⟩ := hn
    obtain ⟨ht, -, -⟩ := Stream.took_of_getKind hs hk hg
    split at h
    case isTrue => cases h
    case isFalse hk =>
      cases h
      cases Decidable.not_not.mp hk
      exact ⟨_, ⟨trivial, rfl⟩, ht.congr rfl rfl, rfl⟩
  case isFalse =>
    obtain ⟨v, s₂, hv, h⟩ := of_bind_ok h
    cases h
    rw [hp _ s k m s₁ hg] at hv
    exact ht _ s v _ hs hk hv

end Pointers

section Lists

variable {t : TypeInfo α} {f : α → Item}

theorem decodeSliceElems_accepts (ht : t.Strict f fun _ => True)
    (he : ∀ old, EOLInPlace (t.decoder old)) (fuel : Nat) (old : List α) (i : Nat) :
    Accepts (decodeSliceElems t fuel old i) fun l b => b = Item.encodeAll (l.map f) := by
  induction fuel generalizing old i
  case zero =>
    intro s l s' _ _ h
    cases h
  case succ fuel hi =>
    intro s l s' hs hk h
    obtain ⟨y, s₁, hy, h⟩ := of_bind_ok h
    cases y
    case ok a =>
      obtain ⟨l', s₂, hl, h⟩ := of_bind_ok h
      cases h
      obtain ⟨b, ⟨-, rfl⟩, ht₁, hk₁⟩ := ht _ s a s₁ hs hk (of_attempt_ok hy)
      obtain ⟨b', rfl, ht₂, hk₂⟩ := hi _ _ s₁ l' s' ht₁.bounded hk₁ hl
      refine ⟨_, ?_, ht₁.trans hs ht₂, hk₂⟩
      dsimp only
      rw [map_cons, Item.encodeAll]
    case error e =>
      cases e
      case eol =>
        cases h
        cases he _ _ _ (of_attempt_error hy)
        exact ⟨[], rfl, Stream.took_nil hs, hk⟩
      all_goals cases h

theorem namedSlice_strict (typ : String) (ht : t.Strict f fun _ => True)
    (he : ∀ old, EOLInPlace (t.decoder old)) :
    (namedSlice typ t).Strict (fun l => .list (l.map f)) fun _ => True := by
  intro old
  have hp (n : Nat) : Accepts (if n = 0 then pure [] else decodeSliceElems t (n + 1) old 0)
      fun l b => b = Item.encodeAll (l.map f) := by
    split
    case isTrue =>
      refine (Accepts.pure []).mono ?_
      rintro l b ⟨rfl, rfl⟩
      rfl
    case isFalse => exact decodeSliceElems_accepts ht he _ old 0
  refine (Accepts.list _ (.wrapStreamError typ) hp fun _ _ h => h).mono ?_
  rintro l b ⟨c, rfl, rfl⟩
  exact ⟨trivial, by rw [Item.encode]⟩

theorem slice_strict (ht : t.Strict f fun _ => True) (he : ∀ old, EOLInPlace (t.decoder old)) :
    t.slice.Strict (fun l => .list (l.map f)) fun _ => True :=
  namedSlice_strict _ ht he

end Lists

end TypeInfo

section Structs

-- From a value and the items read for it, the field leads to another value and one more item.
def Field.Accepts (f : Field α) (P Q : α → List Item → Prop) : Prop :=
  ∀ a items, P a items →
    Rlp.Accepts (f.decoder a) fun a' b => ∃ item, Q a' (items ++ [item]) ∧ b = item.encode

-- What is known about the value changes from field to field.
inductive FieldsAccept : (α → List Item → Prop) → List (Field α) → (α → List Item → Prop) → Prop
  | nil {R} : FieldsAccept R [] R
  | cons {R S T f fields} : Field.Accepts f R S → FieldsAccept S fields T →
    FieldsAccept R (f :: fields) T

variable {fields : List (Field α)} {P T : α → List Item → Prop}

def Received (P : α → List Item → Prop) (set : α → β → α) (f : β → Item) (R : β → Prop) (a : α)
    (items : List Item) : Prop :=
  ∃ a₀ items₀ v, P a₀ items₀ ∧ R v ∧ a = set a₀ v ∧ items = items₀ ++ [f v]

theorem Field.Accepts.of {name : String} {t : TypeInfo β} {get : α → β} {set : α → β → α}
    {f : β → Item} {R : β → Prop} (h : t.Strict f R) :
    (Field.of name t get set).Accepts P (Received P set f R) := by
  intro a items hp
  refine (h (get a)).bind_pure (set a) ?_
  rintro v b ⟨hv, rfl⟩
  exact ⟨f v, ⟨a, items, v, hp, hv, rfl, rfl⟩, rfl⟩

theorem FieldsAccept.decodeFields (typ : String) (h : FieldsAccept P fields T) {a : α}
    {items : List Item} (hp : P a items) :
    Accepts (decodeFields typ fields a) fun a' b =>
      ∃ items', T a' (items ++ items') ∧ b = Item.encodeAll items' := by
  induction h generalizing a items
  case nil =>
    refine (Accepts.pure a).mono ?_
    rintro _ _ ⟨rfl, rfl⟩
    exact ⟨[], by rwa [append_nil], rfl⟩
  case cons hf _ hi =>
    intro s a' s' hs hk h
    obtain ⟨y, s₁, hy, h⟩ := of_bind_ok h
    cases y
    case ok v =>
      obtain ⟨_, ⟨item, hq, rfl⟩, ht₁, hk₁⟩ := hf a items hp s v s₁ hs hk (of_attempt_ok hy)
      obtain ⟨_, ⟨items', ht, rfl⟩, ht₂, hk₂⟩ := hi hq s₁ a' s' ht₁.bounded hk₁ h
      refine ⟨_, ⟨item :: items', ?_, ?_⟩, ht₁.trans hs ht₂, hk₂⟩
      case refine_1 => rwa [append_assoc] at ht
      case refine_2 => rw [Item.encodeAll]
    case error e => cases e <;> cases h

theorem struct_accepts {typ : String} {zero old : α}
    (h : FieldsAccept (fun a items => a = old ∧ items = []) fields T) :
    Accepts ((TypeInfo.struct typ zero fields).decoder old) fun a b =>
      ∃ items, T a items ∧ b = (Item.list items).encode := by
  have hf := h.decodeFields typ ⟨rfl, rfl⟩
  refine (Accepts.list (fun _ => decodeFields typ fields old) (.wrapStreamError typ) (fun _ => hf)
    fun _ _ h => of_adaptExcept_ok h).mono ?_
  rintro a b ⟨_, ⟨items, ht, rfl⟩, rfl⟩
  exact ⟨items, ht, by rw [Item.encode]⟩

theorem decodeFields_noEOL (typ : String) (fields : List (Field α)) (a : α) :
    NoEOL (decodeFields typ fields a) := by
  induction fields generalizing a
  case nil => exact .pure a
  case cons f fields hi =>
    refine (NoEOL.attempt _).bind fun y => ?_
    cases y
    case ok a    => exact hi a
    case error e => cases e <;> exact .throw (by simp [DecodeError.addErrorContext])

theorem listEnd_noEOL : NoEOL Stream.listEnd := by
  intro s s' h
  unfold Stream.listEnd at h
  rw [get_bind] at h
  cases hs : s.stack <;> simp only [hs] at h
  case nil => cases h
  case cons => split at h <;> cases h

theorem TypeInfo.struct_eolInPlace (typ : String) (zero old : α) :
    EOLInPlace ((TypeInfo.struct typ zero fields).decoder old) := by
  have hl : EOLInPlace Stream.list := by
    refine Stream.getKind_eolInPlace.bind ?_
    rintro ⟨k, m⟩
    refine .ite (.throw_bind (by simp)) ?_
    exact (NoEOL.of_ok fun _ => ⟨_, _, rfl⟩).bind fun _ => .pure _
  refine (hl.adaptExcept typ).bind fun _ => (decodeFields_noEOL typ fields old).bind fun _ => ?_
  exact (listEnd_noEOL.adaptExcept (wrapStreamError_eol typ)).bind fun _ => .pure _

end Structs

theorem Accepts.decodeBytes {t : TypeInfo α} {old a : α} {P : α → Bytes → Prop}
    (h : Accepts (t.decoder old) P) (hb : b.length < 2 ^ 63)
    (hd : decodeBytes t b old = .ok a) : P a b := by
  have hs : (Stream.reset b b.length).Bounded := ⟨hb, fun _ hl => absurd hl not_mem_nil⟩
  unfold Rlp.decodeBytes at hd
  split at hd
  case h_1 => cases hd
  case h_2 v s' hv =>
    split at hd
    case isTrue => cases hd
    case isFalse hr =>
      cases hd
      obtain ⟨c, hc, ht, -⟩ := h _ a s' hs rfl (of_adaptExcept_ok hv)
      have hr : s'.r = [] := length_eq_zero_iff.mp (Nat.eq_zero_of_not_pos hr)
      have hbc : b = c := by simpa [Stream.reset, hr] using ht.r
      rwa [hbc]

end Rlp
