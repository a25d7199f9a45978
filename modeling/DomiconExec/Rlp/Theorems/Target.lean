import DomiconExec.Rlp.TypeInfo

namespace Rlp

open Program

variable {α β : Type} {info : TypeInfo α} {typ : String}

-- It makes no difference which value is read into.
def TypeInfo.Oblivious (info : TypeInfo α) : Prop :=
  ∀ old old', info.decoder old = info.decoder old'

namespace TypeInfo

theorem uint64_oblivious : uint64.Oblivious :=
  fun _ _ => rfl

theorem ofBytes_oblivious (typ : String) : (ofBytes typ).Oblivious :=
  fun _ _ => rfl

theorem byteArray_oblivious (typ : String) (n : Nat) : (byteArray typ n).Oblivious :=
  fun _ _ => rfl

theorem bigIntPtr_oblivious : bigIntPtr.Oblivious :=
  fun _ _ => rfl

end TypeInfo

theorem decodeSliceElems_oblivious (h : info.Oblivious) (fuel i : Nat) (old old' : List α) :
    decodeSliceElems info fuel old i = decodeSliceElems info fuel old' i := by
  induction fuel generalizing i old old'
  case zero => rfl
  case succ fuel hi =>
    simp only [decodeSliceElems]
    rw [h (old.headD info.zero) (old'.headD info.zero), hi (i + 1) old.tail old'.tail]

theorem TypeInfo.slice_oblivious (h : info.Oblivious) : (slice info).Oblivious := by
  intro old old'
  simp only [slice, decodeListSlice, decodeSliceElems_oblivious h _ _ old old']

theorem decodeArrayElems_alike (h : info.Oblivious) (i : Nat) {old old' : List α}
    (hl : old.length = old'.length) :
    Alike (fun l l' => l.val = l'.val) (decodeArrayElems typ info old i)
      (decodeArrayElems typ info old' i) := by
  induction old generalizing i old'
  case nil =>
    cases old'
    case nil  => exact .pure rfl
    case cons => contradiction
  case cons a old hi =>
    cases old'
    case nil          => contradiction
    case cons a' old' =>
      simp only [decodeArrayElems]
      refine (Alike.of_eq (h a a')).attempt.bind fun r r' hr => ?_
      cases hr
      case ok hr =>
        cases hr
        exact (hi (i + 1) (Nat.succ.inj hl)).bind fun l l' hl => .pure (congrArg _ hl)
      case error e => cases e <;> exact .throw _

theorem TypeInfo.array_oblivious {n : Nat} (h : info.Oblivious) : (array typ n info).Oblivious := by
  refine fun old old' => Alike.eq <| (Alike.refl _).bind fun _ _ _ => ?_
  have hl : old.val.length = old'.val.length := old.property.trans old'.property.symm
  refine (decodeArrayElems_alike h 0 hl).bind fun l l' hl => ?_
  exact (Alike.refl _).bind fun _ _ _ => .pure (Subtype.ext hl)

section Structs

-- Reading the field takes values that are related by `R` to values that are related by `S`.
def Field.Relates (R S : α → α → Prop) (f : Field α) : Prop :=
  ∀ a b, R a b → Alike S (f.decoder a) (f.decoder b)

-- The relation between the values changes from field to field.
inductive Relates : (α → α → Prop) → List (Field α) → (α → α → Prop) → Prop
  | nil {R} : Relates R [] R
  | cons {R S T f fields} : f.Relates R S → Relates S fields T → Relates R (f :: fields) T

variable {R T : α → α → Prop} {fields : List (Field α)}

def Written (R : α → α → Prop) (set : α → β → α) (a b : α) : Prop :=
  ∃ a₀ b₀ v, R a₀ b₀ ∧ a = set a₀ v ∧ b = set b₀ v

theorem Field.Relates.of {name : String} {info : TypeInfo β} {get : α → β} {set : α → β → α}
    (h : info.Oblivious) : (Field.of name info get set).Relates R (Written R set) := by
  refine fun a b hr => (Alike.of_eq (h (get a) (get b))).bind fun v v' hv => ?_
  exact .pure ⟨a, b, v, hr, rfl, hv ▸ rfl⟩

theorem Relates.decodeFields (h : Relates R fields T) {a b : α}
    (hr : R a b) : Alike T (decodeFields typ fields a) (decodeFields typ fields b) := by
  induction h generalizing a b
  case nil => exact .pure hr
  case cons hf _ hi =>
    refine (hf a b hr).attempt.bind fun r r' h => ?_
    cases h
    case ok h    => exact hi h
    case error e => cases e <;> exact .throw _

theorem struct_alike {zero old old' : α} (h : Relates (fun a b => a = old ∧ b = old') fields T)
    (ht : ∀ a b, T a b → R a b) :
    Alike R ((TypeInfo.struct typ zero fields).decoder old)
      ((TypeInfo.struct typ zero fields).decoder old') := by
  refine (Alike.refl _).bind fun _ _ _ => (h.decodeFields ⟨rfl, rfl⟩).bind fun a b hr => ?_
  exact (Alike.refl _).bind fun _ _ _ => .pure (ht a b hr)

-- A struct without exported fields is left as it is.
theorem Field.Relates.of_struct_nil {name : String} {zero : β} {get : α → β} {set : α → β → α}
    (hs : ∀ a, set a (get a) = a) : (Field.of name (.struct typ zero []) get set).Relates R R := by
  intro a b hr
  refine (struct_alike .nil fun _ _ h => h).bind ?_
  rintro x y ⟨rfl, rfl⟩
  exact .pure ((hs a).symm ▸ (hs b).symm ▸ hr)

end Structs
end Rlp
