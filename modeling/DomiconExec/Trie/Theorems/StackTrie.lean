import DomiconExec.Trie.StackTrie
import DomiconExec.Primitives.Precedes
import DomiconExec.Primitives.Loop

namespace Trie

open List

-- The nibbles of two keys are ordered in the same way as their bytes.
theorem keybytesToHex_precedes {a b : Bytes} (h : Precedes a b) :
    Precedes (keybytesToHex a) (keybytesToHex b) := by
  refine h.flatMap fun x y hl => ?_
  have hx := x.toNat_lt
  have hy := y.toNat_lt
  rw [UInt8.lt_iff_toNat_lt] at hl
  obtain hd | hd := Nat.lt_or_ge (x.toNat / 16) (y.toNat / 16)
  case inl =>
    refine .head (Fin.lt_def.mpr ?_)
    simp only [Fin.ofNat_eq_cast, Fin.val_natCast]
    omega
  case inr =>
    have he : x.toNat / 16 = y.toNat / 16 := Nat.le_antisymm (Nat.div_le_div_right hl.le) hd
    rw [he]
    refine .cons (.head (Fin.lt_def.mpr ?_))
    simp only [Fin.ofNat_eq_cast, Fin.val_natCast]
    omega

namespace StNode

variable {keccak256 : Bytes → Hash} {st child : StNode} {key stKey : List Nibble} {value : Bytes}
  {children : Nibble → Option StNode}

mutual

-- The key of an extension is never empty.
def Sound : StNode → Prop
  | emptyNode           => True
  | branchNode children => ∀ i, SoundChild (children i)
  | extNode key child   => key ≠ [] ∧ Sound child
  | leafNode ..         => True
  | hashedNode _        => True

def SoundChild : Option StNode → Prop
  | none       => True
  | some child => Sound child

end

mutual

-- A key may be inserted if it comes after all that is in a subtree, and does not lead to a hashed
-- node.
def Accepts : StNode → List Nibble → Prop
  | emptyNode, _             => True
  | branchNode children, key =>
    ∃ i rest, key = i :: rest ∧ (∀ j > i, children j = none) ∧ AcceptsChild (children i) rest
  | extNode stKey child, key =>
    Precedes stKey key ∨ ∃ rest, key = stKey ++ rest ∧ Accepts child rest
  | leafNode stKey _, key    => Precedes stKey key
  | hashedNode _, _          => False

def AcceptsChild : Option StNode → List Nibble → Prop
  | none, _         => True
  | some child, key => Accepts child key

end

theorem hexToCompactInPlace_ok {terminator : Bool} (h : key ≠ [] ∨ terminator = true) :
    ∃ b, hexToCompactInPlace key terminator = .ok b := by
  unfold hexToCompactInPlace
  cases key
  case nil =>
    rw [h.resolve_left (absurd rfl)]
    exact ⟨_, rfl⟩
  case cons n rest =>
    dsimp only
    split
    all_goals exact ⟨_, rfl⟩

mutual

theorem hash_ok (st : StNode) (h : st.Sound) : ∃ val, hash keccak256 st = .ok val := by
  cases st
  case emptyNode      => exact ⟨_, rfl⟩
  case hashedNode val => exact ⟨val, rfl⟩
  case leafNode key val =>
    obtain ⟨b, hb⟩ := @hexToCompactInPlace_ok key true (.inr rfl)
    rw [hash, hb]
    exact ⟨_, rfl⟩
  case extNode key child =>
    rw [Sound] at h
    obtain ⟨val, hv⟩ := hash_ok child h.right
    obtain ⟨b, hb⟩ := @hexToCompactInPlace_ok key false (.inl h.left)
    rw [hash, hv]
    simp only [hb]
    exact ⟨_, rfl⟩
  case branchNode children =>
    rw [Sound] at h
    obtain ⟨nodes, hn⟩ := Loop.mapM_ok_iff.mpr
      fun i (_ : i ∈ List.finRange 16) => hashChild_ok (children i) (h i)
    rw [hash, hn]
    exact ⟨_, rfl⟩

theorem hashChild_ok (child : Option StNode) (h : SoundChild child) :
    ∃ op, hashChild keccak256 child = .ok op := by
  cases child
  case none => exact ⟨_, rfl⟩
  case some child =>
    obtain ⟨val, hv⟩ := hash_ok child h
    rw [hashChild, hv]
    exact ⟨_, rfl⟩

end

section Keys

variable {p r s : List Nibble} {x y : Nibble}

theorem getDiffIndex_append (p s : List Nibble) : getDiffIndex p (p ++ s) = .ok p.length := by
  induction p
  case nil => rfl
  case cons n p hi =>
    rw [cons_append, getDiffIndex, if_pos rfl, hi]
    rfl

theorem getDiffIndex_split (h : x ≠ y) :
    getDiffIndex (p ++ x :: r) (p ++ y :: s) = .ok p.length := by
  induction p
  case nil => exact if_neg h
  case cons n p hi =>
    rw [cons_append, cons_append, getDiffIndex, if_pos rfl, hi]
    rfl

theorem nibbleAt_append : nibbleAt (p ++ x :: r) p.length = .ok x := by
  simp [nibbleAt]

theorem drop_succ_append : (p ++ x :: r).drop (p.length + 1) = r := by
  rw [← drop_drop, drop_left]
  rfl

end Keys

-- All keys behind some key may be inserted next.
def Continues (st : StNode) (key : List Nibble) : Prop :=
  ∀ key', Precedes key key' → st.Accepts key'

namespace Continues

theorem leafNode : (StNode.leafNode key value).Continues key :=
  fun _ h => h

theorem extNode (h : child.Continues key) : (StNode.extNode stKey child).Continues (stKey ++ key) := by
  intro key' hp
  rw [Accepts]
  refine hp.of_append.imp_right ?_
  rintro ⟨rest, rfl, hr⟩
  exact ⟨rest, rfl, h rest hr⟩

theorem branchNode {i : Nibble} (hc : children i = some child) (hj : ∀ j > i, children j = none)
    (h : child.Continues key) : (StNode.branchNode children).Continues (i :: key) := by
  intro key' hp
  rw [Accepts]
  cases hp
  case head j rest hl =>
    refine ⟨j, rest, rfl, fun k hk => hj k (hl.trans hk), ?_⟩
    rw [hj j hl]
    trivial
  case cons rest hr =>
    refine ⟨i, rest, rfl, hj, ?_⟩
    rw [hc]
    exact h rest hr

end Continues

theorem update_sound (h : ∀ i, SoundChild (children i)) (hc : child.Sound) (i j : Nibble) :
    SoundChild (Function.update children i (some child) j) := by
  by_cases hj : j = i
  case pos =>
    rw [hj, Function.update_self]
    exact hc
  case neg =>
    rw [Function.update_of_ne hj]
    exact h j

theorem fork_ok {s : List Nibble} {x y : Nibble} {n : Bytes} (h : x < y)
    (hc : children = Function.update (Function.update (fun _ => none) x (some (hashedNode n))) y
      (some (leafNode s value))) :
    (branchNode children).Sound ∧ (branchNode children).Continues (y :: s) := by
  subst hc
  have hx := @update_sound (hashedNode n) (fun _ => none) (fun _ => trivial) trivial x
  refine ⟨@update_sound (leafNode s value) _ hx trivial y, ?_⟩
  refine .branchNode (Function.update_self ..) (fun j hj => ?_) .leafNode
  rw [Function.update_of_ne hj.ne', Function.update_of_ne (h.trans hj).ne']

theorem splitAt_ok {p s : List Nibble} {x y : Nibble} {n : Bytes} (h : x < y) :
    (splitAt p x n y (leafNode s value)).Sound ∧
      (splitAt p x n y (leafNode s value)).Continues (p ++ y :: s) := by
  obtain ⟨hb, hc⟩ := @fork_ok value _ s x y n h rfl
  unfold splitAt
  dsimp only
  split
  case isTrue hp =>
    subst hp
    exact ⟨hb, hc⟩
  case isFalse hp => exact ⟨⟨hp, hb⟩, hc.extNode⟩

theorem unresolveElder_ok (i : Nibble) (h : ∀ i, SoundChild (children i)) :
    ∃ elder, unresolveElder keccak256 children i = .ok elder ∧ (∀ j, SoundChild (elder j)) ∧
      ∀ j ≥ i, elder j = children j := by
  unfold unresolveElder
  split
  case h_1 => exact ⟨children, rfl, h, fun _ _ => rfl⟩
  case h_2 k hk =>
    have hf := List.find?_some hk
    have hl : k < i := (of_decide_eq_true hf).left
    split
    case h_1 => exact ⟨children, rfl, h, fun _ _ => rfl⟩
    case h_2 child hc =>
      have hs := h k
      rw [hc] at hs
      obtain ⟨val, hv⟩ := @hash_ok keccak256 child hs
      refine ⟨_, Loop.bind_of_eq_ok hv, @update_sound (hashedNode val) _ h trivial k, fun j hj => ?_⟩
      exact Function.update_of_ne (hl.trans_le hj).ne' ..

mutual

theorem insert_ok (st : StNode) (key : List Nibble) (hs : st.Sound) (ha : st.Accepts key) :
    ∃ st', insert keccak256 st key value = .ok st' ∧ st'.Sound ∧ st'.Continues key := by
  cases st
  case emptyNode    => exact ⟨leafNode key value, rfl, trivial, .leafNode⟩
  case hashedNode _ => exact absurd ha id
  case leafNode stKey val =>
    obtain ⟨p, x, y, r, s, rfl, rfl, hl⟩ := Precedes.decompose ha
    obtain ⟨n, hn⟩ := @hash_ok keccak256 (leafNode r val) trivial
    refine ⟨splitAt p x n y (leafNode s value), ?_, splitAt_ok hl⟩
    rw [insert, Loop.bind_of_eq_ok (getDiffIndex_split hl.ne), if_neg (by simp)]
    simp only [nibbleAt_append, drop_succ_append, hn, take_left]
    rfl
  case extNode stKey child =>
    obtain ⟨hk, hc⟩ := hs
    obtain ha | ⟨rest, rfl, ha⟩ := ha
    case inl =>
      obtain ⟨p, x, y, r, s, rfl, rfl, hl⟩ := Precedes.decompose ha
      obtain ⟨n, hn⟩ : ∃ n, (if p.length < (p ++ x :: r).length - 1 then
          hash keccak256 (extNode r child) else hash keccak256 child) = .ok n := by
        split
        case isTrue hp =>
          refine hash_ok _ ⟨?_, hc⟩
          rintro rfl
          simp at hp
        case isFalse => exact hash_ok child hc
      refine ⟨splitAt p x n y (leafNode s value), ?_, splitAt_ok hl⟩
      rw [insert, Loop.bind_of_eq_ok (getDiffIndex_split hl.ne), if_neg (by simp)]
      simp only [nibbleAt_append, drop_succ_append, take_left]
      split at hn
      case isTrue hp =>
        rw [if_pos hp, hn]
        rfl
      case isFalse hp =>
        rw [if_neg hp, hn]
        rfl
    case inr =>
      obtain ⟨child', hi, hs', hc'⟩ := insert_ok child rest hc ha
      refine ⟨extNode stKey child', ?_, ⟨hk, hs'⟩, hc'.extNode⟩
      rw [insert, Loop.bind_of_eq_ok (getDiffIndex_append stKey rest), if_pos rfl, drop_left, hi]
      rfl
  case branchNode children =>
    obtain ⟨i, rest, rfl, hj, hc⟩ := ha
    obtain ⟨elder, he, hes, hec⟩ := @unresolveElder_ok keccak256 _ i hs
    obtain ⟨child, hi, hs', hc'⟩ := insertChild_ok (children i) rest (hs i) hc
    refine ⟨branchNode (Function.update elder i (some child)), ?_, update_sound hes hs' i,
      .branchNode (Function.update_self ..) (fun j hl => ?_) hc'⟩
    case refine_1 =>
      have hn : nibbleAt (i :: rest) 0 = .ok i := rfl
      rw [insert, Loop.bind_of_eq_ok hn, Loop.bind_of_eq_ok he, drop_one, tail_cons, hi]
      rfl
    case refine_2 => rw [Function.update_of_ne hl.ne', hec j hl.le, hj j hl]

theorem insertChild_ok (child : Option StNode) (key : List Nibble) (hs : SoundChild child)
    (ha : AcceptsChild child key) :
    ∃ st', insertChild keccak256 child key value = .ok st' ∧ st'.Sound ∧ st'.Continues key := by
  cases child
  case none       => exact ⟨leafNode key value, rfl, trivial, .leafNode⟩
  case some child => exact insert_ok child key hs ha

end

end StNode

namespace StackTrie

variable {keccak256 : Bytes → Hash} {t : StackTrie} {key value : Bytes}

theorem update_ok (hs : t.root.Sound) (ha : t.root.Accepts (keybytesToHex key)) (hv : value ≠ []) :
    ∃ t', t.update keccak256 key value = .ok t' ∧ t'.root.Sound ∧
      t'.root.Continues (keybytesToHex key) := by
  obtain ⟨root, hr, hs', hc⟩ := @StNode.insert_ok keccak256 value t.root _ hs ha
  refine ⟨⟨root⟩, ?_, hs', hc⟩
  rw [update, if_neg hv]
  exact Loop.bind_of_eq_ok hr

theorem foldlM_update_ok {ups : List (Bytes × Bytes)} (hk : (ups.map Prod.fst).Pairwise Precedes)
    (hv : ∀ u ∈ ups, u.snd ≠ []) (t : StackTrie) :
    ∃ t', ups.foldlM (fun t u => update keccak256 t u.fst u.snd) t.reset = .ok t' ∧
      t'.root.Sound := by
  let I (l : List (Bytes × Bytes)) (t : StackTrie) : Prop :=
    t.root.Sound ∧ (l.map Prod.fst).Pairwise Precedes ∧
      ∀ u ∈ l, t.root.Accepts (keybytesToHex u.fst) ∧ u.snd ≠ []
  have body (u : Bytes × Bytes) (l : List (Bytes × Bytes)) (t : StackTrie) (h : I (u :: l) t) :
      ∃ t', update keccak256 t u.fst u.snd = .ok t' ∧ I l t' := by
    obtain ⟨hs, hk, ha⟩ := h
    obtain ⟨⟨hu, hn⟩, hl⟩ := forall_mem_cons.mp ha
    obtain ⟨hp, hk⟩ := pairwise_cons.mp hk
    obtain ⟨t', ht, hs', hc⟩ := update_ok hs hu hn
    refine ⟨t', ht, hs', hk, fun v hv => ⟨?_, (hl v hv).right⟩⟩
    exact hc _ (keybytesToHex_precedes (hp v.fst (mem_map_of_mem hv)))
  obtain ⟨t', ht, hs, _⟩ :=
    Loop.foldlM_rule I body (l := ups) (b := t.reset) ⟨trivial, hk, fun u hu => ⟨trivial, hv u hu⟩⟩
  exact ⟨t', ht, hs⟩

theorem hash_ok (h : t.root.Sound) : ∃ r, hash keccak256 t = .ok r := by
  obtain ⟨val, hv⟩ := @StNode.hash_ok keccak256 t.root h
  exact ⟨_, Loop.bind_of_eq_ok hv⟩

end StackTrie
end Trie
