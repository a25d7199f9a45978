import DomiconExec.Discover.Table
import DomiconExec.Primitives.BigEndian

open List

namespace Enode

def distance (target id : Hash) : Nat :=
  Bytes.toNat (List.zipWith (· ^^^ ·) id.val target.val)

theorem compare_digit {x y p q n : Nat} (hp : p < n) (h : x < y) :
    compare (x * n + p) (y * n + q) = .lt := by
  rw [compare_lt_iff_lt]
  calc x * n + p < x * n + n := Nat.add_lt_add_left hp _
    _ = (x + 1) * n := (Nat.succ_mul x n).symm
    _ ≤ y * n := Nat.mul_le_mul_right n h
    _ ≤ y * n + q := Nat.le_add_right ..

theorem distCmp_eq {target a b : Bytes} (ha : a.length = target.length)
    (hb : b.length = target.length) :
    distCmp target a b = compare (Bytes.toNat (List.zipWith (· ^^^ ·) a target))
      (Bytes.toNat (List.zipWith (· ^^^ ·) b target)) := by
  induction target generalizing a b
  case nil =>
    obtain rfl := length_eq_zero_iff.mp ha
    obtain rfl := length_eq_zero_iff.mp hb
    rfl
  case cons t target hi =>
    obtain ⟨x, a, rfl⟩ := exists_cons_of_length_eq_add_one ha
    obtain ⟨y, b, rfl⟩ := exists_cons_of_length_eq_add_one hb
    have ha := Nat.succ.inj ha
    have hb := Nat.succ.inj hb
    have la := Bytes.toNat_lt (List.zipWith (· ^^^ ·) a target)
    have lb := Bytes.toNat_lt (List.zipWith (· ^^^ ·) b target)
    simp only [distCmp, zipWith_cons_cons, Bytes.toNat_cons]
    rw [length_zipWith, ha, Nat.min_self] at la ⊢
    rw [length_zipWith, hb, Nat.min_self] at lb ⊢
    split
    case isTrue h =>
      have h := UInt8.lt_iff_toNat_lt.mp h
      rw [← Nat.compare_swap, compare_digit lb h]
      rfl
    case isFalse h =>
      split
      case isTrue h => exact (compare_digit la (UInt8.lt_iff_toNat_lt.mp h)).symm
      case isFalse h' =>
        rw [UInt8.le_antisymm (UInt8.not_lt.mp h) (UInt8.not_lt.mp h'), hi ha hb]
        simp only [Nat.compare_eq_ite_lt, Nat.add_lt_add_iff_left]

theorem distCmp_gt_iff (target a b : Hash) :
    distCmp target.val a.val b.val = .gt ↔ distance target b < distance target a := by
  rw [distCmp_eq (a.property.trans target.property.symm) (b.property.trans target.property.symm),
    compare_gt_iff_gt]
  rfl

theorem zipWith_xor_inj {a b target : Bytes} (ha : a.length = target.length)
    (hb : b.length = target.length)
    (h : List.zipWith (· ^^^ ·) a target = List.zipWith (· ^^^ ·) b target) : a = b := by
  induction target generalizing a b
  case nil =>
    obtain rfl := length_eq_zero_iff.mp ha
    exact (length_eq_zero_iff.mp hb).symm
  case cons t target hi =>
    obtain ⟨x, a, rfl⟩ := exists_cons_of_length_eq_add_one ha
    obtain ⟨y, b, rfl⟩ := exists_cons_of_length_eq_add_one hb
    obtain ⟨hx, h⟩ := List.cons.inj h
    rw [hi (Nat.succ.inj ha) (Nat.succ.inj hb) h, (UInt8.xor_left_inj t).mp hx]

theorem distance_injective (target : Hash) : Function.Injective (distance target) := by
  intro a b h
  have ha := a.property.trans target.property.symm
  have hb := b.property.trans target.property.symm
  refine ByteArr.ext <| zipWith_xor_inj ha hb <| Bytes.toNat_inj ?_ h
  rw [length_zipWith, length_zipWith, ha, hb]

end Enode

namespace Discover

section Nearest

variable {α : Type} {dist : α → Nat} {k : Nat} {seen entries l r : List α} {n : α}

-- The first `k` elements of `seen` by distance.
structure Nearest (dist : α → Nat) (k : Nat) (seen entries : List α) : Prop where
  sorted : entries.Pairwise (dist · < dist ·)
  length : entries.length = min k seen.length
  rest : ∃ rest, (entries ++ rest).Perm seen ∧ ∀ x ∈ entries, ∀ y ∈ rest, dist x < dist y

theorem Nearest.nil : Nearest dist k [] [] where
  sorted := .nil
  length := by simp
  rest := ⟨[], .nil, by simp⟩

theorem sorted_insert (hs : (l ++ r).Pairwise (dist · < dist ·)) (hl : ∀ x ∈ l, dist x < dist n)
    (hr : ∀ x ∈ r, dist n < dist x) : (l ++ n :: r).Pairwise (dist · < dist ·) := by
  obtain ⟨h₁, h₂, h₃⟩ := pairwise_append.mp hs
  refine pairwise_append.mpr ⟨h₁, pairwise_cons.mpr ⟨hr, h₂⟩, fun x hx y hy => ?_⟩
  obtain rfl | hy := mem_cons.mp hy
  case inl => exact hl x hx
  case inr => exact h₃ x hx y hy

-- The first `k` of `n` and the elements so far are kept. What was dropped before is farther away
-- than the element that is dropped now.
theorem Nearest.insert (h : Nearest dist k seen (l ++ r)) (hl : ∀ x ∈ l, dist x < dist n)
    (hr : ∀ x ∈ r, dist n < dist x) : Nearest dist k (seen ++ [n]) ((l ++ n :: r).take k) := by
  obtain ⟨hs, hlen, rest, hp, hd⟩ := h
  have hins := sorted_insert hs hl hr
  have hplen := hp.length_eq
  simp only [length_append] at hlen hplen
  refine ⟨hins.sublist (take_sublist ..), ?_, (l ++ n :: r).drop k ++ rest, ?_, ?_⟩
  case refine_1 =>
    simp only [length_take, length_append, length_cons, length_nil]
    omega
  case refine_2 =>
    rw [← append_assoc, take_append_drop]
    calc l ++ n :: r ++ rest
      _ = l ++ n :: (r ++ rest) := by rw [append_assoc, cons_append]
      List.Perm _ (n :: (l ++ (r ++ rest))) := List.perm_middle
      List.Perm _ (n :: seen) := by rw [← append_assoc]; exact hp.cons n
      List.Perm _ (seen ++ [n]) := (perm_append_singleton n seen).symm
  case refine_3 =>
    intro x hx y hy
    obtain hm | hm := mem_append.mp hy
    case inl =>
      rw [← take_append_drop k (l ++ n :: r)] at hins
      exact (pairwise_append.mp hins).right.right x hx y hm
    case inr =>
      have hpos := length_pos_of_mem hm
      by_cases hxn : x = n
      case neg =>
        refine hd x ?_ y hm
        simpa only [mem_append, mem_cons, hxn, false_or] using mem_of_mem_take hx
      case pos =>
        -- The element that is dropped now follows `n`.
        cases r
        case nil =>
          rw [take_append_of_le_length (by simp at hlen; omega)] at hx
          have := hl x (mem_of_mem_take hx)
          rw [hxn] at this
          exact absurd this (Nat.lt_irrefl _)
        case cons z r =>
          rw [hxn]
          exact (hr z mem_cons_self).trans <| hd z (by simp) y hm

theorem Nearest.subset (h : Nearest dist k seen entries) : entries ⊆ seen := by
  obtain ⟨rest, hp, -⟩ := h.rest
  exact fun x hx => hp.subset (mem_append_left rest hx)

theorem Nearest.nearest (h : Nearest dist k seen entries) :
    ∀ x ∈ entries, ∀ y ∈ seen, y ∉ entries → dist x < dist y := by
  obtain ⟨rest, hp, hd⟩ := h.rest
  intro x hx y hy hn
  exact hd x hx y <| (mem_append.mp (hp.symm.subset hy)).resolve_left hn

end Nearest

namespace Table

open Enode

variable {tab : Table} {h : NodesByDistance} {n : Node} {k : Nat} {seen l : List Node}
variable {target : Hash} {preferLive : Bool}

theorem slide_eq {entries : List Node} {ix : Nat} (hix : ix ≤ entries.length)
    (hk : entries.length ≤ k) :
    slide entries ix n k = (entries.take ix ++ n :: entries.drop ix).take k := by
  have hlen : (entries.take ix ++ n :: entries.drop ix).length = entries.length + 1 := by
    simp only [length_append, length_take, length_cons, length_drop]
    omega
  simp only [slide]
  by_cases hlt : entries.length < k <;> by_cases hi : ix < entries.length
  all_goals simp only [hlt, hi, if_true, if_false]
  case pos =>
    rw [take_append_of_le_length hix, drop_append_of_le_length hix, dropLast_concat,
      take_of_length_le (hlen.trans_le hlt)]
  case neg =>
    obtain rfl : ix = entries.length := by omega
    rw [take_of_length_le (by omega), take_length, drop_length]
  case pos =>
    obtain rfl : entries.length = k := by omega
    obtain ⟨m, hm⟩ : ∃ m, entries.length - ix = m + 1 := ⟨entries.length - ix - 1, by omega⟩
    rw [take_append, take_take, length_take, Nat.min_eq_right hix,
      Nat.min_eq_left hix, hm, take_succ_cons, dropLast_eq_take, length_drop, hm,
      Nat.add_sub_cancel]
  case neg =>
    obtain rfl : ix = entries.length := by omega
    obtain rfl : entries.length = k := by omega
    rw [take_length, drop_length, take_left]

-- The index that the search finds separates the closer nodes from those farther away.
theorem search_farther (hs : h.entries.Pairwise (distance h.target ·.id < distance h.target ·.id))
    (hn : ∀ e ∈ h.entries, e.id ≠ n.id) :
    search h.entries.length (h.farther n) ≤ h.entries.length ∧
    (∀ e ∈ h.entries.take (search h.entries.length (h.farther n)),
      distance h.target e.id < distance h.target n.id) ∧
    ∀ e ∈ h.entries.drop (search h.entries.length (h.farther n)),
      distance h.target n.id < distance h.target e.id := by
  have hf (i : Nat) (e : Node) (he : h.entries[i]? = some e) :
      h.farther n i ↔ distance h.target n.id < distance h.target e.id := by
    simp [NodesByDistance.farther, he, distCmp_gt_iff]
  have hm : Search.Monotone h.entries.length (h.farther n) := by
    intro i j hij hj hi
    have hlt : i < h.entries.length := Nat.lt_of_le_of_lt hij hj
    rw [hf i _ (List.getElem?_eq_getElem hlt)] at hi
    rw [hf j _ (List.getElem?_eq_getElem hj)]
    obtain rfl | hne := Nat.eq_or_lt_of_le hij
    case inl => exact hi
    case inr => exact hi.trans <| pairwise_iff_getElem.mp hs i j hlt hj hne
  obtain ⟨hle, hix⟩ := Search.search_spec hm
  refine ⟨hle, fun e he => ?_, fun e he => ?_⟩
  case refine_1 =>
    obtain ⟨i, hi⟩ := mem_iff_getElem?.mp he
    rw [List.getElem?_take] at hi
    split at hi
    case isFalse => contradiction
    case isTrue hlt =>
      have hnf := mt (hix i (List.getElem?_eq_some_iff.mp hi).choose).mp (Nat.not_le_of_lt hlt)
      rw [hf i e hi] at hnf
      refine Nat.lt_of_le_of_ne (Nat.le_of_not_lt hnf) fun heq => ?_
      exact hn e (mem_of_mem_take he) (distance_injective _ heq)
  case refine_2 =>
    obtain ⟨i, hi⟩ := mem_iff_getElem?.mp he
    rw [List.getElem?_drop] at hi
    exact (hf _ e hi).mp <|
      (hix _ (List.getElem?_eq_some_iff.mp hi).choose).mpr (Nat.le_add_right ..)

theorem push_nearest (hc : Nearest (distance h.target ·.id) k seen h.entries)
    (hn : ∀ e ∈ seen, e.id ≠ n.id) :
    Nearest (distance h.target ·.id) k (seen ++ [n]) (h.push n k).entries := by
  obtain ⟨hle, hl, hr⟩ := search_farther hc.sorted fun e he => hn e (hc.subset he)
  have hk : h.entries.length ≤ k := hc.length ▸ Nat.min_le_left ..
  rw [NodesByDistance.push, slide_eq hle hk]
  exact Nearest.insert ((take_append_drop ..).symm ▸ hc) hl hr

-- The induction is on the nodes that are still to be pushed.
theorem foldl_push (hc : Nearest (distance h.target ·.id) k seen h.entries)
    (hn : ((seen ++ l).map (·.id)).Nodup) :
    Nearest (distance h.target ·.id) k (seen ++ l) (l.foldl (·.push · k) h).entries := by
  induction l generalizing h seen
  case nil => rwa [append_nil]
  case cons n l hi =>
    have hne : ∀ e ∈ seen, e.id ≠ n.id := by
      rw [map_append, nodup_append] at hn
      exact fun e he => hn.right.right _ (mem_map_of_mem he) _ (by simp)
    rw [append_cons]
    exact @hi (h.push n k) _ (push_nearest hc hne) (append_cons .. ▸ hn)

def candidates (tab : Table) (k : Nat) (preferLive : Bool) : List Node :=
  if preferLive ∧ 0 < k ∧ ∃ n ∈ tab.entries, n.livenessChecks > 0 then
    tab.entries.filter (·.livenessChecks > 0)
  else
    tab.entries

theorem findnodeByID_nearest (hn : (tab.entries.map (·.id)).Nodup) :
    Nearest (distance target ·.id) k (tab.candidates k preferLive)
      (tab.findnodeByID target k preferLive).entries := by
  have hall {l : List Node} (hn : (l.map (·.id)).Nodup) :
      Nearest (distance target ·.id) k l
        (l.foldl (·.push · k) ({ target } : NodesByDistance)).entries :=
    @foldl_push { target } k [] l .nil hn
  have hlive := hall <| hn.sublist <|
    (filter_sublist (p := fun n : Node => n.livenessChecks > 0) (l := tab.entries)).map _
  unfold findnodeByID candidates
  cases preferLive
  case false => simpa using hall hn
  case true =>
    simp only [Bool.true_and, true_and]
    rw [← foldl_filter]
    have hlen := hlive.length
    by_cases hc : 0 < k ∧ ∃ n ∈ tab.entries, n.livenessChecks > 0
    case pos =>
      obtain ⟨hk, n, hm, hl⟩ := hc
      have hpos : 0 < (tab.entries.filter (·.livenessChecks > 0)).length :=
        length_pos_of_mem <| mem_filter.mpr ⟨hm, decide_eq_true hl⟩
      rw [if_pos ⟨hk, n, hm, hl⟩, if_pos (decide_eq_true <| hlen ▸ Nat.lt_min.mpr ⟨hk, hpos⟩)]
      exact hlive
    case neg =>
      rw [if_neg hc, if_neg]
      case hnc =>
        rw [decide_eq_true_eq, hlen]
        intro hpos
        refine hc ⟨by omega, ?_⟩
        obtain ⟨n, hm⟩ := exists_mem_of_length_pos (Nat.lt_of_lt_of_le hpos (Nat.min_le_right ..))
        have hm := mem_filter.mp hm
        exact ⟨n, hm.left, of_decide_eq_true hm.right⟩
      exact hall hn

theorem findnodeByID_closest (tab : Table) (target : Hash) (k : Nat) (preferLive : Bool)
    (h : (tab.entries.map (·.id)).Nodup) :
    (tab.findnodeByID target k preferLive).entries.length =
      min k (tab.candidates k preferLive).length ∧
    (tab.findnodeByID target k preferLive).entries.Pairwise
      (distance target ·.id < distance target ·.id) ∧
    (∀ n ∈ (tab.findnodeByID target k preferLive).entries, n ∈ tab.candidates k preferLive ∧
      ∀ n' ∈ tab.candidates k preferLive, n' ∉ (tab.findnodeByID target k preferLive).entries →
        distance target n.id < distance target n'.id) := by
  have hn := @findnodeByID_nearest tab k target preferLive h
  exact ⟨hn.length, hn.sorted, fun n hm => ⟨hn.subset hm, hn.nearest n hm⟩⟩

def sampleTable : Table :=
  Table.setBucket { self := .zero } (Table.bucket { self := .zero } (.fill 1))
    { entries := [⟨⟨.fill 1, 1, [8, 8, 8, 8]⟩, 0⟩, ⟨⟨.fill 2, 1, [9, 9, 9, 9]⟩, 3⟩] }

theorem sampleTable_closest :
    (sampleTable.findnodeByID (.fill 3) 1 false).entries.length =
      min 1 (sampleTable.candidates 1 false).length ∧
    (sampleTable.findnodeByID (.fill 3) 1 false).entries.Pairwise
      (distance (.fill 3) ·.id < distance (.fill 3) ·.id) ∧
    (∀ n ∈ (sampleTable.findnodeByID (.fill 3) 1 false).entries, n ∈ sampleTable.candidates 1 false ∧
      ∀ n' ∈ sampleTable.candidates 1 false,
        n' ∉ (sampleTable.findnodeByID (.fill 3) 1 false).entries →
          distance (.fill 3) n.id < distance (.fill 3) n'.id) :=
  findnodeByID_closest sampleTable (.fill 3) 1 false (by decide)

end Table
end Discover
