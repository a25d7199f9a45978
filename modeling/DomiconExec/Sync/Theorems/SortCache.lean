import DomiconExec.Primitives.Transition
import DomiconExec.Sync.SortCache

namespace Sync

open List

namespace KeySlice

variable {arr pre post seg lo hi : List Int64} {x y pivot : Int64} {n m : Nat} {i j left right : Int}
  {acc acc₁ acc₂ : List Int}

-- What was accessed in the meantime is between two bounds.
def Within (left right : Int) (acc acc' : List Int) : Prop :=
  ∀ i ∈ acc', i ∈ acc ∨ left ≤ i ∧ i ≤ right

theorem Within.trans (h₁ : Within left right acc acc₁) (h₂ : Within left right acc₁ acc₂) :
    Within left right acc acc₂ :=
  fun i hi => (h₂ i hi).elim (h₁ i) .inr

theorem Within.mono (h : Within i j acc acc₁) (hl : left ≤ i) (hr : j ≤ right) :
    Within left right acc acc₁ :=
  fun k hk => (h k hk).imp_right fun hk => ⟨hl.trans hk.left, hk.right.trans hr⟩

theorem read_ok (h : arr[n]? = some x) : read ⟨arr, acc⟩ n = .ok (x, ⟨arr, n :: acc⟩) := by
  simp [read, h, Int.not_lt.mpr (Int.natCast_nonneg n)]

theorem swap_ok (hn : arr[n]? = some y) (hm : arr[m]? = some x) (h : n ≤ m) :
    ∃ acc', swap ⟨arr, acc⟩ n m = .ok ⟨(arr.set n x).set m y, acc'⟩ ∧ Within n m acc acc' := by
  have h₁ := (List.getElem?_eq_some_iff.mp hn).choose
  have h₂ := (List.getElem?_eq_some_iff.mp hm).choose
  refine ⟨m :: n :: n :: m :: acc, ?_, ?_⟩
  case refine_1 => simp [swap, read_ok hm, read_ok hn, write, bind, Except.bind, h₁, h₂]
  case refine_2 =>
    grind [Within]

-- The elements between the two positions are only rearranged.
theorem swap_append (hi : i = pre.length) (hj : j = pre.length + lo.length) :
    ∃ lo' acc', swap ⟨pre ++ (lo ++ x :: post), acc⟩ i j = .ok ⟨pre ++ x :: (lo' ++ post), acc'⟩ ∧
      lo'.Perm lo ∧ Within i j acc acc' := by
  obtain rfl : j = (pre.length + lo.length : Nat) := by omega
  subst hi
  have hm : (pre ++ (lo ++ x :: post))[pre.length + lo.length]? = some x := by simp
  cases lo
  case nil =>
    obtain ⟨acc', hs, hw⟩ := @swap_ok _ _ _ _ _ acc hm hm (Nat.le_refl _)
    exact ⟨[], acc', by simpa using hs, .refl _, hw⟩
  case cons y lo =>
    have hn : (pre ++ (y :: lo ++ x :: post))[pre.length]? = some y := by simp
    obtain ⟨acc', hs, hw⟩ := @swap_ok _ _ _ _ _ acc hn hm (Nat.le_add_right ..)
    exact ⟨lo ++ [y], acc', by simpa using hs, perm_append_singleton y lo, hw⟩

-- In the middle of a partition, the elements of `lo` are below the pivot and those of `hi` are not.
structure Parted (pivot : Int64) (lo hi : List Int64) : Prop where
  below : ∀ x ∈ lo, x < pivot
  above : ∀ x ∈ hi, ¬x < pivot

theorem partitionStep_ok (p : Parted pivot lo hi) (hd : n = lo.length + hi.length) :
    ∃ lo' hi' acc', partitionStep pivot pre.length
        (pre.length + lo.length - 1, ⟨pre ++ (lo ++ (hi ++ x :: post)), acc⟩) n =
      .ok (pre.length + lo'.length - 1, ⟨pre ++ (lo' ++ (hi' ++ post)), acc'⟩) ∧
      Parted pivot lo' hi' ∧ (lo' ++ hi').Perm (lo ++ hi ++ [x]) ∧
      Within pre.length (pre.length + n) acc acc' := by
  subst hd
  have hx : (pre ++ (lo ++ (hi ++ x :: post)))[pre.length + (lo.length + hi.length)]? = some x := by
    simp
  have hr := @read_ok _ _ _ acc hx
  rw [Int.natCast_add] at hr
  obtain ⟨hb, ha⟩ := p
  rw [partitionStep, Loop.bind_of_eq_ok hr]
  dsimp only
  split
  case isFalse hp =>
    refine ⟨lo, hi ++ [x], _, by simp; rfl, ⟨hb, by grind⟩, by simp, ?_⟩
    grind [Within]
  case isTrue hp =>
    obtain ⟨hi', acc', hs, hp', hw⟩ := @swap_append (pre ++ lo) post hi x
      (pre.length + lo.length) (pre.length + (lo.length + hi.length : Nat))
      (((pre.length : Int) + (lo.length + hi.length : Nat)) :: acc) (by simp) (by simp; omega)
    have hi : (pre.length : Int) + (lo ++ [x]).length - 1 = pre.length + lo.length := by
      rw [length_append, length_singleton]
      omega
    rw [append_assoc, append_assoc] at hs
    rw [Int.sub_add_cancel, Loop.bind_of_eq_ok hs]
    refine ⟨lo ++ [x], hi', acc', ?_, ⟨by grind, fun y hy => ha y (hp'.mem_iff.mp hy)⟩, ?_, ?_⟩
    case refine_1 =>
      rw [hi, append_assoc]
      rfl
    case refine_2 =>
      rw [append_assoc, append_assoc]
      exact ((perm_append_singleton x hi').symm.trans (hp'.append_right [x])).append_left lo
    case refine_3 => grind [Within]

theorem foldlM_partitionStep_ok (p : Parted pivot lo hi) : ∃ lo' hi' acc',
      (List.range' (lo.length + hi.length) seg.length).foldlM (partitionStep pivot pre.length)
        (pre.length + lo.length - 1, ⟨pre ++ (lo ++ (hi ++ (seg ++ post))), acc⟩) =
      .ok (pre.length + lo'.length - 1, ⟨pre ++ (lo' ++ (hi' ++ post)), acc'⟩) ∧
      Parted pivot lo' hi' ∧ (lo' ++ hi').Perm (lo ++ hi ++ seg) ∧
      Within pre.length (pre.length + lo.length + hi.length + seg.length) acc acc' := by
  induction seg generalizing lo hi acc
  case nil => exact ⟨lo, hi, acc, rfl, p, by simp, fun _ => .inl⟩
  case cons x seg ih =>
    obtain ⟨lo₁, hi₁, acc₁, hs, p₁, hp₁, hw₁⟩ := @partitionStep_ok pre (seg ++ post) lo hi x pivot
      _ acc p rfl
    have hl := hp₁.length_eq
    simp only [length_append, length_singleton] at hl
    obtain ⟨lo', hi', acc', he, p', hp', hw'⟩ := @ih lo₁ hi₁ acc₁ p₁
    refine ⟨lo', hi', acc', ?_, p', ?_, ?_⟩
    case refine_1 =>
      rw [length_cons, range'_succ, foldlM_cons, cons_append,
        Loop.bind_of_eq_ok hs, ← hl]
      exact he
    case refine_2 => exact hp'.trans (by simpa using hp₁.append_right seg)
    case refine_3 =>
      rw [length_cons]
      refine (hw₁.mono (Int.le_refl _) ?_).trans (hw'.mono (Int.le_refl _) ?_) <;> omega

theorem partition_ok (pre seg post : List Int64) (pivot : Int64) (acc : List Int)
    (hr : right = pre.length + seg.length) : ∃ lo hi acc',
      partition ⟨pre ++ (seg ++ pivot :: post), acc⟩ pre.length right =
        .ok (pre.length + lo.length, ⟨pre ++ (lo ++ pivot :: (hi ++ post)), acc'⟩) ∧
      Parted pivot lo hi ∧ (lo ++ hi).Perm seg ∧ Within pre.length right acc acc' := by
  obtain rfl : right = (pre.length + seg.length : Nat) := by omega
  have hx : (pre ++ (seg ++ pivot :: post))[pre.length + seg.length]? = some pivot := by simp
  obtain ⟨lo, hi, acc₁, hf, p, hp, hw⟩ := @foldlM_partitionStep_ok pre (pivot :: post) seg [] []
    pivot ((pre.length + seg.length : Nat) :: acc) ⟨by simp, by simp⟩
  have hl := hp.length_eq
  simp only [length_append, nil_append] at hl
  obtain ⟨hi', acc', hs, hp', hw'⟩ := @swap_append (pre ++ lo) post hi pivot
      (pre.length + lo.length) (pre.length + seg.length : Nat) acc₁ (by simp) (by simp; omega)
  refine ⟨lo, hi', acc', ?_, ⟨p.below, fun y hy => p.above y (hp'.mem_iff.mp hy)⟩, ?_, ?_⟩
  case refine_1 =>
    have hn : ((pre.length + seg.length : Nat) - pre.length : Int).toNat = seg.length := by omega
    rw [append_assoc, append_assoc] at hs
    rw [length_nil, Int.natCast_zero, Int.add_zero] at hf
    rw [partition, Loop.bind_of_eq_ok (read_ok hx), range_eq_range', hn]
    refine (Loop.bind_of_eq_ok hf).trans ?_
    dsimp only
    rw [Int.sub_add_cancel, Loop.bind_of_eq_ok hs]
    rfl
  case refine_2 => exact (hp'.append_left lo).trans (by simpa using hp)
  case refine_3 => grind [Within]

theorem pairwise_append_pivot (p : Parted pivot lo hi) (hl : lo.Pairwise (· ≤ ·))
    (hh : hi.Pairwise (· ≤ ·)) : (lo ++ pivot :: hi).Pairwise (· ≤ ·) := by
  have hb x (hx : x ∈ lo) : x ≤ pivot := Int64.le_of_lt (p.below x hx)
  have ha x (hx : x ∈ hi) : pivot ≤ x := Int64.not_lt.mp (p.above x hx)
  refine pairwise_append.mpr ⟨hl, pairwise_cons.mpr ⟨ha, hh⟩, fun x hx y hy => ?_⟩
  obtain rfl | hy := mem_cons.mp hy
  case inl => exact hb x hx
  case inr => exact Int64.le_trans (hb x hx) (ha y hy)

theorem exists_segment (hl : 0 ≤ left) (h : left ≤ right) (hr : right < arr.length) :
    ∃ pre seg pivot post, arr = pre ++ (seg ++ pivot :: post) ∧ left = pre.length ∧
      right = pre.length + seg.length := by
  obtain ⟨n, rfl⟩ := Int.eq_ofNat_of_zero_le hl
  obtain ⟨m, rfl⟩ := Int.eq_ofNat_of_zero_le (hl.trans h)
  have hm : m < arr.length := by omega
  refine ⟨arr.take n, (arr.take m).drop n, arr[m], arr.drop (m + 1), ?_, ?_, ?_⟩
  case refine_1 =>
    have ht : (arr.take m).take n = arr.take n := by
      rw [take_take, Nat.min_eq_left (Int.ofNat_le.mp h)]
    rw [← append_assoc, ← ht, take_append_drop, getElem_cons_drop,
      take_append_drop]
  all_goals
    simp only [length_take, length_drop]
    omega

-- A segment of the array is sorted, and nothing outside of it is accessed.
theorem quickSort_ok (pre seg post : List Int64) (acc : List Int)
    (hr : right = pre.length + seg.length - 1) : ∃ seg' acc',
      quickSort ⟨pre ++ (seg ++ post), acc⟩ pre.length right =
        .ok ⟨pre ++ (seg' ++ post), acc'⟩ ∧
      seg'.Perm seg ∧ seg'.Pairwise (· ≤ ·) ∧ Within pre.length right acc acc' := by
  induction hn : seg.length using Nat.strong_induction_on generalizing pre seg post acc right
  case h n ih =>
    subst hn
    obtain rfl | ⟨seg, pivot, rfl⟩ := eq_nil_or_concat' seg
    case inl =>
      rw [quickSort, dif_neg (by rw [length_nil] at hr; omega)]
      exact ⟨[], acc, rfl, .refl _, .nil, fun _ => .inl⟩
    case inr =>
      rw [length_append, length_singleton] at hr ih
      rw [append_assoc seg, singleton_append, quickSort]
      split
      case isFalse hl =>
        have hz : seg = [] := length_eq_zero_iff.mp (by omega)
        refine ⟨[pivot], acc, ?_, by simp [hz], pairwise_singleton .., fun _ => .inl⟩
        rw [hz]
        rfl
      case isTrue hl =>
        have hr' : right = pre.length + seg.length := by omega
        obtain ⟨lo, hi, acc₁, he, p, hp, hw⟩ := partition_ok pre seg post pivot acc hr'
        have hs := hp.length_eq
        rw [length_append] at hs
        obtain ⟨lo', acc₂, h₁, hp₁, hs₁, hw₁⟩ := ih lo.length (by omega) pre lo
          (pivot :: (hi ++ post)) acc₁ rfl rfl
        have hl' := hp₁.length_eq
        obtain ⟨hi', acc₃, h₂, hp₂, hs₂, hw₂⟩ := ih hi.length (by omega) (pre ++ (lo' ++ [pivot])) hi
          post acc₂ rfl rfl
        have hm : ((pre ++ (lo' ++ [pivot])).length : Int) = pre.length + lo.length + 1 := by
          simp only [length_append, length_singleton]
          omega
        have hx : ((pre ++ (lo' ++ [pivot])).length : Int) + hi.length - 1 = right := by omega
        rw [hx, hm] at h₂ hw₂
        simp only [append_assoc, singleton_append] at h₂
        refine ⟨lo' ++ pivot :: hi', acc₃, ?_, ?_, ?_, ?_⟩
        case refine_1 =>
          split
          case h_1 hf => cases he.symm.trans hf
          case h_2 hf =>
            cases he.symm.trans hf
            rw [Loop.bind_of_eq_ok h₁, h₂, append_assoc]
            rfl
        case refine_2 =>
          refine ((hp₁.append (hp₂.cons pivot)).trans perm_middle).trans ?_
          exact (hp.cons pivot).trans (perm_append_singleton pivot seg).symm
        case refine_3 =>
          refine pairwise_append_pivot ⟨fun x hx => ?_, fun x hx => ?_⟩ hs₁ hs₂
          case refine_1 => exact p.below x (hp₁.mem_iff.mp hx)
          case refine_2 => exact p.above x (hp₂.mem_iff.mp hx)
        case refine_4 =>
          refine (hw.trans (hw₁.mono (Int.le_refl _) ?_)).trans (hw₂.mono ?_ (Int.le_refl _)) <;> omega

end KeySlice

namespace BtcSortCache

variable {ν : Type} {b b' : BtcSortCache ν}

inductive Call (ν : Type)
  | set (index : Int64) (val : ν)
  | sort

def machine : Transition.System (BtcSortCache ν) (Call ν) GoPanic where
  init := newBtcSortCache
  step
    | b, .set index val => .ok (b.set index val)
    | b, .sort          => b.sort

-- Each key of the cache is listed once.
structure Listed (b : BtcSortCache ν) : Prop where
  nodup : b.keyList.Nodup
  mem : ∀ k, k ∈ b.keyList ↔ k ∈ b.cache

theorem sort_ok (b : BtcSortCache ν) : ∃ keyList, b.sort = .ok { b with keyList } ∧
    keyList.Perm b.keyList ∧ keyList.Pairwise (· ≤ ·) := by
  have hr : (b.keyList.length - 1 : Int) = ([] : List Int64).length + b.keyList.length - 1 := by simp
  obtain ⟨keyList, acc, h, hp, hs, _⟩ := KeySlice.quickSort_ok [] b.keyList [] [] hr
  rw [append_nil, append_nil] at h
  exact ⟨keyList, Loop.bind_of_eq_ok h, hp, hs⟩

theorem Listed.set {index : Int64} {val : ν} (l : b.Listed) : (b.set index val).Listed := by
  unfold BtcSortCache.set
  constructor
  case nodup =>
    have := l.nodup
    have := l.mem index
    grind
  case mem =>
    intro k
    have := l.mem k
    grind

theorem run_ok (calls : List (Call ν)) : ∃ b, machine.run machine.init calls = .ok b ∧ b.Listed := by
  have hi : (machine.init : BtcSortCache ν).Listed :=
    ⟨nodup_nil, by simp [machine, newBtcSortCache]⟩
  refine Loop.foldlM_rule (fun _ => Listed) (fun c _ b l => ?_) hi
  cases c
  case set => exact ⟨_, rfl, l.set⟩
  case sort =>
    obtain ⟨keyList, h, hp, _⟩ := b.sort_ok
    exact ⟨_, h, hp.nodup_iff.mpr l.nodup, fun k => hp.mem_iff.trans (l.mem k)⟩

-- All that the sorting touches is within the interval that it is called for.
theorem sorted_keys (ν : Type) (calls : List (Call ν)) :
    (∃ b, machine.run machine.init calls = .ok b ∧ b.keyList.Nodup ∧
      (∀ k, k ∈ b.keyList ↔ k ∈ b.cache) ∧
      ∃ b', b.sort = .ok b' ∧ (∀ k, b'.get k = b.get k) ∧ b'.keyList.Perm b.keyList ∧
        b'.keyList.Pairwise (· < ·)) ∧
    ∀ (s : KeySlice) (left right : Int), 0 ≤ left → right < s.arr.length →
      (∃ s', s.quickSort left right = .ok s' ∧ KeySlice.Within left right s.accessed s'.accessed) ∧
      (left ≤ right → ∃ p s', s.partition left right = .ok (p, s') ∧
        KeySlice.Within left right s.accessed s'.accessed) := by
  constructor
  case left =>
    obtain ⟨b, hr, l⟩ := run_ok calls
    obtain ⟨keyList, h, hp, hs⟩ := b.sort_ok
    refine ⟨b, hr, l.nodup, l.mem, _, h, fun _ => rfl, hp, ?_⟩
    have hn : keyList.Nodup := hp.nodup_iff.mpr l.nodup
    exact hs.imp₂ (fun _ _ => Int64.lt_of_le_of_ne) hn
  case right =>
    intro s left right hl hr
    by_cases h : left ≤ right
    case neg =>
      rw [KeySlice.quickSort, dif_neg (by omega)]
      exact ⟨⟨s, rfl, fun _ => .inl⟩, fun hc => absurd hc h⟩
    case pos =>
      obtain ⟨arr, acc⟩ := s
      obtain ⟨pre, seg, pivot, post, rfl, rfl, rfl⟩ := KeySlice.exists_segment hl h hr
      have hp : (pre.length + seg.length : Int) = pre.length + (seg ++ [pivot]).length - 1 := by
        rw [length_append, length_singleton]
        omega
      obtain ⟨seg', acc₁, h₁, _, _, hw₁⟩ := KeySlice.quickSort_ok pre (seg ++ [pivot]) post acc hp
      obtain ⟨lo, hi, acc₂, h₂, _, _, hw₂⟩ := KeySlice.partition_ok pre seg post pivot acc rfl
      rw [append_assoc seg] at h₁
      exact ⟨⟨_, h₁, hw₁⟩, fun _ => ⟨_, _, h₂, hw₂⟩⟩

theorem sorted_keys_two : ∃ s', KeySlice.quickSort ⟨[2, 1], []⟩ 0 1 = .ok s' ∧
    KeySlice.Within 0 1 [] s'.accessed :=
  ((sorted_keys Unit []).right ⟨[2, 1], []⟩ 0 1 (by decide) (by decide)).left

end BtcSortCache
end Sync
