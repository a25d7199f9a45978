import DomiconExec.Rlp.Output
import DomiconExec.Rlp.Theorems.RoundTrip
import Mathlib.Data.Nat.Nth

namespace Rlp

open List Bytes

namespace Op

mutual

-- The encoding in which each list is its header followed by its content.
def bytes : Op → Bytes
  | write b        => b
  | writeBool b    => Item.encodeStr (bigEndian b.toNat)
  | writeUint64 i  => Item.encodeStr (bigEndian i.toNat)
  | writeBytes b   => Item.encodeStr b
  | writeBigInt i  => Item.encodeStr (bigEndian i)
  | writeUint256 z => Item.encodeStr (bigEndian z.toNat)
  | list content   => header 0xC0 0xF7 (bytesAll content).length ++ bytesAll content

def bytesAll : List Op → Bytes
  | []        => []
  | op :: ops => bytes op ++ bytesAll ops

end

theorem raw_eq {op : Op} {b : Bytes} (h : ∀ w, op.run w = w.put (.raw b .nil)) (hb : b = op.bytes) :
    ∃ o : Layout, o.bytes = op.bytes ∧ ∀ w, op.run w = w.put o :=
  ⟨.raw b .nil, by simp [Layout.bytes, hb], h⟩

mutual

theorem run_eq (op : Op) (h : op.bytes.length < 2 ^ 64) :
    ∃ o : Layout, o.bytes = op.bytes ∧ ∀ w, op.run w = w.put o := by
  cases op
  case write b        => exact raw_eq (EncBuffer.append_eq_put · b) rfl
  case writeBool b    => exact raw_eq (fun _ => EncBuffer.writeBool_eq b) rfl
  case writeUint64 i  => exact raw_eq (fun _ => EncBuffer.writeUint64_eq i) rfl
  case writeUint256 z => exact raw_eq (fun _ => EncBuffer.writeUint256_eq z) rfl
  case writeBytes b =>
    have hl := @Item.length_le_encodeStr b
    exact raw_eq (fun _ => EncBuffer.writeBytes_eq (Nat.lt_of_le_of_lt hl h)) rfl
  case writeBigInt i =>
    have hl := @Item.length_le_encodeStr (bigEndian i)
    exact raw_eq (fun _ => EncBuffer.writeBigInt_eq i (Nat.lt_of_le_of_lt hl h)) rfl
  case list content =>
    rw [bytes, length_append] at h
    have hc : (bytesAll content).length < 2 ^ 64 := Nat.lt_of_le_of_lt (Nat.le_add_left _ _) h
    obtain ⟨o, hb, hw⟩ := runAll_eq content hc
    refine ⟨.list o .nil, by simp [Layout.bytes, bytes, hb], fun w => ?_⟩
    rw [run, hw, EncBuffer.listEnd_put (hb ▸ hc)]

theorem runAll_eq (ops : List Op) (h : (bytesAll ops).length < 2 ^ 64) :
    ∃ o : Layout, o.bytes = bytesAll ops ∧ ∀ w, runAll ops w = w.put o := by
  cases ops
  case nil => exact ⟨.nil, rfl, fun w => (EncBuffer.put_nil w).symm⟩
  case cons op ops =>
    rw [bytesAll, length_append] at h
    obtain ⟨o₁, hb₁, hw₁⟩ := run_eq op (by omega)
    obtain ⟨o₂, hb₂, hw₂⟩ := runAll_eq ops (by omega)
    refine ⟨o₁.append o₂, by rw [Layout.bytes_append, hb₁, hb₂, bytesAll], fun w => ?_⟩
    rw [runAll, hw₁, hw₂, EncBuffer.put_put]

end

end Op

-- The headers are in the order of their offsets, and none is before a position.
def Ordered (p : Nat) (hs : List ListHead) : Prop :=
  (p :: hs.map ListHead.offset).Pairwise (· ≤ ·)

namespace Ordered

variable {h : ListHead} {hs : List ListHead} {p : Nat}

theorem head (ho : Ordered p (h :: hs)) : p ≤ h.offset :=
  rel_of_pairwise_cons ho List.mem_cons_self

theorem tail (ho : Ordered p (h :: hs)) : Ordered h.offset hs :=
  (pairwise_cons.mp ho).right

theorem reach (ho : Ordered p (h :: hs)) : Ordered h.offset (h :: hs) := by
  refine pairwise_cons.mpr ⟨fun q hq => ?_, ho.tail⟩
  obtain rfl | hq := mem_cons.mp hq
  case inl => exact Nat.le_refl _
  case inr => exact rel_of_pairwise_cons ho.tail hq

end Ordered

namespace Layout

theorem offset_le {o : Layout} {p : Nat} (h : ListHead) (hm : h ∈ o.lheads p) :
    h.offset ≤ p + o.str.length := by
  induction o generalizing p <;> simp_all [lheads, Layout.str]
  case raw b rest hi =>
    have := hi hm
    omega
  case list content rest hc hr =>
    obtain rfl | hm | hm := hm
    case inl     => exact Nat.le_add_right _ _
    case inr.inl =>
      have := hc hm
      omega
    case inr.inr =>
      have := hr hm
      omega

theorem lheads_ordered (o : Layout) (p : Nat) : Ordered p (o.lheads p) := by
  refine pairwise_cons.mpr ⟨by simpa using le_offset, ?_⟩
  induction o generalizing p
  case nil             => exact .nil
  case raw b rest hi   => exact hi _
  case list content rest hc hr =>
    rw [lheads, cons_append, map_cons, map_append, pairwise_cons]
    refine ⟨?first, pairwise_append.mpr ⟨hc p, hr _, ?order⟩⟩
    case first =>
      intro q hq
      simp only [mem_append, mem_map] at hq
      obtain ⟨h, hm, rfl⟩ | ⟨h, hm, rfl⟩ := hq
      case inl => exact le_offset h hm
      case inr => exact Nat.le_of_add_right_le (le_offset h hm)
    case order =>
      intro q hq q' hq'
      obtain ⟨h, hm, rfl⟩ := mem_map.mp hq
      obtain ⟨h', hm', rfl⟩ := mem_map.mp hq'
      exact Nat.le_trans (offset_le h hm) (le_offset h' hm')

end Layout

namespace EncBuffer

variable {str : Bytes} {hs : List ListHead} {p : Nat}

theorem copyTo_reached {h : ListHead} (ho : ¬p < h.offset) (hp : p ≤ h.offset) :
    copyTo str (h :: hs) p = h.encode ++ copyTo str hs p := by
  obtain rfl := Nat.le_antisymm hp (Nat.not_lt.mp ho)
  simp [copyTo]

theorem writeTo_go (ho : Ordered p hs) : (writeTo.go str hs p).flatten = copyTo str hs p := by
  induction hs generalizing p
  case nil =>
    rw [writeTo.go, copyTo]
    split
    case isTrue     => simp
    case isFalse hp => simpa using hp
  case cons h hs hi =>
    rw [writeTo.go]
    split
    case isTrue  => simp [hi ho.tail, copyTo]
    case isFalse hp =>
      have he : h.offset = p := Nat.le_antisymm (Nat.not_lt.mp hp) ho.head
      rw [copyTo_reached hp ho.head, flatten_cons, hi (he ▸ ho.tail)]

end EncBuffer

namespace EncReader

variable {r r' : EncReader} {buf : EncBuffer}

def pending (r : EncReader) : Bytes :=
  match r.buf with
  | none     => []
  | some buf => r.piece.getD [] ++ EncBuffer.copyTo buf.str (buf.lheads.drop r.lhpos) r.strpos

structure Valid (r : EncReader) : Prop where
  ordered : ∀ buf ∈ r.buf, Ordered r.strpos (buf.lheads.drop r.lhpos)
  inside : ∀ buf ∈ r.buf, ∀ h ∈ buf.lheads, h.offset ≤ buf.str.length

-- What is left when a piece of the output is taken.
structure Takes (r : EncReader) (piece : Bytes) (r' : EncReader) : Prop where
  pending : r.pending = piece ++ { r' with piece := none }.pending
  valid : r'.Valid
  pieces : { r' with piece := none }.pieces < r.pieces
  buf : r'.buf ≠ none

-- A piece is the rest of the last one, string data before a header, a header, or the string data at
-- the end.
theorem next_cases (hv : r.Valid) :
    r.next = (none, r) ∧ r.pending = [] ∨ ∃ piece r', r.next = (some piece, r') ∧ r.Takes piece r' := by
  obtain ⟨buf, lhpos, strpos, piece⟩ := r
  cases buf
  case none => exact .inl ⟨rfl, rfl⟩
  case some buf =>
    have ho := hv.ordered buf rfl
    have hn := hv.inside buf rfl
    cases piece
    case some piece =>
      refine .inr ⟨piece, _, rfl, ?_, hv, ?_, Option.some_ne_none _⟩
      case refine_1 => simp [EncReader.pending]
      case refine_2 => simp [EncReader.pieces]
    case none =>
      cases hh : buf.lheads[lhpos]?
      case some head =>
        obtain ⟨hl, he⟩ := List.getElem?_eq_some_iff.mp hh
        have hd := he ▸ drop_eq_getElem_cons hl
        have hi := hn head (he ▸ getElem_mem hl)
        rw [hd] at ho
        by_cases hp : strpos < head.offset
        case pos =>
          refine .inr ⟨(buf.str.take head.offset).drop strpos, ⟨buf, lhpos, head.offset, none⟩,
            by simp only [next, hh, if_pos hp], ?_, ?_, ?_, Option.some_ne_none _⟩
          case refine_1 => simp [EncReader.pending, hd, EncBuffer.copyTo]
          case refine_2 =>
            refine ⟨fun _ hb => ?_, hv.inside⟩
            cases hb
            exact hd ▸ ho.reach
          case refine_3 =>
            simp [EncReader.pieces]
            omega
        case neg =>
          refine .inr ⟨head.encode, ⟨buf, lhpos + 1, strpos, none⟩,
            by simp only [next, hh, if_neg hp], ?_, ?_, ?_, Option.some_ne_none _⟩
          case refine_1 =>
            simp [EncReader.pending, hd, EncBuffer.copyTo_reached hp ho.head]
          case refine_2 =>
            refine ⟨fun _ hb => ?_, hv.inside⟩
            cases hb
            exact Nat.le_antisymm ho.head (Nat.not_lt.mp hp) ▸ ho.tail
          case refine_3 =>
            simp [EncReader.pieces]
            omega
      case none =>
        have hl := drop_eq_nil_of_le (List.getElem?_eq_none_iff.mp hh)
        by_cases hp : strpos < buf.str.length
        case pos =>
          refine .inr ⟨buf.str.drop strpos, ⟨buf, lhpos, buf.str.length, none⟩,
            by simp only [next, hh, if_pos hp], ?_, ?_, ?_, Option.some_ne_none _⟩
          case refine_1 => simp [EncReader.pending, hl, EncBuffer.copyTo]
          case refine_2 =>
            refine ⟨fun _ hb => ?_, hv.inside⟩
            cases hb
            simp [hl, Ordered]
          case refine_3 =>
            simp [EncReader.pieces]
            omega
        case neg =>
          refine .inl ⟨by simp only [next, hh, if_neg hp], ?_⟩
          simpa [EncReader.pending, hl, EncBuffer.copyTo] using hp

structure Reads (r : EncReader) (size : Nat) (data : Bytes) (r' : EncReader) : Prop where
  pending : r.pending = data ++ r'.pending
  valid : r'.Valid
  all : r'.pending = [] ∨ data.length = size

theorem fill_reads {fuel space : Nat} (hv : r.Valid) (hf : r.pieces < fuel) :
    ∃ data eof r', fill fuel r space = some ((data, eof), r') ∧ r.Reads space data r' := by
  induction fuel generalizing r space
  case zero => exact absurd hf (Nat.not_lt_zero _)
  case succ fuel hi =>
    obtain ⟨hn, hp⟩ | ⟨piece, r₁, hn, ht⟩ := next_cases hv
    case inl =>
      refine ⟨[], true, { r with buf := none, piece := none }, by simp only [fill, hn], hp,
        ⟨?_, ?_⟩, .inl rfl⟩
      all_goals
        intro _ hb
        cases hb
    case inr =>
      by_cases hs : min space piece.length < piece.length
      case pos =>
        refine ⟨piece.take (min space piece.length), false,
          { r₁ with piece := some (piece.drop (min space piece.length)) },
          by simp only [fill, hn, if_pos hs], ?_, ⟨ht.valid.ordered, ht.valid.inside⟩, .inr ?_⟩
        case refine_1 =>
          obtain ⟨buf, hb⟩ := Option.ne_none_iff_exists'.mp ht.buf
          rw [ht.pending]
          simp [EncReader.pending, hb, ← append_assoc]
        case refine_2 =>
          rw [length_take]
          omega
      case neg =>
        have hf' := Nat.lt_of_lt_of_le ht.pieces (Nat.lt_succ_iff.mp hf)
        obtain ⟨data, eof, r₂, hr, hd⟩ := @hi { r₁ with piece := none }
          (space - min space piece.length) ⟨ht.valid.ordered, ht.valid.inside⟩ hf'
        refine ⟨piece ++ data, eof, r₂, ?_, ?_, hd.valid, ?_⟩
        case refine_1 =>
          simp only [fill, hn, if_neg hs, hr, Option.bind_eq_bind, Option.bind_some]
          rfl
        case refine_2 => rw [ht.pending, hd.pending, append_assoc]
        case refine_3 =>
          refine hd.all.imp_right fun hl => ?_
          rw [length_append, hl]
          omega

theorem read_reads (size : Nat) (hv : r.Valid) :
    ∃ data eof r', r.read size = some ((data, eof), r') ∧ r.Reads size data r' :=
  fill_reads hv (Nat.lt_succ_self _)

-- Each read into a buffer that is not empty returns some data until all of it was returned.
theorem readAll_reads (sizes : List Nat) (hv : r.Valid) :
    ∃ data r', readAll sizes r = some (data, r') ∧ r.pending = data ++ r'.pending ∧
      (r'.pending = [] ∨ sizes.countP (· ≠ 0) ≤ data.length) := by
  induction sizes generalizing r
  case nil => exact ⟨[], r, rfl, rfl, .inr (Nat.le_refl 0)⟩
  case cons size sizes hi =>
    obtain ⟨data, eof, r₁, hr, hd⟩ := read_reads size hv
    obtain ⟨rest, r₂, hs, hp, ha⟩ := hi hd.valid
    refine ⟨data ++ rest, r₂, ?_, by rw [hd.pending, hp, append_assoc], ?_⟩
    case refine_1 =>
      simp only [readAll, hr, hs, Option.bind_eq_bind, Option.bind_some]
      rfl
    case refine_2 =>
      obtain he | hl := hd.all
      case inl => exact .inl (append_eq_nil_iff.mp (hp.symm.trans he)).right
      case inr =>
        refine ha.imp_right fun hc => ?_
        rw [countP_cons, length_append, hl]
        split
        case isTrue hz  =>
          have := of_decide_eq_true hz
          omega
        case isFalse    => omega

-- Since infinitely many buffers are not empty, at some point more of them were used than there is data.
theorem readAll_eq {sizes : Nat → Nat} (hv : r.Valid) (hs : {i | sizes i ≠ 0}.Infinite) :
    ∃ N, ∀ n ≥ N, ∃ r', readAll ((List.range n).map sizes) r = some (r.pending, r') := by
  refine ⟨Nat.nth (sizes · ≠ 0) (r.pending.length + 1), fun n hn => ?_⟩
  obtain ⟨data, r', hr, hp, ha⟩ := readAll_reads ((List.range n).map sizes) hv
  have he : r'.pending = [] := by
    refine ha.resolve_right fun hc => ?_
    have hm := Nat.count_monotone (sizes · ≠ 0) hn
    rw [Nat.count_nth_of_infinite hs, Nat.count] at hm
    rw [countP_map] at hc
    have hl := congrArg List.length hp
    rw [length_append] at hl
    exact absurd (Nat.le_trans hm hc) (by omega)
  rw [he, append_nil] at hp
  exact ⟨r', hp ▸ hr⟩

theorem new_valid (o : Layout) : (new (EncBuffer.empty.put o)).Valid where
  ordered := by
    intro buf hb
    cases hb
    exact o.lheads_ordered 0
  inside := by
    intro buf hb h hm
    cases hb
    simpa [EncBuffer.put, EncBuffer.empty] using Layout.offset_le h hm

end EncReader

-- The three ways to obtain the output give the encoding of the operations, with the announced
-- length.
theorem Op.outputs_agree (ops : List Op) (h : (bytesAll ops).length < 2 ^ 62) :
    (runAll ops .empty).makeBytes = bytesAll ops ∧
    (runAll ops .empty).writeTo.flatten = bytesAll ops ∧
    (∀ sizes : Nat → Nat, {i | sizes i ≠ 0}.Infinite → ∃ N, ∀ n ≥ N, ∃ r,
      (EncReader.new (runAll ops .empty)).readAll ((List.range n).map sizes) =
        some (bytesAll ops, r)) ∧
    (runAll ops .empty).size = (bytesAll ops).length := by
  have hl : (bytesAll ops).length < 2 ^ 64 := Nat.lt_trans h (by decide)
  obtain ⟨o, hb, hw⟩ := runAll_eq ops hl
  have ho := EncReader.new_valid o
  have hc : EncBuffer.copyTo (EncBuffer.empty.put o).str (EncBuffer.empty.put o).lheads 0 =
      bytesAll ops := (EncBuffer.copyTo_put (hb ▸ hl)).trans hb
  rw [hw]
  refine ⟨(EncBuffer.makeBytes_put (hb ▸ hl)).trans hb, ?written, ?read, ?size⟩
  case written => exact (EncBuffer.writeTo_go (ho.ordered _ rfl)).trans hc
  case read    => exact fun sizes hs => hc ▸ EncReader.readAll_eq ho hs
  case size    => rw [EncBuffer.size_put, hb]

-- A list with an empty list and a string in it, which is read one byte at a time.
theorem Op.outputs_agree_nested :
    ∃ N, ∀ n ≥ N, ∃ r,
      (EncReader.new (runAll [.list [.list [], .writeBytes [0x61, 0x62]]] .empty)).readAll
        ((List.range n).map fun _ => 1) = some ([0xC4, 0xC0, 0x82, 0x61, 0x62], r) := by
  have hi : {_i : Nat | 1 ≠ 0}.Infinite := by simpa using Set.infinite_univ
  exact (outputs_agree [.list [.list [], .writeBytes [0x61, 0x62]]] (by decide)).right.right.left _ hi

end Rlp
