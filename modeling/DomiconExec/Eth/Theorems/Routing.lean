import DomiconExec.Eth.Protocol
import Mathlib.Data.List.Sort
import Mathlib.Data.Prod.Lex
import Mathlib.Data.UInt

open List

namespace P2p

variable {protocols : List Protocol} {caps : List Cap} {l l' : List Protocol} {o : UInt64}
variable {name : String} {p q : Protocol}

def total (l : List Protocol) : UInt64 :=
  (l.map (·.length)).sum

def placed (o : UInt64) : List Protocol → List ProtoRW
  | []     => []
  | p :: l => ⟨p, o⟩ :: placed (o + p.length) l

theorem placed_append : placed o (l ++ l') = placed o l ++ placed (o + total l) l' := by
  induction l generalizing o
  case nil => simp [placed, total]
  case cons p l hi => simp [placed, total, hi, UInt64.add_assoc]

def lead (l : List Protocol) (name : String) : UInt64 :=
  total (l.takeWhile (·.name ≠ name))

theorem mem_placed {rw : ProtoRW} (h : rw ∈ placed o l) : rw.toProtocol ∈ l := by
  induction l generalizing o
  case nil => contradiction
  case cons p l hi =>
    cases mem_cons.mp h
    case inl he => exact he ▸ List.mem_cons_self
    case inr hm => exact mem_cons_of_mem p (hi hm)

theorem find?_placed {rw : ProtoRW} (h : (placed o l).find? (·.name = name) = some rw) :
    rw.offset = o + lead l name := by
  induction l generalizing o
  case nil => contradiction
  case cons p l hi =>
    simp only [placed, List.find?_cons] at h
    by_cases hn : p.name = name
    case pos =>
      simp only [hn, decide_true] at h
      cases h
      simp [lead, total, hn]
    case neg =>
      simp only [hn, decide_false] at h
      rw [hi h]
      simp [lead, total, hn, UInt64.add_assoc]

theorem find?_placed_eq_none (h : ∀ p ∈ l, p.name ≠ name) :
    (placed o l).find? (·.name = name) = none := by
  refine List.find?_eq_none.mpr fun rw hm => ?_
  simpa using h _ (mem_placed hm)

-- A newer version of the last protocol takes its place.
def join (l : List Protocol) (p : Protocol) : List Protocol :=
  if l.getLast?.map Protocol.name = some p.name then l.dropLast ++ [p] else l ++ [p]

theorem join_of_eq (h : q.name = p.name) : join (l ++ [q]) p = l ++ [p] := by
  simp [join, h]

-- The protocols that both sides have, by their names and with the newest common version.
def negotiated (protocols : List Protocol) (caps : List Cap) : List Protocol :=
  ((Cap.sort caps).filterMap fun cap => protocols.find? (·.cap = cap)).foldl join []

-- The variables of the loop over the capabilities are determined by the negotiated protocols.
structure Represents (l : List Protocol) (s : UInt64 × GoMap String ProtoRW) : Prop where
  sorted : l.Pairwise (·.name < ·.name)
  offset : s.fst = baseProtocolLength + total l
  get : ∀ name, s.snd.get name = (placed baseProtocolLength l).find? (·.name = name)

theorem Represents.empty : Represents [] (baseProtocolLength, ∅) where
  sorted := .nil
  offset := rfl
  get := by simp [placed]

theorem join_cases (hs : l.Pairwise (·.name < ·.name)) (hl : ∀ q ∈ l, q.name ≤ p.name) :
    (∃ l' q, l = l' ++ [q] ∧ q.name = p.name ∧ join l p = l' ++ [p] ∧ ∀ q ∈ l', q.name < p.name) ∨
    join l p = l ++ [p] ∧ ∀ q ∈ l, q.name < p.name := by
  cases l using List.reverseRecOn
  case nil => exact .inr ⟨rfl, by simp⟩
  case append_singleton l q _ =>
    obtain ⟨_, _, hq⟩ := pairwise_append.mp hs
    have hq (r : Protocol) (hr : r ∈ l) : r.name < q.name := hq r hr q (mem_singleton_self q)
    have hle := hl q (by simp)
    by_cases he : q.name = p.name
    case pos =>
      exact .inl ⟨l, q, rfl, he, join_of_eq he, fun r hr => he ▸ hq r hr⟩
    case neg =>
      refine .inr ⟨by simp [join, he], fun r hr => ?_⟩
      obtain hr | hr := mem_append.mp hr
      case inl => exact (hq r hr).trans_le hle
      case inr => exact mem_singleton.mp hr ▸ hle.lt_of_ne he

theorem placed_concat : placed o (l ++ [p]) = placed o l ++ [⟨p, o + total l⟩] := by
  rw [placed_append]
  rfl

theorem find?_concat (hl : ∀ q ∈ l, q.name < p.name) :
    (placed o (l ++ [p])).find? (·.name = name) =
      if name = p.name then some ⟨p, o + total l⟩
      else (placed o l).find? (·.name = name) := by
  rw [placed_concat, List.find?_append]
  split
  case isTrue h =>
    subst h
    rw [find?_placed_eq_none fun q hq => (hl q hq).ne]
    simp
  case isFalse h => simp [Ne.symm h]

theorem mem_join (h : q ∈ join l p) : q ∈ l ∨ q = p := by
  unfold join at h
  split at h
  case isTrue =>
    obtain h | h := mem_append.mp h
    case inl => exact .inl (mem_of_mem_dropLast h)
    case inr => exact .inr (mem_singleton.mp h)
  case isFalse => simpa using h

theorem mem_foldl_join (h : p ∈ l'.foldl join l) : p ∈ l ∨ p ∈ l' := by
  induction l' generalizing l
  case nil => exact .inl h
  case cons q l' hi =>
    cases hi h
    case inl h =>
      cases mem_join h
      case inl h => exact .inl h
      case inr h => exact .inr (h ▸ mem_cons_self)
    case inr h => exact .inr (mem_cons_of_mem q h)

theorem mem_negotiated (h : p ∈ negotiated protocols caps) : p ∈ protocols := by
  cases mem_foldl_join h
  case inl h => contradiction
  case inr h =>
    obtain ⟨_, -, hf⟩ := mem_filterMap.mp h
    exact List.mem_of_find?_eq_some hf

theorem name_of_find? {cap : Cap} (h : protocols.find? (·.cap = cap) = some p) :
    p.name = cap.name := by
  have := List.find?_some h
  exact congrArg Cap.name (of_decide_eq_true this)

theorem Represents.assign {s : UInt64 × GoMap String ProtoRW} {cap : Cap} (r : Represents l s)
    (hp : protocols.find? (·.cap = cap) = some p) (hl : ∀ q ∈ l, q.name ≤ cap.name) :
    Represents (join l p) (assign protocols s cap) := by
  have hc := name_of_find? hp
  rw [← hc] at hl
  simp only [P2p.assign, hp, ← hc]
  obtain ⟨l', q, rfl, hq, hj, hlt⟩ | ⟨hj, hlt⟩ := join_cases r.sorted hl
  case inl =>
    have hg : s.snd.get p.name = some ⟨q, baseProtocolLength + total l'⟩ := by
      rw [r.get, find?_concat fun t ht => hq ▸ hlt t ht, if_pos hq.symm]
    have ho : s.fst - q.length = baseProtocolLength + total l' := by
      simp [r.offset, total, ← UInt64.add_assoc]
    rw [hj, hg]
    dsimp only
    rw [ho]
    refine ⟨?_, ?_, fun name => ?_⟩
    case refine_1 =>
      refine pairwise_append.mpr ⟨(pairwise_append.mp r.sorted).left, by simp, ?_⟩
      exact fun a ha b hb => mem_singleton.mp hb ▸ hlt a ha
    case refine_2 => simp [total, UInt64.add_assoc]
    case refine_3 =>
      rw [find?_concat hlt, GoMap.get_set, r.get, find?_concat fun t ht => hq ▸ hlt t ht, hq]
      split <;> rfl
  case inr =>
    have hg : s.snd.get p.name = none := by
      rw [r.get, find?_placed_eq_none fun q hq => (hlt q hq).ne]
    rw [hj, hg]
    refine ⟨?_, ?_, fun name => ?_⟩
    case refine_1 =>
      refine pairwise_append.mpr ⟨r.sorted, by simp, ?_⟩
      exact fun a ha b hb => mem_singleton.mp hb ▸ hlt a ha
    case refine_2 => simp [total, r.offset, UInt64.add_assoc]
    case refine_3 => rw [find?_concat hlt, GoMap.get_set, r.get, r.offset]

theorem Represents.skip {s : UInt64 × GoMap String ProtoRW} {cap : Cap} (r : Represents l s)
    (hp : protocols.find? (·.cap = cap) = none) : Represents l (P2p.assign protocols s cap) := by
  simpa only [P2p.assign, hp] using r

-- The induction is on the remaining capabilities, whose names do not precede those in `l`.
theorem Represents.foldl {s : UInt64 × GoMap String ProtoRW} (r : Represents l s)
    (hs : caps.Pairwise (·.name ≤ ·.name)) (hl : ∀ cap ∈ caps, ∀ q ∈ l, q.name ≤ cap.name) :
    Represents ((caps.filterMap fun cap => protocols.find? (·.cap = cap)).foldl join l)
      (caps.foldl (P2p.assign protocols) s) := by
  induction caps generalizing l s
  case nil => exact r
  case cons cap caps hi =>
    obtain ⟨hc, hs⟩ := pairwise_cons.mp hs
    obtain ⟨hh, ht⟩ := forall_mem_cons.mp hl
    rw [foldl_cons, filterMap_cons]
    cases hp : protocols.find? (·.cap = cap)
    case none => exact hi (r.skip hp) hs ht
    case some p =>
      refine hi (r.assign hp hh) hs fun c hm q hq => ?_
      obtain hq | rfl := mem_join hq
      case inl => exact ht c hm q hq
      case inr => exact name_of_find? hp ▸ hc c hm

theorem Cap.cmp_le_iff {a b : Cap} :
    a.cmp b ≠ .gt ↔ toLex (a.name, a.version) ≤ toLex (b.name, b.version) := by
  rw [Prod.Lex.le_iff]
  unfold cmp
  split
  case isTrue h  => simp [h, compare_gt_iff_gt]
  case isFalse h =>
    simp only [ne_eq, compare_gt_iff_gt, not_lt, ofLex_toLex, h, false_and, or_false]
    exact ⟨fun hle => hle.lt_of_ne h, le_of_lt⟩

theorem Cap.sort_pairwise : (Cap.sort caps).Pairwise fun a b => a.cmp b ≠ .gt := by
  have h : (Cap.sort caps).Pairwise fun a b => decide (a.cmp b ≠ .gt) = true := by
    apply List.pairwise_mergeSort
    case trans =>
      intro a b c hab hbc
      simp only [decide_eq_true_eq, cmp_le_iff] at *
      exact hab.trans hbc
    case total =>
      intro a b
      simp only [Bool.or_eq_true, decide_eq_true_eq, cmp_le_iff]
      exact le_total _ _
  exact h.imp of_decide_eq_true

theorem Cap.sort_names : (Cap.sort caps).Pairwise (·.name ≤ ·.name) := by
  refine Cap.sort_pairwise.imp fun {a b} h => ?_
  rw [cmp_le_iff, Prod.Lex.le_iff] at h
  obtain h | ⟨h, -⟩ := h
  case inl => exact le_of_lt h
  case inr => exact le_of_eq h

theorem matchProtocols_represents :
    Represents (negotiated protocols caps)
      ((Cap.sort caps).foldl (assign protocols) (baseProtocolLength, ∅)) :=
  Represents.empty.foldl Cap.sort_names (by simp)

theorem matchProtocols_get :
    (matchProtocols protocols caps).get name =
      (placed baseProtocolLength (negotiated protocols caps)).find? (·.name = name) :=
  matchProtocols_represents.get name

section Agreement

variable {a b : List Protocol} {length : Cap → UInt64}

-- Each protocol has the length that both sides know for its version, and none is listed twice.
structure Agreed (length : Cap → UInt64) (protocols : List Protocol) : Prop where
  length : ∀ p ∈ protocols, p.length = length p.cap
  nodup : (protocols.map Protocol.cap).Nodup

def Cap.protocol (length : Cap → UInt64) (cap : Cap) : Protocol :=
  ⟨cap.name, cap.version, length cap⟩

theorem Agreed.find? (h : Agreed length protocols) (cap : Cap) :
    protocols.find? (·.cap = cap) =
      if cap ∈ protocols.map Protocol.cap then some (cap.protocol length) else none := by
  cases hf : protocols.find? (·.cap = cap)
  case none =>
    rw [if_neg]
    intro hm
    obtain ⟨p, hp, hc⟩ := mem_map.mp hm
    exact List.find?_eq_none.mp hf p hp (decide_eq_true hc)
  case some p =>
    have hp := List.mem_of_find?_eq_some hf
    obtain rfl : p.cap = cap := by simpa using List.find?_some hf
    rw [if_pos (mem_map_of_mem hp), Cap.protocol, ← h.length p hp]
    rfl

theorem Agreed.filterMap (h : Agreed length protocols) :
    (caps.filterMap fun cap => protocols.find? (·.cap = cap)) =
      (caps.filter (· ∈ protocols.map Protocol.cap)).map (Cap.protocol length) := by
  induction caps
  case nil => rfl
  case cons cap caps hi =>
    rw [filterMap_cons, h.find?, filter_cons]
    by_cases hc : cap ∈ protocols.map Protocol.cap
    case pos => simp only [hc, decide_true, if_true, map_cons, hi]
    case neg => simp only [hc, decide_false, if_false, hi, Bool.false_eq_true]

theorem Cap.eq_of_cmp {c d : Cap} (h : c.cmp d ≠ .gt) (h' : d.cmp c ≠ .gt) : c = d := by
  rw [cmp_le_iff] at h h'
  cases c; cases d
  have := toLex.injective (le_antisymm h h')
  simpa using this

theorem negotiated_comm (ha : Agreed length a) (hb : Agreed length b) :
    negotiated a (b.map Protocol.cap) = negotiated b (a.map Protocol.cap) := by
  unfold negotiated
  rw [ha.filterMap, hb.filterMap]
  congr 2
  have hn (l l' : List Cap) (h : l.Nodup) : ((Cap.sort l).filter (· ∈ l')).Nodup :=
    ((mergeSort_perm l _).nodup_iff.mpr h).filter _
  have hs (l l' : List Cap) := (@Cap.sort_pairwise l).filter (· ∈ l')
  refine List.Perm.eq_of_pairwise (fun c d _ _ => Cap.eq_of_cmp) (hs ..) (hs ..) ?_
  refine (perm_ext_iff_of_nodup (hn _ _ hb.nodup) (hn _ _ ha.nodup)).mpr fun cap => ?_
  simp only [mem_filter, Cap.sort, mem_mergeSort, decide_eq_true_eq]
  exact and_comm

end Agreement

section Disjoint

variable {rw rw' : ProtoRW} {w : UInt64}

def extent (l : List Protocol) : Nat :=
  (l.map (·.length.toNat)).sum

-- From the code `o` on, the protocols stay within the codes.
def Fits (o : UInt64) (l : List Protocol) : Prop :=
  o.toNat + extent l < UInt64.size

instance : Decidable (Fits o l) :=
  inferInstanceAs <| Decidable (_ < _)

theorem Fits.head (h : Fits o (p :: l)) : (o + p.length).toNat = o.toNat + p.length.toNat := by
  rw [UInt64.toNat_add]
  refine Nat.mod_eq_of_lt (lt_of_le_of_lt ?_ h)
  rw [extent, map_cons, sum_cons]
  omega

theorem Fits.tail (h : Fits o (p :: l)) : Fits (o + p.length) l := by
  have hh := h.head
  simp only [Fits, extent, map_cons, sum_cons] at h ⊢
  omega

theorem Fits.bounds (h : Fits o l) (hm : rw ∈ placed o l) :
    o.toNat ≤ rw.offset.toNat ∧ rw.offset.toNat + rw.length.toNat < UInt64.size := by
  induction l generalizing o
  case nil => contradiction
  case cons p l hi =>
    cases mem_cons.mp hm
    case inl he =>
      subst he
      simp only [Fits, extent, map_cons, sum_cons] at h
      exact ⟨le_rfl, lt_of_le_of_lt (by simp) h⟩
    case inr hm =>
      have hb := hi h.tail hm
      have hh := h.head
      exact ⟨by omega, hb.right⟩

theorem covers_iff (h : rw.offset.toNat + rw.length.toNat < UInt64.size) :
    rw.covers w ↔
      rw.offset.toNat ≤ w.toNat ∧ w.toNat < rw.offset.toNat + rw.length.toNat := by
  have ha : (rw.offset + rw.length).toNat = rw.offset.toNat + rw.length.toNat := by
    rw [UInt64.toNat_add]
    exact Nat.mod_eq_of_lt h
  simp [ProtoRW.covers, UInt64.le_iff_toNat_le, UInt64.lt_iff_toNat_lt, ha]

-- The codes of the first protocol lie below those of the others.
theorem Fits.unique (h : Fits o l) (hm : rw ∈ placed o l) (hm' : rw' ∈ placed o l)
    (hc : rw.covers w) (hc' : rw'.covers w) : rw = rw' := by
  have hw := (covers_iff (h.bounds hm).right).mp hc
  have hw' := (covers_iff (h.bounds hm').right).mp hc'
  induction l generalizing o
  case nil => contradiction
  case cons p l hi =>
    have hh := h.head
    obtain rfl | hm := mem_cons.mp hm <;> obtain rfl | hm' := mem_cons.mp hm'
    case inl.inl => rfl
    case inl.inr =>
      have hb := h.tail.bounds hm'
      exact absurd hw.right (by simp; omega)
    case inr.inl =>
      have hb := h.tail.bounds hm
      exact absurd hw'.right (by simp; omega)
    case inr.inr => exact hi h.tail hm hm'

end Disjoint

section Delivery

variable {running : GoMap String ProtoRW} {rw : ProtoRW} {code : UInt64}

theorem mem_of_getProto {order : IterOrder String} (h : getProto order running code = some rw) :
    rw.covers code ∧ ∃ name, running.get name = some rw := by
  obtain ⟨name, -, hn⟩ := mem_filterMap.mp <| List.mem_of_find?_eq_some h
  have hc := List.find?_some h
  exact ⟨hc, name, hn⟩

-- Whichever protocol is visited first, the same one is found.
theorem getProto_iff (h : running.get name = some rw) :
    (∀ order, getProto order running code = some rw) ↔
      rw.covers code ∧ ∀ name rw', running.get name = some rw' → rw'.covers code → rw' = rw where
  mp hg := by
    refine ⟨(mem_of_getProto <| hg (.leading name)).left, fun name' rw' h' hc => ?_⟩
    obtain ⟨l, hl⟩ := IterOrder.leading_list (GoMap.mem_keys.mpr <| GoMap.mem_of_get h')
    have hf : getProto (.leading name') running code = some rw' := by
      simp [getProto, hl, h', hc]
    exact Option.some.inj <| hf.symm.trans (hg _)
  mpr hc order := by
    cases hg : getProto order running code
    case none =>
      have hn := List.find?_eq_none.mp hg rw
      refine absurd hc.left (hn <| mem_filterMap.mpr ⟨name, ?_, h⟩)
      exact (order.mem _ _).mpr (GoMap.mem_of_get h)
    case some rw' =>
      obtain ⟨hc', name', h'⟩ := mem_of_getProto hg
      rw [hc.right name' rw' h' hc']

theorem handle_iff {order : IterOrder String} :
    handle order running code = .proto rw ↔
      baseProtocolLength ≤ code ∧ getProto order running code = some rw := by
  have hp : code = pingMsg → ¬baseProtocolLength ≤ code := by rintro rfl; decide
  have hd : code = discMsg → ¬baseProtocolLength ≤ code := by rintro rfl; decide
  unfold handle
  split_ifs with h h' h''
  case pos => simp [hp h]
  case pos => simp [hd h']
  case pos => simp [h'']
  case neg => cases getProto order running code <;> simp [UInt64.not_lt.mp h'']

theorem offset_of_get (h : (matchProtocols protocols caps).get name = some rw) :
    rw.offset = baseProtocolLength + lead (negotiated protocols caps) name :=
  find?_placed (matchProtocols_get.symm.trans h)

theorem placed_names (h : l.Pairwise (·.name < ·.name)) :
    (placed o l).Pairwise (·.name < ·.name) := by
  induction l generalizing o
  case nil => exact .nil
  case cons p l hi =>
    obtain ⟨hp, hl⟩ := pairwise_cons.mp h
    exact pairwise_cons.mpr ⟨fun rw hm => hp _ (mem_placed hm), hi hl⟩

theorem get_iff_mem_placed :
    (matchProtocols protocols caps).get name = some rw ↔
      rw ∈ placed baseProtocolLength (negotiated protocols caps) ∧ rw.name = name := by
  rw [matchProtocols_get]
  refine ⟨fun h => ⟨List.mem_of_find?_eq_some h, by simpa using List.find?_some h⟩, ?_⟩
  rintro ⟨hm, rfl⟩
  have hs := placed_names (o := baseProtocolLength)
    (@matchProtocols_represents protocols caps).sorted
  generalize placed baseProtocolLength (negotiated protocols caps) = l at hm hs
  induction l
  case nil => contradiction
  case cons q l hi =>
    obtain ⟨hq, hs⟩ := pairwise_cons.mp hs
    obtain rfl | hm := mem_cons.mp hm
    case inl => simp
    case inr => simp [(hq rw hm).ne, hi hm hs]

end Delivery
end P2p

namespace Eth
open P2p

variable {a b : List Protocol} {ca cb : List Cap} {rw rw' : ProtoRW} {code : UInt64}
variable {m : MsgHandler}

-- The protocols of this name have the lengths that are declared for their versions.
def Declared (protocols : List Protocol) : Prop :=
  ∀ p ∈ protocols, p.name = protocolName → protocolLengths p.version = some p.length

-- The message is passed to the given handler in whichever order the running protocols are visited.
def Delivered (running running' : GoMap String ProtoRW) (code : UInt64) (m : MsgHandler) : Prop :=
  ∃ rw wire, running.get protocolName = some rw ∧ rw.writeMsg code = .ok wire ∧
    ∀ order, ∃ rw', running'.get protocolName = some rw' ∧ handle order running' wire = .proto rw' ∧
      rw'.readMsg wire = code ∧ handler rw'.version (rw'.readMsg wire) = some m

-- Behind the codes in front of the protocol, the code belongs to no other protocol.
def Clear (l : List Protocol) (code : UInt64) : Prop :=
  baseProtocolLength ≤ baseProtocolLength + lead l protocolName + code ∧
  ∀ rw ∈ placed baseProtocolLength l,
    rw.covers (baseProtocolLength + lead l protocolName + code) ↔ rw.name = protocolName

-- Without an overflow, each protocol has its codes for itself.
theorem clear_of_fits (hf : Fits baseProtocolLength (negotiated b ca))
    (hr : (matchProtocols b ca).get protocolName = some rw) (hc : code < rw.length) :
    Clear (negotiated b ca) code := by
  obtain ⟨hm, hn⟩ := get_iff_mem_placed.mp hr
  have hb := hf.bounds hm
  have hw : (rw.offset + code).toNat = rw.offset.toNat + code.toNat := by
    rw [UInt64.toNat_add]
    have := UInt64.lt_iff_toNat_lt.mp hc
    exact Nat.mod_eq_of_lt (lt_trans (by omega) hb.right)
  have hcov : rw.covers (rw.offset + code) := by
    rw [covers_iff hb.right, hw]
    have := UInt64.lt_iff_toNat_lt.mp hc
    omega
  unfold Clear
  rw [← offset_of_get hr]
  refine ⟨UInt64.le_iff_toNat_le.mpr (by omega), fun rw' hm' => ⟨fun hc' => ?_, fun hn' => ?_⟩⟩
  case refine_1 => exact hf.unique hm' hm hc' hcov ▸ hn
  case refine_2 =>
    have hr' := get_iff_mem_placed.mpr ⟨hm', hn'⟩
    exact Option.some.inj (hr'.symm.trans hr) ▸ hcov

theorem length_of_get (hd : Declared a) (h : (matchProtocols a cb).get protocolName = some rw) :
    rw.length = 17 := by
  obtain ⟨hm, hn⟩ := get_iff_mem_placed.mp h
  have hl := hd _ (mem_negotiated <| mem_placed hm) hn
  unfold protocolLengths at hl
  split at hl
  all_goals simp_all

theorem mem_of_handler {version : Nat} (hm : handler version code = some m) :
    (code, m) ∈ eth67 ∨ (code, m) ∈ eth68 := by
  obtain ⟨_, _, he, -⟩ := lookup_eq_some_iff.mp hm
  have hm := he ▸ mem_append_right _ List.mem_cons_self
  split at hm
  case isTrue  => exact .inr hm
  case isFalse => exact .inl hm

theorem lt_length_iff {version : Nat} (hm : handler version code = some m) :
    code < 17 ↔ code ≠ resFileDatasMsg ∧ code ≠ reqFileDatasMsg := by
  have h67 : ∀ e ∈ eth67, e.fst < 17 ↔ e.fst ≠ resFileDatasMsg ∧ e.fst ≠ reqFileDatasMsg := by
    decide
  have h68 : ∀ e ∈ eth68, e.fst < 17 ↔ e.fst ≠ resFileDatasMsg ∧ e.fst ≠ reqFileDatasMsg := by
    decide
  cases mem_of_handler hm
  case inl h => exact h67 _ h
  case inr h => exact h68 _ h

theorem writeMsg_iff {wire : UInt64} (hl : rw.length = 17)
    (hm : handler rw.version code = some m) :
    rw.writeMsg code = .ok wire ↔
      (code ≠ resFileDatasMsg ∧ code ≠ reqFileDatasMsg) ∧ wire = code + rw.offset := by
  rw [← lt_length_iff hm]
  unfold ProtoRW.writeMsg
  split
  case isTrue h  => simp [UInt64.not_lt.mpr (hl ▸ h)]
  case isFalse h => simp [hl ▸ UInt64.not_le.mp h, eq_comm]

theorem clear_iff (hr : (matchProtocols b ca).get protocolName = some rw) :
    Clear (negotiated b ca) code ↔
      ∀ order, handle order (matchProtocols b ca) (code + rw.offset) = .proto rw := by
  have hc : code + rw.offset =
      baseProtocolLength + lead (negotiated b ca) protocolName + code := by
    rw [offset_of_get hr, UInt64.add_comm]
  obtain ⟨hm, hn⟩ := get_iff_mem_placed.mp hr
  have ho : Nonempty (IterOrder String) := ⟨.leading protocolName⟩
  simp only [handle_iff, hc, forall_and, forall_const, getProto_iff hr]
  refine and_congr_right fun _ => ⟨fun h => ⟨(h rw hm).mpr hn, fun name rw' hg hw => ?_⟩, ?_⟩
  case refine_1 =>
    obtain ⟨hm', -⟩ := get_iff_mem_placed.mp hg
    have hg' := get_iff_mem_placed.mpr ⟨hm', (h rw' hm').mp hw⟩
    exact Option.some.inj (hg'.symm.trans hr)
  case refine_2 =>
    rintro ⟨hw, hu⟩ rw' hm'
    refine ⟨fun hw' => ?_, fun hn' => ?_⟩
    case refine_1 => exact hu rw'.name rw' (get_iff_mem_placed.mpr ⟨hm', rfl⟩) hw' ▸ hn
    case refine_2 =>
      have hg' := get_iff_mem_placed.mpr ⟨hm', hn'⟩
      exact Option.some.inj (hg'.symm.trans hr) ▸ hw

theorem readMsg_iff : rw'.readMsg (code + rw.offset) = code ↔ rw.offset = rw'.offset := by
  rw [← @UInt64.add_right_inj rw.offset rw'.offset code]
  constructor
  case mp  => intro h; rw [← UInt64.sub_add_cancel (code + _) rw'.offset, ← ProtoRW.readMsg, h]
  case mpr => intro h; rw [h, ProtoRW.readMsg, UInt64.add_sub_cancel]

theorem delivered_iff_handle (ha : Declared a)
    (hr : (matchProtocols a cb).get protocolName = some rw)
    (hr' : (matchProtocols b ca).get protocolName = some rw') (hv : rw.version = rw'.version)
    (hm : handler rw.version code = some m) :
    Delivered (matchProtocols a cb) (matchProtocols b ca) code m ↔
      (code ≠ resFileDatasMsg ∧ code ≠ reqFileDatasMsg) ∧ rw.offset = rw'.offset ∧
      ∀ order, handle order (matchProtocols b ca) (code + rw'.offset) = .proto rw' := by
  have hw (wire : UInt64) := @writeMsg_iff rw code m wire (length_of_get ha hr) hm
  constructor
  case mp =>
    rintro ⟨rw₁, wire, hg, hok, hd⟩
    cases hg.symm.trans hr
    obtain ⟨hc, rfl⟩ := (hw wire).mp hok
    obtain ⟨rw₂, hg', -, hread, -⟩ := hd (.leading protocolName)
    cases hg'.symm.trans hr'
    have he := readMsg_iff.mp hread
    refine ⟨hc, he, fun order => ?_⟩
    obtain ⟨rw₂, hg', hh, -, -⟩ := hd order
    cases hg'.symm.trans hr'
    exact he ▸ hh
  case mpr =>
    rintro ⟨hc, he, hh⟩
    refine ⟨rw, _, hr, (hw _).mpr ⟨hc, rfl⟩, fun order => ?_⟩
    have hread : rw'.readMsg (code + rw.offset) = code := readMsg_iff.mpr he
    exact ⟨rw', hr', he ▸ hh order, hread, by rw [hread, ← hv, hm]⟩

theorem delivered_iff (ha : Declared a)
    (hr : (matchProtocols a cb).get protocolName = some rw)
    (hr' : (matchProtocols b ca).get protocolName = some rw') (hv : rw.version = rw'.version)
    (hm : handler rw.version code = some m) :
    Delivered (matchProtocols a cb) (matchProtocols b ca) code m ↔
      (code ≠ resFileDatasMsg ∧ code ≠ reqFileDatasMsg) ∧
      lead (negotiated a cb) protocolName = lead (negotiated b ca) protocolName ∧
      Clear (negotiated b ca) code := by
  rw [delivered_iff_handle ha hr hr' hv hm, ← clear_iff hr', offset_of_get hr, offset_of_get hr',
    UInt64.add_right_inj]

-- Next to another protocol with five messages.
def sample : List Protocol :=
  [⟨"aux", 1, 5⟩, ⟨protocolName, 68, 17⟩]

theorem sample_declared : Declared sample := by
  simp [Declared, sample, protocolName, protocolLengths]

theorem sample_negotiated : negotiated sample (sample.map Protocol.cap) = sample := by
  have hs : Cap.sort (sample.map Protocol.cap) = sample.map Protocol.cap :=
    mergeSort_of_pairwise (by decide)
  unfold negotiated
  rw [hs]
  decide

theorem sample_get :
    (matchProtocols sample (sample.map Protocol.cap)).get protocolName =
      some ⟨⟨protocolName, 68, 17⟩, 21⟩ := by
  rw [matchProtocols_get, sample_negotiated]
  decide

theorem sample_clear : Clear (negotiated sample (sample.map Protocol.cap)) 0x0e := by
  apply clear_of_fits
  case hf => rw [sample_negotiated]; decide
  case hr => exact sample_get
  case hc => decide

theorem delivered_sample :
    Delivered (matchProtocols sample (sample.map Protocol.cap))
      (matchProtocols sample (sample.map Protocol.cap)) newPooledFileDataHashesMsg
      .handleNewPooledFileDataHashes68 :=
  (delivered_iff sample_declared sample_get sample_get rfl (by decide)).mpr
    ⟨by decide, rfl, sample_clear⟩

theorem not_always_delivered :
    ¬∀ (a b : List Protocol) (ca cb : List Cap) (rw rw' : ProtoRW) (code : UInt64)
      (m : MsgHandler), Declared a → Declared b →
        (matchProtocols a cb).get protocolName = some rw →
        (matchProtocols b ca).get protocolName = some rw' → rw.version = rw'.version →
        handler rw.version code = some m →
        Delivered (matchProtocols a cb) (matchProtocols b ca) code m := by
  intro h
  have hd := h sample sample (sample.map Protocol.cap) (sample.map Protocol.cap) _ _
    reqFileDatasMsg .handleReqFileDatas sample_declared sample_declared sample_get sample_get rfl
    (by decide)
  obtain ⟨rw, wire, hg, hok, -⟩ := hd
  cases hg.symm.trans sample_get
  exact absurd hok (by simp [ProtoRW.writeMsg, reqFileDatasMsg])
end Eth
