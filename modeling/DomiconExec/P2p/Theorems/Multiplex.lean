import DomiconExec.Eth.Theorems.Routing

namespace P2p

open List

variable {a b l : List Protocol} {ca cb caps : List Cap} {p q : Protocol} {name : String}
variable {rw rw' : ProtoRW} {o : UInt64} {w : UInt64}

-- A protocol that both sides have, in no older version than any other of this name.
def Newest (a b : List Protocol) (p : Protocol) : Prop :=
  p ∈ a ∧ p ∈ b ∧ ∀ q ∈ a, q ∈ b → q.name = p.name → q.version ≤ p.version

theorem foldl_join_concat : (l ++ [p]).foldl join [] = join (l.foldl join []) p := by
  rw [foldl_append]
  rfl

theorem concat_sorted (h : l.Pairwise (·.name < ·.name)) (hp : ∀ q ∈ l, q.name < p.name) :
    (l ++ [p]).Pairwise (·.name < ·.name) := by
  refine pairwise_append.mpr ⟨h, by simp, fun q hq r hr => ?_⟩
  exact mem_singleton.mp hr ▸ hp q hq

theorem join_sorted (h : l.Pairwise (·.name < ·.name)) (hp : ∀ q ∈ l, q.name ≤ p.name) :
    (join l p).Pairwise (·.name < ·.name) := by
  obtain ⟨l', q, rfl, -, hj, hlt⟩ | ⟨hj, hlt⟩ := join_cases h hp
  case inl => exact hj ▸ concat_sorted (pairwise_append.mp h).left hlt
  case inr => exact hj ▸ concat_sorted h hlt

theorem mem_join_iff (h : l.Pairwise (·.name < ·.name)) (hp : ∀ q ∈ l, q.name ≤ p.name) :
    q ∈ join l p ↔ q = p ∨ q ∈ l ∧ q.name ≠ p.name := by
  obtain ⟨l', r, rfl, hr, hj, hlt⟩ | ⟨hj, hlt⟩ := join_cases h hp
  all_goals
    rw [hj]
    simp only [mem_append, mem_singleton]
    constructor
  case inl.mp =>
    rintro (hq | rfl)
    case inl => exact .inr ⟨.inl hq, (hlt q hq).ne⟩
    case inr => exact .inl rfl
  case inl.mpr =>
    rintro (rfl | ⟨hq | rfl, hne⟩)
    case inl     => exact .inr rfl
    case inr.inl => exact .inl hq
    case inr.inr => exact absurd hr hne
  case inr.mp =>
    rintro (hq | rfl)
    case inl => exact .inr ⟨hq, (hlt q hq).ne⟩
    case inr => exact .inl rfl
  case inr.mpr =>
    rintro (rfl | ⟨hq, -⟩)
    case inl => exact .inr rfl
    case inr => exact .inl hq

-- Of the protocols with one name, the last one stays. The fold adds protocols at the right end.
theorem foldl_join
    (h : l.Pairwise fun p q => toLex (p.name, p.version) < toLex (q.name, q.version)) :
    (l.foldl join []).Pairwise (·.name < ·.name) ∧ ∀ p,
      p ∈ l.foldl join [] ↔ p ∈ l ∧ ∀ q ∈ l, q.name = p.name → q.version ≤ p.version := by
  induction l using List.reverseRecOn
  case nil => simp
  case append_singleton l r hi =>
    obtain ⟨hl, -, hr⟩ := pairwise_append.mp h
    have hr (q : Protocol) (hq : q ∈ l) :
        q.name < r.name ∨ q.name = r.name ∧ q.version < r.version :=
      Prod.Lex.lt_iff.mp <| hr q hq r (mem_singleton_self r)
    obtain ⟨hs, hm⟩ := hi hl
    have hle (q : Protocol) (hq : q ∈ l.foldl join []) : q.name ≤ r.name := by
      obtain hlt | ⟨he, -⟩ := hr q ((hm q).mp hq).left
      case inl => exact le_of_lt hlt
      case inr => exact le_of_eq he
    rw [foldl_join_concat]
    refine ⟨join_sorted hs hle, fun p => ?_⟩
    rw [mem_join_iff hs hle, hm]
    simp only [mem_append, mem_singleton]
    constructor
    case mp =>
      rintro (rfl | ⟨⟨hp, hv⟩, hne⟩)
      case inl =>
        refine ⟨.inr rfl, fun q hq he => ?_⟩
        obtain hq | rfl := hq
        case inl =>
          obtain hlt | ⟨-, hlt⟩ := hr q hq
          case inl => exact absurd he hlt.ne
          case inr => exact le_of_lt hlt
        case inr => exact le_rfl
      case inr =>
        refine ⟨.inl hp, fun q hq he => ?_⟩
        obtain hq | rfl := hq
        case inl => exact hv q hq he
        case inr => exact absurd he.symm hne
    case mpr =>
      rintro ⟨hp | rfl, hv⟩
      case inr => exact .inl rfl
      case inl =>
        refine .inr ⟨⟨hp, fun q hq => hv q (.inl hq)⟩, fun he => ?_⟩
        obtain hlt | ⟨-, hlt⟩ := hr p hp
        case inl => exact hlt.ne he
        case inr => exact absurd (hv r (.inr rfl) he.symm) (not_le_of_gt hlt)

section Common

variable {length : Cap → UInt64}

theorem Cap.sort_perm (h : ca.Perm caps) : Cap.sort ca = Cap.sort caps := by
  refine List.Perm.eq_of_pairwise (fun c d _ _ => Cap.eq_of_cmp) Cap.sort_pairwise
    Cap.sort_pairwise ?_
  exact ((mergeSort_perm ca _).trans h).trans (mergeSort_perm caps _).symm

theorem negotiated_perm (h : ca.Perm caps) : negotiated a ca = negotiated a caps := by
  rw [negotiated, negotiated, Cap.sort_perm h]

theorem Cap.sort_strict (h : caps.Nodup) :
    (Cap.sort caps).Pairwise fun c d => toLex (c.name, c.version) < toLex (d.name, d.version) := by
  have hn : (Cap.sort caps).Nodup := (mergeSort_perm caps _).nodup_iff.mpr h
  refine (Cap.sort_pairwise.and hn).imp fun {c d} hcd => ?_
  refine lt_of_le_of_ne (Cap.cmp_le_iff.mp hcd.left) fun he => hcd.right ?_
  cases c; cases d
  simpa using toLex.injective he

theorem Agreed.mem_iff (h : Agreed length a) :
    p ∈ a ↔ p.cap ∈ a.map Protocol.cap ∧ p.length = length p.cap where
  mp hp := ⟨mem_map_of_mem hp, h.length p hp⟩
  mpr := by
    rintro ⟨hm, hl⟩
    obtain ⟨q, hq, hc⟩ := mem_map.mp hm
    have he : q = p := by
      have hlq := h.length q hq
      rw [hc, ← hl] at hlq
      cases p; cases q
      simp only [Protocol.cap, Cap.mk.injEq] at hc
      simp only [Protocol.mk.injEq]
      exact ⟨hc.left, hc.right, hlq⟩
    exact he ▸ hq

theorem mem_negotiated_iff (ha : Agreed length a) (hb : Agreed length b) :
    p ∈ negotiated a (b.map Protocol.cap) ↔ Newest a b p := by
  have hcap (cap : Cap) : (cap.protocol length).cap = cap := rfl
  have hs : (((Cap.sort (b.map Protocol.cap)).filter (· ∈ a.map Protocol.cap)).map
      (Cap.protocol length)).Pairwise
      fun p q => toLex (p.name, p.version) < toLex (q.name, q.version) :=
    pairwise_map.mpr <| (Cap.sort_strict hb.nodup).filter _
  have hm (q : Protocol) : q ∈ ((Cap.sort (b.map Protocol.cap)).filter (· ∈ a.map Protocol.cap)).map
      (Cap.protocol length) ↔ q ∈ a ∧ q ∈ b := by
    rw [ha.mem_iff, hb.mem_iff]
    simp only [mem_map, mem_filter, Cap.sort, mem_mergeSort, decide_eq_true_eq]
    constructor
    case mp =>
      rintro ⟨cap, ⟨hb, ha⟩, rfl⟩
      exact ⟨⟨ha, rfl⟩, hb, rfl⟩
    case mpr =>
      rintro ⟨⟨ha, hl⟩, hb, -⟩
      refine ⟨q.cap, ⟨hb, ha⟩, ?_⟩
      rw [Cap.protocol, ← hl]
      rfl
  rw [negotiated, ha.filterMap, (foldl_join hs).right, hm, Newest, and_assoc]
  refine and_congr_right fun _ => and_congr_right fun _ => ?_
  exact ⟨fun h q hqa hqb => h q ((hm q).mpr ⟨hqa, hqb⟩), fun h q hq => h q ((hm q).mp hq).left
    ((hm q).mp hq).right⟩

-- Two sides that give the same length to a version know a length for each version.
theorem exists_agreed (ha : (a.map Protocol.cap).Nodup) (hb : (b.map Protocol.cap).Nodup)
    (hl : ∀ p ∈ a, ∀ q ∈ b, p.cap = q.cap → p.length = q.length) :
    ∃ length, Agreed length a ∧ Agreed length b := by
  let length (cap : Cap) : UInt64 :=
    (((a ++ b).find? (·.cap = cap)).map Protocol.length).getD 0
  have hlen (p : Protocol) (hp : p ∈ a ++ b) : p.length = length p.cap := by
    cases hf : (a ++ b).find? (·.cap = p.cap)
    case none => exact absurd (decide_eq_true rfl) (List.find?_eq_none.mp hf p hp)
    case some q =>
      have hc : q.cap = p.cap := by simpa using List.find?_some hf
      have hq := List.mem_of_find?_eq_some hf
      have inj (l : List Protocol) (hn : (l.map Protocol.cap).Nodup) (hp : p ∈ l) (hq : q ∈ l) :
          p.length = q.length := inj_on_of_nodup_map hn hp hq hc.symm ▸ rfl
      have he : p.length = q.length := by
        obtain hpa | hpb := mem_append.mp hp <;> obtain hqa | hqb := mem_append.mp hq
        case inl.inl => exact inj a ha hpa hqa
        case inl.inr => exact hl p hpa q hqb hc.symm
        case inr.inl => exact (hl q hqa p hpb hc).symm
        case inr.inr => exact inj b hb hpb hqb
      simp only [length, hf, Option.map_some, Option.getD_some, he]
  exact ⟨length, ⟨fun p hp => hlen p (mem_append_left b hp), ha⟩,
    fun p hp => hlen p (mem_append_right a hp), hb⟩

end Common

theorem exists_mem_placed (h : p ∈ l) : ∃ rw ∈ placed o l, rw.toProtocol = p := by
  induction l generalizing o
  case nil => contradiction
  case cons q l hi =>
    obtain rfl | h := mem_cons.mp h
    case inl => exact ⟨_, mem_cons_self, rfl⟩
    case inr =>
      obtain ⟨rw, hm, he⟩ := hi h
      exact ⟨rw, mem_cons_of_mem _ hm, he⟩

-- The codes of the protocols follow each other, from the code `o` on.
def Consecutive : Nat → List ProtoRW → Prop
  | _, []      => True
  | o, rw :: l => rw.offset.toNat = o ∧
    (∀ w, rw.covers w ↔ o ≤ w.toNat ∧ w.toNat < o + rw.length.toNat) ∧
    Consecutive (o + rw.length.toNat) l

theorem Fits.consecutive (h : Fits o l) : Consecutive o.toNat (placed o l) := by
  induction l generalizing o
  case nil => trivial
  case cons p l hi =>
    have hb := h.bounds List.mem_cons_self
    exact ⟨rfl, fun w => covers_iff hb.right, h.head ▸ hi h.tail⟩

-- The first protocol that exceeds the codes covers none, since its end is below its start.
theorem fits_of_consecutive (h : Consecutive o.toNat (placed o l)) : Fits o l := by
  induction l generalizing o
  case nil => exact o.toNat_lt
  case cons p l hi =>
    obtain ⟨-, hc, ht⟩ := h
    have hlt : o.toNat + p.length.toNat < UInt64.size := by
      by_contra hge
      have hp := p.length.toNat_lt
      have ho := o.toNat_lt
      have hw : (⟨p, o⟩ : ProtoRW).covers o := by
        refine (hc o).mpr ⟨le_rfl, ?_⟩
        have hz : UInt64.size = 2 ^ 64 := rfl
        dsimp only
        omega
      simp only [ProtoRW.covers, Bool.and_eq_true, decide_eq_true_eq,
        UInt64.lt_iff_toNat_lt, UInt64.toNat_add] at hw
      have hm := Nat.mod_eq_sub_mod (Nat.le_of_not_lt hge)
      have hz : UInt64.size = 2 ^ 64 := rfl
      rw [← hz, hm, Nat.mod_eq_of_lt (by omega)] at hw
      omega
    have hh : (o + p.length).toNat = o.toNat + p.length.toNat := by
      rw [UInt64.toNat_add]
      exact Nat.mod_eq_of_lt hlt
    have hf := hi (hh ▸ ht)
    simp only [Fits, extent, map_cons, sum_cons] at hf ⊢
    omega

theorem eq_of_sorted {l l' : List ProtoRW} (h : l.Pairwise (·.name < ·.name))
    (h' : l'.Pairwise (·.name < ·.name)) (hm : ∀ rw, rw ∈ l ↔ rw ∈ l') : l = l' := by
  have nodup {l : List ProtoRW} (h : l.Pairwise (·.name < ·.name)) : l.Nodup :=
    h.imp fun {p q} hlt he => absurd (congrArg (·.name) he) hlt.ne
  refine List.Perm.eq_of_pairwise (fun p q _ _ hpq hqp => absurd hpq (lt_asymm hqp)) h h' ?_
  exact (perm_ext_iff_of_nodup (nodup h) (nodup h')).mpr hm

theorem getProto_eq_some_iff {running : GoMap String ProtoRW} {order : IterOrder String}
    (h : ∀ n n' rw rw', running.get n = some rw → running.get n' = some rw' → rw.covers w →
      rw'.covers w → rw = rw') :
    getProto order running w = some rw ↔ (∃ name, running.get name = some rw) ∧ rw.covers w where
  mp hg := (mem_of_getProto hg).symm
  mpr := by
    rintro ⟨⟨name, hn⟩, hc⟩
    refine (getProto_iff hn).mpr ⟨hc, fun name' rw' hn' hc' => ?_⟩ order
    exact h name' name rw' rw hn' hn hc' hc

-- Both sides run the newest common version of each protocol, and each of them has its own codes.
structure Multiplexed (a b : List Protocol) (running running' : GoMap String ProtoRW) : Prop where
  same : running = running'
  newest : ∀ name p, (running.get name).map ProtoRW.toProtocol = some p ↔
    p.name = name ∧ Newest a b p
  consecutive : ∃ l : List ProtoRW, l.Pairwise (·.name < ·.name) ∧
    (∀ rw, rw ∈ l ↔ running.get rw.name = some rw) ∧ Consecutive baseProtocolLength.toNat l
  disjoint : ∀ n n' rw rw' w, running.get n = some rw → running.get n' = some rw' →
    n ≠ n' → rw.covers w → ¬rw'.covers w
  getProto : ∀ order order' w, P2p.getProto order running w = P2p.getProto order' running' w

-- The codes are assigned alike if and only if the lengths of the common protocols do not overflow.
theorem multiplexed_iff (ha : (a.map Protocol.cap).Nodup) (hb : (b.map Protocol.cap).Nodup)
    (hl : ∀ p ∈ a, ∀ q ∈ b, p.cap = q.cap → p.length = q.length)
    (hca : ca.Perm (a.map Protocol.cap)) (hcb : cb.Perm (b.map Protocol.cap)) :
    Multiplexed a b (matchProtocols a cb) (matchProtocols b ca) ↔
      Fits baseProtocolLength (negotiated a cb) := by
  obtain ⟨length, haa, hab⟩ := exists_agreed ha hb hl
  have hsame : matchProtocols a cb = matchProtocols b ca := by
    refine GoMap.ext fun name => ?_
    rw [matchProtocols_get, matchProtocols_get, negotiated_perm hca, negotiated_perm hcb,
      negotiated_comm haa hab]
  have hget {name : String} {rw : ProtoRW} := @get_iff_mem_placed a cb name rw
  have hsorted := placed_names (o := baseProtocolLength) (@matchProtocols_represents a cb).sorted
  constructor
  case mp =>
    rintro ⟨-, -, ⟨l, hn, hm, hc⟩, -, -⟩
    refine fits_of_consecutive ?_
    rwa [eq_of_sorted hsorted hn fun rw => ?_]
    rw [hm, hget, and_iff_left rfl]
  case mpr =>
    intro hf
    have hu (n n' : String) (rw rw' : ProtoRW) (w : UInt64)
        (h : (matchProtocols a cb).get n = some rw) (h' : (matchProtocols a cb).get n' = some rw')
        (hc : rw.covers w) (hc' : rw'.covers w) : rw = rw' :=
      hf.unique (hget.mp h).left (hget.mp h').left hc hc'
    refine ⟨hsame, fun name p => ?_, ⟨_, hsorted, fun rw => ?_, hf.consecutive⟩, ?_, ?_⟩
    case refine_1 =>
      have hneg : p ∈ negotiated a cb ↔ Newest a b p := by
        rw [negotiated_perm hcb, mem_negotiated_iff haa hab]
      rw [Option.map_eq_some_iff, ← hneg]
      constructor
      case mp =>
        rintro ⟨rw, hg, rfl⟩
        exact ⟨(hget.mp hg).right, mem_placed (hget.mp hg).left⟩
      case mpr =>
        rintro ⟨rfl, hp⟩
        obtain ⟨rw, hm, rfl⟩ := exists_mem_placed hp
        exact ⟨rw, hget.mpr ⟨hm, rfl⟩, rfl⟩
    case refine_2 => rw [hget, and_iff_left rfl]
    case refine_3 =>
      intro n n' rw rw' w h h' hne hc hc'
      have he := hu n n' rw rw' w h h' hc hc'
      exact hne <| (hget.mp h).right.symm.trans (he ▸ (hget.mp h').right)
    case refine_4 =>
      intro order order' w
      refine Option.ext fun rw => ?_
      rw [← hsame, getProto_eq_some_iff fun n n' rw rw' => hu n n' rw rw' w,
        getProto_eq_some_iff fun n n' rw rw' => hu n n' rw rw' w]

-- One side also has an older version, and the other one receives the capabilities in reverse.
def localSample : List Protocol :=
  [⟨"eth", 67, 17⟩, ⟨"eth", 68, 17⟩, ⟨"snap", 1, 8⟩]

def remoteSample : List Protocol :=
  [⟨"eth", 68, 17⟩, ⟨"snap", 1, 8⟩]

theorem remoteSample_negotiated :
    negotiated localSample (remoteSample.map Protocol.cap) = remoteSample := by
  have hs : Cap.sort (remoteSample.map Protocol.cap) = remoteSample.map Protocol.cap :=
    mergeSort_of_pairwise (by decide)
  unfold negotiated
  rw [hs]
  decide

theorem multiplexed_sample :
    Multiplexed localSample remoteSample
      (matchProtocols localSample (remoteSample.map Protocol.cap).reverse)
      (matchProtocols remoteSample (localSample.map Protocol.cap)) := by
  refine (multiplexed_iff (by decide) (by decide) (by decide) (.refl _) (reverse_perm _)).mpr ?_
  rw [negotiated_perm (reverse_perm _), remoteSample_negotiated]
  decide

-- The codes of the third protocol start over at those of the first one.
def overflowing : List Protocol :=
  [⟨"a", 1, 0x8000000000000000⟩, ⟨"b", 1, 0x8000000000000000⟩, ⟨"c", 1, 5⟩]

theorem overflowing_negotiated :
    negotiated overflowing (overflowing.map Protocol.cap) = overflowing := by
  have hs : Cap.sort (overflowing.map Protocol.cap) = overflowing.map Protocol.cap :=
    mergeSort_of_pairwise (by decide)
  unfold negotiated
  rw [hs]
  decide

theorem not_always_multiplexed :
    ¬∀ (a b : List Protocol) (ca cb : List Cap), (a.map Protocol.cap).Nodup →
      (b.map Protocol.cap).Nodup → (∀ p ∈ a, ∀ q ∈ b, p.cap = q.cap → p.length = q.length) →
      ca.Perm (a.map Protocol.cap) → cb.Perm (b.map Protocol.cap) →
      Multiplexed a b (matchProtocols a cb) (matchProtocols b ca) := by
  intro h
  have hm := h overflowing overflowing _ _ (by decide) (by decide) (by decide) (.refl _) (.refl _)
  have hg (name : String) : (matchProtocols overflowing (overflowing.map Protocol.cap)).get name =
      (placed baseProtocolLength overflowing).find? (·.name = name) := by
    rw [matchProtocols_get, overflowing_negotiated]
  have ha := hg "a"
  have hc := hg "c"
  exact hm.disjoint "a" "c" _ _ 16 (ha.trans rfl) (hc.trans rfl) (by decide) (by decide) (by decide)
end P2p
