import DomiconExec.Primitives.Loop
import DomiconExec.Primitives.Lru
import DomiconExec.Primitives.Transition
import DomiconExec.Common.BasicLRU

namespace Common

open List

namespace Elems

variable {K : Type} {f : Ptr → Option Ptr} {l l' : Elems K} {e a b : Ptr} {x y ps qs : List Ptr}

-- The pointers lead from the root through a list of elements and back to the root.
def Cycle (f : Ptr → Option Ptr) (ps : List Ptr) : Prop :=
  (root :: ps).map f = (ps ++ [root]).map some

-- The elements `a` and `b` before and behind a place in the list.
structure Around (ps qs x : List Ptr) (a b : Ptr) (y : List Ptr) : Prop where
  before : root :: ps = x ++ [a]
  behind : qs ++ [root] = b :: y

theorem map_update {o : Option Ptr} (h : e ∉ ps) : ps.map (Function.update f e o) = ps.map f :=
  map_congr_left fun _ hp => Function.update_of_ne (ne_of_mem_of_not_mem hp h) ..

namespace Around

theorem exists_around (ps qs : List Ptr) : ∃ x a b y, Around ps qs x a b y := by
  obtain ⟨x, a, hx⟩ := (root :: ps).eq_nil_or_concat'.resolve_left (by simp)
  obtain ⟨b, y, hy⟩ := exists_cons_of_ne_nil (concat_ne_nil root qs)
  exact ⟨x, a, b, y, hx, hy⟩

theorem reverse (h : Around ps qs x a b y) :
    Around qs.reverse ps.reverse y.reverse b a x.reverse where
  before := by simpa using congrArg List.reverse h.behind
  behind := by simpa using congrArg List.reverse h.before

theorem cycle_append (h : Around ps qs x a b y) {m : List Ptr} : Cycle f (ps ++ m ++ qs) ↔
    x.map f = ps.map some ∧ (a :: m ++ qs).map f = (m ++ b :: y).map some := by
  have hl : x.length = ps.length := by simpa using (congrArg List.length h.before).symm
  have h₁ : root :: (ps ++ m ++ qs) = x ++ (a :: m ++ qs) := by
    rw [← cons_append, ← cons_append, h.before]
    simp
  have h₂ : ps ++ m ++ qs ++ [root] = ps ++ (m ++ b :: y) := by
    rw [append_assoc, h.behind, append_assoc]
  have h₃ : (x ++ (a :: m ++ qs)).map f = x.map f ++ (a :: m ++ qs).map f := List.map_append
  have h₄ : (ps ++ (m ++ b :: y)).map some = ps.map some ++ (m ++ b :: y).map some := List.map_append
  rw [Cycle, h₁, h₂, h₃, h₄]
  constructor
  case mp  => exact fun he => append_inj he (by simp [hl])
  case mpr => exact fun he => by rw [he.left, he.right]

theorem mem (h : Around ps qs x a b y) (hn : (root :: (ps ++ qs)).Nodup) :
    a ∉ x ∧ a ∉ qs ∧ ∀ p ∈ x ++ a :: qs, p ∈ root :: (ps ++ qs) := by
  rw [← cons_append, h.before, append_assoc, singleton_append] at hn ⊢
  have := nodup_append.mp hn
  grind

theorem unlink (h : Around ps qs x a b y) (hn : (root :: (ps ++ qs)).Nodup)
    (hf : Cycle f (ps ++ [e] ++ qs)) :
    f e = some b ∧ Cycle (Function.update f a (some b)) (ps ++ qs) := by
  obtain ⟨h₁, h₂⟩ := h.cycle_append.mp hf
  simp only [cons_append, nil_append, map_cons, List.cons.injEq] at h₂
  obtain ⟨ha, hx, _⟩ := h.mem hn
  refine ⟨h₂.right.left, ?_⟩
  rw [← append_nil ps, h.cycle_append]
  refine ⟨(map_update ha).trans h₁, ?_⟩
  simpa [map_update hx] using h₂.right.right

theorem link (h : Around ps qs x a b y) (hn : (root :: (ps ++ qs)).Nodup)
    (he : e ∉ root :: (ps ++ qs)) (hf : Cycle f (ps ++ qs)) : f a = some b ∧
      Cycle (Function.update (Function.update f e (some b)) a (some e)) (ps ++ [e] ++ qs) := by
  rw [← append_nil ps, h.cycle_append] at hf
  obtain ⟨h₁, h₂⟩ := hf
  simp only [nil_append, map_cons, cons_append, List.cons.injEq] at h₂
  obtain ⟨ha, hx, hm⟩ := h.mem hn
  have hex : e ∉ x := fun hc => he (hm e (mem_append_left _ hc))
  have heq : e ∉ a :: qs := fun hc => he (hm e (mem_append_right _ hc))
  obtain ⟨hea, heq⟩ := not_or.mp (mt mem_cons.mpr heq)
  refine ⟨h₂.left, h.cycle_append.mpr ⟨?_, ?_⟩⟩
  case refine_1 => rw [map_update ha, map_update hex, h₁]
  case refine_2 =>
    simp only [cons_append, nil_append, map_cons, map_update hx, map_update heq,
      Function.update_self, Function.update_of_ne hea, h₂.right]

end Around

-- The elements form a doubly linked list.
structure Ring (l : Elems K) (ps : List Ptr) : Prop where
  nodup : (root :: ps).Nodup
  next : Cycle l.next ps
  prev : Cycle l.prev ps.reverse

namespace Ring

theorem empty (l : Elems K) : Ring l.init [] := by
  constructor <;> simp [Elems.init, Cycle]

theorem last_eq (r : Ring l ps) : l.last = ps.getLast? := by
  have h := congrArg List.head? r.prev
  obtain rfl | ⟨qs, p, rfl⟩ := ps.eq_nil_or_concat'
  case inl => simp_all [last]
  case inr =>
    have hp : root ≠ p := by
      rintro rfl
      simpa using r.nodup
    simp_all [last, hp.symm]

theorem not_mem (r : Ring l (ps ++ [e] ++ qs)) : e ∉ root :: (ps ++ qs) := by
  have := r.nodup
  grind

theorem congr (r : Ring l ps)
    (h : ∀ p ∈ root :: ps, l'.next p = l.next p ∧ l'.prev p = l.prev p) : Ring l' ps where
  nodup := r.nodup
  next := (map_congr_left fun p hp => (h p hp).left).trans r.next
  prev := by
    refine (map_congr_left fun p hp => (h p ?_).right).trans r.prev
    simpa using hp

theorem unlink (r : Ring l (ps ++ [e] ++ qs)) :
    ∃ l', l.unlink e = .ok l' ∧ Ring l' (ps ++ qs) ∧ l'.v = l.v := by
  obtain ⟨x, a, b, y, h⟩ := Around.exists_around ps qs
  have hs : (root :: (ps ++ qs)).Sublist (root :: (ps ++ [e] ++ qs)) := by simp
  have hn : (root :: (ps ++ qs)).Nodup := r.nodup.sublist hs
  have hr : (root :: (qs.reverse ++ ps.reverse)).Nodup := by
    simpa [← reverse_append, and_comm] using hn
  have hp : Cycle l.prev (qs.reverse ++ [e] ++ ps.reverse) := by simpa using r.prev
  obtain ⟨h₁, hc⟩ := h.unlink hn r.next
  obtain ⟨h₂, hc'⟩ := h.reverse.unlink hr hp
  have hea : e ≠ a := (ne_of_mem_of_not_mem ((h.mem hn).right.right a (by simp)) r.not_mem).symm
  refine ⟨⟨Function.update l.next a (some b), Function.update l.prev b (some a), l.v⟩, ?_,
    ⟨hn, hc, by simpa using hc'⟩, rfl⟩
  simp [Elems.unlink, store, h₁, h₂, hea, bind, Except.bind, pure, Except.pure]

theorem pushElem (r : Ring l ps) (he : e ∉ root :: ps) :
    ∃ l', l.pushElem e = .ok l' ∧ Ring l' (e :: ps) ∧ l'.v = l.v := by
  obtain ⟨x, a, b, y, h⟩ := Around.exists_around [] ps
  obtain ⟨rfl, rfl⟩ : x = [] ∧ a = root := by
    have := h.before
    cases x <;> simp_all
  have hr : (root :: (ps.reverse ++ [])).Nodup := by simpa using r.nodup
  obtain ⟨h₁, hc⟩ := h.link r.nodup he r.next
  obtain ⟨-, hc'⟩ := h.reverse.link hr (by simpa using he) (by simpa using r.prev)
  have her : e ≠ root := fun hc => he (hc ▸ mem_cons_self)
  refine ⟨⟨Function.update (Function.update l.next e (some b)) root (some e),
    Function.update (Function.update l.prev e (some root)) b (some e), l.v⟩, ?_,
    ⟨?_, hc, by simpa using hc'⟩, rfl⟩
  case refine_1 =>
    simp [Elems.pushElem, store, h₁, her, bind, Except.bind, pure, Except.pure]
  case refine_2 =>
    have := r.nodup
    grind

theorem remove (r : Ring l (ps ++ [e] ++ qs)) :
    ∃ l', l.remove e = .ok l' ∧ Ring l' (ps ++ qs) ∧ l'.v = l.v := by
  obtain ⟨l', he, r', hv⟩ := r.unlink
  refine ⟨_, Loop.bind_of_eq_ok he, r'.congr ?_, hv⟩
  intro p hp
  have hpe := ne_of_mem_of_not_mem hp r.not_mem
  simp [hpe]

theorem moveToFront (r : Ring l (ps ++ [e] ++ qs)) :
    ∃ l', l.moveToFront e = .ok l' ∧ Ring l' (e :: (ps ++ qs)) ∧ l'.v = l.v := by
  obtain ⟨l₁, h₁, r₁, hv₁⟩ := r.unlink
  obtain ⟨l₂, h₂, r₂, hv₂⟩ := r₁.pushElem r.not_mem
  exact ⟨l₂, (Loop.bind_of_eq_ok h₁).trans h₂, r₂, hv₂.trans hv₁⟩

end Ring
end Elems

open Elems (root)

variable {K V : Type} [DecidableEq K] {c : BasicLRU K V} {k : K} {v : V} {p : Ptr}
  {es es₁ es₂ : List (Ptr × K × V)}

-- The list elements with their keys and values, beginning with the front of the list.
structure Holds (c : BasicLRU K V) (es : List (Ptr × K × V)) : Prop where
  ring : c.list.Ring (es.map Prod.fst)
  keys : (es.map (·.snd.fst)).Nodup
  v : ∀ e ∈ es, c.list.v e.fst = e.snd.fst
  items : ∀ k i, c.items.get k = some i ↔ (i.elem, k, i.value) ∈ es
  fresh : ∀ p ∈ root :: es.map Prod.fst, p < c.fresh
  len : es.length ≤ c.cap
  cap : 0 < c.cap

namespace Holds

theorem len_eq (h : Holds c es) : c.items.len = es.length := by
  have hk : c.items.keys = (es.map (·.snd.fst)).toFinset := by
    ext k
    have := @h.items k
    simp only [GoMap.mem_keys, GoMap.mem_iff, this, mem_toFinset, mem_map]
    constructor
    case mp =>
      rintro ⟨i, hi⟩
      exact ⟨_, hi, rfl⟩
    case mpr =>
      rintro ⟨⟨p, k, v⟩, he, rfl⟩
      exact ⟨⟨p, v⟩, he⟩
  rw [GoMap.len, hk, toFinset_card_of_nodup h.keys, length_map]

theorem find (h : Holds c es) :
    (es.map Prod.snd).find? (·.fst = k) = (c.items.get k).map fun i => (k, i.value) := by
  have hu : ∀ e ∈ es, e.snd.fst = k → c.items.get k = some ⟨e.fst, e.snd.snd⟩ := by
    rintro ⟨p, _, v⟩ he rfl
    exact (h.items _ ⟨p, v⟩).mpr he
  cases hf : (es.map Prod.snd).find? (·.fst = k)
  case none =>
    cases hg : c.items.get k
    case none   => rfl
    case some i => simpa using List.find?_eq_none.mp hf _ <| mem_map_of_mem ((h.items k i).mp hg)
  case some e =>
    obtain ⟨d, hd, rfl⟩ := mem_map.mp (List.mem_of_find?_eq_some hf)
    have hk : d.snd.fst = k := by simpa using List.find?_some hf
    rw [hu d hd hk, Option.map_some, ← hk]

theorem ne_of_split (h : Holds c (es₁ ++ [(p, k, v)] ++ es₂)) :
    ∀ e ∈ es₁ ++ es₂, e.snd.fst ≠ k := by
  have hk := h.keys
  simp only [map_append, map_cons, map_nil, nodup_append] at hk
  grind

theorem items_ne (h : Holds c (es₁ ++ [(p, k, v)] ++ es₂)) {k' : K} (hk : k' ≠ k) :
    ∀ i, c.items.get k' = some i ↔ (i.elem, k', i.value) ∈ es₁ ++ es₂ := by
  intro i
  rw [h.items]
  simp [hk]

theorem items_set {m : GoMap K (CacheItem V)} (hk : ∀ e ∈ es, e.snd.fst ≠ k)
    (hm : ∀ k', k' ≠ k → ∀ i, m.get k' = some i ↔ (i.elem, k', i.value) ∈ es) :
    ∀ k' i, (m.set k ⟨p, v⟩).get k' = some i ↔ (i.elem, k', i.value) ∈ (p, k, v) :: es := by
  intro k' i
  by_cases hk' : k' = k
  case pos =>
    have hn : (i.elem, k, i.value) ∉ es := fun hc => hk _ hc rfl
    subst hk'
    rw [GoMap.get_set_self, mem_cons]
    cases i
    grind
  case neg => simp [GoMap.get_set_ne hk', hm k' hk', hk']

theorem front (h : Holds c (es₁ ++ [(p, k, v)] ++ es₂)) (w : V) :
    ∃ l, c.list.moveToFront p = .ok l ∧
      Holds { c with list := l, items := c.items.set k ⟨p, w⟩ } ((p, k, w) :: (es₁ ++ es₂)) := by
  obtain ⟨l, hl, r, hv⟩ := Elems.Ring.moveToFront (by simpa using h.ring)
  have hkeys := h.keys
  have hlen := h.len
  have he := h.v
  simp only [forall_mem_append, forall_mem_cons] at he
  refine ⟨l, hl, ⟨by simpa using r, by grind, ?_, ?_, ?_, by grind, h.cap⟩⟩
  case refine_1 =>
    simp only [forall_mem_append, forall_mem_cons, hv]
    exact ⟨he.left.right.left, he.left.left, he.right⟩
  case refine_2 => exact items_set h.ne_of_split fun _ => h.items_ne
  case refine_3 =>
    intro q hq
    exact h.fresh q (by simpa [or_left_comm] using hq)

theorem drop (h : Holds c (es₁ ++ [(p, k, v)] ++ es₂)) : ∃ l, c.list.remove p = .ok l ∧
    l.v = c.list.v ∧ Holds { c with list := l, items := c.items.del k } (es₁ ++ es₂) := by
  obtain ⟨l, hl, r, hv⟩ := Elems.Ring.remove (by simpa using h.ring)
  have hs : (es₁ ++ es₂).Sublist (es₁ ++ [(p, k, v)] ++ es₂) := by simp
  refine ⟨l, hl, hv, ⟨by simpa using r, h.keys.sublist (hs.map _), ?_, ?_, ?_,
    hs.length_le.trans h.len, h.cap⟩⟩
  case refine_1 =>
    intro e he
    exact hv ▸ h.v e (hs.subset he)
  case refine_2 =>
    intro k' i
    rw [GoMap.get_del]
    split
    case isTrue hk =>
      have hn : (i.elem, k, i.value) ∉ es₁ ++ es₂ := fun hc => h.ne_of_split _ hc rfl
      simp only [hk, hn, reduceCtorEq]
    case isFalse hk => exact h.items_ne hk i
  case refine_3 =>
    intro p hp
    exact h.fresh p (((hs.map Prod.fst).cons_cons root).subset hp)

theorem push (h : Holds c es) (hk : ∀ e ∈ es, e.snd.fst ≠ k) (hp : p ∉ root :: es.map Prod.fst)
    (hf : p < c.fresh) (hl : es.length < c.cap) :
    ∃ l, { c.list with v := Function.update c.list.v p k }.pushElem p = .ok l ∧
      Holds { c with list := l, items := c.items.set k ⟨p, v⟩ } ((p, k, v) :: es) := by
  have r : Elems.Ring { c.list with v := Function.update c.list.v p k } (es.map Prod.fst) :=
    h.ring.congr fun _ _ => ⟨rfl, rfl⟩
  obtain ⟨l, he, r, hv⟩ := r.pushElem hp
  have hkeys := h.keys
  have hfresh := h.fresh
  refine ⟨l, he, ⟨r, by grind, ?_, items_set hk fun k' _ => h.items k', by grind, hl, h.cap⟩⟩
  rw [hv, forall_mem_cons]
  refine ⟨Function.update_self .., fun e he => ?_⟩
  have hne : e.fst ≠ p := fun hc => hp (mem_cons_of_mem _ (hc ▸ mem_map_of_mem he))
  exact (Function.update_of_ne hne ..).trans (h.v e he)

theorem reuse (h : Holds c es) : ∃ p c', c.reuse = .ok (decide (c.cap ≤ es.length), p, c') ∧
    ∃ es', Holds c' es' ∧ es' = (if c.cap ≤ es.length then es.dropLast else es) ∧
      p ∉ root :: es'.map Prod.fst ∧ p < c'.fresh ∧ es'.length < c'.cap ∧ c'.cap = c.cap := by
  unfold BasicLRU.reuse
  rw [h.len_eq]
  split
  case isTrue hf =>
    obtain rfl | ⟨es', ⟨p, k, v⟩, rfl⟩ := es.eq_nil_or_concat'
    case inl => exact absurd h.cap (by simpa using hf)
    case inr =>
      have h' : Holds c (es' ++ [(p, k, v)] ++ []) := by simpa using h
      obtain ⟨l, hl, hv, hh⟩ := h'.drop
      have hk : l.v p = k := hv ▸ h.v (p, k, v) (by simp)
      have hn := h.ring.nodup
      have hf' : c.cap ≤ es'.length + 1 := by simpa using hf
      refine ⟨p, { c with list := l, items := c.items.del k }, ?_, es', by simpa using hh, ?_, ?_,
        h.fresh p (by simp), ?_, rfl⟩
      case refine_1 => simp [h.ring.last_eq, hl, hf', hk, bind, Except.bind, pure, Except.pure]
      case refine_2 => simp
      case refine_3 => grind
      case refine_4 =>
        have := h.len
        grind
  case isFalse hf =>
    have hfr := h.fresh
    refine ⟨c.fresh, { c with fresh := c.fresh + 1 }, by simp [hf], es, ?_, by simp, ?_, ?_, ?_, rfl⟩
    case refine_1 => exact { h with fresh := fun p hp => (h.fresh p hp).trans (Nat.lt_succ_self _) }
    case refine_2 => exact fun hc => lt_irrefl _ (h.fresh _ hc)
    case refine_3 => exact Nat.lt_succ_self _
    case refine_4 => exact not_le.mp hf

theorem filter_of_ne (hk : ∀ e ∈ es, e.snd.fst ≠ k) :
    (es.map Prod.snd).filter (·.fst ≠ k) = es.map Prod.snd := by
  rw [filter_eq_self]
  intro e he
  obtain ⟨d, hd, rfl⟩ := mem_map.mp he
  exact decide_eq_true (hk d hd)

theorem filter_split (h : Holds c (es₁ ++ [(p, k, v)] ++ es₂)) :
    ((es₁ ++ [(p, k, v)] ++ es₂).map Prod.snd).filter (·.fst ≠ k) = (es₁ ++ es₂).map Prod.snd := by
  rw [← filter_of_ne h.ne_of_split]
  simp

theorem ne_of_get (h : Holds c es) (hg : c.items.get k = none) : ∀ e ∈ es, e.snd.fst ≠ k := by
  rintro ⟨p, _, v⟩ he rfl
  rw [(h.items _ ⟨p, v⟩).mpr he] at hg
  cases hg

theorem any_eq (h : Holds c es) : (es.map Prod.snd).any (·.fst = k) = (c.items.get k).isSome := by
  rw [← isSome_find?, h.find]
  cases c.items.get k <;> rfl

theorem split (h : Holds c es) {i : CacheItem V} (hg : c.items.get k = some i) :
    ∃ es₁ es₂, es = es₁ ++ [(i.elem, k, i.value)] ++ es₂ := by
  obtain ⟨es₁, es₂, he⟩ := append_of_mem ((h.items k i).mp hg)
  exact ⟨es₁, es₂, by simpa using he⟩

end Holds

-- What a call does to a map that is ordered by the last uses of its keys.
def CacheCall.apply (l : Lru K V) : CacheCall K V → CacheResult K V × Lru K V
  | .add k v      => (.flag (!l.items.any (·.fst = k) && l.cap ≤ l.items.length), l.add k v)
  | .get k        => Prod.map .value id (l.get k)
  | .peek k       => (.value ((l.items.find? (·.fst = k)).map Prod.snd), l)
  | .contains k   => (.flag (l.items.any (·.fst = k)), l)
  | .remove k     => (.flag (l.items.any (·.fst = k)), { l with items := l.items.filter (·.fst ≠ k) })
  | .removeOldest =>
    (.entry (l.items.getLast?.map (Prod.map id some)), { l with items := l.items.dropLast })
  | .purge        => (.done, { l with items := [] })

def Refines (c : BasicLRU K V) (l : Lru K V) : Prop :=
  ∃ es, Holds c es ∧ l = ⟨c.cap, es.map Prod.snd⟩

namespace Refines

variable {l : Lru K V}

theorem add (h : Refines c l) : ∃ c',
    c.add k v = .ok (!l.items.any (·.fst = k) && l.cap ≤ l.items.length, c') ∧
      Refines c' (l.add k v) := by
  obtain ⟨es, h, rfl⟩ := h
  unfold BasicLRU.add Lru.add
  simp only [h.any_eq, length_map]
  cases hg : c.items.get k
  case none =>
    obtain ⟨p, c', hr, es', h', he, hp, hf, hl, hc⟩ := h.reuse
    have hk : ∀ e ∈ es', e.snd.fst ≠ k := by
      intro e hm
      refine h.ne_of_get hg e ?_
      rw [he] at hm
      split at hm
      case isTrue  => exact dropLast_subset _ hm
      case isFalse => exact hm
    obtain ⟨l, hp, hh⟩ := h'.push (v := v) hk hp hf hl
    refine ⟨{ c' with list := l, items := c'.items.set k ⟨p, v⟩ }, ?_, (p, k, v) :: es', hh, ?_⟩
    case refine_1 => exact (Loop.bind_of_eq_ok hr).trans (Loop.bind_of_eq_ok hp)
    case refine_2 =>
      rw [Option.isSome_none, if_neg Bool.false_ne_true, hc, map_cons, he]
      split <;> simp
  case some i =>
    obtain ⟨es₁, es₂, rfl⟩ := h.split hg
    obtain ⟨l, hl, hh⟩ := h.front v
    refine ⟨_, Loop.bind_of_eq_ok hl, _, hh, ?_⟩
    rw [Option.isSome_some, if_pos rfl, Lru.touch, h.filter_split, map_cons]

theorem get (h : Refines c l) : ∃ c', c.get k = .ok ((l.get k).fst, c') ∧ Refines c' (l.get k).snd := by
  obtain ⟨es, h, rfl⟩ := h
  unfold BasicLRU.get Lru.get
  simp only [h.find]
  cases hg : c.items.get k
  case none => exact ⟨c, rfl, es, h, rfl⟩
  case some i =>
    have hi : c.items.set k ⟨i.elem, i.value⟩ = c.items := by
      refine GoMap.ext fun k' => ?_
      rw [GoMap.get_set]
      split
      case isTrue hk => rw [hk, hg]
      case isFalse   => rfl
    obtain ⟨es₁, es₂, rfl⟩ := h.split hg
    obtain ⟨l, hl, hh⟩ := h.front i.value
    rw [hi] at hh
    refine ⟨_, Loop.bind_of_eq_ok hl, _, hh, ?_⟩
    simp only [Option.map_some, Lru.touch, h.filter_split, map_cons]

theorem remove (h : Refines c l) : ∃ c', c.remove k = .ok (l.items.any (·.fst = k), c') ∧
    Refines c' { l with items := l.items.filter (·.fst ≠ k) } := by
  obtain ⟨es, h, rfl⟩ := h
  unfold BasicLRU.remove
  simp only [h.any_eq]
  cases hg : c.items.get k
  case none =>
    refine ⟨c, rfl, es, h, ?_⟩
    rw [Holds.filter_of_ne (h.ne_of_get hg)]
  case some i =>
    obtain ⟨es₁, es₂, rfl⟩ := h.split hg
    obtain ⟨l, hl, -, hh⟩ := h.drop
    refine ⟨_, Loop.bind_of_eq_ok hl, _, hh, ?_⟩
    rw [h.filter_split]

theorem removeOldest (h : Refines c l) : ∃ c',
    c.removeOldest = .ok (l.items.getLast?.map (Prod.map id some), c') ∧
      Refines c' { l with items := l.items.dropLast } := by
  obtain ⟨es, h, rfl⟩ := h
  unfold BasicLRU.removeOldest
  rw [h.ring.last_eq]
  obtain rfl | ⟨es', ⟨p, k, v⟩, rfl⟩ := es.eq_nil_or_concat'
  case inl => exact ⟨c, rfl, [], h, rfl⟩
  case inr =>
    have h' : Holds c (es' ++ [(p, k, v)] ++ []) := by simpa using h
    obtain ⟨l, hl, -, hh⟩ := h'.drop
    have hk : c.list.v p = k := h.v (p, k, v) (by simp)
    have hi : c.items.get k = some ⟨p, v⟩ := (h.items k ⟨p, v⟩).mpr (by simp)
    refine ⟨_, ?_, _, hh, by simp⟩
    simp [hk, hi, hl, bind, Except.bind, pure, Except.pure]

theorem purge (h : Refines c l) : Refines c.purge { l with items := [] } := by
  obtain ⟨es, h, rfl⟩ := h
  refine ⟨[], ⟨Elems.Ring.empty _, by simp, by simp, ?_, fun p hp => ?_, by simp, h.cap⟩, rfl⟩
  case refine_1 => simp [BasicLRU.purge]
  case refine_2 => exact h.fresh p (by simp_all)

theorem call (h : Refines c l) (f : CacheCall K V) :
    ∃ c', c.call f = .ok ((f.apply l).fst, c') ∧ Refines c' (f.apply l).snd := by
  cases f
  case add k v =>
    obtain ⟨c', hc, h'⟩ := h.add (k := k) (v := v)
    exact ⟨c', by simp [BasicLRU.call, hc, CacheCall.apply], h'⟩
  case get k =>
    obtain ⟨c', hc, h'⟩ := h.get (k := k)
    exact ⟨c', by simp [BasicLRU.call, hc, CacheCall.apply], h'⟩
  case remove k =>
    obtain ⟨c', hc, h'⟩ := h.remove (k := k)
    exact ⟨c', by simp [BasicLRU.call, hc, CacheCall.apply], h'⟩
  case removeOldest =>
    obtain ⟨c', hc, h'⟩ := h.removeOldest
    exact ⟨c', by simp [BasicLRU.call, hc, CacheCall.apply], h'⟩
  case purge => exact ⟨c.purge, rfl, h.purge⟩
  case peek k =>
    obtain ⟨es, h', rfl⟩ := h
    refine ⟨c, ?_, es, h', rfl⟩
    simp only [BasicLRU.call, CacheCall.apply, BasicLRU.peek, h'.find, Option.map_map]
    rfl
  case contains k =>
    obtain ⟨es, h', rfl⟩ := h
    refine ⟨c, ?_, es, h', rfl⟩
    simp only [BasicLRU.call, CacheCall.apply, BasicLRU.contains, h'.any_eq]

end Refines

-- Whether a call counts as a use of a key, and the value that it adds for the key.
def CacheCall.uses (k : K) : CacheCall K V → Bool
  | .add key _ => key = k
  | .get key   => key = k
  | _          => false

def CacheCall.added (k : K) : CacheCall K V → Option V
  | .add key value => if key = k then some value else none
  | _              => none

-- The number of calls since the last use of a key.
def age (calls : List (CacheCall K V)) (k : K) : Nat :=
  calls.reverse.findIdx (CacheCall.uses k)

def lastAdded (calls : List (CacheCall K V)) (k : K) : Option V :=
  calls.reverse.findSome? (CacheCall.added k)

structure Recency (calls : List (CacheCall K V)) (items : List (K × V)) : Prop where
  order : items.Pairwise (age calls ·.fst < age calls ·.fst)
  value : ∀ e ∈ items, lastAdded calls e.fst = some e.snd

namespace Recency

variable {calls : List (CacheCall K V)} {f : CacheCall K V} {items items' : List (K × V)}

theorem age_concat : age (calls ++ [f]) k = if f.uses k then 0 else age calls k + 1 := by
  simp [age, findIdx_cons, Bool.cond_eq_ite]

theorem lastAdded_concat : lastAdded (calls ++ [f]) k = (f.added k).or (lastAdded calls k) := by
  simp [lastAdded, List.findSome?_cons]
  cases f.added k <;> rfl

theorem added_of_not_uses (h : f.uses k = false) : f.added k = none := by
  cases f <;> simp_all [CacheCall.uses, CacheCall.added]

theorem unused (h : Recency calls items) (hs : items'.Sublist items)
    (hu : ∀ e ∈ items', f.uses e.fst = false) : Recency (calls ++ [f]) items' where
  order := by
    refine (h.order.sublist hs).imp_of_mem fun ha hb hlt => ?_
    simpa [age_concat, hu _ ha, hu _ hb] using hlt
  value := by
    intro e he
    rw [lastAdded_concat, added_of_not_uses (hu e he), Option.none_or]
    exact h.value e (hs.subset he)

theorem used (h : Recency calls items) (hs : items'.Sublist items)
    (hu : ∀ e ∈ items', f.uses e.fst = false) (hk : f.uses k = true)
    (hv : lastAdded (calls ++ [f]) k = some v) : Recency (calls ++ [f]) ((k, v) :: items') where
  order := by
    refine pairwise_cons.mpr ⟨fun e he => ?_, (h.unused hs hu).order⟩
    simp [age_concat, hk, hu e he]
  value := forall_mem_cons.mpr ⟨hv, (h.unused hs hu).value⟩

theorem uses_filter (hf : ∀ k', f.uses k' = decide (k = k')) :
    ∀ e ∈ items.filter (·.fst ≠ k), f.uses e.fst = false := by
  intro e he
  rw [hf, decide_eq_false_iff_not]
  exact fun hc => of_decide_eq_true (mem_filter.mp he).right hc.symm

theorem add {l : Lru K V} (h : Recency calls l.items) :
    Recency (calls ++ [.add k v]) (l.add k v).items := by
  have hv : lastAdded (calls ++ [.add k v]) k = some v := by simp [lastAdded_concat, CacheCall.added]
  unfold Lru.add
  split
  case isTrue => exact h.used filter_sublist (uses_filter fun _ => rfl) (decide_eq_true rfl) hv
  case isFalse hn =>
    have hu : ∀ e ∈ l.items, CacheCall.uses e.fst (.add k v) = false := by
      intro e he
      rw [CacheCall.uses, decide_eq_false_iff_not]
      rintro rfl
      exact hn (any_eq_true.mpr ⟨e, he, decide_eq_true rfl⟩)
    split
    case isTrue  =>
      exact h.used (dropLast_sublist _) (fun e he => hu e (dropLast_subset _ he))
        (decide_eq_true rfl) hv
    case isFalse => exact h.used (List.Sublist.refl _) hu (decide_eq_true rfl) hv

theorem get {l : Lru K V} (h : Recency calls l.items) :
    Recency (calls ++ [.get k]) (l.get k).snd.items := by
  unfold Lru.get
  split
  case h_1 hn =>
    refine h.unused (List.Sublist.refl _) fun e he => ?_
    rw [CacheCall.uses, decide_eq_false_iff_not]
    rintro rfl
    exact List.find?_eq_none.mp hn e he (decide_eq_true rfl)
  case h_2 e he =>
    refine h.used filter_sublist (uses_filter fun _ => rfl) (decide_eq_true rfl) ?_
    rw [lastAdded_concat]
    exact h.value _ (Lru.mem_of_find he)

theorem apply {l : Lru K V} (h : Recency calls l.items) (f : CacheCall K V) :
    Recency (calls ++ [f]) (f.apply l).snd.items := by
  cases f
  case add          => exact h.add
  case get          => exact h.get
  case peek         => exact h.unused (List.Sublist.refl _) fun _ _ => rfl
  case contains     => exact h.unused (List.Sublist.refl _) fun _ _ => rfl
  case remove       => exact h.unused filter_sublist fun _ _ => rfl
  case removeOldest => exact h.unused (dropLast_sublist _) fun _ _ => rfl
  case purge        => exact h.unused (nil_sublist _) fun _ _ => rfl

end Recency

def BasicLRU.run (c : BasicLRU K V) (calls : List (CacheCall K V)) :
    Except GoPanic (List (CacheResult K V) × BasicLRU K V) :=
  calls.foldlM (fun s f => Prod.map (fun r => s.fst ++ [r]) id <$> s.snd.call f) ([], c)

def CacheCall.runs (l : Lru K V) (calls : List (CacheCall K V)) : List (CacheResult K V) × Lru K V :=
  calls.foldl (fun s f => Prod.map (fun r => s.fst ++ [r]) id (f.apply s.snd)) ([], l)

theorem Refines.empty [Inhabited K] (capacity : Int) :
    Refines (BasicLRU.newBasicLRU capacity) (Lru.empty capacity.toNat : Lru K V) := by
  refine ⟨[], ⟨Elems.Ring.empty _, by simp, by simp, ?_, ?_, by simp, ?_⟩, ?_⟩
  case refine_1 => simp [BasicLRU.newBasicLRU]
  case refine_2 => simp [BasicLRU.newBasicLRU]
  case refine_3 =>
    unfold BasicLRU.newBasicLRU
    grind
  case refine_4 =>
    unfold BasicLRU.newBasicLRU Lru.empty
    grind

theorem Refines.len_le {l : Lru K V} (h : Refines c l) : c.items.len ≤ l.cap := by
  obtain ⟨es, h, rfl⟩ := h
  exact h.len_eq.trans_le h.len

theorem CacheCall.cap_apply (l : Lru K V) (f : CacheCall K V) : (f.apply l).snd.cap = l.cap := by
  cases f <;> simp only [apply, Prod.map, Lru.add, Lru.get, Lru.touch, id] <;> grind

-- The linked list is the map whose entries are in the order of their keys' last uses.
theorem refines_recency_map [Inhabited K] (capacity : Int) (calls : List (CacheCall K V)) :
    ∃ rs c l, (BasicLRU.newBasicLRU capacity).run calls = .ok (rs, c) ∧
      CacheCall.runs (Lru.empty capacity.toNat) calls = (rs, l) ∧ Refines c l ∧
      Recency calls l.items ∧ l.cap = max capacity.toNat 1 ∧ c.items.len ≤ l.cap := by
  suffices h : ∃ rs c l, (BasicLRU.newBasicLRU capacity).run calls = .ok (rs, c) ∧
      CacheCall.runs (Lru.empty capacity.toNat) calls = (rs, l) ∧ Refines c l ∧
      Recency calls l.items ∧ l.cap = max capacity.toNat 1 by
    obtain ⟨rs, c, l, hc, hl, h, hr, hm⟩ := h
    exact ⟨rs, c, l, hc, hl, h, hr, hm, h.len_le⟩
  induction calls using List.reverseRecOn
  case nil => exact ⟨[], _, _, rfl, rfl, Refines.empty capacity, ⟨.nil, by simp [Lru.empty]⟩, rfl⟩
  case append_singleton calls f hi =>
    obtain ⟨rs, c, l, hc, hl, h, hr, hm⟩ := hi
    obtain ⟨c', hf, h'⟩ := h.call f
    refine ⟨rs ++ [(f.apply l).fst], c', (f.apply l).snd, ?_, ?_, h', hr.apply f, (f.cap_apply l).trans hm⟩
    case refine_1 =>
      rw [BasicLRU.run, foldlM_append]
      refine (Loop.bind_of_eq_ok hc).trans ?_
      simp [hf, bind, Except.bind, pure, Except.pure]
    case refine_2 =>
      unfold CacheCall.runs at hl ⊢
      rw [foldl_append, hl]
      rfl

end Common
