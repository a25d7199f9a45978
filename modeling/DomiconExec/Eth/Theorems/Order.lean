import DomiconExec.Eth.Theorems.Itemwise

namespace Eth

open List
open FilePool (Ref Heap)

variable {heap : Heap} {known : KnownCache} {fd : Ref} {refs refs' : List Ref}
variable {fds fds' : List (Option Ref)}

-- What `handleFileDatas` does before it calls the backend: the hashes that it marks, its own error,
-- and the data that it hands over.
structure Receipt where
  marks : List Hash
  err : Option GoError
  handed : List Ref

def receive (heap : Heap) (known : KnownCache) : List (Option Ref) → Except GoPanic Receipt
  | [] => .error .indexOutOfRange
  | none :: _ => .error .nilDereference
  | some fd :: rest =>
    let da := heap fd
    let fds := some fd :: rest
    if da.txHash = .zero ∧ da.commitIsEmpty then
      .ok ⟨[], some errDADataIllegal, []⟩
    else if isKnown known da then
      .ok ⟨[], none, []⟩
    else
      let (marks, err) := validateFileDatas heap da.commitIsEmpty 0 fds
      .ok ⟨marks, err, if err.isSome then [] else fds.reduceOption⟩

def deliver (ctx : Context) (b : Backend) (peer : Peer) (r : Receipt) : Except GoPanic Result :=
  if r.handed = [] then
    .ok ⟨peer.markFileDatas ctx r.marks, b, none, none, r.err⟩
  else
    handle ctx b (peer.markFileDatas ctx r.marks) (.fileData r.handed)

theorem handleFileDatas_eq {ctx : Context} {b : Backend} {peer : Peer} :
    handleFileDatas ctx b peer fds =
      receive ctx.heap peer.knownFds fds >>= deliver ctx b peer := by
  rcases fds with _ | ⟨_ | fd, rest⟩
  case nil       => rfl
  case cons.none => rfl
  case cons.some =>
    simp only [handleFileDatas, receive]
    split
    case isTrue => rfl
    case isFalse =>
      split
      case isTrue => rfl
      case isFalse =>
        cases he : (validateFileDatas ctx.heap (ctx.heap fd).commitIsEmpty 0 (some fd :: rest)).snd
        case some err => rfl
        case none     => rfl

theorem validateFileDatas_map {c : Bool} {i : Nat} :
    validateFileDatas heap c i (refs.map some) = sendFileDatas c (refs.map heap) := by
  induction refs generalizing c i
  case nil => rfl
  case cons fd refs hi => simp only [map_cons, validateFileDatas, sendFileDatas, hi]

theorem reduceOption_map_some {α : Type} (l : List α) : (l.map some).reduceOption = l :=
  filterMap_map.trans List.filterMap_some

theorem receive_of_not_isLegal {rest : List (Option Ref)} (h : ¬(heap fd).IsLegal) :
    receive heap known (some fd :: rest) = .ok ⟨[], some errDADataIllegal, []⟩ :=
  if_pos (not_not.mp h)

theorem receive_of_isKnown {rest : List (Option Ref)} (hl : (heap fd).IsLegal)
    (hk : isKnown known (heap fd)) : receive heap known (some fd :: rest) = .ok ⟨[], none, []⟩ :=
  (if_neg hl).trans (if_pos hk)

-- Initially `commitIsEmpty` is that of the first element, which makes no difference.
theorem receive_of_not_isKnown (hl : (heap fd).IsLegal) (hk : ¬isKnown known (heap fd)) :
    receive heap known ((fd :: refs).map some) =
      .ok ⟨(sendFileDatas false ((fd :: refs).map heap)).fst,
        (sendFileDatas false ((fd :: refs).map heap)).snd,
        if (sendFileDatas false ((fd :: refs).map heap)).snd.isSome then [] else fd :: refs⟩ := by
  have hc : sendFileDatas (heap fd).commitIsEmpty ((fd :: refs).map heap) =
      sendFileDatas false ((fd :: refs).map heap) := by
    simp only [map_cons, sendFileDatas, Bool.or_self, Bool.false_or]
  have h : receive heap known ((fd :: refs).map some) = _ := (if_neg hl).trans (if_neg hk)
  rw [← map_cons, validateFileDatas_map, reduceOption_map_some, hc] at h
  exact h

-- Both packets lead to an error or none does, and they mark the same hashes and hand over the same
-- data.
structure Alike (r r' : Receipt) : Prop where
  err : r.err.isSome ↔ r'.err.isSome
  marks : ∀ hash, hash ∈ r.marks ↔ hash ∈ r'.marks
  handed : ∀ fd, fd ∈ r.handed ↔ fd ∈ r'.handed

-- A crash is not made up for by another order.
inductive Same : Except GoPanic Receipt → Except GoPanic Receipt → Prop
  | panic {p p' : GoPanic} : Same (.error p) (.error p')
  | ok {r r' : Receipt} : Alike r r' → Same (.ok r) (.ok r')

theorem Same.of_common {x y z : Except GoPanic Receipt} (h : Same x y) (h' : Same x z) :
    Same y z := by
  cases h
  case panic =>
    cases h'
    exact .panic
  case ok r y h =>
    cases h'
    case ok z h' =>
      refine .ok ⟨h.err.symm.trans h'.err, fun hash => ?_, fun fd => ?_⟩
      case refine_1 => exact (h.marks hash).symm.trans (h'.marks hash)
      case refine_2 => exact (h.handed fd).symm.trans (h'.handed fd)

theorem Same.alike {r r' : Receipt} (h : Same (.ok r) (.ok r')) : Alike r r' := by
  cases h
  assumption

-- The order does not matter, and all data that the peer is not known to have gets to the backend if
-- the packet is accepted.
structure OrderFree (heap : Heap) (known : KnownCache) (fds : List (Option Ref)) : Prop where
  same : ∀ fds', fds.Perm fds' → Same (receive heap known fds) (receive heap known fds')
  reached : ∀ r, receive heap known fds = .ok r → r.err = none → ∀ fd, some fd ∈ fds →
    (∀ hash ∈ (heap fd).hashes, ¬known.contains hash) → fd ∈ r.handed

-- The packets whose elements are all of the same kind.
inductive Uniform (heap : Heap) (known : KnownCache) : List (Option Ref) → Prop
  | nil {fds : List (Option Ref)} : (∀ x ∈ fds, x = none) → Uniform heap known fds
  | illegal {refs : List Ref} : (∀ fd ∈ refs, ¬(heap fd).IsLegal) →
    Uniform heap known (refs.map some)
  | known {refs : List Ref} : (∀ fd ∈ refs, isKnown known (heap fd)) →
    Uniform heap known (refs.map some)
  | commits {refs : List Ref} :
    (∀ fd ∈ refs, ¬isKnown known (heap fd) ∧ ¬(heap fd).commitIsEmpty) →
    Uniform heap known (refs.map some)
  -- All hashes of commitments are those of transactions as well.
  | transactions {refs : List Ref} :
    (∀ fd ∈ refs, ¬isKnown known (heap fd) ∧ (heap fd).txHash ≠ .zero ∧
      (¬(heap fd).commitIsEmpty → ∃ g ∈ refs, (heap fd).commitment.hash = (heap g).txHash)) →
    Uniform heap known (refs.map some)

theorem not_isKnown_of_hashes {da : DA} (h : ∀ hash ∈ da.hashes, ¬known.contains hash) :
    ¬isKnown known da := by
  intro hk
  obtain ⟨hc, hm | ⟨ht, hm⟩⟩ := isKnown_iff.mp hk
  case inl => exact h _ (DA.mem_hashes.mpr (.inl ⟨hc, rfl⟩)) (decide_eq_true hm)
  case inr => exact h _ (DA.mem_hashes.mpr (.inr ⟨ht, rfl⟩)) (decide_eq_true hm)

theorem exists_map_some (h : (refs.map some).Perm fds) :
    ∃ refs', refs.Perm refs' ∧ fds = refs'.map some := by
  have hp : Relation.Comp (· = List.map some ·) List.Perm fds refs := by
    rw [eq_map_comp_perm]
    exact h.symm
  obtain ⟨refs', rfl, hr⟩ := hp
  exact ⟨refs', hr.symm, rfl⟩

theorem exists_map_some_of_not_mem (h : none ∉ fds) : ∃ refs : List Ref, fds = refs.map some := by
  induction fds
  case nil => exact ⟨[], rfl⟩
  case cons x fds hi =>
    rw [mem_cons, not_or] at h
    obtain ⟨fd, rfl⟩ := Option.ne_none_iff_exists'.mp (Ne.symm h.left)
    obtain ⟨refs, rfl⟩ := hi h.right
    exact ⟨fd :: refs, rfl⟩

-- Once all elements of a packet are looked at, the outcome depends on the hashes only.
theorem receive_of_separate (hn : refs ≠ []) (hk : ∀ fd ∈ refs, ¬isKnown known (heap fd))
    (h : Separate (refs.map heap)) : ∃ marks,
      receive heap known (refs.map some) = .ok ⟨marks, none, refs⟩ ∧
      ∀ hash, hash ∈ marks ↔ ∃ fd ∈ refs, hash ∈ (heap fd).hashes := by
  obtain ⟨fd, refs, rfl⟩ := exists_cons_of_ne_nil hn
  have hl := isLegal_of_sendFileDatas h.sendFileDatas (heap fd) List.mem_cons_self
  have hr := @receive_of_not_isKnown heap known fd refs hl (hk fd mem_cons_self)
  have hm := (sends_of_separate h).marks
  rw [h.sendFileDatas] at hr
  refine ⟨_, hr, fun hash => ?_⟩
  rw [hm, and_iff_right h.sendFileDatas]
  simp only [mem_map, exists_exists_and_eq_and]

theorem separate_of_commits (h : ∀ fd ∈ refs, ¬(heap fd).commitIsEmpty) :
    Separate (refs.map heap) := by
  have hs : sticky (refs.map heap) = [] := by
    refine dropWhile_eq_nil_iff.mpr fun da hd => ?_
    obtain ⟨fd, hf, rfl⟩ := mem_map.mp hd
    simpa using h fd hf
  rw [Separate, hs]
  exact forall_mem_nil _

theorem separate_of_transactions (h : ∀ fd ∈ refs, (heap fd).txHash ≠ .zero ∧
    (¬(heap fd).commitIsEmpty → ∃ g ∈ refs, (heap fd).commitment.hash = (heap g).txHash)) :
    Separate (refs.map heap) := by
  intro da hd
  obtain ⟨fd, hf, rfl⟩ := mem_map.mp (mem_plain_or_sticky.mpr (.inr hd))
  refine ⟨(h fd hf).left, fun hc => ?_⟩
  obtain ⟨g, hg, he⟩ := (h fd hf).right hc
  obtain hm | hm := mem_plain_or_sticky.mp (mem_map_of_mem (f := heap) hg)
  case inl => exact .inl ⟨heap g, hm, DA.mem_hashes.mpr (.inr ⟨(h g hg).left, he⟩)⟩
  case inr => exact .inr ⟨heap g, hm, he⟩

theorem orderFree_of_alike {r₀ : Receipt} (h : ∀ refs', refs.Perm refs' → refs' ≠ [] →
      ∃ r, receive heap known (refs'.map some) = .ok r ∧ Alike r₀ r)
    (hr : r₀.err = none → ∀ fd ∈ refs, (∀ hash ∈ (heap fd).hashes, ¬known.contains hash) →
      fd ∈ r₀.handed) : OrderFree heap known (refs.map some) := by
  constructor
  case same =>
    intro fds' hf
    obtain ⟨refs', hp, rfl⟩ := exists_map_some hf
    by_cases hn : refs = []
    case pos =>
      subst hn
      rw [hp.nil_eq.symm]
      exact .panic
    case neg =>
      obtain ⟨r, hr, ha⟩ := h refs (.refl refs) hn
      obtain ⟨r', hr', ha'⟩ := h refs' hp fun he => hn (he ▸ hp).eq_nil
      rw [hr, hr']
      exact (Same.ok ha).of_common (.ok ha')
  case reached =>
    intro r he hn fd hf hk
    have hf : fd ∈ refs := by simpa using hf
    obtain ⟨r', hr', ha⟩ := h refs (.refl refs) (ne_nil_of_mem hf)
    cases he.symm.trans hr'
    have hn : r₀.err = none := by simpa [hn] using ha.err
    exact (ha.handed fd).mp (hr hn fd hf hk)

theorem orderFree_of_separate (hk : ∀ fd ∈ refs, ¬isKnown known (heap fd))
    (h : ∀ refs', refs.Perm refs' → Separate (refs'.map heap)) :
    OrderFree heap known (refs.map some) := by
  refine @orderFree_of_alike _ _ _ ⟨refs.flatMap fun fd => (heap fd).hashes, none, refs⟩
    (fun refs' hp hn => ?_) fun _ _ hf _ => hf
  obtain ⟨marks, hr, hm⟩ :=
    receive_of_separate hn (fun fd hf => hk fd (hp.mem_iff.mpr hf)) (h refs' hp)
  refine ⟨_, hr, .rfl, fun hash => ?_, fun fd => hp.mem_iff⟩
  rw [hm, mem_flatMap]
  exact exists_congr fun fd => and_congr_left' hp.mem_iff

theorem Uniform.orderFree (h : Uniform heap known fds) : OrderFree heap known fds := by
  cases h
  case nil h =>
    have he {fds' : List (Option Ref)} (h : ∀ x ∈ fds', x = none) :
        ∃ p, receive heap known fds' = .error p := by
      rcases fds' with _ | ⟨x, fds'⟩
      case nil  => exact ⟨_, rfl⟩
      case cons => exact (h x mem_cons_self) ▸ ⟨_, rfl⟩
    obtain ⟨p, hp⟩ := he h
    constructor
    case same =>
      intro fds' hf
      obtain ⟨p', hp'⟩ := he fun x hx => h x (hf.mem_iff.mpr hx)
      rw [hp, hp']
      exact .panic
    case reached => exact fun r hr => absurd (hp.symm.trans hr) (by simp)
  case illegal refs h =>
    refine @orderFree_of_alike _ _ _ ⟨[], some errDADataIllegal, []⟩ (fun refs' hp hn => ?_)
      fun he => absurd he (by simp)
    obtain ⟨fd, rest, rfl⟩ := exists_cons_of_ne_nil hn
    have hl := h fd (hp.mem_iff.mpr mem_cons_self)
    exact ⟨_, receive_of_not_isLegal hl, .rfl, fun _ => .rfl, fun _ => .rfl⟩
  case known refs h =>
    refine @orderFree_of_alike _ _ _ ⟨[], none, []⟩ (fun refs' hp hn => ?_) fun _ fd hf hk => ?_
    case refine_1 =>
      obtain ⟨fd, rest, rfl⟩ := exists_cons_of_ne_nil hn
      have hk := h fd (hp.mem_iff.mpr mem_cons_self)
      have hl := DA.isLegal_of_commit (isKnown_iff.mp hk).commit
      exact ⟨_, receive_of_isKnown hl hk, .rfl, fun _ => .rfl, fun _ => .rfl⟩
    case refine_2 =>
      exact absurd (h fd hf) (not_isKnown_of_hashes hk)
  case commits refs h =>
    refine orderFree_of_separate (fun fd hf => (h fd hf).left) fun refs' hp => ?_
    exact separate_of_commits fun fd hf => (h fd (hp.mem_iff.mpr hf)).right
  case transactions refs h =>
    refine orderFree_of_separate (fun fd hf => (h fd hf).left) fun refs' hp => ?_
    refine separate_of_transactions fun fd hf => ?_
    obtain ⟨-, ht, hg⟩ := h fd (hp.mem_iff.mpr hf)
    refine ⟨ht, fun hc => ?_⟩
    obtain ⟨g, hg, he⟩ := hg hc
    exact ⟨g, hp.mem_iff.mp hg, he⟩

theorem perm_cons_of_mem {α : Type} {l : List α} {a : α} (h : a ∈ l) : ∃ l', l.Perm (a :: l') := by
  obtain ⟨l₁, l₂, rfl⟩ := append_of_mem h
  exact ⟨l₁ ++ l₂, perm_middle⟩

theorem OrderFree.forall_nil (h : OrderFree heap known fds) (hn : none ∈ fds) :
    ∀ x ∈ fds, x = none := by
  rintro (_ | fd) hx
  case none => rfl
  case some =>
    obtain ⟨l, hl⟩ := perm_cons_of_mem hn
    obtain ⟨l', hl'⟩ := perm_cons_of_mem hx
    have hs := (h.same _ hl).of_common (h.same _ hl')
    have hp : receive heap known (none :: l) = .error .nilDereference := rfl
    obtain ⟨r, hr⟩ : ∃ r, receive heap known (some fd :: l') = .ok r := by
      rw [receive]
      split
      case isTrue  => exact ⟨_, rfl⟩
      case isFalse => split <;> exact ⟨_, rfl⟩
    rw [hp, hr] at hs
    cases hs

theorem OrderFree.same_of_perm {l l' : List Ref} (h : OrderFree heap known (refs.map some))
    (hl : refs.Perm l) (hl' : refs.Perm l') :
    Same (receive heap known (l.map some)) (receive heap known (l'.map some)) :=
  (h.same _ (hl.map some)).of_common (h.same _ (hl'.map some))

-- Data that is neither illegal nor known leaves a mark at the beginning of a packet.
theorem receive_marks_ne_nil (hl : (heap fd).IsLegal) (hk : ¬isKnown known (heap fd)) :
    ∃ r, receive heap known ((fd :: refs).map some) = .ok r ∧ r.marks ≠ [] :=
  ⟨_, receive_of_not_isKnown hl hk, sendFileDatas_cons_ne_nil hl⟩

theorem Alike.not_of_nil {r r' : Receipt} (h : Alike r r') (hn : r.marks = []) : r'.marks = [] :=
  eq_nil_iff_forall_not_mem.mpr fun hash hm => not_mem_nil (hn ▸ (h.marks hash).mpr hm)

theorem OrderFree.forall_illegal (h : OrderFree heap known (refs.map some)) (hf : fd ∈ refs)
    (hl : ¬(heap fd).IsLegal) : ∀ fd ∈ refs, ¬(heap fd).IsLegal := by
  intro fd' hf' hl'
  obtain ⟨rest, hp⟩ := perm_cons_of_mem hf
  obtain ⟨rest', hp'⟩ := perm_cons_of_mem hf'
  have hs := h.same_of_perm hp hp'
  rw [map_cons, receive_of_not_isLegal hl] at hs
  by_cases hk : isKnown known (heap fd')
  case pos =>
    rw [map_cons, receive_of_isKnown hl' hk] at hs
    exact absurd hs.alike.err (by simp)
  case neg =>
    obtain ⟨r, hr, hm⟩ := @receive_marks_ne_nil _ _ _ rest' hl' hk
    rw [hr] at hs
    exact hm (hs.alike.not_of_nil rfl)

theorem OrderFree.forall_known (h : OrderFree heap known (refs.map some)) (hf : fd ∈ refs)
    (hk : isKnown known (heap fd)) (hl : ∀ fd ∈ refs, (heap fd).IsLegal) :
    ∀ fd ∈ refs, isKnown known (heap fd) := by
  intro fd' hf'
  by_contra hk'
  obtain ⟨rest, hp⟩ := perm_cons_of_mem hf
  obtain ⟨rest', hp'⟩ := perm_cons_of_mem hf'
  have hs := h.same_of_perm hp hp'
  obtain ⟨r, hr, hm⟩ := @receive_marks_ne_nil _ _ _ rest' (hl fd' hf') hk'
  rw [map_cons, receive_of_isKnown (hl fd hf) hk, hr] at hs
  exact hm (hs.alike.not_of_nil rfl)

-- The order in which nothing goes wrong: the data without a commitment comes last.
def sorted (heap : Heap) (refs : List Ref) : List Ref :=
  refs.filter (fun fd => !(heap fd).commitIsEmpty) ++ refs.filter fun fd => (heap fd).commitIsEmpty

theorem perm_sorted : refs.Perm (sorted heap refs) := by
  have hp := filter_append_perm (fun fd => !(heap fd).commitIsEmpty) refs
  simp only [Bool.not_not] at hp
  exact hp.symm

theorem separate_sorted (hl : ∀ fd ∈ refs, (heap fd).IsLegal) :
    Separate ((sorted heap refs).map heap) := by
  intro da hd
  have hp : ∀ da ∈ (refs.filter fun fd => !(heap fd).commitIsEmpty).map heap,
      !da.commitIsEmpty := by
    intro da hd
    obtain ⟨fd, hf, rfl⟩ := mem_map.mp hd
    exact (mem_filter.mp hf).right
  rw [sorted, map_append, sticky, dropWhile_append_of_pos hp] at hd
  have hc := (dropWhile_sublist _).subset hd
  obtain ⟨fd, hf, rfl⟩ := mem_map.mp hc
  obtain ⟨hf, he⟩ := mem_filter.mp hf
  exact ⟨fun ht => hl fd hf ⟨ht, he⟩, fun hc => absurd he hc⟩

-- What has to hold if there is data without a commitment, which may come first.
theorem OrderFree.transactions (h : OrderFree heap known (refs.map some))
    (hl : ∀ fd ∈ refs, (heap fd).IsLegal) (hk : ∀ fd ∈ refs, ¬isKnown known (heap fd))
    (hf : fd ∈ refs) (hc : (heap fd).commitIsEmpty) : ∀ fd ∈ refs, (heap fd).txHash ≠ .zero ∧
      (¬(heap fd).commitIsEmpty → ∃ g ∈ refs, (heap fd).commitment.hash = (heap g).txHash) := by
  obtain ⟨rest, hp⟩ := perm_cons_of_mem hf
  have hs := h.same_of_perm hp (@perm_sorted heap refs)
  have hn : sorted heap refs ≠ [] := ne_nil_of_mem (perm_sorted.mem_iff.mp hf)
  obtain ⟨marks, hr, hm⟩ := receive_of_separate hn
    (fun fd hf => hk fd (perm_sorted.mem_iff.mpr hf)) (separate_sorted hl)
  rw [hr, receive_of_not_isKnown (hl fd hf) (hk fd hf)] at hs
  have he : (sendFileDatas false ((fd :: rest).map heap)).snd = none := by
    simpa using hs.alike.err
  have ht : sticky ((fd :: rest).map heap) = (fd :: rest).map heap :=
    dropWhile_cons_of_neg (by simpa using hc)
  have hq : plain ((fd :: rest).map heap) = [] :=
    takeWhile_cons_of_neg (by simpa using hc)
  intro fd' hf'
  constructor
  case left =>
    have hd := mem_map_of_mem (f := heap) (hp.mem_iff.mp hf')
    rw [← ht] at hd
    exact sendFileDatas_snd.mp he _ hd
  case right =>
    intro hc'
    have hh := (hm (heap fd').commitment.hash).mpr ⟨fd', perm_sorted.mem_iff.mp hf',
      DA.mem_hashes.mpr (.inl ⟨hc', rfl⟩)⟩
    have hh := (hs.alike.marks _).mpr hh
    rw [mem_sendFileDatas he, hq, ht] at hh
    obtain ⟨da, hd, -⟩ | ⟨da, hd, hh⟩ := hh
    case inl => contradiction
    case inr =>
      obtain ⟨g, hg, rfl⟩ := mem_map.mp hd
      exact ⟨g, hp.mem_iff.mpr hg, hh⟩

theorem OrderFree.uniform (h : OrderFree heap known fds) : Uniform heap known fds := by
  by_cases hn : none ∈ fds
  case pos => exact .nil (h.forall_nil hn)
  case neg =>
    obtain ⟨refs, rfl⟩ := exists_map_some_of_not_mem hn
    by_cases hl : ∀ fd ∈ refs, (heap fd).IsLegal
    case neg =>
      push Not at hl
      obtain ⟨fd, hf, hl⟩ := hl
      exact .illegal (h.forall_illegal hf hl)
    case pos =>
      by_cases hk : ∀ fd ∈ refs, ¬isKnown known (heap fd)
      case neg =>
        push Not at hk
        obtain ⟨fd, hf, hk⟩ := hk
        exact .known (h.forall_known hf hk hl)
      case pos =>
        by_cases hc : ∀ fd ∈ refs, ¬(heap fd).commitIsEmpty
        case pos => exact .commits fun fd hf => ⟨hk fd hf, hc fd hf⟩
        case neg =>
          push Not at hc
          obtain ⟨fd, hf, hc⟩ := hc
          exact .transactions fun g hg => ⟨hk g hg, h.transactions hl hk hf hc g hg⟩

-- The order of a packet does not matter if and only if its elements are all of the same kind.
theorem orderFree_iff (heap : Heap) (known : KnownCache) (fds : List (Option Ref)) :
    OrderFree heap known fds ↔ Uniform heap known fds :=
  ⟨OrderFree.uniform, Uniform.orderFree⟩

-- Data without a commitment and data without a transaction, where the latter may only come first.
theorem not_forall_orderFree :
    ¬∀ (heap : Heap) (known : KnownCache) (fds : List (Option Ref)), OrderFree heap known fds := by
  intro h
  let heap : Heap := fun fd => if fd = 0 then bare else pledge
  have ho := h heap (.newKnownCache maxKnownFds) ([0, 1].map some)
  have hl : ∀ fd ∈ [0, 1], (heap fd).IsLegal := by decide
  have hk : ∀ fd ∈ [0, 1], ¬isKnown (.newKnownCache maxKnownFds) (heap fd) := by decide
  have ht := ho.transactions hl hk mem_cons_self rfl 1 (by simp)
  exact ht.left rfl

end Eth
