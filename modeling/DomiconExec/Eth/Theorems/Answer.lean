import Mathlib.Data.List.TakeWhile
import DomiconExec.Eth.Serve
import DomiconExec.Eth.Theorems.Queries

namespace Eth

open List Db

variable {ctx : Context} {b : Backend} {query : List Hash} {hash : Hash}
variable {l : List (Hash × Bytes)}

def serve (hash : Hash) : Option DA → Option (Hash × Bytes)
  | none => none
  | some da =>
    match da.encode with
    | .error _    => none
    | .ok encoded => some (hash, encoded)

theorem serve_eq_some_iff {da : Option DA} {p : Hash × Bytes} :
    serve hash da = some p ↔ hash = p.fst ∧ ∃ fd, da = some fd ∧ fd.encode = .ok p.snd := by
  cases da
  case none    => simp [serve]
  case some fd =>
    cases he : fd.encode <;> simp [serve, he, Prod.ext_iff]

def found (ctx : Context) (b : Backend) (hash : Hash) : Option DA :=
  match getDA ctx b hash with
  | .ok da   => da
  | .error _ => none

def served (ctx : Context) (b : Backend) (hash : Hash) : Option (Hash × Bytes) :=
  serve hash (found ctx b hash)

theorem getDA_eq_found (h : ∃ r, getDA ctx b hash = .ok r) :
    getDA ctx b hash = .ok (found ctx b hash) := by
  obtain ⟨r, h⟩ := h
  rw [found, h]

theorem answer_cons {da : Option DA} (hz : hash ≠ .zero) (h : getDA ctx b hash = .ok da) :
    answer ctx b (hash :: query) l = answer ctx b query (l ++ (serve hash da).toList) := by
  rw [answer, if_neg hz, Loop.bind_of_eq_ok h]
  cases da
  case none => exact congrArg _ (append_nil l).symm
  case some da =>
    cases he : da.encode
    case error => simp [serve, he]
    case ok    => simp [serve, he]

-- A zero hash discards what was found.
theorem answer_of_zero (h : .zero ∈ query)
    (hq : ∀ hash ∈ query.takeWhile (· ≠ .zero), ∃ r, getDA ctx b hash = .ok r) :
    answer ctx b query l = .ok [] := by
  induction query generalizing l
  case nil => contradiction
  case cons hash query hi =>
    by_cases hz : hash = .zero
    case pos => rw [answer, if_pos hz]
    case neg =>
      rw [takeWhile_cons_of_pos (by simpa using hz), forall_mem_cons] at hq
      rw [answer_cons hz (getDA_eq_found hq.left)]
      exact hi (mem_of_ne_of_mem (Ne.symm hz) h) hq.right

theorem answer_of_not_zero (h : .zero ∉ query)
    (hq : ∀ hash ∈ query, ∃ r, getDA ctx b hash = .ok r) :
    answer ctx b query l = .ok (l ++ query.filterMap (served ctx b)) := by
  induction query generalizing l
  case nil => rw [answer, filterMap_nil, append_nil]
  case cons hash query hi =>
    rw [mem_cons, not_or] at h
    rw [forall_mem_cons] at hq
    rw [answer_cons (Ne.symm h.left) (getDA_eq_found hq.left), hi h.right hq.right,
      filterMap_cons, ← served]
    cases served ctx b hash <;> simp

def replySize (l : List (Hash × Bytes)) : Nat :=
  (l.map (·.snd.length)).sum

-- The hashes and encodings of a reply within a limit.
structure Bounded (limit : Nat) (ctx : Context) (b : Backend) (query : List Hash)
    (l : List (Hash × Bytes)) : Prop where
  held : ∀ p ∈ l, ∃ fd, b.pool.all.get p.fst = some fd ∧ (ctx.heap fd).encode = .ok p.snd
  sublist : (l.map Prod.fst).Sublist query
  size : replySize l.dropLast < limit

def pooled (ctx : Context) (b : Backend) (hash : Hash) : Option (Hash × Bytes) :=
  serve hash ((b.pool.all.get hash).map ctx.heap)

def FromPool (ctx : Context) (b : Backend) (hash : Hash) : Prop :=
  b.pool.all.get hash = none → ∀ da, getCommitmentByTxHash ctx.setBytes b.das hash = .ok (.ok da) →
    ∀ encoded, da.encode ≠ .ok encoded

theorem found_of_get {fd : FilePool.Ref} (h : b.pool.all.get hash = some fd) :
    found ctx b hash = some (ctx.heap fd) := by
  rw [found, getDA, h]

theorem served_eq_pooled (hq : ∃ r, getDA ctx b hash = .ok r) (h : FromPool ctx b hash) :
    served ctx b hash = pooled ctx b hash := by
  unfold served pooled
  cases hp : b.pool.all.get hash
  case some fd => rw [found_of_get hp, Option.map_some]
  case none =>
    refine Option.eq_none_iff_forall_ne_some.mpr fun p hs => ?_
    obtain ⟨-, da, hd, he⟩ := serve_eq_some_iff.mp hs
    have hg := (getDA_eq_found hq).trans (congrArg Except.ok hd)
    obtain ⟨fd, hf, -⟩ | ⟨-, hc⟩ := getDA_eq_some_iff.mp hg
    case inl => exact absurd (hp.symm.trans hf) (by simp)
    case inr => exact h hp da hc p.snd he

theorem pooled_eq_some {p : Hash × Bytes} (h : pooled ctx b hash = some p) : hash = p.fst ∧
    ∃ fd, b.pool.all.get p.fst = some fd ∧ (ctx.heap fd).encode = .ok p.snd := by
  obtain ⟨rfl, da, hd, he⟩ := serve_eq_some_iff.mp h
  obtain ⟨fd, hf, rfl⟩ := Option.map_eq_some_iff.mp hd
  exact ⟨rfl, fd, hf, he⟩

theorem sublist_filterMap {f : Hash → Option (Hash × Bytes)}
    (h : ∀ hash p, f hash = some p → hash = p.fst) :
    ((query.filterMap f).map Prod.fst).Sublist query := by
  induction query
  case nil => exact List.Sublist.slnil
  case cons hash query hi =>
    rw [filterMap_cons]
    cases hf : f hash
    case none   => exact hi.cons hash
    case some p =>
      rw [map_cons, ← h hash p hf]
      exact hi.cons_cons hash

theorem bounded_nil {limit : Nat} (h : 0 < limit) : Bounded limit ctx b query [] where
  held := forall_mem_nil _
  sublist := nil_sublist query
  size := h

theorem answer_eq_pooled (h : .zero ∉ query) (hq : ∀ hash ∈ query, ∃ r, getDA ctx b hash = .ok r)
    (hf : ∀ hash ∈ query, FromPool ctx b hash) :
    answerGetPooledFileDatas ctx b query = .ok (query.filterMap (pooled ctx b)) := by
  rw [answerGetPooledFileDatas, answer_of_not_zero h hq, nil_append]
  refine congrArg _ (filterMap_congr fun hash hm => ?_)
  exact served_eq_pooled (hq hash hm) (hf hash hm)

-- Data from the table would be part of the reply.
theorem Bounded.fromPool {limit : Nat} (hb : Bounded limit ctx b query l) (h : .zero ∉ query)
    (hq : ∀ hash ∈ query, ∃ r, getDA ctx b hash = .ok r)
    (hl : answerGetPooledFileDatas ctx b query = .ok l) : ∀ hash ∈ query, FromPool ctx b hash := by
  intro hash hm hp da hc encoded he
  have hg : getDA ctx b hash = .ok (some da) := getDA_eq_some_iff.mpr (.inr ⟨hp, hc⟩)
  have hd : found ctx b hash = some da := Except.ok.inj ((getDA_eq_found (hq hash hm)).symm.trans hg)
  rw [answerGetPooledFileDatas, answer_of_not_zero h hq, nil_append] at hl
  have hs : served ctx b hash = some (hash, encoded) :=
    serve_eq_some_iff.mpr ⟨rfl, da, hd, he⟩
  have hml := mem_filterMap.mpr ⟨hash, hm, hs⟩
  rw [Except.ok.inj hl] at hml
  obtain ⟨fd, hf, -⟩ := hb.held _ hml
  exact absurd (hp.symm.trans hf) (by simp)

-- There is no other limit than what the pool holds.
theorem bounded_iff (ctx : Context) (b : Backend) (query : List Hash) :
    (∃ l, answerGetPooledFileDatas ctx b query = .ok l ∧
      Bounded fileDataSoftResponseLimit ctx b query l) ↔
    (∀ hash ∈ query.takeWhile (· ≠ .zero), (b.pool.all.get hash).isSome ∨
      ∀ r, b.das.rows.find? (·.txHash = hash.hex) = some r → ¬Unloadable ctx.setBytes r) ∧
    (.zero ∉ query → (∀ hash ∈ query, FromPool ctx b hash) ∧
      replySize (query.filterMap (pooled ctx b)).dropLast < fileDataSoftResponseLimit) := by
  simp only [← getDA_ok_iff]
  have hz (h : .zero ∉ query) : query.takeWhile (· ≠ .zero) = query := by
    refine takeWhile_eq_self_iff.mpr fun hash hm => decide_eq_true ?_
    exact fun he => h (he ▸ hm)
  constructor
  case mp =>
    rintro ⟨l, hl, hb⟩
    have hq := answer_ok_iff.mp ⟨l, hl⟩
    refine ⟨hq, fun h => ?_⟩
    rw [hz h] at hq
    have hf := hb.fromPool h hq hl
    rw [answer_eq_pooled h hq hf] at hl
    exact ⟨hf, Except.ok.inj hl ▸ hb.size⟩
  case mpr =>
    rintro ⟨hq, h⟩
    by_cases hm : .zero ∈ query
    case pos => exact ⟨[], answer_of_zero hm hq, bounded_nil (by decide)⟩
    case neg =>
      rw [hz hm] at hq
      obtain ⟨hf, hs⟩ := h hm
      refine ⟨_, answer_eq_pooled hm hq hf, ?_, ?_, hs⟩
      case refine_1 =>
        intro p hp
        obtain ⟨hash, -, hp⟩ := mem_filterMap.mp hp
        exact (pooled_eq_some hp).right
      case refine_2 => exact sublist_filterMap fun hash p hp => (pooled_eq_some hp).left

-- The same hash may be asked for any number of times.
theorem not_bounded_replicate {limit n : Nat} {p : Hash × Bytes} (hz : hash ≠ .zero)
    (hq : ∃ r, getDA ctx b hash = .ok r) (hp : served ctx b hash = some p)
    (hn : limit ≤ n * p.snd.length) :
    ¬∃ l, answerGetPooledFileDatas ctx b (List.replicate (n + 1) hash) = .ok l ∧
      Bounded limit ctx b (List.replicate (n + 1) hash) l := by
  rintro ⟨l, hl, hb⟩
  have hr : ∀ x ∈ List.replicate (n + 1) hash, x = hash := fun x hx =>
    eq_of_mem_replicate hx
  rw [answerGetPooledFileDatas, answer_of_not_zero (fun h => hz (hr _ h).symm)
    (fun x hx => hr x hx ▸ hq), nil_append, filterMap_replicate_of_some hp] at hl
  have hs := hb.size
  rw [← Except.ok.inj hl, replicate_succ', dropLast_concat, replySize,
    map_replicate, sum_replicate_nat] at hs
  exact absurd hn (Nat.not_le.mpr hs)

theorem held_encode : ∃ encoded, held.encode = .ok encoded ∧ 210 ≤ encoded.length := by
  have h : held.encode.toOption.any (210 ≤ ·.length) := by decide +kernel
  cases he : held.encode
  case error      => exact absurd h (by rw [he]; simp [Except.toOption])
  case ok encoded => exact ⟨encoded, rfl, by simpa [he, Except.toOption] using h⟩

-- The hashes of the query take 5 MB.
theorem not_forall_bounded :
    ¬∀ (ctx : Context) (b : Backend) (query : List Hash), Digest.Codec ctx.setBytes →
      query.length ≤ 149801 → ∃ l, answerGetPooledFileDatas ctx b query = .ok l ∧
        Bounded fileDataSoftResponseLimit ctx b query l := by
  intro h
  obtain ⟨setBytes, hs⟩ := Digest.exists_codec
  obtain ⟨encoded, he, hn⟩ := held_encode
  let ctx := heldContext setBytes fun _ => .along []
  have hg : getDA ctx holding Digest.generator.hash = .ok (some held) :=
    getDA_eq_some_iff.mpr (.inl ⟨0, holding_get, rfl⟩)
  have hp : served ctx holding Digest.generator.hash = some (Digest.generator.hash, encoded) :=
    serve_eq_some_iff.mpr ⟨rfl, held, found_of_get holding_get, he⟩
  refine not_bounded_replicate (n := 149800) (by decide +kernel) ⟨_, hg⟩ hp ?_
    (h ctx holding _ hs length_replicate.le)
  exact Nat.le_trans (by decide) (Nat.mul_le_mul_left 149800 hn)

end Eth
