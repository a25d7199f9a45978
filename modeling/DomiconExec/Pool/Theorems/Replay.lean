import DomiconExec.Objects.Theorems.Codec
import DomiconExec.Pool.Replay

namespace FilePool.Journal

open List Rlp

variable {σ : Type} {add : Add σ} {f : Inserting σ} {das : List DA} {j j' : Journal}
variable {stream : Stream} {tail : Bytes}

def batches (batch : List DA) : List DA → List (List DA)
  | []        => if batch.length > 0 then [batch] else []
  | da :: das =>
    if (batch ++ [da]).length > 1024 then
      (batch ++ [da]) :: batches [] das
    else
      batches (batch ++ [da]) das

theorem flatten_batches (batch das : List DA) : (batches batch das).flatten = batch ++ das := by
  induction das generalizing batch
  case nil =>
    rw [batches]
    split
    case isTrue     => simp
    case isFalse hn =>
      rw [eq_nil_of_length_eq_zero (Nat.eq_zero_of_not_pos hn)]
      rfl
  case cons da das hi =>
    rw [batches]
    split
    case isTrue  => rw [flatten_cons, hi, nil_append, append_assoc, singleton_append]
    case isFalse => rw [hi, append_assoc, singleton_append]

theorem length_of_mem_batches {batch b : List DA} (hb : batch.length ≤ 1024)
    (h : b ∈ batches batch das) : 0 < b.length ∧ b.length ≤ 1025 := by
  induction das generalizing batch
  case nil =>
    rw [batches] at h
    split at h
    case isTrue hn =>
      cases mem_singleton.mp h
      exact ⟨hn, Nat.le_succ_of_le hb⟩
    case isFalse => cases h
  case cons da das hi =>
    rw [batches] at h
    have hl : (batch ++ [da]).length = batch.length + 1 := List.length_append
    split at h
    case isTrue =>
      rcases mem_cons.mp h with rfl | h
      case inl => omega
      case inr => exact hi (Nat.zero_le _) h
    case isFalse hn => exact hi (Nat.le_of_not_lt hn) h

-- What is inserted is discarded.
theorem insert_devNull (h : j.writer = some .devNull) (env : Env) (fd : Ref) :
    (j.insert env fd).fst = j := by
  unfold insert
  rw [h]
  dsimp only
  split <;> rfl

theorem foldl_insert_devNull (h : j.writer = some .devNull) (l : List (Env × Ref)) :
    l.foldl (fun j x => (j.insert x.fst x.snd).fst) j = j := by
  induction l
  case nil          => rfl
  case cons x l hi  => rw [foldl_cons, insert_devNull h, hi]

-- The input is what the beginning of an encoding leaves of it, if anything.
def Torn (tail : Bytes) : Prop :=
  ∃ da : DA, 0 ≤ da.nameSpaceID.getD 0 ∧ da.item.encode.length < 2 ^ 64 ∧
    tail <+: da.item.encode ∧ tail ≠ da.item.encode

theorem decode_torn (h : Torn tail) (ht : stream.Toplevel) (hr : stream.r = tail) :
    ∃ s, Stream.decode DA.info .zero stream =
      .error (if tail = [] then .eof else .unexpectedEOF) s := by
  obtain ⟨da, hn, hl, hp, he⟩ := h
  split
  case isTrue hz  => exact struct_decode_eof ht (hr.trans hz)
  case isFalse hz =>
    subst hr
    exact DA.decode_truncated hn hl ht hp hz he

theorem torn_nil : Torn [] := by
  have he : [] ≠ DA.zero.item.encode := by decide +kernel
  exact ⟨.zero, Int.le_refl 0, by decide +kernel, nil_prefix, he⟩

namespace Replay

variable {s : Replay σ}

theorem loop_invariant {P : σ → Prop} (hp : ∀ s batch s', P s → add s batch = .ok s' → P s')
    {fuel : Nat} {r : σ × Option DecodeError} (h : s.loop add fuel stream = .ok r) (hs : P s.state) :
    P r.fst := by
  have ho {n : Nat} {s s' : Replay σ} (hl : s.loadOver add n = .ok s') (hs : P s.state) :
      P s'.state := by
    unfold loadOver at hl
    split at hl
    case isTrue =>
      obtain ⟨state, ha, hl⟩ := Loop.bind_eq_ok hl
      cases hl
      exact hp _ _ _ hs ha
    case isFalse =>
      cases hl
      exact hs
  induction fuel generalizing stream s
  case zero =>
    cases h
    exact hs
  case succ fuel hi =>
    simp only [loop] at h
    split at h
    case h_1 =>
      obtain ⟨s', hl, h⟩ := Loop.bind_eq_ok h
      cases h
      exact ho hl hs
    case h_2 =>
      obtain ⟨s', hl, h⟩ := Loop.bind_eq_ok h
      exact hi h (ho hl hs)

def finish (tail : Bytes) (state : σ) : σ × Option DecodeError :=
  (state, if tail = [] then none else some .unexpectedEOF)

theorem loop_eq {fuel : Nat}
    (hd : ∀ da ∈ das, 0 ≤ da.nameSpaceID.getD 0 ∧ da.item.encode.length < 2 ^ 64) (hc : Torn tail)
    (ht : stream.Toplevel) (hr : stream.r = Item.encodeAll (das.map DA.item) ++ tail)
    (hf : das.length < fuel) : s.loop add fuel stream =
      finish tail <$> (batches s.batch (das.map DA.decoded)).foldlM add s.state := by
  induction das generalizing fuel stream s
  all_goals
    obtain ⟨fuel, rfl⟩ := Nat.exists_eq_succ_of_ne_zero (Nat.ne_zero_of_lt hf)
    simp only [loop]
  case nil =>
    obtain ⟨stream', he⟩ := decode_torn hc ht hr
    have hz : (if (if tail = [] then DecodeError.eof else .unexpectedEOF) ≠ .eof
        then some (if tail = [] then DecodeError.eof else .unexpectedEOF) else none) =
          if tail = [] then none else some .unexpectedEOF := by
      split <;> rfl
    rw [he]
    simp only [hz, loadOver, map_nil, batches]
    split
    case isTrue =>
      simp only [loadBatch, foldlM_cons, foldlM_nil]
      cases add s.state s.batch <;> rfl
    case isFalse hn =>
      obtain ⟨state, batch⟩ := s
      cases eq_nil_of_length_eq_zero (Nat.eq_zero_of_not_pos hn)
      rfl
  case cons da das hi =>
    obtain ⟨⟨hn, hl⟩, hd⟩ := forall_mem_cons.mp hd
    have hx : DA.info.Transfers .zero da da.decoded da.item := DA.transfers .zero hn
    obtain ⟨stream', he, ht', hr'⟩ := hx.decode hl ht
      ⟨Item.encodeAll (das.map DA.item) ++ tail, by simp [hr, Item.encodeAll]⟩
    have hr' : stream'.r = Item.encodeAll (das.map DA.item) ++ tail := by
      simp [hr', hr, Item.encodeAll]
    have hf := Nat.lt_of_succ_lt_succ hf
    rw [he]
    simp only [loadOver, map_cons, batches]
    by_cases hb : (s.batch ++ [da.decoded]).length > 1024
    case pos =>
      rw [if_pos hb, if_pos hb]
      simp only [loadBatch, foldlM_cons]
      cases add s.state (s.batch ++ [da.decoded])
      case error    => rfl
      case ok state => exact hi (s := ⟨state, []⟩) hd ht' hr' hf
    case neg =>
      rw [if_neg hb, if_neg hb]
      exact hi (s := { s with batch := s.batch ++ [da.decoded] }) hd ht' hr' hf

end Replay

-- The data was inserted into a journal that was empty before.
inductive Inserted : List DA → Journal → Prop
  | nil : Inserted [] ⟨some .sink, []⟩
  | insert {das : List DA} {j j' : Journal} {env : Env} {fd : Ref} : Inserted das j →
    j.insert env fd = (j', none) → Inserted (das ++ [env.heap fd]) j'

theorem insert_ok {env : Env} {fd : Ref} (hw : j.writer = some .sink)
    (h : j.insert env fd = (j', none)) :
    ∃ b, (env.heap fd).encode = .ok b ∧ j' = { j with file := j.file ++ [(fd, b)] } := by
  unfold insert at h
  rw [hw] at h
  dsimp only at h
  split at h
  case h_1 => cases h
  case h_2 b hb =>
    unfold append at h
    split at h <;> cases h
    exact ⟨b, hb, rfl⟩

theorem Inserted.contents (h : Inserted das j) (hl : ∀ da ∈ das, da.item.encode.length < 2 ^ 64) :
    j.writer = some .sink ∧ j.contents = Item.encodeAll (das.map DA.item) ∧
      ∀ da ∈ das, 0 ≤ da.nameSpaceID.getD 0 := by
  induction h
  case nil => exact ⟨rfl, rfl, by simp⟩
  case insert env fd _ hs hi =>
    obtain ⟨hw, hc, hn⟩ := hi fun da hm => hl da (mem_append_left _ hm)
    obtain ⟨b, hb, rfl⟩ := insert_ok hw hs
    have hd := DA.nameSpaceID_nonneg hb
    have hb' := (DA.decode_item hd (hl _ (mem_append_right _ mem_cons_self))).left
    cases hb.symm.trans hb'
    refine ⟨hw, ?_, ?_⟩
    case refine_1 =>
      simp only [Journal.contents, map_append, flatten_append, Item.encodeAll_append] at hc ⊢
      rw [hc]
      simp [Item.encodeAll]
    case refine_2 =>
      intro da hm
      rcases mem_append.mp hm with hm | hm
      case inl => exact hn da hm
      case inr => exact mem_singleton.mp hm ▸ hd

-- The file consists of the encodings of the data, and of what is left of another one.
structure Holds (das : List DA) (tail : Bytes) (j : Journal) : Prop where
  sound : ∀ da ∈ das, 0 ≤ da.nameSpaceID.getD 0 ∧ da.item.encode.length < 2 ^ 64
  torn : Torn tail
  contents : j.contents = Item.encodeAll (das.map DA.item) ++ tail

theorem holds_of_inserted {da : DA} {b : Bytes} (h : Inserted das j)
    (hl : ∀ da ∈ das, da.item.encode.length < 2 ^ 63) (hb : da.encode = .ok b)
    (hl' : da.item.encode.length < 2 ^ 63) (ht : tail <+: b) (hn : tail ≠ b)
    (hc : j'.contents = j.contents ++ tail) : Holds das tail j' := by
  have hlt {n : Nat} (hn : n < 2 ^ 63) : n < 2 ^ 64 := Nat.lt_trans hn (by decide)
  obtain ⟨-, hj, hs⟩ := h.contents fun da hm => hlt (hl da hm)
  have hi := DA.nameSpaceID_nonneg hb
  cases hb.symm.trans (DA.decode_item hi (hlt hl')).left
  exact ⟨fun da hm => ⟨hs da hm, hlt (hl da hm)⟩, ⟨da, hi, hlt hl', ht, hn⟩, hj ▸ hc⟩

theorem Holds.loop_eq (h : Holds das tail j) (add : Add σ) (state : σ) :
    Replay.loop add (j.contents.length + 1) (.reset j.contents 0) ⟨state, []⟩ =
      Replay.finish tail <$> (batches [] (das.map DA.decoded)).foldlM add state := by
  have hf : das.length < j.contents.length + 1 := by
    have := @Item.length_le_encodeAll (das.map DA.item)
    rw [length_map] at this
    rw [h.contents, length_append]
    omega
  exact Replay.loop_eq h.sound h.torn ⟨rfl, rfl, rfl⟩ h.contents hf

def calls (f : Inserting σ) (state : σ) (bs : List (List DA)) : Except GoPanic σ :=
  bs.foldlM (fun state batch => Prod.fst <$> f state batch) state

theorem foldlM_add_eq_calls (h : j.writer = some .devNull) {state : σ} {bs : List (List DA)} :
    bs.foldlM f.add (j, state) = Prod.mk j <$> calls f state bs := by
  induction bs generalizing state
  case nil => rfl
  case cons batch bs hi =>
    simp only [calls, foldlM_cons, Inserting.add] at hi ⊢
    cases f state batch
    case error => rfl
    case ok r  => exact (congrArg (fun j => bs.foldlM _ (j, r.fst)) (foldl_insert_devNull h _)).trans hi

def failure (tail : Bytes) : Option LoadError :=
  if tail = [] then none else some (.rlp .unexpectedEOF)

theorem failure_eq (tail : Bytes) :
    (if tail = [] then none else some DecodeError.unexpectedEOF).map .rlp = failure tail := by
  unfold failure
  split <;> rfl

-- Whatever the function does, it is called with batches of the data that was inserted, in this order.
structure Replays (j : Journal) (das : List DA) (tail : Bytes) (bs : List (List DA)) : Prop where
  flatten : bs.flatten = das.map DA.decoded
  sizes : ∀ batch ∈ bs, batch ≠ [] ∧ batch.length ≤ 1025
  -- The file stays as it is, and there is an error if it does not end with the data.
  result : ∃ failure, (failure = none ↔ tail = []) ∧ ∀ (σ : Type) (f : Inserting σ) (state : σ),
    replay f none state j =
      (fun state => (state, { j with writer := none }, failure)) <$> calls f state bs

theorem replays_of_inserted (das : List DA) (j j' : Journal) (da : DA) (b tail : Bytes)
    (h : Inserted das j) (hl : ∀ da ∈ das, da.item.encode.length < 2 ^ 63) (hb : da.encode = .ok b)
    (hl' : da.item.encode.length < 2 ^ 63) (ht : tail <+: b) (hn : tail ≠ b)
    (hc : j'.contents = j.contents ++ tail) : ∃ bs, Replays j' das tail bs := by
  have hh := holds_of_inserted h hl hb hl' ht hn hc
  refine ⟨batches [] (das.map DA.decoded), flatten_batches .., ?_, failure tail, ?_, ?_⟩
  case refine_1 =>
    intro batch hm
    obtain ⟨hp, hu⟩ := length_of_mem_batches (Nat.zero_le _) hm
    exact ⟨ne_nil_of_length_pos hp, hu⟩
  case refine_2 => simp [failure]
  case refine_3 =>
    intro σ f state
    simp only [replay]
    rw [hh.loop_eq f.add, foldlM_add_eq_calls rfl, ← failure_eq]
    cases calls f state (batches [] (das.map DA.decoded)) <;> rfl

theorem exists_inserted
    (h : ∀ da ∈ das, 0 ≤ da.nameSpaceID.getD 0 ∧ da.item.encode.length < 2 ^ 64) :
    ∃ j, Inserted das j := by
  induction das using List.reverseRecOn
  case nil => exact ⟨_, .nil⟩
  case append_singleton das da hi =>
    obtain ⟨hd, ha⟩ := forall_mem_append.mp h
    obtain ⟨hn, hl⟩ := ha da List.mem_cons_self
    obtain ⟨⟨w, file⟩, hj⟩ := hi hd
    cases (hj.contents fun da hm => (hd da hm).right).left
    let env : Env := ⟨fun _ => da, .zero, none, fun _ _ _ => none, fun _ => none⟩
    refine ⟨⟨some .sink, file ++ [(0, da.item.encode)]⟩, @Inserted.insert _ _ _ env 0 hj ?_⟩
    have he : (env.heap 0).encode = .ok da.item.encode := (DA.decode_item hn hl).left
    simp only [insert, he]
    rfl

def sampleEntry (data : Bytes) : DA :=
  { DA.zero with sender := .fill 1, nonce := 5, data, length := .ofNat data.length }

-- Two entries were written, and one byte less than a third one.
theorem replays_tornJournal : ∃ das j tail, das = [sampleEntry [1], sampleEntry [2, 3]] ∧
    Inserted das j ∧ tail = (sampleEntry [4]).item.encode.dropLast ∧ tail ≠ [] ∧
    ∃ bs, Replays { j with file := j.file ++ [(2, tail)] } das tail bs := by
  have hd (data : Bytes) (h : (sampleEntry data).item.encode.length < 2 ^ 63) :
      0 ≤ (sampleEntry data).nameSpaceID.getD 0 ∧ (sampleEntry data).item.encode.length < 2 ^ 64 :=
    ⟨Int.le_refl 0, Nat.lt_trans h (by decide)⟩
  have h₁ : (sampleEntry [1]).item.encode.length < 2 ^ 63 := by decide +kernel
  have h₂ : (sampleEntry [2, 3]).item.encode.length < 2 ^ 63 := by decide +kernel
  have h₃ : (sampleEntry [4]).item.encode.length < 2 ^ 63 := by decide +kernel
  have hn : (sampleEntry [4]).item.encode.dropLast ≠ [] := by decide +kernel
  have he : (sampleEntry [4]).item.encode.dropLast ≠ (sampleEntry [4]).item.encode := by
    decide +kernel
  obtain ⟨j, hj⟩ := @exists_inserted [sampleEntry [1], sampleEntry [2, 3]]
    (by simpa using ⟨hd _ h₁, hd _ h₂⟩)
  refine ⟨_, j, _, rfl, hj, rfl, hn, ?_⟩
  exact replays_of_inserted _ j _ (sampleEntry [4]) _ _ hj (by simpa using ⟨h₁, h₂⟩)
    (DA.decode_item (hd _ h₃).left (hd _ h₃).right).left h₃ (List.dropLast_prefix _) he
    (by simp [contents])

end FilePool.Journal
