import DomiconExec.Objects.Theorems.Receipt
import DomiconExec.Rlp.Theorems.Session

namespace Types

open List Rlp Rlp.TypeInfo

section Bloom

variable {keccak256 : Bytes → Hash} {b : Bloom} {d d' : Bytes} {i j : Nat} {v w : UInt8}

namespace Bloom

-- The bits of a value are set in a byte of the filter.
def Covers (b : Bloom) (i : Nat) (v : UInt8) : Prop :=
  v = v &&& b.val.getD i 0

theorem bloomValues_lt (d : Bytes) : ∀ x ∈ bloomValues keccak256 d, x.fst < 256 := by
  intro x hx
  obtain ⟨i, -, rfl⟩ := mem_map.mp hx
  dsimp only
  omega

theorem covers_or {x : UInt8} (h : v = v &&& x ∨ v = w) : v = v &&& (x ||| w) := by
  refine UInt8.toBitVec_inj.mp (BitVec.eq_of_getElem_eq fun k hk => ?_)
  rw [UInt8.toBitVec_and, UInt8.toBitVec_or, BitVec.getElem_and, BitVec.getElem_or]
  obtain h | rfl := h
  case inl =>
    have hv := congrArg (fun x => x.toBitVec[k]) h
    simp only [UInt8.toBitVec_and, BitVec.getElem_and] at hv
    rw [Bool.and_or_distrib_left, ← hv]
    grind
  case inr => grind

theorem getD_setBits (b : Bloom) (hj : j < 256) :
    (b.setBits j w).val.getD i 0 = if i = j then b.val.getD i 0 ||| w else b.val.getD i 0 := by
  have hl : j < b.val.length := by rwa [b.property]
  simp only [setBits, getD_eq_getElem?_getD, List.getElem?_set]
  split
  case isTrue h =>
    subst h
    simp [hl]
  case isFalse h => rw [if_neg (Ne.symm h)]

theorem Covers.setBits (h : b.Covers i v) (hj : j < 256) : (b.setBits j w).Covers i v := by
  unfold Covers
  rw [getD_setBits b hj]
  split
  case isTrue  => exact covers_or (.inl h)
  case isFalse => exact h

theorem setBits_covers (b : Bloom) (hi : i < 256) (v : UInt8) : (b.setBits i v).Covers i v := by
  unfold Covers
  rw [getD_setBits b hi, if_pos rfl]
  exact covers_or (.inr rfl)

theorem test_iff : b.test keccak256 d ↔ ∀ x ∈ bloomValues keccak256 d, b.Covers x.fst x.snd := by
  simp [test, Covers]

theorem foldl_setBits {l : List (Nat × UInt8)} (hl : ∀ x ∈ l, x.fst < 256) :
    (∀ x ∈ l, (l.foldl (fun b x => b.setBits x.fst x.snd) b).Covers x.fst x.snd) ∧
      ∀ i v, b.Covers i v → (l.foldl (fun b x => b.setBits x.fst x.snd) b).Covers i v := by
  induction l generalizing b
  case nil => exact ⟨fun _ h => absurd h not_mem_nil, fun _ _ => id⟩
  case cons y l hi =>
    obtain ⟨hy, hl⟩ := forall_mem_cons.mp hl
    obtain ⟨ha, hk⟩ := @hi (b.setBits y.fst y.snd) hl
    refine ⟨fun x hx => ?_, fun i v h => hk i v (h.setBits hy)⟩
    obtain rfl | hx := mem_cons.mp hx
    case inl => exact hk _ _ (setBits_covers b hy _)
    case inr => exact ha x hx

theorem test_add : (b.add keccak256 d).test keccak256 d :=
  test_iff.mpr (foldl_setBits (bloomValues_lt d)).left

theorem test_add_of_test (h : b.test keccak256 d) : (b.add keccak256 d').test keccak256 d :=
  test_iff.mpr fun x hx => (foldl_setBits (bloomValues_lt d')).right _ _ (test_iff.mp h x hx)

end Bloom

theorem test_foldl_add {l : List Bytes} (h : d ∈ l ∨ b.test keccak256 d) :
    (l.foldl (fun b d => b.add keccak256 d) b).test keccak256 d := by
  induction l generalizing b
  case nil => exact h.resolve_left List.not_mem_nil
  case cons x l hi =>
    refine hi ?_
    obtain h | h := h
    case inl =>
      obtain rfl | h := mem_cons.mp h
      case inl => exact .inr Bloom.test_add
      case inr => exact .inl h
    case inr => exact .inr (Bloom.test_add_of_test h)

def Log.values (log : Log) : List Bytes :=
  log.address.val :: log.topics.map (·.val)

theorem createBloom_eq (r : Receipt) :
    createBloom keccak256 [r] =
      (r.logs.flatMap Log.values).foldl (fun b d => b.add keccak256 d) (.fill 0) := by
  simp [createBloom, Log.values, foldl_flatMap, foldl_map]

end Bloom

namespace ReceiptForStorage

variable {r : Receipt}

def depositItems (r : Receipt) : List Item :=
  match r.depositNonce with
  | none       => []
  | some nonce => nonce.item :: r.depositReceiptVersion.toList.map UInt64.item

def item (r : Receipt) : Item :=
  .list ([.str r.statusEncoding, r.cumulativeGasUsed.item, .list (r.logs.map Log.item)] ++
    depositItems r)

theorem writeDeposit_puts (r : Receipt) :
    Puts (fun w => .ok (writeDeposit r w)) (Item.encodeAll (depositItems r)) := by
  unfold writeDeposit depositItems
  cases r.depositNonce
  case none => exact .nil
  case some nonce =>
    cases r.depositReceiptVersion
    case none         => exact (Puts.writeUint64 nonce).comp .nil
    case some version => exact (Puts.writeUint64 nonce).comp ((Puts.writeUint64 version).comp .nil)

theorem encodeRLP_puts (r : Receipt) : Puts (fun w => .ok (encodeRLP r w)) (item r).encode := by
  have hl := Puts.close <| Puts.foldl (l := r.logs) fun log _ => log.encodeRLP_puts
  have hc := (Puts.writeBytes r.statusEncoding).comp <| (Puts.writeUint64 r.cumulativeGasUsed).comp <|
    hl.comp (writeDeposit_puts r)
  exact @Puts.close ([.str r.statusEncoding, r.cumulativeGasUsed.item, .list (r.logs.map Log.item)] ++
    depositItems r) _ hc

def stored (r : Receipt) : StoredReceiptRLP where
  postStateOrStatus := r.statusEncoding
  cumulativeGasUsed := r.cumulativeGasUsed
  logs := r.logs
  depositNonce := r.depositNonce
  depositReceiptVersion := r.depositReceiptVersion

theorem fields_transfer (r : Receipt) :
    FieldsTransfer (stored r) StoredReceiptRLP.fields .zero
      { stored r with depositNonce := none, depositReceiptVersion := none }
      [.str r.statusEncoding, r.cumulativeGasUsed.item, .list (r.logs.map Log.item)] :=
  .cons (.of (ofBytes_transfers _ _ _)) <|
  .cons (.of (uint64_transfers _ _)) <|
  .cons (.of (slice_transfers _ _ (fun log _ old => Log.transfers old log) Log.stopsAtEnd)) <|
  .nil

theorem optional_transfer (h : r.depositNonce = none → r.depositReceiptVersion = none) :
    OptionalTransfer (stored r) StoredReceiptRLP.optional
      { stored r with depositNonce := none, depositReceiptVersion := none } (stored r)
      (depositItems r) := by
  have hs {old} : StopsAtEnd ((ptr .string .uint64).decoder old) :=
    ptr_stopsAtEnd _ _ (uint64_stopsAtEnd _)
  have ht {old n} := ptr_transfers .string old (uint64_transfers (old.getD 0) n)
  obtain ⟨_, _, _, _, _, _, nonce, version, _, _, _, _⟩ := r
  cases nonce
  case none =>
    obtain rfl : version = none := h rfl
    exact .stop (Field.stopsAtEnd_of hs)
  case some nonce =>
    cases version
    case none         => exact .cons (.of ht) (.stop (Field.stopsAtEnd_of hs))
    case some version => exact .cons (.of ht) (.cons (.of ht) .nil)

theorem decodeBytes_stored (h : r.depositNonce = none → r.depositReceiptVersion = none)
    (hb : (item r).encode.length < 2 ^ 64) :
    Rlp.decodeBytes StoredReceiptRLP.info (item r).encode .zero = .ok (stored r) :=
  (optionalStruct_reads _ _ (fields_transfer r) (optional_transfer h) hb).decodeBytes

variable (keccak256 : Bytes → Hash) (isFloat : GoString → Bool)

theorem encodeToBytes_eq (hb : (item r).encode.length < 2 ^ 64) :
    encodeToBytes r = (item r).encode := by
  obtain ⟨o, ho, hw⟩ := encodeRLP_puts r hb
  rw [encodeToBytes, Except.ok.inj (hw .empty), EncBuffer.makeBytes_put (ho ▸ hb), ho]

-- The fields that the storage encoding has are restored.
structure Restores (r q : Receipt) : Prop where
  postState : q.postState = r.postState
  status : r.postState = [] → q.status = r.status
  cumulativeGasUsed : q.cumulativeGasUsed = r.cumulativeGasUsed
  logs : q.logs = r.logs
  depositNonce : q.depositNonce = r.depositNonce
  depositReceiptVersion : q.depositReceiptVersion = r.depositReceiptVersion

theorem decodeStoredReceiptRLP_eq
    (hs : r.postState = [] ∧ (r.status = 0 ∨ r.status = 1) ∨ r.postState.length = 32)
    (hv : r.depositNonce = none → r.depositReceiptVersion = none)
    (hb : (item r).encode.length < 2 ^ 64) :
    ∃ q, decodeStoredReceiptRLP keccak256 .zero (item r).encode = .ok q ∧ Restores r q ∧
      q.bloom = createBloom keccak256 [r] := by
  obtain ⟨q, hq, hp, hs, he⟩ := @Receipt.setStatus_statusEncoding r .zero hs rfl
  have hn : q.depositNonce = none := by rw [he]; rfl
  have hw : q.depositReceiptVersion = none := by rw [he]; rfl
  have hc : createBloom keccak256 [{ q with
      cumulativeGasUsed := r.cumulativeGasUsed, logs := r.logs }] = createBloom keccak256 [r] := rfl
  simp only [decodeStoredReceiptRLP, decodeBytes_stored hv hb, Except.mapError, bind, Except.bind,
    stored, hq, hc]
  cases hd : r.depositNonce
  case none => exact ⟨_, rfl, ⟨hp, hs, rfl, rfl, hn.trans hd.symm, hw.trans (hv hd).symm⟩, rfl⟩
  case some => exact ⟨_, rfl, ⟨hp, hs, rfl, rfl, hd.symm, rfl⟩, rfl⟩

-- The other format is not tried if the latest one fits.
theorem decodeBytes_eq {q : Receipt} {items : List Item}
    (hb : (Item.list items).encode.length < 2 ^ 64)
    (h : decodeStoredReceiptRLP keccak256 .zero (Item.list items).encode = .ok q) :
    decodeBytes keccak256 isFloat .zero (Item.list items).encode = .ok q := by
  have hr : (Stream.reset (Item.list items).encode (Item.list items).encode.length).Room
      (Item.list items).encode.length := ⟨by simp [Stream.reset], fun _ => Nat.le_refl _⟩
  have hl := Nat.lt_of_le_of_lt Item.encodeAll_length_le hb
  obtain ⟨s, hs, -, hm⟩ := Stream.raw_consumes hl _ rfl (prefix_refl _) hr
  have he : s.r = [] := by
    rw [hm.r]
    exact List.drop_length
  have hd : decodeRLP keccak256 isFloat .zero (.reset (Item.list items).encode
      (Item.list items).encode.length) = .ok q s := by
    rw [Item.encode] at h
    unfold decodeRLP
    rw [Program.bind_ok (Program.adaptExcept_ok _ hs), h]
    rfl
  simp [decodeBytes, hd, he]

-- A stored receipt is restored by the first decoder, and its filter contains all that is in the logs.
theorem storage_codec (r : Receipt)
    (hs : r.postState = [] ∧ (r.status = 0 ∨ r.status = 1) ∨ r.postState.length = 32)
    (hv : r.depositNonce = none → r.depositReceiptVersion = none)
    (hb : (item r).encode.length < 2 ^ 63) :
    ∃ q, decodeBytes keccak256 isFloat .zero (encodeToBytes r) = .ok q ∧
      decodeStoredReceiptRLP keccak256 .zero (encodeToBytes r) = .ok q ∧ Restores r q ∧
      ∀ log ∈ r.logs, q.bloom.test keccak256 log.address.val ∧
        ∀ topic ∈ log.topics, q.bloom.test keccak256 topic.val := by
  have hb' : (item r).encode.length < 2 ^ 64 := Nat.lt_trans hb (by decide)
  obtain ⟨q, hq, hr, hm⟩ := decodeStoredReceiptRLP_eq keccak256 hs hv hb'
  rw [encodeToBytes_eq hb']
  refine ⟨q, decodeBytes_eq keccak256 isFloat hb' hq, hq, hr, fun log hl => ?_⟩
  have ht (d : Bytes) (hd : d ∈ log.values) : q.bloom.test keccak256 d := by
    rw [hm, createBloom_eq]
    exact test_foldl_add (.inl (mem_flatMap.mpr ⟨log, hl, hd⟩))
  refine ⟨ht _ mem_cons_self, fun topic hm => ht _ ?_⟩
  exact mem_cons_of_mem _ (mem_map_of_mem hm)

-- A receipt with two logs and with both optional fields.
def depositReceipt : Receipt :=
  { Receipt.zero with
    status := 1
    logs := [⟨.fill 1, [], []⟩, ⟨.fill 2, [.fill 3, .fill 4], [0x05]⟩]
    depositNonce := some 7
    depositReceiptVersion := some 1
  }

theorem storage_codec_depositReceipt :
    ∃ q, decodeBytes (fun _ => .fill 9) (fun _ => false) .zero (encodeToBytes depositReceipt) = .ok q ∧
      q.depositNonce = some 7 ∧ q.bloom.test (fun _ => .fill 9) (ByteArr.fill (n := 32) 4).val := by
  obtain ⟨q, hq, -, hr, hl⟩ := storage_codec (fun _ => .fill 9) (fun _ => false) depositReceipt
    (.inl ⟨rfl, .inr rfl⟩) (fun h => absurd h (by decide)) (by decide +kernel)
  exact ⟨q, hq, hr.depositNonce,
    (hl ⟨.fill 2, [.fill 3, .fill 4], [0x05]⟩ (by decide)).right (.fill 4) (by decide)⟩

end ReceiptForStorage

end Types
