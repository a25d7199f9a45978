import DomiconExec.Primitives.Loop
import DomiconExec.Db.DAData

open List

theorem GoString.join_length (l : List GoString) :
    (join l).length = (l.map List.length).sum + (l.length - 1) := by
  induction l
  case nil => rfl
  case cons a l hi =>
    cases l
    case nil      => simp [join, List.intercalate]
    case cons b l =>
      simp only [join, List.intercalate, intersperse_cons_cons, flatten_cons,
        length_append, map_cons, sum_cons, length_cons,
        length_nil] at hi ⊢
      omega

theorem GoString.split_length (s : GoString) : s.split.length = s.count comma + 1 := by
  unfold split List.splitOn
  induction s
  case nil => rfl
  case cons c s hi =>
    rw [splitOnP_cons_eq_if_modifyHead, count_cons]
    split <;> simp [hi]

namespace Db

open Sql

variable {keccak256 : Bytes → Hash} {setBytes : SetBytes}
variable {t t' : Table DARow} {da da' : DA} {r : DARow}

theorem assign_length {α : Type} {s s' : List α} {x : α × Nat} (h : assign s x = .ok s') :
    s'.length = s.length := by
  unfold assign at h
  split at h
  case isTrue =>
    cases h
    exact List.length_set
  case isFalse => contradiction

theorem assignAll_length {α : Type} {n : Nat} {zero : α} {l s : List α}
    (h : assignAll n zero l = .ok s) : s.length = n :=
  Loop.foldlM_preserves (fun s => s.length = n) (fun _ _ _ _ hb ha => (assign_length ha).trans hb)
    length_replicate h

theorem foldlM_assign {α : Type} {s : List α} {l : List (α × Nat)} :
    (∃ s', l.foldlM assign s = .ok s') ↔ ∀ x ∈ l, x.snd < s.length := by
  induction l generalizing s
  case nil => simp [pure, Except.pure]
  case cons x l hi =>
    rw [foldlM_cons, forall_mem_cons]
    by_cases hx : x.snd < s.length
    case neg => simp [assign, hx, bind, Except.bind]
    case pos =>
      have ha : assign s x = .ok (s.set x.snd x.fst) := if_pos hx
      simp only [ha, bind, Except.bind, hi, length_set, hx, true_and]

theorem assignAll_ok_iff {α : Type} {n : Nat} {zero : α} {l : List α} :
    (∃ s, assignAll n zero l = .ok s) ↔ l.length ≤ n := by
  rw [assignAll, foldlM_assign, length_replicate]
  constructor
  case mp =>
    intro h
    by_contra hn
    have hn : n < l.length := Nat.lt_of_not_le hn
    exact Nat.lt_irrefl n <| h (l[n], n) <| mk_mem_zipIdx_iff_getElem?.mpr (by simp [hn])
  case mpr =>
    rintro h ⟨a, i⟩ hi
    have := mk_mem_zipIdx_iff_getElem?.mp hi
    exact Nat.lt_of_lt_of_le (List.getElem?_eq_some_iff.mp this).fst h

-- The parts of a text fit into a slice of its length, unless there are only separators.
theorem assignAll_split_ok_iff {α : Type} {zero : α} {s : GoString} {l : List α}
    (h : l.length = s.split.length) :
    (∃ l', assignAll s.length zero l = .ok l') ↔ ∃ c ∈ s, c ≠ GoString.comma := by
  rw [assignAll_ok_iff, h, GoString.split_length, Nat.succ_le_iff, Nat.lt_iff_le_and_ne,
    and_iff_right count_le_length, Ne, count_eq_length]
  push Not
  simp only [ne_comm]

-- The text of the signatures has an odd number of characters too many, or it has none at all.
theorem join_signData_length (l : List Bytes) :
    (GoString.join (l.map Hex.bytes2Hex)).length = 2 * (l.map List.length).sum + (l.length - 1) := by
  have hs : ((l.map Hex.bytes2Hex).map List.length).sum = 2 * (l.map List.length).sum := by
    induction l
    case nil         => rfl
    case cons b l hi =>
      simp only [map_cons, sum_cons, hi, Hex.bytes2Hex, Hex.encodeToString_length]
      omega
  rw [GoString.join_length, hs, length_map]

theorem load_signData (h : load setBytes r = .ok (.ok da)) :
    assignAll r.signData.length [] (r.signData.split.map Hex.hex2Bytes) = .ok da.signData := by
  simp only [load] at h
  split at h
  case h_1 => simp [pure, Except.pure] at h
  case h_2 =>
    split at h
    case h_1 => simp [pure, Except.pure] at h
    case h_2 =>
      split at h
      case h_2 => simp [pure, Except.pure] at h
      case h_1 =>
        have ⟨s, hs, h⟩ := Loop.bind_eq_ok h
        have ⟨_, _, h⟩ := Loop.bind_eq_ok h
        cases h
        exact hs

-- The row is read up to the signatures or the signers, whose text leads to an access out of range.
structure Unloadable (setBytes : SetBytes) (r : DARow) : Prop where
  commitment : (Hex.decodeString r.commitment).snd = none
  point : (setBytes (Hex.decodeString r.commitment).fst).snd = none
  receiveAt : (GoTime.parse r.receiveAt).isSome
  separators : (∀ c ∈ r.signData, c = GoString.comma) ∨ ∀ c ∈ r.signAddr, c = GoString.comma

theorem load_ok_iff : (∃ e, load setBytes r = .ok e) ↔ ¬Unloadable setBytes r := by
  rcases hd : Hex.decodeString r.commitment with ⟨str, _ | err⟩
  case some =>
    refine ⟨fun _ h => ?_, fun _ => ⟨.error (.decodeHex err), by simp only [load, hd]; rfl⟩⟩
    simpa [hd] using h.commitment
  case none =>
    rcases hs : setBytes str with ⟨digest, _ | err⟩
    case some =>
      refine ⟨fun _ h => ?_, fun _ => ⟨.error (.setBytes err), by simp only [load, hd, hs]; rfl⟩⟩
      simpa [hd, hs] using h.point
    case none =>
      cases ht : GoTime.parse r.receiveAt
      case none =>
        refine ⟨fun _ h => ?_, fun _ => ⟨.error .parseTime, by simp only [load, hd, hs, ht]; rfl⟩⟩
        simpa [ht] using h.receiveAt
      case some parsedTime =>
        have hd' := @assignAll_split_ok_iff _ [] r.signData (r.signData.split.map Hex.hex2Bytes)
          (length_map ..)
        have ha' := @assignAll_split_ok_iff _ [] r.signAddr r.signAddr.split rfl
        simp only [load, hd, hs, ht]
        constructor
        case mp =>
          rintro ⟨e, h⟩ hu
          obtain ⟨a, ha, h⟩ := Loop.bind_eq_ok h
          obtain ⟨b, hb, _⟩ := Loop.bind_eq_ok h
          obtain hc | hc := hu.separators
          case inl =>
            obtain ⟨c, hm, hn⟩ := hd'.mp ⟨a, ha⟩
            exact hn (hc c hm)
          case inr =>
            obtain ⟨c, hm, hn⟩ := ha'.mp ⟨b, hb⟩
            exact hn (hc c hm)
        case mpr =>
          intro h
          have hc : ¬((∀ c ∈ r.signData, c = GoString.comma) ∨ ∀ c ∈ r.signAddr, c = GoString.comma) :=
            fun hc => h ⟨by rw [hd], by rw [hd, hs], by rw [ht]; rfl, hc⟩
          push Not at hc
          obtain ⟨a, ha⟩ := hd'.mpr hc.left
          obtain ⟨b, hb⟩ := ha'.mpr hc.right
          rw [ha, hb]
          exact ⟨_, rfl⟩

theorem readDA_of_none {column : String} {value : GoString}
    (h : DARow.column column = none) :
    readDA setBytes t column value =
      .ok (.error (if t.rows.length = 0 then .tableIsEmpty else .noSuchColumn)) := by
  unfold readDA findDA
  split
  case isTrue  => rfl
  case isFalse => rw [h]; rfl

theorem getDAByCommitmentHash_eq {cmHash : Hash} :
    getDAByCommitmentHash setBytes t cmHash =
      .ok (.error (if t.rows.length = 0 then .tableIsEmpty else .noSuchColumn)) :=
  readDA_of_none rfl

theorem getCommitmentByTxHash_eq {hash : Hash} : getCommitmentByTxHash setBytes t hash =
    if t.rows.length = 0 then .ok (.error .tableIsEmpty)
    else load setBytes ((t.rows.find? (·.txHash = hash.hex)).getD .zero) :=
  rfl

-- The zero row, which stands for a missing one, has no time.
theorem getCommitmentByTxHash_ok_iff {hash : Hash} :
    (∃ e, getCommitmentByTxHash setBytes t hash = .ok e) ↔
      ∀ r, t.rows.find? (·.txHash = hash.hex) = some r → ¬Unloadable setBytes r := by
  rw [getCommitmentByTxHash_eq]
  split
  case isTrue h => simp [length_eq_zero_iff.mp h]
  case isFalse =>
    rw [load_ok_iff]
    cases t.rows.find? (·.txHash = hash.hex)
    case some r => simp
    case none =>
      simp only [reduceCtorEq, false_implies, implies_true, iff_true]
      exact fun h => absurd h.receiveAt (by decide)

-- The length of the slice of signatures is never right, unless the access to it fails.
theorem load_signData_ne (h : load setBytes r = .ok (.ok da'))
    (hr : r.signData = .join (da.signData.map Hex.bytes2Hex)) : da'.signData ≠ da.signData := by
  intro he
  have hs := load_signData h
  have hl := assignAll_length hs
  rw [he, hr, join_signData_length] at hl
  have hn : da.signData = [] := length_eq_zero_iff.mp (by omega)
  rw [hr, hn] at hs
  contradiction

theorem saveDACommit_eq_ok (h : saveDACommit keccak256 t da true = .ok (t', none)) :
    ∃ wd : DARow, t' = t ++ [⟨wd, false⟩] ∧ wd.txHash = da.txHash.hex ∧
      wd.signData = .join (da.signData.map Hex.bytes2Hex) ∧ da.txHash.hex ∉ t.keys DARow.key := by
  have ⟨id, _, h⟩ := Loop.bind_eq_ok h
  have h := Except.ok.inj h
  unfold create at h
  split at h
  case h_1    => simp at h
  case h_2 hc =>
    cases h
    have ⟨ht, hk⟩ := Table.create_eq_some hc
    exact ⟨_, ht, rfl, rfl, hk _ rfl⟩

theorem getCommitmentByTxHash_concat {wd : DARow} (hw : wd.txHash = da.txHash.hex)
    (hk : da.txHash.hex ∉ t.keys DARow.key) :
    getCommitmentByTxHash setBytes (t ++ [⟨wd, false⟩]) da.txHash = load setBytes wd := by
  have hn : t.rows.find? (·.txHash = da.txHash.hex) = none := by
    refine List.find?_eq_none.mpr fun r hr he => hk ?_
    exact Table.mem_keys_of_mem_rows hr (congrArg some (of_decide_eq_true he))
  have hl : (t.rows ++ [wd]).length ≠ 0 := by simp
  rw [getCommitmentByTxHash_eq, Table.rows_concat, if_neg hl, List.find?_append, hn]
  simp [hw]

-- The fields that are supposed to survive in the database, the times up to the second.
structure Restores (da da' : DA) : Prop where
  sender : da'.sender = da.sender
  nonce : da'.nonce = da.nonce
  index : da'.index = da.index
  length : da'.length = da.length
  data : da'.data = da.data
  commitment : da'.commitment = da.commitment
  proof : da'.proof = da.proof
  signData : da'.signData = da.signData
  signerAddr : da'.signerAddr = da.signerAddr
  txHash : da'.txHash = da.txHash
  blockNum : da'.blockNum = da.blockNum
  nameSpaceID : da'.nameSpaceID = da.nameSpaceID
  receiveAt : da'.receiveAt.sec = da.receiveAt.sec
  outOfTime : da'.outOfTime.sec = da.outOfTime.sec

-- No data that was stored can be read back.
theorem not_restores (keccak256 : Bytes → Hash) (setBytes : SetBytes)
    (t t' : Table DARow) (da : DA) (h : saveDACommit keccak256 t da true = .ok (t', none)) :
    ¬∃ da', getCommitmentByTxHash setBytes t' da.txHash = .ok (.ok da') ∧ Restores da da' := by
  rintro ⟨da', hg, hr⟩
  have ⟨wd, ht, hw, hs, hk⟩ := saveDACommit_eq_ok h
  rw [ht, getCommitmentByTxHash_concat hw hk] at hg
  exact load_signData_ne hg hs hr.signData

def signed : DA :=
  { DA.zero with signData := [[1, 2, 3]], nameSpaceID := some 7 }

theorem saveDACommit_signed : ∃ t, saveDACommit bytesToHash [] signed true = .ok (t, none) :=
  ⟨_, rfl⟩

theorem not_restores_signed : ∃ t, saveDACommit bytesToHash [] signed true = .ok (t, none) ∧
    ¬∃ da, getCommitmentByTxHash (fun _ => (.zero, none)) t signed.txHash = .ok (.ok da) ∧
      Restores signed da :=
  have ⟨t, h⟩ := saveDACommit_signed
  ⟨t, h, not_restores bytesToHash (fun _ => (.zero, none)) [] t signed h⟩

-- Even if all points of the curve can be read.
theorem not_forall_restores :
    ¬∀ (keccak256 : Bytes → Hash) (setBytes : SetBytes) (t t' : Table DARow)
      (da : DA) (id : Int), da.nameSpaceID = some id → -2 ^ 63 ≤ id → id < 2 ^ 63 →
      (∀ s ∈ da.signerAddr, GoString.comma ∉ s) → setBytes da.commitment.marshal = (da.commitment, none) →
      saveDACommit keccak256 t da true = .ok (t', none) →
      ∃ da', getCommitmentByTxHash setBytes t' da.txHash = .ok (.ok da') ∧ Restores da da' := by
  intro h
  have ⟨t, ht⟩ := saveDACommit_signed
  have ⟨da', hg, hr⟩ := h bytesToHash (fun _ => (.zero, none)) [] t signed 7 rfl (by decide) (by decide)
    (by simp [signed, DA.zero]) rfl ht
  have ⟨wd, hc, hw, hs, hk⟩ := saveDACommit_eq_ok ht
  rw [hc, getCommitmentByTxHash_concat hw hk] at hg
  exact load_signData_ne hg hs hr.signData

end Db
