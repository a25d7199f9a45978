import DomiconExec.Db.Readers
import DomiconExec.Db.Theorems.RoundTrip

namespace Db

open List Sql

variable {keccak256 : Bytes → Hash} {setBytes : SetBytes} {t t' : Table DARow} {r : DARow}
variable {txHash cmHash : Hash} {commitment : Bytes}

namespace DARow

theorem column_txHash : column "f_tx_hash" = some DARow.txHash :=
  rfl

theorem column_commitment : column "f_commitment" = some DARow.commitment :=
  rfl

theorem column_commitmentHash : column "f_commitment_hash" = some DARow.commitmentHash :=
  rfl

end DARow

section Read

variable {column : String}

theorem readDA_of_unique {f : DARow → GoString} (h : DARow.column column = some f)
    (hr : r ∈ t.rows) (hu : ∀ r' ∈ t.rows, f r' = f r → r' = r) :
    readDA setBytes t column (f r) = load setBytes r := by
  have hn : t.rows.length ≠ 0 := (length_pos_of_mem hr).ne'
  have hf : t.rows.find? (f · = f r) = some r := by
    cases hf : t.rows.find? (f · = f r)
    case none    => simpa using List.find?_eq_none.mp hf r hr
    case some r' =>
      have he : f r' = f r := by simpa using List.find?_some hf
      rw [hu r' (List.mem_of_find?_eq_some hf) he]
  rw [readDA, if_neg hn, findDA, h]
  simp only [hf, Option.getD_some]

theorem getDAByCommitment_eq : getDAByCommitment setBytes t commitment =
    .ok (.error (if t.rows.length = 0 then .tableIsEmpty else .noSuchColumn)) :=
  readDA_of_none rfl

end Read

-- The tables that are filled by `SaveDACommit` and `SaveBatchCommitment`.
inductive Filled (keccak256 : Bytes → Hash) : Table DARow → Prop
  | empty : Filled keccak256 []
  | save {t t' : Table DARow} {da : DA} {shouldSave : Bool} {err : Option Error} :
    Filled keccak256 t → saveDACommit keccak256 t da shouldSave = .ok (t', err) →
    Filled keccak256 t'
  | batch {t : Table DARow} {das : List DA} {parentHash : Hash} :
    Filled keccak256 t → Filled keccak256 (saveBatchCommitment keccak256 t das parentHash).fst

-- Both texts of a commitment are those of the same bytes.
def Commits (r : DARow) : Prop :=
  ∃ b, r.commitment = Hex.bytes2Hex b ∧ r.commitmentHash = (bytesToHash b).hex

structure Consistent (t : Table DARow) : Prop where
  nodup : (t.keys DARow.key).Nodup
  commits : ∀ r ∈ t.rows, Commits r

theorem batchRows_commits {dataCollect : Bytes} {h : Hash} {das : List DA} :
    ∀ r ∈ batchRows keccak256 dataCollect h das, Commits r := by
  induction das generalizing dataCollect h
  case nil => exact forall_mem_nil _
  case cons da das hi =>
    refine forall_mem_cons.mpr ⟨⟨da.commitment.marshal, ?_, ?_⟩, hi⟩
    case refine_1 => simp only [row]
    case refine_2 => simp only [row]

namespace Consistent

theorem createAll {l : List DARow} (h : Consistent t) (hl : ∀ r ∈ l, Commits r)
    (hc : t.createAll DARow.key l = some t') : Consistent t' := by
  have hf := Table.createAll_isSome_iff.mp (Option.isSome_of_eq_some hc)
  have hk : Table.keys DARow.key (l.map (⟨·, false⟩)) = l.filterMap DARow.key :=
    List.filterMap_map
  rw [Table.createAll_eq_some hc]
  constructor
  case nodup =>
    rw [Table.keys_append, hk]
    exact nodup_append'.mpr ⟨h.nodup, hf.nodup, fun k hk hk' => hf.free k hk' hk⟩
  case commits =>
    rw [Table.rows_append]
    exact forall_mem_append.mpr ⟨h.commits, hl⟩

theorem create {r : DARow} (h : Consistent t) (hr : Commits r) :
    Consistent (Db.create t r).fst := by
  unfold Db.create
  split
  case h_1 => exact h
  case h_2 t' hc =>
    have hl : t.createAll DARow.key [r] = some t' := by
      rw [Table.createAll, foldlM_cons, hc]
      rfl
    exact h.createAll (forall_mem_singleton.mpr hr) hl

theorem saveDACommit {da : DA} {shouldSave : Bool} {err : Option Error} (h : Consistent t)
    (hs : saveDACommit keccak256 t da shouldSave = .ok (t', err)) : Consistent t' := by
  cases shouldSave
  case false =>
    cases hs
    exact h
  case true =>
    obtain ⟨id, -, hs⟩ := Loop.bind_eq_ok hs
    have ht : (Db.create t _).fst = t' := congrArg Prod.fst (Except.ok.inj hs)
    rw [← ht]
    refine h.create ⟨da.commitment.marshal, ?_, ?_⟩
    case refine_1 => simp only [row]
    case refine_2 => simp only [row]

theorem saveBatchCommitment {das : List DA} {parentHash : Hash} (h : Consistent t) :
    Consistent (saveBatchCommitment keccak256 t das parentHash).fst := by
  unfold Db.saveBatchCommitment
  split
  case h_1 => exact h
  case h_2 =>
    split
    case h_1    => exact h
    case h_2 hc => exact h.createAll batchRows_commits hc

theorem of_filled (h : Filled keccak256 t) : Consistent t := by
  induction h
  case empty      => exact ⟨nodup_nil, forall_mem_nil _⟩
  case save hs hi => exact hi.saveDACommit hs
  case batch hi   => exact hi.saveBatchCommitment

theorem txHash_unique {r' : DARow} (h : Consistent t) (hr : r ∈ t.rows) (hr' : r' ∈ t.rows)
    (he : r'.txHash = r.txHash) : r' = r := by
  have hk : t.keys DARow.key = t.map (·.row.txHash) :=
    congrFun filterMap_eq_map t
  obtain ⟨x, hx, rfl⟩ := mem_map.mp hr
  obtain ⟨x', hx', rfl⟩ := mem_map.mp hr'
  have hi := inj_on_of_nodup_map (hk ▸ h.nodup)
  exact congrArg Record.row (hi (mem_of_mem_filter hx') (mem_of_mem_filter hx) he)

theorem commitmentHash_eq {r' : DARow} (h : Consistent t) (hr : r ∈ t.rows) (hr' : r' ∈ t.rows)
    (he : r'.commitment = r.commitment) : r'.commitmentHash = r.commitmentHash := by
  obtain ⟨b, hb, hh⟩ := h.commits r hr
  obtain ⟨b', hb', hh'⟩ := h.commits r' hr'
  have hx : Hex.hex2Bytes (Hex.bytes2Hex b') = Hex.hex2Bytes (Hex.bytes2Hex b) :=
    congrArg Hex.hex2Bytes (hb' ▸ he.trans hb)
  rw [Hex.hex2Bytes_bytes2Hex, Hex.hex2Bytes_bytes2Hex] at hx
  rw [hh, hh', hx]

end Consistent

structure Holds (setBytes : SetBytes) (t : Table DARow) (r : DARow) (txHash : Hash)
    (commitment : Bytes) (cmHash : Hash) : Prop where
  mem : r ∈ t.rows
  txHash : r.txHash = txHash.hex
  commitment : r.commitment = Hex.bytes2Hex (setBytes commitment).fst.marshal
  commitmentHash : r.commitmentHash = cmHash.hex
  unique : ∀ r' ∈ t.rows, r'.commitmentHash = r.commitmentHash → r' = r

def Agree (setBytes : SetBytes) (t : Table DARow) (txHash : Hash) (commitment : Bytes)
    (cmHash : Hash) : Prop :=
  ∃ da, getCommitmentByTxHash setBytes t txHash = .ok (.ok da) ∧
    getDAByCommitment setBytes t commitment = .ok (.ok da) ∧
    getDAByCommitmentHash setBytes t cmHash = .ok (.ok da)

-- With the names of the columns that the table has, all functions would load the same row.
theorem readDA_eq_load (hf : Filled keccak256 t)
    (h : Holds setBytes t r txHash commitment cmHash) :
    readDA setBytes t "f_tx_hash" txHash.hex = load setBytes r ∧
      readDA setBytes t "f_commitment" (Hex.bytes2Hex (setBytes commitment).fst.marshal) =
        load setBytes r ∧
      readDA setBytes t "f_commitment_hash" cmHash.hex = load setBytes r := by
  have hc := Consistent.of_filled hf
  rw [← h.txHash, ← h.commitment, ← h.commitmentHash]
  have hu : ∀ r' ∈ t.rows, r'.commitment = r.commitment → r' = r := fun r' hr he =>
    h.unique r' hr (hc.commitmentHash_eq h.mem hr he)
  refine ⟨?tx, readDA_of_unique DARow.column_commitment h.mem hu,
    readDA_of_unique DARow.column_commitmentHash h.mem h.unique⟩
  apply readDA_of_unique DARow.column_txHash h.mem
  exact fun r' hr he => hc.txHash_unique h.mem hr he

-- Only one of the names is the name of a column.
theorem not_agree (keccak256 : Bytes → Hash) (setBytes : SetBytes) (t : Table DARow) (r : DARow)
    (txHash : Hash) (commitment : Bytes) (cmHash : Hash) (hf : Filled keccak256 t)
    (h : Holds setBytes t r txHash commitment cmHash) :
    getCommitmentByTxHash setBytes t txHash = load setBytes r ∧
      getDAByCommitment setBytes t commitment = .ok (.error .noSuchColumn) ∧
      getDAByCommitmentHash setBytes t cmHash = .ok (.error .noSuchColumn) ∧
      ¬Agree setBytes t txHash commitment cmHash := by
  have hn : t.rows.length ≠ 0 := (length_pos_of_mem h.mem).ne'
  have hc := @getDAByCommitment_eq setBytes t commitment
  have hh : getDAByCommitmentHash setBytes t cmHash = _ := readDA_of_none rfl
  rw [if_neg hn] at hc hh
  refine ⟨(readDA_eq_load hf h).left, hc, hh, ?_⟩
  rintro ⟨da, -, hd, -⟩
  rw [hc] at hd
  cases hd

def attested : DA :=
  { DA.zero with signData := [[1]], signerAddr := [[65]], nameSpaceID := some 7 }

def attestedRow : DARow :=
  { row bytesToHash attested with outOfTime := attested.outOfTime.format, nameSpaceID := 7 }

theorem filled_attested : Filled bytesToHash [⟨attestedRow, false⟩] :=
  @Filled.save _ [] _ attested true none .empty rfl

theorem holds_attested : Holds (fun _ => (.zero, none)) [⟨attestedRow, false⟩] attestedRow
    attested.txHash attested.commitment.marshal attested.commitment.hash where
  mem := mem_singleton_self _
  txHash := rfl
  commitment := rfl
  commitmentHash := rfl
  unique := fun _ hr _ => mem_singleton.mp hr

theorem not_agree_attested : Filled bytesToHash [⟨attestedRow, false⟩] ∧
    Holds (fun _ => (.zero, none)) [⟨attestedRow, false⟩] attestedRow attested.txHash
      attested.commitment.marshal attested.commitment.hash ∧
    (∃ da, getCommitmentByTxHash (fun _ => (.zero, none)) [⟨attestedRow, false⟩]
      attested.txHash = .ok (.ok da)) ∧
    ¬Agree (fun _ => (.zero, none)) [⟨attestedRow, false⟩] attested.txHash
      attested.commitment.marshal attested.commitment.hash :=
  have h := not_agree _ _ _ _ _ _ _ filled_attested holds_attested
  ⟨filled_attested, holds_attested, ⟨_, rfl⟩, h.right.right.right⟩

theorem not_forall_agree :
    ¬∀ (keccak256 : Bytes → Hash) (setBytes : SetBytes) (t : Table DARow) (r : DARow)
      (txHash : Hash) (commitment : Bytes) (cmHash : Hash), Filled keccak256 t →
      Holds setBytes t r txHash commitment cmHash → Agree setBytes t txHash commitment cmHash := by
  intro h
  obtain ⟨da, -, hc, -⟩ := h _ _ _ _ _ _ _ filled_attested holds_attested
  rw [getDAByCommitment_eq] at hc
  cases hc
end Db
