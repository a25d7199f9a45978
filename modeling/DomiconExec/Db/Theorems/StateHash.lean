import DomiconExec.Db.DAData

namespace Db

open List Sql

variable {keccak256 : Bytes → Hash} {parentHash : Hash} {t t' : Table DARow} {das : List DA}

inductive Batch
  | save
  | add

def Batch.run (keccak256 : Bytes → Hash) (t : Table DARow) (das : List DA) (parentHash : Hash) :
    Batch → Except GoPanic (Table DARow × Option Error)
  | save => .ok (saveBatchCommitment keccak256 t das parentHash)
  | add  => addBatchCommitment keccak256 t das parentHash

-- The parent hash is collected last, and only the last 32 bytes make up the state hash.
theorem bytesToHash_collect (dataCollect : Bytes) (da : DA) :
    bytesToHash (collect dataCollect da parentHash) = parentHash :=
  ByteArr.setBytes_append _ parentHash

def Repeats (parentHash : Hash) (r : DARow) : Prop :=
  r.parentStateHash = parentHash.hex ∧ r.stateHash = parentHash.hex

theorem batchRows_repeats (dataCollect : Bytes) (das : List DA) :
    ∀ r ∈ batchRows keccak256 dataCollect parentHash das, Repeats parentHash r := by
  induction das generalizing dataCollect
  case nil => simp [batchRows]
  case cons da das hi =>
    simp only [batchRows, bytesToHash_collect, forall_mem_cons]
    exact ⟨⟨rfl, rfl⟩, hi _⟩

theorem batchRows_length (dataCollect : Bytes) (das : List DA) :
    (batchRows keccak256 dataCollect parentHash das).length = das.length := by
  induction das generalizing dataCollect parentHash
  case nil            => rfl
  case cons da das hi => exact congrArg (· + 1) (hi _)

-- The table `t` was extended by as many rows as there is data, all of which repeat the parent hash.
def Extends (parentHash : Hash) (das : List DA) (t t' : Table DARow) : Prop :=
  ∃ l : List DARow, t' = t ++ l.map (⟨·, false⟩) ∧ l.length = das.length ∧
    ∀ r ∈ l, Repeats parentHash r

theorem saveBatchCommitment_extends
    (h : saveBatchCommitment keccak256 t das parentHash = (t', none)) :
    Extends parentHash das t t' := by
  refine ⟨batchRows keccak256 [] parentHash das, ?_, batchRows_length .., batchRows_repeats [] das⟩
  unfold saveBatchCommitment at h
  split at h
  case h_1 => simp at h
  case h_2 =>
    split at h
    case h_1    => simp at h
    case h_2 hc =>
      cases h
      exact Table.createAll_eq_some hc

theorem addBatch_extends {dataCollect : Bytes} {tx : Table DARow}
    (h : addBatch keccak256 t dataCollect parentHash das tx = .ok (t', none)) :
    Extends parentHash das tx t' := by
  induction das generalizing dataCollect tx
  case nil =>
    cases h
    exact ⟨[], by simp⟩
  case cons da das hi =>
    simp only [addBatch, bytesToHash_collect] at h
    cases hn : nameSpaceInt64 da <;> simp only [hn, bind, Except.bind] at h
    case error => contradiction
    case ok id =>
      split at h
      case h_1       => simp [pure, Except.pure] at h
      case h_2 tx hc =>
        have ⟨l, ht, hl, hr⟩ := hi h
        rw [(Table.create_eq_some hc).left, append_assoc] at ht
        refine ⟨_ :: l, ht, congrArg (· + 1) hl, ?_⟩
        exact forall_mem_cons.mpr ⟨⟨rfl, rfl⟩, hr⟩

theorem Batch.run_extends {m : Batch} (h : m.run keccak256 t das parentHash = .ok (t', none)) :
    Extends parentHash das t t' := by
  cases m
  case save => exact saveBatchCommitment_extends (Except.ok.inj h)
  case add  => exact addBatch_extends h

def Differ (das das' : List DA) : Prop :=
  das.length = das'.length ∧ ∃ (i : Nat) (da da' : DA), das[i]? = some da ∧ das'[i]? = some da' ∧
    (da.commitment ≠ da'.commitment ∨ da.sender ≠ da'.sender)

def lastStateHash (t : Table DARow) : Option GoString :=
  t.getLast?.map (·.row.stateHash)

-- The rows by which `t` was extended to `t'` form a chain of distinct hashes.
structure Chained (t t' : Table DARow) : Prop where
  linked : List.IsChain (fun r r' => r'.row.parentStateHash = r.row.stateHash) (t'.drop t.length)
  fresh : ∀ r ∈ t'.drop t.length, r.row.stateHash ≠ r.row.parentStateHash

theorem Extends.lastStateHash (h : Extends parentHash das t t') (hd : das ≠ []) :
    lastStateHash t' = some parentHash.hex := by
  have ⟨l, ht, hl, hr⟩ := h
  have hn : l ≠ [] := by
    rintro rfl
    exact hd <| length_eq_zero_iff.mp hl.symm
  have hm : l.map (⟨·, false⟩) ≠ ([] : Table DARow) := by simpa using hn
  rw [Db.lastStateHash, ht, List.getLast?_append_of_ne_nil _ hm, List.getLast?_map,
    List.getLast?_eq_some_getLast hn]
  exact congrArg some (hr _ (getLast_mem hn)).right

theorem Extends.drop (h : Extends parentHash das t t') :
    ∀ r ∈ t'.drop t.length, Repeats parentHash r.row := by
  have ⟨l, ht, _, hr⟩ := h
  rw [ht, drop_left]
  simpa using hr

theorem Differ.ne_nil {das' : List DA} (h : Differ das das') : das ≠ [] ∧ das' ≠ [] := by
  have ⟨_, _, _, _, hi, hi', _⟩ := h
  constructor <;> rintro rfl <;> simp_all

-- The last state hash is always the one the chain started from, and no row has one of its own.
theorem stateHash_eq_parentHash (keccak256 : Bytes → Hash) (m : Batch) (parentHash : Hash)
    (das das' : List DA) (t₁ t₁' t₂ t₂' : Table DARow) (hd : Differ das das')
    (h₁ : m.run keccak256 t₁ das parentHash = .ok (t₁', none))
    (h₂ : m.run keccak256 t₂ das' parentHash = .ok (t₂', none)) :
    lastStateHash t₁' = lastStateHash t₂' ∧
      ∀ r ∈ t₁'.drop t₁.length, r.row.stateHash = r.row.parentStateHash := by
  have ⟨hn, hn'⟩ := hd.ne_nil
  have he := Batch.run_extends h₁
  constructor
  case left  => rw [he.lastStateHash hn, (Batch.run_extends h₂).lastStateHash hn']
  case right =>
    intro r hr
    have ⟨hp, hs⟩ := he.drop r hr
    rw [hp, hs]

def sent (b : UInt8) : DA :=
  { DA.zero with sender := .fill b, nameSpaceID := some 0 }

theorem sent_differ : Differ [sent 1] [sent 2] :=
  ⟨rfl, 0, sent 1, sent 2, rfl, rfl, .inr (by decide)⟩

theorem run_sent (b : UInt8) :
    ∃ t, Batch.save.run bytesToHash [] [sent b] .zero = .ok (t, none) :=
  ⟨_, rfl⟩

theorem stateHash_sent : ∃ t₁ t₂ : Table DARow,
    Batch.save.run bytesToHash [] [sent 1] .zero = .ok (t₁, none) ∧
    Batch.save.run bytesToHash [] [sent 2] .zero = .ok (t₂, none) ∧
    lastStateHash t₁ = lastStateHash t₂ := by
  have ⟨t₁, h₁⟩ := run_sent 1
  have ⟨t₂, h₂⟩ := run_sent 2
  exact ⟨t₁, t₂, h₁, h₂,
    (stateHash_eq_parentHash bytesToHash .save .zero _ _ [] t₁ [] t₂ sent_differ h₁ h₂).left⟩

theorem not_stateHash_binds :
    ¬∀ (keccak256 : Bytes → Hash) (m : Batch) (parentHash : Hash) (das das' : List DA)
      (t₁ t₁' t₂ t₂' : Table DARow), Differ das das' →
      m.run keccak256 t₁ das parentHash = .ok (t₁', none) →
      m.run keccak256 t₂ das' parentHash = .ok (t₂', none) →
      lastStateHash t₁' ≠ lastStateHash t₂' ∧ Chained t₁ t₁' := by
  intro h
  have ⟨t₁, h₁⟩ := run_sent 1
  have ⟨t₂, h₂⟩ := run_sent 2
  have ⟨hn, _⟩ := h bytesToHash .save .zero _ _ [] t₁ [] t₂ sent_differ h₁ h₂
  exact hn <| (Batch.run_extends h₁).lastStateHash (by simp) |>.trans
    ((Batch.run_extends h₂).lastStateHash (by simp)).symm

end Db
