import Mathlib.Logic.Equiv.List
import DomiconExec.Primitives.Loop
import DomiconExec.Core.Theorems.BlockChain
import DomiconExec.Eth.Serve

open List Rawdb

namespace Eth

namespace Batches

variable {s s' : Batches} {l : List (Option DA × Nat)}

theorem step_of_ok (hs : s.batchFileDatas = []) {p : Option DA × Nat} {encoded : Bytes}
    (he : encodePtr p.fst = .ok encoded) : s.step p = .error .indexOutOfRange := by
  rw [step, he]
  dsimp only [isFull, append]
  rw [hs]
  split <;> rfl

theorem step_of_error {p : Option DA × Nat} {err : Rlp.EncodeError}
    (he : encodePtr p.fst = .error err) : s.step p = .ok s := by
  rw [step, he]

-- The loop ends only if nothing can be encoded, and then it has done nothing.
theorem foldlM_step_eq_ok_iff (hs : s.batchFileDatas = []) :
    l.foldlM step s = .ok s' ↔ s' = s ∧ ∀ p ∈ l, ∃ err, encodePtr p.fst = .error err := by
  induction l
  case nil => simpa [pure, Except.pure] using eq_comm
  case cons p l hi =>
    rw [foldlM_cons, forall_mem_cons]
    cases he : encodePtr p.fst
    case error err =>
      have hp : ∃ err', (.error err : Except Rlp.EncodeError Bytes) = .error err' := ⟨err, rfl⟩
      rw [step_of_error he, and_iff_right hp]
      exact hi
    case ok =>
      rw [step_of_ok hs he]
      exact iff_of_false (by simp [bind, Except.bind]) (by simp)

end Batches

section Service

variable {Header Body : Type} {c : BlockCodec Header Body} {json : Json} {s s' : Service c}
variable {hash : Hash} {results : List (Option DA)} {bc : BlockChain c} {query : List Hash}

theorem serveResults_eq_ok_iff : serveResults hash results s = .ok s' ↔
    s' = s ∧ ∀ fd ∈ results, ∃ err, encodePtr fd = .error err := by
  have hm : (∀ p ∈ results.zipIdx, ∃ err, encodePtr p.fst = .error err) ↔
      ∀ fd ∈ results, ∃ err, encodePtr fd = .error err := by
    nth_rewrite 2 [← results.zipIdx_map_fst 0]
    simp only [forall_mem_map]
  have hl (b : Batches) :=
    @Batches.foldlM_step_eq_ok_iff ⟨s.bytes, s.batch, []⟩ b results.zipIdx rfl
  simp only [hm] at hl
  have hs : { s with resultList := s.resultList ++ [] } = s := by rw [append_nil]
  constructor
  case mp =>
    intro h
    obtain ⟨b, hb, h⟩ := Loop.bind_eq_ok h
    obtain ⟨rfl, he⟩ := (hl b).mp hb
    exact ⟨(Except.ok.inj h).symm.trans hs, he⟩
  case mpr =>
    rintro ⟨rfl, he⟩
    exact (Loop.bind_of_eq_ok ((hl _).mpr ⟨rfl, he⟩)).trans (congrArg Except.ok hs)

def Idle (json : Json) (db : Store) (hash : Hash) : Prop :=
  ∀ number fds, readHeaderNumber db hash = some number →
    readFileDatas json db hash number = some fds → ∀ fd ∈ fds, ∃ err, encodePtr fd = .error err

theorem idle_iff : Idle json bc.db hash ↔
    ∀ fds, bc.getFileDatasByHash json hash = some fds →
      ∀ fd ∈ fds, ∃ err, encodePtr fd = .error err := by
  have hg (fds : List (Option DA)) : bc.getFileDatasByHash json hash = some fds ↔
      ∃ number, readHeaderNumber bc.db hash = some number ∧
        readFileDatas json bc.db hash number = some fds := Option.bind_eq_some_iff
  simp only [hg]
  constructor
  case mp =>
    rintro h fds ⟨number, hn, hf⟩
    exact h number fds hn hf
  case mpr => exact fun h number fds hn hf => h fds ⟨number, hn, hf⟩

theorem serveHash_ok_iff :
    (∃ s', serveHash json s hash = .ok s') ↔ Idle json s.chain.db hash := by
  rw [idle_iff]
  unfold serveHash
  cases hf : s.chain.getFileDatasByHash json hash
  case some results => simp [serveResults_eq_ok_iff]
  case none =>
    dsimp only
    split <;> simp [serveResults_eq_ok_iff]

theorem serveHash_frame (h : serveHash json s hash = .ok s') :
    s'.resultList = s.resultList ∧ s'.chain.db = s.chain.db := by
  unfold serveHash at h
  split at h
  case h_1 =>
    obtain ⟨rfl, -⟩ := serveResults_eq_ok_iff.mp h
    exact ⟨rfl, rfl⟩
  case h_2 =>
    dsimp only at h
    split at h
    case isTrue =>
      cases h
      exact ⟨rfl, BlockChain.getBlockByHash_db⟩
    case isFalse =>
      obtain ⟨rfl, -⟩ := serveResults_eq_ok_iff.mp h
      exact ⟨rfl, BlockChain.getBlockByHash_db⟩

theorem foldlM_serveHash_ok_iff :
    (∃ s', query.foldlM (serveHash json) s = .ok s') ↔
      ∀ hash ∈ query, Idle json s.chain.db hash := by
  induction query generalizing s
  case nil => exact iff_of_true ⟨s, rfl⟩ (by simp)
  case cons hash query hi =>
    rw [forall_mem_cons, ← serveHash_ok_iff, foldlM_cons]
    constructor
    case mp =>
      rintro ⟨s', h⟩
      obtain ⟨s₁, h₁, h⟩ := Loop.bind_eq_ok h
      have hq := hi.mp ⟨s', h⟩
      rw [(serveHash_frame h₁).right] at hq
      exact ⟨⟨s₁, h₁⟩, hq⟩
    case mpr =>
      rintro ⟨⟨s₁, h₁⟩, hq⟩
      rw [← (serveHash_frame h₁).right] at hq
      rw [h₁]
      exact hi.mpr hq

theorem serviceGetFileDatasQuery_eq_nil {bc' : BlockChain c} {l : List BantchFileData}
    (h : serviceGetFileDatasQuery json bc query = .ok (bc', l)) :
    l = [] := by
  obtain ⟨s', hs, h⟩ := Loop.bind_eq_ok h
  cases h
  refine Loop.foldlM_preserves (fun s => s.resultList = []) ?_ rfl hs
  exact fun _ _ _ _ hr h => (serveHash_frame h).left.trans hr

theorem serviceGetFileDatasQuery_ok_iff :
    (∃ r, serviceGetFileDatasQuery json bc query = .ok r) ↔
      ∀ hash ∈ query, Idle json bc.db hash :=
  (Loop.bind_ok_iff fun _ => ⟨_, rfl⟩).trans foldlM_serveHash_ok_iff

section Write

variable {db : Store} {key key' value : Bytes} {number : UInt64} {fileDatas : List (Option DA)}

theorem read_put_of_ne (h : key' ≠ key) : (db.put key value).read key' = db.read key' :=
  congrArg (Option.getD · []) (GoMap.get_set_ne h)

-- The keys that are read begin with other letters than the one that is written.
theorem idle_writeFileDatas {hash' : Hash} :
    Idle json (writeFileDatas json db hash' number fileDatas) hash ↔ Idle json db hash := by
  have hn : headerNumberKey hash ≠ blockFileDatasKey number hash' := by
    intro h
    have hh : some (72 : UInt8) = some 70 := congrArg List.head? h
    cases hh
  have hb (n : UInt64) : blockBodyKey n hash ≠ blockFileDatasKey number hash' := by
    intro h
    have hh : some (98 : UInt8) = some 70 := congrArg List.head? h
    cases hh
  unfold Idle readHeaderNumber readFileDatas writeFileDatas
  simp only [read_put_of_ne hn, read_put_of_ne (hb _)]

end Write

def Served (json : Json) (bc : BlockChain c) (hash : Hash) (number : UInt64) (das : List DA)
    (query : List Hash) : Prop :=
  ∃ encs bc' l, das.mapM DA.encode = .ok encs ∧
    serviceGetFileDatasQuery json
      { bc with db := writeFileDatas json bc.db hash number (das.map some) } query =
        .ok (bc', l) ∧
    (l.filter (·.headerHash = hash)).flatMap (·.fileDatas) = encs ∧
    ∀ b ∈ l, b.headerHash = hash →
      b.length.toNat = b.fileDatas.length ∧ b.fileDatas.length ≤ maxFileDatasServe

theorem eq_nil_of_served {number : UInt64} {das : List DA}
    (h : Served json bc hash number das query) : das = [] := by
  obtain ⟨encs, bc', l, he, hs, hc, -⟩ := h
  cases serviceGetFileDatasQuery_eq_nil hs
  cases hc
  have hl := (Loop.mapM_eq_ok_iff.mp he).length_eq
  exact length_eq_zero_iff.mp hl

-- Nothing is served, so that there must have been nothing to write.
theorem served_iff (json : Json) (bc : BlockChain c) (hash : Hash) (number : UInt64) (das : List DA)
    (query : List Hash) : Served json bc hash number das query ↔
      das = [] ∧ ∀ hash' ∈ query, Idle json bc.db hash' := by
  have hq : (∃ r, serviceGetFileDatasQuery json
      { bc with db := writeFileDatas json bc.db hash number (das.map some) } query = .ok r) ↔
      ∀ hash' ∈ query, Idle json bc.db hash' :=
    serviceGetFileDatasQuery_ok_iff.trans (forall₂_congr fun _ _ => idle_writeFileDatas)
  constructor
  case mp =>
    intro h
    refine ⟨eq_nil_of_served h, hq.mp ?_⟩
    obtain ⟨_, bc', l, -, hs, -⟩ := h
    exact ⟨(bc', l), hs⟩
  case mpr =>
    rintro ⟨rfl, hi⟩
    obtain ⟨⟨bc', l⟩, hs⟩ := hq.mpr hi
    cases serviceGetFileDatasQuery_eq_nil hs
    exact ⟨[], bc', [], rfl, hs, rfl, by simp⟩

end Service

def Lossless (json : Json) : Prop :=
  ∀ l, ∃ data, json.marshal l = .ok data ∧ json.unmarshal data = .ok l

theorem countable_digest : Countable Digest := by
  have hw : Countable UInt64 := Function.Injective.countable fun _ _ => UInt64.toNat_inj.mp
  have he : Countable Element := Subtype.countable
  have h : Function.Injective fun d : Digest => (d.x, d.y) := by
    intro d e h
    cases d
    cases e
    simpa using h
  exact h.countable

theorem countable_goTime : Countable GoTime := by
  have h : Function.Injective fun t : GoTime => (t.sec, t.nsec, t.offset) := by
    intro t u h
    cases t
    cases u
    simpa using h
  exact h.countable

theorem countable_da : Countable DA := by
  have hd := countable_digest
  have ht := countable_goTime
  have hb : Countable UInt8 := Function.Injective.countable fun _ _ => UInt8.toNat_inj.mp
  have hw : Countable UInt64 := Function.Injective.countable fun _ _ => UInt64.toNat_inj.mp
  have ha (n : Nat) : Countable (ByteArr n) := Subtype.countable
  have h : Function.Injective fun d : DA => ((d.sender, d.nonce, d.index, d.length, d.data,
      d.commitment, d.signData, d.signerAddr, d.dasKey), d.txHash, d.blockNum, d.receiveAt,
      d.outOfTime, d.proof, d.claimedValue, d.nameSpaceID, d.root) := by
    intro d e h
    cases d
    cases e
    simpa [and_assoc] using h
  exact h.countable

theorem exists_lossless : ∃ json, Lossless json := by
  have hd := countable_da
  obtain ⟨f, hf⟩ := exists_injective_nat (List (Option DA))
  let marshal (l : List (Option DA)) := Bytes.bigEndian (f l)
  have hm : marshal.Injective :=
    Function.LeftInverse.injective Bytes.toNat_bigEndian |>.comp hf
  refine ⟨⟨fun l => .ok (marshal l), fun b => .ok (marshal.invFun b)⟩, fun l => ?_⟩
  exact ⟨_, rfl, congrArg Except.ok (Function.leftInverse_invFun hm l)⟩

def numbered : BlockChain BlockChain.bareCodec where
  blockCache := .new
  db := {
    kv := .set ∅ (headerNumberKey .zero) (encodeBlockNumber 1)
    ancient _ _ := none
  }
  sqlDb := []
  sqlError := none

-- One piece of data is written for a block.
theorem not_forall_served :
    ¬∀ (Header Body : Type) (c : BlockCodec Header Body) (json : Json), Lossless json →
      ∀ (bc : BlockChain c) (hash : Hash) (number : UInt64) (das : List DA) (query : List Hash),
        hash ∈ query → Served json bc hash number das query := by
  intro h
  obtain ⟨json, hj⟩ := exists_lossless
  have hs := h _ _ _ json hj numbered .zero 1 [DA.zero] [.zero] List.mem_cons_self
  cases eq_nil_of_served hs

end Eth
