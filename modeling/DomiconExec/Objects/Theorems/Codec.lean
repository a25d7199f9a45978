import DomiconExec.Primitives.Loop
import DomiconExec.Rlp.Theorems.Target
import DomiconExec.Rlp.Theorems.Truncated
import DomiconExec.Objects.Signer

open Bytes Rlp TypeInfo

section Items

def Element.item (z : Element) : Item :=
  .list <| z.val.map fun w => .str (bigEndian w.toNat)

def Digest.item (d : Digest) : Item :=
  .list [d.x.item, d.y.item]

def DA.item (f : DA) : Item :=
  .list [
    .str f.sender.val,
    .str (bigEndian f.nonce.toNat),
    .str (bigEndian f.index.toNat),
    .str (bigEndian f.length.toNat),
    .str f.data,
    f.commitment.item,
    .list (f.signData.map .str),
    .list (f.signerAddr.map .str),
    .str f.dasKey.val,
    .str f.txHash.val,
    .str (bigEndian f.blockNum.toNat),
    .list [],
    .list [],
    .str f.proof,
    .str f.claimedValue,
    .str (bigEndian (f.nameSpaceID.getD 0).toNat),
    .str f.root.val
  ]

end Items

theorem Element.transfers (old z : Element) : info.Transfers old z z z.item :=
  array_transfers _ old z fun w _ old => uint64_transfers old w

theorem Digest.transfers (old d : Digest) : info.Transfers old d d d.item :=
  struct_transfers _ _ <|
    .cons (.of (Element.transfers _ _)) <|
    .cons (.of (Element.transfers _ _)) <|
    .nil

theorem GoTime.transfers (old t : GoTime) : info.Transfers old t old (.list []) :=
  struct_transfers _ _ .nil

theorem slice_ofBytes_transfers (typ : String) (old l : List Bytes) :
    (slice (ofBytes typ)).Transfers old l l (.list (l.map .str)) :=
  slice_transfers old l (fun b _ old => ofBytes_transfers typ old b) (ofBytes_stopsAtEnd typ)

namespace DA

variable {da : DA} {id : Int}

theorem nameSpaceID_transfers (old id : Option Int) (hi : 0 ≤ id.getD 0) :
    bigIntPtr.Transfers old id (some (id.getD 0)) (.str (bigEndian (id.getD 0).toNat)) := by
  cases id
  case none    => exact bigIntPtr_transfers_none old
  case some id => exact bigIntPtr_transfers old hi

theorem transfers (old : DA) (hi : 0 ≤ da.nameSpaceID.getD 0) :
    info.Transfers old da
      { da with
        receiveAt := old.receiveAt
        outOfTime := old.outOfTime
        nameSpaceID := some (da.nameSpaceID.getD 0) }
      da.item :=
  struct_transfers _ _ <|
    .cons (.of (byteArray_transfers _ _ _)) <|
    .cons (.of (uint64_transfers _ _)) <|
    .cons (.of (uint64_transfers _ _)) <|
    .cons (.of (uint64_transfers _ _)) <|
    .cons (.of (ofBytes_transfers _ _ _)) <|
    .cons (.of (Digest.transfers _ _)) <|
    .cons (.of (slice_ofBytes_transfers _ _ _)) <|
    .cons (.of (slice_ofBytes_transfers _ _ _)) <|
    .cons (.of (byteArray_transfers _ _ _)) <|
    .cons (.of (byteArray_transfers _ _ _)) <|
    .cons (.of (uint64_transfers _ _)) <|
    .cons (.of (GoTime.transfers _ _)) <|
    .cons (.of (GoTime.transfers _ _)) <|
    .cons (.of (ofBytes_transfers _ _ _)) <|
    .cons (.of (ofBytes_transfers _ _ _)) <|
    .cons (.of (nameSpaceID_transfers _ _ hi)) <|
    .cons (.of (byteArray_transfers _ _ _)) <|
    .nil

-- What is read back for `da`: the two times are lost, and there is a namespace.
def decoded (da : DA) : DA :=
  { da with receiveAt := .zero, outOfTime := .zero, nameSpaceID := some (da.nameSpaceID.getD 0) }

theorem decode_item (hi : 0 ≤ da.nameSpaceID.getD 0) (hb : da.item.encode.length < 2 ^ 64) :
    da.encode = .ok da.item.encode ∧ zero.decode da.item.encode = .ok da.decoded :=
  decodeBytes_encodeToBytes (transfers zero hi) hb

theorem decode_encode (da : DA) (hn : da.nameSpaceID = some id) (hi : 0 ≤ id)
    (hb : da.item.encode.length < 2 ^ 64) :
    da.encode = .ok da.item.encode ∧
      zero.decode da.item.encode = .ok { da with receiveAt := .zero, outOfTime := .zero } := by
  have hd : da.decoded = { da with receiveAt := .zero, outOfTime := .zero } := by
    cases da
    cases hn
    rfl
  rw [← hd]
  exact decode_item (by rwa [hn]) hb

theorem writeBigIntPtr_ok {i : Option Int} {w w' : EncBuffer} (h : writeBigIntPtr i w = .ok w') :
    0 ≤ i.getD 0 := by
  cases i
  case none   => exact Int.le_refl 0
  case some i =>
    simp only [writeBigIntPtr] at h
    split at h
    case isTrue     => contradiction
    case isFalse hi => exact Int.not_lt.mp hi

-- There is only one reason for which data cannot be encoded.
theorem nameSpaceID_nonneg {b : Bytes} (h : da.encode = .ok b) : 0 ≤ da.nameSpaceID.getD 0 := by
  obtain ⟨w, h, _⟩ := Loop.bind_eq_ok h
  obtain ⟨w', h, _⟩ := Loop.bind_eq_ok h
  -- The sixteenth field is the namespace.
  obtain ⟨c, c', hc⟩ := Loop.foldlM_ok_mem h (List.getElem_mem (n := 15) (by decide))
  exact writeBigIntPtr_ok hc

-- The data that is decoded from the encoding of `da` is `da` again, and is signed in the same way.
def RoundTrips (keccak256 : Bytes → Hash) (da : DA) : Prop :=
  ∃ b da', da.encode = .ok b ∧ zero.decode b = .ok da' ∧ da' = da ∧
    ∀ s : EIP155FdSigner, s.hash keccak256 da' = s.hash keccak256 da

theorem roundTrips_iff (keccak256 : Bytes → Hash) (da : DA) (id : Int)
    (hn : da.nameSpaceID = some id) (hi : 0 ≤ id) (hb : da.item.encode.length < 2 ^ 63) :
    da.RoundTrips keccak256 ↔ da.receiveAt = .zero ∧ da.outOfTime = .zero := by
  have ⟨he, hd⟩ := decode_encode da hn hi (Nat.lt_trans hb (by decide))
  constructor
  case mp =>
    rintro ⟨b, da', hb, hd', heq, _⟩
    cases he.symm.trans hb
    have := Except.ok.inj (hd.symm.trans hd')
    rw [← heq, ← this]
    exact ⟨rfl, rfl⟩
  case mpr =>
    intro ⟨hr, ho⟩
    have heq : { da with receiveAt := .zero, outOfTime := .zero } = da := by
      cases da
      simp_all
    exact ⟨_, _, he, hd, heq, fun s => congrArg _ heq⟩

-- Data with a signature that has no times yet.
def timeless : DA :=
  { zero with
    nonce := 3
    length := 300
    data := [1, 128]
    signData := [[1, 2], []]
    signerAddr := [[48]]
    txHash := .fill 7
    nameSpaceID := some 1000
  }

theorem roundTrips_timeless : timeless.nameSpaceID = some 1000 ∧ timeless.RoundTrips bytesToHash :=
  have h := roundTrips_iff bytesToHash timeless 1000 rfl (by decide) (by decide +kernel)
  ⟨rfl, h.mpr ⟨rfl, rfl⟩⟩

-- The same data after it was received.
def received : DA :=
  { timeless with
    receiveAt := { GoTime.zero with sec := 63840000000 }
    outOfTime := { GoTime.zero with sec := 63850000000 }
  }

theorem not_roundTrips_received :
    ¬∀ (da : DA) (id : Int), da.nameSpaceID = some id → 0 ≤ id → da.item.encode.length < 2 ^ 63 →
      da.receiveAt.nsec = 0 → da.outOfTime.nsec = 0 → da.RoundTrips bytesToHash := by
  intro h
  have ⟨b, da', hb, hd', heq, _⟩ := h received 1000 rfl (by decide) (by decide +kernel) rfl rfl
  have ⟨he, hd⟩ := decode_encode received rfl (by decide) (by decide +kernel)
  rw [← Except.ok.inj (he.symm.trans hb)] at hd'
  have hr := congrArg receiveAt <| (Except.ok.inj (hd.symm.trans hd')).trans heq
  exact absurd hr (by decide)

end DA

section Target

open Program

theorem Element.oblivious : info.Oblivious :=
  array_oblivious uint64_oblivious

theorem Digest.oblivious : info.Oblivious := by
  refine fun old old' => Alike.eq <| struct_alike
    (.cons (.of Element.oblivious) <| .cons (.of Element.oblivious) .nil) ?_
  rintro a b ⟨_, _, y, ⟨_, _, x, ⟨rfl, rfl⟩, rfl, rfl⟩, rfl, rfl⟩
  rfl

-- Only the two times remain from the value that is read into.
theorem DA.decoder_alike (old old' : DA) :
    Alike (fun a b => a.receiveAt = old.receiveAt ∧ a.outOfTime = old.outOfTime ∧
        b = { a with receiveAt := old'.receiveAt, outOfTime := old'.outOfTime })
      (info.decoder old) (info.decoder old') := by
  refine struct_alike (
    .cons (.of (byteArray_oblivious _ _)) <|
    .cons (.of uint64_oblivious) <|
    .cons (.of uint64_oblivious) <|
    .cons (.of uint64_oblivious) <|
    .cons (.of (ofBytes_oblivious _)) <|
    .cons (.of Digest.oblivious) <|
    .cons (.of (slice_oblivious (ofBytes_oblivious _))) <|
    .cons (.of (slice_oblivious (ofBytes_oblivious _))) <|
    .cons (.of (byteArray_oblivious _ _)) <|
    .cons (.of (byteArray_oblivious _ _)) <|
    .cons (.of uint64_oblivious) <|
    .cons (.of_struct_nil fun _ => rfl) <|
    .cons (.of_struct_nil fun _ => rfl) <|
    .cons (.of (ofBytes_oblivious _)) <|
    .cons (.of (ofBytes_oblivious _)) <|
    .cons (.of bigIntPtr_oblivious) <|
    .cons (.of (byteArray_oblivious _ _)) .nil) ?_
  intro a b h
  iterate 15 obtain ⟨_, _, _, h, rfl, rfl⟩ := h
  obtain ⟨rfl, rfl⟩ := h
  exact ⟨rfl, rfl, rfl⟩

theorem DA.decode_target (old old' : DA) (data : Bytes) :
    Simulation.Related (fun a b => a.receiveAt = old.receiveAt ∧ a.outOfTime = old.outOfTime ∧
        b = { a with receiveAt := old'.receiveAt, outOfTime := old'.outOfTime })
      (old.decode data) (old'.decode data) := by
  have h := decoder_alike old old' (.reset data data.length)
  simp only [decode, decodeBytes, Stream.decode, EStateM.adaptExcept]
  generalize info.decoder old _ = x, info.decoder old' _ = y at h
  cases h
  case error e s => exact .error _
  case ok s h    =>
    dsimp only
    split
    case isTrue  => exact .error _
    case isFalse => exact .ok h

end Target

section Incremental

theorem Element.incremental : info.Incremental :=
  array_incremental _ _ uint64_incremental

theorem Digest.incremental : info.Incremental :=
  struct_incremental _ _ <|
    .cons (.of Element.incremental) <|
    .cons (.of Element.incremental) <|
    .nil

theorem GoTime.incremental : info.Incremental :=
  struct_incremental _ _ .nil

theorem slice_ofBytes_incremental (typ : String) : (slice (ofBytes typ)).Incremental :=
  slice_incremental (ofBytes_incremental typ) (ofBytes_eolInPlace typ)

theorem DA.decode_truncated {da : DA} {s : Stream} (hi : 0 ≤ da.nameSpaceID.getD 0)
    (hb : da.item.encode.length < 2 ^ 64) (hs : s.Toplevel) (hp : s.r <+: da.item.encode)
    (hn : s.r ≠ []) (he : s.r ≠ da.item.encode) :
    ∃ s', Stream.decode info zero s = .error .unexpectedEOF s' :=
  struct_decode_truncated (transfers zero hi) (
    .cons (.of (byteArray_incremental _ _)) <|
    .cons (.of uint64_incremental) <|
    .cons (.of uint64_incremental) <|
    .cons (.of uint64_incremental) <|
    .cons (.of (ofBytes_incremental _)) <|
    .cons (.of Digest.incremental) <|
    .cons (.of (slice_ofBytes_incremental _)) <|
    .cons (.of (slice_ofBytes_incremental _)) <|
    .cons (.of (byteArray_incremental _ _)) <|
    .cons (.of (byteArray_incremental _ _)) <|
    .cons (.of uint64_incremental) <|
    .cons (.of GoTime.incremental) <|
    .cons (.of GoTime.incremental) <|
    .cons (.of (ofBytes_incremental _)) <|
    .cons (.of (ofBytes_incremental _)) <|
    .cons (.of bigIntPtr_incremental) <|
    .cons (.of (byteArray_incremental _ _)) <|
    .nil) hb hs hp hn he

end Incremental
