import DomiconExec.Objects.Signer

section Recovery

-- What the recovery of a sender uses of the package `crypto`.
structure Recovery where
  keccak256 : Bytes → Hash
  ecrecover : Hash → Bytes → Except GoError Bytes

def signatureLength : Nat :=
  65

def secp256k1N : Nat :=
  0xfffffffffffffffffffffffffffffffebaaedce6af48a03bbfd25e8cd0364141

def secp256k1halfN : Nat :=
  secp256k1N / 2

def errInvalidSig : GoError :=
  ⟨"invalid transaction v, r, s values"⟩

def decodeSignature (sig : Bytes) : Except GoPanic (Nat × Nat × Nat) :=
  if sig.length ≠ signatureLength then
    let got := sig.length
    let want := signatureLength
    .error (.explicit s!"wrong size for signature: got {got}, want {want}")
  else
    .ok (Bytes.toNat (sig.take 32), Bytes.toNat (sig.drop 32 |>.take 32),
      (sig.getD 64 0 + 27).toNat)

-- The first two slices may reach beyond the signature, but the third one may not start there.
def sliteSignature (sig : Bytes) : Except GoPanic (Nat × Nat × Nat) :=
  if sig.length < 64 then
    .error .indexOutOfRange
  else
    .ok (Bytes.toNat (sig.take 32), Bytes.toNat (sig.drop 32 |>.take 32), Bytes.toNat (sig.drop 64))

def validateSignatureValues (v : UInt8) (r s : Nat) (homestead : Bool) : Bool :=
  if r < 1 ∨ s < 1 then
    false
  else if homestead ∧ s > secp256k1halfN then
    false
  else
    r < secp256k1N ∧ s < secp256k1N ∧ (v = 0 ∨ v = 1)

variable (c : Recovery)

def recoveredAddress : Except GoError Bytes → Address × Option GoError
  | .error err     => (.fill 0, some err)
  | .ok (4 :: key) => (.copy ((c.keccak256 key).val.drop 12), none)
  | .ok _          => (.fill 0, some ⟨"invalid public key"⟩)

-- The number `vb` may be negative, in which case the library takes its absolute value.
def recoverPlain (sighash : Hash) (r s : Nat) (vb : Int) (homestead : Bool) :
    Address × Option GoError :=
  if vb.natAbs.size > 8 then
    (.fill 0, some errInvalidSig)
  else
    let v := UInt8.ofNat vb.natAbs - 27
    if ¬validateSignatureValues v r s homestead then
      (.fill 0, some errInvalidSig)
    else
      let sig := (Bytes.bigEndian r).fit 32 ++ (Bytes.bigEndian s).fit 32 ++ [v]
      recoveredAddress c (c.ecrecover sighash sig)

namespace FdSigner

def recover (fd : DA) (signData : Bytes) : FdSigner → Except GoPanic (Address × Option GoError)
  | .eip155 signer => do
    let (r, s, v) ← sliteSignature signData
    return recoverPlain c (signer.hash c.keccak256 fd) r s v true
  | .homestead => do
    let (r, s, v) ← decodeSignature signData
    return recoverPlain c (FrontierFdSigner.hash c.keccak256 fd) r s (v - 27) true
  | .frontier => do
    let (r, s, v) ← sliteSignature signData
    return recoverPlain c (FrontierFdSigner.hash c.keccak256 fd) r s (v * 27) false

def sender (signer : FdSigner) (fd : DA) :
    Except GoPanic (List Address × List (Option GoError)) :=
  List.unzip <$> fd.signData.mapM (signer.recover c fd)

def signatureValues (_ : FdSigner) (_ : DA) (sig : Bytes) : Except GoPanic (Nat × Nat × Nat) :=
  decodeSignature sig

end FdSigner

def fdSender (signer : FdSigner) (fd : DA) :
    Except GoPanic (List Address × List (Option GoError)) :=
  signer.sender c fd

-- The method `GetSender` of the pool, with its signer.
def FilePool.getSender (signer : FdSigner) (signData : List Bytes) :
    Except GoPanic (List Address × List (Option GoError)) :=
  fdSender c signer { DA.zero with signData }

end Recovery

section Signing

-- What signing uses of the package `crypto` in addition, with public keys as `FromECDSAPub` has
-- them.
structure Crypto (PrivateKey : Type) extends Recovery where
  sign : Hash → PrivateKey → Except GoError Bytes
  fromECDSAPub : PrivateKey → Bytes

variable {PrivateKey : Type} (c : Crypto PrivateKey)

def Crypto.pubkeyToAddress (prv : PrivateKey) : Address :=
  bytesToAddress ((c.keccak256 ((c.fromECDSAPub prv).drop 1)).val.drop 12)

-- The numbers are written without leading zeros.
def DA.withSignature (fd : DA) (signer : FdSigner) (sign : Bytes) :
    Except GoPanic (Except GoError DA) := do
  if sign.length = 0 then
    return .error ⟨"sign is empty"⟩
  let (r, s, v) ← signer.signatureValues fd sign
  let newSign := Bytes.bigEndian r ++ Bytes.bigEndian s ++ Bytes.bigEndian v
  return .ok { fd with signData := [newSign] }

def signFd (fd : DA) (signer : FdSigner) (prv : PrivateKey) : Except GoPanic (Except GoError DA) :=
  match c.sign (signer.hash c.keccak256 fd) prv with
  | .error err => .ok (.error err)
  | .ok sig    => fd.withSignature signer sig

-- If there is no signature, then its last byte is missing as well.
def SingerTool.sign (config : ChainConfig) (prv : PrivateKey) (da : DA) : Except GoPanic Bytes :=
  match c.sign (config.eip155FdSigner.hash c.keccak256 da) prv with
  | .error _ => .error .indexOutOfRange
  | .ok sign =>
    match sign[64]? with
    | none   => .error .indexOutOfRange
    | some v => .ok (sign.take 64 ++ [v + 27])

def SingerTool.sender (config : ChainConfig) (da : DA) :
    Except GoPanic (List Address × List (Option GoError)) :=
  FdSigner.sender c.toRecovery (.eip155 config.eip155FdSigner) da

end Signing

-- The library that verifies the proofs of commitments, which is at the same path everywhere.
structure KzgSdk where
  initMultiAdaptiveSdk : Option GoError
  verifyCommitWithProof : (commit proof claimedValue : Bytes) → Bool × Option GoError

def SingerTool.verifyEth (sdk : KzgSdk) (da : DA) : Bool × Option GoError :=
  if da.length ≠ UInt64.ofNat da.data.length then
    (false, some ⟨"da data length is not match"⟩)
  else
    match sdk.initMultiAdaptiveSdk with
    | some err => (false, some err)
    | none =>
      match sdk.verifyCommitWithProof da.commitment.marshal da.proof da.claimedValue with
      | (_, some err) => (false, some err)
      | (flag, none)  => (flag, none)
