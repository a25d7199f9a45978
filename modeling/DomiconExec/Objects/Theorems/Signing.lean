import DomiconExec.Primitives.Loop
import DomiconExec.Objects.Signing
import DomiconExec.Objects.Theorems.Curve

open List Bytes

-- The signatures that are made with a private key.
structure Signature where
  r : ByteArr 32
  s : ByteArr 32
  v : UInt8
  r_pos : 0 < toNat r.val
  r_lt : toNat r.val < secp256k1N
  s_pos : 0 < toNat s.val
  s_le : toNat s.val ≤ secp256k1halfN
  v_le : v = 0 ∨ v = 1

namespace Signature

def bytes (σ : Signature) : Bytes :=
  σ.r.val ++ σ.s.val ++ [σ.v]

def shifted (σ : Signature) : Bytes :=
  σ.r.val ++ σ.s.val ++ [σ.v + 27]

def stripped (σ : Signature) : Bytes :=
  bigEndian (toNat σ.r.val) ++ bigEndian (toNat σ.s.val) ++ [σ.v + 27]

end Signature

namespace Crypto

variable {PrivateKey : Type}

-- What is known about signatures and their keys.
structure Lawful (c : Crypto PrivateKey) : Prop where
  signature    {h prv sig} : c.sign h prv = .ok sig → ∃ σ : Signature, sig = σ.bytes
  ecrecover    {h prv sig} : c.sign h prv = .ok sig → c.ecrecover h sig = .ok (c.fromECDSAPub prv)
  uncompressed (prv) : ∃ key, c.fromECDSAPub prv = 4 :: key

-- Recovery under a different hash does not yield the key.
def Binding (c : Crypto PrivateKey) : Prop :=
  ∀ h h' prv sig, c.sign h prv = .ok sig → h' ≠ h →
    (recoveredAddress c.toRecovery (c.ecrecover h' sig)).fst ≠ c.pubkeyToAddress prv

end Crypto

section Recovery

variable {c : Recovery} {σ : Signature} {fd : DA} {signer : FdSigner} {h : Hash} {sig : Bytes}

section Split

variable (r s : ByteArr 32)

theorem take_32 (l : Bytes) : (r.val ++ s.val ++ l).take 32 = r.val := by
  rw [append_assoc]
  exact take_left' r.property

theorem drop_32_take_32 (l : Bytes) : ((r.val ++ s.val ++ l).drop 32).take 32 = s.val := by
  rw [append_assoc, drop_left' r.property]
  exact take_left' s.property

theorem drop_64 (l : Bytes) : (r.val ++ s.val ++ l).drop 64 = l :=
  drop_left' (by rw [length_append, r.property, s.property])

theorem sliteSignature_append (l : Bytes) :
    sliteSignature (r.val ++ s.val ++ l) = .ok (toNat r.val, toNat s.val, toNat l) := by
  have hl : ¬(r.val ++ s.val ++ l).length < 64 := by
    rw [length_append, length_append, r.property, s.property]
    omega
  rw [sliteSignature, if_neg hl, take_32, drop_32_take_32, drop_64]

theorem decodeSignature_append (v : UInt8) :
    decodeSignature (r.val ++ s.val ++ [v]) = .ok (toNat r.val, toNat s.val, (v + 27).toNat) := by
  have hl : (r.val ++ s.val ++ [v]).length = signatureLength := by
    simp [r.property, s.property, signatureLength]
  have hv : (r.val ++ s.val ++ [v]).getD 64 0 = v := by
    simp [List.getD, r.property, s.property]
  rw [decodeSignature, if_neg (not_not.mpr hl), take_32, drop_32_take_32, hv]

end Split

theorem v_of_validateSignatureValues {v : UInt8} {r s : Nat} {homestead : Bool}
    (h : validateSignatureValues v r s homestead) : v = 0 ∨ v = 1 := by
  unfold validateSignatureValues at h
  split at h
  case isTrue => cases h
  case isFalse =>
    split at h
    case isTrue => cases h
    case isFalse => exact (of_decide_eq_true h).right.right

theorem validateSignatureValues_signature (σ : Signature) (homestead : Bool) :
    validateSignatureValues σ.v (toNat σ.r.val) (toNat σ.s.val) homestead := by
  have hr := σ.r_pos
  have hs := σ.s_pos
  have h₁ : ¬(toNat σ.r.val < 1 ∨ toNat σ.s.val < 1) := by omega
  have h₂ : ¬(homestead ∧ toNat σ.s.val > secp256k1halfN) := fun h => Nat.not_lt.mpr σ.s_le h.right
  have h₃ : secp256k1halfN < secp256k1N := by decide
  rw [validateSignatureValues, if_neg h₁, if_neg h₂]
  exact decide_eq_true ⟨σ.r_lt, Nat.lt_of_le_of_lt σ.s_le h₃, σ.v_le⟩

theorem natAbs_of_recoverPlain {r s : Nat} {vb : Int} {homestead : Bool}
    (hr : (recoverPlain c h r s vb homestead).snd = none) : vb.natAbs = 27 ∨ vb.natAbs = 28 := by
  unfold recoverPlain at hr
  split at hr
  case isTrue => cases hr
  case isFalse hs =>
    dsimp only at hr
    split at hr
    case isTrue => cases hr
    case isFalse hv =>
      have hb : vb.natAbs < 2 ^ 8 := Nat.size_le.mp (Nat.not_lt.mp hs)
      have hn : (UInt8.ofNat vb.natAbs).toNat = vb.natAbs := UInt8.toNat_ofNat_of_lt' hb
      cases v_of_validateSignatureValues (not_not.mp hv)
      case inl hv =>
        left
        rw [← hn, UInt8.sub_eq_iff_eq_add.mp hv]
        rfl
      case inr hv =>
        right
        rw [← hn, UInt8.sub_eq_iff_eq_add.mp hv]
        rfl

theorem recoverPlain_signature (c : Recovery) (σ : Signature) (h : Hash) (homestead : Bool) :
    recoverPlain c h (toNat σ.r.val) (toNat σ.s.val) (σ.v + 27).toNat homestead =
      recoveredAddress c (c.ecrecover h σ.bytes) := by
  have hs : ¬(σ.v + 27).toNat.size > 8 := Nat.not_lt.mpr (Nat.size_le.mpr (σ.v + 27).toNat_lt)
  have hv : UInt8.ofNat (σ.v + 27).toNat - 27 = σ.v := by
    rw [UInt8.ofNat_toNat, UInt8.add_sub_cancel]
  have hr := fit_bigEndian_toNat σ.r.val
  have hs' := fit_bigEndian_toNat σ.s.val
  rw [σ.r.property] at hr
  rw [σ.s.property] at hs'
  simp only [recoverPlain, Int.natAbs_natCast, if_neg hs, hv, hr, hs',
    validateSignatureValues_signature, not_true_eq_false, if_false, Signature.bytes]

theorem recover_shifted (hf : signer ≠ .frontier) : signer.recover c fd σ.shifted =
    .ok (recoveredAddress c (c.ecrecover (signer.hash c.keccak256 fd) σ.bytes)) := by
  have hn : toNat [σ.v + 27] = (σ.v + 27).toNat := Nat.zero_add _
  cases signer
  case eip155 s =>
    rw [FdSigner.recover, Signature.shifted, sliteSignature_append, hn]
    exact congrArg _ (recoverPlain_signature c σ _ true)
  case homestead =>
    have hv : ((σ.v + 27 + 27).toNat : Int) - 27 = (σ.v + 27).toNat := by
      cases σ.v_le <;> simp_all
    rw [FdSigner.recover, Signature.shifted, decodeSignature_append]
    refine congrArg _ (Eq.trans ?_ (recoverPlain_signature c σ _ true))
    exact congrArg (recoverPlain c _ _ _ · true) hv
  case frontier => exact absurd rfl hf

-- There is no last byte if the signature is too short.
theorem sliteSignature_v {x : Nat × Nat × Nat} (hl : sig.length < signatureLength)
    (hx : sliteSignature sig = .ok x) : x.snd.snd = 0 := by
  unfold sliteSignature at hx
  split at hx
  case isTrue => cases hx
  case isFalse =>
    cases hx
    exact congrArg toNat (drop_eq_nil_of_le (Nat.le_of_lt_succ hl))

theorem recover_ne_of_length_lt {a : Address} (hl : sig.length < signatureLength) :
    signer.recover c fd sig ≠ .ok (a, none) := by
  intro hr
  cases signer
  case homestead =>
    rw [FdSigner.recover, decodeSignature, if_pos (Nat.ne_of_lt hl)] at hr
    cases hr
  all_goals
    obtain ⟨x, hx, hr⟩ := Loop.bind_eq_ok hr
    have hn := natAbs_of_recoverPlain (congrArg Prod.snd (Except.ok.inj hr))
    simp [sliteSignature_v hl hx] at hn

theorem recover_frontier_shifted {a : Address} :
    FdSigner.frontier.recover c fd σ.shifted ≠ .ok (a, none) := by
  intro hr
  rw [FdSigner.recover, Signature.shifted, sliteSignature_append] at hr
  have hn := natAbs_of_recoverPlain (congrArg Prod.snd (Except.ok.inj hr))
  have hv : toNat [σ.v + 27] = (σ.v + 27).toNat := Nat.zero_add _
  rw [hv] at hn
  cases σ.v_le <;> simp_all

-- The signatures for which the signer does not panic.
def FdSigner.Splits (sig : Bytes) : FdSigner → Prop
  | .homestead => sig.length = signatureLength
  | _          => 64 ≤ sig.length

theorem sliteSignature_ok_iff :
    (∃ x, sliteSignature sig = .ok x) ↔ 64 ≤ sig.length := by
  unfold sliteSignature
  split <;> simp <;> omega

theorem decodeSignature_ok_iff :
    (∃ x, decodeSignature sig = .ok x) ↔ sig.length = signatureLength := by
  unfold decodeSignature
  split <;> simp_all

theorem recover_ok_iff :
    (∃ x, signer.recover c fd sig = .ok x) ↔ signer.Splits sig := by
  cases signer
  case eip155    => exact (Loop.bind_ok_iff fun _ => ⟨_, rfl⟩).trans sliteSignature_ok_iff
  case homestead => exact (Loop.bind_ok_iff fun _ => ⟨_, rfl⟩).trans decodeSignature_ok_iff
  case frontier  => exact (Loop.bind_ok_iff fun _ => ⟨_, rfl⟩).trans sliteSignature_ok_iff

theorem getSender_ok_iff {signData : List Bytes} :
    (∃ x, FilePool.getSender c signer signData = .ok x) ↔
      ∀ sig ∈ signData, signer.Splits sig := by
  refine Loop.map_ok_iff.trans (Loop.mapM_ok_iff.trans ?_)
  exact forall₂_congr fun _ _ => recover_ok_iff
end Recovery

section Sign

namespace Signature

variable {σ : Signature}

theorem stripped_eq (hr : σ.r.val.head? ≠ some 0) (hs : σ.s.val.head? ≠ some 0) :
    σ.stripped = σ.shifted := by
  rw [stripped, shifted, bigEndian_toNat hr, bigEndian_toNat hs]

theorem stripped_length_lt (h : ¬(σ.r.val.head? ≠ some 0 ∧ σ.s.val.head? ≠ some 0)) :
    σ.stripped.length < signatureLength := by
  have hr := bigEndian_toNat_length_le σ.r.val
  have hs := bigEndian_toNat_length_le σ.s.val
  have hne (b : ByteArr 32) : b.val ≠ [] := ne_nil_of_length_eq_add_one b.property
  rw [← bigEndian_toNat_length_eq (hne σ.r), ← bigEndian_toNat_length_eq (hne σ.s)] at h
  rw [σ.r.property] at hr h
  rw [σ.s.property] at hs h
  simp only [stripped, length_append, length_singleton, signatureLength]
  omega

theorem bytes_getElem?_zero : σ.bytes[0]? = σ.r.val.head? := by
  have hr : 0 < σ.r.val.length := by simp [σ.r.property]
  rw [bytes, append_assoc, List.getElem?_append_left hr, List.head?_eq_getElem?]

theorem bytes_getElem?_32 : σ.bytes[32]? = σ.s.val.head? := by
  have hr := σ.r.property
  have hs : 0 < σ.s.val.length := by simp [σ.s.property]
  rw [bytes, append_assoc, List.getElem?_append_right (Nat.le_of_eq hr), hr, Nat.sub_self,
    List.getElem?_append_left hs, List.head?_eq_getElem?]

end Signature

variable {PrivateKey : Type} {c : Crypto PrivateKey} {σ : Signature} {signer : FdSigner}
variable {prv : PrivateKey} {fd fd' : DA}

theorem FdSigner.hash_signData (keccak256 : Bytes → Hash) (signer : FdSigner) (fd : DA)
    (signData : List Bytes) :
    signer.hash keccak256 { fd with signData } = signer.hash keccak256 fd := by
  cases signer <;> rfl

theorem Crypto.Lawful.recoveredAddress_ok (hc : c.Lawful) (prv : PrivateKey) :
    recoveredAddress c.toRecovery (.ok (c.fromECDSAPub prv)) = (c.pubkeyToAddress prv, none) := by
  obtain ⟨key, hk⟩ := hc.uncompressed prv
  have hl : ((c.keccak256 key).val.drop 12).length = 20 := by
    rw [length_drop, (c.keccak256 key).property]
  have ha : ByteArr.copy ((c.keccak256 key).val.drop 12) =
      bytesToAddress ((c.keccak256 key).val.drop 12) := by
    refine (ByteArr.copy_val ⟨_, hl⟩).trans (ByteArr.ext ?_)
    exact (fit_eq_self hl).symm
  rw [hk, recoveredAddress, ha, Crypto.pubkeyToAddress, hk, drop_one, tail_cons]

theorem withSignature_bytes (signer : FdSigner) (fd : DA) (σ : Signature) :
    fd.withSignature signer σ.bytes = .ok (.ok { fd with signData := [σ.stripped] }) := by
  have hl : σ.bytes.length ≠ 0 := by simp [Signature.bytes]
  have hv : bigEndian (σ.v + 27).toNat = [σ.v + 27] := by
    have hp : 0 < (σ.v + 27).toNat := by cases σ.v_le <;> simp_all
    rw [bigEndian_of_lt hp (σ.v + 27).toNat_lt, UInt8.ofNat_toNat]
  rw [DA.withSignature, if_neg hl, FdSigner.signatureValues, Signature.bytes,
    decodeSignature_append]
  simp only [Signature.stripped, ← hv]
  rfl

theorem signFd_eq_ok (hc : c.Lawful) (hs : signFd c fd signer prv = .ok (.ok fd')) :
    ∃ σ : Signature, c.sign (signer.hash c.keccak256 fd) prv = .ok σ.bytes ∧
      fd' = { fd with signData := [σ.stripped] } := by
  unfold signFd at hs
  split at hs
  case h_1 => cases hs
  case h_2 sig hk =>
    obtain ⟨σ, rfl⟩ := hc.signature hk
    rw [withSignature_bytes] at hs
    cases hs
    exact ⟨σ, hk, rfl⟩

theorem sender_singleton_iff {c : Recovery} {sig : Bytes} {a : Address} {e : Option GoError} :
    signer.sender c { fd with signData := [sig] } = .ok ([a], [e]) ↔
      signer.recover c { fd with signData := [sig] } sig = .ok (a, e) := by
  rw [FdSigner.sender, mapM_cons, mapM_nil]
  cases signer.recover c { fd with signData := [sig] } sig
  case error => exact iff_of_false (by simp) (by simp)
  case ok x  => simp [List.unzip, Prod.ext_iff]

theorem toNat_append_bounds (a : Bytes) {l : Bytes} {k : Nat} (h : l.length = k) :
    toNat a * 256 ^ k ≤ toNat (a ++ l) ∧ toNat (a ++ l) < (toNat a + 1) * 256 ^ k := by
  have hl := toNat_lt l
  rw [toNat_append, ← h, Nat.add_mul]
  omega

-- A signature that tells what was signed. The numbers have a leading zero or none.
def sampleSignature (zero : Bool) (h : Hash) : Signature where
  r := ⟨[if zero then 0 else 1, 1] ++ h.val.take 30, by simp [h.property]⟩
  s := ⟨[1] ++ (h.val.drop 30 ++ List.replicate 29 0), by simp [h.property]⟩
  v := 0
  r_pos := Nat.lt_of_lt_of_le (by cases zero <;> decide)
    (toNat_append_bounds (k := 30) _ (by simp [h.property])).left
  r_lt := Nat.lt_of_lt_of_le
    (toNat_append_bounds (k := 30) _ (by simp [h.property])).right (by cases zero <;> decide)
  s_pos := Nat.lt_of_lt_of_le (by decide)
    (toNat_append_bounds (k := 31) _ (by simp [h.property])).left
  s_le := Nat.le_of_lt <| Nat.lt_of_lt_of_le
    (toNat_append_bounds (k := 31) _ (by simp [h.property])).right (by decide)
  v_le := .inl rfl

-- There is a single key, which can only be recovered under the hash that was signed.
def sampleCrypto (zero : Bool) : Crypto Unit where
  keccak256 := .setBytes
  ecrecover h sig :=
    if sig = (sampleSignature zero h).bytes then
      .ok (4 :: List.replicate 64 1)
    else
      .error ⟨"recovery failed"⟩
  sign h _ := .ok (sampleSignature zero h).bytes
  fromECDSAPub _ := 4 :: List.replicate 64 1

theorem sampleCrypto_lawful (zero : Bool) : (sampleCrypto zero).Lawful where
  signature {h _ _} hs := ⟨sampleSignature zero h, (Except.ok.inj hs).symm⟩
  ecrecover {_ _ _} hs := if_pos (Except.ok.inj hs).symm
  uncompressed _ := ⟨_, rfl⟩

theorem sampleSignature_injective {zero : Bool} {h h' : Hash}
    (hs : (sampleSignature zero h).bytes = (sampleSignature zero h').bytes) : h = h' := by
  have hl := (sampleSignature zero h).r.property.trans (sampleSignature zero h').r.property.symm
  have hrs := append_inj_left' hs rfl
  have hr := append_cancel_left (append_inj_left hrs hl)
  have hs := append_cancel_left (append_inj_right hrs hl)
  refine ByteArr.ext ?_
  rw [← take_append_drop 30 h.val, hr, append_cancel_right hs, take_append_drop]

theorem sampleSignature_heads (h : Hash) : (sampleSignature false h).r.val.head? ≠ some 0 ∧
    (sampleSignature false h).s.val.head? ≠ some 0 := by
  simp [sampleSignature]

theorem sampleCrypto_binding (zero : Bool) : (sampleCrypto zero).Binding := by
  intro h h' prv sig hs hne
  cases hs
  have hs : ¬(sampleSignature zero h).bytes = (sampleSignature zero h').bytes :=
    fun hs => hne (sampleSignature_injective hs).symm
  have he : (sampleCrypto zero).ecrecover h' (sampleSignature zero h).bytes =
    .error ⟨"recovery failed"⟩ := if_neg hs
  have ha : .fill 0 ≠ bytesToAddress ((bytesToHash (List.replicate 64 1)).val.drop 12) := by decide
  rw [he]
  exact ha

-- Two of the signers recover the address from a signature whose numbers have no leading zeros.
theorem fdSender_signFd_iff (hc : c.Lawful) (signer : FdSigner) (prv : PrivateKey) (fd fd' : DA)
    (hs : signFd c fd signer prv = .ok (.ok fd')) :
    fdSender c.toRecovery signer fd' = .ok ([c.pubkeyToAddress prv], [none]) ↔
      signer ≠ .frontier ∧ ∀ sig, c.sign (signer.hash c.keccak256 fd) prv = .ok sig →
        sig[0]? ≠ some 0 ∧ sig[32]? ≠ some 0 := by
  obtain ⟨σ, hk, rfl⟩ := signFd_eq_ok hc hs
  have hb : (∀ sig, c.sign (signer.hash c.keccak256 fd) prv = .ok sig →
      sig[0]? ≠ some 0 ∧ sig[32]? ≠ some 0) ↔ σ.r.val.head? ≠ some 0 ∧ σ.s.val.head? ≠ some 0 := by
    rw [← Signature.bytes_getElem?_zero, ← Signature.bytes_getElem?_32]
    refine ⟨fun h => h _ hk, fun h sig hsig => ?_⟩
    cases hk.symm.trans hsig
    exact h
  rw [fdSender, sender_singleton_iff, hb]
  by_cases hz : σ.r.val.head? ≠ some 0 ∧ σ.s.val.head? ≠ some 0
  case neg =>
    exact iff_of_false (recover_ne_of_length_lt (Signature.stripped_length_lt hz)) fun h => hz h.right
  case pos =>
    rw [Signature.stripped_eq hz.left hz.right, and_iff_left hz]
    by_cases hf : signer = .frontier
    case pos => exact iff_of_false (hf ▸ recover_frontier_shifted) (not_not.mpr hf)
    case neg =>
      rw [recover_shifted hf, FdSigner.hash_signData, hc.ecrecover hk, hc.recoveredAddress_ok]
      exact iff_of_true rfl hf

theorem fdSender_homestead :
    fdSender (sampleCrypto false).toRecovery .homestead { DA.zero with
      signData := [(sampleSignature false (FrontierFdSigner.hash .setBytes .zero)).stripped]
    } = .ok ([(sampleCrypto false).pubkeyToAddress ()], [none]) := by
  refine fdSender_signFd_iff (sampleCrypto_lawful false) .homestead () .zero _ ?_ |>.mpr ?_
  case refine_1 => exact withSignature_bytes _ _ _
  case refine_2 =>
    refine ⟨by simp, fun sig hs => ?_⟩
    cases hs
    rw [Signature.bytes_getElem?_zero, Signature.bytes_getElem?_32]
    exact sampleSignature_heads _

-- The first number has a leading zero.
theorem not_fdSender_leading_zero :
    ¬∀ (PrivateKey : Type) (c : Crypto PrivateKey), c.Lawful →
      ∀ (signer : FdSigner) (prv : PrivateKey) (fd fd' : DA),
        signFd c fd signer prv = .ok (.ok fd') →
          fdSender c.toRecovery signer fd' = .ok ([c.pubkeyToAddress prv], [none]) := by
  intro h
  have hs : signFd (sampleCrypto true) .zero (.eip155 ⟨1⟩) () = _ := withSignature_bytes _ _ _
  have hr := h Unit (sampleCrypto true) (sampleCrypto_lawful true) (.eip155 ⟨1⟩) () .zero _ hs
  rw [fdSender, sender_singleton_iff] at hr
  refine recover_ne_of_length_lt (Signature.stripped_length_lt ?_) hr
  exact fun hz => hz.left rfl

section GetSender

variable {config : ChainConfig} {da : DA} {keys : List PrivateKey} {sigs : List Bytes}

theorem singerTool_sign_bytes
    (hk : c.sign (config.eip155FdSigner.hash c.keccak256 da) prv = .ok σ.bytes) :
    SingerTool.sign c config prv da = .ok σ.shifted := by
  have hl : (σ.r.val ++ σ.s.val).length = 64 := by simp [σ.r.property, σ.s.property]
  have hv : σ.bytes[64]? = some σ.v := by
    rw [Signature.bytes, List.getElem?_append_right (Nat.le_of_eq hl), hl]
    rfl
  simp only [SingerTool.sign, hk, hv]
  rw [Signature.bytes, take_left' hl]
  rfl

theorem singerTool_sign_eq_ok (hc : c.Lawful) {sig : Bytes}
    (hs : SingerTool.sign c config prv da = .ok sig) : ∃ σ : Signature,
      c.sign (config.eip155FdSigner.hash c.keccak256 da) prv = .ok σ.bytes ∧ sig = σ.shifted := by
  cases hk : c.sign (config.eip155FdSigner.hash c.keccak256 da) prv
  case error =>
    rw [SingerTool.sign, hk] at hs
    cases hs
  case ok =>
    obtain ⟨σ, rfl⟩ := hc.signature hk
    exact ⟨σ, rfl, Except.ok.inj (hs.symm.trans (singerTool_sign_bytes hk))⟩

theorem latestFdSigner_ne_frontier : config.latestFdSigner ≠ .frontier := by
  unfold ChainConfig.latestFdSigner
  split <;> simp

theorem recover_sign (hc : c.Lawful) {sig : Bytes} (signData : List Bytes)
    (hs : SingerTool.sign c config prv da = .ok sig) : ∃ σ : Signature,
      c.sign (config.eip155FdSigner.hash c.keccak256 da) prv = .ok σ.bytes ∧
      config.latestFdSigner.recover c.toRecovery { DA.zero with signData } sig =
        .ok (recoveredAddress c.toRecovery <|
          c.ecrecover (config.latestFdSigner.hash c.keccak256 DA.zero) σ.bytes) := by
  obtain ⟨σ, hk, rfl⟩ := singerTool_sign_eq_ok hc hs
  rw [← FdSigner.hash_signData _ _ _ signData]
  exact ⟨σ, hk, recover_shifted latestFdSigner_ne_frontier⟩

theorem hash_eq_of_getSender (hc : c.Lawful) (hb : c.Binding) {errs : List (Option GoError)}
    (hs : keys.mapM (SingerTool.sign c config · da) = .ok sigs) (hn : keys ≠ [])
    (h : FilePool.getSender c.toRecovery config.latestFdSigner sigs =
      .ok (keys.map c.pubkeyToAddress, errs)) :
    config.latestFdSigner.hash c.keccak256 DA.zero =
      config.eip155FdSigner.hash c.keccak256 da := by
  cases Loop.mapM_eq_ok_iff.mp hs
  case nil => contradiction
  case cons prv sig keys sigs hk _ =>
    obtain ⟨σ, hσ, hr⟩ := recover_sign hc (sig :: sigs) hk
    obtain ⟨l, hl, hu⟩ := Loop.map_eq_ok h
    obtain ⟨p, l, hp, -, rfl⟩ := forall₂_cons_left_iff.mp (Loop.mapM_eq_ok_iff.mp hl)
    cases hr.symm.trans hp
    have ha := congrArg (·.fst.head?) hu
    simp only [unzip_cons, List.head?_cons, map_cons, Option.some.injEq] at ha
    by_contra hne
    exact hb _ _ prv _ hσ hne ha

theorem getSender_of_hash_eq (hc : c.Lawful)
    (hs : keys.mapM (SingerTool.sign c config · da) = .ok sigs)
    (hh : config.latestFdSigner.hash c.keccak256 DA.zero =
      config.eip155FdSigner.hash c.keccak256 da) :
    FilePool.getSender c.toRecovery config.latestFdSigner sigs =
      .ok (keys.map c.pubkeyToAddress, keys.map fun _ => none) := by
  have hr : List.Forall₂ (fun sig p => config.latestFdSigner.recover c.toRecovery
      { DA.zero with signData := sigs } sig = .ok p) sigs
      (keys.map fun prv => (c.pubkeyToAddress prv, none)) := by
    have hs := Loop.mapM_eq_ok_iff.mp hs
    refine forall₂_map_right_iff.mpr <| .flip <| hs.imp fun prv sig hk => ?_
    obtain ⟨σ, hσ, hr⟩ := recover_sign hc sigs hk
    rwa [hh, hc.ecrecover hσ, hc.recoveredAddress_ok] at hr
  have hu := congrArg (List.unzip <$> ·) (Loop.mapM_eq_ok_iff.mpr hr)
  refine hu.trans (congrArg Except.ok ?_)
  rw [unzip_eq_map, map_map, map_map]
  rfl

-- The data that the pool recovers the senders for has nothing but signatures, so that the keys are
-- found only if its hash was signed.
theorem getSender_iff (hc : c.Lawful) (hb : c.Binding) (config : ChainConfig) (da : DA)
    (keys : List PrivateKey) (sigs : List Bytes)
    (hs : keys.mapM (SingerTool.sign c config · da) = .ok sigs) :
    (∃ errs, FilePool.getSender c.toRecovery config.latestFdSigner sigs =
      .ok (keys.map c.pubkeyToAddress, errs)) ↔
    keys = [] ∨ config.latestFdSigner.hash c.keccak256 DA.zero =
      config.eip155FdSigner.hash c.keccak256 da := by
  constructor
  case mp =>
    rintro ⟨errs, h⟩
    exact or_iff_not_imp_left.mpr fun hk => hash_eq_of_getSender hc hb hs hk h
  case mpr =>
    intro h
    cases h
    case inl hk =>
      cases hk
      cases hs
      exact ⟨[], rfl⟩
    case inr hh => exact ⟨_, getSender_of_hash_eq hc hs hh⟩

-- The data that was signed is empty as well.
theorem getSender_zero :
    ∃ errs, FilePool.getSender (sampleCrypto false).toRecovery (.eip155 ⟨1⟩)
      [(sampleSignature false (EIP155FdSigner.hash .setBytes ⟨1⟩ DA.zero)).shifted] =
      .ok ([(sampleCrypto false).pubkeyToAddress ()], errs) := by
  refine getSender_iff (sampleCrypto_lawful false) (sampleCrypto_binding false) ⟨some 1, some 0⟩
    DA.zero [()] _ ?_ |>.mpr (.inr rfl)
  exact Loop.mapM_eq_ok_iff.mpr (.cons (singerTool_sign_bytes rfl) .nil)

def sampleConfig : ChainConfig where
  chainID := some 1
  eip155Block := some 0

def sampleDA : DA :=
  { DA.zero with commitment := ⟨.zero, .ofNat 1⟩ }

theorem hash_sampleDA_ne :
    sampleConfig.latestFdSigner.hash (sampleCrypto false).keccak256 DA.zero ≠
      sampleConfig.eip155FdSigner.hash (sampleCrypto false).keccak256 sampleDA := by
  have hh (fd : DA) : EIP155FdSigner.hash (sampleCrypto false).keccak256 ⟨1⟩ fd =
      fd.commitment.y.bytes :=
    ByteArr.setBytes_append _ _
  have hy : DA.zero.commitment.y.toNat ≠ sampleDA.commitment.y.toNat := by decide +kernel
  intro he
  exact hy (Element.bytes_eq_iff.mp ((hh DA.zero).symm.trans (he.trans (hh sampleDA))))

-- The hash depends on the commitment.
theorem not_getSender_commitment :
    ¬∀ (PrivateKey : Type) (c : Crypto PrivateKey), c.Lawful → c.Binding →
      ∀ (config : ChainConfig) (da : DA) (keys : List PrivateKey) (sigs : List Bytes),
        keys.mapM (SingerTool.sign c config · da) = .ok sigs →
          ∃ errs, FilePool.getSender c.toRecovery config.latestFdSigner sigs =
            .ok (keys.map c.pubkeyToAddress, errs) := by
  intro h
  have hs : [()].mapM (SingerTool.sign (sampleCrypto false) sampleConfig · sampleDA) = _ :=
    Loop.mapM_eq_ok_iff.mpr (.cons (singerTool_sign_bytes rfl) .nil)
  obtain ⟨errs, he⟩ := h Unit (sampleCrypto false) (sampleCrypto_lawful false)
    (sampleCrypto_binding false) sampleConfig sampleDA [()] _ hs
  exact hash_sampleDA_ne <| hash_eq_of_getSender (sampleCrypto_lawful false)
    (sampleCrypto_binding false) hs (by simp) he

end GetSender
end Sign
