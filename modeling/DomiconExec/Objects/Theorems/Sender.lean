import DomiconExec.Objects.Theorems.Signing

open List Bytes

section Recovery

-- The signatures of 65 bytes with numbers in the range of the curve and a recovery identifier in
-- one of the two forms.
structure WellFormed (sig : Bytes) : Prop where
  length : sig.length = signatureLength
  r_pos : 0 < toNat (sig.take 32)
  r_lt : toNat (sig.take 32) < secp256k1N
  s_pos : 0 < toNat (sig.drop 32 |>.take 32)
  s_lt : toNat (sig.drop 32 |>.take 32) < secp256k1N
  v_mem : sig.getD 64 0 ∈ [0, 1, 27, 28]

variable {c : Recovery} {signer : FdSigner} {fd : DA} {sig : Bytes} {h : Hash} {r s : Nat}
variable {v : UInt8} {vb : Int} {homestead : Bool}

theorem validateSignatureValues_iff : validateSignatureValues v r s homestead ↔
    (0 < r ∧ r < secp256k1N) ∧ (0 < s ∧ s < secp256k1N) ∧
      ¬(homestead ∧ s > secp256k1halfN) ∧ (v = 0 ∨ v = 1) := by
  unfold validateSignatureValues
  split
  case isTrue h  => exact iff_of_false (by simp) fun hv => by omega
  case isFalse h =>
    split
    case isTrue h' => exact iff_of_false (by simp) fun hv => hv.right.right.left h'
    case isFalse h' =>
      rw [decide_eq_true_iff]
      constructor
      case mp =>
        intro hv
        exact ⟨⟨by omega, hv.left⟩, ⟨by omega, hv.right.left⟩, h', hv.right.right⟩
      case mpr => exact fun hv => ⟨hv.left.right, hv.right.left.right, hv.right.right.right⟩

theorem recoveredAddress_none_iff {x : Except GoError Bytes} :
    (recoveredAddress c x).snd = none ↔ ∃ key, x = .ok (4 :: key) := by
  unfold recoveredAddress
  split
  case h_1     => simp
  case h_2 key => exact iff_of_true rfl ⟨key, rfl⟩
  case h_3 hk  =>
    refine iff_of_false (by simp) ?_
    rintro ⟨key, he⟩
    exact hk key (Except.ok.inj he)

theorem recoverPlain_none_iff : (recoverPlain c h r s vb homestead).snd = none ↔
    ∃ v : UInt8, vb.natAbs = v.toNat + 27 ∧ validateSignatureValues v r s homestead ∧
      ∃ key, c.ecrecover h ((bigEndian r).fit 32 ++ (bigEndian s).fit 32 ++ [v]) =
        .ok (4 :: key) := by
  constructor
  case mp =>
    intro hr
    have hn := natAbs_of_recoverPlain hr
    have hb : ¬vb.natAbs.size > 8 := Nat.not_lt.mpr (Nat.size_le.mpr (by omega))
    have hv : vb.natAbs = (UInt8.ofNat vb.natAbs - 27).toNat + 27 := by
      cases hn <;> simp_all
    rw [recoverPlain, if_neg hb] at hr
    dsimp only at hr
    split at hr
    case isTrue     => cases hr
    case isFalse hs => exact ⟨_, hv, not_not.mp hs, recoveredAddress_none_iff.mp hr⟩
  case mpr =>
    rintro ⟨v, hn, hv, hk⟩
    have hl := v_of_validateSignatureValues hv
    have hb : ¬vb.natAbs.size > 8 := by
      refine Nat.not_lt.mpr (Nat.size_le.mpr ?_)
      cases hl <;> simp_all
    have he : UInt8.ofNat vb.natAbs - 27 = v := by
      cases hl <;> simp_all
    rw [recoverPlain, if_neg hb]
    dsimp only
    rw [he, if_neg (not_not.mpr hv)]
    exact recoveredAddress_none_iff.mpr hk

def Accepts (c : Recovery) (h : Hash) (sig : Bytes) (v : UInt8) (homestead : Bool) : Prop :=
  validateSignatureValues v (toNat (sig.take 32)) (toNat (sig.drop 32 |>.take 32)) homestead ∧
    ∃ key, c.ecrecover h (sig.take 64 ++ [v]) = .ok (4 :: key)

-- Signatures that are not well-formed, but from which a signer still reads the recovery identifier
-- `v`. Two of the signers take all bytes behind the numbers for it, the third one has an overflow.
def FdSigner.Stray (sig : Bytes) (v : UInt8) : FdSigner → Prop
  | .eip155 _  => signatureLength < sig.length ∧ toNat (sig.drop 64) = v.toNat + 27
  | .homestead => sig.getD 64 0 = 229 ∧ v = 0
  | .frontier  => signatureLength < sig.length ∧ toNat (sig.drop 64) = 1 ∧ v = 0

-- The recovery identifier that the signer reads, and whether it insists on the lower number.
def FdSigner.identifier (sig : Bytes) : FdSigner → Int
  | .eip155 _  => toNat (sig.drop 64)
  | .homestead => (sig.getD 64 0 + 27).toNat - 27
  | .frontier  => toNat (sig.drop 64) * 27

def FdSigner.strict : FdSigner → Bool
  | .frontier => false
  | _         => true

theorem recover_of_splits (hs : signer.Splits sig) : signer.recover c fd sig =
    .ok (recoverPlain c (signer.hash c.keccak256 fd) (toNat (sig.take 32))
      (toNat (sig.drop 32 |>.take 32)) (signer.identifier sig) signer.strict) := by
  cases signer
  case homestead =>
    have hl : ¬sig.length ≠ signatureLength := not_not.mpr hs
    rw [FdSigner.recover, decodeSignature, if_neg hl]
    rfl
  all_goals
    rw [FdSigner.recover, sliteSignature, if_neg (Nat.not_lt.mpr hs)]
    rfl

theorem fit_take_append (hl : 64 ≤ sig.length) : (bigEndian (toNat (sig.take 32))).fit 32 ++
    (bigEndian (toNat (sig.drop 32 |>.take 32))).fit 32 = sig.take 64 := by
  have hr : (sig.take 32).length = 32 := length_take_of_le (by omega)
  have hs : (sig.drop 32 |>.take 32).length = 32 :=
    length_take_of_le (by rw [length_drop]; omega)
  have h₁ := fit_bigEndian_toNat (sig.take 32)
  have h₂ := fit_bigEndian_toNat (sig.drop 32 |>.take 32)
  rw [hr] at h₁
  rw [hs] at h₂
  rw [h₁, h₂, ← take_add]

theorem FdSigner.Splits.length_le (hs : signer.Splits sig) : 64 ≤ sig.length := by
  cases signer
  case homestead => exact Nat.le_trans (by decide) (Nat.le_of_eq (Eq.symm hs))
  all_goals exact hs

theorem drop_64_of_length (hl : sig.length = signatureLength) :
    toNat (sig.drop 64) = (sig.getD 64 0).toNat := by
  have hn : 64 < sig.length := Nat.lt_of_lt_of_eq (by decide) hl.symm
  have hd : sig.drop 65 = [] := drop_eq_nil_of_le (Nat.le_of_eq hl)
  rw [drop_eq_getElem_cons hn, hd, List.getD, List.getElem?_eq_getElem hn]
  exact Nat.zero_add _

theorem wellFormed_of_accepts (ha : Accepts c h sig v homestead) :
    WellFormed sig ↔ sig.length = signatureLength ∧ sig.getD 64 0 ∈ [0, 1, 27, 28] := by
  obtain ⟨hr, hs, -, -⟩ := validateSignatureValues_iff.mp ha.left
  constructor
  case mp  => exact fun h => ⟨h.length, h.v_mem⟩
  case mpr => exact fun h => ⟨h.left, hr.left, hr.right, hs.left, hs.right, h.right⟩

-- A recovery identifier that is read from all bytes behind the numbers.
theorem surplus_iff {n : Nat} (hl : 64 ≤ sig.length) (hn : toNat (sig.drop 64) = n)
    (hm : n = 1 ∨ n = 27 ∨ n = 28) :
    ¬(sig.length = signatureLength ∧ sig.getD 64 0 ∈ [0, 1, 27, 28]) ↔
      signatureLength < sig.length := by
  constructor
  case mp =>
    intro hw
    refine Nat.lt_of_le_of_ne (Nat.lt_of_le_of_ne hl fun he => ?_) fun he => ?_
    case refine_1 =>
      rw [drop_eq_nil_of_le (Nat.le_of_eq he.symm), toNat_nil] at hn
      omega
    case refine_2 =>
      rw [drop_64_of_length he.symm] at hn
      have hb : sig.getD 64 0 = UInt8.ofNat n := by rw [← hn, UInt8.ofNat_toNat]
      refine hw ⟨he.symm, ?_⟩
      rw [hb]
      obtain rfl | rfl | rfl := hm <;> simp
  case mpr => exact fun hl hw => Nat.ne_of_gt hl hw.left

-- The identifier 229 becomes -27, of which the library takes the absolute value.
theorem overflow_iff {b : UInt8} (hv : v = 0 ∨ v = 1) :
    ((b + 27).toNat - 27 : Int).natAbs = v.toNat + 27 ∧ b ∉ [0, 1, 27, 28] ↔
      b = 229 ∧ v = 0 := by
  have hb := b.toNat_lt
  simp only [mem_cons, not_mem_nil, or_false, ← UInt8.toNat_inj, UInt8.toNat_add] at hv ⊢
  simp only [UInt8.reduceToNat] at hv ⊢
  omega

theorem stray_iff (hs : signer.Splits sig) (ha : Accepts c h sig v homestead) :
    (signer.identifier sig).natAbs = v.toNat + 27 ∧ ¬WellFormed sig ↔ signer.Stray sig v := by
  have hv := v_of_validateSignatureValues ha.left
  have hl := hs.length_le
  rw [wellFormed_of_accepts ha]
  cases signer
  case eip155 =>
    have hn (h : toNat (sig.drop 64) = v.toNat + 27) := surplus_iff hl h (by cases hv <;> simp_all)
    exact (and_congr_right hn).trans and_comm
  case homestead =>
    have hw : sig.length = signatureLength := hs
    rw [not_and, imp_iff_right hw]
    exact overflow_iff hv
  case frontier =>
    have hn (h : toNat (sig.drop 64) = 1) := surplus_iff hl h (.inl rfl)
    have hi : (FdSigner.frontier.identifier sig).natAbs = v.toNat + 27 ↔
        toNat (sig.drop 64) = 1 ∧ v = 0 := by
      have he : (FdSigner.frontier.identifier sig).natAbs = toNat (sig.drop 64) * 27 :=
        Int.natAbs_natCast _
      rw [he]
      cases hv <;> simp_all
      omega
    rw [hi]
    constructor
    case mp  => exact fun h => ⟨(hn h.left.left).mp h.right, h.left⟩
    case mpr => exact fun h => ⟨h.right, (hn h.right.left).mpr h.left⟩

theorem recover_none_iff (hs : signer.Splits sig) :
    (∃ a, signer.recover c fd sig = .ok (a, none)) ↔
      ∃ v, (signer.identifier sig).natAbs = v.toNat + 27 ∧
        Accepts c (signer.hash c.keccak256 fd) sig v signer.strict := by
  simp only [Accepts, ← fit_take_append hs.length_le]
  rw [recover_of_splits hs]
  refine Iff.trans ?_ recoverPlain_none_iff
  constructor
  case mp =>
    rintro ⟨a, h⟩
    rw [Except.ok.inj h]
  case mpr => exact fun h => ⟨_, congrArg Except.ok (Prod.ext rfl h)⟩

-- There is a result for every signature, and an error for each that is not well-formed.
def FdSigner.Rejects (c : Recovery) (signer : FdSigner) (fd : DA) : Prop :=
  ∃ (addrs : List Address) (errs : List (Option GoError)),
    signer.sender c fd = .ok (addrs, errs) ∧ addrs.length = fd.signData.length ∧
    errs.length = fd.signData.length ∧
    ∀ (i : Nat) (sig : Bytes), fd.signData[i]? = some sig → ¬WellFormed sig →
      ∃ err, errs[i]? = some (some err)

theorem sender_eq_ok_iff {addrs : List Address} {errs : List (Option GoError)} :
    signer.sender c fd = .ok (addrs, errs) ↔ ∃ l : List (Address × Option GoError),
      List.Forall₂ (fun sig p => signer.recover c fd sig = .ok p) fd.signData l ∧
        addrs = l.map Prod.fst ∧ errs = l.map Prod.snd := by
  constructor
  case mp =>
    intro h
    obtain ⟨l, hl, hu⟩ := Loop.map_eq_ok h
    rw [unzip_eq_map] at hu
    cases hu
    exact ⟨l, Loop.mapM_eq_ok_iff.mp hl, rfl, rfl⟩
  case mpr =>
    rintro ⟨l, hl, rfl, rfl⟩
    rw [FdSigner.sender, Loop.mapM_eq_ok_iff.mpr hl, ← unzip_eq_map]
    rfl

-- The signatures that the signer neither panics on nor accepts without reason.
theorem recover_sound_iff :
    (∃ p, signer.recover c fd sig = .ok p ∧ (¬WellFormed sig → p.snd ≠ none)) ↔
    signer.Splits sig ∧ ∀ v, signer.Stray sig v →
      ¬Accepts c (signer.hash c.keccak256 fd) sig v signer.strict := by
  constructor
  case mp =>
    rintro ⟨p, hp, he⟩
    have hs := recover_ok_iff.mp ⟨p, hp⟩
    refine ⟨hs, fun v hv ha => ?_⟩
    obtain ⟨hn, hw⟩ := (stray_iff hs ha).mpr hv
    obtain ⟨a, hr⟩ := (recover_none_iff hs).mpr ⟨v, hn, ha⟩
    cases hp.symm.trans hr
    exact he hw rfl
  case mpr =>
    rintro ⟨hs, hn⟩
    have hr : ∃ p, signer.recover c fd sig = .ok p := recover_ok_iff.mpr hs
    obtain ⟨p, hp⟩ := hr
    refine ⟨p, hp, fun hw he => ?_⟩
    obtain ⟨v, hi, ha⟩ := (recover_none_iff hs).mp ⟨p.fst, hp.trans (congrArg _ (Prod.ext rfl he))⟩
    exact hn v ((stray_iff hs ha).mp ⟨hi, hw⟩) ha

-- No signature is too short for the signer, and no stray signature belongs to a key.
theorem rejects_iff (c : Recovery) (signer : FdSigner) (fd : DA) :
    signer.Rejects c fd ↔ ∀ sig ∈ fd.signData, signer.Splits sig ∧
      ∀ v, signer.Stray sig v → ¬Accepts c (signer.hash c.keccak256 fd) sig v signer.strict := by
  refine Iff.trans ?_ (forall₂_congr fun sig _ => recover_sound_iff)
  constructor
  case mp =>
    rintro ⟨addrs, errs, hs, -, -, he⟩ sig hm
    obtain ⟨l, hl, rfl, rfl⟩ := sender_eq_ok_iff.mp hs
    obtain ⟨i, hi⟩ := mem_iff_getElem?.mp hm
    obtain ⟨p, hp, hr⟩ := Loop.forall₂_getElem? hl hi
    refine ⟨p, hr, fun hw => ?_⟩
    obtain ⟨err, he⟩ := he i sig hi hw
    rw [List.getElem?_map, hp] at he
    simp_all
  case mpr =>
    intro h
    obtain ⟨l, hl⟩ := Loop.exists_forall₂ h
    have hr := hl.imp fun _ _ h => h.left
    refine ⟨_, _, sender_eq_ok_iff.mpr ⟨l, hr, rfl, rfl⟩, ?_, ?_, ?_⟩
    case refine_1 => rw [length_map, hl.length_eq]
    case refine_2 => rw [length_map, hl.length_eq]
    case refine_3 =>
      intro i sig hi hw
      obtain ⟨p, hp, hr⟩ := Loop.forall₂_getElem? hl hi
      obtain ⟨err, he⟩ := Option.ne_none_iff_exists'.mp (hr.right hw)
      exact ⟨err, by rw [List.getElem?_map, hp, Option.map_some, he]⟩

-- An empty signature has no numbers.
theorem not_forall_rejects :
    ¬∀ (c : Recovery) (signer : FdSigner) (fd : DA), signer.Rejects c fd := by
  intro h
  obtain ⟨addrs, errs, hs, -⟩ := h (sampleCrypto false).toRecovery (.eip155 ⟨1⟩)
    { DA.zero with signData := [[]] }
  cases hs

end Recovery

section SingerTool

open EIP155FdSigner

section Preimage

variable {a b : Bytes} {n m : UInt64} {s s' : EIP155FdSigner} {fd fd' : DA}

theorem transTo32Byte_inj (ha : a.length ≤ 32) (hl : a.length = b.length)
    (h : transTo32Byte a = transTo32Byte b) : a = b := by
  have hf := congrArg (·.val.toNat) h
  exact toNat_inj hl ((toNat_fit ha).symm.trans (hf.trans (toNat_fit (hl ▸ ha))))

theorem uint64ToBigEndianHexBytes_inj
    (h : uint64ToBigEndianHexBytes n = uint64ToBigEndianHexBytes m) : n = m := by
  have hn (n : UInt64) : toNat (uint64ToBigEndianHexBytes n) = n.toNat :=
    (toNat_fit (bigEndian_length_le.mpr n.toNat_lt)).trans (toNat_bigEndian _)
  exact UInt64.toNat_inj.mp ((hn n).symm.trans ((congrArg toNat h).trans (hn m)))

theorem word_inj (h : transTo32Byte (uint64ToBigEndianHexBytes n) =
    transTo32Byte (uint64ToBigEndianHexBytes m)) : n = m := by
  have hl (n : UInt64) : (uint64ToBigEndianHexBytes n).length = 8 := fit_length _
  refine uint64ToBigEndianHexBytes_inj (transTo32Byte_inj ?_ ((hl n).trans (hl m).symm) h)
  exact Nat.le_trans (Nat.le_of_eq (hl n)) (by decide)

theorem append_word_inj {x y : ByteArr 32} (h : a ++ x.val = b ++ y.val) : a = b ∧ x = y := by
  obtain ⟨ha, hx⟩ := append_inj' h (x.property.trans y.property.symm)
  exact ⟨ha, ByteArr.ext hx⟩

-- The words of the preimage are taken off from the end.
theorem preimage_inj (h : s.preimage fd = s'.preimage fd') :
    UInt64.ofNat s.chainId = UInt64.ofNat s'.chainId ∧ fd.sender = fd'.sender ∧
      fd.index = fd'.index ∧ fd.length = fd'.length ∧
      UInt64.ofInt fd.outOfTime.unix = UInt64.ofInt fd'.outOfTime.unix ∧
      fd.commitment.x.toNat = fd'.commitment.x.toNat ∧
      fd.commitment.y.toNat = fd'.commitment.y.toNat := by
  obtain ⟨h, hy⟩ := append_word_inj h
  obtain ⟨h, hx⟩ := append_word_inj h
  obtain ⟨h, ht⟩ := append_word_inj h
  obtain ⟨h, hl⟩ := append_word_inj h
  obtain ⟨h, hi⟩ := append_word_inj h
  obtain ⟨h, ha⟩ := append_word_inj h
  have hc := word_inj (ByteArr.ext h)
  have hs : fd.sender = fd'.sender := by
    have hl := fd.sender.property.trans fd'.sender.property.symm
    refine ByteArr.ext (transTo32Byte_inj ?_ hl ha)
    exact Nat.le_trans (Nat.le_of_eq fd.sender.property) (by decide)
  exact ⟨hc, hs, word_inj hi, word_inj hl, word_inj ht, Element.bytes_eq_iff.mp hx,
    Element.bytes_eq_iff.mp hy⟩

-- The seconds of an instant are stored in 64 bits.
def GoTime.Fits (t : GoTime) : Prop :=
  -2 ^ 63 ≤ t.sec ∧ t.sec < 2 ^ 63

theorem GoTime.Fits.sec_inj {t t' : GoTime} (ht : t.Fits) (ht' : t'.Fits)
    (h : UInt64.ofInt t.unix = UInt64.ofInt t'.unix) : t.sec = t'.sec := by
  have hn := congrArg UInt64.toNat h
  obtain ⟨h₁, h₂⟩ := ht
  obtain ⟨h₃, h₄⟩ := ht'
  simp only [UInt64.ofInt, UInt64.toNat_ofNat', GoTime.unix, GoTime.unixToInternal] at hn
  omega

-- What is signed of the data. A commitment is given by the numbers that its coordinates represent.
structure DA.SameSigned (da da' : DA) : Prop where
  sender : da.sender = da'.sender
  index : da.index = da'.index
  length : da.length = da'.length
  outOfTime : da.outOfTime.sec = da'.outOfTime.sec
  x : da.commitment.x.toNat = da'.commitment.x.toNat
  y : da.commitment.y.toNat = da'.commitment.y.toNat

theorem preimage_injective (hs : s.chainId < 2 ^ 64) (hs' : s'.chainId < 2 ^ 64)
    (ht : fd.outOfTime.Fits) (ht' : fd'.outOfTime.Fits) (h : s.preimage fd = s'.preimage fd') :
    s.chainId = s'.chainId ∧ fd.SameSigned fd' := by
  obtain ⟨hc, ha, hi, hl, hu, hx, hy⟩ := preimage_inj h
  have hn := congrArg UInt64.toNat hc
  rw [UInt64.toNat_ofNat_of_lt' hs, UInt64.toNat_ofNat_of_lt' hs'] at hn
  exact ⟨hn, ha, hi, hl, ht.sec_inj ht' hu, hx, hy⟩

end Preimage

variable {PrivateKey : Type} {c : Crypto PrivateKey}

theorem singerTool_sender_sign (hc : c.Lawful) (hs : ∀ h prv, ∃ sig, c.sign h prv = .ok sig)
    (config : ChainConfig) (prv : PrivateKey) (da : DA) :
    ∃ sig, SingerTool.sign c config prv da = .ok sig ∧
      SingerTool.sender c config { da with signData := [sig] } =
        .ok ([c.pubkeyToAddress prv], [none]) := by
  obtain ⟨sig, hk⟩ := hs (config.eip155FdSigner.hash c.keccak256 da) prv
  obtain ⟨σ, rfl⟩ := hc.signature hk
  refine ⟨σ.shifted, singerTool_sign_bytes hk, sender_singleton_iff.mpr ?_⟩
  rw [recover_shifted (by simp), FdSigner.hash_signData]
  exact congrArg Except.ok ((congrArg _ (hc.ecrecover hk)).trans (hc.recoveredAddress_ok prv))

-- The tool recovers the address of its key, and what it signs determines the signed fields.
theorem singerTool_sign_faithful (hc : c.Lawful) (hs : ∀ h prv, ∃ sig, c.sign h prv = .ok sig)
    (config : ChainConfig) (id : Nat) (hi : config.chainID = some id) (hl : id < 2 ^ 64) :
    (∀ (prv : PrivateKey) (das : List DA), ∀ da ∈ das,
      ∃ sig, SingerTool.sign c config prv da = .ok sig ∧
        SingerTool.sender c config { da with signData := [sig] } =
          .ok ([c.pubkeyToAddress prv], [none])) ∧
    ∀ (config' : ChainConfig) (id' : Nat) (da da' : DA), config'.chainID = some id' →
      id' < 2 ^ 64 → da.outOfTime.Fits → da'.outOfTime.Fits →
      config.eip155FdSigner.preimage da = config'.eip155FdSigner.preimage da' →
        id = id' ∧ da.SameSigned da' := by
  refine ⟨fun prv _ da _ => singerTool_sender_sign hc hs config prv da, ?_⟩
  intro config' id' da da' hi' hl' ht ht' h
  have hn : config.eip155FdSigner.chainId = id := congrArg (·.getD 0) hi
  have hn' : config'.eip155FdSigner.chainId = id' := congrArg (·.getD 0) hi'
  rw [← hn] at hl ⊢
  rw [← hn'] at hl' ⊢
  exact preimage_injective hl hl' ht ht' h

theorem singerTool_sign_sample :
    (∀ (prv : Unit) (das : List DA), ∀ da ∈ das,
      ∃ sig, SingerTool.sign (sampleCrypto true) sampleConfig prv da = .ok sig ∧
        SingerTool.sender (sampleCrypto true) sampleConfig { da with signData := [sig] } =
          .ok ([(sampleCrypto true).pubkeyToAddress prv], [none])) ∧
    ∀ (config' : ChainConfig) (id' : Nat) (da da' : DA), config'.chainID = some id' →
      id' < 2 ^ 64 → da.outOfTime.Fits → da'.outOfTime.Fits →
      sampleConfig.eip155FdSigner.preimage da = config'.eip155FdSigner.preimage da' →
        1 = id' ∧ da.SameSigned da' :=
  singerTool_sign_faithful (sampleCrypto_lawful true) (fun _ _ => ⟨_, rfl⟩) sampleConfig 1 rfl
    (by decide)

-- The words of the modulus represent the same number as those of zero.
theorem not_commitment_injective :
    ¬∀ (config : ChainConfig) (id : Nat) (da da' : DA), config.chainID = some id → id < 2 ^ 64 →
      da.outOfTime.Fits → da'.outOfTime.Fits →
      config.eip155FdSigner.preimage da = config.eip155FdSigner.preimage da' →
        da.commitment = da'.commitment := by
  intro h
  let da : DA := { DA.zero with commitment := ⟨.ofWords Element.modulus, .ofWords 0⟩ }
  have hp : sampleConfig.eip155FdSigner.preimage da = sampleConfig.eip155FdSigner.preimage .zero := by
    decide +kernel
  have hc : da.commitment ≠ DA.zero.commitment := by decide +kernel
  have ht : DA.zero.outOfTime.Fits := ⟨by decide, by decide⟩
  exact hc (h sampleConfig 1 da .zero rfl (by decide) ht ht hp)

end SingerTool
