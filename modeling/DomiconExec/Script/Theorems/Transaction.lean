import DomiconExec.Primitives.Loop
import DomiconExec.Script.Theorems.Grammar

namespace Script

open List

variable {lib : Library} {script : Bytes} {witness : List Bytes} {index : Nat}

section Readable

def ValidKeys (lib : Library) (script : Bytes) : Prop :=
  ∀ i, i = 0 ∨ i = 2 → ∀ t ∈ (lib.tokenize script).fst[i]?, lib.parsePubKey (t.data.getD []) ≠ none

def witnessScript (witness : List Bytes) : Option Bytes :=
  match witness.reverse with
  | (b :: last) :: penultimate :: items =>
    if items.length = 0 ∧ b = taprootAnnexTag then
      none
    else if b = taprootAnnexTag then
      some (b :: last)
    else
      some penultimate
  | _ => none

-- The last of several witness items is not empty, and a parsed script starts with valid keys.
structure Readable (lib : Library) (witness : List Bytes) : Prop where
  last : 2 ≤ witness.length → witness.getLast? ≠ some []
  keys : ∀ script ∈ witnessScript witness, needParse lib script → ValidKeys lib script

theorem convertPubKey2Address_ok_iff {key : Option Bytes} :
    (∃ a, convertPubKey2Address lib key = .ok a) ↔ key ≠ none := by
  cases key <;> simp [convertPubKey2Address]

theorem parseValidator_ok_iff : (∃ l, parseValidator lib script = .ok l) ↔ ValidKeys lib script := by
  have body (x : Token × Nat) (addresses : List GoString) : (∃ l, (do
      if x.snd = 0 ∨ x.snd = 2 then
        let address ← convertPubKey2Address lib (lib.parsePubKey (x.fst.data.getD []))
        return addresses ++ [address]
      else
        return addresses : Except GoPanic (List GoString)) = .ok l) ↔
      (x.snd = 0 ∨ x.snd = 2 → lib.parsePubKey (x.fst.data.getD []) ≠ none) := by
    split
    case isTrue h =>
      rw [← convertPubKey2Address_ok_iff, imp_iff_right h]
      exact Loop.bind_ok_iff fun _ => ⟨_, rfl⟩
    case isFalse h => exact iff_of_true ⟨addresses, rfl⟩ fun h' => absurd h' h
  refine (Loop.foldlM_ok_iff body).trans ?_
  simp only [Prod.forall, mem_zipIdx_iff_getElem?]
  exact ⟨fun h i hi t ht => h t i ht hi, fun h t i ht hi => h i hi t ht⟩

variable {order : Nat → IterOrder GoString}

theorem inscriptionsOf_ok_iff : (∃ l, inscriptionsOf lib order index script = .ok l) ↔
    (needParse lib script → ValidKeys lib script) := by
  unfold inscriptionsOf
  split
  case isTrue h  => exact iff_of_true ⟨[], rfl⟩ fun h' => absurd h' h
  case isFalse h =>
    rw [imp_iff_right (not_not.mp h), ← parseValidator_ok_iff]
    refine Loop.bind_ok_iff fun addresses => ?_
    split <;> exact ⟨_, rfl⟩

-- The witness is either too short, or its last item is empty, or there is a script in it.
theorem parseInput_eq (lib : Library) (order : Nat → IterOrder GoString) (index : Nat)
    (witness : List Bytes) : parseInput lib order index witness =
      if 2 ≤ witness.length ∧ witness.getLast? = some [] then
        .error .indexOutOfRange
      else
        (witnessScript witness).elim (.ok []) (inscriptionsOf lib order index) := by
  rw [← length_reverse, ← List.head?_reverse]
  unfold parseInput witnessScript
  split
  case h_1 h => simp [h]
  case h_2 h => simp [h]
  case h_3 h => simp [h]
  case h_4 h =>
    simp only [h, length_cons, List.head?_cons, Option.some.injEq, reduceCtorEq, and_false,
      if_false]
    split
    case isTrue  => rfl
    case isFalse => split <;> rfl

theorem parseInput_ok_iff :
    (∃ l, parseInput lib order index witness = .ok l) ↔ Readable lib witness := by
  rw [parseInput_eq]
  split
  case isTrue h  => exact iff_of_false (by simp) fun r => r.last h.left h.right
  case isFalse h =>
    have hr : Readable lib witness ↔
        ∀ script ∈ witnessScript witness, needParse lib script → ValidKeys lib script :=
      ⟨Readable.keys, fun k => ⟨fun hl he => h ⟨hl, he⟩, k⟩⟩
    rw [hr]
    cases witnessScript witness
    case none        => exact iff_of_true ⟨[], rfl⟩ fun _ hs => absurd hs (Option.not_mem_none _)
    case some script =>
      rw [Option.elim_some, inscriptionsOf_ok_iff]
      simp

theorem readable_of_length_eq_zero (h : witness.length = 0) : Readable lib witness := by
  cases length_eq_zero_iff.mp h
  exact ⟨by simp, fun _ hs => absurd hs (Option.not_mem_none _)⟩

-- The parser returns a list for exactly the transactions all of whose witnesses are readable.
theorem parse_ok_iff_readable (lib : Library) (order : Nat → Nat → IterOrder GoString) (tx : MsgTx) :
    (∃ l, parseInscriptionsFromTransaction lib order tx = .ok l) ↔
      ∀ witness ∈ tx, Readable lib witness := by
  unfold parseInscriptionsFromTransaction
  split
  case isTrue h =>
    refine iff_of_true ⟨[], rfl⟩ fun witness hw => readable_of_length_eq_zero ?_
    simp only [MsgTx.hasWitness, any_eq_true, decide_eq_true_eq, not_exists, not_and,
      not_not] at h
    exact h witness hw
  case isFalse =>
    have body (x : List Bytes × Nat) (l : List TransactionInscription) :
        (∃ l', (do
          let l' ← parseInput lib (order x.snd) x.snd x.fst
          return l ++ l' : Except GoPanic (List TransactionInscription)) = .ok l') ↔
        Readable lib x.fst :=
      (Loop.bind_ok_iff fun _ => ⟨_, rfl⟩).trans parseInput_ok_iff
    refine (Loop.foldlM_ok_iff body).trans ?_
    rw [← forall_mem_map (P := Readable lib), zipIdx_map_fst]

end Readable

-- A library that knows the opcodes that push no data, and no keys.
def bytewise : Library where
  tokenize b := (b.filterMap fun x =>
    if h : opData1 ≤ x ∧ x ≤ opPushData4 then none else some (plain x h), false)
  parsePubKey _ := none
  newAddressPubKey _ := .error ⟨"invalid public key"⟩

-- The items of a witness may be empty.
theorem not_parse_ok_empty_item :
    ¬∀ (lib : Library) (order : Nat → Nat → IterOrder GoString) (tx : MsgTx),
      (∀ b : Bytes, b.length ≠ 32 → lib.parsePubKey b = none) →
        ∃ l, parseInscriptionsFromTransaction lib order tx = .ok l := by
  intro h
  obtain ⟨l, h⟩ := h bytewise (fun _ _ => .along []) [[[opEndIf], []]] fun _ _ => rfl
  cases h

section Annex

variable {order : Nat → Nat → IterOrder GoString} {w w' : List Bytes} {pre post : MsgTx}
variable {items : List Bytes} {control annex : Bytes} {b : UInt8}

theorem parse_replace (hw : w ≠ []) (hw' : w' ≠ [])
    (h : ∀ l, parseInput lib (order pre.length) pre.length w = .ok l →
      parseInput lib (order pre.length) pre.length w' = .ok l) {l : List TransactionInscription}
    (hp : parseInscriptionsFromTransaction lib order (pre ++ w :: post) = .ok l) :
    parseInscriptionsFromTransaction lib order (pre ++ w' :: post) = .ok l := by
  have hh (w : List Bytes) (hw : w ≠ []) : ¬¬MsgTx.hasWitness (pre ++ w :: post) := by
    simp [MsgTx.hasWitness, hw]
  simp only [parseInscriptionsFromTransaction, if_neg (hh w hw), if_neg (hh w' hw'),
    zipIdx_append, zipIdx_cons, foldlM_append, foldlM_cons,
    Nat.zero_add] at hp ⊢
  obtain ⟨l₁, h₁, hp⟩ := Loop.bind_eq_ok hp
  obtain ⟨l₂, h₂, hp⟩ := Loop.bind_eq_ok hp
  obtain ⟨l₃, h₃, h₂⟩ := Loop.bind_eq_ok h₂
  rwa [Loop.bind_of_eq_ok h₁, Loop.bind_of_eq_ok (Loop.bind_of_eq_ok (h l₃ h₃) |>.trans h₂)]

theorem parse_singleton (hw : w ≠ []) {l : List TransactionInscription} :
    parseInscriptionsFromTransaction lib order [w] = .ok l ↔
      parseInput lib (order 0) 0 w = .ok l := by
  have hh : ¬¬MsgTx.hasWitness [w] := by simp [MsgTx.hasWitness, hw]
  simp only [parseInscriptionsFromTransaction, if_neg hh, zipIdx_cons, zipIdx_nil,
    foldlM_cons, foldlM_nil]
  cases parseInput lib (order 0) 0 w <;> simp [bind, Except.bind, pure, Except.pure]

variable {order : Nat → IterOrder GoString}

theorem parseInput_control (hb : b ≠ taprootAnnexTag) :
    parseInput lib order index (items ++ [script, b :: control]) =
      inscriptionsOf lib order index script := by
  simp [parseInput, hb]

-- The annex takes the place of the script.
theorem parseInput_annex :
    parseInput lib order index (items ++ [script, b :: control] ++ [taprootAnnexTag :: annex]) =
      inscriptionsOf lib order index (taprootAnnexTag :: annex) := by
  simp [parseInput]

-- A script that starts with an opcode without data does not start with a key.
theorem inscriptionsOf_annex
    (ht : ∀ t ∈ (lib.tokenize (taprootAnnexTag :: annex)).fst.head?, t.opcode = taprootAnnexTag)
    (hk : lib.parsePubKey [] = none) {l : List TransactionInscription} :
    inscriptionsOf lib order index (taprootAnnexTag :: annex) = .ok l ↔
      ¬needParse lib (taprootAnnexTag :: annex) ∧ l = [] := by
  by_cases hn : needParse lib (taprootAnnexTag :: annex)
  case neg =>
    rw [inscriptionsOf, if_pos hn]
    simp [hn, eq_comm]
  case pos =>
    refine iff_of_false (fun h => ?_) fun h => h.left hn
    have hv := inscriptionsOf_ok_iff.mp ⟨l, h⟩ hn 0 (.inl rfl)
    cases hl : (lib.tokenize (taprootAnnexTag :: annex)).fst
    case nil => simp [needParse, hl] at hn
    case cons t _ =>
      rw [hl] at ht hv
      have hd : t.data = none := by
        rw [← Option.not_isSome_iff_eq_none, t.data_iff, ht t rfl]
        decide
      exact hv t rfl (by rw [hd]; exact hk)

theorem inscriptionsOf_eq_nil (h : needParse lib script → parseScript lib order script = [])
    {l : List TransactionInscription}
    (hl : inscriptionsOf lib order index script = .ok l) : l = [] := by
  unfold inscriptionsOf at hl
  split at hl
  case isTrue => exact (Except.ok.inj hl).symm
  case isFalse hn =>
    obtain ⟨addresses, _, hl⟩ := Loop.bind_eq_ok hl
    rw [h (not_not.mp hn)] at hl
    split at hl <;> exact (Except.ok.inj hl).symm

theorem parseValidator_ne_nil {l : List GoString} (ht : (lib.tokenize script).fst ≠ [])
    (h : parseValidator lib script = .ok l) : l ≠ [] := by
  unfold parseValidator at h
  obtain ⟨t, ts, ht⟩ := exists_cons_of_ne_nil ht
  rw [ht, zipIdx_cons] at h
  obtain ⟨l₁, h₁, h⟩ := Loop.bind_eq_ok h
  refine Loop.foldlM_preserves (· ≠ []) (fun x _ l l' hl h => ?_) ?_ h
  case refine_1 =>
    obtain ⟨t, position⟩ := x
    dsimp only at h
    split at h
    case isTrue =>
      obtain ⟨_, _, h⟩ := Loop.bind_eq_ok h
      cases h
      simp
    case isFalse =>
      cases h
      exact hl
  case refine_2 =>
    obtain ⟨_, _, h₁⟩ := Loop.bind_eq_ok h₁
    cases h₁
    simp

theorem parseScript_eq_nil (hn : needParse lib script)
    (hl : inscriptionsOf lib order index script = .ok []) : parseScript lib order script = [] := by
  rw [inscriptionsOf, if_neg (not_not.mpr hn)] at hl
  obtain ⟨addresses, ha, hl⟩ := Loop.bind_eq_ok hl
  have ht : (lib.tokenize script).fst ≠ [] := by
    intro h
    simp [needParse, h] at hn
  rw [if_neg (mt length_eq_zero_iff.mp (parseValidator_ne_nil ht ha))] at hl
  simpa using Except.ok.inj hl

theorem parseScript_order (order order' : Nat → IterOrder GoString) :
    parseScript lib order script = parseScript lib order' script :=
  parseInscriptions_order order order' _ _

-- The annex is parsed instead of the script, which only makes no difference if both have nothing in
-- them.
theorem annex_iff (lib : Library) (order : Nat → Nat → IterOrder GoString) (items : List Bytes)
    (script control annex : Bytes) (b : UInt8) (hb : b ≠ taprootAnnexTag)
    (ht : ∀ t ∈ (lib.tokenize (taprootAnnexTag :: annex)).fst.head?, t.opcode = taprootAnnexTag)
    (hk : lib.parsePubKey [] = none) :
    (∀ pre post l,
      parseInscriptionsFromTransaction lib order
        (pre ++ (items ++ [script, b :: control]) :: post) = .ok l →
      parseInscriptionsFromTransaction lib order
        (pre ++ (items ++ [script, b :: control] ++ [taprootAnnexTag :: annex]) :: post) = .ok l) ↔
    ¬(needParse lib script → ValidKeys lib script) ∨
      ¬needParse lib (taprootAnnexTag :: annex) ∧
        (needParse lib script → parseScript lib (order 0) script = []) := by
  have hw : items ++ [script, b :: control] ≠ [] := by simp
  have hw' : items ++ [script, b :: control] ++ [taprootAnnexTag :: annex] ≠ [] := by simp
  constructor
  case mp =>
    intro h
    rw [or_iff_not_imp_left, not_not]
    intro hv
    obtain ⟨l, hl⟩ := inscriptionsOf_ok_iff.mpr hv
    have hl' := h [] [] l (parse_singleton hw |>.mpr ((parseInput_control hb).trans hl))
    rw [nil_append, parse_singleton hw', parseInput_annex,
      inscriptionsOf_annex ht hk] at hl'
    refine ⟨hl'.left, fun hn => ?_⟩
    cases hl'.right
    exact parseScript_eq_nil hn hl
  case mpr =>
    intro h pre post l
    refine parse_replace hw hw' fun l hl => ?_
    rw [parseInput_control hb] at hl
    rw [parseInput_annex, inscriptionsOf_annex ht hk]
    cases h
    case inl hv => exact absurd (inscriptionsOf_ok_iff.mp ⟨l, hl⟩) hv
    case inr hn =>
      refine ⟨hn.left, inscriptionsOf_eq_nil (fun hp => ?_) hl⟩
      rw [parseScript_order _ (order 0)]
      exact hn.right hp

theorem annex_checksig :
    parseInscriptionsFromTransaction bytewise (fun _ _ => .along []) [[[0xac], [0xc0]]] = .ok [] ∧
    parseInscriptionsFromTransaction bytewise (fun _ _ => .along [])
      [[[0xac], [0xc0], [taprootAnnexTag]]] = .ok [] := by
  have hw : parseInscriptionsFromTransaction bytewise (fun _ _ => .along []) [[[0xac], [0xc0]]] =
    .ok [] := rfl
  refine ⟨hw, ?_⟩
  have hn : ¬needParse bytewise [taprootAnnexTag] := by decide
  have hn' : ¬needParse bytewise [0xac] := by decide
  exact annex_iff bytewise (fun _ _ => .along []) [] [0xac] [] [] 0xc0 (by decide)
    (fun t ht => by cases ht; rfl) rfl |>.mpr (.inr ⟨hn, fun h => absurd h hn'⟩) [] [] [] hw

def signedTokens : List Token :=
  [push 32 (List.replicate 32 1) (by decide), plain 0xac (by decide),
    push 32 (List.replicate 32 2) (by decide), plain 0xba (by decide), plain 0x52 (by decide),
    plain 0x9c (by decide)]

def signedScript : Bytes :=
  (signedTokens ++ sampleTokens).flatMap fun t => t.opcode :: t.data.getD []

-- A library that knows this script as well.
def reading : Library where
  tokenize b :=
    if b = signedScript then (signedTokens ++ sampleTokens, false) else bytewise.tokenize b
  parsePubKey b := if b.length = 32 then some b else none
  newAddressPubKey b := .ok b

theorem tokenize_signedScript :
    reading.tokenize signedScript = (signedTokens ++ sampleTokens, false) := by
  simp [reading]

theorem needParse_signedScript : needParse reading signedScript := by
  rw [needParse, tokenize_signedScript]
  decide

theorem validKeys_signedScript : ValidKeys reading signedScript := by
  rintro i (rfl | rfl) t ht <;> rw [tokenize_signedScript] at ht <;> cases ht <;> decide

theorem parseScript_signedScript (order : Nat → IterOrder GoString) :
    parseScript reading order signedScript = [content [([1], some [0x61, 0x62])] [7, 8, 9]] := by
  rw [parseScript, tokenize_signedScript]
  dsimp only
  rw [parseInscriptions_append _ _ _ (by decide)]
  exact parseInscriptions_inscribed order false sampleTokens_inscribed

-- With an annex, an inscription is not found any more.
theorem not_annex_signed :
    ¬∀ (lib : Library) (order : Nat → Nat → IterOrder GoString) (items : List Bytes)
      (script control annex : Bytes) (b : UInt8), b ≠ taprootAnnexTag →
      (∀ t ∈ (lib.tokenize (taprootAnnexTag :: annex)).fst.head?, t.opcode = taprootAnnexTag) →
      (∀ b : Bytes, b.length ≠ 32 → lib.parsePubKey b = none) →
      ∀ pre post l,
        parseInscriptionsFromTransaction lib order
          (pre ++ (items ++ [script, b :: control]) :: post) = .ok l →
        parseInscriptionsFromTransaction lib order
          (pre ++ (items ++ [script, b :: control] ++ [taprootAnnexTag :: annex]) :: post) =
            .ok l := by
  intro h
  have hk (b : Bytes) (hb : b.length ≠ 32) : reading.parsePubKey b = none := if_neg hb
  have ht : ∀ t ∈ (reading.tokenize [taprootAnnexTag]).fst.head?, t.opcode = taprootAnnexTag := by
    intro t ht
    cases ht
    rfl
  have hb : (0xc0 : UInt8) ≠ taprootAnnexTag := by decide
  obtain ⟨l, hl⟩ : ∃ l, inscriptionsOf reading (fun _ => .along []) 0 signedScript = .ok l :=
    inscriptionsOf_ok_iff.mpr fun _ => validKeys_signedScript
  have hi : parseInput reading (fun _ => .along []) 0 ([] ++ [signedScript, [0xc0]]) =
      inscriptionsOf reading (fun _ => .along []) 0 signedScript :=
    parseInput_control hb
  have hw : parseInscriptionsFromTransaction reading (fun _ _ => .along [])
      [[signedScript, [0xc0]]] = .ok l :=
    parse_singleton (by simp) |>.mpr (hi.trans hl)
  have hw' := h reading (fun _ _ => .along []) [] signedScript [] [] 0xc0 hb ht hk [] [] l hw
  rw [nil_append, parse_singleton (by simp), parseInput_annex,
    inscriptionsOf_annex ht (hk [] (by decide))] at hw'
  cases hw'.right
  have := parseScript_eq_nil needParse_signedScript hl
  rw [parseScript_signedScript] at this
  contradiction

end Annex
end Script
