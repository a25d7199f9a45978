import DomiconExec.Script.Parser

open List

namespace Hex

theorem encodeToString_injective {a b : Bytes} (h : encodeToString a = encodeToString b) :
    a = b := by
  have h := congrArg decodeString h
  rw [decodeString_encodeToString, decodeString_encodeToString] at h
  exact (Prod.mk.inj h).left

end Hex

namespace Script

abbrev Field :=
  Bytes × Option Bytes

inductive Fields : List Token → List Field → Prop
  | nil : Fields [] []
  | cons {t v : Token} {ts : List Token} {tag : Bytes} {fields : List Field} :
    t.data = some tag → v.data.isSome ∨ v.opcode = op0 → Fields ts fields →
      Fields (t :: v :: ts) ((tag, v.data) :: fields)

inductive Pushes : List Token → Bytes → Prop
  | nil : Pushes [] []
  | zero {t : Token} {ts : List Token} {body : Bytes} :
    t.opcode = op0 → Pushes ts body → Pushes (t :: ts) body
  | push {t : Token} {ts : List Token} {data body : Bytes} :
    t.data = some data → data.length ≤ 520 → Pushes ts body → Pushes (t :: ts) (data ++ body)

inductive Ending : List Token → Bytes → Prop
  | plain {e : Token} : e.opcode = opEndIf → Ending [e] []
  | body {z e : Token} {ts : List Token} {body : Bytes} :
    z.opcode = op0 → Pushes ts body → e.opcode = opEndIf → Ending (z :: ts ++ [e]) body

structure Envelope (ts : List Token) (fields : List Field) (body : Bytes) : Prop where
  split : ∃ fs es, ts = fs ++ es ∧ Fields fs fields ∧ Ending es body
  nodup : (fields.map Prod.fst).Nodup

def isEven (tag : Bytes) : Bool :=
  tag ≠ [1] && tag.head?.any (· % 2 = 0)

def content (fields : List Field) (body : Bytes) : InscriptionContent where
  contentType := (fields.lookup [1]).join
  contentBody := body
  contentLength := body.length
  isUnrecognizedEvenField := fields.any fun f => isEven f.fst

namespace Token

variable {t : Token} {data : Bytes}

theorem opcode_of_data (h : t.data = some data) : opData1 ≤ t.opcode ∧ t.opcode ≤ opPushData4 :=
  t.data_iff.mp (by simp [h])

theorem ne_opEndIf_of_data (h : t.data = some data) : t.opcode ≠ opEndIf := by
  intro he
  have := opcode_of_data h
  rw [he] at this
  exact absurd this (by decide)

theorem ne_op0_of_data (h : t.data = some data) : t.opcode ≠ op0 := by
  intro he
  have := opcode_of_data h
  rw [he] at this
  exact absurd this (by decide)

theorem hex_of_data (h : t.data = some data) : t.hex = Hex.encodeToString data := by
  rw [hex, h, Option.getD_some]

theorem hex_eq_protocolID : t.hex = protocolID ↔ t.data = some [0x6f, 0x72, 0x64] where
  mp h := by
    have he : protocolID = Hex.encodeToString [0x6f, 0x72, 0x64] := by decide
    have hd := Hex.encodeToString_injective (h.trans he)
    cases h : t.data <;> rw [h] at hd
    case none   => contradiction
    case some d => exact congrArg some hd
  mpr h := by
    rw [hex_of_data h]
    decide

-- The only opcode that starts a body.
theorem hex_opcode_eq_bodyTag : Hex.encodeToString [t.opcode] = bodyTag ↔ t.opcode = op0 where
  mp h := by
    have he : bodyTag = Hex.encodeToString [op0] := by decide
    simpa using Hex.encodeToString_injective (h.trans he)
  mpr h := by
    rw [h]
    decide

end Token

section Body

variable {malformed : Bool} {current : Token} {b body : Bytes} {l ts rest : List Token} {e : Token}

theorem parseBody_complete (h : Pushes ts body) (he : e.opcode = opEndIf) :
    parseBody malformed current b (ts ++ e :: rest) =
      (some (b ++ body), ⟨e, rest, malformed, false⟩) := by
  induction h generalizing current b
  case nil => simp [parseBody, he]
  case zero t ts body hz _ hi =>
    have hn : op0 ≠ opEndIf := by decide
    simp [parseBody, hz, hn, hi]
  case push t ts data body hd hl _ hi =>
    simp [parseBody, t.ne_opEndIf_of_data hd, t.ne_op0_of_data hd, t.opcode_of_data hd, hd,
      Nat.not_lt.mpr hl, hi]

theorem parseBody_sound {tokenizer : Tokenizer}
    (h : parseBody malformed current b l = (some body, tokenizer))
    (he : tokenizer.current.opcode = opEndIf) (hc : current.opcode ≠ opEndIf) :
    ∃ ts e rest b', l = ts ++ e :: rest ∧ Pushes ts b' ∧ e.opcode = opEndIf ∧
      body = b ++ b' ∧ tokenizer = ⟨e, rest, malformed, false⟩ := by
  induction l generalizing current b
  case nil =>
    cases h
    contradiction
  case cons t l hi =>
    rw [parseBody] at h
    split at h
    case isTrue ht =>
      cases h
      exact ⟨[], t, l, [], rfl, .nil, ht, by simp, rfl⟩
    case isFalse ht =>
      split at h
      case isTrue hz =>
        obtain ⟨ts, e, rest, b', rfl, hp, he, hb, hr⟩ := hi h ht
        exact ⟨t :: ts, e, rest, b', rfl, .zero hz hp, he, hb, hr⟩
      case isFalse =>
        split at h
        case isFalse => cases h
        case isTrue hd =>
          split at h
          case isTrue => cases h
          case isFalse hl =>
            obtain ⟨data, hd⟩ := Option.isSome_iff_exists.mp (t.data_iff.mpr hd)
            rw [hd, Option.getD_some] at h hl
            obtain ⟨ts, e, rest, b', rfl, hp, he, hb, hr⟩ := hi h ht
            refine ⟨t :: ts, e, rest, data ++ b', rfl, .push hd (Nat.not_lt.mp hl) hp, he, ?_, hr⟩
            rw [hb, append_assoc]

end Body

section Tags

variable {malformed : Bool} {current : Token} {tags : Tags} {fields : List Field} {body : Bytes}
variable {l fs es rest : List Token}

def setAll (tags : Tags) (fields : List Field) : Tags :=
  fields.foldl (fun tags f => tags.set (Hex.encodeToString f.fst) f.snd) tags

-- None of the tags has occurred before.
structure Fresh (tags : Tags) (fields : List Field) : Prop where
  nodup : (fields.map Prod.fst).Nodup
  not_mem : ∀ f ∈ fields, Hex.encodeToString f.fst ∉ tags

theorem Fresh.nil : Fresh tags [] :=
  ⟨nodup_nil, by simp⟩

theorem fresh_cons {tag : Bytes} {v : Option Bytes} : Fresh tags ((tag, v) :: fields) ↔
    Hex.encodeToString tag ∉ tags ∧ Fresh (tags.set (Hex.encodeToString tag) v) fields := by
  constructor
  case mp =>
    rintro ⟨hn, hm⟩
    obtain ⟨ht, hn⟩ := nodup_cons.mp hn
    obtain ⟨hm, hf⟩ := forall_mem_cons.mp hm
    refine ⟨hm, hn, fun f h => ?_⟩
    rw [GoMap.mem_set]
    rintro (he | h')
    case inl => exact ht (mem_map.mpr ⟨f, h, Hex.encodeToString_injective he⟩)
    case inr => exact hf f h h'
  case mpr =>
    rintro ⟨hm, hn, hf⟩
    simp only [GoMap.mem_set, not_or] at hf
    refine ⟨nodup_cons.mpr ⟨fun h => ?_, hn⟩, forall_mem_cons.mpr ⟨hm, fun f h => ?_⟩⟩
    case refine_1 =>
      obtain ⟨f, hm, he⟩ := mem_map.mp h
      exact (hf f hm).left (congrArg Hex.encodeToString he)
    case refine_2 => exact (hf f h).right

theorem parseTags_ending (h : Ending es body) : ∃ e, e.opcode = opEndIf ∧
    parseTags malformed current tags (es ++ rest) =
      (some (tags, body), ⟨e, rest, malformed, false⟩) := by
  cases h
  case plain e he =>
    refine ⟨e, he, ?_⟩
    rw [singleton_append, parseTags.eq_def]
    exact if_pos he
  case body z e ts hz he hp =>
    refine ⟨e, he, ?_⟩
    have hn : op0 ≠ opEndIf := by decide
    have hb : Hex.encodeToString [op0] = bodyTag := by decide
    have h : parseBody malformed z [] (ts ++ e :: rest) = (some body, ⟨e, rest, malformed, false⟩) :=
      parseBody_complete hp he
    rw [append_assoc, singleton_append, cons_append, parseTags.eq_def]
    simp [hz, hn, hb, h]

theorem parseTags_complete (malformed : Bool) (current : Token) (rest : List Token)
    (h : Fields fs fields) (hf : Fresh tags fields) (he : Ending es body) :
    ∃ e, e.opcode = opEndIf ∧ parseTags malformed current tags (fs ++ es ++ rest) =
      (some (setAll tags fields, body), ⟨e, rest, malformed, false⟩) := by
  induction h generalizing current tags
  case nil => exact parseTags_ending he
  case cons t v ts tag fields hd hv _ hi =>
    obtain ⟨hm, hf⟩ := fresh_cons.mp hf
    obtain ⟨e, ho, hp⟩ := hi v hf
    refine ⟨e, ho, ?_⟩
    have hb : ¬Hex.encodeToString [t.opcode] = bodyTag :=
      mt Token.hex_opcode_eq_bodyTag.mp (t.ne_op0_of_data hd)
    have hv' : ¬(v.opcode ≠ op0 ∧ v.data = none) := by
      rintro ⟨hz, hn⟩
      simp [hz, hn] at hv
    rw [cons_append, cons_append, cons_append, cons_append, parseTags,
      if_neg (t.ne_opEndIf_of_data hd), if_neg hb, if_neg, if_neg hv', Token.hex_of_data hd, hp]
    case hnc => simp [hd, Token.hex_of_data hd, hm]
    rfl

theorem parseTags_sound {tags' : Tags} {tokenizer : Tokenizer}
    (h : parseTags malformed current tags l = (some (tags', body), tokenizer))
    (he : tokenizer.current.opcode = opEndIf) (hc : current.opcode ≠ opEndIf) :
    ∃ fs es rest fields, l = fs ++ es ++ rest ∧ Fields fs fields ∧ Ending es body ∧
      Fresh tags fields ∧ tags' = setAll tags fields ∧ tokenizer.rest = rest := by
  fun_induction parseTags malformed current tags l
  case case1 =>
    cases h
    contradiction
  case case2 t rest ht =>
    cases h
    exact ⟨[], [t], rest, [], rfl, .nil, .plain ht, .nil, rfl, rfl⟩
  case case3 t rest ht hb b tokenizer' hp =>
    obtain ⟨hm, rfl⟩ := Prod.mk.inj h
    obtain ⟨b', rfl, hm⟩ := Option.map_eq_some_iff.mp hm
    cases hm
    obtain ⟨ts, e, rest', b'', rfl, hs, ho, hb', rfl⟩ := parseBody_sound hp he ht
    have hz := Token.hex_opcode_eq_bodyTag.mp hb
    cases hb'
    exact ⟨[], t :: ts ++ [e], rest', [], by simp, .nil, .body hz hs ho, .nil, rfl, rfl⟩
  case case4 => cases h
  case case5 t ht _ _ _ =>
    cases h
    contradiction
  case case6 => cases h
  case case7 t ht hb hd v rest hv hi =>
    obtain ⟨hd, hm⟩ := not_or.mp hd
    obtain ⟨tag, hd⟩ := Option.ne_none_iff_exists'.mp hd
    have hv' : v.data.isSome ∨ v.opcode = op0 := by
      rw [not_and_or, not_not, or_comm] at hv
      exact hv.imp_left Option.isSome_iff_ne_none.mpr
    have hn : v.opcode ≠ opEndIf := by
      rintro h
      cases hv'
      case inl hs =>
        obtain ⟨_, hs⟩ := Option.isSome_iff_exists.mp hs
        exact v.ne_opEndIf_of_data hs h
      case inr hz => exact absurd (hz.symm.trans h) (by decide)
    obtain ⟨fs, es, rest', fields, rfl, hf, hs, hr, rfl, ht⟩ := hi h hn
    rw [Token.hex_of_data hd] at hm hr ⊢
    exact ⟨t :: v :: fs, es, rest', (tag, v.data) :: fields, rfl, .cons hd hv' hf, hs,
      fresh_cons.mpr ⟨hm, hr⟩, rfl, ht⟩

end Tags

section Content

variable {tags : Tags} {fields : List Field} {key : GoString}

theorem mem_setAll : key ∈ setAll tags fields ↔
    key ∈ tags ∨ ∃ f ∈ fields, key = Hex.encodeToString f.fst := by
  induction fields generalizing tags
  case nil => simp [setAll]
  case cons f fields hi =>
    rw [setAll, foldl_cons, ← setAll, hi, GoMap.mem_set, exists_mem_cons_iff]
    tauto

theorem get_setAll (tags : Tags) (tag : Bytes) (hn : (fields.map Prod.fst).Nodup) :
    (setAll tags fields).get (Hex.encodeToString tag) =
      (fields.lookup tag).or (tags.get (Hex.encodeToString tag)) := by
  induction fields generalizing tags
  case nil => rfl
  case cons f fields hi =>
    obtain ⟨hf, hn⟩ := nodup_cons.mp hn
    rw [setAll, foldl_cons, ← setAll, hi _ hn, GoMap.get_set, lookup_cons]
    by_cases he : tag = f.fst
    case pos =>
      have hl : fields.lookup tag = none := by
        refine lookup_eq_none_iff.mpr fun g hg => ?_
        refine bne_iff_ne.mpr fun ht => hf ?_
        exact mem_map.mpr ⟨g, hg, ht.symm.trans he⟩
      simp [he, he ▸ hl]
    case neg =>
      have : Hex.encodeToString tag ≠ Hex.encodeToString f.fst :=
        mt Hex.encodeToString_injective he
      simp [this, beq_eq_false_iff_ne.mpr he]

def isEvenKey (key : GoString) : Bool :=
  key ≠ contentTypeTag && (Hex.hex2Bytes key).head?.any (· % 2 = 0)

theorem contentTypeTag_eq : contentTypeTag = Hex.encodeToString [1] := by
  decide

theorem isEvenKey_encodeToString (tag : Bytes) : isEvenKey (Hex.encodeToString tag) = isEven tag := by
  have he : Hex.encodeToString tag = contentTypeTag ↔ tag = [1] := by
    rw [contentTypeTag_eq]
    exact ⟨Hex.encodeToString_injective, congrArg _⟩
  simp only [isEvenKey, isEven, ne_eq, he]
  rw [← Hex.bytes2Hex, Hex.hex2Bytes_bytes2Hex]

theorem foldl_readTag (l : List GoString) (s : Option Bytes × Bool) :
    l.foldl (readTag tags) s =
      (if contentTypeTag ∈ l then (tags.get contentTypeTag).join else s.fst,
        s.snd || l.any isEvenKey) := by
  induction l generalizing s
  case nil => simp
  case cons key l hi =>
    rw [foldl_cons, hi]
    by_cases hk : key = contentTypeTag
    case pos => simp [readTag, hk, isEvenKey]
    case neg =>
      simp only [readTag, if_neg hk, isEvenKey, any_cons]
      cases hb : Hex.hex2Bytes key <;> simp [hk, Ne.symm hk, Bool.or_assoc]

-- The order in which the tags are visited does not matter.
theorem foldl_readTag_setAll (order : IterOrder GoString) (hn : (fields.map Prod.fst).Nodup) :
    (order.list (setAll ∅ fields).keys).foldl (readTag (setAll ∅ fields)) (none, false) =
      ((fields.lookup [1]).join, fields.any fun f => isEven f.fst) := by
  have hm (key : GoString) : key ∈ order.list (setAll ∅ fields).keys ↔
      ∃ f ∈ fields, key = Hex.encodeToString f.fst := by
    simp [mem_setAll]
  have hg := get_setAll ∅ [1] hn
  rw [GoMap.get_empty, Option.or_none, ← contentTypeTag_eq] at hg
  rw [foldl_readTag, Bool.false_or, hg]
  congr 1
  case e_fst =>
    split
    case isTrue  => rfl
    case isFalse h =>
      have hc : contentTypeTag ∉ setAll ∅ fields := by simpa using h
      rw [← hg, GoMap.get_eq_none.mpr hc]
      rfl
  case e_snd =>
    rw [Bool.eq_iff_iff, any_eq_true, any_eq_true]
    constructor
    case mp =>
      rintro ⟨key, hk, he⟩
      obtain ⟨f, hf, rfl⟩ := (hm key).mp hk
      exact ⟨f, hf, isEvenKey_encodeToString f.fst ▸ he⟩
    case mpr =>
      rintro ⟨f, hf, he⟩
      exact ⟨_, (hm _).mpr ⟨f, hf, rfl⟩, (isEvenKey_encodeToString f.fst).trans he⟩

theorem foldl_readTag_order (order order' : IterOrder GoString) (s : Option Bytes × Bool) :
    (order.list tags.keys).foldl (readTag tags) s =
      (order'.list tags.keys).foldl (readTag tags) s := by
  have ha : (order.list tags.keys).any isEvenKey = (order'.list tags.keys).any isEvenKey := by
    rw [Bool.eq_iff_iff, any_eq_true, any_eq_true]
    simp only [IterOrder.mem]
  rw [foldl_readTag, foldl_readTag, ha]
  simp only [IterOrder.mem]

theorem parseOneInscription_order (order order' : IterOrder GoString) (tokenizer : Tokenizer) :
    parseOneInscription order tokenizer = parseOneInscription order' tokenizer := by
  unfold parseOneInscription
  split
  case h_1 => rfl
  case h_2 => rw [foldl_readTag_order order order']

theorem parseInscriptions_skip (order : Nat → IterOrder GoString) (malformed : Bool) {t : Token}
    (h : t.opcode ≠ opFalse) (l : List Token) :
    parseInscriptions order malformed (t :: l) = parseInscriptions order malformed l := by
  rw [parseInscriptions.eq_def]
  exact if_neg h

theorem parseInscriptions_envelope (order : Nat → IterOrder GoString) (malformed : Bool)
    {t i p : Token} (ht : t.opcode = opFalse) (h : ¬(i.opcode ≠ opIf ∨ p.hex ≠ protocolID))
    (rest : List Token) : parseInscriptions order malformed (t :: i :: p :: rest) =
      let x := parseOneInscription (order rest.length) ⟨p, rest, malformed, false⟩
      x.fst.toList ++ parseInscriptions order malformed x.snd.rest := by
  rw [parseInscriptions.eq_def]
  exact (if_pos ht).trans (if_neg h)

theorem parseInscriptions_order (order order' : Nat → IterOrder GoString) (malformed : Bool)
    (l : List Token) :
    parseInscriptions order malformed l = parseInscriptions order' malformed l := by
  fun_induction parseInscriptions order malformed l
  case case1 => rw [parseInscriptions]
  case case2 t ht i p rest h =>
    rw [parseInscriptions.eq_def]
    exact ((if_pos ht).trans (if_pos h)).symm
  case case3 t ht i p rest h tokenizer inscription hi =>
    rw [hi, parseInscriptions_envelope order' malformed ht h,
      parseOneInscription_order (order' rest.length) (order rest.length)]
  case case4 t l ht h =>
    rw [parseInscriptions.eq_def]
    simp only [ht, if_true]
  case case5 t l ht hi => rw [hi, parseInscriptions_skip order' malformed ht]

end Content

section Inscriptions

variable {malformed : Bool} {p : Token} {ts rest : List Token} {fields : List Field} {body : Bytes}

theorem parseOneInscription_complete (order : IterOrder GoString) (malformed : Bool) (p : Token)
    (rest : List Token) (h : Envelope ts fields body) : ∃ e,
    parseOneInscription order ⟨p, ts ++ rest, malformed, false⟩ =
      (some (content fields body), ⟨e, rest, malformed, false⟩) := by
  obtain ⟨⟨fs, es, rfl, hf, hs⟩, hn⟩ := h
  have hr : Fresh ∅ fields := ⟨hn, by simp⟩
  obtain ⟨e, he, hp⟩ := parseTags_complete malformed p rest hf hr hs
  refine ⟨e, ?_⟩
  simp only [parseOneInscription, hp]
  rw [if_neg (by simp [he]), foldl_readTag_setAll order hn]
  rfl

theorem parseOneInscription_sound {order : IterOrder GoString} {c : InscriptionContent}
    (hp : p.opcode ≠ opEndIf)
    (h : (parseOneInscription order ⟨p, rest, malformed, false⟩).fst = some c) :
    ∃ ts rest' fields body, rest = ts ++ rest' ∧ Envelope ts fields body ∧
      c = content fields body := by
  unfold parseOneInscription at h
  split at h
  case h_1 => contradiction
  case h_2 tags body tokenizer ht =>
    split at h
    case isTrue => contradiction
    case isFalse he =>
      have he : tokenizer.current.opcode = opEndIf := of_not_not (not_or.mp he).left
      obtain ⟨fs, es, rest', fields, hl, hf, hs, hr, rfl, _⟩ := parseTags_sound ht he hp
      refine ⟨fs ++ es, rest', fields, body, hl, ⟨⟨fs, es, rfl, hf, hs⟩, hr.nodup⟩, ?_⟩
      rw [foldl_readTag_setAll order hr.nodup] at h
      exact (Option.some.inj h).symm

-- A script with some envelopes, and the contents of these.
inductive Inscribed : List Token → List InscriptionContent → Prop
  | nil {ts : List Token} : (∀ t ∈ ts, t.opcode ≠ opFalse) → Inscribed ts []
  | cons {ss ts rest : List Token} {f i p : Token} {fields : List Field} {body : Bytes}
      {cs : List InscriptionContent} :
    (∀ t ∈ ss, t.opcode ≠ opFalse) → f.opcode = opFalse → i.opcode = opIf →
      p.data = some [0x6f, 0x72, 0x64] → Envelope ts fields body → Inscribed rest cs →
        Inscribed (ss ++ f :: i :: p :: ts ++ rest) (content fields body :: cs)

theorem parseInscriptions_append (order : Nat → IterOrder GoString) (malformed : Bool)
    (rest : List Token) (h : ∀ t ∈ ts, t.opcode ≠ opFalse) :
    parseInscriptions order malformed (ts ++ rest) = parseInscriptions order malformed rest := by
  induction ts
  case nil => rfl
  case cons t ts hi =>
    obtain ⟨ht, hs⟩ := forall_mem_cons.mp h
    rw [cons_append, parseInscriptions_skip order malformed ht]
    exact hi hs

theorem parseInscriptions_inscribed (order : Nat → IterOrder GoString) (malformed : Bool)
    {cs : List InscriptionContent} (h : Inscribed ts cs) :
    parseInscriptions order malformed ts = cs := by
  induction h
  case nil ts hs =>
    have h := parseInscriptions_append order malformed [] hs
    rwa [append_nil, parseInscriptions] at h
  case cons ss ts rest f i p fields body cs hs hf hi hp he _ hr =>
    obtain ⟨e, he⟩ :=
      parseOneInscription_complete (order (ts ++ rest).length) malformed p rest he
    have hn : ¬(i.opcode ≠ opIf ∨ p.hex ≠ protocolID) := by
      simp [hi, Token.hex_eq_protocolID.mpr hp]
    rw [append_assoc, parseInscriptions_append _ _ _ hs, cons_append, cons_append,
      cons_append, parseInscriptions_envelope order malformed hf hn]
    simp only [he, hr]
    rfl

-- After the protocol identifier exactly the envelopes are accepted, in whatever order the tags are
-- visited, with the contents of all envelopes.
theorem inscriptions_grammar (malformed : Bool) :
    (∀ (order : IterOrder GoString) (p : Token) (rest : List Token) (c : InscriptionContent),
      p.data = some [0x6f, 0x72, 0x64] →
        ((parseOneInscription order ⟨p, rest, malformed, false⟩).fst = some c ↔
          ∃ ts rest' fields body, rest = ts ++ rest' ∧ Envelope ts fields body ∧
            c = content fields body)) ∧
    ∀ (order : Nat → IterOrder GoString) (ts : List Token) (cs : List InscriptionContent),
      Inscribed ts cs → parseInscriptions order malformed ts = cs := by
  refine ⟨fun order p rest c hp => ⟨?sound, ?complete⟩, fun order ts cs h => ?script⟩
  case sound => exact parseOneInscription_sound (p.ne_opEndIf_of_data hp)
  case complete =>
    rintro ⟨ts, rest', fields, body, rfl, he, rfl⟩
    obtain ⟨e, h⟩ := parseOneInscription_complete order malformed p rest' he
    rw [h]
  case script => exact parseInscriptions_inscribed order malformed h

end Inscriptions

def plain (opcode : UInt8) (h : ¬(opData1 ≤ opcode ∧ opcode ≤ opPushData4)) : Token :=
  ⟨opcode, none, by simpa using h⟩

def push (opcode : UInt8) (data : Bytes) (h : opData1 ≤ opcode ∧ opcode ≤ opPushData4) : Token :=
  ⟨opcode, some data, by simpa using h⟩

def sampleTokens : List Token :=
  [plain opFalse (by decide), plain opIf (by decide), push 3 [0x6f, 0x72, 0x64] (by decide),
    push 1 [1] (by decide), push 2 [0x61, 0x62] (by decide), plain op0 (by decide),
    push 1 [7] (by decide), push 2 [8, 9] (by decide), plain opEndIf (by decide)]

theorem sampleTokens_inscribed :
    Inscribed sampleTokens [content [([1], some [0x61, 0x62])] [7, 8, 9]] := by
  have hb : Pushes [push 1 [7] (by decide), push 2 [8, 9] (by decide)] ([7] ++ ([8, 9] ++ [])) :=
    .push rfl (by decide) (.push rfl (by decide) .nil)
  have hf : Fields [push 1 [1] (by decide), push 2 [0x61, 0x62] (by decide)]
      [([1], some [0x61, 0x62])] := .cons rfl (.inl rfl) .nil
  have he : Envelope (sampleTokens.drop 3) [([1], some [0x61, 0x62])] [7, 8, 9] :=
    ⟨⟨_, _, rfl, hf, .body rfl hb rfl⟩, by decide⟩
  exact @Inscribed.cons [] _ [] _ _ _ _ _ _ (by simp) rfl rfl rfl he (.nil (by simp))

theorem inscriptions_grammar_sample :
    parseInscriptions (fun _ => .along []) false sampleTokens =
      [⟨some [0x61, 0x62], [7, 8, 9], 3, false⟩] :=
  (inscriptions_grammar false).right _ _ _ sampleTokens_inscribed

end Script
