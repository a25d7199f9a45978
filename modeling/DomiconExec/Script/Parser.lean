import DomiconExec.Primitives.GoMap
import DomiconExec.Primitives.Hex

namespace Script

def opFalse : UInt8 :=
  0x00

def op0 : UInt8 :=
  0x00

def opData1 : UInt8 :=
  0x01

def opPushData4 : UInt8 :=
  0x4e

def opIf : UInt8 :=
  0x63

def opEndIf : UInt8 :=
  0x68

def taprootAnnexTag : UInt8 :=
  0x50

-- An opcode with the data that it pushes, which is nil for all opcodes that do not push data, and
-- may be empty for the others.
structure Token where
  opcode : UInt8
  data : Option Bytes
  data_iff : data.isSome ↔ opData1 ≤ opcode ∧ opcode ≤ opPushData4

def Token.hex (t : Token) : GoString :=
  Hex.encodeToString (t.data.getD [])

-- The state of a tokenizer after an opcode. The remaining opcodes are those before the first
-- malformed one. The error is set when it is reached.
structure Tokenizer where
  current : Token
  rest : List Token
  malformed : Bool
  err : Bool

structure InscriptionContent where
  contentType : Option Bytes
  contentBody : Bytes
  contentLength : Nat
  isUnrecognizedEvenField : Bool
deriving DecidableEq

structure TransactionInscription where
  validatorAddresses : List GoString
  inscription : InscriptionContent
  txInIndex : UInt32
  txInOffset : UInt64
deriving DecidableEq

-- What the parser uses of the libraries for Bitcoin: the opcodes of a script up to the first malformed
-- one and whether there is one, the public key for some bytes in its compressed form, and the text of
-- its address.
structure Library where
  tokenize : Bytes → List Token × Bool
  parsePubKey : Bytes → Option Bytes
  newAddressPubKey : Bytes → Except GoError GoString

def protocolID : GoString :=
  .ascii "6f7264"

def bodyTag : GoString :=
  .ascii "00"

def contentTypeTag : GoString :=
  .ascii "01"

abbrev Tags :=
  GoMap GoString (Option Bytes)

-- The inner loop, which reads the body. The result is `none` if the function returns nil.
def parseBody (malformed : Bool) (current : Token) (body : Bytes) :
    List Token → Option Bytes × Tokenizer
  | [] => (some body, ⟨current, [], malformed, malformed⟩)
  | t :: rest =>
    if t.opcode = opEndIf then
      (some body, ⟨t, rest, malformed, false⟩)
    else if t.opcode = op0 then
      parseBody malformed t body rest
    else if opData1 ≤ t.opcode ∧ t.opcode ≤ opPushData4 then
      if (t.data.getD []).length > 520 then
        (none, ⟨t, rest, malformed, false⟩)
      else
        parseBody malformed t (body ++ t.data.getD []) rest
    else
      (none, ⟨t, rest, malformed, false⟩)

-- The outer loop, which reads the tags. It ends after a tag without a value, the last opcode.
def parseTags (malformed : Bool) (current : Token) (tags : Tags) :
    List Token → Option (Tags × Bytes) × Tokenizer
  | [] => (some (tags, []), ⟨current, [], malformed, malformed⟩)
  | t :: rest =>
    if t.opcode = opEndIf then
      (some (tags, []), ⟨t, rest, malformed, false⟩)
    else if Hex.encodeToString [t.opcode] = bodyTag then
      let (body, tokenizer) := parseBody malformed t [] rest
      (body.map (tags, ·), tokenizer)
    else if t.data = none ∨ t.hex ∈ tags then
      (none, ⟨t, rest, malformed, false⟩)
    else
      match rest with
      | [] => (some (tags, []), ⟨t, [], malformed, malformed⟩)
      | v :: rest =>
        if v.opcode ≠ op0 ∧ v.data = none then
          (none, ⟨v, rest, malformed, false⟩)
        else
          parseTags malformed v (tags.set t.hex v.data) rest

-- The loop over the tags, in the given order.
def readTag (tags : Tags) (s : Option Bytes × Bool) (key : GoString) : Option Bytes × Bool :=
  if key = contentTypeTag then
    ((tags.get contentTypeTag).join, s.snd)
  else
    match Hex.hex2Bytes key with
    | b :: _ => (s.fst, s.snd || b % 2 = 0)
    | []     => s

def parseOneInscription (order : IterOrder GoString) (tokenizer : Tokenizer) :
    Option InscriptionContent × Tokenizer :=
  match parseTags tokenizer.malformed tokenizer.current ∅ tokenizer.rest with
  | (none, tokenizer) => (none, tokenizer)
  | (some (tags, contentBody), tokenizer) =>
    if tokenizer.current.opcode ≠ opEndIf ∨ tokenizer.err then
      (none, tokenizer)
    else
      let (contentType, isUnrecognizedEvenField) :=
        (order.list tags.keys).foldl (readTag tags) (none, false)
      let inscription := {
        contentType, contentBody, isUnrecognizedEvenField, contentLength := contentBody.length
      }
      (some inscription, tokenizer)

-- No loop returns to an opcode that was read before.
theorem parseBody_length_le (malformed : Bool) (current : Token) (body : Bytes) (l : List Token) :
    (parseBody malformed current body l).snd.rest.length ≤ l.length := by
  fun_induction parseBody malformed current body l <;> simp_all <;> omega

theorem parseTags_length_le (malformed : Bool) (current : Token) (tags : Tags) (l : List Token) :
    (parseTags malformed current tags l).snd.rest.length ≤ l.length := by
  fun_induction parseTags malformed current tags l
  case case3 current tags t rest _ _ body tokenizer h =>
    have := parseBody_length_le malformed t [] rest
    rw [h] at this
    exact Nat.le_succ_of_le this
  all_goals simp_all <;> omega

theorem parseOneInscription_length_le (order : IterOrder GoString) (tokenizer : Tokenizer) :
    (parseOneInscription order tokenizer).snd.rest.length ≤ tokenizer.rest.length := by
  have h := parseTags_length_le tokenizer.malformed tokenizer.current ∅ tokenizer.rest
  unfold parseOneInscription
  split
  case h_1 he => rwa [he] at h
  case h_2 he =>
    rw [he] at h
    split <;> exact h

-- The order of the loop over the tags is chosen anew for each inscription.
def parseInscriptions (order : Nat → IterOrder GoString) (malformed : Bool) :
    List Token → List InscriptionContent
  | [] => []
  | t :: l =>
    if t.opcode = opFalse then
      match l with
      | i :: p :: rest =>
        if i.opcode ≠ opIf ∨ p.hex ≠ protocolID then
          []
        else
          let tokenizer := ⟨p, rest, malformed, false⟩
          let inscription := parseOneInscription (order rest.length) tokenizer
          inscription.fst.toList ++ parseInscriptions order malformed inscription.snd.rest
      | _ => []
    else
      parseInscriptions order malformed l
termination_by l => l.length
decreasing_by
  case _ =>
    have h := parseOneInscription_length_le (order rest.length) ⟨p, rest, malformed, false⟩
    exact Nat.lt_of_le_of_lt h (by simp only [List.length_cons]; omega)
  case _ => exact Nat.lt_succ_self l.length

section Transaction

variable (lib : Library)

def needParse (witnessScript : Bytes) : Bool :=
  (lib.tokenize witnessScript).fst.zipIdx.any fun (t, position) =>
    position = 8 && t.hex = protocolID

def convertPubKey2Address (pubKey : Option Bytes) : Except GoPanic GoString :=
  match pubKey with
  | none        => .error .nilDereference
  | some pubKey => .ok (lib.newAddressPubKey pubKey |>.toOption.getD [])

def parseValidator (witnessScript : Bytes) : Except GoPanic (List GoString) :=
  (lib.tokenize witnessScript).fst.zipIdx.foldlM (fun addresses (t, position) => do
    if position = 0 ∨ position = 2 then
      let address ← convertPubKey2Address lib (lib.parsePubKey (t.data.getD []))
      return addresses ++ [address]
    else
      return addresses) []

def parseScript (order : Nat → IterOrder GoString) (witnessScript : Bytes) :
    List InscriptionContent :=
  let (tokens, malformed) := lib.tokenize witnessScript
  parseInscriptions order malformed tokens

def inscriptionsOf (order : Nat → IterOrder GoString) (index : Nat) (witnessScript : Bytes) :
    Except GoPanic (List TransactionInscription) :=
  if ¬needParse lib witnessScript then
    .ok []
  else do
    let validatorAddresses ← parseValidator lib witnessScript
    if validatorAddresses.length = 0 then
      return []
    return (parseScript lib order witnessScript).zipIdx.map fun (inscription, txInOffset) => {
      validatorAddresses, inscription
      txInIndex := .ofNat index
      txInOffset := .ofNat txInOffset
    }

-- The body of the loop over the inputs, which looks for the script in the witness.
def parseInput (order : Nat → IterOrder GoString) (index : Nat) (witness : List Bytes) :
    Except GoPanic (List TransactionInscription) :=
  match witness.reverse with
  | [] | [_] => .ok []
  | [] :: _ :: _ => .error .indexOutOfRange
  | (b :: last) :: penultimate :: items =>
    if items.length = 0 ∧ b = taprootAnnexTag then
      .ok []
    else if b = taprootAnnexTag then
      inscriptionsOf lib order index (b :: last)
    else
      inscriptionsOf lib order index penultimate

abbrev MsgTx :=
  List (List Bytes)

def MsgTx.hasWitness (tx : MsgTx) : Bool :=
  tx.any (·.length ≠ 0)

def parseInscriptionsFromTransaction (order : Nat → Nat → IterOrder GoString) (tx : MsgTx) :
    Except GoPanic (List TransactionInscription) :=
  if ¬tx.hasWitness then
    .ok []
  else
    tx.zipIdx.foldlM (fun inscriptions (witness, index) => do
      let l ← parseInput lib (order index) index witness
      return inscriptions ++ l) []

end Transaction
end Script
