import DomiconExec.Primitives.Bytes

-- Keys as nibbles that may end with the terminator 16, and as compact bytes that begin with a flag.
namespace Trie.Encoding

def hasTerm (s : Bytes) : Bool :=
  s.getLast? = some 16

def pack (a b : UInt8) : UInt8 :=
  a <<< 4 ||| b

-- Writes pairs of nibbles to a slice of bytes.
def decodeNibbles : Bytes → Bytes → Except GoPanic Bytes
  | [], bytes                    => .ok bytes
  | a :: b :: nibbles, _ :: bytes => (pack a b :: ·) <$> decodeNibbles nibbles bytes
  | _, _                         => .error .indexOutOfRange

def hexToCompact (hex : Bytes) : Except GoPanic Bytes :=
  let terminator : UInt8 := if hasTerm hex then 1 else 0
  let hex := if hasTerm hex then hex.dropLast else hex
  let flag := terminator <<< 5
  let buf : Bytes := List.replicate (hex.length / 2) 0
  if hex.length % 2 = 1 then
    ((flag ||| 0x10 ||| hex.headD 0) :: ·) <$> decodeNibbles hex.tail buf
  else
    (flag :: ·) <$> decodeNibbles hex buf

-- One round of the loop that packs nibbles from the index `ni` on, into the buffer that it reads.
def packAt (ni : Nat) (hex : Bytes) (k : Nat) : Except GoPanic Bytes :=
  match hex[ni + 2 * k]?, hex[ni + 2 * k + 1]? with
  | some a, some b => .ok (hex.set (k + 1) (pack a b))
  | _, _           => .error .indexOutOfRange

def hexToCompactInPlace (hex : Bytes) : Except GoPanic Bytes :=
  let term := hasTerm hex
  let hexLen := if term then hex.length - 1 else hex.length
  let flag : UInt8 := if term then 0x20 else 0
  let firstByte := if hexLen % 2 = 1 then flag ||| 0x10 ||| hex.headD 0 else flag
  let ni := hexLen % 2
  do
    let hex ← (List.range (hexLen / 2)).foldlM (packAt ni) hex
    match hex with
    | []       => .error .indexOutOfRange
    | _ :: hex => .ok ((firstByte :: hex).take (hexLen / 2 + 1))

def keybytesToHex (str : Bytes) : Bytes :=
  str.flatMap (fun b => [b / 16, b % 16]) ++ [16]

def compactToHex : Bytes → Bytes
  | []      => []
  | compact =>
    let base := keybytesToHex compact
    let first := base.headD 0
    let base := if first < 2 then base.dropLast else base
    base.drop (2 - (first &&& 1)).toNat

def hexToKeybytes (hex : Bytes) : Except GoPanic Bytes :=
  let hex := if hasTerm hex then hex.dropLast else hex
  if hex.length % 2 ≠ 0 then
    .error (.explicit "can't convert hex key of odd length")
  else
    decodeNibbles hex (List.replicate (hex.length / 2) 0)

-- A list of nibbles, with or without the terminator at its end.
structure Key where
  nibbles : Bytes
  term : Bool
  lt : ∀ n ∈ nibbles, n < 16

def Key.hex (k : Key) : Bytes :=
  k.nibbles ++ if k.term then [16] else []

end Trie.Encoding
