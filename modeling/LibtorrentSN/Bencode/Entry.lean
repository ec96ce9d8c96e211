import LibtorrentSN.Bencode.Read

/-!
# Bencoding: entries

`entry` is the tree that is built in memory, `bencode` writes it to a buffer, and an entry is made
from a node of a decoded buffer with `operator=`. A dictionary is a `std::map`: its keys are in
increasing order, bytes being compared as unsigned numbers.
-/

namespace LibtorrentSN

namespace Bencode

/-- `entry` -/
inductive Entry
  | int (val : ℤ)
  | string (val : List UInt8)
  | list (val : List Entry)
  | dict (val : List (List UInt8 × Entry))
  | preformatted (val : List UInt8)
  | undefined

/-! ## Writing -/

/-- The byte of a digit. -/
def digitByte (k : ℤ) : UInt8 := UInt8.ofNat (48 + k).toNat

/-- The slow path of `integer_to_str`: the digits of a number that is not positive, from the last
one on. `val % 10` and `val / 10` round towards zero. -/
def slowDigits : ℕ → ℤ → List UInt8 → List UInt8
  | 0, _, str => str
  | fuel + 1, val, str =>
    let str := digitByte (-val.tmod 10) :: str
    let val := val.tdiv 10
    if val ≠ 0 then slowDigits fuel val str else str

/-- `integer_to_str`. The buffer has 21 bytes. -/
def integerToStr (val : ℤ) : List UInt8 :=
  if 0 ≤ val ∧ val < 10 then [digitByte val]
  else if 0 ≤ val ∧ val < 100 then [digitByte (val / 10 % 10), digitByte (val % 10)]
  else if 0 ≤ val ∧ val < 1000 then
    [digitByte (val / 100 % 10), digitByte (val / 10 % 10), digitByte (val % 10)]
  else if 0 ≤ val ∧ val < 10000 then
    [digitByte (val / 1000 % 10), digitByte (val / 100 % 10), digitByte (val / 10 % 10),
      digitByte (val % 10)]
  else if 0 ≤ val ∧ val < 100000 then
    [digitByte (val / 10000 % 10), digitByte (val / 1000 % 10), digitByte (val / 100 % 10),
      digitByte (val / 10 % 10), digitByte (val % 10)]
  else if 0 < val then slowDigits 21 (-val) []
  else ascii '-' :: slowDigits 21 val []

/-- What has been written, and the number of bytes. -/
abbrev Written := List UInt8 × ℕ

def writeInteger (out : List UInt8) (data : ℤ) : Written :=
  let str := integerToStr data
  (out ++ str, str.length)

def writeChar (out : List UInt8) (c : Char) : List UInt8 := out ++ [ascii c]

def writeString (val out : List UInt8) : Written := (out ++ val, val.length)

/-- A string with its length. -/
def bencodeString (out val : List UInt8) : Written :=
  let (out, n₁) := writeInteger out val.length
  let out := writeChar out ':'
  let (out, n₂) := writeString val out
  (out, n₁ + n₂ + 1)

mutual

def bencodeRecursive (out : List UInt8) : Entry → Written
  | .int val =>
    let out := writeChar out 'i'
    let (out, n) := writeInteger out val
    (writeChar out 'e', n + 2)
  | .string val => bencodeString out val
  | .list val =>
    let (out, n) := bencodeList (writeChar out 'l') val
    (writeChar out 'e', n + 2)
  | .dict val =>
    let (out, n) := bencodeDict (writeChar out 'd') val
    (writeChar out 'e', n + 2)
  | .preformatted val => (out ++ val, val.length)
  | .undefined => (writeChar (writeChar out '0') ':', 2)

def bencodeList (out : List UInt8) : List Entry → Written
  | [] => (out, 0)
  | e :: es =>
    let (out, n₁) := bencodeRecursive out e
    let (out, n₂) := bencodeList out es
    (out, n₁ + n₂)

def bencodeDict (out : List UInt8) : List (List UInt8 × Entry) → Written
  | [] => (out, 0)
  | (key, e) :: es =>
    let (out, n₁) := bencodeString out key
    let (out, n₂) := bencodeRecursive out e
    let (out, n₃) := bencodeDict out es
    (out, n₁ + n₂ + n₃)

end

def bencode (e : Entry) : Written := bencodeRecursive [] e

/-! ## From a node to an entry -/

/-- `d[key] = val` -/
def assign (key : List UInt8) (val : Entry) :
    List (List UInt8 × Entry) → List (List UInt8 × Entry)
  | [] => [(key, val)]
  | (k, v) :: d =>
    if key < k then (key, val) :: (k, v) :: d
    else if key = k then (key, val) :: d
    else (k, v) :: assign key val d

/-- The loop over the items of a dictionary, from the item `i` on. -/
def dictLoop (convert : BdecodeNode → Option Entry) :
    ℕ → ℕ → BdecodeNode → List (List UInt8 × Entry) → Option (List (List UInt8 × Entry))
  | 0, _, _, _ => none
  | fuel + 1, i, e, d =>
    match e.dictSize with
    | (none, _) => none
    | (some size, e) =>
      if i < size then
        let ((key, value), e) := e.dictAt i
        match convert value with
        | none => none
        | some val => dictLoop convert fuel (i + 1) e (assign key val d)
      else some d

/-- The loop over the items of a list. -/
def listLoop (convert : BdecodeNode → Option Entry) :
    ℕ → ℕ → BdecodeNode → List Entry → Option (List Entry)
  | 0, _, _, _ => none
  | fuel + 1, i, e, l =>
    match e.listSize with
    | (none, _) => none
    | (some size, e) =>
      if i < size then
        let (item, e) := e.listAt i
        match convert item with
        | none => none
        | some val => listLoop convert fuel (i + 1) e (l ++ [val])
      else some l

/-- The recursion of `operator=`, down to a depth. -/
def ofNodeAt : ℕ → BdecodeNode → Option Entry
  | 0, _ => none
  | depth + 1, e =>
    match e.type with
    | .string => some (.string e.stringValue)
    | .integer => some (.int e.intValue)
    | .dict => (dictLoop (ofNodeAt depth) (e.tokens.length + 1) 0 e []).map .dict
    | .list => (listLoop (ofNodeAt depth) (e.tokens.length + 1) 0 e []).map .list
    | _ => some .undefined

/-- `entry::operator=(bdecode_node const&)`. Values are nested less deep than there are tokens;
`none` is for a loop that does not end. -/
def Entry.ofNode (e : BdecodeNode) : Option Entry := ofNodeAt (e.tokens.length + 1) e

/-! ## What can be written and read back -/

namespace Entry

mutual

/-- Integers are signed 64 bit numbers other than the lowest one, there are no preformatted or
undefined entries, and (as in every `std::map`) the keys of a dictionary are in order. -/
def Plain : Entry → Prop
  | .int val => -2 ^ 63 < val ∧ val < 2 ^ 63
  | .string _ => True
  | .list val => PlainList val
  | .dict val => (val.map Prod.fst).Pairwise (· < ·) ∧ PlainDict val
  | .preformatted _ => False
  | .undefined => False

def PlainList : List Entry → Prop
  | [] => True
  | e :: es => e.Plain ∧ PlainList es

def PlainDict : List (List UInt8 × Entry) → Prop
  | [] => True
  | (_, e) :: es => e.Plain ∧ PlainDict es

end

mutual

/-- How deep lists and dictionaries are nested. -/
def depth : Entry → ℕ
  | .list val => depthList val + 1
  | .dict val => depthDict val + 1
  | _ => 0

def depthList : List Entry → ℕ
  | [] => 0
  | e :: es => max e.depth (depthList es)

def depthDict : List (List UInt8 × Entry) → ℕ
  | [] => 0
  | (_, e) :: es => max e.depth (depthDict es)

end

mutual

/-- The number of tokens: two for a list or dictionary, and one for every key. -/
def tokenCount : Entry → ℕ
  | .list val => tokenCountList val + 2
  | .dict val => tokenCountDict val + 2
  | _ => 1

def tokenCountList : List Entry → ℕ
  | [] => 0
  | e :: es => e.tokenCount + tokenCountList es

def tokenCountDict : List (List UInt8 × Entry) → ℕ
  | [] => 0
  | (_, e) :: es => 1 + e.tokenCount + tokenCountDict es

end

end Entry

end Bencode

end LibtorrentSN
