import Mathlib

/-!
# Bencoding: `bdecode`

The decoder is a loop with an explicit stack. It goes over the buffer once and writes a flat
array of tokens: a token for every value, and one for the end of every list and dictionary. The
token of a list or dictionary links to the token past its end; the link is filled in when the end
is met. The length of a string is not stored but follows from the offset of the next token.

A buffer is a list of bytes, and a pointer into it is an offset. The stack has its innermost frame
first.
-/

namespace LibtorrentSN

namespace Bencode

/-- The byte of an ASCII character. -/
def ascii (c : Char) : UInt8 := c.toUInt8

/-- `bdecode_errors::error_code_enum` -/
inductive ErrorCode
  | noError
  | expectedDigit
  | expectedColon
  | unexpectedEof
  | expectedValue
  | depthExceeded
  | limitExceeded
  | overflow
  deriving DecidableEq, Repr

/-! ## Tokens -/

/-- `bdecode_token::type_t` -/
inductive TokenType
  | none
  | dict
  | list
  | string
  | integer
  | longString
  | endToken
  deriving DecidableEq, Repr

def maxOffset : ℕ := 2 ^ 29 - 1

def maxNextItem : ℕ := 2 ^ 29 - 1

def shortStringMaxHeader : ℕ := 2 ^ 3 - 1 + 2

def longStringMaxHeader : ℕ := 8 + 2 ^ 3 - 1 + 2

/-- `bdecode_token`. The offset and the link have 29 bits, the header 3. -/
structure BdecodeToken where
  offset : ℕ
  type : TokenType
  /-- the distance to the token of the next item -/
  nextItem : ℕ
  /-- the size of the length prefix of a string, less what is implied -/
  header : ℕ
  deriving DecidableEq, Repr

namespace BdecodeToken

/-- A token whose link is not known yet. -/
def unlinked (off : ℕ) (t : TokenType) : BdecodeToken := ⟨off % 2 ^ 29, t, 0, 0⟩

def linked (off next : ℕ) (t : TokenType) (headerSize : ℕ) : BdecodeToken :=
  let type := if t = .string ∧ shortStringMaxHeader < headerSize then .longString else t
  let header := match type with
    | .string => headerSize - 2
    | .longString => headerSize - 8 - 2
    | _ => 0
  ⟨off % 2 ^ 29, type, next % 2 ^ 29, header % 2 ^ 3⟩

/-- Where a string starts, from the offset of its token. -/
def startOffset (t : BdecodeToken) : ℕ :=
  if t.type = .string then t.header + 2 else t.header + 8 + 2

end BdecodeToken

/-! ## Integers -/

def numeric (c : UInt8) : Prop := ascii '0' ≤ c ∧ c ≤ ascii '9'

instance (c : UInt8) : Decidable (numeric c) := inferInstanceAs (Decidable (_ ∧ _))

/-- The value of a digit. -/
def digit (c : UInt8) : ℕ := c.toNat - (ascii '0').toNat

/-- The loop of `check_integer`, which ends at an `e`: the number of digits. -/
def checkDigits : List UInt8 → ℕ → ℕ × ErrorCode
  | [], digits => (digits, .unexpectedEof)
  | c :: cs, digits =>
    if ¬ numeric c then (digits, .expectedDigit)
    else if cs = [] then (digits + 1, .unexpectedEof)
    else if cs.head? = some (ascii 'e') then (digits + 1, .noError)
    else checkDigits cs (digits + 1)

/-- `check_integer`: how far it got in the buffer, which starts after the `i`. -/
def checkInteger (buf : List UInt8) : ℕ × ErrorCode :=
  if buf = [] then (0, .unexpectedEof)
  else
    let sign := if buf.head? = some (ascii '-') then 1 else 0
    let buf := buf.drop sign
    if buf = [] then (sign, .unexpectedEof)
    else
      let r := checkDigits buf 0
      (sign + r.1, if 20 < r.1 then .overflow else r.2)

/-- `std::numeric_limits<std::int64_t>::max()` -/
def int64Max : ℤ := 2 ^ 63 - 1

/-- What `parse_int` finds. -/
structure ParsedInt where
  /-- the number of bytes read -/
  read : ℕ
  val : ℤ
  error : ErrorCode
  deriving DecidableEq, Repr

/-- `parse_int`: the digits up to the delimiter, or up to the end of the buffer, on top of `val`. -/
def parseInt (delimiter : UInt8) : List UInt8 → ℕ → ℤ → ParsedInt
  | [], read, val => ⟨read, val, .noError⟩
  | c :: cs, read, val =>
    if c = delimiter then ⟨read, val, .noError⟩
    else if ¬ numeric c then ⟨read, val, .expectedDigit⟩
    else if int64Max / 10 < val then ⟨read, val, .overflow⟩
    else if int64Max - digit c < val * 10 then ⟨read, val * 10, .overflow⟩
    else parseInt delimiter cs (read + 1) (val * 10 + digit c)

/-! ## The loop -/

/-- `stack_frame`: a list or dictionary whose end is yet to come. -/
structure StackFrame where
  /-- its token -/
  token : ℕ
  /-- in a dictionary, the next item is a value and not a key -/
  state : Bool
  deriving DecidableEq, Repr

def StackFrame.make (t : ℕ) : StackFrame := ⟨t % 2 ^ 31, false⟩

/-- The local variables of `bdecode`. -/
@[ext]
structure Decoder where
  start : ℕ
  stack : List StackFrame
  tokens : List BdecodeToken
  tokenLimit : ℤ
  deriving DecidableEq, Repr

/-- An error ends the loop. -/
structure Failure where
  error : ErrorCode
  errorPos : ℕ
  decoder : Decoder
  deriving DecidableEq, Repr

namespace Decoder

variable (buf : List UInt8) (d : Decoder)

def fail (e : ErrorCode) : Except Failure Decoder := .error ⟨e, d.start, d⟩

/-- The frame is one of a dictionary. -/
def isDict (f : StackFrame) : Prop := (d.tokens[f.token]?).map BdecodeToken.type = some .dict

instance (f : StackFrame) : Decidable (d.isDict f) := inferInstanceAs (Decidable (_ = _))

/-- The next item is the key of a dictionary. -/
def inKey : Prop := ∃ f ∈ d.stack.head?, d.isDict f ∧ f.state = false

instance : Decidable d.inKey := inferInstanceAs (Decidable (∃ f ∈ d.stack.head?, _))

/-- A list or dictionary begins. -/
def openSequence (t : TokenType) : Decoder :=
  { d with
    stack := .make d.tokens.length :: d.stack
    tokens := d.tokens ++ [.unlinked d.start t]
    start := d.start + 1 }

def readInteger : Except Failure Decoder :=
  let r := checkInteger (buf.drop (d.start + 1))
  if r.2 ≠ .noError then .error ⟨r.2, d.start + 1 + r.1, d⟩
  else .ok { d with
    tokens := d.tokens ++ [.linked d.start 1 .integer 1]
    start := d.start + 1 + r.1 + 1 }

/-- A list or dictionary ends: its token gets a link to the token past the end. -/
def closeSequence : Except Failure Decoder :=
  match d.stack with
  | [] => d.fail .unexpectedEof
  | top :: stack =>
    if d.isDict top ∧ top.state = true then d.fail .expectedValue
    else
      let tokens := d.tokens ++ [.linked d.start 1 .endToken 0]
      let next := tokens.length - top.token
      if maxNextItem < next then fail { d with tokens := tokens } .limitExceeded
      else .ok { d with
        tokens := tokens.modify top.token ({ · with nextItem := next % 2 ^ 29 })
        stack := stack
        start := d.start + 1 }

def readString : Except Failure Decoder :=
  let t := buf.getD d.start 0
  let strStart := d.start
  if ¬ numeric t then d.fail .expectedValue
  else
    let d := { d with start := d.start + 1 }
    if buf.length ≤ d.start then d.fail .unexpectedEof
    else
      let r := parseInt (ascii ':') (buf.drop d.start) 0 (digit t)
      let d := { d with start := d.start + r.read }
      if r.error ≠ .noError then d.fail r.error
      else if d.start = buf.length then d.fail .expectedColon
      else if (buf.length - d.start - 1 : ℤ) < r.val then d.fail .unexpectedEof
      else if r.val < 0 then d.fail .overflow
      else
        let d := { d with start := d.start + 1 }
        let header := d.start - strStart
        if longStringMaxHeader < header then d.fail .limitExceeded
        else .ok { d with
          tokens := d.tokens ++ [.linked strStart 1 .string header]
          start := d.start + r.val.toNat }

/-- After an item of the sequence at `depth`: if it is a dictionary, the next item is the
opposite. Where the item was the end of the sequence, its frame is gone. -/
def flip (depth : ℕ) : Decoder :=
  if d.stack.length < depth then d
  else { d with
    stack := d.stack.modify (d.stack.length - depth) fun f =>
      if d.isDict f then { f with state := !f.state } else f }

/-- The token that starts with the byte `t`. -/
def readToken (t : UInt8) : Except Failure Decoder :=
  if t = ascii 'd' then .ok (d.openSequence .dict)
  else if t = ascii 'l' then .ok (d.openSequence .list)
  else if t = ascii 'i' then d.readInteger buf
  else if t = ascii 'e' then d.closeSequence
  else d.readString buf

/-- One turn of the loop. -/
def step (depthLimit : ℤ) : Except Failure Decoder :=
  if buf.length ≤ d.start then d.fail .unexpectedEof
  else if depthLimit ≤ d.stack.length then d.fail .depthExceeded
  else
    let d := { d with tokenLimit := d.tokenLimit - 1 }
    if d.tokenLimit < 0 then d.fail .limitExceeded
    else
      let t := buf.getD d.start 0
      if d.inKey ∧ ¬ numeric t ∧ t ≠ ascii 'e' then d.fail .expectedDigit
      else (d.readToken buf t).map (flip · d.stack.length)

/-- Turns until the outermost value is complete. Every turn reads at least one byte. -/
def loop (depthLimit : ℤ) : ℕ → Decoder → Except Failure Decoder
  | 0, d => d.fail .unexpectedEof
  | fuel + 1, d =>
    match d.step buf depthLimit with
    | .error f => .error f
    | .ok d => if d.stack = [] then .ok d else loop depthLimit fuel d

/-- After an error: end a sequence, so that the tokens so far can be read. A key without a value
gets an empty dictionary. -/
def unwindFrame (d : Decoder) (f : StackFrame) : Decoder :=
  let tokens := if d.isDict f ∧ f.state = true then
      d.tokens ++ [.linked d.start 2 .dict 0, .unlinked d.start .endToken]
    else d.tokens
  let next := tokens.length - f.token
  { d with
    tokens := tokens.modify f.token ({ · with nextItem := next % 2 ^ 29 }) ++
      [.linked d.start 1 .endToken 0] }

def unwind : Decoder := { d.stack.foldl unwindFrame d with stack := [] }

end Decoder

/-! ## Nodes -/

/-- `bdecode_node`: a token of an array, and what the last look-ups found (`m_last_index` and so
on; the source has -1 for `none`). -/
structure BdecodeNode where
  tokens : List BdecodeToken := []
  buffer : List UInt8 := []
  bufferSize : ℕ := 0
  tokenIdx : Option ℕ := none
  lastIndex : Option ℕ := none
  lastToken : ℕ := 0
  size : Option ℕ := none
  deriving DecidableEq, Repr

/-- What `bdecode` returns, and what it stores in `ec` and `error_pos`. -/
structure Decoded where
  node : BdecodeNode
  error : ErrorCode
  errorPos : Option ℕ
  deriving DecidableEq, Repr

/-- The tokens get an end of their own, and the root is the first one. -/
def Decoder.finish (d : Decoder) (buf : List UInt8) : BdecodeNode :=
  { tokens := d.tokens ++ [.linked d.start 0 .endToken 0]
    buffer := buf
    bufferSize := d.start
    tokenIdx := some 0 }

def bdecode (buf : List UInt8) (depthLimit tokenLimit : ℤ) : Decoded :=
  if maxOffset < buf.length then ⟨{}, .limitExceeded, some 0⟩
  else
    match Decoder.loop buf depthLimit (buf.length + 1) ⟨0, [], [], tokenLimit⟩ with
    | .ok d => ⟨d.finish buf, .noError, none⟩
    | .error f => ⟨f.decoder.unwind.finish buf, f.error, some f.errorPos⟩

end Bencode

end LibtorrentSN
