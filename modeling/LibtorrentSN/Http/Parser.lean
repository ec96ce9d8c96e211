import Mathlib.Algebra.Group.Int.Defs
import Mathlib.Algebra.Group.Nat.Defs
import Mathlib.Data.Int.Notation
import Mathlib.Data.List.Basic
import Mathlib.Order.Basic

/-!
# The HTTP parser

`http_parser` is given the whole receive buffer each time more of it has arrived, and takes up where it stopped: a
status line, header lines up to one without a colon, then the body, whose chunks it finds if it is chunked.
Positions are offsets into the buffer. The number of new bytes of a body is cut to `int`. The header, as the source
asserts, and each line and chunk header are shorter than 2 GiB, so the other conversions to `int` cut nothing.
-/

namespace LibtorrentSN

namespace Http

/-- The characters of a literal. -/
def chars (s : List Char) : List UInt8 := s.map Char.toUInt8

def lf : UInt8 := 10

def cr : UInt8 := 13

def maxInt64 : ℤ := 2 ^ 63 - 1

/-- Conversion to `int`. -/
def toInt (n : ℤ) : ℤ := n.bmod (2 ^ 32)

theorem toInt_of_lt {n : ℤ} (hlow : 0 ≤ n) (hhigh : n < 2 ^ 31) : toInt n = n := by
  rw [toInt]
  exact Int.bmod_eq_of_le_mul_two (by omega) (by omega)

/-! ### Strings -/

def toLower (c : UInt8) : UInt8 := if 65 ≤ c ∧ c ≤ 90 then c + 32 else c

def hexToInt (c : UInt8) : ℤ :=
  if 48 ≤ c ∧ c ≤ 57 then c.toNat - 48
  else if 65 ≤ c ∧ c ≤ 70 then c.toNat - 65 + 10
  else if 97 ≤ c ∧ c ≤ 102 then c.toNat - 97 + 10
  else -1

/-- Whether the second string begins with the first; it ends in a zero. -/
def stringBeginsNoCase : List UInt8 → List UInt8 → Bool
  | [], _ => true
  | _ :: _, [] => false
  | c :: s, d :: t => if toLower c = toLower d then stringBeginsNoCase s t else false

/-- The text up to the delimiter, and what follows the delimiters. -/
def readUntil (s : List UInt8) (delim : UInt8) : List UInt8 × List UInt8 :=
  (s.takeWhile (· ≠ delim), (s.dropWhile (· ≠ delim)).dropWhile (· = delim))

def isSpace (c : UInt8) : Bool := c = 32 ∨ 9 ≤ c ∧ c ≤ 13

def isDigit (c : UInt8) : Bool := 48 ≤ c ∧ c ≤ 57

/-- The number a string begins with, cut to 64 bits, and the offset of the first character after it. -/
def strtoll (s : List UInt8) : ℤ × ℕ :=
  let spaces := (s.takeWhile isSpace).length
  let t := s.drop spaces
  let sign := if t.head? = some 45 ∨ t.head? = some 43 then 1 else 0
  let digits := (t.drop sign).takeWhile isDigit
  let n : ℤ := digits.foldl (fun n c => n * 10 + (c.toNat - 48)) 0
  let m := if t.head? = some 45 then -n else n
  if digits = [] then (0, 0)
  else (if maxInt64 < m then maxInt64 else if m < -maxInt64 - 1 then -maxInt64 - 1 else m,
    spaces + sign + digits.length)

/-- `atoi` cuts the result of `strtol` to an `int`. -/
def atoi (s : List UInt8) : ℤ := (strtoll s).1.bmod (2 ^ 32)

/-! ### Lines -/

/-- The first line feed at or after a position. -/
def nextLine (buf : List UInt8) (pos : ℕ) : Option ℕ := ((buf.drop pos).findIdx? (· = lf)).map (pos + ·)

/-- The line between two positions. If the line feed is preceded by a carriage return, that is not part of it. -/
def lineAt (buf : List UInt8) (pos newline : ℕ) : List UInt8 :=
  let line := (buf.drop pos).take (newline - pos)
  if line.getLast? = some cr then line.dropLast else line

/-- The lower-case name and the value of a header line, if it has a colon. -/
def splitHeader (line : List UInt8) : Option (List UInt8 × List UInt8) :=
  (line.findIdx? (· = 58)).map fun separator =>
    ((line.take separator).map toLower, (line.drop (separator + 1)).dropWhile fun c => c = 32 ∨ c = 9)

/-- A multimap keeps its entries in the order of their keys, and those of one key in the order they came. -/
def insertHeader (header : List (List UInt8 × List UInt8)) (e : List UInt8 × List UInt8) :
    List (List UInt8 × List UInt8) :=
  header.takeWhile (fun d => ¬e.1 < d.1) ++ e :: header.dropWhile fun d => ¬e.1 < d.1

/-- A map keeps the first value of a key. -/
def insertTail (headers : List (List UInt8 × List UInt8)) (e : List UInt8 × List UInt8) :
    List (List UInt8 × List UInt8) :=
  if e.1 ∈ headers.map Prod.fst then headers else insertHeader headers e

/-! ### The parser -/

inductive ParserState where
  | readStatus
  | readHeader
  | readBody
  | errorState
  deriving DecidableEq, Repr

/-- The members of a parser, without its view of the buffer. -/
structure ParserFields where
  recvPos : ℤ := 0
  method : List UInt8 := []
  path : List UInt8 := []
  protocol : List UInt8 := []
  serverMessage : List UInt8 := []
  contentLength : ℤ := -1
  rangeStart : ℤ := -1
  rangeEnd : ℤ := -1
  header : List (List UInt8 × List UInt8) := []
  chunkedRanges : List (ℤ × ℤ) := []
  curChunkEnd : ℤ := -1
  statusCode : ℤ := -1
  chunkHeaderSize : ℤ := 0
  partialChunkHeader : ℤ := 0
  dontParseChunks : Bool := false
  bodyStartPos : ℤ := 0
  state : ParserState := .readStatus
  connectionClose : Bool := false
  chunkedEncoding : Bool := false
  finished : Bool := false
  deriving DecidableEq, Repr

structure HttpParser extends ParserFields where
  recvBuffer : List UInt8 := []
  deriving DecidableEq, Repr

/-- `http_parser(int flags)` -/
def HttpParser.new (dontParseChunks : Bool) : HttpParser := { dontParseChunks }

/-- The connection flag, the protocol, the path and the message of the last response stay. -/
def HttpParser.reset (p : HttpParser) : HttpParser :=
  { p with
    method := []
    recvPos := 0
    bodyStartPos := 0
    statusCode := -1
    contentLength := -1
    rangeStart := -1
    rangeEnd := -1
    finished := false
    state := .readStatus
    recvBuffer := []
    header := []
    chunkedEncoding := false
    chunkedRanges := []
    curChunkEnd := -1
    chunkHeaderSize := 0
    partialChunkHeader := 0 }

namespace ParserFields

/-- The first line of a response, or of a request. -/
def statusLine (p : ParserFields) (line : List UInt8) : ParserFields :=
  let protocol := readUntil line 32
  let second := readUntil protocol.2 32
  if protocol.1.take 5 = chars ['H', 'T', 'T', 'P', '/'] then
    { p with
      protocol := protocol.1
      statusCode := atoi second.1
      serverMessage := (readUntil second.2 cr).1
      connectionClose := p.connectionClose || decide (protocol.1 = chars ['H', 'T', 'T', 'P', '/', '1', '.', '0'])
      state := .readHeader }
  else
    { p with
      method := protocol.1.map toLower
      contentLength := 0
      path := second.1
      protocol := (readUntil second.2 32).1
      statusCode := 0
      state := .readHeader }

/-- The number is negative or too large. -/
def badNumber (n : ℤ) : Prop := n < 0 ∨ n = maxInt64

instance (n : ℤ) : Decidable (badNumber n) := inferInstanceAs (Decidable (_ ∨ _))

/-- `content-range`: the word `bytes ` may be missing, and the range is inclusive. -/
def contentRange (p : ParserFields) (value : List UInt8) : ParserFields :=
  let ptr := if stringBeginsNoCase (chars ['b', 'y', 't', 'e', 's', ' ']) value then value.drop 6 else value
  let start := strtoll ptr
  let p := { p with rangeStart := start.1 }
  if badNumber start.1 then { p with state := .errorState }
  else if start.2 = 0 ∨ ptr[start.2]? ≠ some 45 then { p with state := .errorState }
  else
    let stop := strtoll (ptr.drop (start.2 + 1))
    let p := { p with rangeEnd := stop.1 }
    if badNumber stop.1 then { p with state := .errorState }
    else if stop.2 = 0 ∨ stop.1 < start.1 then { p with state := .errorState }
    else { p with contentLength := stop.1 - start.1 + 1 }

/-- What the parser does with a header of its own. -/
def headerField (p : ParserFields) (name value : List UInt8) : ParserFields :=
  if name = chars ['c', 'o', 'n', 't', 'e', 'n', 't', '-', 'l', 'e', 'n', 'g', 't', 'h'] then
    let p := { p with contentLength := (strtoll value).1 }
    if badNumber p.contentLength then { p with state := .errorState } else p
  else if name = chars ['c', 'o', 'n', 'n', 'e', 'c', 't', 'i', 'o', 'n'] then
    { p with connectionClose := stringBeginsNoCase (chars ['c', 'l', 'o', 's', 'e']) value }
  else if name = chars ['c', 'o', 'n', 't', 'e', 'n', 't', '-', 'r', 'a', 'n', 'g', 'e'] then
    p.contentRange value
  else if name = chars ['t', 'r', 'a', 'n', 's', 'f', 'e', 'r', '-', 'e', 'n', 'c', 'o', 'd', 'i', 'n', 'g'] then
    { p with chunkedEncoding := stringBeginsNoCase (chars ['c', 'h', 'u', 'n', 'k', 'e', 'd']) value }
  else p

/-- The headers are finished, and the body starts. -/
def enterBody (p : ParserFields) : ParserFields := { p with state := .readBody, bodyStartPos := p.recvPos }

/-- The parser looks for the chunks of the body. -/
def inChunks (p : ParserFields) : Bool := p.chunkedEncoding && !p.dontParseChunks

end ParserFields

/-! ### Chunk headers -/

/-- A chunk header that is there in full; the size is negative for one that is wrong. -/
structure ChunkHeader where
  chunkSize : ℤ
  headerSize : ℕ
  tailHeaders : List (List UInt8 × List UInt8)

/-- The hexadecimal number of the line. -/
def chunkSize (size : ℤ) : List UInt8 → ℤ
  | [] => size
  | c :: rest =>
    if c = cr ∨ c = lf then chunkSize size rest
    else if c = 59 then size
    else if hexToInt c < 0 then -1
    else if maxInt64 / 16 ≤ size then -1
    else chunkSize (size * 16 + hexToInt c) rest

/-- The headers after the last chunk, up to a line without a colon. -/
def tailHeaders (buf : List UInt8) : ℕ → ℕ → List (List UInt8 × List UInt8) →
    Option (ℕ × List (List UInt8 × List UInt8))
  | 0, _, _ => none
  | fuel + 1, pos, headers =>
    (nextLine buf pos).bind fun newline =>
      match splitHeader (lineAt buf pos newline) with
      | none => some (newline + 1, headers)
      | some e => tailHeaders buf fuel (newline + 1) (insertTail headers e)

/-- One new-line before the header is ignored: it ends the chunk before. -/
def skipNewline (buf : List UInt8) : ℕ :=
  let pos := if buf[0]? = some cr then 1 else 0
  if buf[pos]? = some lf then pos + 1 else pos

/-- Returns nothing if more data is needed. -/
def parseChunkHeader (buf : List UInt8) : Option ChunkHeader :=
  let pos := skipNewline buf
  (nextLine buf pos).bind fun newline =>
    let size := chunkSize 0 ((buf.drop pos).take (newline + 1 - pos))
    if size ≠ 0 then some ⟨size, newline + 1, []⟩
    else (tailHeaders buf (buf.length + 1) (newline + 1) []).map fun t => ⟨size, t.1, t.2⟩

/-! ### `incoming` -/

/-- The variables of a call. -/
structure Call where
  parser : ParserFields
  pos : ℕ
  startPos : ℤ
  payload : ℤ := 0
  protocol : ℤ := 0
  error : Bool := false

/-- How a part of the call ends: it returns, it goes back to the label, or it goes on. -/
inductive Flow where
  | ret (c : Call)
  | restart (c : Call)
  | next (c : Call)

namespace Call

def fail (c : Call) : Call := { c with parser := { c.parser with state := .errorState }, error := true }

/-- The parser is past a line. -/
def pastLine (c : Call) (newline : ℕ) : Call :=
  { c with parser := { c.parser with recvPos := c.parser.recvPos + (newline + 1 - c.pos) }, pos := newline + 1 }

end Call

def readStatus (buf : List UInt8) (c : Call) : Flow :=
  if c.parser.state = .readStatus then
    match nextLine buf c.pos with
    | none => .ret { c with protocol := c.protocol + (buf.length - c.startPos) }
    | some newline =>
      if newline = c.pos then .ret c.fail
      else
        let line := lineAt buf c.pos newline
        let c := c.pastLine newline
        .next { c with
          parser := c.parser.statusLine line
          protocol := c.protocol + (c.pos - c.startPos)
          startPos := c.pos }
  else .next c

/-- The loop over the header lines. -/
def headerLoop (buf : List UInt8) : ℕ → Call → Flow
  | 0, c => .ret c
  | fuel + 1, c =>
    match nextLine buf c.pos with
    | none => .next { c with protocol := c.protocol + (buf.length - c.startPos) }
    | some newline =>
      let line := lineAt buf c.pos newline
      let c := c.pastLine newline
      match splitHeader line with
      | none =>
        if c.parser.statusCode = 100 then .restart { c with parser := { c.parser with state := .readStatus } }
        else .next { c with
          parser := c.parser.enterBody
          protocol := c.protocol + (c.pos - c.startPos) }
      | some (name, value) =>
        let p := { c.parser with header := insertHeader c.parser.header (name, value) }.headerField name value
        if p.state = .errorState then .ret { c with parser := p, error := true }
        else headerLoop buf fuel { c with parser := p }

def readHeader (buf : List UInt8) (c : Call) : Flow :=
  if c.parser.state = .readHeader then headerLoop buf (buf.length + 1) c else .next c

namespace ParserFields

/-- The range of a chunk, counted from the start of the buffer. -/
def chunkRange (p : ParserFields) (h : ChunkHeader) : List (ℤ × ℤ) :=
  if 0 < h.chunkSize then
    [(p.curChunkEnd + h.headerSize, p.curChunkEnd + h.headerSize + h.chunkSize)]
  else []

/-- A chunk of size zero ends the body. The part of the header seen before has been counted. -/
def enterChunk (p : ParserFields) (h : ChunkHeader) : ParserFields :=
  { p with
    chunkedRanges := p.chunkedRanges ++ p.chunkRange h
    curChunkEnd := p.curChunkEnd + (h.headerSize + h.chunkSize)
    finished := p.finished || decide (h.chunkSize = 0)
    partialChunkHeader := 0
    chunkHeaderSize := p.chunkHeaderSize + (h.headerSize - p.partialChunkHeader)
    recvPos := p.recvPos + (h.headerSize - p.partialChunkHeader) }

/-- The size is wrong, or the end of the chunk is out of range. -/
def BadChunk (p : ParserFields) (h : ChunkHeader) : Prop :=
  h.chunkSize < 0 ∨ maxInt64 - p.curChunkEnd - h.headerSize < h.chunkSize

instance (p : ParserFields) (h : ChunkHeader) : Decidable (p.BadChunk h) := inferInstanceAs (Decidable (_ ∨ _))

end ParserFields

namespace Call

/-- The first chunk header is where the body starts. -/
def startChunks (c : Call) : Call :=
  if c.parser.curChunkEnd = -1 then { c with parser := { c.parser with curChunkEnd := c.parser.bodyStartPos } } else c

/-- The rest of the chunk before the next header is payload. -/
def takePayload (c : Call) (payload : ℤ) : Call :=
  if 0 < payload then
    { c with parser := { c.parser with recvPos := c.parser.recvPos + payload }, payload := c.payload + payload }
  else c

/-- The tail headers are added to those of the parser. -/
def addHeaders (c : Call) (headers : List (List UInt8 × List UInt8)) : Call :=
  { c with parser := { c.parser with header := headers.foldl insertHeader c.parser.header } }

/-- All that came is part of a chunk header. -/
def keepPartial (c : Call) (incoming : ℤ) : Call :=
  { c with
    parser := { c.parser with
      partialChunkHeader := c.parser.partialChunkHeader + incoming
      chunkHeaderSize := c.parser.chunkHeaderSize + incoming
      recvPos := c.parser.recvPos + incoming }
    protocol := c.protocol + incoming }

end Call

/-- The loop over the chunk headers. Returns the number of bytes that are left. -/
def chunkLoop (buf : List UInt8) : ℕ → Call → ℤ → Call × ℤ
  | 0, c, incoming => (c, incoming)
  | fuel + 1, c, incoming =>
    if c.parser.curChunkEnd ≤ c.parser.recvPos + incoming ∧ c.parser.finished = false ∧ 0 < incoming then
      let payload := c.parser.curChunkEnd - c.parser.recvPos
      let c := c.takePayload payload
      let incoming := incoming - max payload 0
      match parseChunkHeader (buf.drop c.parser.curChunkEnd.toNat) with
      | some h =>
        let c := c.addHeaders h.tailHeaders
        if c.parser.BadChunk h then (c.fail, incoming)
        else
          let headerSize := h.headerSize - c.parser.partialChunkHeader
          chunkLoop buf fuel { c with parser := c.parser.enterChunk h, protocol := c.protocol + headerSize }
            (incoming - headerSize)
      | none => chunkLoop buf fuel (c.keepPartial incoming) 0
    else (c, incoming)

/-- A chunked body. What is left after the chunk headers is payload. -/
def readChunks (buf : List UInt8) (c : Call) (incoming : ℤ) : Call :=
  let r := chunkLoop buf (buf.length + 2) c.startChunks incoming
  if r.1.error then r.1 else r.1.takePayload r.2

/-- A body that is not looked into: the content length is where it ends. -/
def readPlain (c : Call) (incoming : ℤ) : Call :=
  let received := c.parser.recvPos - c.parser.bodyStartPos + incoming
  let incoming := if c.parser.contentLength < received ∧ 0 ≤ c.parser.contentLength then
    c.parser.contentLength - c.parser.recvPos + c.parser.bodyStartPos else incoming
  { c with parser := { c.parser with recvPos := c.parser.recvPos + incoming }, payload := c.payload + incoming }

/-- The content length has been reached. -/
def ParserFields.complete (p : ParserFields) : Prop :=
  0 ≤ p.contentLength ∧ p.chunkedEncoding = false ∧ p.contentLength ≤ p.recvPos - p.bodyStartPos

instance (p : ParserFields) : Decidable p.complete := inferInstanceAs (Decidable (_ ∧ _))

def readBody (buf : List UInt8) (c : Call) : Call :=
  if c.parser.state = .readBody then
    let incoming := toInt (buf.length - c.pos)
    let c := if c.parser.inChunks then readChunks buf c incoming else readPlain c incoming
    if c.error = false ∧ c.parser.complete then { c with parser := { c.parser with finished := true } } else c
  else c

/-- The call from the label on. -/
def response (buf : List UInt8) : ℕ → Call → Call
  | 0, c => c
  | fuel + 1, c =>
    match readStatus buf c with
    | .ret c => c
    | .restart c => response buf fuel c
    | .next c =>
      match readHeader buf c with
      | .ret c => c
      | .restart c => response buf fuel c
      | .next c => readBody buf c

/-- What a call returns: the payload and the protocol bytes, and whether there was an error. -/
structure Received where
  payload : ℤ := 0
  protocol : ℤ := 0
  error : Bool := false
  deriving DecidableEq, Repr

/-- Nothing is done if nothing is new in the buffer. -/
def HttpParser.incoming (p : HttpParser) (buf : List UInt8) : HttpParser × Received :=
  if p.recvBuffer.length = buf.length then (p, {})
  else if p.state = .errorState then ({ p with recvBuffer := buf }, { error := true })
  else
    let c := response buf (buf.length + 1)
      { parser := p.toParserFields, pos := p.recvPos.toNat, startPos := p.recvBuffer.length }
    ({ toParserFields := c.parser, recvBuffer := buf }, ⟨c.payload, c.protocol, c.error⟩)

end Http

end LibtorrentSN
