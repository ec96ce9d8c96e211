import LibtorrentSN.Http.Fragments

/-!
# Chunked bodies

A response whose body is sent in chunks is parsed to the chunks that were sent, and collapsing the body gives their
data (`src/http_parser.cpp`).
-/

namespace LibtorrentSN

namespace Http

open Growing

/-! ### The body -/

/-- The largest `int`. -/
def maxInt : ℤ := 2 ^ 31 - 1

/-- The body up to the last chunk, or up to the content length. -/
def HttpParser.getBody (p : HttpParser) : List UInt8 :=
  if p.state ≠ .readBody then []
  else
    let received := p.recvPos - p.bodyStartPos
    let plain := if p.contentLength < 0 then received else min p.contentLength received
    let bodyLength := match p.chunkedRanges.getLast? with
      | some (_, chunkEnd) => if p.chunkedEncoding then min (chunkEnd - p.bodyStartPos) received else plain
      | none => plain
    (p.recvBuffer.drop p.bodyStartPos.toNat).take bodyLength.toNat

/-- The loop that moves the chunks to the front of the buffer. A chunk that is out of range or too large ends it. -/
def collapseLoop (offset : ℤ) : List (ℤ × ℤ) → List UInt8 → ℕ → List UInt8
  | [], buffer, write => buffer.take write
  | (chunkStart, chunkEnd) :: chunks, buffer, write =>
    if buffer.length < chunkEnd - offset ∨ maxInt ≤ chunkEnd - chunkStart then buffer.take write
    else
      let chunk := (buffer.drop (chunkStart - offset).toNat).take (chunkEnd - chunkStart).toNat
      collapseLoop offset chunks (buffer.take write ++ chunk ++ buffer.drop (write + chunk.length))
        (write + chunk.length)

def ParserFields.collapseChunkHeaders (p : ParserFields) (buffer : List UInt8) : List UInt8 :=
  if p.chunkedEncoding then collapseLoop p.bodyStartPos p.chunkedRanges buffer 0 else buffer

/-! ### What is sent -/

/-- The end of a line. -/
def crlf : List UInt8 := [cr, lf]

/-- A number in hexadecimal digits. -/
def hexNumber (digits : List UInt8) : ℤ := digits.foldl (fun n c => n * 16 + hexToInt c) 0

/-- A chunk with the digits of its length. -/
structure Chunk where
  digits : List UInt8
  data : List UInt8
  digits_ne : digits ≠ []
  hex : ∀ c ∈ digits, 0 ≤ hexToInt c
  number : hexNumber digits = data.length
  data_ne : data ≠ []

/-- A chunk as it is sent: its size line, its data, an empty line. -/
def Chunk.bytes (c : Chunk) : List UInt8 := c.digits ++ crlf ++ c.data ++ crlf

/-- The chunks, and the end of the body. -/
def chunkedBody (chunks : List Chunk) : List UInt8 := chunks.flatMap Chunk.bytes ++ [48] ++ crlf ++ crlf

/-- Where the data of the chunks is. -/
def dataRanges (pos : ℤ) : List Chunk → List (ℤ × ℤ)
  | [] => []
  | c :: chunks =>
    (pos + c.digits.length + 2, pos + c.digits.length + 2 + c.data.length) ::
      dataRanges (pos + c.bytes.length) chunks

/-- The status line and the header lines of a response. -/
structure ResponseHeader where
  status : List UInt8
  fields : List (List UInt8 × List UInt8)
  status_lf : lf ∉ status
  name_colon : ∀ e ∈ fields, 58 ∉ e.1
  fields_lf : ∀ e ∈ fields, lf ∉ e.1 ∧ lf ∉ e.2

namespace ResponseHeader

/-- A header field as it is sent. -/
def line (e : List UInt8 × List UInt8) : List UInt8 := e.1 ++ [58, 32] ++ e.2

/-- The head of the response as it is sent. -/
def bytes (h : ResponseHeader) : List UInt8 :=
  h.status ++ crlf ++ h.fields.flatMap (fun e => line e ++ crlf) ++ crlf

end ResponseHeader

/-- What the parser makes of a header line. -/
def ParserFields.field (p : ParserFields) (e : List UInt8 × List UInt8) : ParserFields :=
  let name := e.1.map toLower
  let value := e.2.dropWhile fun c => c = 32 ∨ c = 9
  { p with header := insertHeader p.header (name, value) }.headerField name value

/-- The parser accepts the header, as one of a chunked response. -/
structure ResponseHeader.Chunked (h : ResponseHeader) (p : ParserFields) : Prop where
  response : h.status.take 5 = chars ['H', 'T', 'T', 'P', '/']
  state : (h.fields.foldl ParserFields.field (p.statusLine h.status)).state = .readHeader
  code : (h.fields.foldl ParserFields.field (p.statusLine h.status)).statusCode ≠ 100
  chunked : (h.fields.foldl ParserFields.field (p.statusLine h.status)).chunkedEncoding = true

variable {pre line rest buf : List UInt8} {p q : ParserFields}

/-! ### Lines -/

/-- The first delimiter ends the line before it. -/
theorem findIdx?_append_cons {c : UInt8} (h : c ∉ line) : (line ++ c :: rest).findIdx? (· = c) = some line.length := by
  have hnone : line.findIdx? (· = c) = none :=
    List.findIdx?_eq_none_iff.mpr fun d hd => decide_eq_false (ne_of_mem_of_not_mem hd h)
  rw [List.findIdx?_append, hnone, List.findIdx?_cons, decide_eq_true rfl, if_pos rfl, Option.map_some, Nat.zero_add,
    Option.none_or]

/-- The next line ends at its line feed. -/
theorem nextLine_append (h : lf ∉ line) : nextLine (pre ++ (line ++ lf :: rest)) pre.length = some (pre.length + line.length) := by
  rw [nextLine, List.drop_left, findIdx?_append_cons h, Option.map_some]

/-- The line without its carriage return. -/
theorem lineAt_append : lineAt (pre ++ (line ++ [cr] ++ lf :: rest)) pre.length (pre.length + (line ++ [cr]).length) = line := by
  rw [lineAt, List.drop_left, Nat.add_sub_cancel_left, List.take_left, List.getLast?_concat, if_pos rfl,
    List.dropLast_concat]

/-- The line between the position of the parser and the next line feed. -/
theorem advance_status (hs : p.state = .readStatus) (hpos : p.recvPos = pre.length) (h : lf ∉ line) :
    advance (pre ++ (line ++ crlf ++ rest)) p =
      some ((p.pastLine (pre.length + (line ++ [cr]).length)).statusLine line) := by
  have hlf : lf ∉ line ++ [cr] := by
    rw [List.mem_append, not_or]
    exact ⟨h, by decide⟩
  have hbuf : pre ++ (line ++ crlf ++ rest) = pre ++ (line ++ [cr] ++ lf :: rest) := by
    rw [crlf, List.append_assoc, List.append_assoc]
    rfl
  have hlen : ¬ pre.length + (line ++ [cr]).length = pre.length := by
    rw [List.length_append, List.length_singleton]
    omega
  rw [advance, hs]
  dsimp only
  rw [hpos, Int.toNat_natCast, hbuf, nextLine_append hlf, Option.map_some, if_neg hlen, lineAt_append]

/-- One turn reads one header line. -/
theorem advance_header (hs : p.state = .readHeader) (hpos : p.recvPos = pre.length) (h : lf ∉ line) :
    advance (pre ++ (line ++ crlf ++ rest)) p =
      some ((p.pastLine (pre.length + (line ++ [cr]).length)).headerStep line) := by
  have hlf : lf ∉ line ++ [cr] := by
    rw [List.mem_append, not_or]
    exact ⟨h, by decide⟩
  have hbuf : pre ++ (line ++ crlf ++ rest) = pre ++ (line ++ [cr] ++ lf :: rest) := by
    rw [crlf, List.append_assoc, List.append_assoc]
    rfl
  rw [advance, hs]
  dsimp only
  rw [hpos, Int.toNat_natCast, hbuf, nextLine_append hlf, Option.map_some, lineAt_append]

/-- A header line splits into name and value. -/
theorem splitHeader_line {e : List UInt8 × List UInt8} (h : 58 ∉ e.1) : splitHeader (ResponseHeader.line e) =
    some (e.1.map toLower, e.2.dropWhile fun c => c = 32 ∨ c = 9) := by
  have hfind : (ResponseHeader.line e).findIdx? (· = 58) = some e.1.length := by
    rw [ResponseHeader.line, List.append_assoc]
    exact findIdx?_append_cons h
  have hdrop : (ResponseHeader.line e).drop (e.1.length + 1) = 32 :: e.2 := by
    rw [ResponseHeader.line, List.append_assoc, List.drop_append]
    simp
  have htake : (ResponseHeader.line e).take e.1.length = e.1 := by
    rw [ResponseHeader.line, List.append_assoc, List.take_left]
  rw [splitHeader, hfind, Option.map_some, htake, hdrop]
  simp

/-- The empty line has no colon. -/
theorem splitHeader_nil : splitHeader [] = none := rfl

/-! ### The header -/

/-- Moves the read position. -/
def ParserFields.setRecvPos (r : ℤ) (p : ParserFields) : ParserFields := { p with recvPos := r }

theorem contentRange_setRecvPos (r : ℤ) (p : ParserFields) (value : List UInt8) :
    (p.setRecvPos r).contentRange value = (p.contentRange value).setRecvPos r := by
  rw [ParserFields.contentRange, ParserFields.contentRange]
  dsimp only
  simp only [apply_ite (ParserFields.setRecvPos r)]
  rfl

theorem headerField_setRecvPos (r : ℤ) (p : ParserFields) (name value : List UInt8) :
    (p.setRecvPos r).headerField name value = (p.headerField name value).setRecvPos r := by
  rw [ParserFields.headerField, ParserFields.headerField, contentRange_setRecvPos]
  dsimp only
  simp only [apply_ite (ParserFields.setRecvPos r)]
  rfl

theorem statusLine_setRecvPos (r : ℤ) (p : ParserFields) (line : List UInt8) :
    (p.setRecvPos r).statusLine line = (p.statusLine line).setRecvPos r := by
  rw [ParserFields.statusLine, ParserFields.statusLine, apply_ite (ParserFields.setRecvPos r)]
  rfl

theorem field_setRecvPos (r : ℤ) (p : ParserFields) (e : List UInt8 × List UInt8) :
    (p.setRecvPos r).field e = (p.field e).setRecvPos r :=
  headerField_setRecvPos r { p with header := _ } _ _

/-- The fields read do not depend on the read position. -/
theorem foldl_field_setRecvPos (r : ℤ) (p : ParserFields) (fields : List (List UInt8 × List UInt8)) :
    fields.foldl ParserFields.field (p.setRecvPos r) = (fields.foldl ParserFields.field p).setRecvPos r := by
  induction fields generalizing p with
  | nil => rfl
  | cons e fields ih => rw [List.foldl_cons, field_setRecvPos, ih, List.foldl_cons]

/-- An error in a header line is not forgotten. -/
theorem state_of_foldl_field {fields : List (List UInt8 × List UInt8)}
    (h : (fields.foldl ParserFields.field p).state = .readHeader) : p.state = .readHeader := by
  induction fields generalizing p with
  | nil => exact h
  | cons e fields ih =>
    have hfield := ih h
    have hstate : (p.field e).state = p.state ∨ (p.field e).state = .errorState :=
      @ParserFields.headerField_state { p with header := _ } _ _
    rcases hstate with hsame | herror
    · exact hsame.symm.trans hfield
    · exact absurd (herror.symm.trans hfield) (by decide)

/-- The machine goes over the header lines. -/
theorem run_fields {fields : List (List UInt8 × List UInt8)} (hcolon : ∀ e ∈ fields, 58 ∉ e.1)
    (hlf : ∀ e ∈ fields, lf ∉ e.1 ∧ lf ∉ e.2) (hs : (fields.foldl ParserFields.field p).state = .readHeader)
    (hpos : p.recvPos = pre.length) :
    Run advance (pre ++ (fields.flatMap (fun e => ResponseHeader.line e ++ crlf) ++ rest)) p
      ((fields.foldl ParserFields.field p).setRecvPos
        (pre ++ fields.flatMap fun e => ResponseHeader.line e ++ crlf).length) := by
  induction fields generalizing p pre with
  | nil =>
    have hp : p.setRecvPos ((pre ++ []).length : ℕ) = p := by
      rw [List.append_nil, ParserFields.setRecvPos, ← hpos]
    rw [List.flatMap_nil, List.foldl_nil, hp]
    exact .refl
  | cons e fields ih =>
    obtain ⟨hcolon, hcolons⟩ := List.forall_mem_cons.mp hcolon
    obtain ⟨hlf, hlfs⟩ := List.forall_mem_cons.mp hlf
    have hline : lf ∉ ResponseHeader.line e := by
      rw [ResponseHeader.line, List.mem_append, List.mem_append, not_or, not_or]
      exact ⟨⟨hlf.1, by decide⟩, hlf.2⟩
    have hlen : ((pre.length + (ResponseHeader.line e ++ [cr]).length : ℕ) : ℤ) + 1 =
        (pre ++ (ResponseHeader.line e ++ crlf)).length := by
      simp only [List.length_append, crlf, List.length_cons, List.length_nil]
      omega
    have hfield : (p.pastLine (pre.length + (ResponseHeader.line e ++ [cr]).length)).headerStep (ResponseHeader.line e) =
        (p.field e).setRecvPos (pre ++ (ResponseHeader.line e ++ crlf)).length := by
      rw [ParserFields.headerStep, splitHeader_line hcolon, ← hlen, ← field_setRecvPos]
      rfl
    have hrest := @ih (pre ++ (ResponseHeader.line e ++ crlf))
      ((p.field e).setRecvPos (pre ++ (ResponseHeader.line e ++ crlf)).length) hcolons hlfs
      (by rw [foldl_field_setRecvPos]; exact hs) rfl
    have hstep := @advance_header pre (ResponseHeader.line e)
      (fields.flatMap (fun e => ResponseHeader.line e ++ crlf) ++ rest) p (state_of_foldl_field hs) hpos hline
    rw [hfield] at hstep
    rw [foldl_field_setRecvPos, List.append_assoc pre] at hrest
    rw [List.foldl_cons, List.flatMap_cons, List.append_assoc (ResponseHeader.line e ++ crlf)]
    rw [List.append_assoc pre] at hrest
    exact .head hstep hrest

/-- What the lines of a header leave alone. -/
structure SameChunks (p q : ParserFields) : Prop where
  chunkedRanges : q.chunkedRanges = p.chunkedRanges
  dontParseChunks : q.dontParseChunks = p.dontParseChunks
  finished : q.finished = p.finished

theorem statusLine_sameChunks : SameChunks p (p.statusLine line) := by
  rw [ParserFields.statusLine]
  split <;> exact ⟨rfl, rfl, rfl⟩

theorem contentRange_sameChunks (value : List UInt8) : SameChunks p (p.contentRange value) := by
  rw [ParserFields.contentRange]
  dsimp only
  repeat' split
  all_goals exact ⟨rfl, rfl, rfl⟩

theorem headerField_sameChunks (name value : List UInt8) : SameChunks p (p.headerField name value) := by
  rw [ParserFields.headerField]
  dsimp only
  repeat' split
  all_goals first | exact ⟨rfl, rfl, rfl⟩ | exact contentRange_sameChunks value

/-- Header fields leave the chunk state alone. -/
theorem foldl_field_sameChunks (fields : List (List UInt8 × List UInt8)) :
    SameChunks p (fields.foldl ParserFields.field p) := by
  induction fields generalizing p with
  | nil => exact ⟨rfl, rfl, rfl⟩
  | cons e fields ih =>
    have hrest := @ih (p.field e)
    have hfield : SameChunks { p with header := _ } (p.field e) := headerField_sameChunks _ _
    exact ⟨hrest.chunkedRanges.trans hfield.chunkedRanges, hrest.dontParseChunks.trans hfield.dontParseChunks,
      hrest.finished.trans hfield.finished⟩

/-- The machine is in a chunked body, before a chunk header. -/
structure BeforeChunk (q : ParserFields) (start chunkEnd : ℕ) (ranges : List (ℤ × ℤ)) : Prop where
  state : q.state = .readBody
  chunkedEncoding : q.chunkedEncoding = true
  dontParseChunks : q.dontParseChunks = false
  bodyStartPos : q.bodyStartPos = start
  curChunkEnd : q.curChunkEnd = chunkEnd
  chunkedRanges : q.chunkedRanges = ranges

/-- The blank line ends the header. -/
theorem headerStep_nil (hcode : p.statusCode ≠ 100) (hc : p.inChunks = true) :
    p.headerStep [] = { p.enterBody with curChunkEnd := p.recvPos } := by
  have hin : p.enterBody.inChunks = true := hc
  rw [ParserFields.headerStep, splitHeader_nil]
  dsimp only
  rw [if_neg hcode, ParserFields.startBody, if_pos hin]
  rfl

/-- The loop reads the whole head. -/
theorem run_header (h : ResponseHeader) (hs : p.state = .readStatus) (hpos : p.recvPos = 0)
    (hflag : p.dontParseChunks = false) (hranges : p.chunkedRanges = []) (hfin : p.finished = false)
    (hc : h.Chunked p) (rest : List UInt8) :
    ∃ q, Run advance (h.bytes ++ rest) p q ∧ BeforeChunk q h.bytes.length h.bytes.length [] ∧ q.finished = false := by
  obtain ⟨-, hstate, hcode, hchunked⟩ := hc
  have hsame : SameChunks p (h.fields.foldl ParserFields.field (p.statusLine h.status)) := by
    have hstatus := @statusLine_sameChunks h.status p
    have hfields := @foldl_field_sameChunks (p.statusLine h.status) h.fields
    exact ⟨hfields.chunkedRanges.trans hstatus.chunkedRanges, hfields.dontParseChunks.trans hstatus.dontParseChunks,
      hfields.finished.trans hstatus.finished⟩
  generalize hF : h.fields.flatMap (fun e => ResponseHeader.line e ++ crlf) = F
  have hsplit : h.bytes ++ rest = h.status ++ crlf ++ (F ++ ([] ++ crlf ++ rest)) := by
    rw [ResponseHeader.bytes, hF, List.nil_append, List.append_assoc, List.append_assoc, List.append_assoc]
  have hlen : (([] : List UInt8).length + (h.status ++ [cr]).length : ℕ) + (1 : ℤ) = (h.status ++ crlf).length := by
    simp only [List.length_append, crlf, List.length_cons, List.length_nil]
    omega
  have hstatus := @advance_status [] h.status (F ++ ([] ++ crlf ++ rest)) p hs hpos h.status_lf
  have hpast : (p.pastLine (([] : List UInt8).length + (h.status ++ [cr]).length)).statusLine h.status =
      (p.statusLine h.status).setRecvPos (h.status ++ crlf).length := by
    rw [← hlen, ← statusLine_setRecvPos]
    rfl
  have hfields := @run_fields (h.status ++ crlf) ([] ++ crlf ++ rest)
    ((p.statusLine h.status).setRecvPos (h.status ++ crlf).length) h.fields h.name_colon h.fields_lf
    (by rw [foldl_field_setRecvPos]; exact hstate) rfl
  rw [foldl_field_setRecvPos, hF] at hfields
  generalize h.fields.foldl ParserFields.field (p.statusLine h.status) = f at hstate hcode hchunked hsame hfields
  have hblank := @advance_header (h.status ++ crlf ++ F) [] rest
    ((f.setRecvPos (h.status ++ crlf).length).setRecvPos (h.status ++ crlf ++ F).length) hstate rfl List.not_mem_nil
  have hin : f.inChunks = true := by
    rw [ParserFields.inChunks, hchunked, hsame.dontParseChunks, hflag]
    rfl
  have hpastBlank : ∀ (r : ℤ) (k : ℕ), (((f.setRecvPos (h.status ++ crlf).length).setRecvPos r).pastLine k).headerStep [] =
      { (f.pastLine k).enterBody with curChunkEnd := k + 1 } := fun r k => @headerStep_nil (f.pastLine k) hcode hin
  rw [hpastBlank] at hblank
  rw [hpast] at hstatus
  have hend : ((h.status ++ crlf ++ F).length + (([] : List UInt8) ++ [cr]).length : ℕ) + (1 : ℤ) = h.bytes.length := by
    rw [ResponseHeader.bytes, hF]
    simp only [List.length_append, crlf, List.length_cons, List.length_nil]
    omega
  rw [List.append_assoc (h.status ++ crlf)] at hblank
  rw [List.nil_append, ← hsplit] at hstatus
  rw [← hsplit] at hfields hblank
  have hrun : Run advance (h.bytes ++ rest) p _ := .head hstatus hfields
  exact ⟨_, hrun.tail hblank, ⟨rfl, hchunked, hsame.dontParseChunks.trans hflag, hend, hend,
    hsame.chunkedRanges.trans hranges⟩, hsame.finished.trans hfin⟩

/-! ### Chunk headers -/

/-- A hex digit ends no line and starts no extension. -/
theorem hex_ne {c : UInt8} (h : 0 ≤ hexToInt c) : c ≠ cr ∧ c ≠ lf ∧ c ≠ 59 := by
  refine ⟨?_, ?_, ?_⟩ <;> rintro rfl <;> exact absurd h (by decide)

/-- A number grows with its digits. -/
theorem le_foldl_hex {digits : List UInt8} (hex : ∀ c ∈ digits, 0 ≤ hexToInt c) {size : ℤ} (hsize : 0 ≤ size) :
    size ≤ digits.foldl (fun n c => n * 16 + hexToInt c) size := by
  induction digits generalizing size with
  | nil => exact Int.le_refl size
  | cons c digits ih =>
    obtain ⟨hc, hdigits⟩ := List.forall_mem_cons.mp hex
    have hle : size ≤ size * 16 + hexToInt c := by omega
    exact Int.le_trans hle (ih hdigits (by omega))

/-- The digits are read as their number. -/
theorem chunkSize_digits {digits : List UInt8} (hex : ∀ c ∈ digits, 0 ≤ hexToInt c) {size : ℤ} (hsize : 0 ≤ size)
    (hlt : digits.foldl (fun n c => n * 16 + hexToInt c) size < 2 ^ 59) :
    chunkSize size (digits ++ crlf) = digits.foldl (fun n c => n * 16 + hexToInt c) size := by
  induction digits generalizing size with
  | nil => rfl
  | cons c digits ih =>
    obtain ⟨hc, hdigits⟩ := List.forall_mem_cons.mp hex
    obtain ⟨hcr, hlf, hsemi⟩ := hex_ne hc
    have hle := le_foldl_hex hdigits (by omega : 0 ≤ size * 16 + hexToInt c)
    rw [List.foldl_cons] at hlt
    have hbound : ¬ maxInt64 / 16 ≤ size := by
      rw [maxInt64]
      omega
    rw [List.cons_append, chunkSize, if_neg (not_or.mpr ⟨hcr, hlf⟩), if_neg hsemi, if_neg (Int.not_lt.mpr hc), if_neg hbound,
      List.foldl_cons]
    exact ih hdigits (by omega) hlt

/-- The header of a chunk, which may follow the end of the chunk before. -/
theorem skipNewline_append (hpre : pre = [] ∨ pre = crlf) {c : UInt8} (hc : 0 ≤ hexToInt c) (rest : List UInt8) :
    skipNewline (pre ++ c :: rest) = pre.length := by
  obtain ⟨hcr, hlf, -⟩ := hex_ne hc
  rcases hpre with rfl | rfl
  · rw [skipNewline, List.nil_append]
    simp [hcr, hlf]
  · rfl

/-- A size line parses to its number. -/
theorem parseChunkHeader_digits (hpre : pre = [] ∨ pre = crlf) {digits : List UInt8} (hne : digits ≠ [])
    (hex : ∀ c ∈ digits, 0 ≤ hexToInt c) (hlt : hexNumber digits < 2 ^ 59) (rest : List UInt8) :
    parseChunkHeader (pre ++ (digits ++ crlf ++ rest)) =
      if hexNumber digits ≠ 0 then some ⟨hexNumber digits, pre.length + digits.length + 2, []⟩
      else (tailHeaders (pre ++ (digits ++ crlf ++ rest)) ((pre ++ (digits ++ crlf ++ rest)).length + 1)
        (pre.length + digits.length + 2) []).map fun t => ⟨hexNumber digits, t.1, t.2⟩ := by
  have hskip : skipNewline (pre ++ (digits ++ crlf ++ rest)) = pre.length := by
    obtain ⟨c, ds, rfl⟩ := List.exists_cons_of_ne_nil hne
    exact skipNewline_append hpre (hex c List.mem_cons_self) _
  have hlf : lf ∉ digits ++ [cr] := by
    rw [List.mem_append, not_or]
    exact ⟨fun hmem => (hex_ne (hex _ hmem)).2.1 rfl, by decide⟩
  have hbuf : pre ++ (digits ++ crlf ++ rest) = pre ++ (digits ++ [cr] ++ lf :: rest) := by
    rw [crlf, List.append_assoc, List.append_assoc]
    rfl
  have hnewline := @nextLine_append pre (digits ++ [cr]) rest hlf
  have hline : ((pre ++ (digits ++ crlf ++ rest)).drop pre.length).take (pre.length + (digits ++ [cr]).length + 1 - pre.length) =
      digits ++ crlf := by
    rw [List.drop_left]
    refine List.take_left' ?_
    simp only [List.length_append, crlf, List.length_cons, List.length_nil]
    omega
  have hend : pre.length + (digits ++ [cr]).length + 1 = pre.length + digits.length + 2 := by
    rw [List.length_append, List.length_singleton]
    omega
  rw [parseChunkHeader, hskip]
  dsimp only
  rw [hbuf, hnewline, Option.bind_some, ← hbuf, hline, hend]
  rw [chunkSize_digits hex (Int.le_refl 0) hlt]
  rfl

/-! ### The chunks -/

variable {front : List UInt8} {start : ℕ} {ranges : List (ℤ × ℤ)}

/-- The body starts with its first chunk. -/
theorem chunkedBody_cons (c : Chunk) (chunks : List Chunk) :
    chunkedBody (c :: chunks) = c.digits ++ crlf ++ (c.data ++ (crlf ++ chunkedBody chunks)) := by
  simp only [chunkedBody, List.flatMap_cons, Chunk.bytes, List.append_assoc]

/-- One turn reads one chunk header. -/
theorem advance_chunk (h : BeforeChunk q start front.length ranges) (hfin : q.finished = false)
    {d : ChunkHeader} {rest : List UInt8} (hd : parseChunkHeader rest = some d) :
    advance (front ++ rest) q = some (q.chunkStep d) := by
  have hin : q.inChunks = true := by
    rw [ParserFields.inChunks, h.chunkedEncoding, h.dontParseChunks]
    rfl
  rw [advance, h.state]
  dsimp only
  rw [if_pos ⟨hin, hfin⟩, h.curChunkEnd, Int.toNat_natCast, List.drop_left, hd, Option.map_some]

/-- A chunk header takes the machine past its chunk. -/
theorem BeforeChunk.chunkStep (h : BeforeChunk q start front.length ranges) {size : ℕ} {headerSize : ℕ}
    (hbound : (front.length + headerSize + size : ℤ) ≤ maxInt64) :
    BeforeChunk (q.chunkStep ⟨size, headerSize, []⟩) start (front.length + headerSize + size)
      (ranges ++ if size = 0 then [] else
        [((front.length + headerSize : ℤ), (front.length + headerSize + size : ℤ))]) ∧
    (q.chunkStep ⟨size, headerSize, []⟩).finished = (q.finished || decide (size = 0)) := by
  obtain ⟨hstate, hchunked, hflag, hstart, hcur, hranges⟩ := h
  have hgood : ¬ q.BadChunk ⟨size, headerSize, []⟩ := by
    rw [ParserFields.BadChunk, hcur, not_or]
    dsimp only
    omega
  rw [ParserFields.chunkStep, if_neg hgood]
  refine ⟨⟨hstate, hchunked, hflag, hstart, ?_, ?_⟩, ?_⟩
  · dsimp only [ParserFields.enterChunk]
    rw [hcur]
    omega
  · dsimp only [ParserFields.enterChunk, ParserFields.chunkRange]
    rw [hranges, hcur]
    cases size with
    | zero => rfl
    | succ n => rw [if_pos (by omega), if_neg (Nat.succ_ne_zero n)]
  · dsimp only [ParserFields.enterChunk]
    congr 1
    exact decide_eq_decide.mpr (by omega)

/-- The last chunk is empty. -/
theorem parseChunkHeader_last (hpre : pre = [] ∨ pre = crlf) :
    parseChunkHeader (pre ++ chunkedBody []) = some ⟨(0 : ℕ), pre.length + 5, []⟩ := by
  rcases hpre with rfl | rfl <;> rfl

/-- The machine goes over the chunks to the end of the body. -/
theorem run_chunks {chunks : List Chunk} (h : BeforeChunk q start front.length ranges) (hfin : q.finished = false)
    (hpre : pre = [] ∨ pre = crlf) (hsmall : ∀ c ∈ chunks, c.data.length < 2 ^ 31)
    (hlen : ((front ++ (pre ++ chunkedBody chunks)).length : ℤ) ≤ maxInt64) :
    ∃ q' e, Run advance (front ++ (pre ++ chunkedBody chunks)) q q' ∧
      BeforeChunk q' start e (ranges ++ dataRanges (front.length + pre.length : ℕ) chunks) ∧ q'.finished = true := by
  induction chunks generalizing q front pre ranges with
  | nil =>
    have hbound : (front.length + (pre.length + 5 : ℕ) + (0 : ℕ) : ℤ) ≤ maxInt64 := by
      rw [List.length_append, List.length_append] at hlen
      have hlast : (chunkedBody []).length = 5 := rfl
      omega
    obtain ⟨hafter, hfinished⟩ := h.chunkStep hbound
    refine ⟨_, _, .single (advance_chunk h hfin (parseChunkHeader_last hpre)), hafter, ?_⟩
    rw [hfinished]
    exact Bool.or_true _
  | cons c chunks ih =>
    obtain ⟨hc, hchunks⟩ := List.forall_mem_cons.mp hsmall
    have hnonzero : c.data.length ≠ 0 := fun hzero => c.data_ne (List.length_eq_zero_iff.mp hzero)
    have hheader : parseChunkHeader (pre ++ chunkedBody (c :: chunks)) =
        some ⟨c.data.length, pre.length + c.digits.length + 2, []⟩ := by
      rw [chunkedBody_cons, parseChunkHeader_digits hpre c.digits_ne c.hex (by rw [c.number]; omega), c.number,
        if_pos (by omega)]
    generalize hfront : front ++ (pre ++ (c.digits ++ crlf ++ c.data)) = front'
    have hbuf : front ++ (pre ++ chunkedBody (c :: chunks)) = front' ++ (crlf ++ chunkedBody chunks) := by
      rw [chunkedBody_cons, ← hfront]
      simp only [List.append_assoc]
    have hlength : front'.length = front.length + (pre.length + c.digits.length + 2) + c.data.length := by
      rw [← hfront]
      simp only [List.length_append, crlf, List.length_cons, List.length_nil]
      omega
    have hbound : (front.length + (pre.length + c.digits.length + 2 : ℕ) + c.data.length : ℤ) ≤ maxInt64 := by
      rw [hbuf, List.length_append, hlength] at hlen
      omega
    obtain ⟨hafter, hfinished⟩ := h.chunkStep hbound
    rw [if_neg hnonzero, ← hlength] at hafter
    rw [hfin, decide_eq_false hnonzero] at hfinished
    obtain ⟨q', e, hrun, hlast, hdone⟩ := ih hafter hfinished (.inr rfl) hchunks (hbuf ▸ hlen)
    refine ⟨q', e, .head (advance_chunk h hfin hheader) (hbuf ▸ hrun), ?_, hdone⟩
    rw [List.append_assoc] at hlast
    have hpos : ((front'.length + crlf.length : ℕ) : ℤ) = (front.length + pre.length : ℕ) + c.bytes.length := by
      rw [hlength, Chunk.bytes]
      simp only [List.length_append, crlf, List.length_cons, List.length_nil]
      omega
    have hranges : dataRanges (front.length + pre.length : ℕ) (c :: chunks) =
        [((front.length + (pre.length + c.digits.length + 2 : ℕ) : ℤ),
          (front.length + (pre.length + c.digits.length + 2 : ℕ) + c.data.length : ℤ))] ++
          dataRanges (front'.length + crlf.length : ℕ) chunks := by
      rw [dataRanges, hpos, List.singleton_append]
      congr 2 <;> omega
    rw [hranges]
    exact hlast

/-! ### Collapsing -/

/-- A prefix longer than `a` contains it. -/
theorem exists_append_of_prefix {l a b : List UInt8} (h : l <+: a ++ b) (hlen : a.length ≤ l.length) :
    ∃ t, l = a ++ t ∧ t <+: b := by
  obtain ⟨t, rfl⟩ := List.prefix_of_prefix_length_le (List.prefix_append a b) h hlen
  exact ⟨t, rfl, (List.prefix_append_right_inj a).mp h⟩

/-- Moving a chunk to the front leaves what is behind it. -/
theorem drop_moved {buffer data : List UInt8} {write k : ℕ} (hwrite : write + data.length ≤ k) (hk : write ≤ buffer.length) :
    (buffer.take write ++ data ++ buffer.drop (write + data.length)).drop k = buffer.drop k := by
  have hlen : (buffer.take write ++ data).length = write + data.length := by
    rw [List.length_append, List.length_take, Nat.min_eq_left hk]
  rw [List.drop_append, hlen, List.drop_eq_nil_of_le (hlen ▸ hwrite), List.nil_append, List.drop_drop,
    Nat.add_sub_cancel' hwrite]

/-- The collapse loop keeps the data of every chunk, in order. -/
theorem collapseLoop_chunks {chunks : List Chunk} {buffer behind : List UInt8} {write k : ℕ} {offset : ℤ}
    (hwrite : write ≤ k) (hbuf : buffer.drop k <+: chunks.flatMap Chunk.bytes ++ behind)
    (hin : ∀ r ∈ dataRanges (offset + k) chunks, r.2 ≤ offset + buffer.length)
    (hsmall : ∀ c ∈ chunks, (c.data.length : ℤ) < maxInt) :
    collapseLoop offset (dataRanges (offset + k) chunks) buffer write =
      buffer.take write ++ chunks.flatMap Chunk.data := by
  induction chunks generalizing buffer write k with
  | nil => rw [dataRanges, collapseLoop, List.flatMap_nil, List.append_nil]
  | cons c chunks ih =>
    obtain ⟨hc, hchunks⟩ := List.forall_mem_cons.mp hsmall
    obtain ⟨hlast, hins⟩ := List.forall_mem_cons.mp hin
    have hlen : (c.digits ++ crlf ++ c.data).length = c.digits.length + 2 + c.data.length := by
      rw [List.length_append, List.length_append]
      rfl
    have hbytes : c.bytes.length = c.digits.length + 2 + c.data.length + 2 := by
      rw [Chunk.bytes, List.length_append, hlen]
      rfl
    dsimp only at hlast
    obtain ⟨tail, htail, hrest⟩ : ∃ t, buffer.drop k = c.digits ++ crlf ++ c.data ++ t ∧
        t <+: crlf ++ (chunks.flatMap Chunk.bytes ++ behind) := by
      refine exists_append_of_prefix ?_ ?_
      · rwa [List.flatMap_cons, Chunk.bytes, List.append_assoc, List.append_assoc] at hbuf
      · rw [hlen, List.length_drop]
        omega
    have hchunk : (buffer.drop (offset + k + c.digits.length + 2 - offset).toNat).take
        (offset + k + c.digits.length + 2 + c.data.length - (offset + k + c.digits.length + 2)).toNat = c.data := by
      have hfrom : (offset + k + c.digits.length + 2 - offset).toNat = k + (c.digits ++ crlf).length := by
        rw [List.length_append, crlf, List.length_cons, List.length_singleton]
        omega
      have hcount : (offset + k + c.digits.length + 2 + c.data.length - (offset + k + c.digits.length + 2)).toNat =
          c.data.length := by omega
      rw [hfrom, hcount, ← List.drop_drop, htail, List.append_assoc, List.drop_left, List.take_left]
    have hout : ¬ ((buffer.length : ℤ) < offset + k + c.digits.length + 2 + c.data.length - offset ∨
        maxInt ≤ offset + k + c.digits.length + 2 + c.data.length - (offset + k + c.digits.length + 2)) := by omega
    have hk : write ≤ buffer.length := by omega
    have hnext : offset + (k : ℤ) + c.bytes.length = offset + (k + c.bytes.length : ℕ) := by omega
    have hlength : (buffer.take write ++ c.data ++ buffer.drop (write + c.data.length)).length = buffer.length := by
      rw [List.length_append, List.length_append, List.length_take, List.length_drop]
      omega
    have hbehind : (buffer.take write ++ c.data ++ buffer.drop (write + c.data.length)).drop (k + c.bytes.length) <+:
        chunks.flatMap Chunk.bytes ++ behind := by
      rw [drop_moved (by omega) hk, ← List.drop_drop, htail, hbytes, ← hlen, ← List.drop_drop, List.drop_left]
      exact hrest.drop 2
    rw [dataRanges, collapseLoop, if_neg hout, hchunk, hnext]
    dsimp only
    rw [ih (by omega) hbehind (by rw [hlength, ← hnext]; exact hins) hchunks]
    rw [List.take_left' (by rw [List.length_append, List.length_take, Nat.min_eq_left hk]), List.flatMap_cons,
      List.append_assoc]

/-! ### Delivered responses -/

theorem length_bytes (c : Chunk) : c.bytes.length = c.digits.length + 2 + c.data.length + 2 := by
  simp only [Chunk.bytes, List.length_append, crlf, List.length_cons, List.length_nil]

/-- Every data range ends within the body. -/
theorem dataRanges_bounds {chunks : List Chunk} {pos : ℤ} {r : ℤ × ℤ} (hr : r ∈ dataRanges pos chunks) :
    pos ≤ r.2 ∧ r.2 ≤ pos + (chunks.flatMap Chunk.bytes).length := by
  induction chunks generalizing pos with
  | nil => cases hr
  | cons c chunks ih =>
    have hlen := length_bytes c
    rw [List.flatMap_cons, List.length_append]
    rcases List.mem_cons.mp hr with rfl | hr
    · dsimp only
      omega
    · have hrest := ih hr
      omega

/-- The last data range ends last. -/
theorem le_last_dataRange {chunks : List Chunk} {pos : ℤ} {r e : ℤ × ℤ} (hr : r ∈ dataRanges pos chunks)
    (he : (dataRanges pos chunks).getLast? = some e) : r.2 ≤ e.2 := by
  induction chunks generalizing pos with
  | nil => cases hr
  | cons c chunks ih =>
    have hlen := length_bytes c
    cases hrest : dataRanges (pos + c.bytes.length) chunks with
    | nil =>
      rw [dataRanges, hrest] at hr he
      obtain rfl := List.mem_singleton.mp hr
      obtain rfl := Option.some.inj he
      exact Int.le_refl _
    | cons d ds =>
      rw [dataRanges, hrest, List.getLast?_cons_cons, ← hrest] at he
      rw [dataRanges] at hr
      rcases List.mem_cons.mp hr with rfl | hr
      · have hlast := dataRanges_bounds (List.mem_of_mem_getLast? he)
        dsimp only
        omega
      · exact ih hr he

/-- The data of the chunks is what is in their ranges. -/
theorem map_dataRanges {chunks : List Chunk} {buf behind : List UInt8} {k : ℕ}
    (hbuf : buf.drop k = chunks.flatMap Chunk.bytes ++ behind) :
    (dataRanges k chunks).map (fun r => (buf.drop r.1.toNat).take (r.2 - r.1).toNat) = chunks.map Chunk.data := by
  induction chunks generalizing k with
  | nil => rfl
  | cons c chunks ih =>
    have hsplit : buf.drop k = c.digits ++ crlf ++ (c.data ++ (crlf ++ (chunks.flatMap Chunk.bytes ++ behind))) := by
      rw [hbuf, List.flatMap_cons, Chunk.bytes]
      simp only [List.append_assoc]
    have hfrom : ((k : ℤ) + c.digits.length + 2).toNat = k + (c.digits ++ crlf).length := by
      rw [List.length_append, crlf, List.length_cons, List.length_singleton]
      omega
    have hcount : ((k : ℤ) + c.digits.length + 2 + c.data.length - (k + c.digits.length + 2)).toNat = c.data.length := by
      omega
    have hnext : buf.drop (k + c.bytes.length) = chunks.flatMap Chunk.bytes ++ behind := by
      rw [← List.drop_drop, hbuf, List.flatMap_cons, List.append_assoc, List.drop_left]
    have hpos : (k : ℤ) + c.bytes.length = (k + c.bytes.length : ℕ) := (Int.natCast_add k c.bytes.length).symm
    rw [dataRanges, List.map_cons, List.map_cons, hpos, ih hnext]
    dsimp only
    rw [hfrom, hcount, ← List.drop_drop, hsplit, List.drop_left, List.take_left]

/-- Buffers that `int` can count: the header is below 2 GiB, as the source asserts, and so is what is new in a call. -/
structure Deliveries (header : List UInt8) (bufs : List (List UInt8)) (buf : List UInt8) : Prop where
  fragments : Fragments bufs buf
  header_lt : header.length < 2 ^ 31
  new_lt : ([] :: bufs).IsChain fun b b' => b'.length < b.length + 2 ^ 31
  length_le : (buf.length : ℤ) ≤ maxInt64

/-- Where the machine comes to a chunked body, it rests in no other on the way. -/
theorem Deliveries.countable {header : List UInt8} {bufs : List (List UInt8)} {buf : List UInt8}
    (hd : Deliveries header bufs buf) {start q : ParserFields} (hq : Settles advance buf start q) (hin : q.inChunks = true) :
    ([] :: bufs).IsChain (CountableFrom start) := by
  refine hd.new_lt.imp_of_mem_imp fun b b' hb _ hnew r hr => ⟨hnew, fun hs hc => ?_⟩
  have hrest : advance buf r = none := by
    rw [advance, hs]
    exact if_neg fun hchunks => by rw [hc] at hchunks; cases hchunks.1
  obtain rfl := hq.unique (hr.resume advance_monotone (hd.fragments.isPrefix hb) (.refl hrest))
  rw [hin] at hc
  cases hc

/-- The parser at the end of a chunked response. -/
structure Parsed (h : ResponseHeader) (chunks : List Chunk) (s : HttpParser × Received) : Prop where
  error : s.2.error = false
  finished : s.1.finished = true
  chunkedRanges : s.1.chunkedRanges = dataRanges h.bytes.length chunks
  chunkedEncoding : s.1.chunkedEncoding = true
  bodyStartPos : s.1.bodyStartPos = h.bytes.length
  state : s.1.state = .readBody
  recvPos : s.1.recvPos = (h.bytes ++ chunkedBody chunks).length
  recvBuffer : s.1.recvBuffer = h.bytes ++ chunkedBody chunks

/-- The whole response parses, however it is cut into buffers. -/
theorem deliver_parsed {s : HttpParser} (hs : s.Fresh) (hflag : s.dontParseChunks = false) {h : ResponseHeader}
    (hc : h.Chunked s.toParserFields) {chunks : List Chunk} (hsmall : ∀ c ∈ chunks, c.data.length < 2 ^ 31)
    {bufs : List (List UInt8)} (hd : Deliveries h.bytes bufs (h.bytes ++ chunkedBody chunks)) :
    Parsed h chunks (s.deliver bufs) := by
  have hstart : s.state = .readStatus ∧ s.recvPos = 0 ∧ s.chunkedRanges = [] ∧ s.finished = false := by
    cases hs <;> exact ⟨rfl, rfl, rfl, rfl⟩
  obtain ⟨hstate, hpos, hranges, hfin⟩ := hstart
  obtain ⟨q, hrun, hq, hqfin⟩ := run_header h hstate hpos hflag hranges hfin hc (chunkedBody chunks)
  obtain ⟨q', e, hrun', hq', hdone⟩ := @run_chunks [] q h.bytes _ _ chunks hq hqfin (.inl rfl) hsmall hd.length_le
  have hsettled : Settles advance (h.bytes ++ chunkedBody chunks) s.toParserFields q' := by
    refine ⟨hrun.trans hrun', ?_⟩
    rw [advance, hq'.state]
    dsimp only
    rw [if_neg fun hin => by rw [hdone] at hin; cases hin.2]
  have hin : q'.inChunks = true := by
    rw [ParserFields.inChunks, hq'.chunkedEncoding, hq'.dontParseChunks]
    rfl
  cases deliver_delivered hs hd.fragments (hd.countable hsettled hin) with
  | failed r hr herr =>
    rw [← hsettled.unique hr, hq'.state] at herr
    cases herr
  | parsed r hr _ hp he hb =>
    obtain rfl := hsettled.unique hr
    rw [settle, if_pos hq'.state, if_pos hin] at hp
    have hranges' : q'.chunkedRanges = dataRanges h.bytes.length chunks := by
      rw [hq'.chunkedRanges, List.nil_append]
      rfl
    exact ⟨he, by rw [hp]; exact hdone, by rw [hp]; exact hranges', by rw [hp]; exact hq'.chunkedEncoding,
      by rw [hp]; exact hq'.bodyStartPos, by rw [hp]; exact hq'.state, by rw [hp], hb⟩

namespace Parsed

variable {h : ResponseHeader} {chunks : List Chunk} {s : HttpParser × Received}

/-- The body reaches to the end of the last chunk at least. -/
theorem getBody_spec (hs : Parsed h chunks s) : s.1.getBody <+: chunkedBody chunks ∧
    ∀ r ∈ dataRanges h.bytes.length chunks, r.2 ≤ h.bytes.length + s.1.getBody.length := by
  have hdrop : s.1.recvBuffer.drop s.1.bodyStartPos.toNat = chunkedBody chunks := by
    rw [hs.recvBuffer, hs.bodyStartPos, Int.toNat_natCast, List.drop_left]
  have hreceived : s.1.recvPos - s.1.bodyStartPos = (chunkedBody chunks).length := by
    rw [hs.recvPos, hs.bodyStartPos, List.length_append]
    omega
  have hbody : ∃ n : ℤ, s.1.getBody = (chunkedBody chunks).take n.toNat ∧
      ∀ e, (dataRanges h.bytes.length chunks).getLast? = some e →
        n = min (e.2 - h.bytes.length) (chunkedBody chunks).length := by
    rw [HttpParser.getBody, if_neg (not_not.mpr hs.state), hdrop]
    refine ⟨_, rfl, fun e he => ?_⟩
    rw [hs.chunkedRanges, he]
    dsimp only
    rw [if_pos hs.chunkedEncoding, hreceived, hs.bodyStartPos]
  obtain ⟨n, hn, hlast⟩ := hbody
  refine ⟨hn ▸ List.take_prefix _ _, fun r hr => ?_⟩
  obtain ⟨e, he⟩ := Option.isSome_iff_exists.mp (List.getLast?_isSome.mpr (List.ne_nil_of_mem hr))
  have hle := le_last_dataRange hr he
  have hbound := dataRanges_bounds (List.mem_of_mem_getLast? he)
  have hlen : (chunks.flatMap Chunk.bytes).length ≤ (chunkedBody chunks).length := by
    rw [chunkedBody, List.append_assoc, List.append_assoc, List.length_append]
    exact Nat.le_add_right _ _
  rw [hn, List.length_take, hlast e he]
  omega

/-- Collapsing leaves the data of the chunks. -/
theorem collapse (hs : Parsed h chunks s) (hsmall : ∀ c ∈ chunks, (c.data.length : ℤ) < maxInt) :
    s.1.collapseChunkHeaders s.1.getBody = chunks.flatMap Chunk.data := by
  obtain ⟨hpre, hin⟩ := hs.getBody_spec
  have hloop := @collapseLoop_chunks chunks s.1.getBody ([48] ++ crlf ++ crlf) 0 0 h.bytes.length (Nat.le_refl 0)
    (by rwa [List.drop_zero, ← List.append_assoc, ← List.append_assoc]) (by rwa [Int.natCast_zero, Int.add_zero]) hsmall
  rw [Int.natCast_zero, Int.add_zero, List.take_zero, List.nil_append] at hloop
  rw [ParserFields.collapseChunkHeaders, if_pos hs.chunkedEncoding, hs.bodyStartPos, hs.chunkedRanges, hloop]

/-- The ranges hold the data of the chunks. -/
theorem map_ranges (hs : Parsed h chunks s) :
    s.1.chunkedRanges.map (fun r => (s.1.recvBuffer.drop r.1.toNat).take (r.2 - r.1).toNat) = chunks.map Chunk.data := by
  rw [hs.chunkedRanges, hs.recvBuffer]
  refine @map_dataRanges chunks _ ([48] ++ crlf ++ crlf) h.bytes.length ?_
  rw [List.drop_left, chunkedBody]
  simp only [List.append_assoc]

end Parsed

/-- A chunked response is decoded to what was sent, however it is delivered, if no chunk has `INT_MAX` bytes. -/
theorem deliver_chunks {p : HttpParser} (hp : p.Fresh) (hflag : p.dontParseChunks = false) {h : ResponseHeader}
    (hc : h.Chunked p.toParserFields) {chunks : List Chunk} (hsmall : ∀ c ∈ chunks, (c.data.length : ℤ) < maxInt)
    {bufs : List (List UInt8)} (hd : Deliveries h.bytes bufs (h.bytes ++ chunkedBody chunks)) :
    (p.deliver bufs).2.error = false ∧ (p.deliver bufs).1.finished = true ∧
      (p.deliver bufs).1.chunkedRanges = dataRanges h.bytes.length chunks ∧
      ((p.deliver bufs).1.chunkedRanges.map fun r => ((p.deliver bufs).1.recvBuffer.drop r.1.toNat).take (r.2 - r.1).toNat) =
        chunks.map Chunk.data ∧
      (p.deliver bufs).1.collapseChunkHeaders (p.deliver bufs).1.getBody = chunks.flatMap Chunk.data := by
  have hparsed := deliver_parsed hp hflag hc (fun c hcm => by have := hsmall c hcm; rw [maxInt] at this; omega) hd
  exact ⟨hparsed.error, hparsed.finished, hparsed.chunkedRanges, hparsed.map_ranges, hparsed.collapse hsmall⟩

/-- `HTTP/1.1 200` and the encoding. -/
def chunkedHeader : ResponseHeader where
  status := chars ['H', 'T', 'T', 'P', '/', '1', '.', '1', ' ', '2', '0', '0']
  fields := [(chars ['T', 'r', 'a', 'n', 's', 'f', 'e', 'r', '-', 'E', 'n', 'c', 'o', 'd', 'i', 'n', 'g'],
    chars ['c', 'h', 'u', 'n', 'k', 'e', 'd'])]
  status_lf := by decide
  name_colon := by decide
  fields_lf := by decide

theorem chunkedHeader_chunked : chunkedHeader.Chunked (HttpParser.new false).toParserFields :=
  ⟨by decide, by decide, by decide, by decide⟩

/-- A chunk of three bytes that look like the end of a line and a header. -/
def lineChunk : Chunk where
  digits := [51]
  data := [cr, lf, 58]
  digits_ne := by decide
  hex := List.forall_mem_singleton.mpr (by decide)
  number := by decide
  data_ne := by decide

/-- It comes cut within the header and within the chunk. -/
def lineChunkBuffers : List (List UInt8) :=
  [(chunkedHeader.bytes ++ chunkedBody [lineChunk]).take 9, (chunkedHeader.bytes ++ chunkedBody [lineChunk]).take 49,
    chunkedHeader.bytes ++ chunkedBody [lineChunk]]

theorem deliver_chunks_line : ((HttpParser.new false).deliver lineChunkBuffers).1.finished = true ∧
    ((HttpParser.new false).deliver lineChunkBuffers).1.collapseChunkHeaders
      ((HttpParser.new false).deliver lineChunkBuffers).1.getBody = [cr, lf, 58] := by
  have hd : Deliveries chunkedHeader.bytes lineChunkBuffers (chunkedHeader.bytes ++ chunkedBody [lineChunk]) := by
    refine ⟨⟨?_, rfl⟩, ?_, ?_, ?_⟩ <;> decide +kernel
  have hdelivered := deliver_chunks (.new false) rfl chunkedHeader_chunked (by decide) hd
  exact ⟨hdelivered.2.1, hdelivered.2.2.2.2⟩

/-- A chunk of the largest length that is shorter than 2 GiB. -/
def largestChunk : Chunk where
  digits := [55, 102, 102, 102, 102, 102, 102, 102]
  data := List.replicate 2147483647 0
  digits_ne := by decide
  hex := List.forall_mem_cons.mpr ⟨by decide, fun c hc => by rw [List.eq_of_mem_replicate (n := 7) hc]; decide⟩
  number := by
    rw [List.length_replicate]
    decide
  data_ne := List.ne_nil_of_length_pos (by rw [List.length_replicate]; decide)

theorem length_response (h : ResponseHeader) (c : Chunk) : (h.bytes ++ chunkedBody [c]).length =
    h.bytes.length + (c.digits.length + 2 + c.data.length + 2) + 5 := by
  rw [List.length_append, chunkedBody, List.flatMap_cons, List.flatMap_nil, List.append_nil]
  simp only [List.length_append, length_bytes, crlf, List.length_cons, List.length_nil]
  omega

/-- A buffer in two parts, both below 2 GiB. -/
theorem deliveries_two {header buf : List UInt8} (hheader : header.length < 2 ^ 31) (hlow : 1073741824 ≤ buf.length)
    (hhigh : buf.length < 3221225472) : Deliveries header [buf.take 1073741824, buf] buf := by
  have hpre : [buf.take 1073741824, buf].IsChain (· <+: ·) :=
    List.isChain_cons_cons.mpr ⟨List.take_prefix _ _, .singleton _⟩
  refine ⟨⟨hpre, rfl⟩, hheader, List.isChain_cons_cons.mpr ⟨?_, List.isChain_cons_cons.mpr ⟨?_, .singleton _⟩⟩, ?_⟩
  · rw [List.length_take, List.length_nil]
    omega
  · rw [List.length_take]
    omega
  · rw [maxInt64]
    omega

/-- A chunk of `INT_MAX` bytes is taken for an invalid one. -/
theorem collapse_too_large {h : ResponseHeader} {c : Chunk} {s : HttpParser × Received} (hs : Parsed h [c] s)
    (hlarge : maxInt ≤ c.data.length) (buffer : List UInt8) : s.1.collapseChunkHeaders buffer = [] := by
  rw [ParserFields.collapseChunkHeaders, if_pos hs.chunkedEncoding, hs.chunkedRanges, dataRanges, collapseLoop,
    if_pos (.inr (by omega)), List.take_zero]

theorem length_largestChunk : largestChunk.data.length = 2147483647 := List.length_replicate

/-- The data of that chunk is dropped. -/
theorem not_deliver_chunks : (∀ c ∈ [largestChunk], c.data.length < 2 ^ 31) ∧ ∃ bufs,
    Deliveries chunkedHeader.bytes bufs (chunkedHeader.bytes ++ chunkedBody [largestChunk]) ∧
    ((HttpParser.new false).deliver bufs).1.collapseChunkHeaders ((HttpParser.new false).deliver bufs).1.getBody = [] ∧
    [largestChunk].flatMap Chunk.data ≠ [] := by
  have hsmall : ∀ c ∈ [largestChunk], c.data.length < 2 ^ 31 := by
    intro c hc
    rw [List.mem_singleton.mp hc, length_largestChunk]
    decide
  have hlen : (chunkedHeader.bytes ++ chunkedBody [largestChunk]).length = 2147483708 := by
    rw [length_response, length_largestChunk]
    decide
  have hd := @deliveries_two chunkedHeader.bytes (chunkedHeader.bytes ++ chunkedBody [largestChunk]) (by decide)
    (by rw [hlen]; decide) (by rw [hlen]; decide)
  refine ⟨hsmall, _, hd, ?_, ?_⟩
  · exact collapse_too_large (deliver_parsed (.new false) rfl chunkedHeader_chunked hsmall hd)
      (by rw [length_largestChunk]; decide) _
  · rw [List.flatMap_singleton]
    exact largestChunk.data_ne

end Http

end LibtorrentSN
