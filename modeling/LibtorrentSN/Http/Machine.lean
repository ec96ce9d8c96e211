import LibtorrentSN.Growing
import LibtorrentSN.Http.Parser
import Mathlib.Data.Int.Init
import Mathlib.Data.List.Infix

/-!
# The parser as a machine on a growing buffer

The parser without the cursors that only say how much of the buffer it has looked at: it advances by a status line, a
header line or a chunk header, once that is in the buffer in full. What it has done on a prefix it does on the whole
buffer (`advance_monotone`). `settle` gives back the cursors.
-/

namespace LibtorrentSN

namespace Http

variable {buf buf' : List UInt8} {pos newline : ℕ}

theorem nextLine_bounds (h : nextLine buf pos = some newline) : pos ≤ newline ∧ newline < buf.length := by
  obtain ⟨i, hi, rfl⟩ := Option.map_eq_some_iff.mp h
  obtain ⟨hlt, _⟩ := List.findIdx?_eq_some_iff_getElem.mp hi
  rw [List.length_drop] at hlt
  omega

theorem nextLine_mono (hb : buf <+: buf') (h : nextLine buf pos = some newline) :
    nextLine buf' pos = some newline := by
  have hpos := nextLine_bounds h
  obtain ⟨i, hi, rfl⟩ := Option.map_eq_some_iff.mp h
  obtain ⟨t, rfl⟩ := hb
  rw [nextLine, List.drop_append_of_le_length (by omega), List.findIdx?_append, hi]
  rfl

theorem nextLine_getElem? (h : nextLine buf pos = some newline) : buf[newline]? = some lf := by
  obtain ⟨i, hi, rfl⟩ := Option.map_eq_some_iff.mp h
  obtain ⟨hlt, hlf, -⟩ := List.findIdx?_eq_some_iff_getElem.mp hi
  rw [← List.getElem?_drop, List.getElem?_eq_getElem hlt, of_decide_eq_true hlf]

/-- A line feed is not passed over. -/
theorem exists_nextLine (hpos : pos ≤ newline) (h : buf[newline]? = some lf) :
    ∃ n ≤ newline, nextLine buf pos = some n := by
  have hlf : (buf.drop pos)[newline - pos]? = some lf := by
    rw [List.getElem?_drop, Nat.add_sub_cancel' hpos, h]
  obtain ⟨hlt, hget⟩ := List.getElem?_eq_some_iff.mp hlf
  cases hi : (buf.drop pos).findIdx? (· = lf) with
  | none =>
    have hnone := List.findIdx?_eq_none_iff.mp hi _ (List.getElem_mem hlt)
    rw [hget] at hnone
    exact absurd rfl (of_decide_eq_false hnone)
  | some i =>
    obtain ⟨_, _, hbefore⟩ := List.findIdx?_eq_some_iff_getElem.mp hi
    refine ⟨pos + i, ?_, by rw [nextLine, hi, Option.map_some]⟩
    by_contra hlater
    exact hbefore (newline - pos) (by omega) (decide_eq_true hget)

/-- A line that was not whole before ends in what is new. -/
theorem length_le_nextLine (hb : buf <+: buf') (hnone : nextLine buf pos = none)
    (h : nextLine buf' pos = some newline) : buf.length ≤ newline := by
  by_contra hlt
  have hlf := nextLine_getElem? h
  obtain ⟨t, rfl⟩ := hb
  rw [List.getElem?_append_left (by omega)] at hlf
  obtain ⟨n, -, hn⟩ := exists_nextLine (nextLine_bounds h).1 hlf
  rw [hnone] at hn
  cases hn

theorem nextLine_drop_all (h : buf.length ≤ pos) : nextLine buf pos = none := by
  rw [nextLine, List.drop_eq_nil_of_le h]
  rfl

theorem take_drop_mono (hb : buf <+: buf') (h : newline ≤ buf.length) :
    (buf'.drop pos).take (newline - pos) = (buf.drop pos).take (newline - pos) := by
  obtain ⟨t, rfl⟩ := hb
  rw [List.drop_append, List.take_append_of_le_length]
  rw [List.length_drop]
  omega

theorem lineAt_mono (hb : buf <+: buf') (h : newline ≤ buf.length) :
    lineAt buf' pos newline = lineAt buf pos newline := by
  rw [lineAt, lineAt, take_drop_mono hb h]

/-! ### Chunk headers -/

theorem getElem?_mono {i : ℕ} (hb : buf <+: buf') (h : i < buf.length) : buf'[i]? = buf[i]? := by
  obtain ⟨t, rfl⟩ := hb
  exact List.getElem?_append_left h

theorem skipNewline_mono (hb : buf <+: buf') (h : skipNewline buf < buf.length) :
    skipNewline buf' = skipNewline buf := by
  rw [skipNewline] at h
  have hlt : (if buf[0]? = some cr then 1 else 0) < buf.length := by
    generalize (if buf[0]? = some cr then 1 else 0) = i at h ⊢
    split at h <;> omega
  rw [skipNewline, skipNewline, getElem?_mono hb (by omega : 0 < buf.length), getElem?_mono hb hlt]

theorem tailHeaders_mono (hb : buf <+: buf') {fuel fuel' : ℕ} {headers : List (List UInt8 × List UInt8)}
    {r : ℕ × List (List UInt8 × List UInt8)} (hf : fuel ≤ fuel') (h : tailHeaders buf fuel pos headers = some r) :
    tailHeaders buf' fuel' pos headers = some r := by
  induction fuel generalizing fuel' pos headers with
  | zero => cases h
  | succ fuel ih =>
    obtain ⟨fuel', rfl⟩ := Nat.exists_eq_succ_of_ne_zero (by omega : fuel' ≠ 0)
    rw [tailHeaders] at h ⊢
    obtain ⟨newline, hn, hrest⟩ := Option.bind_eq_some_iff.mp h
    rw [nextLine_mono hb hn, Option.bind_some, lineAt_mono hb (nextLine_bounds hn).2.le]
    cases hsplit : splitHeader (lineAt buf pos newline) with
    | none => rwa [hsplit] at hrest
    | some e =>
      rw [hsplit] at hrest
      exact ih (by omega) hrest

theorem tailHeaders_bounds {fuel : ℕ} {headers : List (List UInt8 × List UInt8)}
    {r : ℕ × List (List UInt8 × List UInt8)} (h : tailHeaders buf fuel pos headers = some r) :
    0 < r.1 ∧ r.1 ≤ buf.length := by
  induction fuel generalizing pos headers with
  | zero => cases h
  | succ fuel ih =>
    rw [tailHeaders] at h
    obtain ⟨newline, hn, hrest⟩ := Option.bind_eq_some_iff.mp h
    cases hsplit : splitHeader (lineAt buf pos newline) with
    | none =>
      rw [hsplit] at hrest
      cases hrest
      exact ⟨by omega, (nextLine_bounds hn).2⟩
    | some e =>
      rw [hsplit] at hrest
      exact ih hrest

theorem parseChunkHeader_mono {h : ChunkHeader} (hb : buf <+: buf') (hh : parseChunkHeader buf = some h) :
    parseChunkHeader buf' = some h := by
  rw [parseChunkHeader] at hh ⊢
  dsimp only at hh ⊢
  obtain ⟨newline, hn, hrest⟩ := Option.bind_eq_some_iff.mp hh
  have hpos := nextLine_bounds hn
  rw [skipNewline_mono hb (by omega), nextLine_mono hb hn, Option.bind_some, take_drop_mono hb (by omega)]
  by_cases hsize : chunkSize 0 ((buf.drop (skipNewline buf)).take (newline + 1 - skipNewline buf)) ≠ 0
  · rwa [if_pos hsize] at hrest ⊢
  · rw [if_neg hsize] at hrest ⊢
    obtain ⟨t, ht, rfl⟩ := Option.map_eq_some_iff.mp hrest
    rw [tailHeaders_mono hb (by have := hb.length_le; omega) ht]
    rfl

theorem parseChunkHeader_bounds {h : ChunkHeader} (hh : parseChunkHeader buf = some h) :
    0 < h.headerSize ∧ h.headerSize ≤ buf.length := by
  rw [parseChunkHeader] at hh
  dsimp only at hh
  obtain ⟨newline, hn, hrest⟩ := Option.bind_eq_some_iff.mp hh
  by_cases hsize : chunkSize 0 ((buf.drop (skipNewline buf)).take (newline + 1 - skipNewline buf)) ≠ 0
  · rw [if_pos hsize] at hrest
    cases hrest
    exact ⟨by dsimp only; omega, (nextLine_bounds hn).2⟩
  · rw [if_neg hsize] at hrest
    obtain ⟨t, ht, rfl⟩ := Option.map_eq_some_iff.mp hrest
    exact tailHeaders_bounds ht

/-! ### The machine -/

namespace ParserFields

/-- The position after a line. -/
def pastLine (p : ParserFields) (newline : ℕ) : ParserFields := { p with recvPos := newline + 1 }

/-- The first chunk header is expected where the body starts. -/
def startBody (p : ParserFields) : ParserFields :=
  if p.inChunks then { p with curChunkEnd := p.bodyStartPos } else p

/-- A header line, or the line after the headers. -/
def headerStep (p : ParserFields) (line : List UInt8) : ParserFields :=
  match splitHeader line with
  | none =>
    if p.statusCode = 100 then { p with state := .readStatus }
    else p.enterBody.startBody
  | some e => { p with header := insertHeader p.header e }.headerField e.1 e.2

/-- A chunk header of which nothing has been seen before. -/
def chunkStep (p : ParserFields) (h : ChunkHeader) : ParserFields :=
  if p.BadChunk h then { p with state := .errorState }
  else { p with recvPos := p.curChunkEnd, header := h.tailHeaders.foldl insertHeader p.header }.enterChunk h

end ParserFields

/-- The machine: the next step of the parser, if the buffer has all it takes. -/
def advance (buf : List UInt8) (p : ParserFields) : Option ParserFields :=
  match p.state with
  | .readStatus =>
    (nextLine buf p.recvPos.toNat).map fun newline =>
      if newline = p.recvPos.toNat then { p with state := .errorState }
      else (p.pastLine newline).statusLine (lineAt buf p.recvPos.toNat newline)
  | .readHeader =>
    (nextLine buf p.recvPos.toNat).map fun newline =>
      (p.pastLine newline).headerStep (lineAt buf p.recvPos.toNat newline)
  | .readBody =>
    if p.inChunks = true ∧ p.finished = false then
      (parseChunkHeader (buf.drop p.curChunkEnd.toNat)).map p.chunkStep
    else none
  | .errorState => none

theorem advance_monotone : Growing.Monotone (· <+: ·) advance := by
  intro b b' p q hb h
  rw [advance] at h ⊢
  cases hs : p.state with
  | readStatus =>
    rw [hs] at h
    dsimp only at h ⊢
    obtain ⟨newline, hn, rfl⟩ := Option.map_eq_some_iff.mp h
    rw [nextLine_mono hb hn, Option.map_some, lineAt_mono hb (nextLine_bounds hn).2.le]
  | readHeader =>
    rw [hs] at h
    dsimp only at h ⊢
    obtain ⟨newline, hn, rfl⟩ := Option.map_eq_some_iff.mp h
    rw [nextLine_mono hb hn, Option.map_some, lineAt_mono hb (nextLine_bounds hn).2.le]
  | readBody =>
    rw [hs] at h
    dsimp only at h ⊢
    by_cases hc : p.inChunks = true ∧ p.finished = false
    · rw [if_pos hc] at h ⊢
      obtain ⟨c, hch, rfl⟩ := Option.map_eq_some_iff.mp h
      rw [parseChunkHeader_mono (hb.drop _) hch, Option.map_some]
    · rw [if_neg hc] at h
      cases h
  | errorState =>
    rw [hs] at h
    cases h

/-! ### What the machine keeps -/

/-- The cursors of a parser before the body. -/
structure InLines (n : ℤ) (p : ParserFields) : Prop where
  recvPos_nonneg : 0 ≤ p.recvPos
  recvPos_le : p.recvPos ≤ n
  curChunkEnd : p.curChunkEnd = -1
  partialChunkHeader : p.partialChunkHeader = 0
  chunkHeaderSize : p.chunkHeaderSize = 0
  finished : p.finished = false

/-- The cursors of a machine in a chunked body: it is past a chunk header. -/
structure InChunks (n : ℤ) (p : ParserFields) : Prop where
  inChunks : p.inChunks = true
  bodyStart_nonneg : 0 ≤ p.bodyStartPos
  bodyStart_le : p.bodyStartPos ≤ p.recvPos
  recvPos_le : p.recvPos ≤ n
  recvPos_le_chunkEnd : p.recvPos ≤ p.curChunkEnd
  partialChunkHeader : p.partialChunkHeader = 0

/-- The cursors of a machine in a body that is not looked into. -/
structure InPlain (n : ℤ) (p : ParserFields) : Prop where
  inChunks : p.inChunks = false
  recvPos_nonneg : 0 ≤ p.recvPos
  recvPos_eq : p.recvPos = p.bodyStartPos
  recvPos_le : p.recvPos ≤ n
  chunkHeaderSize : p.chunkHeaderSize = 0
  finished : p.finished = false

/-- The states of the machine on a buffer of a length. -/
inductive Sound (n : ℤ) (p : ParserFields) : Prop
  | lines (hs : p.state = .readStatus ∨ p.state = .readHeader) (h : InLines n p)
  | chunks (hs : p.state = .readBody) (h : InChunks n p)
  | plain (hs : p.state = .readBody) (h : InPlain n p)
  | error (hs : p.state = .errorState)

namespace Sound

variable {n n' : ℤ} {p q : ParserFields}

theorem mono (hn : n ≤ n') (h : Sound n p) : Sound n' p := by
  cases h with
  | lines hs h => exact .lines hs { h with recvPos_le := Int.le_trans h.recvPos_le hn }
  | chunks hs h => exact .chunks hs { h with recvPos_le := Int.le_trans h.recvPos_le hn }
  | plain hs h => exact .plain hs { h with recvPos_le := Int.le_trans h.recvPos_le hn }
  | error hs => exact .error hs

end Sound

/-- The cursors are not touched by what a line says. -/
structure SameCursors (p q : ParserFields) : Prop where
  recvPos : q.recvPos = p.recvPos
  curChunkEnd : q.curChunkEnd = p.curChunkEnd
  partialChunkHeader : q.partialChunkHeader = p.partialChunkHeader
  chunkHeaderSize : q.chunkHeaderSize = p.chunkHeaderSize
  finished : q.finished = p.finished

theorem InLines.of_sameCursors {n : ℤ} {p q : ParserFields} (hq : SameCursors p q) (h : InLines n p) :
    InLines n q where
  recvPos_nonneg := hq.recvPos ▸ h.recvPos_nonneg
  recvPos_le := hq.recvPos ▸ h.recvPos_le
  curChunkEnd := hq.curChunkEnd.trans h.curChunkEnd
  partialChunkHeader := hq.partialChunkHeader.trans h.partialChunkHeader
  chunkHeaderSize := hq.chunkHeaderSize.trans h.chunkHeaderSize
  finished := hq.finished.trans h.finished

namespace ParserFields

variable {p : ParserFields} {line name value : List UInt8}

theorem statusLine_cursors : SameCursors p (p.statusLine line) := by
  rw [statusLine]
  split <;> exact ⟨rfl, rfl, rfl, rfl, rfl⟩

theorem statusLine_state : (p.statusLine line).state = .readHeader := by
  rw [statusLine]
  split <;> rfl

theorem contentRange_cursors : SameCursors p (p.contentRange value) := by
  rw [contentRange]
  dsimp only
  repeat' split
  all_goals exact ⟨rfl, rfl, rfl, rfl, rfl⟩

theorem contentRange_state : (p.contentRange value).state = p.state ∨ (p.contentRange value).state = .errorState := by
  rw [contentRange]
  dsimp only
  repeat' split
  all_goals first | exact .inl rfl | exact .inr rfl

theorem headerField_cursors : SameCursors p (p.headerField name value) := by
  rw [headerField]
  dsimp only
  repeat' split
  all_goals first | exact ⟨rfl, rfl, rfl, rfl, rfl⟩ | exact contentRange_cursors

theorem headerField_state :
    (p.headerField name value).state = p.state ∨ (p.headerField name value).state = .errorState := by
  rw [headerField]
  dsimp only
  repeat' split
  all_goals first | exact .inl rfl | exact .inr rfl | exact contentRange_state

theorem chunkStep_curChunkEnd {h : ChunkHeader} (hgood : ¬p.BadChunk h) :
    p.curChunkEnd + h.headerSize ≤ (p.chunkStep h).curChunkEnd := by
  have hsize : 0 ≤ h.chunkSize := Int.not_lt.mp fun hlt => hgood (.inl hlt)
  rw [chunkStep, if_neg hgood]
  dsimp only [enterChunk]
  omega

theorem startBody_state : p.startBody.state = p.state := by
  rw [startBody]
  split <;> rfl

end ParserFields

open ParserFields

variable {n : ℤ} {p q : ParserFields}

theorem InLines.startBody (h : InLines n p) : Sound n p.enterBody.startBody := by
  cases hc : p.inChunks with
  | true =>
    refine .chunks startBody_state ?_
    rw [ParserFields.startBody, if_pos (show p.enterBody.inChunks = true from hc)]
    exact ⟨hc, h.recvPos_nonneg, Int.le_refl _, h.recvPos_le, Int.le_refl _, h.partialChunkHeader⟩
  | false =>
    refine .plain startBody_state ?_
    rw [ParserFields.startBody, if_neg (show ¬p.enterBody.inChunks = true from Bool.eq_false_iff.mp hc)]
    exact ⟨hc, h.recvPos_nonneg, rfl, h.recvPos_le, h.chunkHeaderSize, h.finished⟩

theorem InLines.headerStep (hs : p.state = .readHeader) (h : InLines n p) (line : List UInt8) :
    Sound n (p.headerStep line) := by
  rw [ParserFields.headerStep]
  cases splitHeader line with
  | none =>
    dsimp only
    by_cases hcode : p.statusCode = 100
    · rw [if_pos hcode]
      exact .lines (.inl rfl) { h with }
    · rw [if_neg hcode]
      exact h.startBody
  | some e =>
    have hl : InLines n { p with header := insertHeader p.header e } := { h with }
    have hstate : ∀ q : ParserFields, (q.headerField e.1 e.2).state = q.state ∨
        (q.headerField e.1 e.2).state = .errorState := fun q => headerField_state
    obtain hst | hst := hstate { p with header := insertHeader p.header e }
    · exact .lines (.inr (hst.trans hs)) (.of_sameCursors headerField_cursors hl)
    · exact .error hst

theorem InChunks.chunkStep {h : ChunkHeader} (hs : p.state = .readBody) (hp : InChunks n p)
    (hh : p.curChunkEnd + h.headerSize ≤ n) : Sound n (p.chunkStep h) := by
  rw [ParserFields.chunkStep]
  by_cases hbad : p.BadChunk h
  · rw [if_pos hbad]
    exact .error rfl
  · rw [if_neg hbad]
    have hle := hp.bodyStart_le
    have hend := hp.recvPos_le_chunkEnd
    have hpart := hp.partialChunkHeader
    have hsize : 0 ≤ h.chunkSize := Int.not_lt.mp fun hlt => hbad (.inl hlt)
    refine .chunks hs ⟨hp.inChunks, hp.bodyStart_nonneg, ?_, ?_, ?_, rfl⟩ <;> dsimp only [enterChunk] <;> omega

theorem InLines.pastLine {newline : ℕ} (h : InLines n p) (hn : (newline : ℤ) < n) : InLines n (p.pastLine newline) :=
  { h with
    recvPos_nonneg := Int.natCast_nonneg (newline + 1)
    recvPos_le := hn }

/-- The machine keeps its states. -/
theorem Sound.advance (h : Sound buf.length p) (hq : advance buf p = some q) : Sound buf.length q := by
  rw [Http.advance] at hq
  cases h with
  | lines hs h =>
    obtain hstate | hstate := hs
    · rw [hstate] at hq
      obtain ⟨newline, hn, rfl⟩ := Option.map_eq_some_iff.mp hq
      by_cases heq : newline = p.recvPos.toNat
      · rw [if_pos heq]
        exact .error rfl
      · rw [if_neg heq]
        have hpast := h.pastLine (Int.ofNat_lt.mpr (nextLine_bounds hn).2)
        exact .lines (.inr statusLine_state) (.of_sameCursors statusLine_cursors hpast)
    · rw [hstate] at hq
      obtain ⟨newline, hn, rfl⟩ := Option.map_eq_some_iff.mp hq
      have hpast := h.pastLine (Int.ofNat_lt.mpr (nextLine_bounds hn).2)
      exact InLines.headerStep (p := p.pastLine newline) hstate hpast _
  | chunks hs h =>
    rw [hs] at hq
    dsimp only at hq
    by_cases hc : p.inChunks = true ∧ p.finished = false
    · rw [if_pos hc] at hq
      obtain ⟨c, hch, rfl⟩ := Option.map_eq_some_iff.mp hq
      have hsize := parseChunkHeader_bounds hch
      rw [List.length_drop] at hsize
      exact h.chunkStep hs (by omega)
    · rw [if_neg hc] at hq
      cases hq
  | plain hs h =>
    rw [hs] at hq
    dsimp only at hq
    rw [if_neg fun hc => by rw [h.inChunks] at hc; cases hc.1] at hq
    cases hq
  | error hs =>
    rw [hs] at hq
    cases hq

theorem Sound.run (h : Sound buf.length p) (hq : Growing.Run Http.advance buf p q) : Sound buf.length q := by
  induction hq with
  | refl => exact h
  | tail _ hstep ih => exact ih.advance hstep

/-! ### The cursors -/

/-- The parser that has looked at a number of bytes. -/
def settle (n : ℤ) (p : ParserFields) : ParserFields :=
  if p.state = .readBody then
    if p.inChunks then
      let headerPart := if p.finished then 0 else max (n - p.curChunkEnd) 0
      { p with
        recvPos := n
        partialChunkHeader := headerPart
        chunkHeaderSize := p.chunkHeaderSize + headerPart }
    else
      let p := { p with recvPos := if 0 ≤ p.contentLength then min n (p.bodyStartPos + p.contentLength) else n }
      { p with finished := decide p.complete }
  else p

/-- The payload bytes a parser has seen. -/
def payloadTotal (p : ParserFields) : ℤ :=
  if p.state = .readBody then p.recvPos - p.bodyStartPos - p.chunkHeaderSize else 0

/-- The protocol bytes a parser has seen of a number of bytes. -/
def protocolTotal (n : ℤ) (p : ParserFields) : ℤ :=
  if p.state = .readBody then p.bodyStartPos + p.chunkHeaderSize else n

end Http

end LibtorrentSN
