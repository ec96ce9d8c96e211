import LibtorrentSN.Http.Machine
import Mathlib.Data.List.Chain
import Mathlib.Data.List.Pairwise

/-!
# The parser does not depend on the fragments

A call of `incoming` runs the machine of the parser from where it rested to where it rests on the new buffer
(`response_ends`). So after a number of calls the parser is where one call would have brought it, and the bytes
counted are those of its totals.
-/

namespace LibtorrentSN

namespace Http

open Growing ParserFields

variable {buf : List UInt8} {pay proto : ℤ} {p q : ParserFields} {c c' : Call}

/-- How a call ends that goes on from a state of the machine: with an error, or where the machine rests, with the
difference of the totals counted. -/
inductive Ends (buf : List UInt8) (pay proto : ℤ) (p : ParserFields) (c : Call) : Prop
  | fails (q : ParserFields) (h : Settles advance buf p q) (hq : q.state = .errorState)
      (hs : c.parser.state = .errorState) (he : c.error = true)
  | settles (q : ParserFields) (h : Settles advance buf p q) (hq : q.state ≠ .errorState)
      (hp : c.parser = settle buf.length q) (he : c.error = false)
      (hpay : c.payload = payloadTotal c.parser - pay)
      (hproto : c.protocol = protocolTotal buf.length c.parser - proto)

/-- What the loop ends in may be looked at after any of its turns. -/
theorem Ends.after (hr : Run advance buf p q) (h : Ends buf pay proto q c) : Ends buf pay proto p c := by
  cases h with
  | fails r h hq hs he => exact .fails r (h.after hr) hq hs he
  | settles r h hq hp he hpay hproto => exact .settles r (h.after hr) hq hp he hpay hproto

/-- Nothing is read after an error. -/
theorem advance_errorState (h : p.state = .errorState) : advance buf p = none := by
  rw [advance, h]

/-- The machine takes a step to the error state. -/
theorem Ends.of_error (hq : advance buf p = some q) (hs : q.state = .errorState)
    (hc : c.parser.state = .errorState) (he : c.error = true) : Ends buf pay proto p c :=
  .fails q (.head hq (.refl (advance_errorState hs))) hs hc he

/-! ### Lines -/

/-- What follows the next line can be counted in `int`. -/
def RestFits (buf : List UInt8) (pos : ℕ) : Prop :=
  ∀ newline, nextLine buf pos = some newline → buf.length < newline + 1 + 2 ^ 31

/-- Further on there is less to read. -/
theorem RestFits.mono {pos pos' : ℕ} (h : RestFits buf pos) (hle : pos ≤ pos') : RestFits buf pos' := by
  intro newline hn
  have hbounds := nextLine_bounds hn
  obtain ⟨n, hle', hn'⟩ := exists_nextLine (hle.trans hbounds.1) (nextLine_getElem? hn)
  have := h n hn'
  omega

/-- A call before a line. -/
structure AtLine (buf : List UInt8) (proto : ℤ) (c : Call) : Prop where
  lines : InLines buf.length c.parser
  pos : (c.pos : ℤ) = c.parser.recvPos
  payload : c.payload = 0
  protocol : c.protocol = c.startPos - proto
  error : c.error = false
  fits : RestFits buf c.pos

namespace AtLine

theorem pos_eq (h : AtLine buf proto c) : c.parser.recvPos.toNat = c.pos := by
  rw [← h.pos, Int.toNat_natCast]

theorem parser_pastLine (h : AtLine buf proto c) (newline : ℕ) :
    (c.pastLine newline).parser = c.parser.pastLine newline := by
  have hpos := h.pos
  rw [Call.pastLine, ParserFields.pastLine]
  dsimp only
  congr 1
  omega

theorem pastLine {newline : ℕ} (h : AtLine buf proto c) (hn : nextLine buf c.pos = some newline) :
    AtLine buf proto (c.pastLine newline) where
  lines := by
    rw [h.parser_pastLine]
    exact h.lines.pastLine (Int.ofNat_lt.mpr (nextLine_bounds hn).2)
  pos := by
    rw [h.parser_pastLine]
    rfl
  payload := h.payload
  protocol := h.protocol
  error := h.error
  fits := h.fits.mono (Nat.le_succ_of_le (nextLine_bounds hn).1)

/-- Without a whole line the call waits. -/
theorem waits (h : AtLine buf proto c) (hs : c.parser.state = .readStatus ∨ c.parser.state = .readHeader)
    (hn : nextLine buf c.pos = none) :
    Ends buf 0 proto c.parser { c with protocol := c.protocol + (buf.length - c.startPos) } := by
  have hbody : c.parser.state ≠ .readBody := by
    obtain hs | hs := hs <;> rw [hs] <;> decide
  have herr : c.parser.state ≠ .errorState := by
    obtain hs | hs := hs <;> rw [hs] <;> decide
  refine .settles c.parser (.refl ?_) herr ?_ h.error ?_ ?_
  · obtain hs | hs := hs <;> rw [advance, hs] <;> dsimp only <;> rw [h.pos_eq, hn, Option.map_none]
  · rw [settle, if_neg hbody]
  · rw [payloadTotal, if_neg hbody]
    exact h.payload
  · rw [protocolTotal, if_neg hbody]
    dsimp only
    rw [h.protocol]
    omega

end AtLine

/-- How the status line ends. -/
inductive StatusEnd (buf : List UInt8) (proto : ℤ) (c : Call) : Flow → Prop
  | returns (c' : Call) (h : Ends buf 0 proto c.parser c') : StatusEnd buf proto c (.ret c')
  | header (c' : Call) (h : AtLine buf proto c') (hs : c'.parser.state = .readHeader)
      (hr : Run advance buf c.parser c'.parser) (hpos : c.pos ≤ c'.pos) : StatusEnd buf proto c (.next c')

theorem readStatus_follows (h : AtLine buf proto c)
    (hs : c.parser.state = .readStatus ∨ c.parser.state = .readHeader) :
    StatusEnd buf proto c (readStatus buf c) := by
  rw [readStatus]
  by_cases hstatus : c.parser.state = .readStatus
  · rw [if_pos hstatus]
    cases hn : nextLine buf c.pos with
    | none => exact .returns _ (h.waits hs hn)
    | some newline =>
      have hstep : advance buf c.parser = some (if newline = c.pos then { c.parser with state := .errorState }
          else (c.parser.pastLine newline).statusLine (lineAt buf c.pos newline)) := by
        rw [advance, hstatus]
        dsimp only
        rw [h.pos_eq, hn, Option.map_some]
      dsimp only
      by_cases heq : newline = c.pos
      · rw [if_pos heq] at hstep ⊢
        exact .returns _ (.of_error hstep rfl rfl rfl)
      · rw [if_neg heq] at hstep ⊢
        have hbounds := nextLine_bounds hn
        have hpast := h.pastLine hn
        rw [← h.parser_pastLine] at hstep
        refine .header _ ⟨.of_sameCursors statusLine_cursors hpast.lines, ?_, hpast.payload, ?_, hpast.error, hpast.fits⟩
          statusLine_state (.single hstep) (Nat.le_succ_of_le hbounds.1)
        · exact hpast.pos.trans statusLine_cursors.recvPos.symm
        · dsimp only
          have := hpast.protocol
          omega
  · rw [if_neg hstatus]
    exact .header c h (hs.resolve_left hstatus) .refl le_rfl

/-- How the header lines end. -/
inductive HeaderEnd (buf : List UInt8) (proto : ℤ) (c : Call) : Flow → Prop
  | returns (c' : Call) (h : Ends buf 0 proto c.parser c') : HeaderEnd buf proto c (.ret c')
  | waits (c' : Call) (h : Ends buf 0 proto c.parser c') (hs : c'.parser.state = .readHeader) :
      HeaderEnd buf proto c (.next c')
  | restarts (c' : Call) (h : AtLine buf proto c') (hs : c'.parser.state = .readStatus)
      (hr : Run advance buf c.parser c'.parser) (hpos : c.pos < c'.pos) : HeaderEnd buf proto c (.restart c')
  | body (c' : Call) (p : ParserFields) (h : InLines buf.length p) (hp : c'.parser = p.enterBody)
      (hr : Run advance buf c.parser p.enterBody.startBody) (hpos : (c'.pos : ℤ) = p.recvPos)
      (hpay : c'.payload = 0) (hproto : c'.protocol = p.recvPos - proto) (he : c'.error = false)
      (hnew : (buf.length : ℤ) - p.recvPos < 2 ^ 31) : HeaderEnd buf proto c (.next c')

theorem HeaderEnd.after {f : Flow} (hr : Run advance buf c.parser c'.parser) (hpos : c.pos ≤ c'.pos)
    (h : HeaderEnd buf proto c' f) : HeaderEnd buf proto c f := by
  cases h with
  | returns d h => exact .returns d (h.after hr)
  | waits d h hs => exact .waits d (h.after hr) hs
  | restarts d h hs hr' hpos' => exact .restarts d h hs (hr.trans hr') (by omega)
  | body d p h hp hr' hpos' hpay hproto he hnew => exact .body d p h hp (hr.trans hr') hpos' hpay hproto he hnew

/-- The header loop follows the machine. -/
theorem headerLoop_follows {fuel : ℕ} (hf : buf.length < c.pos + fuel) (h : AtLine buf proto c)
    (hs : c.parser.state = .readHeader) : HeaderEnd buf proto c (headerLoop buf fuel c) := by
  induction fuel generalizing c with
  | zero =>
    have hle := h.lines.recvPos_le
    have hpos := h.pos
    omega
  | succ fuel ih =>
    rw [headerLoop]
    cases hn : nextLine buf c.pos with
    | none => exact .waits _ (h.waits (.inr hs) hn) hs
    | some newline =>
      have hbounds := nextLine_bounds hn
      have hpast := h.pastLine hn
      have hpos : c.pos < (c.pastLine newline).pos := Nat.lt_succ_of_le hbounds.1
      have hstep : advance buf c.parser =
          some ((c.pastLine newline).parser.headerStep (lineAt buf c.pos newline)) := by
        rw [advance, hs]
        dsimp only
        rw [h.pos_eq, hn, Option.map_some, h.parser_pastLine]
      rw [headerStep] at hstep
      dsimp only
      cases hsplit : splitHeader (lineAt buf c.pos newline) with
      | none =>
        rw [hsplit] at hstep
        dsimp only at hstep ⊢
        by_cases hcode : (c.pastLine newline).parser.statusCode = 100
        · rw [if_pos hcode] at hstep ⊢
          exact .restarts _ { hpast with lines := { hpast.lines with } } rfl (.single hstep) hpos
        · rw [if_neg hcode] at hstep ⊢
          have hproto := hpast.protocol
          have hrecv := hpast.pos
          have hfits := h.fits newline hn
          have hafter : (c.pastLine newline).pos = newline + 1 := rfl
          refine .body _ _ hpast.lines rfl (.single hstep) hpast.pos hpast.payload ?_ hpast.error (by omega)
          dsimp only
          omega
      | some e =>
        rw [hsplit] at hstep
        dsimp only at hstep ⊢
        generalize hq : { (c.pastLine newline).parser with
          header := insertHeader (c.pastLine newline).parser.header e }.headerField e.1 e.2 = q at hstep ⊢
        have hcursors : SameCursors (c.pastLine newline).parser q := by
          rw [← hq]
          exact { headerField_cursors with }
        by_cases herr : q.state = .errorState
        · rw [if_pos herr]
          exact .returns _ (.of_error hstep herr herr rfl)
        · rw [if_neg herr]
          have hstate : q.state = .readHeader := by
            rw [← hq] at herr ⊢
            exact (headerField_state.resolve_right herr).trans hs
          have hline : AtLine buf proto { c.pastLine newline with parser := q } :=
            { hpast with
              lines := .of_sameCursors hcursors hpast.lines
              pos := hpast.pos.trans hcursors.recvPos.symm }
          have hrun : Run advance buf c.parser { c.pastLine newline with parser := q }.parser := .single hstep
          exact (ih (by dsimp only; omega) hline hstate).after hrun hpos.le

/-! ### The body -/

/-- The parser that has looked at the bytes before a position, the last of them a part of a chunk header. -/
def view (q : ParserFields) (r k : ℤ) : ParserFields :=
  { q with recvPos := r, partialChunkHeader := k, chunkHeaderSize := q.chunkHeaderSize + k }

/-- A call in a chunked body. -/
structure AtChunk (buf : List UInt8) (pay proto : ℤ) (q : ParserFields) (r k : ℤ) (c : Call) : Prop where
  state : q.state = .readBody
  chunks : InChunks buf.length q
  parser : c.parser = view q r k
  le_length : r ≤ buf.length
  header_nonneg : 0 ≤ k
  before : q.finished = false → r ≤ q.curChunkEnd + k
  within : q.finished = false → 0 < k → r = q.curChunkEnd + k ∧ r < buf.length
  after : q.finished = true → k = 0
  payload : c.payload = r - q.bodyStartPos - (q.chunkHeaderSize + k) - pay
  protocol : c.protocol = q.bodyStartPos + (q.chunkHeaderSize + k) - proto
  error : c.error = false

theorem takePayload_eq (c : Call) (n : ℤ) :
    c.takePayload n = { c with
      parser := { c.parser with recvPos := c.parser.recvPos + max n 0 }, payload := c.payload + max n 0 } := by
  rw [Call.takePayload]
  by_cases hn : 0 < n
  · have hmax : max n 0 = n := by omega
    rw [if_pos hn, hmax]
  · have hmax : max n 0 = 0 := by omega
    rw [if_neg hn, hmax, Int.add_zero, Int.add_zero]

/-- What is left after the chunk headers is payload. -/
def leftOver (s : Call × ℤ) : Call := if s.1.error then s.1 else s.1.takePayload s.2

theorem leftOver_zero (c : Call) : leftOver (c, 0) = c := by
  rw [leftOver, Call.takePayload, if_neg (Int.lt_irrefl 0), ite_self]

theorem leftOver_error (n : ℤ) (he : c.error = true) : leftOver (c, n) = c := if_pos he

theorem chunkLoop_zero (fuel : ℕ) (c : Call) : chunkLoop buf fuel c 0 = (c, 0) := by
  cases fuel with
  | zero => rfl
  | succ fuel =>
    rw [chunkLoop, if_neg]
    rintro ⟨-, -, h⟩
    exact absurd h (Int.lt_irrefl 0)

/-- The call has looked at a chunked body up to the end of the buffer, and the machine has no step. -/
theorem Ends.of_view {k : ℤ} (hs : q.state = .readBody) (hc : q.inChunks = true) (hq : advance buf q = none)
    (hk : k = if q.finished then 0 else max (buf.length - q.curChunkEnd) 0) (hp : c.parser = view q buf.length k)
    (hpay : c.payload = buf.length - q.bodyStartPos - (q.chunkHeaderSize + k) - pay)
    (hproto : c.protocol = q.bodyStartPos + (q.chunkHeaderSize + k) - proto) (he : c.error = false) :
    Ends buf pay proto q c := by
  refine .settles q (.refl hq) (by rw [hs]; decide) ?_ he ?_ ?_
  · rw [settle, if_pos hs, if_pos hc, ← hk, hp, view]
  · rw [payloadTotal, hp, if_pos (show (view q buf.length k).state = .readBody from hs)]
    exact hpay
  · rw [protocolTotal, hp, if_pos (show (view q buf.length k).state = .readBody from hs)]
    exact hproto

namespace AtChunk

variable {r k : ℤ}

theorem advance_eq (h : AtChunk buf pay proto q r k c) (hq : q.finished = false) :
    advance buf q = (parseChunkHeader (buf.drop q.curChunkEnd.toNat)).map q.chunkStep := by
  rw [advance, h.state]
  exact if_pos ⟨h.chunks.inChunks, hq⟩

/-- The payload before the next chunk header. -/
theorem takePayload (h : AtChunk buf pay proto q r k c) (hr : r + max (q.curChunkEnd - r) 0 ≤ buf.length)
    (hq : q.finished = false) :
    AtChunk buf pay proto q (q.curChunkEnd + k) k (c.takePayload (q.curChunkEnd - r)) := by
  have hbefore := h.before hq
  have hnonneg := h.header_nonneg
  have hwithin := h.within hq
  have hpos : r + max (q.curChunkEnd - r) 0 = q.curChunkEnd + k := by omega
  rw [takePayload_eq]
  refine { h with
    parser := ?_, le_length := by omega, before := fun _ => Int.le_refl _,
    within := fun _ hk => ⟨rfl, by omega⟩, payload := ?_ }
  · rw [h.parser, view, view, ← hpos]
  · dsimp only
    rw [h.payload]
    omega

/-- Where no chunk header can come, the rest of the buffer is payload. -/
theorem rest (h : AtChunk buf pay proto q r k c)
    (hstop : q.curChunkEnd ≤ buf.length → q.finished = false → r = buf.length) :
    Ends buf pay proto q (leftOver (c, buf.length - r)) := by
  have hle := h.le_length
  have hk := h.header_nonneg
  have hend : q.finished = false → (buf.length : ℤ) ≤ q.curChunkEnd := by
    intro hq
    have hbefore := h.before hq
    have hwithin := h.within hq
    have := fun hcur => hstop hcur hq
    omega
  have hzero : k = 0 := by
    cases hq : q.finished with
    | true => exact h.after hq
    | false =>
      have := h.within hq
      have := hend hq
      omega
  have hq : advance buf q = none := by
    cases hfin : q.finished with
    | true =>
      rw [advance, h.state]
      exact if_neg fun hc => by rw [hfin] at hc; cases hc.2
    | false =>
      have := hend hfin
      rw [h.advance_eq hfin, List.drop_eq_nil_of_le (by omega)]
      rfl
  subst hzero
  rw [leftOver, if_neg (by rw [h.error]; decide), takePayload_eq]
  refine .of_view (k := 0) h.state h.chunks.inChunks hq ?_ ?_ ?_ h.protocol h.error
  · cases hfin : q.finished with
    | true => rfl
    | false =>
      have := hend hfin
      rw [if_neg (by decide)]
      omega
  · rw [h.parser, view, view]
    dsimp only
    congr 1
    omega
  · dsimp only
    rw [h.payload]
    omega

/-- The buffer ends within a chunk header. -/
theorem keepPartial (h : AtChunk buf pay proto q (q.curChunkEnd + k) k c) (hq : q.finished = false)
    (hnone : parseChunkHeader (buf.drop q.curChunkEnd.toNat) = none) :
    Ends buf pay proto q (c.keepPartial (buf.length - (q.curChunkEnd + k))) := by
  have hle := h.le_length
  have hk := h.header_nonneg
  have hadvance : advance buf q = none := by
    rw [h.advance_eq hq, hnone]
    rfl
  refine .of_view (k := k + (buf.length - (q.curChunkEnd + k))) h.state h.chunks.inChunks hadvance ?_ ?_ ?_ ?_ h.error
  · rw [hq, if_neg (by decide)]
    omega
  · rw [Call.keepPartial, h.parser, view, view]
    dsimp only
    congr 1 <;> omega
  · rw [Call.keepPartial]
    dsimp only
    rw [h.payload]
    omega
  · rw [Call.keepPartial]
    dsimp only
    rw [h.protocol]
    omega

/-- A chunk header that is there in full. -/
theorem enterChunk {d : ChunkHeader} (h : AtChunk buf pay proto q (q.curChunkEnd + k) k c)
    (hd : parseChunkHeader (buf.drop q.curChunkEnd.toNat) = some d)
    (hbad : ¬(c.addHeaders d.tailHeaders).parser.BadChunk d) :
    AtChunk buf pay proto (q.chunkStep d) (q.curChunkEnd + d.headerSize) 0
      { c.addHeaders d.tailHeaders with
        parser := (c.addHeaders d.tailHeaders).parser.enterChunk d
        protocol := (c.addHeaders d.tailHeaders).protocol +
          (d.headerSize - (c.addHeaders d.tailHeaders).parser.partialChunkHeader) } := by
  have hsize := parseChunkHeader_bounds hd
  rw [List.length_drop] at hsize
  have hcur := h.chunks.recvPos_le_chunkEnd
  have hstart := h.chunks.bodyStart_le
  have hnonneg := h.chunks.bodyStart_nonneg
  have hpart := h.chunks.partialChunkHeader
  rw [Call.addHeaders, h.parser] at hbad ⊢
  have hgood : ¬q.BadChunk d := hbad
  have hpositive : 0 ≤ d.chunkSize := Int.not_lt.mp fun hlt => hgood (.inl hlt)
  rw [ParserFields.chunkStep, if_neg hgood]
  refine ⟨h.state, ?_, ?_, by omega, Int.le_refl 0, fun _ => ?_, fun _ hk => by omega, fun _ => rfl, ?_, ?_, h.error⟩
  · refine ⟨h.chunks.inChunks, hnonneg, ?_, ?_, ?_, rfl⟩ <;> dsimp only [ParserFields.enterChunk] <;> omega
  · dsimp only [view, ParserFields.enterChunk, chunkRange]
    congr 1 <;> omega
  · dsimp only [ParserFields.enterChunk]
    omega
  · dsimp only [ParserFields.enterChunk]
    rw [h.payload]
    omega
  · dsimp only [ParserFields.enterChunk, view]
    rw [h.protocol]
    omega

end AtChunk

/-- The chunk loop follows the machine. -/
theorem chunkLoop_ends {fuel : ℕ} {r k : ℤ} (hf : buf.length + 1 < q.curChunkEnd + fuel)
    (h : AtChunk buf pay proto q r k c) :
    Ends buf pay proto q (leftOver (chunkLoop buf fuel c (buf.length - r))) := by
  induction fuel generalizing q r k c with
  | zero => exact h.rest fun hcur => by omega
  | succ fuel ih =>
    rw [chunkLoop]
    have hparser := h.parser
    have hcur : c.parser.curChunkEnd = q.curChunkEnd := by rw [hparser]; rfl
    have hfin : c.parser.finished = q.finished := by rw [hparser]; rfl
    have hrecv : c.parser.recvPos = r := by rw [hparser]; rfl
    rw [hcur, hfin, hrecv]
    by_cases hloop : q.curChunkEnd ≤ r + (buf.length - r) ∧ q.finished = false ∧ 0 < buf.length - r
    · rw [if_pos hloop]
      obtain ⟨hle, hq, hpos⟩ := hloop
      have hchunk := h.takePayload (by have := h.le_length; omega) hq
      have hbefore := h.before hq
      have hwithin := h.within hq
      have hnonneg := h.header_nonneg
      have hleft : buf.length - r - max (q.curChunkEnd - r) 0 = buf.length - (q.curChunkEnd + k) := by omega
      have hend : (c.takePayload (q.curChunkEnd - r)).parser.curChunkEnd = q.curChunkEnd := by
        rw [hchunk.parser]
        rfl
      dsimp only
      rw [hleft, hend]
      cases hd : parseChunkHeader (buf.drop q.curChunkEnd.toNat) with
      | none =>
        dsimp only
        rw [chunkLoop_zero]
        rw [leftOver_zero]
        exact hchunk.keepPartial hq hd
      | some d =>
        dsimp only
        have hbad : ((c.takePayload (q.curChunkEnd - r)).addHeaders d.tailHeaders).parser.BadChunk d ↔
            q.BadChunk d := by
          rw [Call.addHeaders, hchunk.parser]
          rfl
        by_cases hwrong : q.BadChunk d
        · rw [if_pos (hbad.mpr hwrong), leftOver_error _ rfl]
          refine .of_error (q := { q with state := .errorState }) ?_ rfl rfl rfl
          rw [h.advance_eq hq, hd, Option.map_some, chunkStep, if_pos hwrong]
        · have hpart : ((c.takePayload (q.curChunkEnd - r)).addHeaders d.tailHeaders).parser.partialChunkHeader = k := by
            rw [Call.addHeaders, hchunk.parser]
            rfl
          have hrest : buf.length - (q.curChunkEnd + k) - (d.headerSize - k) =
              buf.length - (q.curChunkEnd + d.headerSize) := by omega
          have hnext := hchunk.enterChunk hd (mt hbad.mp hwrong)
          have hstep : advance buf q = some (q.chunkStep d) := by
            rw [h.advance_eq hq, hd]
            rfl
          have hsize := parseChunkHeader_bounds hd
          have hbeyond := chunkStep_curChunkEnd hwrong
          rw [if_neg (mt hbad.mp hwrong)]
          rw [hpart] at hnext ⊢
          rw [hrest]
          exact (ih (by omega) hnext).after (.single hstep)
    · rw [if_neg hloop]
      refine h.rest fun hle hq => ?_
      have hlength := h.le_length
      by_contra hne
      exact hloop ⟨by omega, hq, by omega⟩

theorem chunkLoop_chunkedEncoding (fuel : ℕ) (c : Call) (incoming : ℤ) :
    (chunkLoop buf fuel c incoming).1.parser.chunkedEncoding = c.parser.chunkedEncoding := by
  induction fuel generalizing c incoming with
  | zero => rfl
  | succ fuel ih =>
    rw [chunkLoop]
    split
    · dsimp only
      rw [takePayload_eq]
      split
      · split
        · rfl
        · exact ih _ _
      · exact ih _ _
    · rfl

/-- Reading chunks follows the machine. -/
theorem readChunks_ends {r k : ℤ} (h : AtChunk buf pay proto q r k c.startChunks) :
    Ends buf pay proto q (readChunks buf c (buf.length - r)) := by
  have hend := h.chunks.recvPos_le_chunkEnd
  have hstart := h.chunks.bodyStart_le
  have hnonneg := h.chunks.bodyStart_nonneg
  exact chunkLoop_ends (by omega) h

theorem readChunks_chunkedEncoding (c : Call) (incoming : ℤ) :
    (readChunks buf c incoming).parser.chunkedEncoding = c.parser.chunkedEncoding := by
  have hstart : c.startChunks.parser.chunkedEncoding = c.parser.chunkedEncoding := by
    rw [Call.startChunks]
    split <;> rfl
  rw [readChunks, takePayload_eq, ← hstart, ← chunkLoop_chunkedEncoding (buf.length + 2) c.startChunks incoming]
  split <;> rfl

theorem readBody_chunks (hs : c.parser.state = .readBody) (hc : c.parser.inChunks = true) (hpos : c.pos ≤ buf.length)
    (hnew : (buf.length : ℤ) - c.pos < 2 ^ 31) : readBody buf c = readChunks buf c (buf.length - c.pos) := by
  have hchunked : c.parser.chunkedEncoding = true := by
    rw [inChunks] at hc
    exact (Bool.and_eq_true_iff.mp hc).1
  rw [readBody, if_pos hs, toInt_of_lt (by omega) hnew]
  dsimp only
  rw [if_pos hc, if_neg]
  rintro ⟨-, hcomplete⟩
  rw [complete, readChunks_chunkedEncoding, hchunked] at hcomplete
  cases hcomplete.2.1

/-- A call in a body that is not looked into. -/
structure AtPlain (buf : List UInt8) (pay proto : ℤ) (q : ParserFields) (r : ℤ) (f : Bool) (c : Call) : Prop where
  state : q.state = .readBody
  plain : InPlain buf.length q
  parser : c.parser = { q with recvPos := r, finished := f }
  pos : (c.pos : ℤ) = r
  le_length : r ≤ buf.length
  le_content : 0 ≤ q.contentLength → r ≤ q.bodyStartPos + q.contentLength
  finished : f = true → { q with recvPos := r }.complete
  payload : c.payload = r - q.bodyStartPos - pay
  protocol : c.protocol = q.bodyStartPos - proto
  error : c.error = false

/-- Where the bytes end that belong to the body. -/
def bodyEnd (n : ℤ) (q : ParserFields) : ℤ :=
  if 0 ≤ q.contentLength then min n (q.bodyStartPos + q.contentLength) else n

namespace AtPlain

variable {r : ℤ} {f : Bool}

theorem readPlain_eq (h : AtPlain buf pay proto q r f c) :
    readPlain c (buf.length - r) = { c with
      parser := { q with recvPos := bodyEnd buf.length q, finished := f }
      payload := bodyEnd buf.length q - q.bodyStartPos - pay } := by
  have hle := h.le_length
  have hcontent := h.le_content
  have hincoming : (if q.contentLength < r - q.bodyStartPos + (buf.length - r) ∧ 0 ≤ q.contentLength then
      q.contentLength - r + q.bodyStartPos else buf.length - r) = bodyEnd buf.length q - r := by
    rw [bodyEnd]
    by_cases hknown : 0 ≤ q.contentLength
    · rw [if_pos hknown]
      by_cases hmore : q.contentLength < r - q.bodyStartPos + (buf.length - r)
      · rw [if_pos ⟨hmore, hknown⟩]
        omega
      · rw [if_neg fun hc => hmore hc.1]
        omega
    · rw [if_neg hknown, if_neg fun hc => hknown hc.2]
  have hpos : r + (bodyEnd buf.length q - r) = bodyEnd buf.length q := by omega
  have hpay : r - q.bodyStartPos - pay + (bodyEnd buf.length q - r) = bodyEnd buf.length q - q.bodyStartPos - pay := by
    omega
  rw [readPlain, h.parser, h.payload]
  dsimp only
  rw [hincoming, hpos, hpay]

theorem le_bodyEnd (h : AtPlain buf pay proto q r f c) : r ≤ bodyEnd buf.length q := by
  have hle := h.le_length
  have hcontent := h.le_content
  rw [bodyEnd]
  split <;> omega

theorem settle_eq (h : AtPlain buf pay proto q r f c) :
    settle buf.length q = { q with
      recvPos := bodyEnd buf.length q
      finished := decide ({ q with recvPos := bodyEnd buf.length q } : ParserFields).complete } := by
  rw [settle, if_pos h.state, if_neg (Bool.eq_false_iff.mp h.plain.inChunks)]
  rfl

/-- Reading a plain body settles the parser. -/
theorem readBody_eq (h : AtPlain buf pay proto q r f c) (hnew : (buf.length : ℤ) - r < 2 ^ 31) :
    readBody buf c = { c with
      parser := settle buf.length q
      payload := bodyEnd buf.length q - q.bodyStartPos - pay } := by
  have hstate : c.parser.state = .readBody := by rw [h.parser]; exact h.state
  have hchunks : ¬c.parser.inChunks = true := by
    rw [h.parser]
    exact Bool.eq_false_iff.mp h.plain.inChunks
  have hle := h.le_length
  rw [readBody, if_pos hstate, h.pos, toInt_of_lt (by omega) hnew]
  dsimp only
  rw [if_neg hchunks, h.readPlain_eq, h.settle_eq]
  by_cases hcomplete : ({ q with recvPos := bodyEnd buf.length q } : ParserFields).complete
  · rw [if_pos ⟨h.error, hcomplete⟩, decide_eq_true hcomplete]
  · have hf : f = false := by
      refine Bool.eq_false_iff.mpr fun hf => hcomplete ?_
      obtain ⟨hlength, hchunked, hle⟩ := h.finished hf
      have hend := h.le_bodyEnd
      dsimp only at hle
      exact ⟨hlength, hchunked, by dsimp only; omega⟩
    rw [if_neg fun hc => hcomplete hc.2, decide_eq_false hcomplete, hf]

theorem ends (h : AtPlain buf pay proto q r f c) (hnew : (buf.length : ℤ) - r < 2 ^ 31) :
    Ends buf pay proto q (readBody buf c) := by
  have hrest : advance buf q = none := by
    rw [advance, h.state]
    exact if_neg fun hc => by rw [h.plain.inChunks] at hc; cases hc.1
  rw [h.readBody_eq hnew]
  refine .settles q (.refl hrest) (by rw [h.state]; decide) rfl h.error ?_ ?_
  · dsimp only
    rw [h.settle_eq, payloadTotal, if_pos h.state]
    dsimp only
    rw [h.plain.chunkHeaderSize]
    omega
  · dsimp only
    rw [h.settle_eq, protocolTotal, if_pos h.state]
    dsimp only
    rw [h.plain.chunkHeaderSize, h.protocol]
    omega

end AtPlain

/-! ### A call -/

/-- The body starts within the call. -/
theorem readBody_starts (h : InLines buf.length p) (hp : c.parser = p.enterBody) (hpos : (c.pos : ℤ) = p.recvPos)
    (hpay : c.payload = 0) (hproto : c.protocol = p.recvPos - proto) (he : c.error = false)
    (hnew : (buf.length : ℤ) - p.recvPos < 2 ^ 31) : Ends buf 0 proto p.enterBody.startBody (readBody buf c) := by
  have hstate : c.parser.state = .readBody := by rw [hp]; rfl
  have hsound := h.startBody
  have hcur := h.curChunkEnd
  have hsize := h.chunkHeaderSize
  have hle := h.recvPos_le
  cases hc : p.inChunks with
  | true =>
    have hchunks : p.enterBody.inChunks = true := hc
    have hstart : p.enterBody.startBody = { p.enterBody with curChunkEnd := p.recvPos } := if_pos hchunks
    rw [readBody_chunks hstate (by rw [hp]; exact hc) (by omega) (by omega), hpos]
    refine readChunks_ends (k := 0) ?_
    have hchunk : InChunks buf.length p.enterBody.startBody := by
      cases hsound with
      | lines hs h => obtain hs | hs := hs <;> rw [startBody_state] at hs <;> cases hs
      | chunks hs h => exact h
      | plain hs h => rw [hstart] at h; exact absurd (h.inChunks.symm.trans hchunks) (by decide)
      | error hs => rw [startBody_state] at hs; cases hs
    have hparser : c.startChunks = { c with parser := p.enterBody.startBody } := by
      rw [Call.startChunks, hp, if_pos (show p.enterBody.curChunkEnd = -1 from hcur), hstart]
      rfl
    rw [hparser]
    refine ⟨startBody_state, hchunk, ?_, hle, Int.le_refl 0, fun _ => ?_, fun _ hk => absurd hk (Int.lt_irrefl 0),
      fun _ => rfl, ?_, ?_, he⟩
    · rw [hstart, view]
      dsimp only
      congr 1
      · exact (Int.add_zero _).symm
      · exact h.partialChunkHeader
    · rw [hstart]
      dsimp only
      omega
    · rw [hstart]
      dsimp only [ParserFields.enterBody]
      omega
    · rw [hstart]
      dsimp only [ParserFields.enterBody]
      omega
  | false =>
    have hchunks : p.enterBody.inChunks = false := hc
    have hstart : p.enterBody.startBody = p.enterBody := if_neg (Bool.eq_false_iff.mp hchunks)
    rw [hstart]
    have hplain : InPlain buf.length p.enterBody :=
      ⟨hchunks, h.recvPos_nonneg, rfl, hle, hsize, h.finished⟩
    refine AtPlain.ends (r := p.recvPos) (f := p.finished) ⟨rfl, hplain, hp, hpos, hle, fun hlength => ?_, fun hf => ?_,
      ?_, hproto, he⟩ hnew
    · dsimp only [ParserFields.enterBody] at hlength ⊢
      omega
    · rw [h.finished] at hf
      cases hf
    · dsimp only [ParserFields.enterBody]
      omega

/-- Reading a response follows the machine. -/
theorem response_ends {fuel : ℕ} (hf : buf.length < c.pos + fuel) (h : AtLine buf proto c)
    (hs : c.parser.state = .readStatus ∨ c.parser.state = .readHeader) :
    Ends buf 0 proto c.parser (response buf fuel c) := by
  induction fuel generalizing c with
  | zero =>
    have hle := h.lines.recvPos_le
    have hpos := h.pos
    omega
  | succ fuel ih =>
    rw [response]
    have hstatus := readStatus_follows h hs
    generalize readStatus buf c = f at hstatus ⊢
    cases hstatus with
    | returns d hd => exact hd
    | header d hd hds hdr hdpos =>
      dsimp only
      rw [readHeader, if_pos hds]
      have hfuel : buf.length < d.pos + (buf.length + 1) := by omega
      have hheader := (headerLoop_follows hfuel hd hds).after hdr hdpos
      generalize headerLoop buf (buf.length + 1) d = g at hheader ⊢
      cases hheader with
      | returns e he => exact he
      | waits e he hes =>
        dsimp only
        rw [readBody, if_neg (by rw [hes]; decide)]
        exact he
      | restarts e he hes her hepos => exact (ih (by omega) he (.inl hes)).after her
      | body e q hq hqe hqr hqpos hpay hproto herr hnew =>
        exact (readBody_starts hq hqe hqpos hpay hproto herr hnew).after hqr

/-- The parser was in a body before the call. -/
theorem response_body (hs : c.parser.state = .readBody) (fuel : ℕ) : response buf (fuel + 1) c = readBody buf c := by
  have hne : ¬ParserState.readBody = .readStatus := by decide
  have hne' : ¬ParserState.readBody = .readHeader := by decide
  rw [response, readStatus, hs, if_neg hne]
  dsimp only
  rw [readHeader, hs, if_neg hne']

/-! ### The calls -/

/-- The parser after some calls, with the bytes they counted and whether one of them had an error. -/
def receive (s : HttpParser × Received) (buf : List UInt8) : HttpParser × Received :=
  let r := s.1.incoming buf
  (r.1, ⟨s.2.payload + r.2.payload, s.2.protocol + r.2.protocol, s.2.error || r.2.error⟩)

/-- Gives the parser one buffer after the other. -/
def HttpParser.deliver (p : HttpParser) (bufs : List (List UInt8)) : HttpParser × Received :=
  bufs.foldl receive (p, {})

/-- What has been delivered of a buffer is where the machine rests on it. -/
inductive Delivered (start : ParserFields) (buf : List UInt8) (s : HttpParser × Received) : Prop
  | failed (q : ParserFields) (h : Settles advance buf start q) (hq : q.state = .errorState)
      (hs : s.1.state = .errorState) (he : s.2.error = true) (hb : s.1.recvBuffer = buf)
  | parsed (q : ParserFields) (h : Settles advance buf start q) (hq : q.state ≠ .errorState)
      (hp : s.1.toParserFields = settle buf.length q) (he : s.2.error = false) (hb : s.1.recvBuffer = buf)
      (hpay : s.2.payload = payloadTotal s.1.toParserFields)
      (hproto : s.2.protocol = protocolTotal buf.length s.1.toParserFields)

/-- The state of a parser that has looked at a number of bytes is that of the machine. -/
theorem settle_state (n : ℤ) (q : ParserFields) : (settle n q).state = q.state := by
  rw [settle]
  split
  · split <;> rfl
  · rfl

/-- What is new in a call can be counted in `int`, and so can what follows a body that is not looked into. -/
structure Countable (q : ParserFields) (n n' : ℕ) : Prop where
  new : n' < n + 2 ^ 31
  rest : q.state = .readBody → q.inChunks = false → (n' : ℤ) < bodyEnd n q + 2 ^ 31

/-- The same, for the state in which the machine rests. -/
def CountableFrom (start : ParserFields) (buf buf' : List UInt8) : Prop :=
  ∀ q, Settles advance buf start q → Countable q buf.length buf'.length

/-- A call goes on from where the machine rests on the buffer of the last one. -/
theorem call_ends (hsound : Sound buf.length q) (hq : q.state ≠ .errorState) (hrest : advance buf q = none)
    {buf' : List UInt8} (hb : buf <+: buf') (hlt : buf.length < buf'.length)
    (hcount : Countable q buf.length buf'.length) (hp : p = settle buf.length q) :
    Ends buf' (payloadTotal p) (protocolTotal buf.length p) q (response buf' (buf'.length + 1)
      { parser := p, pos := p.recvPos.toNat, startPos := buf.length }) := by
  have hle : (buf.length : ℤ) ≤ buf'.length := Int.ofNat_le.mpr hlt.le
  have hstate : p.state = q.state := by rw [hp, settle_state]
  have hnew := hcount.new
  cases hsound with
  | lines hs h =>
    have hbody : q.state ≠ .readBody := by
      obtain hs | hs := hs <;> rw [hs] <;> decide
    have hpq : p = q := by rw [hp, settle, if_neg hbody]
    subst hpq
    rw [payloadTotal, protocolTotal, if_neg hbody, if_neg hbody]
    have hnone : nextLine buf p.recvPos.toNat = none := by
      rw [advance] at hrest
      obtain hs | hs := hs <;> rw [hs] at hrest <;> exact Option.map_eq_none_iff.mp hrest
    have hfits : RestFits buf' p.recvPos.toNat := by
      intro newline hn
      have := length_le_nextLine hb hnone hn
      omega
    have hline : AtLine buf' buf.length { parser := p, pos := p.recvPos.toNat, startPos := buf.length } :=
      ⟨{ h with recvPos_le := Int.le_trans h.recvPos_le hle }, Int.toNat_of_nonneg h.recvPos_nonneg, rfl,
        (Int.sub_self _).symm, rfl, hfits⟩
    exact response_ends (by omega) hline hs
  | chunks hs h =>
    have hbody : p.state = .readBody := hstate.trans hs
    rw [response_body hbody, payloadTotal, protocolTotal, if_pos hbody, if_pos hbody]
    rw [settle, if_pos hs, if_pos h.inChunks] at hp
    have hrecv : p.recvPos = buf.length := by rw [hp]
    have hcur : ¬p.curChunkEnd = -1 := by
      have hnonneg := h.bodyStart_nonneg
      have hstart := h.bodyStart_le
      have hend := h.recvPos_le_chunkEnd
      rw [hp]
      dsimp only
      omega
    have hpos : ((p.recvPos.toNat : ℕ) : ℤ) = buf.length := by rw [hrecv, Int.toNat_natCast]
    rw [readBody_chunks hbody (by rw [hp]; exact h.inChunks) (by dsimp only; omega) (by dsimp only; omega)]
    dsimp only
    rw [hpos]
    refine readChunks_ends (k := if q.finished then 0 else max (buf.length - q.curChunkEnd) 0) ?_
    rw [Call.startChunks, if_neg hcur]
    refine ⟨hs, { h with recvPos_le := Int.le_trans h.recvPos_le hle }, hp, hle, ?_, fun hfin => ?_,
      fun hfin hk => ?_, fun hfin => if_pos hfin, ?_, ?_, rfl⟩
    · split <;> omega
    · rw [hfin, if_neg (by decide)]
      omega
    · rw [hfin, if_neg (by decide)] at hk ⊢
      omega
    · rw [hp]
      exact (Int.sub_self _).symm
    · rw [hp]
      exact (Int.sub_self _).symm
  | plain hs h =>
    have hbody : p.state = .readBody := hstate.trans hs
    have hnonneg := h.recvPos_nonneg
    have hrecv := h.recvPos_eq
    have hrecv_le := h.recvPos_le
    rw [response_body hbody, payloadTotal, protocolTotal, if_pos hbody, if_pos hbody]
    rw [settle, if_pos hs, if_neg (Bool.eq_false_iff.mp h.inChunks)] at hp
    change p = { q with
      recvPos := bodyEnd buf.length q
      finished := decide ({ q with recvPos := bodyEnd buf.length q } : ParserFields).complete } at hp
    have hend : 0 ≤ q.contentLength → bodyEnd buf.length q ≤ q.bodyStartPos + q.contentLength := by
      intro hlength
      rw [bodyEnd, if_pos hlength]
      omega
    have hpos : 0 ≤ bodyEnd buf.length q ∧ bodyEnd buf.length q ≤ buf.length := by
      rw [bodyEnd]
      split <;> omega
    have hafter := hcount.rest hs h.inChunks
    refine AtPlain.ends (r := bodyEnd buf.length q) ⟨hs, { h with recvPos_le := Int.le_trans h.recvPos_le hle }, hp,
      ?_, Int.le_trans hpos.2 hle, hend, of_decide_eq_true, ?_, ?_, rfl⟩ (by omega)
    · rw [hp]
      exact Int.toNat_of_nonneg hpos.1
    · rw [hp]
      dsimp only
      rw [h.chunkHeaderSize]
      omega
    · rw [hp]
      dsimp only
      rw [h.chunkHeaderSize]
      omega
  | error hs => exact absurd hs hq

/-- One call keeps what has been delivered where the machine rests. -/
theorem Delivered.receive {start : ParserFields} {buf' : List UInt8} {s : HttpParser × Received}
    (hsound : Sound buf.length start) (hb : buf <+: buf') (hcount : CountableFrom start buf buf')
    (h : Delivered start buf s) : Delivered start buf' (receive s buf') := by
  by_cases hlength : buf.length = buf'.length
  · obtain rfl := hb.eq_of_length hlength
    have hsame : s.1.recvBuffer = buf → Http.receive s buf = s := by
      intro hbuf
      rw [Http.receive, HttpParser.incoming, if_pos (by rw [hbuf])]
      dsimp only
      rw [Int.add_zero, Int.add_zero, Bool.or_false]
    cases h with
    | failed q h hq hs he hbuf =>
      rw [hsame hbuf]
      exact .failed q h hq hs he hbuf
    | parsed q h hq hp he hbuf hpay hproto =>
      rw [hsame hbuf]
      exact .parsed q h hq hp he hbuf hpay hproto
  · have hlt : buf.length < buf'.length := lt_of_le_of_ne hb.length_le hlength
    cases h with
    | failed q h hq hs he hbuf =>
      have hnext : Settles advance buf' start q :=
        h.resume advance_monotone hb (.refl (advance_errorState hq))
      rw [Http.receive, HttpParser.incoming, hbuf, if_neg hlength, if_pos hs]
      exact .failed q hnext hq hs (Bool.or_true _) rfl
    | parsed q h hq hp he hbuf hpay hproto =>
      have hne : ¬s.1.state = .errorState := by
        rw [hp, settle_state]
        exact hq
      have hends := call_ends (hsound.run h.run) hq h.rest hb hlt (hcount q h) hp
      rw [Http.receive, HttpParser.incoming, hbuf, if_neg hlength, if_neg hne]
      dsimp only
      rw [he, Bool.false_or, hpay, hproto]
      cases hends with
      | fails r hr hrs hstate herr =>
        exact .failed r (h.resume advance_monotone hb hr) hrs hstate herr rfl
      | settles r hr hrs hparser herr hpay' hproto' =>
        refine .parsed r (h.resume advance_monotone hb hr) hrs hparser herr rfl ?_ ?_
        · dsimp only
          rw [hpay']
          omega
        · dsimp only
          rw [hproto']
          omega

/-- A parser that has not been given a buffer yet: a new one, or one that has been reset. -/
inductive HttpParser.Fresh : HttpParser → Prop
  | new (dontParseChunks : Bool) : Fresh (.new dontParseChunks)
  | reset (p : HttpParser) : Fresh p.reset

/-- The buffers are growing prefixes of the last one. -/
def Fragments (bufs : List (List UInt8)) (buf : List UInt8) : Prop :=
  bufs.IsChain (· <+: ·) ∧ bufs.getLast? = some buf

theorem HttpParser.Fresh.delivered {p : HttpParser} (hp : p.Fresh) :
    Sound 0 p.toParserFields ∧ Delivered p.toParserFields [] (p, {}) := by
  have hstate : p.state = .readStatus := by cases hp <;> rfl
  have hlines : InLines 0 p.toParserFields := by
    cases hp <;> exact ⟨Int.le_refl 0, Int.le_refl 0, rfl, rfl, rfl, rfl⟩
  have hbody : p.state ≠ .readBody := by rw [hstate]; decide
  have hrest : advance [] p.toParserFields = none := by
    rw [advance, hstate]
    dsimp only
    rw [nextLine_drop_all (Nat.zero_le _), Option.map_none]
  refine ⟨.lines (.inl hstate) hlines, .parsed _ (.refl hrest) (by rw [hstate]; decide) ?_ rfl ?_ ?_ ?_⟩
  · rw [settle, if_neg hbody]
  · cases hp <;> rfl
  · rw [payloadTotal, if_neg hbody]
  · rw [protocolTotal, if_neg hbody]
    rfl

/-- Calls with growing buffers. -/
theorem Delivered.foldl {start : ParserFields} {s : HttpParser × Received} {bufs : List (List UInt8)}
    (hsound : Sound 0 start) (h : Delivered start buf s) (hchain : (buf :: bufs).IsChain (· <+: ·))
    (hcount : (buf :: bufs).IsChain (CountableFrom start)) :
    Delivered start ((buf :: bufs).getLast (List.cons_ne_nil _ _)) (bufs.foldl Http.receive s) := by
  induction bufs generalizing buf s with
  | nil => exact h
  | cons buf' bufs ih =>
    obtain ⟨hb, hrest⟩ := List.isChain_cons_cons.mp hchain
    obtain ⟨hfirst, hcounts⟩ := List.isChain_cons_cons.mp hcount
    have hnext := h.receive (hsound.mono (Int.natCast_nonneg _)) hb hfirst
    rw [List.getLast_cons (List.cons_ne_nil _ _)]
    exact ih hnext hrest hcounts

theorem deliver_delivered {p : HttpParser} (hp : p.Fresh) {bufs : List (List UInt8)} (h : Fragments bufs buf)
    (hcount : ([] :: bufs).IsChain (CountableFrom p.toParserFields)) :
    Delivered p.toParserFields buf (p.deliver bufs) := by
  obtain ⟨hsound, hstart⟩ := hp.delivered
  obtain ⟨hchain, hlast⟩ := h
  cases bufs with
  | nil => cases hlast
  | cons b bufs =>
    have hall := hstart.foldl hsound (List.isChain_cons_cons.mpr ⟨List.nil_prefix, hchain⟩) hcount
    rw [List.getLast_cons (List.cons_ne_nil _ _)] at hall
    rw [List.getLast?_eq_some_getLast (List.cons_ne_nil _ _)] at hlast
    obtain rfl := Option.some.inj hlast
    exact hall

/-- The fragments are prefixes of the whole buffer. -/
theorem Fragments.isPrefix {bufs : List (List UInt8)} (h : Fragments bufs buf) {b : List UInt8} (hb : b ∈ [] :: bufs) :
    b <+: buf := by
  obtain ⟨hchain, hlast⟩ := h
  obtain rfl | hb := List.mem_cons.mp hb
  · exact List.nil_prefix
  rw [List.getLast?_eq_some_getLast (List.ne_nil_of_mem hb)] at hlast
  rw [← Option.some.inj hlast]
  exact hchain.pairwise.rel_getLast hb

/-- Every fragment extends the one before. -/
theorem Fragments.isChain {bufs : List (List UInt8)} (h : Fragments bufs buf) : ([] :: bufs).IsChain (· <+: ·) := by
  cases bufs with
  | nil => exact .singleton _
  | cons b bufs => exact List.isChain_cons_cons.mpr ⟨List.nil_prefix, h.1⟩

theorem Sound.bodyEnd_nonneg {n : ℕ} (h : Sound n q) (hs : q.state = .readBody) (hc : q.inChunks = false) :
    0 ≤ bodyEnd n q := by
  cases h with
  | lines hs' h => obtain hs' | hs' := hs' <;> rw [hs] at hs' <;> cases hs'
  | chunks hs' h =>
    rw [h.inChunks] at hc
    cases hc
  | plain hs' h =>
    have hpos := h.recvPos_nonneg
    have hstart := h.recvPos_eq
    rw [bodyEnd]
    split <;> omega
  | error hs' =>
    rw [hs] at hs'
    cases hs'

/-- Buffers below 2 GiB can be counted. -/
theorem Fragments.countable {start : ParserFields} {bufs : List (List UInt8)} (h : Fragments bufs buf)
    (hsound : Sound 0 start) (hlt : buf.length < 2 ^ 31) : ([] :: bufs).IsChain (CountableFrom start) := by
  refine h.isChain.imp_of_mem_imp fun b b' _ hb' _ q hq => ?_
  have hle := (h.isPrefix hb').length_le
  have hq' : Sound b.length q := (hsound.mono (Int.natCast_nonneg _)).run hq.run
  refine ⟨by omega, fun hs hc => ?_⟩
  have := hq'.bodyEnd_nonneg hs hc
  omega

/-- **The fragments make no difference**: however a buffer below 2 GiB is delivered, there is an error if there is one
when it comes in one call, and without an error the parser and the counted bytes are the same. -/
theorem deliver_fragments {p : HttpParser} (hp : p.Fresh) {bufs : List (List UInt8)} {buf : List UInt8}
    (hlt : buf.length < 2 ^ 31) (h : Fragments bufs buf) :
    (p.deliver bufs).2.error = (p.deliver [buf]).2.error ∧
      ((p.deliver bufs).2.error = false → p.deliver bufs = p.deliver [buf]) := by
  have hwhole : Fragments [buf] buf := ⟨.singleton _, rfl⟩
  have hone := deliver_delivered hp hwhole (hwhole.countable hp.delivered.1 hlt)
  have hmany := deliver_delivered hp h (h.countable hp.delivered.1 hlt)
  generalize p.deliver bufs = s at hmany ⊢
  generalize p.deliver [buf] = t at hone ⊢
  cases hmany with
  | failed q hs hq _ he _ =>
    cases hone with
    | failed r ht hr _ he' _ => exact ⟨he.trans he'.symm, fun hno => absurd (he.symm.trans hno) (by decide)⟩
    | parsed r ht hr => exact absurd (hs.unique ht ▸ hq) hr
  | parsed q hs hq hp he hb hpay hproto =>
    cases hone with
    | failed r ht hr => exact absurd (ht.unique hs ▸ hr) hq
    | parsed r ht hr hp' he' hb' hpay' hproto' =>
      obtain rfl := hs.unique ht
      refine ⟨he.trans he'.symm, fun _ => ?_⟩
      obtain ⟨⟨fields, recvBuffer⟩, payload, protocol, error⟩ := s
      obtain ⟨⟨fields', recvBuffer'⟩, payload', protocol', error'⟩ := t
      obtain rfl : fields = fields' := hp.trans hp'.symm
      obtain rfl : recvBuffer = recvBuffer' := hb.trans hb'.symm
      obtain rfl : payload = payload' := hpay.trans hpay'.symm
      obtain rfl : protocol = protocol' := hproto.trans hproto'.symm
      obtain rfl : error = error' := he.trans he'.symm
      rfl

/-- A response with one chunk of two bytes. -/
def chunkedResponse : List UInt8 :=
  chars ['H', 'T', 'T', 'P', '/', '1', '.', '1', ' ', '2', '0', '0', '\n', 'T', 'r', 'a', 'n', 's', 'f', 'e', 'r', '-',
    'E', 'n', 'c', 'o', 'd', 'i', 'n', 'g', ':', ' ', 'c', 'h', 'u', 'n', 'k', 'e', 'd', '\n', '\n', '2', '\n', 'a', 'b',
    '\n', '0', '\n', '\n']

/-- It comes cut within its status line, its first chunk header and the chunk. -/
theorem deliver_fragments_chunked :
    (HttpParser.new false).deliver [chunkedResponse.take 7, chunkedResponse.take 42, chunkedResponse.take 44,
      chunkedResponse] = (HttpParser.new false).deliver [chunkedResponse] :=
  (deliver_fragments (.new false) (by decide +kernel) ⟨by decide +kernel, rfl⟩).2 (by decide +kernel)

/-- A response without a length. -/
def plainHeader : List UInt8 := chars ['H', 'T', 'T', 'P', '/', '1', '.', '1', ' ', '2', '0', '0', '\n', '\n']

/-- A response with `n` bytes of plain body. -/
def plainResponse (n : ℕ) : List UInt8 := plainHeader ++ List.replicate n 0

/-- The parser is in a body of no length that is not looked into, after a number of bytes. -/
structure InBody (r n : ℕ) (s : HttpParser × Received) : Prop where
  state : s.1.state = .readBody
  inChunks : s.1.inChunks = false
  contentLength : s.1.contentLength = -1
  recvPos : s.1.recvPos = r
  length : s.1.recvBuffer.length = n
  error : s.2.error = false

theorem InBody.receive {r n : ℕ} {s : HttpParser × Received} (h : InBody r n s) (hn : n ≠ buf.length) {m : ℕ}
    (hm : toInt (buf.length - r) = m) : InBody (r + m) buf.length (receive s buf) := by
  obtain ⟨hstate, hc, hlen, hpos, hbuf, herror⟩ := h
  have hne : ¬s.1.state = .errorState := by rw [hstate]; decide
  have hchunks : ¬s.1.inChunks = true := by rw [hc]; decide
  have hunknown : ¬0 ≤ s.1.contentLength := by rw [hlen]; decide
  rw [Http.receive, HttpParser.incoming, hbuf, if_neg hn, if_neg hne, response_body hstate, readBody, if_pos hstate]
  dsimp only
  rw [hpos, Int.toNat_natCast, hm, if_neg hchunks, readPlain]
  dsimp only
  rw [if_neg fun h => hunknown h.2.1, if_neg fun h => hunknown h.2, hpos]
  exact ⟨hstate, hc, hlen, rfl, rfl, by rw [herror]; rfl⟩

theorem inBody_plainHeader : InBody 14 14 (receive (HttpParser.new false, {}) plainHeader) := by
  constructor <;> decide +kernel

theorem length_plainResponse (n : ℕ) : (plainResponse n).length = 14 + n := by
  rw [plainResponse, List.length_append, List.length_replicate]
  rfl

theorem plainResponse_isPrefix {m n : ℕ} (h : m ≤ n) : plainResponse m <+: plainResponse n := by
  obtain ⟨k, rfl⟩ := Nat.exists_eq_add_of_le h
  rw [plainResponse, plainResponse, List.replicate_add, ← List.append_assoc]
  exact List.prefix_append _ _

/-- The body comes in one call. -/
theorem inBody_whole {n m : ℕ} (hn : 0 < n) (hm : toInt n = m) :
    InBody (14 + m) (plainResponse n).length ((HttpParser.new false).deliver [plainHeader, plainResponse n]) := by
  have hlen := length_plainResponse n
  have hnew : ((plainResponse n).length : ℤ) - (14 : ℕ) = n := by omega
  exact inBody_plainHeader.receive (by omega) (by rw [hnew, hm])

/-- A part of the body that can be counted. -/
theorem InBody.receive_part {s : HttpParser × Received} {m n : ℕ} (h : InBody (14 + m) (14 + m) s) (hn : 0 < n)
    (hlt : n < 2 ^ 31) : InBody (14 + (m + n)) (14 + (m + n)) (Http.receive s (plainResponse (m + n))) := by
  have hlen := length_plainResponse (m + n)
  have hnew : ((plainResponse (m + n)).length : ℤ) - (14 + m : ℕ) = n := by omega
  have hcut : toInt ((plainResponse (m + n)).length - (14 + m : ℕ)) = n := by
    rw [hnew]
    exact toInt_of_lt (by omega) (by omega)
  have hnext := h.receive (by omega) hcut
  rwa [Nat.add_assoc, hlen] at hnext

/-- The body comes in four calls. -/
theorem inBody_parts {n : ℕ} (hn : 0 < n) (hlt : n < 2 ^ 31) :
    InBody (14 + (0 + n + n + n + n)) (14 + (0 + n + n + n + n)) ((HttpParser.new false).deliver
      [plainHeader, plainResponse (0 + n), plainResponse (0 + n + n), plainResponse (0 + n + n + n),
        plainResponse (0 + n + n + n + n)]) := by
  have hstart : InBody (14 + 0) (14 + 0) (Http.receive (HttpParser.new false, {}) plainHeader) := inBody_plainHeader
  exact (((hstart.receive_part hn hlt).receive_part hn hlt).receive_part hn hlt).receive_part hn hlt

/-- The bytes of a body of 4 GiB are not counted when it comes in one call. -/
theorem not_deliver_fragments : ¬ ∀ p : HttpParser, p.Fresh → ∀ bufs buf, Fragments bufs buf →
    (p.deliver bufs).2.error = (p.deliver [buf]).2.error ∧
      ((p.deliver bufs).2.error = false → p.deliver bufs = p.deliver [buf]) := by
  intro h
  obtain ⟨n, hn⟩ : ∃ n : ℕ, n = 2 ^ 30 := ⟨_, rfl⟩
  have hnext : ∀ m, plainResponse m <+: plainResponse (m + n) := fun m => plainResponse_isPrefix (Nat.le_add_right m n)
  have hheader : ∀ m, plainHeader <+: plainResponse m := fun m => List.prefix_append _ _
  have hparts := inBody_parts (n := n) (by omega) (by omega)
  have hcut : toInt (0 + n + n + n + n : ℕ) = (0 : ℕ) := by
    rw [hn]
    decide
  have hwhole := inBody_whole (n := 0 + n + n + n + n) (by omega) hcut
  have hone := (h _ (.new false) [plainHeader, plainResponse (0 + n + n + n + n)] (plainResponse (0 + n + n + n + n))
    ⟨List.isChain_cons_cons.mpr ⟨hheader _, .singleton _⟩, rfl⟩).2 hwhole.error
  have hmany := (h _ (.new false) [plainHeader, plainResponse (0 + n), plainResponse (0 + n + n),
    plainResponse (0 + n + n + n), plainResponse (0 + n + n + n + n)] (plainResponse (0 + n + n + n + n))
    ⟨List.isChain_cons_cons.mpr ⟨hheader _, List.isChain_cons_cons.mpr ⟨hnext _, List.isChain_cons_cons.mpr
      ⟨hnext _, List.isChain_cons_cons.mpr ⟨hnext _, .singleton _⟩⟩⟩⟩, rfl⟩).2 hparts.error
  have hpos := hparts.recvPos
  rw [hmany, ← hone, hwhole.recvPos] at hpos
  omega

end Http

end LibtorrentSN
