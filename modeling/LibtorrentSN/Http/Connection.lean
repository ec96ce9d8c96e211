import LibtorrentSN.Http.Chunks

/-!
# The receive buffer of an HTTP connection

`http_connection` reads a response into a buffer that starts with 4096 bytes and doubles when it is full, up to a
limit (`src/http_connection.cpp`). A timeout that goes to another endpoint keeps the read position, and the buffer starts
with 4096 bytes again. No rate limit is set anywhere, and an operation that has completed when its socket is closed is
left out.
-/

namespace LibtorrentSN

namespace Http

/-- An error that is handed to `callback`. -/
inductive HttpError
  | eof
  | system
  | httpParseError
  | httpMissingLocation
  | badUrl
  | fileTooLarge
  deriving DecidableEq

/-- The asynchronous operation that is under way. -/
inductive Waiting
  | write
  -- with the number of bytes that are asked for
  | read (amount : ℕ)
  | nothing
  deriving DecidableEq

structure HttpConnection where
  bottled : Bool
  maxBottledBufferSize : ℤ
  redirects : ℤ
  parser : HttpParser := .new false
  -- the size of the buffer, and its bytes up to the read position
  recvbuffer : ℕ := 0
  received : List UInt8 := []
  called : Bool := false
  -- what the handler has been called with
  results : List (Option HttpError) := []
  waiting : Waiting := .write

/-- Conversion to `std::size_t`. -/
def toSize (n : ℤ) : ℕ := (n % 2 ^ 64).toNat

def isRedirect (httpStatus : ℤ) : Bool := 300 ≤ httpStatus ∧ httpStatus < 400

namespace HttpParser

def headerFinished (p : HttpParser) : Bool := p.state = .readBody

/-- `header`: the first value of a name, or nothing. -/
def headerValue (p : HttpParser) (key : List UInt8) : List UInt8 := (p.header.lookup key).getD []

end HttpParser

namespace HttpConnection

variable (s : HttpConnection)

def readPos : ℤ := s.received.length

/-- The handler is called, but only once for a bottled response. An error at the end of a whole response is not told. -/
def callback (e : Option HttpError) (data : List UInt8) : HttpConnection :=
  if s.bottled ∧ s.called then s
  else
    let e := if data ≠ [] ∧ s.bottled ∧ s.parser.headerFinished ∧ s.parser.finished then none else e
    { s with called := true, results := s.results ++ [e] }

/-- `callback` before a return. -/
def stop (e : HttpError) (data : List UInt8) : HttpConnection := { s.callback (some e) data with waiting := .nothing }

/-- `get` for a redirect: `start` resets the connection, unless the location can't be used. -/
def redirect (urlOk : Bool) : HttpConnection :=
  if urlOk then
    { s with
      redirects := s.redirects - 1
      called := false
      parser := s.parser.reset
      recvbuffer := 0
      received := []
      waiting := .write }
  else s.stop .badUrl []

def onWrite : HttpConnection :=
  { s with recvbuffer := 4096, waiting := .read (toSize (4096 - s.readPos)) }

/-- The bytes after the header. -/
def body : List UInt8 := s.received.drop s.parser.bodyStartPos.toNat

/-- `on_read` up to the test of the limit, and whether it gets there. -/
def takeBytes (bytes : List UInt8) (urlOk : Bool) : HttpConnection × Bool :=
  let s := { s with received := s.received ++ bytes }
  if s.bottled ∨ ¬ s.parser.headerFinished then
    let (parser, r) := s.parser.incoming s.received
    let s := { s with parser }
    if r.error then (s.stop .httpParseError [], false)
    else if s.redirects ≠ 0 ∧ s.parser.headerFinished ∧ isRedirect s.parser.statusCode then
      if s.parser.headerValue (chars ['l', 'o', 'c', 'a', 't', 'i', 'o', 'n']) = [] then
        (s.stop .httpMissingLocation [], false)
      else (s.redirect urlOk, false)
    else
      let s := if s.parser.headerFinished then { s with redirects := 0 } else s
      if ¬ s.bottled ∧ s.parser.headerFinished then
        let s := if s.parser.bodyStartPos < s.readPos then s.callback none s.body else s
        ({ s with received := [] }, true)
      else if s.bottled ∧ s.parser.finished then (s.callback none s.body, true)
      else (s, true)
  else ({ s.callback none s.received with received := [] }, true)

/-- A full buffer is doubled. -/
def grow : HttpConnection :=
  if toInt s.recvbuffer = s.readPos then
    { s with recvbuffer := toSize (min (toInt (s.readPos * 2)) s.maxBottledBufferSize) } else s

/-- The end of `on_read`. -/
def ask : HttpConnection :=
  if s.readPos = s.maxBottledBufferSize then s.stop .fileTooLarge []
  else { s with waiting := .read (toSize (toInt s.recvbuffer - s.readPos)) }

def onRead (bytes : List UInt8) (urlOk : Bool) : HttpConnection :=
  let (s, goesOn) := s.takeBytes bytes urlOk
  if goesOn then s.grow.ask else s

/-- `on_read` at the end of the stream. -/
def onEof : HttpConnection :=
  s.stop .eof (if s.bottled ∧ s.parser.headerFinished then s.parser.getBody else [])

/-- `on_timeout` with an endpoint left: the socket is closed, which cancels its operation, and the next connection is
made. What has been read stays. -/
def onTimeout : HttpConnection := { s with waiting := .write }

/-- A step of a connection, where a timeout may go to the next endpoint in some states. -/
inductive Step (mayTimeOut : HttpConnection → Prop) (s : HttpConnection) : HttpConnection → Prop
  | onWrite (hw : s.waiting = .write) : Step mayTimeOut s s.onWrite
  | onRead {amount : ℕ} (hw : s.waiting = .read amount) (bytes : List UInt8) (hlen : bytes.length ≤ amount)
      (urlOk : Bool) : Step mayTimeOut s (s.onRead bytes urlOk)
  | onEof {amount : ℕ} (hw : s.waiting = .read amount) : Step mayTimeOut s s.onEof
  | onTimeout (hw : s.waiting ≠ .nothing) (ht : mayTimeOut s) : Step mayTimeOut s s.onTimeout
  -- the name can't be resolved, no connection can be made, the operation fails, or the last endpoint times out
  | fails (hw : s.waiting ≠ .nothing) : Step mayTimeOut s (s.stop .system [])
  | close : Step mayTimeOut s { s with waiting := .nothing }
  -- `callback` collapses the chunks of a bottled response in place
  | collapse (hb : s.bottled) (hc : s.called) (received : List UInt8) (hlen : received.length = s.received.length) :
      Step mayTimeOut s { s with received }

/-- The states of a connection with a limit. -/
inductive Reached (mayTimeOut : HttpConnection → Prop) (bottled : Bool) (maxBottledBufferSize redirects : ℤ) :
    HttpConnection → Prop
  | start : Reached mayTimeOut bottled maxBottledBufferSize redirects { bottled, maxBottledBufferSize, redirects }
  | step {s s' : HttpConnection} (hs : Reached mayTimeOut bottled maxBottledBufferSize redirects s)
      (h : Step mayTimeOut s s') : Reached mayTimeOut bottled maxBottledBufferSize redirects s'

/-- The reads that are asked for stay in the buffer, the buffer stays in its bound, and a response that reaches the
limit is told to the handler, if it has not got the response already. -/
structure Bounded : Prop where
  read : ∀ amount, s.waiting = .read amount → 0 < amount ∧ s.readPos + amount ≤ s.recvbuffer
  size : (s.recvbuffer : ℤ) ≤ max 4096 s.maxBottledBufferSize
  tooLarge : ∀ amount bytes urlOk s', s.waiting = .read amount → bytes.length ≤ amount →
    s.takeBytes bytes urlOk = (s', true) → s.maxBottledBufferSize ≤ s'.readPos →
      (s.onRead bytes urlOk).waiting = .nothing ∧
        (s.onRead bytes urlOk).results = if s'.bottled ∧ s'.called then s'.results else s'.results ++ [some .fileTooLarge]

variable {s} {s' : HttpConnection} {mayTimeOut : HttpConnection → Prop} {bottled : Bool} {limit redirects : ℤ}
  {bytes : List UInt8} {urlOk : Bool}

/-! ### Within the limits -/

/-- The fields of the buffer stay. -/
structure SameBuffer (s s' : HttpConnection) : Prop where
  maxBottledBufferSize : s'.maxBottledBufferSize = s.maxBottledBufferSize
  recvbuffer : s'.recvbuffer = s.recvbuffer
  received : s'.received = s.received

theorem callback_sameBuffer (e : Option HttpError) (data : List UInt8) : SameBuffer s (s.callback e data) := by
  rw [callback]
  split <;> exact ⟨rfl, rfl, rfl⟩

theorem stop_sameBuffer (e : HttpError) (data : List UInt8) : SameBuffer s (s.stop e data) := by
  obtain ⟨hmax, hbuffer, hreceived⟩ := @callback_sameBuffer s (some e) data
  exact ⟨hmax, hbuffer, hreceived⟩

/-- The outcomes of the first part of `on_read`: nothing is awaited, the connection starts again, or it goes on, with
the bytes it has or with none. -/
inductive TakeEnd (s : HttpConnection) (bytes : List UInt8) : HttpConnection × Bool → Prop
  | stops (s' : HttpConnection) (hmax : s'.maxBottledBufferSize = s.maxBottledBufferSize)
      (hbuffer : s'.recvbuffer = s.recvbuffer) (hw : s'.waiting = .nothing) : TakeEnd s bytes (s', false)
  | restarts (s' : HttpConnection) (hmax : s'.maxBottledBufferSize = s.maxBottledBufferSize)
      (hbuffer : s'.recvbuffer = 0) (hreceived : s'.received = []) (hw : s'.waiting = .write) :
      TakeEnd s bytes (s', false)
  | goesOn (s' : HttpConnection) (hmax : s'.maxBottledBufferSize = s.maxBottledBufferSize)
      (hbuffer : s'.recvbuffer = s.recvbuffer) (hreceived : s'.received = s.received ++ bytes ∨ s'.received = []) :
      TakeEnd s bytes (s', true)

theorem SameBuffer.stops {s₁ : HttpConnection} (h : SameBuffer { s with received := s.received ++ bytes } s₁)
    (e : HttpError) (data : List UInt8) : TakeEnd s bytes (s₁.stop e data, false) := by
  obtain ⟨hmax, hbuffer, -⟩ := @stop_sameBuffer s₁ e data
  exact .stops _ (hmax.trans h.maxBottledBufferSize) (hbuffer.trans h.recvbuffer) rfl

theorem SameBuffer.calls {s₁ : HttpConnection} (h : SameBuffer { s with received := s.received ++ bytes } s₁)
    (e : Option HttpError) (data : List UInt8) : SameBuffer { s with received := s.received ++ bytes } (s₁.callback e data) := by
  obtain ⟨hmax, hbuffer, hreceived⟩ := @callback_sameBuffer s₁ e data
  exact ⟨hmax.trans h.maxBottledBufferSize, hbuffer.trans h.recvbuffer, hreceived.trans h.received⟩

theorem SameBuffer.goesOn {s₁ : HttpConnection} (h : SameBuffer { s with received := s.received ++ bytes } s₁) :
    TakeEnd s bytes (s₁, true) :=
  .goesOn _ h.maxBottledBufferSize h.recvbuffer (.inl h.received)

/-- After the handler has had the bytes of a response that is not bottled. -/
theorem SameBuffer.consumed {s₁ : HttpConnection} (h : SameBuffer { s with received := s.received ++ bytes } s₁) :
    TakeEnd s bytes ({ s₁ with received := [] }, true) :=
  .goesOn _ h.maxBottledBufferSize h.recvbuffer (.inr rfl)

theorem takeBytes_ends : TakeEnd s bytes (s.takeBytes bytes urlOk) := by
  rw [takeBytes]
  dsimp only
  split
  · generalize s.parser.incoming (s.received ++ bytes) = r
    obtain ⟨parser, r⟩ := r
    dsimp only
    have hparser : SameBuffer { s with received := s.received ++ bytes } { s with received := s.received ++ bytes, parser } :=
      ⟨rfl, rfl, rfl⟩
    split
    · exact hparser.stops _ _
    split
    · split
      · exact hparser.stops _ _
      · rw [redirect]
        split
        · exact .restarts _ rfl rfl rfl rfl
        · exact hparser.stops _ _
    -- the redirects are over once the header is finished
    generalize hs₁ : (if parser.headerFinished = true then _ else _ : HttpConnection) = s₁
    have hsame : SameBuffer { s with received := s.received ++ bytes } s₁ := by
      rw [← hs₁]
      split <;> exact ⟨rfl, rfl, rfl⟩
    split
    · split
      · exact (hsame.calls _ _).consumed
      · exact hsame.consumed
    split
    · exact (hsame.calls _ _).goesOn
    · exact hsame.goesOn
  · have hsame : SameBuffer { s with received := s.received ++ bytes } { s with received := s.received ++ bytes } :=
      ⟨rfl, rfl, rfl⟩
    exact (hsame.calls _ _).consumed

theorem toSize_of_nonneg {n : ℤ} (hlow : 0 ≤ n) (hhigh : n < 2 ^ 64) : (toSize n : ℤ) = n := by
  rw [toSize, Int.emod_eq_of_lt hlow hhigh, Int.toNat_of_nonneg hlow]

/-- The invariant under a limit that is not below the first size of the buffer. -/
structure Inv (limit : ℤ) (s : HttpConnection) : Prop where
  limit_eq : s.maxBottledBufferSize = limit
  size : (s.recvbuffer : ℤ) ≤ limit
  writing : s.waiting = .write → s.readPos < 4096
  reading : ∀ amount, s.waiting = .read amount →
    4096 ≤ s.recvbuffer ∧ s.readPos < s.recvbuffer ∧ (amount : ℤ) = s.recvbuffer - s.readPos

theorem Inv.of_nothing (hmax : s.maxBottledBufferSize = limit) (hsize : (s.recvbuffer : ℤ) ≤ limit)
    (hw : s.waiting = .nothing) : Inv limit s := by
  refine ⟨hmax, hsize, fun hwrite => ?_, fun amount hread => ?_⟩
  · rw [hw] at hwrite
    cases hwrite
  · rw [hw] at hread
    cases hread

theorem Inv.stop (hmax : s.maxBottledBufferSize = limit) (hsize : (s.recvbuffer : ℤ) ≤ limit) (e : HttpError)
    (data : List UInt8) : Inv limit (s.stop e data) := by
  obtain ⟨hmax', hbuffer, -⟩ := @stop_sameBuffer s e data
  exact .of_nothing (hmax'.trans hmax) (hbuffer ▸ hsize) rfl

theorem stop_results (e : HttpError) : (s.stop e []).results =
    if s.bottled ∧ s.called then s.results else s.results ++ [some e] := by
  rw [stop, callback]
  split
  · rfl
  · rw [if_neg fun h => h.1 rfl]

theorem grow_same : s.grow.maxBottledBufferSize = s.maxBottledBufferSize ∧ s.grow.received = s.received ∧
    s.grow.parser = s.parser ∧ s.grow.bottled = s.bottled ∧ s.grow.called = s.called ∧ s.grow.results = s.results := by
  rw [grow]
  split <;> exact ⟨rfl, rfl, rfl, rfl, rfl, rfl⟩

/-- The buffer is larger than what it holds then, unless the limit is reached. -/
theorem grow_recvbuffer (hhigh : s.maxBottledBufferSize < 2 ^ 30) (hlow : 4096 ≤ s.recvbuffer)
    (hsize : (s.recvbuffer : ℤ) ≤ s.maxBottledBufferSize) (hpos : s.readPos ≤ s.recvbuffer) :
    4096 ≤ s.grow.recvbuffer ∧ (s.grow.recvbuffer : ℤ) ≤ s.maxBottledBufferSize ∧
      (s.readPos ≠ s.maxBottledBufferSize → s.readPos < s.grow.recvbuffer) := by
  have hnonneg : 0 ≤ s.readPos := Int.natCast_nonneg _
  rw [grow, toInt_of_lt (by omega) (by omega)]
  split
  · next hfull =>
    have hsize' : (toSize (min (toInt (s.readPos * 2)) s.maxBottledBufferSize) : ℤ) =
        min (s.readPos * 2) s.maxBottledBufferSize := by
      rw [toInt_of_lt (by omega) (by omega), toSize_of_nonneg (by omega) (by omega)]
    dsimp only
    omega
  · exact ⟨hlow, hsize, fun _ => by omega⟩

/-- The next read is within the buffer then, or the limit is reported. -/
theorem Inv.ask (hmax : s.maxBottledBufferSize = limit) (hhigh : limit < 2 ^ 30) (hlow : 4096 ≤ s.recvbuffer)
    (hsize : (s.recvbuffer : ℤ) ≤ limit) (hpos : s.readPos ≠ limit → s.readPos < s.recvbuffer) : Inv limit s.ask := by
  rw [HttpConnection.ask]
  split
  · exact .stop hmax hsize _ _
  · next hne =>
    have hnonneg : 0 ≤ s.readPos := Int.natCast_nonneg _
    have hlt := hpos (hmax ▸ hne)
    have hamount : (toSize (toInt s.recvbuffer - s.readPos) : ℤ) = s.recvbuffer - s.readPos := by
      rw [toInt_of_lt (by omega) (by omega), toSize_of_nonneg (by omega) (by omega)]
    generalize toSize (toInt s.recvbuffer - s.readPos) = n at hamount ⊢
    refine { limit_eq := hmax, size := hsize, writing := fun hw => ?_, reading := fun amount hw => ?_ }
    · cases hw
    · obtain rfl := Waiting.read.inj hw
      exact ⟨hlow, hlt, hamount⟩

theorem Inv.readMore (hmax : s.maxBottledBufferSize = limit) (hhigh : limit < 2 ^ 30) (hlow : 4096 ≤ s.recvbuffer)
    (hsize : (s.recvbuffer : ℤ) ≤ limit) (hpos : s.readPos ≤ s.recvbuffer) : Inv limit s.grow.ask := by
  subst hmax
  obtain ⟨hlow', hsize', hroom⟩ := grow_recvbuffer hhigh hlow hsize hpos
  obtain ⟨hmax, hreceived, -⟩ := @grow_same s
  have hread : s.grow.readPos = s.readPos := by rw [readPos, hreceived, readPos]
  rw [← hread] at hroom
  exact .ask hmax hhigh hlow' hsize' hroom

theorem ask_limit (h : s.readPos = s.maxBottledBufferSize) : s.ask.waiting = .nothing ∧
    s.ask.results = if s.bottled ∧ s.called then s.results else s.results ++ [some .fileTooLarge] := by
  rw [ask, if_pos h]
  exact ⟨rfl, stop_results _⟩

theorem ask_sameBuffer : SameBuffer s s.ask := by
  rw [ask]
  split
  · exact stop_sameBuffer _ _
  · exact ⟨rfl, rfl, rfl⟩

theorem readMore_limit (h : s.readPos = s.maxBottledBufferSize) : s.grow.ask.waiting = .nothing ∧
    s.grow.ask.results = if s.bottled ∧ s.called then s.results else s.results ++ [some .fileTooLarge] := by
  obtain ⟨hmax, hreceived, -, hbottled, hcalled, hresults⟩ := @grow_same s
  have hread : s.grow.readPos = s.readPos := by rw [readPos, hreceived, readPos]
  rw [← hbottled, ← hcalled, ← hresults]
  exact ask_limit (by rw [hread, hmax, h])

/-- The first part of `on_read` stays in the buffer. -/
theorem readPos_le (hbuffer : s'.recvbuffer = s.recvbuffer)
    (hreceived : s'.received = s.received ++ bytes ∨ s'.received = []) (hroom : s.readPos + bytes.length ≤ s.recvbuffer) :
    s'.readPos ≤ s'.recvbuffer := by
  rw [readPos] at hroom ⊢
  obtain hreceived | hreceived := hreceived
  · rw [hreceived, hbuffer, List.length_append]
    omega
  · rw [hreceived, List.length_nil]
    omega

theorem onRead_eq : s.onRead bytes urlOk =
    if (s.takeBytes bytes urlOk).2 then (s.takeBytes bytes urlOk).1.grow.ask else (s.takeBytes bytes urlOk).1 := rfl

theorem Inv.step (hlow : 4096 ≤ limit) (hhigh : limit < 2 ^ 30)
    (hearly : s.waiting ≠ .nothing → mayTimeOut s → s.readPos < 4096) (h : Inv limit s) (hstep : Step mayTimeOut s s') :
    Inv limit s' := by
  obtain ⟨hmax, hsize, hwriting, hreading⟩ := h
  cases hstep with
  | onWrite hw =>
    have hread : s.readPos < 4096 := hwriting hw
    have hnonneg : 0 ≤ s.readPos := Int.natCast_nonneg _
    have hamount : (toSize (4096 - s.readPos) : ℤ) = 4096 - s.readPos := toSize_of_nonneg (by omega) (by omega)
    rw [HttpConnection.onWrite]
    generalize toSize (4096 - s.readPos) = n at hamount ⊢
    refine { limit_eq := hmax, size := hlow, writing := fun hw' => ?_, reading := fun amount hw' => ?_ }
    · cases hw'
    · obtain rfl := Waiting.read.inj hw'
      change _ ∧ s.readPos < ((4096 : ℕ) : ℤ) ∧ _ = ((4096 : ℕ) : ℤ) - s.readPos
      exact ⟨Nat.le_refl _, hread, hamount⟩
  | onRead hw bytes hlen urlOk =>
    obtain ⟨hbuffer, hpos, hamount⟩ := hreading _ hw
    have hend := @takeBytes_ends s bytes urlOk
    rw [onRead_eq]
    generalize s.takeBytes bytes urlOk = r at hend ⊢
    cases hend with
    | stops s₁ hmax' hbuffer' hw' => exact .of_nothing (hmax'.trans hmax) (hbuffer' ▸ hsize) hw'
    | restarts s₁ hmax' hbuffer' hreceived' hw' =>
      rw [if_neg Bool.false_ne_true]
      refine { limit_eq := hmax'.trans hmax, size := ?_, writing := fun _ => ?_, reading := fun amount hread => ?_ }
      · rw [hbuffer']
        omega
      · rw [readPos, hreceived']
        decide
      · rw [hw'] at hread
        cases hread
    | goesOn s₁ hmax' hbuffer' hreceived' =>
      have hpos' := readPos_le hbuffer' hreceived' (by omega)
      rw [if_pos rfl]
      exact @Inv.readMore s₁ limit (hmax'.trans hmax) hhigh (by omega) (by omega) hpos'
  | onEof hw => exact .stop hmax hsize _ _
  | onTimeout hw ht =>
    refine { limit_eq := hmax, size := hsize, writing := fun _ => hearly hw ht, reading := fun amount hw' => ?_ }
    cases hw'
  | fails hw => exact .stop hmax hsize _ _
  | close => exact .of_nothing hmax hsize rfl
  | collapse hb hc received hlen =>
    have hread : { s with received }.readPos = s.readPos := by rw [readPos, readPos, hlen]
    refine { limit_eq := hmax, size := hsize, writing := fun hw => ?_, reading := fun amount hw => ?_ }
    · rw [hread]
      exact hwriting hw
    · rw [hread]
      exact hreading amount hw

/-- No timeout goes to another endpoint when the first 4096 bytes have been read. -/
def TimesOutEarly (mayTimeOut : HttpConnection → Prop) (bottled : Bool) (limit redirects : ℤ) : Prop :=
  ∀ s, Reached mayTimeOut bottled limit redirects s → s.waiting ≠ .nothing → mayTimeOut s → s.readPos < 4096

theorem Reached.inv (hlow : 4096 ≤ limit) (hhigh : limit < 2 ^ 30)
    (hearly : TimesOutEarly mayTimeOut bottled limit redirects) (hs : Reached mayTimeOut bottled limit redirects s) :
    Inv limit s := by
  induction hs with
  | start =>
    refine { limit_eq := rfl, size := ?_, writing := fun _ => ?_, reading := fun amount hw => ?_ }
    · change (0 : ℤ) ≤ limit
      omega
    · change (0 : ℤ) < 4096
      decide
    · cases hw
  | step hs h ih => exact ih.step hlow hhigh (hearly _ hs) h

theorem Inv.bounded (hlow : 4096 ≤ limit) (h : Inv limit s) : Bounded s := by
  obtain ⟨hmax, hsize, -, hreading⟩ := h
  refine { read := fun amount hw => ?_, size := ?_, tooLarge := fun amount bytes urlOk s' hw hlen htake hle => ?_ }
  · obtain ⟨-, hpos, hamount⟩ := hreading amount hw
    omega
  · omega
  · obtain ⟨-, hpos, hamount⟩ := hreading amount hw
    have hend := @takeBytes_ends s bytes urlOk
    rw [htake] at hend
    cases hend with
    | goesOn _ hmax' hbuffer hreceived =>
      have hpos' := readPos_le hbuffer hreceived (by omega)
      rw [onRead_eq, htake, if_pos rfl]
      dsimp only
      exact readMore_limit (by omega)

/-! ### Responses without a line -/

/-- The parser waits for the status line. -/
structure Quiet (p : HttpParser) : Prop where
  state : p.state = .readStatus
  recvPos : p.recvPos = 0
  finished : p.finished = false

theorem Quiet.headerFinished {p : HttpParser} (h : Quiet p) : p.headerFinished = false := by
  rw [HttpParser.headerFinished, h.state]
  rfl

theorem Quiet.incoming {p : HttpParser} {buf : List UInt8} (h : Quiet p) (hlf : lf ∉ buf) :
    Quiet (p.incoming buf).1 ∧ (p.incoming buf).2.error = false := by
  obtain ⟨hstate, hpos, hfinished⟩ := h
  rw [HttpParser.incoming]
  split
  · exact ⟨⟨hstate, hpos, hfinished⟩, rfl⟩
  have hline : nextLine buf p.recvPos.toNat = none := by
    rw [hpos, nextLine, Int.toNat_zero, List.drop_zero, Option.map_eq_none_iff, List.findIdx?_eq_none_iff]
    intro b hb
    exact decide_eq_false fun heq => hlf (heq ▸ hb)
  rw [if_neg (by rw [hstate]; decide), response, readStatus, if_pos hstate, hline]
  exact ⟨⟨hstate, hpos, hfinished⟩, rfl⟩

theorem Quiet.takeBytes (h : Quiet s.parser) (hlf : lf ∉ s.received ++ bytes) : ∃ parser, Quiet parser ∧
    s.takeBytes bytes urlOk = ({ s with received := s.received ++ bytes, parser }, true) := by
  obtain ⟨hquiet, herror⟩ := h.incoming hlf
  rw [HttpConnection.takeBytes]
  dsimp only
  rw [if_pos (.inr (by rw [h.headerFinished]; exact Bool.false_ne_true))]
  generalize s.parser.incoming (s.received ++ bytes) = r at hquiet herror ⊢
  obtain ⟨parser, r⟩ := r
  change r.error = false at herror
  have hheader : parser.headerFinished = false := hquiet.headerFinished
  have hfinished : parser.finished = false := hquiet.finished
  refine ⟨parser, hquiet, ?_⟩
  simp only [herror, hheader, hfinished, Bool.false_eq_true, if_false, and_false, false_and]

/-- A state of a run in which a buffer of `n` bytes is filled with bytes that are no line. -/
structure Filling (mayTimeOut : HttpConnection → Prop) (bottled : Bool) (limit redirects : ℤ) (n : ℕ)
    (s : HttpConnection) : Prop where
  reached : Reached mayTimeOut bottled limit redirects s
  limit_eq : s.maxBottledBufferSize = limit
  buffer : s.recvbuffer = n
  quiet : Quiet s.parser
  noLine : lf ∉ s.received
  within : s.received.length ≤ n
  reading : s.waiting = .read (n - s.received.length)

/-- The buffer is full before it grows. -/
theorem Filling.fill {n : ℕ} (h : Filling mayTimeOut bottled limit redirects n s) : ∃ s₁ : HttpConnection,
    Reached mayTimeOut bottled limit redirects s₁.grow.ask ∧ s₁.maxBottledBufferSize = limit ∧ s₁.recvbuffer = n ∧
      Quiet s₁.parser ∧ lf ∉ s₁.received ∧ s₁.received.length = n := by
  obtain ⟨hs, hmax, hbuffer, hquiet, hlf, hle, hw⟩ := h
  obtain ⟨bytes, hlen, hbytes⟩ : ∃ bytes : List UInt8, bytes.length = n - s.received.length ∧ lf ∉ bytes := by
    refine ⟨List.replicate (n - s.received.length) 97, List.length_replicate .., fun hmem => ?_⟩
    have := List.eq_of_mem_replicate hmem
    cases this
  have hlf' : lf ∉ s.received ++ bytes := by
    rw [List.mem_append, not_or]
    exact ⟨hlf, hbytes⟩
  obtain ⟨parser, hparser, htake⟩ := @Quiet.takeBytes s bytes true hquiet hlf'
  refine ⟨{ s with received := s.received ++ bytes, parser }, ?_, hmax, hbuffer, hparser, hlf', ?_⟩
  · have hnext := hs.step (.onRead hw bytes hlen.le true)
    rwa [onRead_eq, htake, if_pos rfl] at hnext
  · rw [List.length_append]
    omega

theorem Filling.start : Filling mayTimeOut bottled limit redirects 4096
    (onWrite { bottled, maxBottledBufferSize := limit, redirects }) where
  reached := .step .start (.onWrite rfl)
  limit_eq := rfl
  buffer := rfl
  quiet := ⟨rfl, rfl, rfl⟩
  noLine := List.not_mem_nil
  within := Nat.zero_le _
  reading := rfl

/-- A full buffer is doubled, in `int`. -/
theorem grow_full {n : ℕ} (hbuffer : s.recvbuffer = n) (hlen : s.received.length = n) (hn : n < 2 ^ 31) :
    s.grow.recvbuffer = toSize (min (toInt (n * 2)) s.maxBottledBufferSize) := by
  have hpos : s.readPos = n := by rw [readPos, hlen]
  rw [grow, if_pos (by rw [hbuffer, hpos, toInt_of_lt (Int.natCast_nonneg n) (by omega)]), hpos]

theorem toSize_room {n m : ℕ} (hn : n + m < 2 ^ 31) : toSize (toInt (n + m : ℕ) - n) = m := by
  have h : (toSize (toInt (n + m : ℕ) - n) : ℤ) = m := by
    rw [toInt_of_lt (Int.natCast_nonneg _) (by omega), toSize_of_nonneg (by omega) (by omega)]
    omega
  exact Int.ofNat_inj.mp h

theorem toSize_double {n : ℕ} (hn : 2 * n < 2 ^ 31) (hlimit : 2 * (n : ℤ) ≤ limit) : toSize (min (toInt (n * 2)) limit) = n + n := by
  have h : (toSize (min (toInt (n * 2)) limit) : ℤ) = n + n := by
    rw [toInt_of_lt (by omega) (by omega), toSize_of_nonneg (by omega) (by omega)]
    omega
  exact Int.ofNat_inj.mp h

theorem Filling.of_read {n m : ℕ} (hs : Reached mayTimeOut bottled limit redirects { s with waiting := .read m })
    (hmax : s.maxBottledBufferSize = limit) (hbuffer : s.recvbuffer = n + m) (hquiet : Quiet s.parser)
    (hlf : lf ∉ s.received) (hlen : s.received.length = n) :
    ∃ s', Filling mayTimeOut bottled limit redirects (n + m) s' ∧ s'.received.length = n := by
  refine ⟨{ s with waiting := .read m }, ⟨hs, hmax, hbuffer, hquiet, hlf, ?_, ?_⟩, hlen⟩
  · change s.received.length ≤ _
    omega
  · change _ = Waiting.read (n + m - s.received.length)
    rw [hlen, Nat.add_sub_cancel_left]

theorem ask_read {m : ℕ} (hne : s.readPos ≠ s.maxBottledBufferSize) (hm : toSize (toInt s.recvbuffer - s.readPos) = m) :
    s.ask = { s with waiting := .read m } := by
  rw [ask, if_neg hne, hm]

/-- The buffer is half full then. -/
theorem Filling.double {n : ℕ} (h : Filling mayTimeOut bottled limit redirects n s) (hn : 0 < n) (hn' : 2 * n < 2 ^ 31)
    (hlimit : 2 * (n : ℤ) ≤ limit) :
    ∃ s', Filling mayTimeOut bottled limit redirects (n + n) s' ∧ s'.received.length = n := by
  obtain ⟨s₁, hs, hmax, hbuffer, hquiet, hlf, hlen⟩ := h.fill
  obtain ⟨hmax', hreceived, hparser, -⟩ := @grow_same s₁
  have hgrow : s₁.grow.recvbuffer = n + n := by
    rw [grow_full hbuffer hlen (by omega), hmax, toSize_double hn' hlimit]
  have hpos : s₁.grow.readPos = n := by rw [readPos, hreceived, hlen]
  rw [← hmax'] at hmax
  rw [ask_read (by omega) (by rw [hpos, hgrow, toSize_room (by omega)])] at hs
  rw [← hreceived] at hlf hlen
  rw [← hparser] at hquiet
  exact Filling.of_read (s := s₁.grow) hs hmax hgrow hquiet hlf hlen

theorem exists_filling (k : ℕ) (hk : 4096 * 2 ^ k ≤ 2 ^ 30) (hlimit : (4096 * 2 ^ k : ℕ) ≤ limit) :
    ∃ s, Filling mayTimeOut bottled limit redirects (4096 * 2 ^ k) s := by
  induction k with
  | zero => exact ⟨_, .start⟩
  | succ k ih =>
    have hdouble : 4096 * 2 ^ (k + 1) = 4096 * 2 ^ k + 4096 * 2 ^ k := by
      rw [Nat.pow_succ, Nat.mul_two, Nat.mul_add]
    have hpow : 0 < 2 ^ k := Nat.two_pow_pos k
    rw [hdouble] at hk hlimit ⊢
    obtain ⟨s, hs⟩ := ih (by omega) (by omega)
    obtain ⟨s', hs', -⟩ := hs.double (by omega) (by omega) (by omega)
    exact ⟨s', hs'⟩

theorem toInt_overflow : toInt ((2 ^ 30 : ℕ) * 2) = -2 ^ 31 := by
  decide

theorem toSize_overflow : toSize (-2 ^ 31) = 2 ^ 64 - 2 ^ 31 := by
  decide

/-- The buffer would be doubled to `2 ^ 31` bytes, which is negative. -/
theorem Filling.overflows {n : ℕ} (h : Filling mayTimeOut bottled limit redirects n s) (hn : n = 2 ^ 30) (hlow : 0 < limit)
    (hhigh : limit < 2 ^ 31) : ∃ s', Reached mayTimeOut bottled limit redirects s' ∧ ¬ Bounded s' := by
  obtain ⟨s₁, hs, hmax, hbuffer, -, -, hlen⟩ := h.fill
  refine ⟨_, hs, fun hb => ?_⟩
  have hmin : min (-2 ^ 31) limit = -2 ^ 31 := by omega
  have hgrow : s₁.grow.recvbuffer = 2 ^ 64 - 2 ^ 31 := by
    rw [grow_full hbuffer hlen (by omega), hmax, hn, toInt_overflow, hmin, toSize_overflow]
  have hsize := hb.size
  rw [ask_sameBuffer.recvbuffer, ask_sameBuffer.maxBottledBufferSize, grow_same.1, hgrow, hmax] at hsize
  omega

theorem toSize_negative {n : ℤ} (hlow : -2 ^ 63 ≤ n) (hhigh : n < 0) : (toSize n : ℤ) = n + 2 ^ 64 := by
  rw [toSize, Int.toNat_of_nonneg (Int.emod_nonneg _ (by decide))]
  omega

theorem Bounded.within {m : ℕ} (h : Bounded { s with waiting := .read m }) : s.readPos + m ≤ s.recvbuffer :=
  (h.read m rfl).2

/-- A limit below the size of a full buffer makes the next amount negative. -/
theorem Filling.short {n : ℕ} (h : Filling mayTimeOut bottled limit redirects n s) (hn : n < 2 ^ 30) (hlow : 0 < limit)
    (hshort : limit < n) : ∃ s', Reached mayTimeOut bottled limit redirects s' ∧ ¬ Bounded s' := by
  obtain ⟨s₁, hs, hmax, hbuffer, -, -, hlen⟩ := h.fill
  refine ⟨_, hs, fun hb => ?_⟩
  obtain ⟨hmax', hreceived, -⟩ := @grow_same s₁
  have hgrow : (s₁.grow.recvbuffer : ℤ) = limit := by
    rw [grow_full hbuffer hlen (by omega), hmax, toInt_of_lt (by omega) (by omega), toSize_of_nonneg (by omega) (by omega)]
    omega
  have hpos : s₁.grow.readPos = n := by rw [readPos, hreceived, hlen]
  have hamount : (toSize (toInt s₁.grow.recvbuffer - s₁.grow.readPos) : ℤ) = limit - n + 2 ^ 64 := by
    rw [hgrow, hpos, toInt_of_lt (by omega) (by omega), toSize_negative (by omega) (by omega)]
  rw [ask_read (by omega) rfl] at hb
  have hread := hb.within
  rw [hamount, hpos, hgrow] at hread
  omega

/-- After a timeout with 4096 bytes or more, the next read is asked for at or past the end of the buffer. -/
theorem Reached.timeout_unbounded (hs : Reached mayTimeOut bottled limit redirects s) (hw : s.waiting ≠ .nothing)
    (ht : mayTimeOut s) (hpos : 4096 ≤ s.readPos) :
    ∃ s', Reached mayTimeOut bottled limit redirects s' ∧ ¬ Bounded s' := by
  refine ⟨s.onTimeout.onWrite, (hs.step (.onTimeout hw ht)).step (.onWrite rfl), fun hb => ?_⟩
  obtain ⟨hamount, hwithin⟩ := hb.read _ rfl
  change s.readPos + _ ≤ ((4096 : ℕ) : ℤ) at hwithin
  omega

/-- The buffer of a connection is bounded in every run if and only if the limit is not below the first 4096 bytes,
doubling does not pass the largest `int` before it, and timeouts that go to another endpoint come early. -/
theorem bounded_iff (hlow : 0 < limit) (hhigh : limit < 2 ^ 31) (mayTimeOut : HttpConnection → Prop) (bottled : Bool)
    (redirects : ℤ) : (∀ s, Reached mayTimeOut bottled limit redirects s → Bounded s) ↔
      4096 ≤ limit ∧ limit < 2 ^ 30 ∧ TimesOutEarly mayTimeOut bottled limit redirects := by
  constructor
  · intro h
    have hsmall : 4096 ≤ limit := by
      refine Int.not_lt.mp fun hsmall => ?_
      obtain ⟨s, hs, hb⟩ := (@Filling.start mayTimeOut bottled limit redirects).short (by decide) hlow hsmall
      exact hb (h s hs)
    have hlarge : limit < 2 ^ 30 := by
      refine Int.not_le.mp fun hlarge => ?_
      obtain ⟨s, hs⟩ := @exists_filling mayTimeOut bottled limit redirects 18 (by decide) (by omega)
      obtain ⟨s', hs', hb⟩ := hs.overflows (by decide) hlow hhigh
      exact hb (h s' hs')
    refine ⟨hsmall, hlarge, fun s hs hw ht => Int.not_le.mp fun hpos => ?_⟩
    obtain ⟨s', hs', hb⟩ := hs.timeout_unbounded hw ht hpos
    exact hb (h s' hs')
  · rintro ⟨hlimit, hlimit', hearly⟩ s hs
    exact (hs.inv hlimit hlimit' hearly).bounded hlimit

/-- The limit of the settings, with timeouts at any time before anything is read. -/
theorem bounded_iff_default : (∀ s, Reached (·.received = []) true 835584 5 s → Bounded s) ↔
    (4096 : ℤ) ≤ 835584 ∧ (835584 : ℤ) < 2 ^ 30 ∧ TimesOutEarly (·.received = []) true 835584 5 :=
  bounded_iff (by decide) (by decide) (·.received = []) true 5

/-- With a limit of 1000 bytes, or with the limit of the settings and a timeout after 4096 bytes, not every read stays in
the buffer. -/
theorem not_bounded_1000 : (¬ ∀ s, Reached (fun _ => True) true 1000 5 s → Bounded s) ∧
    ¬ ∀ s, Reached (fun _ => True) true 835584 5 s → Bounded s := by
  constructor
  · intro h
    obtain ⟨s, hs, hb⟩ := (@Filling.start (fun _ => True) true 1000 5).short (by decide) (by decide) (by decide)
    exact hb (h s hs)
  · intro h
    obtain ⟨s, hs, hlen⟩ := (@Filling.start (fun _ => True) true 835584 5).double (by decide) (by decide) (by decide)
    have hw : s.waiting ≠ .nothing := by
      rw [hs.reading]
      exact Waiting.noConfusion
    obtain ⟨s', hs', hb⟩ := hs.reached.timeout_unbounded hw trivial (by rw [readPos, hlen]; decide)
    exact hb (h s' hs')

end HttpConnection

end Http

end LibtorrentSN
