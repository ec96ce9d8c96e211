import LibtorrentSN.Picker.Passed

/-!
# Telling the peers what we have

A piece is announced once, when it passes its hash check, to the peers whose handshake is done. A
peer that completes its handshake later is sent a bitfield, and that is made of the pieces that
have been flushed to disk. A piece that has passed and is not flushed yet is in neither of them.
-/

namespace LibtorrentSN

namespace Torrent

/-- The messages that tell a peer of our pieces. A bitfield is kept as its bits. -/
inductive Message where
  | have (p : ℕ)
  | bitfield (bits : List Bool)
  | haveAll
  | haveNone
deriving Repr, DecidableEq

def Message.announces (p : ℕ) : Message → Bool
  | .have q => q = p
  | .bitfield bits => bits.getD p false
  | .haveAll => true
  | .haveNone => false

/-- One peer, with all that it has been sent. -/
structure PeerConnection where
  inHandshake : Bool
  sentBitfield : Bool
  supportsFast : Bool
  havePiece : ℕ → Bool
  sent : List Message

namespace PeerConnection

variable (c : PeerConnection)

/-- The peer has been told that we have the piece `p`. -/
def told (p : ℕ) : Bool := c.sent.any (·.announces p)

/-- If the bitfield has not been sent yet, the piece should be included in there instead. -/
def writeHave (p : ℕ) : PeerConnection :=
  if c.sentBitfield = false then c else { c with sent := c.sent ++ [.have p] }

/-- No piece is announced during the handshake, nor to a peer that has it, unless the setting
`send_redundant_have` asks for that. -/
def announcePiece (redundant : Bool) (p : ℕ) : PeerConnection :=
  if c.inHandshake then c
  else if redundant = false ∧ c.havePiece p then c
  else c.writeHave p

end PeerConnection

/-- A torrent with a picker whose connections are initialized. -/
structure Sharing where
  picker : PiecePicker
  /-- the state of the torrent is `seeding` -/
  seeding : Bool
  sendRedundantHave : Bool
  connections : List PeerConnection

namespace Sharing

variable (w : Sharing)

def isSeed : Prop := w.picker.numPassed = w.picker.numPieces ∨ w.seeding = true

instance : Decidable w.isSeed := inferInstanceAs (Decidable (_ ∨ _))

/-- What a peer is sent at the end of its handshake, if anything. -/
def bitfieldFor (fast : Bool) : Option Message :=
  if fast ∧ w.isSeed then some .haveAll
  else if fast ∧ w.picker.numHave = 0 then some .haveNone
  -- don't send a bitfield if we don't have any pieces
  else if w.picker.numHave = 0 then none
  else if w.isSeed then some (.bitfield (List.replicate w.picker.numPieces true))
  else some (.bitfield ((List.range w.picker.numPieces).map fun p => w.picker.havePiece p))

def writeBitfield (c : PeerConnection) : PeerConnection :=
  { c with sentBitfield := true, sent := c.sent ++ (w.bitfieldFor c.supportsFast).toList }

/-- The end of the handshake. -/
def onHandshake (c : PeerConnection) : PeerConnection :=
  { w.writeBitfield c with inHandshake := false }

/-- What happens to the torrent. A peer that is disconnected while a piece is announced is one that
disconnects before it. -/
inductive Event where
  | piecePassed (p : ℕ)
  | blockFlushed (p b : ℕ) (peer : Option ℕ)
  /-- another call of the picker -/
  | call (op : Op)
  | setState (seeding : Bool)
  | connect (supportsFast : Bool)
  | handshake (i : ℕ)
  /-- a peer gets a piece, or tells us of it -/
  | incomingHave (i p : ℕ)
  | disconnect (i : ℕ)

/-- Change one connection. -/
def modify (i : ℕ) (f : PeerConnection → PeerConnection) : Sharing :=
  { w with connections := w.connections.modify i f }

/-- `we_have` of the torrent, which announces the piece. -/
def weHave (p : ℕ) : Sharing :=
  { w with connections := w.connections.map (·.announcePiece w.sendRedundantHave p) }

def apply : Event → Sharing
  | .piecePassed p => { w with picker := w.picker.piecePassed p }.weHave p
  | .blockFlushed p b peer => { w with picker := w.picker.markAsFinished p b peer }
  | .call op => { w with picker := w.picker.apply op }
  | .setState seeding => { w with seeding := seeding }
  | .connect fast =>
    { w with connections := w.connections ++ [⟨true, false, fast, fun _ => false, []⟩] }
  | .handshake i => w.modify i w.onHandshake
  | .incomingHave i p =>
    w.modify i fun c => { c with havePiece := fun q => q = p || c.havePiece q }
  | .disconnect i => { w with connections := w.connections.eraseIdx i }

/-- The calls of the picker meet its assertions. The other calls let no piece pass, and none is
among them after which the picker no longer knows how many have. The torrent is `seeding` only
once all pieces have passed. -/
def Enabled : Event → Prop
  | .piecePassed p => w.picker.asserts (.piecePassed p)
  | .blockFlushed p b peer => w.picker.asserts (.markAsFinished p b peer)
  | .call op => w.picker.asserts op ∧ PiecePicker.countedCall w.picker op ∧
    ∀ y, (w.picker.apply op).hasPiecePassed y = true → w.picker.hasPiecePassed y = true
  | .setState seeding => seeding = true → w.picker.numPassed = w.picker.numPieces
  | .handshake i => ∀ c, w.connections[i]? = some c → c.inHandshake = true
  | _ => True

/-- The runs from a torrent without connections, of events of which `ok` holds, with the pieces
that have passed their hash check at some time. -/
inductive Run (ok : Sharing → Event → Prop) : Sharing → (ℕ → Prop) → Prop
  | start {s : PiecePicker} {redundant : Bool} (h : Reach PiecePicker.countedCall s) :
      Run ok ⟨s, false, redundant, []⟩ fun p => s.hasPiecePassed p = true
  | step {w : Sharing} {passed : ℕ → Prop} (h : Run ok w passed) (e : Event) (he : w.Enabled e)
      (hok : ok w e) :
      Run ok (w.apply e) fun p => passed p ∨ (w.apply e).picker.hasPiecePassed p = true

/-- When a peer completes its handshake, it is told of every piece that has passed: as we are a
seed and say so, or as all of these pieces have been flushed. -/
def Flushed (w : Sharing) : Event → Prop
  | .handshake i => ∀ c, w.connections[i]? = some c →
    w.isSeed ∧ (c.supportsFast = true ∨ w.picker.numHave ≠ 0) ∨
      ∀ p, w.picker.hasPiecePassed p = true → w.picker.havePiece p
  | _ => True

/-- Every peer whose handshake is done has been told of the pieces it does not have itself and whose
blocks are all flushed. -/
def Complete (w : Sharing) : Prop :=
  ∀ c ∈ w.connections, c.inHandshake = false → ∀ p, w.picker.havePiece p →
    c.havePiece p = false → c.told p = true

/-- No peer has been told of a piece that had not passed its hash check. -/
def Honest (w : Sharing) (passed : ℕ → Prop) : Prop :=
  ∀ c ∈ w.connections, ∀ p < w.picker.numPieces, c.told p = true → passed p

/-! ### What a peer is told -/

section Told

variable {c : PeerConnection} {m : Message} {redundant : Bool} {p q : ℕ}

theorem told_append (c : PeerConnection) (ms : List Message) (p : ℕ) :
    ({ c with sent := c.sent ++ ms } : PeerConnection).told p = (c.told p || ms.any (·.announces p)) :=
  List.any_append

theorem told_writeHave : (c.writeHave p).told q = true ↔
    c.told q = true ∨ c.sentBitfield = true ∧ p = q := by
  rw [PeerConnection.writeHave]
  split_ifs with hs
  · simp [hs]
  · rw [told_append, Bool.or_eq_true]
    simp [Message.announces, hs]

/-- An announced piece is told, unless the peer is in its handshake or has it. -/
theorem told_announcePiece : (c.announcePiece redundant p).told q = true ↔ c.told q = true ∨
    p = q ∧ c.inHandshake = false ∧ ¬ (redundant = false ∧ c.havePiece p = true) ∧
      c.sentBitfield = true := by
  rw [PeerConnection.announcePiece]
  split_ifs with hin hred
  · simp [hin]
  · simp [hred]
  · rw [told_writeHave]
    simp only [hin, hred, not_false_eq_true, true_and]
    exact or_congr_right and_comm

/-- Announcing a piece only adds to what has been sent. -/
theorem announcePiece_rest (c : PeerConnection) (redundant : Bool) (p : ℕ) :
    (c.announcePiece redundant p).inHandshake = c.inHandshake ∧
    (c.announcePiece redundant p).sentBitfield = c.sentBitfield ∧
    (c.announcePiece redundant p).havePiece = c.havePiece := by
  rw [PeerConnection.announcePiece, PeerConnection.writeHave]
  split_ifs <;> exact ⟨rfl, rfl, rfl⟩

end Told

variable {w : Sharing} {c : PeerConnection} {m : Message} {p : ℕ}

theorem told_onHandshake : (w.onHandshake c).told p = true ↔
    c.told p = true ∨ ∃ m, w.bitfieldFor c.supportsFast = some m ∧ m.announces p = true := by
  have happend : (w.onHandshake c).told p =
      (c.told p || (w.bitfieldFor c.supportsFast).toList.any (·.announces p)) := List.any_append
  rw [happend, Bool.or_eq_true]
  rcases w.bitfieldFor c.supportsFast with - | m
  · simp
  · simp

/-- A bitfield tells of the pieces that have passed, if all of those are flushed or we are a
seed. -/
theorem bitfieldFor_announces (h : Reach PiecePicker.countedCall w.picker) {fast : Bool}
    (hok : w.isSeed ∧ (fast = true ∨ w.picker.numHave ≠ 0) ∨
      ∀ p, w.picker.hasPiecePassed p = true → w.picker.havePiece p)
    (hp : w.picker.hasPiecePassed p = true) :
    ∃ m, w.bitfieldFor fast = some m ∧ m.announces p = true := by
  obtain ⟨hl, ht⟩ := h.listed fun _ _ hok => hok.1
  have hlt := PiecePicker.hasPiecePassed_lt h.book.buckets hl hp
  have hnone : w.picker.numHave = 0 → ¬ w.picker.havePiece p := by
    intro hzero
    have hcount : w.picker.haveCount = 0 := Int.ofNat.inj (ht.numHave.symm.trans hzero)
    exact countUpTo_eq_zero.mp hcount p hlt
  have hsome : ¬ w.isSeed ∨ ¬ (fast = true ∨ w.picker.numHave ≠ 0) → w.picker.numHave ≠ 0 := by
    intro hc hzero
    refine hnone hzero (hok.resolve_left ?_ p hp)
    rintro ⟨hseed, hfast⟩
    exact hc.elim (fun hn => hn hseed) fun hn => hn hfast
  rw [bitfieldFor]
  split_ifs with h₁ h₂ h₃ h₄
  · exact ⟨_, rfl, rfl⟩
  · exact absurd h₂.2 (hsome (.inl fun hs => h₁ ⟨h₂.1, hs⟩))
  · refine absurd h₃ (hsome (.inr ?_))
    rintro (hf | hf)
    · exact h₂ ⟨hf, h₃⟩
    · exact hf h₃
  · refine ⟨_, rfl, ?_⟩
    simp [Message.announces, List.getD_eq_getElem?_getD, hlt]
  · refine ⟨_, rfl, ?_⟩
    have hhave := hok.resolve_left (fun hc => h₄ hc.1) p hp
    simp [Message.announces, List.getD_eq_getElem?_getD, hlt, hhave]

/-- It tells of no others. -/
theorem passed_of_bitfieldFor {passed : ℕ → Prop} {fast : Bool}
    (hseed : w.isSeed → ∀ p < w.picker.numPieces, passed p)
    (hhave : ∀ p, w.picker.havePiece p → passed p) (hm : w.bitfieldFor fast = some m)
    (hp : p < w.picker.numPieces) (hann : m.announces p = true) : passed p := by
  rw [bitfieldFor] at hm
  split_ifs at hm with h₁ h₂ h₃ h₄
  · exact hseed h₁.2 p hp
  · obtain rfl := Option.some.inj hm
    cases hann
  · exact hseed h₄ p hp
  · obtain rfl := Option.some.inj hm
    refine hhave p ?_
    simpa [Message.announces, List.getD_eq_getElem?_getD, hp] using hann

/-! ### Runs -/

/-- What holds in the runs in which the bitfields leave nothing out. -/
structure Told (w : Sharing) (passed : ℕ → Prop) : Prop where
  reach : Reach PiecePicker.countedCall w.picker
  record : ∀ p, w.picker.hasPiecePassed p = true → passed p
  seeding : w.seeding = true → ∀ p < w.picker.numPieces, passed p
  sentBitfield : ∀ c ∈ w.connections, c.inHandshake = false → c.sentBitfield = true
  complete : ∀ c ∈ w.connections, c.inHandshake = false → ∀ p,
    w.picker.hasPiecePassed p = true → c.havePiece p = false → c.told p = true
  honest : ∀ c ∈ w.connections, ∀ p < w.picker.numPieces, c.told p = true → passed p

variable {passed : ℕ → Prop}

theorem Told.isSeed (h : w.Told passed) (hs : w.isSeed) : ∀ p < w.picker.numPieces, passed p := by
  rcases hs with hall | hs
  · exact fun p hp => h.record p (PiecePicker.hasPiecePassed_of_numPassed h.reach hall hp)
  · exact h.seeding hs

/-- A call of the picker that lets no piece pass. -/
theorem Told.call (h : w.Told passed) {op : Op} (ha : w.picker.asserts op)
    (hc : PiecePicker.countedCall w.picker op)
    (hpass : ∀ y, (w.picker.apply op).hasPiecePassed y = true → w.picker.hasPiecePassed y = true) :
    Told { w with picker := w.picker.apply op } passed := by
  obtain ⟨hl, ht⟩ := h.reach.listed fun _ _ hok => hok.1
  have hn := (PiecePicker.apply_effect h.reach.book ha hc.1).numPieces ht
  refine ⟨h.reach.step ha hc, fun p hp => h.record p (hpass p hp), fun hs p hp => ?_,
    h.sentBitfield, fun c hmem hin p hp => h.complete c hmem hin p (hpass p hp), fun c hmem p hp => ?_⟩
  · exact h.seeding hs p (hn ▸ hp)
  · exact h.honest c hmem p (hn ▸ hp)

theorem Told.piecePassed (h : w.Told passed) (ha : w.picker.asserts (.piecePassed p)) :
    Told (w.apply (.piecePassed p))
      fun q => passed q ∨ (w.apply (.piecePassed p)).picker.hasPiecePassed q = true := by
  obtain ⟨hl, ht⟩ := h.reach.listed fun _ _ hok => hok.1
  have hn := (PiecePicker.apply_effect h.reach.book ha trivial).numPieces ht
  have hnew : ∀ q, (w.picker.piecePassed p).hasPiecePassed q = true →
      q = p ∨ w.picker.hasPiecePassed q = true :=
    fun q => PiecePicker.piecePassed_passed h.reach.book hl ha
  have hself := PiecePicker.piecePassed_self h.reach.book.buckets hl ha
  refine ⟨h.reach.step ha ⟨trivial, trivial⟩, fun q hq => .inr hq, fun hs q hq => ?_, ?_, ?_, ?_⟩
  · exact .inl (h.seeding hs q (hn ▸ hq))
  all_goals
    intro c' hmem
    obtain ⟨c, hc, rfl⟩ := List.mem_map.mp hmem
    obtain ⟨hin', hsent', hhave'⟩ := announcePiece_rest c w.sendRedundantHave p
  · intro hin
    rw [hin'] at hin
    rw [hsent']
    exact h.sentBitfield c hc hin
  · intro hin q hq hhave
    rw [hin'] at hin
    rw [hhave'] at hhave
    rw [told_announcePiece]
    rcases hnew q hq with rfl | hq
    · exact .inr ⟨rfl, hin, fun hc => by simp [hhave] at hc, h.sentBitfield c hc hin⟩
    · exact .inl (h.complete c hc hin q hq hhave)
  · intro q hq htold
    rcases told_announcePiece.mp htold with htold | ⟨rfl, -⟩
    · exact .inl (h.honest c hc q (hn ▸ hq) htold)
    · exact .inr hself

/-- What changes the connections alone. -/
theorem Told.modify (h : w.Told passed) {i : ℕ} {f : PeerConnection → PeerConnection}
    (hsent : ∀ c, w.connections[i]? = some c → (f c).inHandshake = false →
      (f c).sentBitfield = true)
    (hcomp : ∀ c, w.connections[i]? = some c → (f c).inHandshake = false → ∀ p,
      w.picker.hasPiecePassed p = true → (f c).havePiece p = false → (f c).told p = true)
    (hhon : ∀ c, w.connections[i]? = some c → ∀ p < w.picker.numPieces, (f c).told p = true →
      passed p) :
    (w.modify i f).Told passed := by
  have hmem : ∀ c ∈ (w.modify i f).connections, c ∈ w.connections ∨
      ∃ x, w.connections[i]? = some x ∧ c = f x := by
    intro c hc
    obtain ⟨j, hj⟩ := List.mem_iff_getElem?.mp hc
    rw [Sharing.modify, List.getElem?_modify] at hj
    obtain ⟨x, hx, hxc⟩ := Option.map_eq_some_iff.mp hj
    split_ifs at hxc with hij
    · exact .inr ⟨x, hij ▸ hx, hxc.symm⟩
    · exact .inl (hxc ▸ List.mem_of_getElem? hx)
  refine ⟨h.reach, h.record, h.seeding, fun c hc => ?_, fun c hc => ?_, fun c hc => ?_⟩
  all_goals rcases hmem c hc with hc | ⟨x, hx, rfl⟩
  · exact h.sentBitfield c hc
  · exact hsent x hx
  · exact h.complete c hc
  · exact hcomp x hx
  · exact h.honest c hc
  · exact hhon x hx

theorem Told.handshake (h : w.Told passed) {i : ℕ} (hok : w.Flushed (.handshake i)) :
    (w.modify i w.onHandshake).Told passed := by
  refine h.modify (fun _ _ _ => rfl) (fun c hc _ p hp _ => ?_) fun c hc p hp htold => ?_
  · exact told_onHandshake.mpr (.inr (bitfieldFor_announces h.reach (hok c hc) hp))
  · rcases told_onHandshake.mp htold with htold | ⟨m, hm, hann⟩
    · exact h.honest c (List.mem_of_getElem? hc) p hp htold
    · exact passed_of_bitfieldFor h.isSeed
        (fun q hq => h.record q (PiecePicker.hasPiecePassed_of_have hq)) hm hp hann

theorem Told.incomingHave (h : w.Told passed) (i p : ℕ) :
    (w.apply (.incomingHave i p)).Told passed := by
  refine h.modify (fun c hc => ?_) (fun c hc hin q hq hhave => ?_) fun c hc => ?_
  · exact h.sentBitfield c (List.mem_of_getElem? hc)
  · exact h.complete c (List.mem_of_getElem? hc) hin q hq (Bool.or_eq_false_iff.mp hhave).2
  · exact h.honest c (List.mem_of_getElem? hc)

theorem Told.connect (h : w.Told passed) (fast : Bool) : (w.apply (.connect fast)).Told passed := by
  have hmem : ∀ c ∈ (w.apply (.connect fast)).connections, c ∈ w.connections ∨
      c = ⟨true, false, fast, fun _ => false, []⟩ := by
    intro c hc
    exact (List.mem_append.mp hc).imp_right List.mem_singleton.mp
  refine ⟨h.reach, h.record, h.seeding, fun c hc => ?_, fun c hc => ?_, fun c hc => ?_⟩
  all_goals rcases hmem c hc with hc | rfl
  · exact h.sentBitfield c hc
  · exact fun hin => by cases hin
  · exact h.complete c hc
  · exact fun hin => by cases hin
  · exact h.honest c hc
  · exact fun _ _ htold => by cases htold

theorem Told.disconnect (h : w.Told passed) (i : ℕ) : (w.apply (.disconnect i)).Told passed := by
  have hmem : ∀ c ∈ (w.apply (.disconnect i)).connections, c ∈ w.connections :=
    fun c hc => List.mem_of_mem_eraseIdx hc
  exact ⟨h.reach, h.record, h.seeding, fun c hc => h.sentBitfield c (hmem c hc),
    fun c hc => h.complete c (hmem c hc), fun c hc => h.honest c (hmem c hc)⟩

theorem Told.mono {passed' : ℕ → Prop} (h : w.Told passed) (hle : ∀ p, passed p → passed' p) :
    w.Told passed' :=
  ⟨h.reach, fun p hp => hle p (h.record p hp), fun hs p hp => hle p (h.seeding hs p hp),
    h.sentBitfield, h.complete, fun c hc p hp htold => hle p (h.honest c hc p hp htold)⟩

theorem Told.step (h : w.Told passed) {e : Event} (he : w.Enabled e) (hok : w.Flushed e) :
    (w.apply e).Told fun p => passed p ∨ (w.apply e).picker.hasPiecePassed p = true := by
  cases e with
  | piecePassed p => exact h.piecePassed he
  | blockFlushed p b peer =>
    obtain ⟨hl, -⟩ := h.reach.listed fun _ _ hok => hok.1
    have hcall : Told { w with picker := w.picker.apply (.markAsFinished p b peer) } passed :=
      h.call he ⟨trivial, trivial⟩ fun y => PiecePicker.markAsFinished_passed h.reach.book hl he
    exact hcall.mono fun _ => .inl
  | call op => exact (h.call he.1 he.2.1 he.2.2).mono fun _ => .inl
  | setState seeding =>
    have hall : seeding = true → ∀ p < w.picker.numPieces, passed p :=
      fun hs => h.isSeed (.inl (he hs))
    exact Told.mono ⟨h.reach, h.record, hall, h.sentBitfield, h.complete, h.honest⟩ fun _ => .inl
  | connect fast => exact (h.connect fast).mono fun _ => .inl
  | handshake i => exact (h.handshake hok).mono fun _ => .inl
  | incomingHave i p => exact (h.incomingHave i p).mono fun _ => .inl
  | disconnect i => exact (h.disconnect i).mono fun _ => .inl

theorem Run.told (h : Run Flushed w passed) : w.Told passed := by
  induction h with
  | start h =>
    refine ⟨h, fun _ hp => hp, ?_, ?_, ?_, ?_⟩
    · exact fun hs => by cases hs
    all_goals exact fun _ hc => absurd hc List.not_mem_nil
  | step _ e he hok ih => exact ih.step he hok

/-- If no handshake is completed while a piece has passed and is not flushed (or we are a seed and
say so), every peer is told of the pieces that are flushed, and of no piece that has not passed. -/
theorem run_tells_peers (h : Run Flushed w passed) : w.Complete ∧ w.Honest passed := by
  refine ⟨fun c hc hin p hp => ?_, h.told.honest⟩
  exact h.told.complete c hc hin p (PiecePicker.hasPiecePassed_of_have hp)

/-- A peer that is connected while the only block of a piece is being written: it gets an empty
bitfield, and a HAVE message when the piece has passed. -/
theorem run_tells_peers_have : ∃ w passed, Run Flushed w passed ∧ w.picker.havePiece 0 ∧
    w.connections.map (·.inHandshake) = [false] ∧ w.Complete ∧ w.Honest passed := by
  obtain ⟨s, hs, hnone, hpass, hfin, hhave⟩ := Reach.exists_of_freshRun PiecePicker.countedCall 2 1
    [.markAsWriting 0 0 (some 1)]
    (fun s => (∀ p < s.numPieces, s.hasPiecePassed p = false) ∧ s.asserts (.piecePassed 0) ∧
      (s.piecePassed 0).asserts (.markAsFinished 0 0 (some 1)) ∧
      ((s.piecePassed 0).markAsFinished 0 0 (some 1)).havePiece 0)
    (by decide) (by decide +kernel)
  obtain ⟨hl, -⟩ := hs.listed fun _ _ hok => hok.1
  have hflushed : ∀ p, s.hasPiecePassed p = true → s.havePiece p := by
    intro p hp
    have hlt := PiecePicker.hasPiecePassed_lt hs.book.buckets hl hp
    rw [hnone p hlt] at hp
    cases hp
  have hrun : Run Flushed ⟨s, false, false, []⟩ fun p => s.hasPiecePassed p = true := .start hs
  have hrun := hrun.step (.connect true) trivial trivial
  have hrun := hrun.step (.handshake 0) (by rintro c ⟨⟩; rfl) fun _ _ => .inr hflushed
  have hrun := hrun.step (.piecePassed 0) hpass trivial
  have hrun := hrun.step (.blockFlushed 0 0 (some 1)) hfin trivial
  refine ⟨_, _, hrun, hhave, ?_, run_tells_peers hrun⟩
  exact congrArg (fun b => [b]) (announcePiece_rest _ _ _).1

/-- A peer completes its handshake after a piece has passed and before its block is flushed. It is
told that we have nothing, and of the piece never. -/
theorem run_not_tells_peers : ¬ ∀ w passed, Run (fun _ _ => True) w passed →
    w.Complete ∧ w.Honest passed := by
  intro hall
  obtain ⟨s, hs, hpass, hfin, hhave, hzero, hseed⟩ := Reach.exists_of_freshRun
    PiecePicker.countedCall 2 1 [.markAsWriting 0 0 (some 1)]
    (fun s => s.asserts (.piecePassed 0) ∧
      (s.piecePassed 0).asserts (.markAsFinished 0 0 (some 1)) ∧
      ((s.piecePassed 0).markAsFinished 0 0 (some 1)).havePiece 0 ∧
      (s.piecePassed 0).numHave = 0 ∧
      (s.piecePassed 0).numPassed ≠ (s.piecePassed 0).numPieces)
    (by decide) (by decide +kernel)
  have hrun : Run (fun _ _ => True) ⟨s, false, false, []⟩ fun p => s.hasPiecePassed p = true :=
    .start hs
  have hrun := hrun.step (.piecePassed 0) hpass trivial
  have hrun := hrun.step (.connect true) trivial trivial
  have hrun := hrun.step (.handshake 0) (by rintro c ⟨⟩; rfl) trivial
  have hrun := hrun.step (.blockFlushed 0 0 (some 1)) hfin trivial
  have hbits : bitfieldFor ⟨s.piecePassed 0, false, false,
      [⟨true, false, true, fun _ => false, []⟩]⟩ true = some .haveNone := by
    have hnot : ¬ isSeed ⟨s.piecePassed 0, false, false,
        [⟨true, false, true, fun _ => false, []⟩]⟩ := by
      rintro (h | h)
      · exact hseed h
      · cases h
    rw [bitfieldFor, if_neg fun hc => hnot hc.2, if_pos ⟨rfl, hzero⟩]
  have htold := (hall _ _ hrun).1 _ (List.mem_singleton.mpr rfl) rfl 0 hhave rfl
  rw [told_onHandshake] at htold
  obtain htold | ⟨m, hm, hann⟩ := htold
  · cases htold
  · obtain rfl := Option.some.inj (hbits.symm.trans hm)
    cases hann

end Sharing

end Torrent

end LibtorrentSN
