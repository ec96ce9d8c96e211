import Mathlib.Data.List.Basic
import Mathlib.Data.List.Range
import Mathlib.Logic.Function.Basic
import Mathlib.Tactic.Common

/-!
# What a peer says before the metadata is there

A peer tells which pieces it has, which ones it lets us request while choked and which ones it
suggests. On a magnet link these messages come before we know how many pieces there are. The
handlers then keep provisional values, and `on_metadata_impl` and `init` are to turn these into what
the same messages would have made with the metadata known.

The connection is one that stays open: `disconnect_if_redundant`, which never acts without the
metadata, is left out, and we have no pieces ourselves.
-/

namespace LibtorrentSN

namespace Peer

/-- The messages about pieces. -/
inductive PieceMsg where
  | havePiece (index : ℤ)
  | bitfield (bytes : List UInt8)
  | haveAll
  | haveNone
  | allowedFast (index : ℤ)
  | suggest (index : ℤ)
deriving Repr, DecidableEq

/-- The fields of a `peer_connection` that these messages are about. -/
structure PeerPieces where
  havePiece : List Bool := []
  numPieces : ℕ := 0
  allowedFast : List ℤ := []
  suggestedPieces : List ℤ := []
  haveAll : Bool := false
  bitfieldReceived : Bool := false
  disconnecting : Bool := false
deriving Repr, DecidableEq

/-- The settings `max_piece_count` and `max_suggest_pieces`. -/
structure Limits where
  maxPieceCount : ℤ
  maxSuggestPieces : ℕ
deriving Repr, DecidableEq

/-- The values of `settings_pack`. -/
def Limits.default : Limits := ⟨0x200000, 16⟩

/-- Bit `i` of a bitfield message, the first piece being in the high bit of the first byte. -/
def bitAt (bytes : List UInt8) (i : ℕ) : Bool := (bytes.getD (i / 8) 0).toNat.testBit (7 - i % 8)

/-- `bitfield::assign`. -/
def assignBits (bytes : List UInt8) (size : ℕ) : List Bool := (List.range size).map (bitAt bytes)

/-- `bitfield::resize` with a value for the new bits. -/
def resizeBits (l : List Bool) (n : ℕ) (val : Bool) : List Bool :=
  l.take n ++ List.replicate (n - l.length) val

namespace PeerPieces

variable (lim : Limits) (metadata : Option ℕ) (p : PeerPieces)

/-- `incoming_have_none`. -/
def incomingHaveNone : PeerPieces :=
  { p with
    bitfieldReceived := true
    haveAll := false
    havePiece := List.replicate p.havePiece.length false
    numPieces := 0 }

/-- `incoming_have_all`. Without the metadata only the flag is remembered. -/
def incomingHaveAll : PeerPieces :=
  let p := { p with haveAll := true, bitfieldReceived := true }
  match metadata with
  | none => p
  | some _ =>
    { p with
      havePiece := List.replicate p.havePiece.length true
      numPieces := p.havePiece.length }

/-- `incoming_bitfield`. -/
def incomingBitfield (bits : List Bool) : PeerPieces :=
  match metadata with
  | none => { p with bitfieldReceived := true, havePiece := bits, numPieces := bits.count true }
  | some _ =>
    if bits.length ≠ p.havePiece.length then { p with disconnecting := true }
    else if bits.count true = p.havePiece.length then
      { p with
        bitfieldReceived := true
        havePiece := List.replicate p.havePiece.length true
        numPieces := bits.count true }
    else { p with bitfieldReceived := true, havePiece := bits, numPieces := bits.count true }

/-- `bt_peer_connection::on_bitfield`. Without the metadata every bit of the packet counts. -/
def onBitfield (bytes : List UInt8) : PeerPieces :=
  match metadata with
  | none => p.incomingBitfield none (assignBits bytes (bytes.length * 8))
  | some n =>
    if bytes.length ≠ (n + 7) / 8 then { p with disconnecting := true }
    else p.incomingBitfield (some n) (assignBits bytes p.havePiece.length)

/-- The rest of `incoming_have`, when the bitfield fits the index. -/
def setPiece (index : ℤ) : PeerPieces :=
  if index ≥ p.havePiece.length ∨ index < 0 then { p with disconnecting := true }
  else if p.havePiece.getD index.toNat false then p
  else
    { p with
      havePiece := p.havePiece.set index.toNat true
      numPieces := p.numPieces + 1 }

/-- `incoming_have`. A peer that has sent no bitfield has none; without the metadata the bitfield
grows with the indices. -/
def incomingHave (index : ℤ) : PeerPieces :=
  let p := if p.bitfieldReceived then p else p.incomingHaveNone
  if metadata = none ∧ index ≥ p.havePiece.length then
    if index ≤ lim.maxPieceCount then
      { p with havePiece := resizeBits p.havePiece (index.toNat + 1) false }.setPiece index
    else p
  else p.setPiece index

/-- `incoming_allowed_fast`. Without the metadata the index is checked later. -/
def incomingAllowedFast (index : ℤ) : PeerPieces :=
  if index < 0 then p
  else if metadata ≠ none ∧ index ≥ p.havePiece.length then p
  else { p with allowedFast := p.allowedFast ++ [index] }

/-- `m_suggested_pieces` with one more suggestion: the latest are first, and the list is cut when it
has grown past the limit. -/
def addSuggestion (l : List ℤ) (index : ℤ) : List ℤ :=
  index :: (if l.length > lim.maxSuggestPieces then l.take (lim.maxSuggestPieces - 1) else l)

/-- `incoming_suggest`. -/
def incomingSuggest (index : ℤ) : PeerPieces :=
  if index < 0 then p
  else if metadata ≠ none ∧ index ≥ p.havePiece.length then p
  else { p with suggestedPieces := addSuggestion lim p.suggestedPieces index }

/-- A message is received. -/
def receive (m : PieceMsg) : PeerPieces :=
  if p.disconnecting then p
  else match m with
    | .havePiece i => p.incomingHave lim metadata i
    | .bitfield bytes => p.onBitfield metadata bytes
    | .haveAll => p.incomingHaveAll metadata
    | .haveNone => p.incomingHaveNone
    | .allowedFast i => p.incomingAllowedFast metadata i
    | .suggest i => p.incomingSuggest lim metadata i

/-- `on_metadata_impl`, for a torrent of `n` pieces. The limit for the indices is the number of
pieces of the peer. -/
def onMetadataImpl (n : ℕ) : PeerPieces :=
  let have' := resizeBits p.havePiece n p.haveAll
  let limit : ℤ := have'.count true
  { p with
    havePiece := have'
    numPieces := have'.count true
    allowedFast := p.allowedFast.filter (fun i => decide (i < limit))
    suggestedPieces := p.suggestedPieces.filter (fun i => decide (i < limit)) }

/-- `init`. -/
def init (n : ℕ) : PeerPieces :=
  let have' := resizeBits p.havePiece n p.haveAll
  if p.haveAll then { p with havePiece := List.replicate n true, numPieces := n }
  else { p with havePiece := have' }

end PeerPieces

/-- The messages come first, then the metadata. -/
def lateMetadata (lim : Limits) (n : ℕ) (ms : List PieceMsg) : PeerPieces :=
  ((ms.foldl (PeerPieces.receive lim none) {}).onMetadataImpl n).init n

/-- The messages come with the metadata known. -/
def earlyMetadata (lim : Limits) (n : ℕ) (ms : List PieceMsg) : PeerPieces :=
  ms.foldl (PeerPieces.receive lim (some n)) (PeerPieces.init {} n)

/-- The message is valid for a torrent of `n` pieces. -/
def PieceMsg.Valid (n : ℕ) : PieceMsg → Prop
  | .havePiece i | .allowedFast i | .suggest i => 0 ≤ i ∧ i < n
  | .bitfield bytes => bytes.length = (n + 7) / 8
  | .haveAll | .haveNone => True

/-! ### What the messages say

The meaning of a sequence of messages, the last one first. -/

/-- The last message that was about all pieces said that the peer has them. -/
def saysAll : List PieceMsg → Bool
  | [] => false
  | .haveAll :: _ => true
  | .haveNone :: _ => false
  | _ :: ms => saysAll ms

/-- The pieces that the peer has, by its messages. -/
def announced : List PieceMsg → ℕ → Bool
  | [] => fun _ => false
  | .havePiece i :: ms => Function.update (announced ms) i.toNat true
  | .bitfield bytes :: _ => bitAt bytes
  | .haveAll :: _ => fun _ => true
  | .haveNone :: _ => fun _ => false
  | .allowedFast _ :: ms | .suggest _ :: ms => announced ms

/-- The pieces that are listed one by one, in a bitfield or an index, since the last time the peer
said that it has none. -/
def listed : List PieceMsg → ℕ → Bool
  | [] => fun _ => false
  | .havePiece i :: ms => Function.update (listed ms) i.toNat true
  | .bitfield bytes :: _ => bitAt bytes
  | .haveNone :: _ => fun _ => false
  | .haveAll :: ms | .allowedFast _ :: ms | .suggest _ :: ms => listed ms

/-- The number of pieces that have a bit so far. -/
def reach : List PieceMsg → ℕ
  | [] => 0
  | .havePiece i :: ms => max (reach ms) (i.toNat + 1)
  | .bitfield bytes :: _ => bytes.length * 8
  | _ :: ms => reach ms

/-- The pieces that are counted when the metadata comes: those that are listed, and, if the peer has
all, those without a bit. -/
def counted (n : ℕ) (ms : List PieceMsg) : ℕ :=
  (List.range n).countP (fun i => if i < reach ms then listed ms i else saysAll ms)

/-- Something was said about the pieces of the peer. -/
def began : List PieceMsg → Bool
  | [] => false
  | .allowedFast _ :: ms | .suggest _ :: ms => began ms
  | _ :: _ => true

/-- The indices of the `ALLOWED_FAST` messages, in the order of the messages. -/
def fastPieces : List PieceMsg → List ℤ
  | [] => []
  | .allowedFast i :: ms => fastPieces ms ++ [i]
  | _ :: ms => fastPieces ms

/-- The suggestions that are kept. -/
def suggestions (lim : Limits) : List PieceMsg → List ℤ
  | [] => []
  | .suggest i :: ms => PeerPieces.addSuggestion lim (suggestions lim ms) i
  | _ :: ms => suggestions lim ms

/-! ### Bits as a function -/

/-- The first `n` values of a function. -/
def bitsOf (n : ℕ) (f : ℕ → Bool) : List Bool := (List.range n).map f

@[simp] theorem length_bitsOf (n : ℕ) (f : ℕ → Bool) : (bitsOf n f).length = n := by
  simp [bitsOf]

theorem getElem?_bitsOf {n i : ℕ} (f : ℕ → Bool) (hi : i < n) : (bitsOf n f)[i]? = some (f i) := by
  simp [bitsOf, hi]

theorem bitsOf_congr {n : ℕ} {f g : ℕ → Bool} (h : ∀ i < n, f i = g i) : bitsOf n f = bitsOf n g :=
  List.map_congr_left (fun i hi => h i (List.mem_range.mp hi))

theorem eq_bitsOf {n : ℕ} {l : List Bool} {f : ℕ → Bool} (hl : l.length = n)
    (h : ∀ i < n, l[i]? = some (f i)) : l = bitsOf n f := by
  refine List.ext_getElem? (fun i => ?_)
  by_cases hi : i < n
  · rw [h i hi, getElem?_bitsOf f hi]
  · rw [List.getElem?_eq_none (by omega), List.getElem?_eq_none (by simpa using hi)]

theorem replicate_eq_bitsOf (n : ℕ) (b : Bool) : List.replicate n b = bitsOf n (fun _ => b) :=
  eq_bitsOf (by simp) (fun i hi => by simp [hi])

theorem set_bitsOf {n i : ℕ} (f : ℕ → Bool) (hi : i < n) :
    (bitsOf n f).set i true = bitsOf n (Function.update f i true) := by
  refine eq_bitsOf (by simp) (fun j hj => ?_)
  by_cases hji : j = i
  · subst hji
    rw [List.getElem?_set_self (by simpa using hj), Function.update_self]
  · rw [List.getElem?_set_ne (Ne.symm hji), getElem?_bitsOf f hj, Function.update_of_ne hji]

theorem resizeBits_bitsOf (m n : ℕ) (f : ℕ → Bool) (b : Bool) :
    resizeBits (bitsOf m f) n b = bitsOf n (fun i => if i < m then f i else b) := by
  refine eq_bitsOf ?_ (fun i hi => ?_)
  · simp [resizeBits]
    omega
  · unfold resizeBits
    by_cases him : i < m
    · rw [List.getElem?_append_left (by simp; omega), List.getElem?_take_of_lt hi,
        getElem?_bitsOf f him, if_pos him]
    · rw [List.getElem?_append_right (by simp; omega), if_neg him, List.getElem?_replicate_of_lt]
      simp
      omega

theorem count_bitsOf (n : ℕ) (f : ℕ → Bool) : (bitsOf n f).count true = (List.range n).countP f := by
  rw [bitsOf, List.count, List.countP_map]
  exact List.countP_congr (fun i _ => by simp)

theorem bitsOf_eq_iff {n : ℕ} {f g : ℕ → Bool} :
    bitsOf n f = bitsOf n g ↔ ∀ i < n, f i = g i := by
  refine ⟨fun h i hi => ?_, bitsOf_congr⟩
  have := congrArg (fun l : List Bool => l[i]?) h
  simpa only [getElem?_bitsOf _ hi, Option.some.injEq] using this

theorem countP_range_update {n i : ℕ} {f : ℕ → Bool} (hi : i < n) (hf : f i = false) :
    (List.range n).countP (Function.update f i true) = (List.range n).countP f + 1 := by
  induction n with
  | zero => omega
  | succ n ih =>
    rw [List.range_succ, List.countP_append, List.countP_append, List.countP_singleton,
      List.countP_singleton]
    by_cases hin : i = n
    · subst hin
      have hsame : (List.range i).countP (Function.update f i true) = (List.range i).countP f := by
        refine List.countP_congr (fun j hj => ?_)
        rw [Function.update_of_ne (List.mem_range.mp hj).ne]
      rw [hsame, Function.update_self, hf]
      rfl
    · rw [ih (by omega), Function.update_of_ne (Ne.symm hin)]
      omega

/-! ### The states are what the messages say -/

/-- Before the peer has said anything about its pieces, it has none. -/
theorem of_not_began {ms : List PieceMsg} (h : began ms = false) :
    announced ms = (fun _ => false) ∧ listed ms = (fun _ => false) ∧ saysAll ms = false ∧
      reach ms = 0 := by
  induction ms with
  | nil => exact ⟨rfl, rfl, rfl, rfl⟩
  | cons m ms ih =>
    cases m with
    | havePiece | bitfield | haveAll | haveNone => cases h
    | allowedFast | suggest => exact ih h

/-- What is listed has a bit. -/
theorem lt_reach_of_listed {ms : List PieceMsg} {j : ℕ} (h : listed ms j = true) :
    j < reach ms := by
  induction ms with
  | nil => cases h
  | cons m ms ih =>
    cases m with
    | havePiece i =>
      simp only [listed, Function.update_apply] at h
      simp only [reach]
      split at h
      · omega
      · have := ih h
        omega
    | bitfield bytes =>
      simp only [listed, bitAt] at h
      simp only [reach]
      by_contra hj
      rw [List.getD_eq_getElem?_getD, List.getElem?_eq_none (by omega)] at h
      simp at h
    | haveNone => cases h
    | haveAll | allowedFast | suggest => exact ih h

variable {lim : Limits} {n : ℕ}

/-- The fields, with the metadata known. -/
def earlyState (lim : Limits) (n : ℕ) (ms : List PieceMsg) : PeerPieces where
  havePiece := bitsOf n (announced ms)
  numPieces := (List.range n).countP (announced ms)
  allowedFast := fastPieces ms
  suggestedPieces := suggestions lim ms
  haveAll := saysAll ms
  bitfieldReceived := began ms

/-- The fields before the metadata is there, `k` being the number of pieces. -/
def lateState (lim : Limits) (ms : List PieceMsg) (k : ℕ) : PeerPieces where
  havePiece := bitsOf (reach ms) (listed ms)
  numPieces := k
  allowedFast := fastPieces ms
  suggestedPieces := suggestions lim ms
  haveAll := saysAll ms
  bitfieldReceived := began ms

namespace PeerPieces

/-- The bit of a piece is set, whether it was set before or not. -/
theorem setPiece_bitsOf {p : PeerPieces} {m i : ℕ} {f : ℕ → Bool} (hp : p.havePiece = bitsOf m f)
    (hi : i < m) :
    p.setPiece i = { p with
      havePiece := bitsOf m (Function.update f i true)
      numPieces := if f i then p.numPieces else p.numPieces + 1 } := by
  have hget : (bitsOf m f).getD i false = f i := by
    rw [List.getD_eq_getElem?_getD, getElem?_bitsOf f hi]
    rfl
  unfold setPiece
  rw [hp, length_bitsOf, if_neg (by omega), Int.toNat_natCast, hget]
  split
  · rename_i h
    have hsame : Function.update f i true = f := by
      rw [← h]
      exact Function.update_eq_self i f
    rw [hsame, ← hp]
  · rw [set_bitsOf f hi]

theorem receive_early {m : PieceMsg} {ms : List PieceMsg} (hm : m.Valid n) :
    (earlyState lim n ms).receive lim (some n) m = earlyState lim n (m :: ms) := by
  cases m with
  | havePiece i =>
    obtain ⟨i, rfl⟩ := Int.eq_ofNat_of_zero_le hm.1
    have hi : i < n := by
      have := hm.2
      omega
    -- a peer that has sent no bitfield has none, which is what it has said so far
    have hnone : (if (earlyState lim n ms).bitfieldReceived then earlyState lim n ms
        else (earlyState lim n ms).incomingHaveNone) =
        { earlyState lim n ms with bitfieldReceived := true } := by
      split
      · rename_i h
        rw [← h]
      · rename_i h
        obtain ⟨h1, -, h3, -⟩ := of_not_began (by simpa [earlyState] using h)
        simp [earlyState, incomingHaveNone, h1, h3, replicate_eq_bitsOf]
    change incomingHave lim (some n) (earlyState lim n ms) i = _
    simp only [incomingHave, hnone, reduceCtorEq, false_and, if_false]
    rw [setPiece_bitsOf rfl hi]
    simp only [earlyState, announced, fastPieces, suggestions, saysAll, began, Int.toNat_natCast]
    congr 1
    split
    · rename_i h
      rw [← h, Function.update_eq_self]
    · rename_i h
      exact (countP_range_update hi (by simpa using h)).symm
  | bitfield bytes =>
    have hm' : bytes.length = (n + 7) / 8 := hm
    change onBitfield (some n) (earlyState lim n ms) bytes = _
    have hlen : (earlyState lim n ms).havePiece.length = n := length_bitsOf n _
    have hbits : assignBits bytes n = bitsOf n (bitAt bytes) := rfl
    simp only [onBitfield, hm', ne_eq, not_true_eq_false, if_false, incomingBitfield, hlen, hbits,
      length_bitsOf, count_bitsOf]
    split
    · rename_i hall
      -- the bitfield is full, so all of its bits are set
      have hset : bitsOf n (bitAt bytes) = List.replicate n true := by
        refine List.eq_replicate_iff.mpr ⟨length_bitsOf n _, fun b hb => ?_⟩
        rw [← count_bitsOf] at hall
        have := List.count_eq_length.mp (hall.trans (length_bitsOf n _).symm) b hb
        exact this.symm
      rw [← hset]
      rfl
    · rfl
  | haveAll =>
    change incomingHaveAll (some n) (earlyState lim n ms) = _
    have hcount : (List.range n).countP (fun _ => true) = n := by simp
    simp [incomingHaveAll, earlyState, announced, fastPieces, suggestions, saysAll, began,
      replicate_eq_bitsOf, hcount]
  | haveNone =>
    change incomingHaveNone (earlyState lim n ms) = _
    simp [incomingHaveNone, earlyState, announced, fastPieces, suggestions, saysAll, began,
      replicate_eq_bitsOf]
  | allowedFast i =>
    change incomingAllowedFast (some n) (earlyState lim n ms) i = _
    have hlen : (earlyState lim n ms).havePiece.length = n := length_bitsOf n _
    rw [incomingAllowedFast, if_neg (by have := hm.1; omega), hlen,
      if_neg (by have := hm.2; omega)]
    rfl
  | suggest i =>
    change incomingSuggest lim (some n) (earlyState lim n ms) i = _
    have hlen : (earlyState lim n ms).havePiece.length = n := length_bitsOf n _
    rw [incomingSuggest, if_neg (by have := hm.1; omega), hlen, if_neg (by have := hm.2; omega)]
    rfl

theorem receive_late {m : PieceMsg} {ms : List PieceMsg} {k : ℕ} (hn : (n : ℤ) ≤ lim.maxPieceCount)
    (hm : m.Valid n) :
    ∃ k', (lateState lim ms k).receive lim none m = lateState lim (m :: ms) k' := by
  cases m with
  | havePiece i =>
    obtain ⟨i, rfl⟩ := Int.eq_ofNat_of_zero_le hm.1
    have hi : i < n := by
      have := hm.2
      omega
    have hnone : ∃ k', (if (lateState lim ms k).bitfieldReceived then lateState lim ms k
        else (lateState lim ms k).incomingHaveNone) =
        { lateState lim ms k' with bitfieldReceived := true } := by
      split
      · rename_i h
        exact ⟨k, by rw [← h]⟩
      · rename_i h
        obtain ⟨-, h2, h3, h4⟩ := of_not_began (by simpa [lateState] using h)
        exact ⟨0, by simp [lateState, incomingHaveNone, h2, h3, h4, bitsOf]⟩
    obtain ⟨k', hk'⟩ := hnone
    change ∃ k', incomingHave lim none (lateState lim ms k) i = _
    simp only [incomingHave, hk', true_and]
    have hlen : (lateState lim ms k').havePiece.length = reach ms := length_bitsOf _ _
    rw [hlen]
    by_cases hgrow : (i : ℤ) ≥ reach ms
    · -- the bitfield grows up to the index; what it has no bit for is not listed
      rw [if_pos hgrow, if_pos (by omega), Int.toNat_natCast]
      have hbits : resizeBits (lateState lim ms k').havePiece (i + 1) false =
          bitsOf (i + 1) (listed ms) := by
        change resizeBits (bitsOf (reach ms) (listed ms)) (i + 1) false = _
        rw [resizeBits_bitsOf]
        refine bitsOf_congr (fun j _ => ?_)
        split
        · rfl
        · rename_i hj
          by_contra hc
          have hlt : j < reach ms := lt_reach_of_listed (by simpa using hc)
          omega
      rw [setPiece_bitsOf hbits (by omega)]
      refine ⟨if listed ms i then k' else k' + 1, ?_⟩
      have hreach : max (reach ms) (i + 1) = i + 1 := by omega
      simp only [lateState, listed, reach, fastPieces, suggestions, saysAll, began,
        Int.toNat_natCast, hreach]
    · rw [if_neg hgrow, setPiece_bitsOf rfl (by omega)]
      refine ⟨if listed ms i then k' else k' + 1, ?_⟩
      have hreach : max (reach ms) (i + 1) = reach ms := by omega
      simp only [lateState, listed, reach, fastPieces, suggestions, saysAll, began,
        Int.toNat_natCast, hreach]
  | bitfield bytes => exact ⟨_, rfl⟩
  | haveAll => exact ⟨k, rfl⟩
  | haveNone =>
    refine ⟨0, ?_⟩
    change incomingHaveNone (lateState lim ms k) = _
    simp [incomingHaveNone, lateState, listed, reach, fastPieces, suggestions, saysAll, began,
      replicate_eq_bitsOf]
  | allowedFast i =>
    refine ⟨k, ?_⟩
    change incomingAllowedFast none (lateState lim ms k) i = _
    rw [incomingAllowedFast, if_neg (by have := hm.1; omega), if_neg (fun h => h.1 rfl)]
    rfl
  | suggest i =>
    refine ⟨k, ?_⟩
    change incomingSuggest lim none (lateState lim ms k) i = _
    rw [incomingSuggest, if_neg (by have := hm.1; omega), if_neg (fun h => h.1 rfl)]
    rfl

end PeerPieces

/-- The fields agree: the pieces and their number, the allowed fast pieces, and the suggestions up to
the cap. -/
structure SamePieces (lim : Limits) (p q : PeerPieces) : Prop where
  havePiece : p.havePiece = q.havePiece
  numPieces : p.numPieces = q.numPieces
  allowedFast : p.allowedFast = q.allowedFast
  suggestedPieces :
    p.suggestedPieces.take lim.maxSuggestPieces = q.suggestedPieces.take lim.maxSuggestPieces

theorem earlyMetadata_eq {ms : List PieceMsg} (hv : ∀ m ∈ ms, m.Valid n) :
    earlyMetadata lim n ms = earlyState lim n ms.reverse := by
  induction ms using List.reverseRecOn with
  | nil =>
    have hbits : resizeBits [] n false = bitsOf n (fun _ => false) := by
      rw [← replicate_eq_bitsOf]
      simp [resizeBits]
    simp [earlyMetadata, PeerPieces.init, earlyState, announced, fastPieces, suggestions, saysAll,
      began, hbits]
  | append_singleton ms m ih =>
    have ih' := ih (fun x hx => hv x (List.mem_append_left _ hx))
    rw [earlyMetadata] at ih' ⊢
    rw [List.foldl_append, ih', List.reverse_append]
    exact PeerPieces.receive_early (hv m (by simp))

theorem receive_none_eq {ms : List PieceMsg} (hn : (n : ℤ) ≤ lim.maxPieceCount)
    (hv : ∀ m ∈ ms, m.Valid n) :
    ∃ k, ms.foldl (PeerPieces.receive lim none) {} = lateState lim ms.reverse k := by
  induction ms using List.reverseRecOn with
  | nil => exact ⟨0, rfl⟩
  | append_singleton ms m ih =>
    obtain ⟨k, hk⟩ := ih (fun x hx => hv x (List.mem_append_left _ hx))
    rw [List.foldl_append, hk, List.reverse_append]
    exact PeerPieces.receive_late hn (hv m (by simp))

/-- What is listed is what is announced, as long as the peer does not have all. -/
theorem announced_eq_listed {ms : List PieceMsg} (h : saysAll ms = false) :
    announced ms = listed ms := by
  suffices h : saysAll ms = true ∨ announced ms = listed ms by
    rcases h with h' | h'
    · exact absurd (h.symm.trans h') (by decide)
    · exact h'
  clear h
  induction ms with
  | nil => exact .inr rfl
  | cons m ms ih =>
    cases m with
    | havePiece i => exact ih.imp id (fun h => by rw [announced, listed, h])
    | bitfield | haveNone => exact .inr rfl
    | haveAll => exact .inl rfl
    | allowedFast | suggest => exact ih

/-- The fields after the metadata has come. -/
theorem lateMetadata_eq {ms : List PieceMsg} (hn : (n : ℤ) ≤ lim.maxPieceCount)
    (hv : ∀ m ∈ ms, m.Valid n) :
    (lateMetadata lim n ms).havePiece =
      bitsOf n (fun i => saysAll ms.reverse || announced ms.reverse i) ∧
    (lateMetadata lim n ms).numPieces = (lateMetadata lim n ms).havePiece.count true ∧
    (lateMetadata lim n ms).allowedFast =
      (fastPieces ms.reverse).filter (fun i => decide (i < (counted n ms.reverse : ℤ))) ∧
    (lateMetadata lim n ms).suggestedPieces =
      (suggestions lim ms.reverse).filter (fun i => decide (i < (counted n ms.reverse : ℤ))) := by
  obtain ⟨k, hk⟩ := receive_none_eq hn hv
  rw [lateMetadata, hk]
  generalize ms.reverse = rs
  have hlimit : (resizeBits (lateState lim rs k).havePiece n (lateState lim rs k).haveAll).count
      true = counted n rs := by
    change (resizeBits (bitsOf (reach rs) (listed rs)) n (saysAll rs)).count true = _
    rw [resizeBits_bitsOf, count_bitsOf]
    rfl
  simp only [PeerPieces.onMetadataImpl, hlimit]
  cases hall : saysAll rs with
  | true =>
    have hall' : (lateState lim rs k).haveAll = true := hall
    simp only [PeerPieces.init, hall', if_true, Bool.true_or]
    refine ⟨replicate_eq_bitsOf n true, ?_, rfl, rfl⟩
    simp
  | false =>
    have hall' : (lateState lim rs k).haveAll = false := hall
    have hbits : resizeBits (bitsOf (reach rs) (listed rs)) n false = bitsOf n (announced rs) := by
      rw [resizeBits_bitsOf, announced_eq_listed hall]
      refine bitsOf_congr (fun i _ => ?_)
      split
      · rfl
      · rename_i hi
        by_contra hc
        exact hi (lt_reach_of_listed (by simpa using hc))
    have hsame : resizeBits (bitsOf n (announced rs)) n false = bitsOf n (announced rs) := by
      rw [resizeBits_bitsOf]
      exact bitsOf_congr (fun i hi => if_pos hi)
    have hbits' : (lateState lim rs k).havePiece = bitsOf (reach rs) (listed rs) := rfl
    rw [hall', hbits', hbits] at hlimit
    simp only [PeerPieces.init, hall', hbits', hbits, hsame, Bool.false_or]
    exact ⟨rfl, hlimit.symm, rfl, rfl⟩

theorem take_filter_eq_take_iff {α : Type} {P : α → Bool} {l : List α} {k : ℕ} :
    (l.filter P).take k = l.take k ↔ ∀ x ∈ l.take k, P x = true := by
  constructor
  · intro h x hx
    rw [← h] at hx
    exact (List.mem_filter.mp (List.mem_of_mem_take hx)).2
  · intro h
    have hsplit : l.filter P = l.take k ++ (l.drop k).filter P := by
      conv_lhs => rw [← List.take_append_drop k l, List.filter_append, List.filter_eq_self.mpr h]
    rw [hsplit]
    by_cases hk : k ≤ l.length
    · rw [List.take_append_of_le_length (by rw [List.length_take]; omega), List.take_take, min_self]
    · rw [List.drop_of_length_le (by omega), List.filter_nil, List.append_nil, List.take_take,
        min_self]

/-- **The metadata may come late.** The fields are the same as with the metadata known from the
start exactly if a peer that has said that it has all has announced every piece (no bitfield after
that left one out), and every allowed fast piece and every suggestion up to the cap is below the
number of pieces that are counted when the metadata comes. -/
theorem lateMetadata_same_iff {ms : List PieceMsg} (hn : (n : ℤ) ≤ lim.maxPieceCount)
    (hv : ∀ m ∈ ms, m.Valid n) :
    SamePieces lim (lateMetadata lim n ms) (earlyMetadata lim n ms) ↔
      (saysAll ms.reverse = true → ∀ i < n, announced ms.reverse i = true) ∧
      (∀ i ∈ fastPieces ms.reverse, i < counted n ms.reverse) ∧
      ∀ i ∈ (suggestions lim ms.reverse).take lim.maxSuggestPieces, i < counted n ms.reverse := by
  obtain ⟨h1, h2, h3, h4⟩ := lateMetadata_eq hn hv
  have hearly : earlyMetadata lim n ms = earlyState lim n ms.reverse := earlyMetadata_eq hv
  have hpieces : (lateMetadata lim n ms).havePiece = (earlyMetadata lim n ms).havePiece ↔
      (saysAll ms.reverse = true → ∀ i < n, announced ms.reverse i = true) := by
    rw [h1, hearly]
    change bitsOf n _ = bitsOf n _ ↔ _
    rw [bitsOf_eq_iff]
    cases saysAll ms.reverse with
    | true => simp
    | false => simp
  have hfast : (lateMetadata lim n ms).allowedFast = (earlyMetadata lim n ms).allowedFast ↔
      ∀ i ∈ fastPieces ms.reverse, i < counted n ms.reverse := by
    rw [h3, hearly]
    change List.filter _ _ = fastPieces ms.reverse ↔ _
    rw [List.filter_eq_self]
    simp
  have hsugg : (lateMetadata lim n ms).suggestedPieces.take lim.maxSuggestPieces =
      (earlyMetadata lim n ms).suggestedPieces.take lim.maxSuggestPieces ↔
      ∀ i ∈ (suggestions lim ms.reverse).take lim.maxSuggestPieces, i < counted n ms.reverse := by
    rw [h4, hearly]
    change (List.filter _ _).take _ = (suggestions lim ms.reverse).take _ ↔ _
    rw [take_filter_eq_take_iff]
    simp
  constructor
  · intro h
    exact ⟨hpieces.mp h.havePiece, hfast.mp h.allowedFast, hsugg.mp h.suggestedPieces⟩
  · rintro ⟨ha, hf, hs⟩
    have hp := hpieces.mpr ha
    refine ⟨hp, ?_, hfast.mpr hf, hsugg.mpr hs⟩
    rw [h2, hp, hearly]
    exact count_bitsOf n (announced ms.reverse)

instance (n : ℕ) (m : PieceMsg) : Decidable (m.Valid n) :=
  match m with
  | .havePiece i | .allowedFast i | .suggest i => inferInstanceAs (Decidable (0 ≤ i ∧ i < n))
  | .bitfield bytes => inferInstanceAs (Decidable (bytes.length = (n + 7) / 8))
  | .haveAll | .haveNone => inferInstanceAs (Decidable True)

/-- A peer of a torrent of four pieces that has all of them. -/
theorem lateMetadata_same_full :
    (∀ m ∈ [PieceMsg.bitfield [0xf0], .allowedFast 2, .suggest 3], m.Valid 4) ∧
    SamePieces .default
      (lateMetadata .default 4 [.bitfield [0xf0], .allowedFast 2, .suggest 3])
      (earlyMetadata .default 4 [.bitfield [0xf0], .allowedFast 2, .suggest 3]) := by
  have hv : ∀ m ∈ [PieceMsg.bitfield [0xf0], .allowedFast 2, .suggest 3], m.Valid 4 := by decide
  refine ⟨hv, (lateMetadata_same_iff (by decide) hv).mpr ⟨?_, ?_, ?_⟩⟩
  · decide
  · decide
  · decide

/-- A peer that has one piece lets us request another one; this is forgotten when the metadata
comes. -/
theorem lateMetadata_not_same :
    ¬ ∀ (lim : Limits) (n : ℕ) (ms : List PieceMsg), (n : ℤ) ≤ lim.maxPieceCount →
      (∀ m ∈ ms, m.Valid n) →
      SamePieces lim (lateMetadata lim n ms) (earlyMetadata lim n ms) := by
  intro h
  have hsame := h .default 4 [.havePiece 3, .allowedFast 2] (by decide) (by decide)
  exact absurd hsame.allowedFast (by decide)

end Peer

end LibtorrentSN
