import LibtorrentSN.Bencode.Scan

/-!
# Bencoding: `bdecode` accepts the grammar

While `bdecode` runs, it has read the complete items of some lists and dictionaries that are open
still, one inside the other (a `Zipper`). `Zipper.decoder` says what its variables are then: every
turn of the loop leads from there to another zipper, and every value can be read from there.
-/

namespace LibtorrentSN

namespace Bencode

open Value

/-- A list or dictionary whose end is yet to come, with its complete items. -/
structure OpenSequence where
  isDict : Bool
  items : List Value

/-- What has been read: the outermost value if it is complete, and the open lists and
dictionaries, the innermost first. -/
structure Zipper where
  root : List Value
  frames : List OpenSequence

/-- A value takes a token at least. -/
theorem Value.tokenCount_pos (v : Value) : 0 < v.tokenCount := by
  cases v with
  | int _ _ => exact Nat.one_pos
  | str _ _ => exact Nat.one_pos
  | list _ => exact Nat.succ_pos _
  | dict _ => exact Nat.succ_pos _

/-- Every value of a list takes a token at least. -/
theorem Value.length_le_tokenCountAll (vs : List Value) : vs.length ≤ tokenCountAll vs := by
  induction vs with
  | nil => exact Nat.le_refl 0
  | cons v vs ih =>
    have := v.tokenCount_pos
    rw [tokenCountAll, List.length_cons]
    omega

namespace Zipper

section Layout
variable (root : List Value)

/-- The bytes before the cursor. -/
def bytesOf : List OpenSequence → List UInt8
  | [] => encodeAll root
  | o :: fs => bytesOf fs ++ sequenceByte o.isDict :: encodeAll o.items

/-- The tokens before the cursor. -/
def tokensOf : List OpenSequence → List BdecodeToken
  | [] => tokensAll 0 root
  | o :: fs => tokensOf fs ++ .unlinked (bytesOf root fs).length (sequenceType o.isDict) ::
      tokensAll ((bytesOf root fs).length + 1) o.items

/-- The stack. `begun` is 1 where an item of the sequence is open. -/
def stackOf (begun : ℕ) : List OpenSequence → List StackFrame
  | [] => []
  | o :: fs => ⟨(tokensOf root fs).length % 2 ^ 31,
      o.isDict && (o.items.length + begun) % 2 == 1⟩ :: stackOf 1 fs

end Layout

variable {z : Zipper} {v : Value} {o : OpenSequence} {fs : List OpenSequence}

/-- What has been read. -/
def bytes (z : Zipper) : List UInt8 := bytesOf z.root z.frames

/-- What has been written. -/
def tokens (z : Zipper) : List BdecodeToken := tokensOf z.root z.frames

/-- The variables of `bdecode`. -/
def decoder (z : Zipper) (tokenLimit : ℤ) : Decoder :=
  ⟨z.bytes.length, stackOf z.root 0 z.frames, z.tokens, tokenLimit - z.tokens.length⟩

/-- One more complete item. -/
def push (z : Zipper) (v : Value) : Zipper :=
  match z.frames with
  | [] => { z with root := z.root ++ [v] }
  | o :: fs => { z with frames := { o with items := o.items ++ [v] } :: fs }

/-- A list or dictionary begins. -/
def enter (z : Zipper) (isDict : Bool) : Zipper := { z with frames := ⟨isDict, []⟩ :: z.frames }

/-- A value read adds its bytes. -/
theorem bytes_push (z : Zipper) (v : Value) : (z.push v).bytes = z.bytes ++ v.encode := by
  obtain ⟨root, - | ⟨o, fs⟩⟩ := z
  · exact (encodeAll_append root [v]).trans (by rw [encodeAll_singleton]; rfl)
  · simp only [push, bytes, bytesOf, encodeAll_append, encodeAll_singleton, List.append_assoc,
      List.cons_append]

/-- A value read adds its tokens. -/
theorem tokens_push (z : Zipper) (v : Value) :
    (z.push v).tokens = z.tokens ++ v.tokens z.bytes.length := by
  obtain ⟨root, - | ⟨o, fs⟩⟩ := z
  · exact (tokensAll_append 0 root [v]).trans (by rw [tokensAll_singleton, Nat.zero_add]; rfl)
  · simp only [push, tokens, bytes, bytesOf, tokensOf, tokensAll_append, tokensAll_singleton,
      List.append_assoc, List.cons_append, List.length_append, List.length_cons]
    rw [Nat.add_right_comm, Nat.add_assoc]

/-- A list or dictionary entered adds its first byte. -/
theorem bytes_enter (z : Zipper) (isDict : Bool) :
    (z.enter isDict).bytes = z.bytes ++ [sequenceByte isDict] := rfl

/-- A list or dictionary entered adds a token without a link. -/
theorem tokens_enter (z : Zipper) (isDict : Bool) : (z.enter isDict).tokens =
    z.tokens ++ [.unlinked z.bytes.length (sequenceType isDict)] := rfl

/-- A value pushed counts in the frame it is in. -/
theorem stackOf_push (z : Zipper) (v : Value) (begun : ℕ) :
    stackOf (z.push v).root begun (z.push v).frames = stackOf z.root (begun + 1) z.frames := by
  obtain ⟨root, - | ⟨o, fs⟩⟩ := z
  · rfl
  · simp only [push, stackOf, List.length_append, List.length_singleton]
    rw [Nat.add_assoc, Nat.add_comm 1]

/-- There are no more tokens than bytes. -/
theorem length_tokensOf_le (root : List Value) (fs : List OpenSequence) :
    (tokensOf root fs).length ≤ (bytesOf root fs).length := by
  induction fs with
  | nil =>
    rw [tokensOf, bytesOf, length_tokensAll]
    exact tokenCountAll_le root
  | cons o fs ih =>
    rw [tokensOf, bytesOf, List.length_append, List.length_append, List.length_cons, List.length_cons,
      length_tokensAll]
    exact Nat.add_le_add ih (Nat.succ_le_succ (tokenCountAll_le o.items))

/-- The stack has one frame for each open sequence. -/
theorem length_stackOf (root : List Value) (begun : ℕ) (fs : List OpenSequence) :
    (stackOf root begun fs).length = fs.length := by
  induction fs generalizing begun with
  | nil => rfl
  | cons o fs ih => rw [stackOf, List.length_cons, List.length_cons, ih]

/-! ## One turn of the loop -/

section Turn
variable {root : List Value} {d : Decoder} {more : List BdecodeToken} {tokenLimit : ℤ}

/-- The flip turns the state of the innermost dictionary. -/
theorem flip_eq {depth n : ℕ} (h : d.stack.length = depth + n) : d.flip depth = { d with
    stack := d.stack.modify n fun f => if d.isDict f then { f with state := !f.state } else f } := by
  rw [Decoder.flip, if_neg (by omega), h, Nat.add_sub_cancel_left]

/-- The frame of the innermost open sequence is one of a dictionary if the sequence is. -/
theorem isDict_top (hd : d.tokens = tokensOf root (o :: fs) ++ more)
    (hlen : (tokensOf root fs).length < 2 ^ 31) (state : Bool) :
    d.isDict ⟨(tokensOf root fs).length % 2 ^ 31, state⟩ ↔ o.isDict = true := by
  have htok : d.tokens[(tokensOf root fs).length]? =
      some (.unlinked (bytesOf root fs).length (sequenceType o.isDict)) := by
    rw [hd, tokensOf, List.append_assoc, List.cons_append,
      List.getElem?_append_right (Nat.le_refl _), Nat.sub_self, List.getElem?_cons_zero]
  rw [Decoder.isDict, Nat.mod_eq_of_lt hlen, htok]
  cases o.isDict <;> simp [BdecodeToken.unlinked, sequenceType]

/-- An item of the innermost open sequence has begun. -/
theorem modify_top (hd : d.tokens = tokensOf root fs ++ more)
    (hlen : (tokensOf root fs).length < 2 ^ 31) :
    ((stackOf root 0 fs).modify 0 fun f => if d.isDict f then { f with state := !f.state } else f) =
      stackOf root 1 fs := by
  rcases fs with - | ⟨o, fs⟩
  · rfl
  have hlt : (tokensOf root fs).length < 2 ^ 31 := by
    rw [tokensOf, List.length_append] at hlen
    omega
  rw [stackOf, stackOf, List.modify_zero_cons, if_congr (isDict_top hd hlt _) rfl rfl]
  congr 1
  rcases ho : o.isDict with - | -
  · rfl
  · rw [if_pos rfl]
    congr 1
    rcases Nat.mod_two_eq_zero_or_one o.items.length with h | h <;> simp [Nat.add_mod, h]

/-- The limit on tokens, counted down. -/
def counted (z : Zipper) (tokenLimit : ℤ) : Decoder :=
  { z.decoder tokenLimit with tokenLimit := (z.decoder tokenLimit).tokenLimit - 1 }

theorem length_tokens_lt (hlen : z.bytes.length ≤ maxOffset) : z.tokens.length < 2 ^ 31 := by
  have := length_tokensOf_le z.root z.frames
  rw [bytes, maxOffset] at hlen
  rw [tokens]
  omega

/-- A leaf read leads to the decoder of the zipper pushed. -/
theorem flip_leaf (hlen : z.bytes.length ≤ maxOffset) (hleaf : v.Leaf) :
    ((z.counted tokenLimit).leaf v).flip (z.counted tokenLimit).stack.length =
      (z.push v).decoder tokenLimit := by
  have hone : (v.tokens z.bytes.length).length = 1 := by
    rw [length_tokens]
    cases v with
    | int _ _ => rfl
    | str _ _ => rfl
    | list _ => cases hleaf
    | dict _ => cases hleaf
  have hsame : ((z.counted tokenLimit).leaf v).stack.length =
      (z.counted tokenLimit).stack.length + 0 := rfl
  rw [flip_eq hsame]
  refine Decoder.ext ?_ ?_ ?_ ?_
  · rw [decoder, bytes_push, List.length_append]
    rfl
  · rw [decoder, stackOf_push]
    exact modify_top rfl (length_tokens_lt hlen)
  · rw [decoder, tokens_push]
    rfl
  · rw [decoder, tokens_push, List.length_append, hone]
    change tokenLimit - z.tokens.length - 1 = _
    push_cast
    rw [Int.sub_sub]

/-- A sequence opened leads to the decoder of the zipper entered. -/
theorem flip_enter (hlen : z.bytes.length ≤ maxOffset) (isDict : Bool) :
    ((z.counted tokenLimit).openSequence (sequenceType isDict)).flip
      (z.counted tokenLimit).stack.length = (z.enter isDict).decoder tokenLimit := by
  rw [flip_eq (n := 1) rfl]
  refine Decoder.ext ?_ ?_ ?_ ?_
  · rw [decoder, bytes_enter, List.length_append]
    rfl
  · have htok : ((z.counted tokenLimit).openSequence (sequenceType isDict)).tokens =
        tokensOf z.root z.frames ++ [.unlinked z.bytes.length (sequenceType isDict)] := rfl
    have hmod := modify_top htok (length_tokens_lt hlen)
    have hstate : (isDict && (0 + 0) % 2 == 1) = false := by cases isDict <;> rfl
    rw [decoder, enter, stackOf, List.length_nil, hstate, ← hmod]
    rfl
  · rw [decoder, tokens_enter]
    rfl
  · rw [decoder, tokens_enter, List.length_append]
    change tokenLimit - z.tokens.length - 1 = _
    push_cast
    rw [Int.sub_sub]
    rfl

theorem modify_append_cons {α : Type*} (l r : List α) (a : α) (f : α → α) :
    (l ++ a :: r).modify l.length f = l ++ f a :: r := by
  induction l with
  | nil => rfl
  | cons b l ih => rw [List.cons_append, List.length_cons, List.modify_succ_cons, ih, List.cons_append]

/-- Closing links the innermost frame, or fails in the middle of a pair. -/
theorem closeSequence_cons {top : StackFrame} {stack : List StackFrame}
    (h : d.stack = top :: stack) : d.closeSequence =
      if d.isDict top ∧ top.state = true then d.fail .expectedValue
      else
        let tokens := d.tokens ++ [.linked d.start 1 .endToken 0]
        let next := tokens.length - top.token
        if maxNextItem < next then Decoder.fail { d with tokens := tokens } .limitExceeded
        else .ok { d with
          tokens := tokens.modify top.token ({ · with nextItem := next % 2 ^ 29 })
          stack := stack
          start := d.start + 1 } := by
  rw [Decoder.closeSequence, h]

/-- The zipper without its innermost open sequence `o`. -/
def leave (z : Zipper) (o : OpenSequence) (fs : List OpenSequence) : Zipper :=
  ({ z with frames := fs } : Zipper).push (.sequence o.isDict o.items)

/-- A sequence left adds its `e`. -/
theorem bytes_leave (hz : z.frames = o :: fs) : (z.leave o fs).bytes = z.bytes ++ [ascii 'e'] := by
  rw [leave, bytes_push, encode_sequence, bytes, bytes, hz, bytesOf, List.append_assoc,
    List.cons_append]

/-- The token of the sequence gets its link. -/
theorem tokens_leave (hz : z.frames = o :: fs) : (z.leave o fs).tokens =
    (z.tokens ++ [BdecodeToken.linked z.bytes.length 1 .endToken 0]).modify
      (tokensOf z.root fs).length
      ({ · with nextItem := (tokenCountAll o.items + 2) % 2 ^ 29 }) := by
  have hbytes : z.bytes.length =
      (bytesOf z.root fs).length + 1 + (encodeAll o.items).length := by
    rw [bytes, hz, bytesOf, List.length_append, List.length_cons]
    omega
  rw [leave, tokens_push, tokens_sequence, sequenceTokens, hbytes, tokens, tokens, hz, tokensOf,
    List.append_assoc, List.cons_append, modify_append_cons]
  rfl

/-- Closing leads to the decoder of the zipper left. -/
theorem close_eq (hz : z.frames = o :: fs) (hlen : z.bytes.length < maxOffset) :
    (z.counted tokenLimit).closeSequence =
      if o.isDict = true ∧ o.items.length % 2 = 1 then (z.counted tokenLimit).fail .expectedValue
      else .ok ((z.leave o fs).decoder tokenLimit) := by
  obtain ⟨root, frames⟩ := z
  obtain rfl : frames = o :: fs := hz
  have hle := length_tokensOf_le root (o :: fs)
  have hbytes : (bytesOf root (o :: fs)).length < maxOffset := hlen
  have hcount : (tokensOf root (o :: fs)).length =
      (tokensOf root fs).length + 1 + tokenCountAll o.items := by
    rw [tokensOf, List.length_append, List.length_cons, length_tokensAll]
    omega
  rw [maxOffset] at hbytes
  have htop : (tokensOf root fs).length % 2 ^ 31 = (tokensOf root fs).length :=
    Nat.mod_eq_of_lt (by omega)
  have htok : (counted ⟨root, o :: fs⟩ tokenLimit).tokens = tokensOf root (o :: fs) ++ [] :=
    (List.append_nil _).symm
  have hdict := isDict_top htok (show (tokensOf root fs).length < 2 ^ 31 by omega)
  have hcond : ((counted ⟨root, o :: fs⟩ tokenLimit).isDict
      ⟨(tokensOf root fs).length % 2 ^ 31, o.isDict && (o.items.length + 0) % 2 == 1⟩ ∧
      (o.isDict && (o.items.length + 0) % 2 == 1) = true) ↔
      (o.isDict = true ∧ o.items.length % 2 = 1) := by
    rw [hdict, Nat.add_zero, Bool.and_eq_true, beq_iff_eq]
    exact ⟨fun h => h.2, fun h => ⟨h.1, h⟩⟩
  have hstack : (counted ⟨root, o :: fs⟩ tokenLimit).stack =
      ⟨(tokensOf root fs).length % 2 ^ 31, o.isDict && (o.items.length + 0) % 2 == 1⟩ ::
        stackOf root 1 fs := rfl
  rw [closeSequence_cons hstack, if_congr hcond rfl rfl]
  dsimp only
  split_ifs with hkey hmax
  · rfl
  · have htokens : (counted ⟨root, o :: fs⟩ tokenLimit).tokens = tokensOf root (o :: fs) := rfl
    rw [htop, List.length_append, htokens, hcount, List.length_singleton, maxNextItem] at hmax
    omega
  · set z : Zipper := ⟨root, o :: fs⟩
    have hstart : (z.leave o fs).bytes.length = z.bytes.length + 1 := by
      rw [bytes_leave rfl, List.length_append, List.length_singleton]
    have hlength : (z.leave o fs).tokens.length = z.tokens.length + 1 := by
      rw [tokens_leave rfl, List.length_modify, List.length_append, List.length_singleton]
    have hnext : (z.tokens ++ [BdecodeToken.linked z.bytes.length 1 .endToken 0]).length -
        (tokensOf root fs).length = tokenCountAll o.items + 2 := by
      rw [List.length_append, List.length_singleton]
      change (tokensOf root (o :: fs)).length + 1 - _ = _
      omega
    have htokens : (z.leave o fs).tokens = (z.tokens ++ [BdecodeToken.linked z.bytes.length 1
        .endToken 0]).modify ((tokensOf root fs).length % 2 ^ 31) ({ · with nextItem :=
          ((z.tokens ++ [BdecodeToken.linked z.bytes.length 1 .endToken 0]).length -
            (tokensOf root fs).length % 2 ^ 31) % 2 ^ 29 }) := by
      rw [htop, hnext]
      exact tokens_leave rfl
    refine congrArg Except.ok (Decoder.ext hstart.symm ?_ htokens.symm ?_)
    · change _ = stackOf (z.leave o fs).root 0 (z.leave o fs).frames
      rw [leave, stackOf_push]
    · change tokenLimit - (z.tokens.length : ℤ) - 1 = tokenLimit - ((z.leave o fs).tokens.length : ℤ)
      rw [hlength]
      push_cast
      rw [Int.sub_sub]

/-- The next item is the key of a dictionary. -/
def keyNext (z : Zipper) : Prop :=
  ∃ o ∈ z.frames.head?, o.isDict = true ∧ o.items.length % 2 = 0

/-- The decoder expects a key when the zipper does. -/
theorem inKey_counted (hlen : z.bytes.length ≤ maxOffset) :
    (z.counted tokenLimit).inKey ↔ z.keyNext := by
  obtain ⟨root, - | ⟨o, fs⟩⟩ := z
  · simp [Decoder.inKey, keyNext, counted, decoder, stackOf]
  have hlt : (tokensOf root fs).length < 2 ^ 31 := by
    have := length_tokens_lt hlen
    rw [tokens, tokensOf, List.length_append] at this
    dsimp only at this
    omega
  have htok : (counted ⟨root, o :: fs⟩ tokenLimit).tokens = tokensOf root (o :: fs) ++ [] :=
    (List.append_nil _).symm
  have hdict := isDict_top htok hlt
  have hhead : (counted ⟨root, o :: fs⟩ tokenLimit).stack.head? =
      some ⟨(tokensOf root fs).length % 2 ^ 31, o.isDict && (o.items.length + 0) % 2 == 1⟩ := rfl
  rw [Decoder.inKey, hhead, keyNext, List.head?_cons]
  simp only [Option.mem_some, exists_eq_left', hdict]
  refine and_congr_right fun ho => ?_
  rw [ho, Bool.true_and, Nat.add_zero, beq_eq_false_iff_ne]
  omega

variable {buf rest cs : List UInt8} {t : UInt8} {depthLimit : ℤ} {d' : Decoder}

/-- One turn of the loop, in terms of the zipper. -/
theorem step_eq (hbuf : buf = z.bytes ++ t :: cs) (hlen : buf.length ≤ maxOffset)
    (hdepth : (z.frames.length : ℤ) < depthLimit) (htokens : (z.tokens.length : ℤ) < tokenLimit)
    (hkey : z.keyNext → numeric t ∨ t = ascii 'e') :
    (z.decoder tokenLimit).step buf depthLimit =
      ((z.counted tokenLimit).readToken buf t).map
        (Decoder.flip · (z.counted tokenLimit).stack.length) := by
  have hsize : buf.length = z.bytes.length + (cs.length + 1) := by
    rw [hbuf, List.length_append, List.length_cons]
  have ht : buf.getD z.bytes.length 0 = t := by
    rw [hbuf, List.getD_append_right _ _ _ _ (Nat.le_refl _), Nat.sub_self, List.getD_cons_zero]
  have h₁ : ¬ buf.length ≤ (z.decoder tokenLimit).start := by
    change ¬ buf.length ≤ z.bytes.length
    omega
  have h₂ : ¬ depthLimit ≤ ((z.decoder tokenLimit).stack.length : ℤ) := by
    rw [decoder, length_stackOf]
    exact Int.not_le.mpr hdepth
  have h₃ : ¬ (z.counted tokenLimit).tokenLimit < 0 := by
    change ¬ tokenLimit - (z.tokens.length : ℤ) - 1 < 0
    omega
  have h₄ : ¬ ((z.counted tokenLimit).inKey ∧ ¬ numeric t ∧ t ≠ ascii 'e') := by
    rw [inKey_counted (by omega)]
    rintro ⟨hk, hn, he⟩
    exact (hkey hk).elim hn he
  rw [Decoder.step, if_neg h₁, if_neg h₂]
  change (if (z.counted tokenLimit).tokenLimit < 0 then _ else if (z.counted tokenLimit).inKey ∧
    ¬ numeric (buf.getD z.bytes.length 0) ∧ buf.getD z.bytes.length 0 ≠ ascii 'e' then _ else
      ((z.counted tokenLimit).readToken buf (buf.getD z.bytes.length 0)).map _) = _
  rw [ht, if_neg h₃, if_neg h₄]
  rfl

/-- What a turn that succeeds needs. -/
theorem of_step (hbuf : buf = z.bytes ++ rest) (hlen : buf.length ≤ maxOffset)
    (h : (z.decoder tokenLimit).step buf depthLimit = .ok d') :
    (z.frames.length : ℤ) < depthLimit ∧ (z.tokens.length : ℤ) < tokenLimit ∧ ∃ t cs,
      rest = t :: cs ∧ (z.keyNext → numeric t ∨ t = ascii 'e') := by
  have hsize : buf.length = z.bytes.length + rest.length := by rw [hbuf, List.length_append]
  rw [Decoder.step] at h
  split_ifs at h with h₁ h₂
  · cases h
  · cases h
  rw [decoder, length_stackOf, Int.not_le] at h₂
  change (if (z.counted tokenLimit).tokenLimit < 0 then _ else if (z.counted tokenLimit).inKey ∧
    ¬ numeric (buf.getD z.bytes.length 0) ∧ buf.getD z.bytes.length 0 ≠ ascii 'e' then _ else
      _) = _ at h
  split_ifs at h with h₃ h₄
  · cases h
  · cases h
  have h₃' : ¬ tokenLimit - (z.tokens.length : ℤ) - 1 < 0 := h₃
  have h₁' : ¬ buf.length ≤ z.bytes.length := h₁
  obtain ⟨t, cs, rfl⟩ := List.exists_cons_of_length_pos (show 0 < rest.length by omega)
  refine ⟨h₂, by omega, t, cs, rfl, fun hk => ?_⟩
  rw [inKey_counted (by omega), hbuf, List.getD_append_right _ _ _ _ (Nat.le_refl _), Nat.sub_self,
    List.getD_cons_zero] at h₄
  by_contra hc
  exact h₄ ⟨hk, not_or.mp hc⟩

/-- A turn that succeeds, from one zipper to the next. -/
inductive Turn (buf : List UInt8) (z : Zipper) : Zipper → Prop
  | enter {rest : List UInt8} (isDict : Bool) (hbuf : buf = z.bytes ++ sequenceByte isDict :: rest)
      (hkey : ¬ z.keyNext) : Turn buf z (z.enter isDict)
  | leaf {rest : List UInt8} (v : Value) (hleaf : v.Leaf) (hv : v.Valid)
      (hbuf : buf = z.bytes ++ (v.encode ++ rest)) (hkey : z.keyNext → ∃ l b, v = .str l b) :
      Turn buf z (z.push v)
  | leave {rest : List UInt8} (o : OpenSequence) (fs : List OpenSequence) (hz : z.frames = o :: fs)
      (hbuf : buf = z.bytes ++ ascii 'e' :: rest)
      (hpairs : ¬ (o.isDict = true ∧ o.items.length % 2 = 1)) : Turn buf z (z.leave o fs)

theorem length_bytes_lt (hbuf : buf = z.bytes ++ t :: cs) (hlen : buf.length ≤ maxOffset) :
    z.bytes.length < maxOffset := by
  rw [hbuf, List.length_append, List.length_cons] at hlen
  omega

theorem not_numeric_sequenceByte (isDict : Bool) : ¬ (numeric (sequenceByte isDict) ∨
    sequenceByte isDict = ascii 'e') := by
  cases isDict <;> decide

/-- An integer or string that may be a key is a string. -/
theorem str_of_leaf (hleaf : v.Leaf) (heq : t :: cs = v.encode ++ rest)
    (ht : numeric t ∨ t = ascii 'e') : ∃ l b, v = .str l b := by
  cases v with
  | int negative digits =>
    rw [Decoder.encode_int, List.cons_append] at heq
    obtain rfl := (List.cons.inj heq).1
    exact absurd ht (by decide)
  | str l b => exact ⟨l, b, rfl⟩
  | list items => cases hleaf
  | dict items => cases hleaf

/-- Every turn of the zipper is a step of the decoder. -/
theorem step_of_turn {z' : Zipper} (hlen : buf.length ≤ maxOffset)
    (hdepth : (z.frames.length : ℤ) < depthLimit) (htokens : (z.tokens.length : ℤ) < tokenLimit)
    (h : Turn buf z z') :
    (z.decoder tokenLimit).step buf depthLimit = .ok (z'.decoder tokenLimit) := by
  cases h with
  | enter isDict hbuf hkey =>
    rw [step_eq hbuf hlen hdepth htokens fun hk => absurd hk hkey, Decoder.readToken_sequence]
    exact congrArg Except.ok (flip_enter (Nat.le_of_lt (length_bytes_lt hbuf hlen)) isDict)
  | @leaf rest v hleaf hv hbuf hkey =>
    obtain ⟨t, cs, ht⟩ : ∃ t cs, v.encode ++ rest = t :: cs := by
      refine List.exists_cons_of_length_pos ?_
      have := v.tokenCount_le
      have := v.tokenCount_pos
      rw [List.length_append]
      omega
    have hbuf' : buf = z.bytes ++ t :: cs := by rw [hbuf, ht]
    have hk : z.keyNext → numeric t ∨ t = ascii 'e' := by
      intro hk
      obtain ⟨l, b, rfl⟩ := hkey hk
      obtain ⟨c, digits, rfl⟩ := List.exists_cons_of_ne_nil (List.length_pos_iff.mp hv.2.1)
      rw [encode, List.cons_append, List.cons_append] at ht
      exact .inl ((List.cons.inj ht).1 ▸ hv.1 c List.mem_cons_self)
    have hread := Decoder.readToken_leaf (d := z.counted tokenLimit) rfl hlen hbuf hleaf hv
    rw [Decoder.getD_start (d := z.counted tokenLimit) rfl hbuf'] at hread
    rw [step_eq hbuf' hlen hdepth htokens hk, hread]
    exact congrArg Except.ok (flip_leaf (Nat.le_of_lt (length_bytes_lt hbuf' hlen)) hleaf)
  | leave o fs hz hbuf hpairs =>
    rw [step_eq hbuf hlen hdepth htokens fun _ => .inr rfl, Decoder.readToken_end,
      close_eq hz (length_bytes_lt hbuf hlen), if_neg hpairs]
    refine congrArg Except.ok (if_pos ?_)
    rw [leave, decoder, stackOf_push, length_stackOf, counted, decoder, length_stackOf, hz]
    exact Nat.lt_succ_self _

/-- Every step of the decoder is a turn of the zipper. -/
theorem turn_of_step (hbuf : buf = z.bytes ++ rest) (hlen : buf.length ≤ maxOffset)
    (h : (z.decoder tokenLimit).step buf depthLimit = .ok d') :
    (z.frames.length : ℤ) < depthLimit ∧ (z.tokens.length : ℤ) < tokenLimit ∧
      ∃ z', Turn buf z z' ∧ d' = z'.decoder tokenLimit := by
  obtain ⟨hdepth, htokens, t, cs, rfl, hkey⟩ := of_step hbuf hlen h
  refine ⟨hdepth, htokens, ?_⟩
  have hok : ∀ {z' : Zipper}, Turn buf z z' → ∃ z', Turn buf z z' ∧ d' = z'.decoder tokenLimit := by
    intro z' ht
    rw [step_of_turn hlen hdepth htokens ht] at h
    exact ⟨z', ht, (Except.ok.inj h).symm⟩
  rw [step_eq hbuf hlen hdepth htokens hkey] at h
  rcases hread : (z.counted tokenLimit).readToken buf t with e | d₁
  · rw [hread] at h
    cases h
  rcases Decoder.of_readToken rfl hlen hbuf hread with ⟨isDict, rfl, -⟩ |
    ⟨v, rest, hleaf, heq, hv, -⟩ | ⟨rfl, hclose⟩
  · exact hok (.enter isDict hbuf fun hk => not_numeric_sequenceByte isDict (hkey hk))
  · exact hok (.leaf v hleaf hv (by rw [hbuf, heq]) fun hk => str_of_leaf hleaf heq (hkey hk))
  · rcases hz : z.frames with - | ⟨o, fs⟩
    · have hstack : (z.counted tokenLimit).stack = [] := by rw [counted, decoder, hz, stackOf]
      rw [Decoder.closeSequence, hstack] at hclose
      cases hclose
    · refine hok (.leave o fs hz hbuf fun hc => ?_)
      rw [close_eq hz (length_bytes_lt hbuf hlen), if_pos hc] at hclose
      cases hclose

end Turn

/-! ## Every value is accepted -/

/-- The items that stand where a key is due are strings, if `n` items came before. -/
def KeysAt (n : ℕ) (vs : List Value) : Prop :=
  ∀ i v, vs[i]? = some v → (n + i) % 2 = 0 → ∃ l b, v = .str l b

/-- Every second value, from the first on, is a string. -/
theorem keysAt_cons {n : ℕ} {vs : List Value} : KeysAt n (v :: vs) ↔
    (n % 2 = 0 → ∃ l b, v = .str l b) ∧ KeysAt (n + 1) vs := by
  constructor
  · intro h
    refine ⟨fun hn => h 0 v rfl hn, fun i w hi heven => h (i + 1) w hi ?_⟩
    rwa [← Nat.add_assoc, Nat.add_right_comm]
  · rintro ⟨h₁, h₂⟩ (- | i) w hi heven
    · exact Option.some.inj hi ▸ h₁ heven
    · refine h₂ i w hi ?_
      rwa [Nat.add_assoc, Nat.add_comm 1]

/-- Members alternate keys and values. -/
theorem members_iff {vs : List Value} : members vs ↔ vs.length % 2 = 0 ∧ KeysAt 0 vs := by
  induction vs using members.induct with
  | case1 => simp [members, KeysAt]
  | case2 l b v vs ih =>
    have hshift : KeysAt 2 vs ↔ KeysAt 0 vs := by
      refine forall₂_congr fun i w => imp_congr_right fun _ => ?_
      rw [Nat.add_mod_left, Nat.zero_add]
    rw [members, ih, keysAt_cons, keysAt_cons, hshift, List.length_cons, List.length_cons]
    constructor
    · rintro ⟨h₁, h₂⟩
      exact ⟨by omega, fun _ => ⟨l, b, rfl⟩, fun hc => absurd hc (by decide), h₂⟩
    · rintro ⟨h₁, -, -, h₂⟩
      exact ⟨by omega, h₂⟩
  | case3 vs hnil hpair =>
    rw [members.eq_3 _ hnil hpair, false_iff]
    rintro ⟨hlen, hkeys⟩
    rcases vs with - | ⟨v, - | ⟨w, vs⟩⟩
    · exact hnil rfl
    · cases hlen
    · obtain ⟨l, b, rfl⟩ := hkeys 0 v rfl rfl
      exact hpair l b w vs rfl

section Run
variable {buf : List UInt8} {depthLimit tokenLimit : ℤ}

/-- The loop goes on after a turn. -/
theorem loop_turn {z' : Zipper} (hlen : buf.length ≤ maxOffset)
    (hdepth : (z.frames.length : ℤ) < depthLimit) (htokens : (z.tokens.length : ℤ) < tokenLimit)
    (h : Turn buf z z') (fuel : ℕ) :
    Decoder.loop buf depthLimit (fuel + 1) (z.decoder tokenLimit) =
      if z'.frames = [] then .ok (z'.decoder tokenLimit)
      else Decoder.loop buf depthLimit fuel (z'.decoder tokenLimit) := by
  have hstack : (z'.decoder tokenLimit).stack = [] ↔ z'.frames = [] := by
    rw [← List.length_eq_zero_iff, ← List.length_eq_zero_iff, decoder, length_stackOf]
  rw [Decoder.loop, step_of_turn hlen hdepth htokens h]
  exact if_congr hstack rfl rfl

/-- More complete items of the innermost open sequence. -/
def pushAll (z : Zipper) (o : OpenSequence) (fs : List OpenSequence) (vs : List Value) : Zipper :=
  { z with frames := { o with items := o.items ++ vs } :: fs }

/-- The value can be read from everywhere, in as many turns as it has tokens. -/
def Reads (buf : List UInt8) (depthLimit tokenLimit : ℤ) (v : Value) : Prop :=
  ∀ (z : Zipper) (rest : List UInt8), buf = z.bytes ++ (v.encode ++ rest) → v.Valid →
    (v.depth + z.frames.length : ℤ) < depthLimit →
    (z.tokens.length + v.tokenCount : ℤ) ≤ tokenLimit → (z.keyNext → ∃ l b, v = .str l b) →
    ∀ fuel, Decoder.loop buf depthLimit (fuel + v.tokenCount) (z.decoder tokenLimit) =
      if (z.push v).frames = [] then .ok ((z.push v).decoder tokenLimit)
      else Decoder.loop buf depthLimit fuel ((z.push v).decoder tokenLimit)

/-- The items can be read, one after the other, inside an open sequence. -/
def ReadsAll (buf : List UInt8) (depthLimit tokenLimit : ℤ) (vs : List Value) : Prop :=
  ∀ (z : Zipper) (o : OpenSequence) (fs : List OpenSequence) (rest : List UInt8),
    z.frames = o :: fs → buf = z.bytes ++ (encodeAll vs ++ rest) → ValidAll vs →
    (∀ v ∈ vs, (v.depth + (fs.length + 1) : ℤ) < depthLimit) →
    (z.tokens.length + tokenCountAll vs : ℤ) ≤ tokenLimit →
    (o.isDict = true → KeysAt o.items.length vs) →
    ∀ fuel, Decoder.loop buf depthLimit (fuel + tokenCountAll vs) (z.decoder tokenLimit) =
      Decoder.loop buf depthLimit fuel ((z.pushAll o fs vs).decoder tokenLimit)

/-- A leaf is read in one step. -/
theorem reads_leaf (hlen : buf.length ≤ maxOffset) (hleaf : v.Leaf) (hcount : v.tokenCount = 1) :
    Reads buf depthLimit tokenLimit v := by
  intro z rest hbuf hv hdepth htokens hkey fuel
  rw [hcount] at htokens ⊢
  exact loop_turn hlen (by omega) (by omega) (.leaf v hleaf hv hbuf hkey) fuel

/-- Enter the sequence, read its items, leave it. -/
theorem reads_sequence (hlen : buf.length ≤ maxOffset) (isDict : Bool) {items : List Value}
    (hitems : ReadsAll buf depthLimit tokenLimit items) :
    Reads buf depthLimit tokenLimit (.sequence isDict items) := by
  intro z rest hbuf hv hdepth htokens hkey fuel
  obtain ⟨hmem, hv⟩ := (valid_sequence isDict items).mp hv
  rw [encode_sequence, List.cons_append, List.append_assoc, List.singleton_append] at hbuf
  rw [depth_sequence] at hdepth
  rw [tokenCount_sequence] at htokens ⊢
  push_cast at hdepth htokens
  have hkey' : ¬ z.keyNext := fun hk => by
    obtain ⟨l, b, hc⟩ := hkey hk
    cases isDict <;> cases hc
  set z' := (z.enter isDict).pushAll ⟨isDict, []⟩ z.frames items with hz'
  have hcount : z'.tokens.length = z.tokens.length + 1 + tokenCountAll items := by
    rw [hz', pushAll, tokens, tokensOf, List.nil_append, List.length_append, List.length_cons,
      length_tokensAll]
    change z.tokens.length + (tokenCountAll items + 1) = _
    omega
  have hread := hitems (z.enter isDict) ⟨isDict, []⟩ z.frames (ascii 'e' :: rest) rfl
    (by rw [hbuf, bytes_enter, List.append_assoc, List.singleton_append]) hv
    (fun v hv => by have := depth_le_depthAll hv; omega)
    (by rw [tokens_enter, List.length_append, List.length_singleton]; push_cast; omega)
    (fun ho => (members_iff.mp (hmem ho)).2) (fuel + 1)
  have henter : Turn buf z (z.enter isDict) := .enter isDict hbuf hkey'
  have hleave : Turn buf z' (z'.leave ⟨isDict, items⟩ z.frames) := by
    have hbytes : z'.bytes = z.bytes ++ sequenceByte isDict :: encodeAll items := rfl
    have hbuf' : buf = z'.bytes ++ ascii 'e' :: rest := by
      rw [hbuf, hbytes, List.append_assoc, List.cons_append]
    refine .leave _ _ rfl hbuf' ?_
    rintro ⟨h₁, h₂⟩
    rw [(members_iff.mp (hmem h₁)).1] at h₂
    cases h₂
  have hopen : (z.enter isDict).frames ≠ [] := List.cons_ne_nil _ _
  have hfuel : fuel + (tokenCountAll items + 2) = fuel + 1 + tokenCountAll items + 1 := by omega
  have hdepth' : (z'.frames.length : ℤ) < depthLimit := by
    rw [hz', pushAll, List.length_cons]
    push_cast
    omega
  rw [hfuel, loop_turn hlen (by omega) (by omega) henter, if_neg hopen, hread,
    loop_turn hlen hdepth' (by omega) hleave]
  rfl

/-- Values are read one after the other. -/
theorem readsAll_cons {vs : List Value} (h : Reads buf depthLimit tokenLimit v)
    (hs : ReadsAll buf depthLimit tokenLimit vs) :
    ReadsAll buf depthLimit tokenLimit (v :: vs) := by
  rintro ⟨root, frames⟩ o fs rest hz hbuf hv hdepth htokens hkey fuel
  obtain rfl : frames = o :: fs := hz
  obtain ⟨hd, hdepth⟩ := List.forall_mem_cons.mp hdepth
  rw [tokenCountAll] at htokens ⊢
  rw [encodeAll, List.append_assoc] at hbuf
  push_cast at htokens
  have hkeys := fun ho => keysAt_cons.mp (hkey ho)
  have hfirst : keyNext ⟨root, o :: fs⟩ → ∃ l b, v = .str l b := by
    rintro ⟨o', ho', hdict, heven⟩
    obtain rfl := Option.mem_some.mp ho'
    exact (hkeys hdict).1 heven
  have hopen : (push ⟨root, o :: fs⟩ v).frames ≠ [] := List.cons_ne_nil _ _
  have hread := hs (push ⟨root, o :: fs⟩ v) { o with items := o.items ++ [v] } fs rest rfl
    (by rw [bytes_push, hbuf, List.append_assoc]) hv.2 hdepth
    (by rw [tokens_push, List.length_append, length_tokens]; push_cast; omega)
    (fun ho => by rw [List.length_append]; exact (hkeys ho).2) fuel
  rw [Nat.add_comm v.tokenCount, ← Nat.add_assoc,
    h ⟨root, o :: fs⟩ _ hbuf hv.1 hd (by omega) hfirst, if_neg hopen, hread]
  simp only [pushAll, push, List.append_assoc, List.singleton_append]

mutual

/-- Every value can be read. -/
theorem reads (hlen : buf.length ≤ maxOffset) :
    ∀ v : Value, Reads buf depthLimit tokenLimit v
  | .int _ _ => reads_leaf hlen trivial rfl
  | .str _ _ => reads_leaf hlen trivial rfl
  | .list items => reads_sequence hlen false (readsAll hlen items)
  | .dict items => reads_sequence hlen true (readsAll hlen items)

/-- Any list of values is read, when the limits allow it. -/
theorem readsAll (hlen : buf.length ≤ maxOffset) :
    ∀ vs : List Value, ReadsAll buf depthLimit tokenLimit vs
  | [] => by
    rintro ⟨root, frames⟩ o fs rest hz - - - - - fuel
    obtain rfl : frames = o :: fs := hz
    rw [pushAll, List.append_nil]
    rfl
  | v :: vs => readsAll_cons (reads hlen v) (readsAll hlen vs)

end

/-! ## Nothing else is accepted -/

/-- What has been read is in line with the grammar and with the limit on the depth. -/
def GoodFrames (depthLimit : ℤ) : List OpenSequence → Prop
  | [] => True
  | o :: fs => ValidAll o.items ∧ (∀ v ∈ o.items, (v.depth + (fs.length + 1) : ℤ) < depthLimit) ∧
      (o.isDict = true → KeysAt 0 o.items) ∧
      -- the open item of a dictionary is a value
      (∀ o' ∈ fs.head?, o'.isDict = true → o'.items.length % 2 = 1) ∧ GoodFrames depthLimit fs

/-- What has been read is valid and within the limits. -/
def Good (depthLimit : ℤ) (z : Zipper) : Prop :=
  (∀ v ∈ z.root, v.Valid ∧ (v.depth : ℤ) < depthLimit) ∧ GoodFrames depthLimit z.frames

/-- A key or a value is added at the end. -/
theorem keysAt_append {vs : List Value} (h : KeysAt 0 vs)
    (hv : vs.length % 2 = 0 → ∃ l b, v = .str l b) : KeysAt 0 (vs ++ [v]) := by
  intro i w hi heven
  rcases Nat.lt_trichotomy i vs.length with hlt | rfl | hgt
  · rw [List.getElem?_append_left hlt] at hi
    exact h i w hi heven
  · rw [List.getElem?_append_right (Nat.le_refl _), Nat.sub_self] at hi
    rw [Nat.zero_add] at heven
    exact Option.some.inj hi ▸ hv heven
  · rw [List.getElem?_eq_none (by rw [List.length_append, List.length_singleton]; omega)] at hi
    cases hi

/-- A valid value keeps what has been read valid. -/
theorem Good.push (h : z.Good depthLimit) (hv : v.Valid)
    (hdepth : (v.depth + z.frames.length : ℤ) < depthLimit)
    (hkey : z.keyNext → ∃ l b, v = .str l b) : (z.push v).Good depthLimit := by
  obtain ⟨root, - | ⟨o, fs⟩⟩ := z
  · refine ⟨fun w hw => ?_, trivial⟩
    rcases List.mem_append.mp hw with hw | hw
    · exact h.1 w hw
    · obtain rfl := List.mem_singleton.mp hw
      exact ⟨hv, by simpa using hdepth⟩
  · obtain ⟨h₀, h₁, h₂, h₃, h₄, h₅⟩ := h
    refine ⟨h₀, ?_, fun w hw => ?_, fun ho => keysAt_append (h₃ ho) fun heven =>
      hkey ⟨o, rfl, ho, heven⟩, h₄, h₅⟩
    · rw [validAll_iff] at h₁ ⊢
      rw [List.forall_mem_append]
      exact ⟨h₁, by simpa using hv⟩
    · rcases List.mem_append.mp hw with hw | hw
      · exact h₂ w hw
      · obtain rfl := List.mem_singleton.mp hw
        exact hdepth

/-- A turn keeps what has been read valid. -/
theorem Turn.good {z' : Zipper} (ht : Turn buf z z') (h : z.Good depthLimit)
    (hdepth : (z.frames.length : ℤ) < depthLimit) : z'.Good depthLimit := by
  cases ht with
  | enter isDict hbuf hkey =>
    refine ⟨h.1, trivial, by simp, fun _ i w hi => (by cases hi), fun o ho hdict => ?_, h.2⟩
    by_contra hc
    exact hkey ⟨o, ho, hdict, by omega⟩
  | leaf v hleaf hv hbuf hkey =>
    have hzero : v.depth = 0 := by
      cases v with
      | int _ _ => rfl
      | str _ _ => rfl
      | list _ => cases hleaf
      | dict _ => cases hleaf
    exact h.push hv (by rw [hzero]; push_cast; omega) hkey
  | leave o fs hz hbuf hpairs =>
    obtain ⟨root, frames⟩ := z
    obtain rfl : frames = o :: fs := hz
    obtain ⟨h₀, h₁, h₂, h₃, h₄, h₅⟩ := h
    rw [List.length_cons] at hdepth
    push_cast at hdepth
    refine Good.push (z := ⟨root, fs⟩) ⟨h₀, h₅⟩ ?_ ?_ ?_
    · refine (valid_sequence _ _).mpr ⟨fun ho => members_iff.mpr ⟨?_, h₃ ho⟩, h₁⟩
      by_contra hc
      exact hpairs ⟨ho, by omega⟩
    · have hlt : depthAll o.items < (depthLimit - (fs.length + 1)).toNat :=
        depthAll_lt.mpr ⟨by omega, fun v hv => by have := h₂ v hv; omega⟩
      rw [depth_sequence]
      push_cast
      omega
    · rintro ⟨o', ho', hdict, heven⟩
      have := h₄ o' ho' hdict
      omega

/-- A turn writes one token. -/
theorem Turn.tokens_length {z' : Zipper} (ht : Turn buf z z') :
    z'.tokens.length = z.tokens.length + 1 := by
  cases ht with
  | enter isDict hbuf hkey => rw [tokens_enter, List.length_append, List.length_singleton]
  | leaf v hleaf hv hbuf hkey =>
    rw [tokens_push, List.length_append, length_tokens]
    cases v with
    | int _ _ => rfl
    | str _ _ => rfl
    | list _ => cases hleaf
    | dict _ => cases hleaf
  | leave o fs hz hbuf hpairs =>
    rw [tokens_leave hz, List.length_modify, List.length_append, List.length_singleton]

/-- A turn reads on in the buffer. -/
theorem Turn.bytes_prefix {z' : Zipper} (ht : Turn buf z z') : ∃ rest, buf = z'.bytes ++ rest := by
  cases ht with
  | @enter rest isDict hbuf hkey =>
    exact ⟨rest, by rw [hbuf, bytes_enter, List.append_assoc, List.singleton_append]⟩
  | @leaf rest v hleaf hv hbuf hkey => exact ⟨rest, by rw [hbuf, bytes_push, List.append_assoc]⟩
  | @leave rest o fs hz hbuf hpairs =>
    exact ⟨rest, by rw [hbuf, bytes_leave hz, List.append_assoc, List.singleton_append]⟩

/-- The outermost value is complete as soon as no sequence is open. -/
theorem push_root (h : z.root = []) (v : Value) :
    (z.push v).frames = [] ∧ (z.push v).root = [v] ∨ (z.push v).frames ≠ [] ∧ (z.push v).root = [] := by
  obtain ⟨root, - | ⟨o, fs⟩⟩ := z
  · obtain rfl : root = [] := h
    exact .inl ⟨rfl, rfl⟩
  · exact .inr ⟨List.cons_ne_nil _ _, h⟩

/-- The root gets its value when the last sequence closes. -/
theorem Turn.root {z' : Zipper} (ht : Turn buf z z') (h : z.root = []) :
    z'.frames = [] ∧ (∃ v, z'.root = [v]) ∨ z'.frames ≠ [] ∧ z'.root = [] := by
  cases ht with
  | enter isDict hbuf hkey => exact .inr ⟨List.cons_ne_nil _ _, h⟩
  | leaf v hleaf hv hbuf hkey => exact (push_root h v).imp_left (And.imp_right fun h => ⟨v, h⟩)
  | leave o fs hz hbuf hpairs =>
    exact (push_root (z := ⟨z.root, fs⟩) h _).imp_left (And.imp_right fun h => ⟨_, h⟩)

/-- The variables of `bdecode` when it is done: the value `v` has been read. -/
def done (v : Value) (tokenLimit : ℤ) : Decoder := (⟨[v], []⟩ : Zipper).decoder tokenLimit

/-- When the loop ends, a valid value has been read. -/
theorem of_loop (hlen : buf.length ≤ maxOffset) {fuel : ℕ} {rest : List UInt8} {d : Decoder}
    (hroot : z.root = []) (hgood : z.Good depthLimit) (hbuf : buf = z.bytes ++ rest)
    (h : Decoder.loop buf depthLimit fuel (z.decoder tokenLimit) = .ok d) :
    ∃ v rest, buf = v.encode ++ rest ∧ v.Valid ∧ (v.depth : ℤ) < depthLimit ∧
      (v.tokenCount : ℤ) ≤ tokenLimit ∧ d = done v tokenLimit := by
  induction fuel generalizing z rest with
  | zero => cases h
  | succ fuel ih =>
    have hstep : ∃ d₁, (z.decoder tokenLimit).step buf depthLimit = .ok d₁ := by
      rw [Decoder.loop] at h
      rcases hs : (z.decoder tokenLimit).step buf depthLimit with f | d₁
      · rw [hs] at h
        cases h
      · exact ⟨d₁, rfl⟩
    obtain ⟨d₁, hstep⟩ := hstep
    obtain ⟨hdepth, htokens, z', ht, -⟩ := turn_of_step hbuf hlen hstep
    rw [loop_turn hlen hdepth htokens ht] at h
    obtain ⟨rest', hbuf'⟩ := ht.bytes_prefix
    have hgood' := ht.good hgood hdepth
    have hcount := ht.tokens_length
    rcases ht.root hroot with ⟨hf, v, hv⟩ | ⟨hf, hr⟩
    · rw [if_pos hf] at h
      obtain ⟨root, frames⟩ := z'
      obtain rfl : frames = [] := hf
      obtain rfl : root = [v] := hv
      obtain ⟨hvalid, hvdepth⟩ := hgood'.1 v (List.mem_singleton_self v)
      have hbytes : bytes ⟨[v], []⟩ = v.encode := encodeAll_singleton v
      have htoks : tokens ⟨[v], []⟩ = v.tokens 0 := tokensAll_singleton 0 v
      rw [hbytes] at hbuf'
      rw [htoks, length_tokens] at hcount
      exact ⟨v, rest', hbuf', hvalid, hvdepth, by omega, (Except.ok.inj h).symm⟩
    · rw [if_neg hf] at h
      exact ih hr hgood' hbuf' h

/-- Exactly the values of the grammar are read. -/
theorem loop_eq_ok (hlen : buf.length ≤ maxOffset) {d : Decoder} :
    Decoder.loop buf depthLimit (buf.length + 1) ⟨0, [], [], tokenLimit⟩ = .ok d ↔
      ∃ v rest, buf = v.encode ++ rest ∧ v.Valid ∧ (v.depth : ℤ) < depthLimit ∧
        (v.tokenCount : ℤ) ≤ tokenLimit ∧ d = done v tokenLimit := by
  have hstart : (⟨0, [], [], tokenLimit⟩ : Decoder) = (⟨[], []⟩ : Zipper).decoder tokenLimit :=
    Decoder.ext rfl rfl rfl (Int.sub_zero _).symm
  rw [hstart]
  constructor
  · exact of_loop hlen rfl ⟨by simp, trivial⟩ rfl
  · rintro ⟨v, rest, hbuf, hv, hdepth, htokens, rfl⟩
    have hfuel : buf.length + 1 = buf.length + 1 - v.tokenCount + v.tokenCount := by
      have := v.tokenCount_le
      rw [hbuf, List.length_append]
      omega
    rw [hfuel, reads hlen v ⟨[], []⟩ rest hbuf hv (by simpa using hdepth)
      (by simpa [tokens, tokensOf, tokensAll] using htokens) (by rintro ⟨o, ho, -⟩; cases ho)]
    rfl

end Run

end Zipper

end Bencode

end LibtorrentSN
