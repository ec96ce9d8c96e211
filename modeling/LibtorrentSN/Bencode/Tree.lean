import LibtorrentSN.Bencode.RoundTrip

/-!
# Bencoding: the tree of a decoded buffer

A node stands for a value of the grammar, which can be read off the tokens (`BdecodeNode.value`). Code
that only looks things up in a node is translated to a function of that value. It follows that a buffer
begins with at most one value, and that `bdecode` reports no error for the bytes of a value exactly
when these keep to the limits.
-/

namespace LibtorrentSN

namespace Bencode

open Value

namespace BdecodeNode

variable (n : BdecodeNode)

/-! ## The value of a node -/

/-- The integer of the token `i`. -/
def intAt (i : ℕ) : Value :=
  let ptr := n.buffer.drop ((n.token i).offset + 1)
  let sign := if ptr.head? = some (ascii '-') then 1 else 0
  .int (sign = 1) ((ptr.drop sign).takeWhile (numeric ·))

/-- The string of the token `i`. -/
def strAt (i : ℕ) : Value :=
  .str ((n.buffer.drop (n.token i).offset).take ((n.token i).startOffset - 1)) (n.child i).stringValue

/-- The values from the token `i` on, up to the end of the list or dictionary. -/
def itemsAt (read : ℕ → Value) : ℕ → ℕ → List Value
  | 0, _ => []
  | fuel + 1, i =>
    if (n.token i).type = .endToken then []
    else read i :: itemsAt read fuel (i + (n.token i).nextItem)

/-- The value of the token `i`, down to a depth. -/
def valueAt : ℕ → ℕ → Value
  | 0, _ => .list []
  | depth + 1, i =>
    match (n.child i).type with
    | .integer => n.intAt i
    | .string => n.strAt i
    | .dict => .dict (n.itemsAt (valueAt depth) (n.tokens.length + 1) (i + 1))
    | _ => .list (n.itemsAt (valueAt depth) (n.tokens.length + 1) (i + 1))

/-- The value the node stands for. -/
def value : Value := n.valueAt (n.tokens.length + 1) n.idx

variable {n} {i off : ℕ} {v : Value} {vs : List Value}

theorem bytes_of_holds (h : Holds n.tokens n.buffer i off v) :
    ∃ post, n.buffer.drop off = v.encode ++ post := by
  obtain ⟨-, ⟨pre, post, hbuf, rfl⟩, -⟩ := h
  exact ⟨post, by rw [hbuf, encodeAll_singleton, List.append_assoc, List.drop_left]⟩

theorem takeWhile_numeric {digits : List UInt8} (hnum : ∀ c ∈ digits, numeric c) (rest : List UInt8) :
    (digits ++ ascii 'e' :: rest).takeWhile (numeric ·) = digits := by
  rw [List.takeWhile_append_of_pos (by simpa using hnum), List.takeWhile_cons_of_neg (by decide),
    List.append_nil]

theorem intAt_eq {negative : Bool} {digits : List UInt8}
    (h : Holds n.tokens n.buffer i off (.int negative digits))
    (hv : (Value.int negative digits).Valid) : n.intAt i = .int negative digits := by
  obtain ⟨post, hpost⟩ := bytes_of_holds h
  obtain ⟨hnum, hpos, -⟩ := hv
  have hptr : n.buffer.drop (off + 1) = signBytes negative ++ (digits ++ ascii 'e' :: post) := by
    rw [← List.drop_drop, hpost, Decoder.encode_int, List.cons_append, List.drop_one, List.tail_cons]
    simp only [List.append_assoc, List.cons_append, List.nil_append]
  have hsign := sign_eq negative (List.length_pos_iff.mp hpos) hnum (ascii 'e' :: post)
  rw [intAt, (first_of_holds h).1, hptr, hsign, List.drop_left, takeWhile_numeric hnum]
  cases negative <;> rfl

theorem strAt_eq {l b : List UInt8} (h : Holds n.tokens n.buffer i off (.str l b))
    (hv : (Value.str l b).Valid) : n.strAt i = .str l b := by
  obtain ⟨post, hpost⟩ := bytes_of_holds h
  have hnode : (n.child i).IsNode (.str l b) := ⟨off, rfl, h⟩
  obtain ⟨ts, hts⟩ := token_of_holds h
  have hstart : (n.token i).startOffset = l.length + 1 := by
    rw [← (List.cons.inj hts).1]
    exact startOffset_linked off (Nat.succ_le_succ hv.2.1) hv.2.2.1
  rw [strAt, hnode.stringValue_eq hv, (first_of_holds h).1, hstart, hpost, encode, List.append_assoc,
    Nat.add_sub_cancel, List.take_left]

theorem itemsAt_eq {read : ℕ → Value} (hread : ∀ v ∈ vs, ∀ i off,
    Holds n.tokens n.buffer i off v → read i = v) {fuel : ℕ} (hfuel : vs.length < fuel)
    (h : HoldsAll n.tokens n.buffer i off vs)
    (hend : (n.tokens[i + tokenCountAll vs]?).map BdecodeToken.type = some .endToken) :
    n.itemsAt read fuel i = vs := by
  induction vs generalizing i off fuel with
  | nil =>
    obtain ⟨fuel, rfl⟩ := Nat.exists_eq_succ_of_ne_zero (Nat.ne_of_gt hfuel)
    obtain ⟨t, ht, hend⟩ := Option.map_eq_some_iff.mp hend
    rw [itemsAt, if_pos]
    rw [token, List.getD_eq_getElem?_getD, ← Nat.add_zero i]
    exact (congrArg (fun t : Option BdecodeToken => (t.getD _).type) ht).trans hend
  | cons v vs ih =>
    obtain ⟨fuel, rfl⟩ := Nat.exists_eq_succ_of_ne_zero (Nat.ne_zero_of_lt hfuel)
    obtain ⟨h₁, h₂⟩ := h.cons
    obtain ⟨-, hnext, hne⟩ := first_of_holds h₁
    rw [tokenCountAll, ← Nat.add_assoc] at hend
    rw [itemsAt, if_neg hne, hnext, hread v List.mem_cons_self i off h₁,
      ih (fun w hw => hread w (List.mem_cons_of_mem _ hw)) (Nat.lt_of_succ_lt_succ hfuel) h₂ hend]

theorem length_le_tokenCountAll (vs : List Value) : vs.length ≤ tokenCountAll vs := by
  induction vs with
  | nil => exact Nat.le_refl 0
  | cons v vs ih =>
    have := v.tokenCount_pos
    rw [List.length_cons, tokenCountAll]
    omega

theorem length_le_of_holdsAll (h : HoldsAll n.tokens n.buffer i off vs) :
    vs.length ≤ n.tokens.length := by
  have hle := length_le_tokenCountAll vs
  obtain ⟨-, -, pre, post, next, htok, -, -⟩ := h
  rw [htok, List.length_append, List.length_append, length_tokensAll]
  omega

mutual

theorem valueAt_eq : ∀ (v : Value) (depth i off : ℕ), Holds n.tokens n.buffer i off v → v.Valid →
    v.depth < depth → n.valueAt depth i = v
  | v, 0, _, _, _, _, hd => absurd hd (Nat.not_lt_zero _)
  | .int negative digits, depth + 1, i, off, h, hv, _ => by
    have hnode : (n.child i).IsNode (.int negative digits) := ⟨off, rfl, h⟩
    rw [valueAt, hnode.type_eq]
    exact intAt_eq h hv
  | .str l b, depth + 1, i, off, h, hv, _ => by
    have hnode : (n.child i).IsNode (.str l b) := ⟨off, rfl, h⟩
    rw [valueAt, hnode.type_eq]
    exact strAt_eq h hv
  | .list items, depth + 1, i, off, h, hv, hd => by
    have hnode : (n.child i).IsNode (.list items) := ⟨off, rfl, h⟩
    obtain ⟨h₁, h₂⟩ := (show Holds n.tokens n.buffer i off (.sequence false items) from h).items
    rw [valueAt, hnode.type_eq]
    exact congrArg Value.list (itemsAt_eq (valueAt_items items depth hv (Nat.lt_of_succ_lt_succ hd))
      (Nat.lt_succ_of_le (length_le_of_holdsAll h₁)) h₁ h₂)
  | .dict items, depth + 1, i, off, h, hv, hd => by
    have hnode : (n.child i).IsNode (.dict items) := ⟨off, rfl, h⟩
    obtain ⟨h₁, h₂⟩ := (show Holds n.tokens n.buffer i off (.sequence true items) from h).items
    rw [valueAt, hnode.type_eq]
    exact congrArg Value.dict (itemsAt_eq (valueAt_items items depth hv.2 (Nat.lt_of_succ_lt_succ hd))
      (Nat.lt_succ_of_le (length_le_of_holdsAll h₁)) h₁ h₂)

theorem valueAt_items : ∀ (vs : List Value) (depth : ℕ), ValidAll vs → depthAll vs < depth →
    ∀ v ∈ vs, ∀ i off, Holds n.tokens n.buffer i off v → n.valueAt depth i = v
  | [], _, _, _, v, hmem, _, _, _ => absurd hmem List.not_mem_nil
  | w :: ws, depth, hv, hd, v, hmem, i, off, h => by
    rw [depthAll, max_lt_iff] at hd
    rcases List.mem_cons.mp hmem with heq | hmem
    · rw [heq] at h ⊢
      exact valueAt_eq w depth i off h hv.1 hd.1
    · exact valueAt_items ws depth hv.2 hd.2 v hmem i off h

end

/-- A node of a value stands for it. -/
theorem IsNode.value_eq (h : n.IsNode v) (hv : v.Valid) : n.value = v := by
  obtain ⟨off, -, h⟩ := h
  have hle : v.tokenCount ≤ n.tokens.length := by
    obtain ⟨-, -, pre, post, next, htok, -, -⟩ := h
    rw [htok, List.length_append, List.length_append, tokensAll_singleton, length_tokens]
    omega
  exact valueAt_eq v _ _ _ h hv (Nat.lt_succ_of_le (v.depth_le_tokenCount.trans hle))

/-! ## One token -/

/-- A token of a list or dictionary other than its end, if the same is known of its items. -/
theorem holds_of_items (isDict : Bool) {items : List Value} {j : ℕ}
    (h : Holds n.tokens n.buffer i off (.sequence isDict items)) (hv : (Value.sequence isDict items).Valid)
    (hitems : ∀ j < tokenCountAll items, (n.token (i + 1 + j)).type ≠ .endToken →
      ∃ off v, Holds n.tokens n.buffer (i + 1 + j) off v ∧ v.Valid)
    (hj : j < tokenCountAll items + 2) (ht : (n.token (i + j)).type ≠ .endToken) :
    ∃ off v, Holds n.tokens n.buffer (i + j) off v ∧ v.Valid := by
  rcases j with - | j
  · exact ⟨off, _, h, hv⟩
  · rw [Nat.add_comm j, ← Nat.add_assoc] at ht ⊢
    rcases Nat.lt_or_ge j (tokenCountAll items) with hlt | hge
    · exact hitems j hlt ht
    · obtain rfl : j = tokenCountAll items := by omega
      obtain ⟨t, htok, hend⟩ := Option.map_eq_some_iff.mp h.items.2
      rw [token, List.getD_eq_getElem?_getD, htok, Option.getD_some] at ht
      exact absurd hend ht

mutual

/-- Every token of a value is the first one of a value in it, or an end. -/
theorem holds_of_token : ∀ (v : Value) (i off : ℕ), Holds n.tokens n.buffer i off v → v.Valid →
    ∀ j < v.tokenCount, (n.token (i + j)).type ≠ .endToken →
      ∃ off v, Holds n.tokens n.buffer (i + j) off v ∧ v.Valid
  | .int negative digits, i, off, h, hv, j, hj, ht => by
    obtain rfl : j = 0 := Nat.lt_one_iff.mp hj
    exact ⟨off, _, h, hv⟩
  | .str l b, i, off, h, hv, j, hj, ht => by
    obtain rfl : j = 0 := Nat.lt_one_iff.mp hj
    exact ⟨off, _, h, hv⟩
  | .list items, i, off, h, hv, j, hj, ht => by
    change Holds n.tokens n.buffer i off (.sequence false items) at h
    exact holds_of_items false h hv (holdsAll_of_token items _ _ h.items.1 hv) hj ht
  | .dict items, i, off, h, hv, j, hj, ht => by
    change Holds n.tokens n.buffer i off (.sequence true items) at h
    exact holds_of_items true h hv (holdsAll_of_token items _ _ h.items.1 hv.2) hj ht

theorem holdsAll_of_token : ∀ (vs : List Value) (i off : ℕ), HoldsAll n.tokens n.buffer i off vs → ValidAll vs →
    ∀ j < tokenCountAll vs, (n.token (i + j)).type ≠ .endToken →
      ∃ off v, Holds n.tokens n.buffer (i + j) off v ∧ v.Valid
  | [], i, off, h, hv, j, hj, ht => absurd hj (Nat.not_lt_zero j)
  | v :: vs, i, off, h, hv, j, hj, ht => by
    obtain ⟨hhead, htail⟩ := h.cons
    rw [tokenCountAll] at hj
    rcases Nat.lt_or_ge j v.tokenCount with hlt | hge
    · exact holds_of_token v i off hhead hv.1 j hlt ht
    · obtain ⟨k, rfl⟩ := Nat.exists_eq_add_of_le hge
      rw [← Nat.add_assoc] at ht ⊢
      exact holdsAll_of_token vs _ _ htail hv.2 k (by omega) ht

end

/-- The type of the first token. -/
theorem type_of_holds (h : Holds n.tokens n.buffer i off v) :
    (if (n.token i).type = .longString then .string else (n.token i).type) = typeOf v :=
  IsNode.type_eq (n := n.child i) ⟨off, rfl, h⟩

theorem eq_int_of_type (h : Holds n.tokens n.buffer i off v) (ht : (n.token i).type = .integer) :
    ∃ negative digits, v = .int negative digits := by
  have htype := type_of_holds h
  rw [ht, if_neg TokenType.noConfusion] at htype
  cases v with
  | int negative digits => exact ⟨negative, digits, rfl⟩
  | _ => cases htype

theorem eq_sequence_of_type {isDict : Bool} (h : Holds n.tokens n.buffer i off v)
    (ht : (n.token i).type = sequenceType isDict) : ∃ items, v = .sequence isDict items := by
  have htype := type_of_holds h
  rw [ht, if_neg (by cases isDict <;> exact TokenType.noConfusion)] at htype
  cases isDict <;> cases v <;> first | exact ⟨_, rfl⟩ | cases htype

end BdecodeNode

/-! ## What is accepted -/

variable {buf : List UInt8} {depthLimit tokenLimit depthLimit' tokenLimit' : ℤ} {v w : Value}

theorem bdecode_value (hlen : buf.length ≤ maxOffset) (h : Begins buf depthLimit tokenLimit v) :
    (bdecode buf depthLimit tokenLimit).node.value = v := by
  rw [bdecode_of_begins hlen h]
  obtain ⟨rest, hbuf⟩ := h.encode
  exact (finish_isNode hlen hbuf).value_eq h.valid

theorem Begins.mono (h : Begins buf depthLimit tokenLimit v) (hd : depthLimit ≤ depthLimit')
    (ht : tokenLimit ≤ tokenLimit') : Begins buf depthLimit' tokenLimit' v :=
  ⟨h.encode, h.valid, h.depth.trans_le hd, h.tokenCount.trans ht⟩

/-- A buffer begins with one value at most. -/
theorem Begins.unique (hlen : buf.length ≤ maxOffset) (hv : Begins buf depthLimit tokenLimit v)
    (hw : Begins buf depthLimit' tokenLimit' w) : v = w := by
  have hv' := bdecode_value hlen (hv.mono (le_max_left depthLimit depthLimit')
    (le_max_left tokenLimit tokenLimit'))
  have hw' := bdecode_value hlen (hw.mono (le_max_right depthLimit depthLimit')
    (le_max_right tokenLimit tokenLimit'))
  exact hv'.symm.trans hw'

/-- `bdecode` takes the bytes of a value exactly when they keep to the limits. -/
theorem bdecode_encode_iff (hv : v.Valid) :
    (bdecode v.encode depthLimit tokenLimit).error = .noError ↔ v.encode.length ≤ maxOffset ∧
      (v.depth : ℤ) < depthLimit ∧ (v.tokenCount : ℤ) ≤ tokenLimit := by
  constructor
  · intro h
    have hlen : v.encode.length ≤ maxOffset := by
      by_contra hlen
      rw [bdecode, if_pos (not_le.mp hlen)] at h
      cases h
    obtain ⟨w, hw⟩ := begins_of_bdecode hlen h
    have hself : Begins v.encode (v.depth + 1) v.tokenCount v :=
      ⟨⟨[], (List.append_nil _).symm⟩, hv, lt_add_one _, le_refl _⟩
    obtain rfl := hself.unique hlen hw
    exact ⟨hlen, hw.depth, hw.tokenCount⟩
  · rintro ⟨hlen, hd, ht⟩
    rw [bdecode_of_begins hlen ⟨⟨[], (List.append_nil _).symm⟩, hv, hd, ht⟩]

end Bencode

end LibtorrentSN
