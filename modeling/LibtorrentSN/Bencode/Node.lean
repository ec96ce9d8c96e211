import LibtorrentSN.Bencode.Accept

/-!
# Bencoding: reading the tokens

The items of a list or dictionary are found by following the links of their tokens. A node
remembers the last item it was asked for (`m_last_index`, `m_last_token`) and its number of items
(`m_size`), so that a loop over all items does not start over for each of them. These are mutable
members: the functions return the node as they leave it.
-/

namespace LibtorrentSN

namespace Bencode

namespace BdecodeNode

variable (n : BdecodeNode)

/-- `m_root_tokens[i]` -/
def token (i : ℕ) : BdecodeToken := n.tokens.getD i ⟨0, .none, 0, 0⟩

/-- The token of the node itself. -/
def idx : ℕ := n.tokenIdx.getD 0

/-- The values of `bdecode_node::type_t` are those of the tokens. -/
def type : TokenType :=
  match n.tokenIdx with
  | none => .none
  | some i => if (n.token i).type = .longString then .string else (n.token i).type

/-- `token_source_span` -/
def tokenSourceSpan (i : ℕ) : ℕ := (n.token (i + 1)).offset - (n.token i).offset

def dataSection : List UInt8 :=
  match n.tokenIdx with
  | none => []
  | some i =>
    let t := n.token i
    (n.buffer.drop t.offset).take ((n.token (i + t.nextItem)).offset - t.offset)

def intValue : ℤ :=
  let t := n.token n.idx
  let size := n.tokenSourceSpan n.idx
  let ptr := n.buffer.drop (t.offset + 1)
  let sign := if ptr.head? = some (ascii '-') then 1 else 0
  let r := parseInt (ascii 'e') ((ptr.take size).drop sign) 0 0
  if r.error ≠ .noError then 0
  else if sign = 1 then -r.val
  else r.val

def stringValue : List UInt8 :=
  let t := n.token n.idx
  (n.buffer.drop (t.offset + t.startOffset)).take (n.tokenSourceSpan n.idx - t.startOffset)

/-- A node for another token of the same array. -/
def child (token : ℕ) : BdecodeNode :=
  { tokens := n.tokens, buffer := n.buffer, bufferSize := n.bufferSize, tokenIdx := some token }

/-- Follow `k` links. -/
def skip : ℕ → ℕ → ℕ
  | 0, token => token
  | k + 1, token => skip k (token + (n.token token).nextItem)

/-- Where a look-up of the item `i` starts: at the last item, unless `i` comes before it. -/
def cached (i : ℕ) : ℕ × ℕ :=
  match n.lastIndex with
  | some last => if last ≤ i then (n.lastToken, last) else (n.idx + 1, 0)
  | none => (n.idx + 1, 0)

def listAt (i : ℕ) : BdecodeNode × BdecodeNode :=
  let (token, item) := n.cached i
  let token := n.skip (i - item) token
  (n.child token, { n with lastToken := token, lastIndex := some i })

/-- Count tokens up to the end of the sequence. -/
def countTokens : ℕ → ℕ → ℕ → Option ℕ
  | 0, _, _ => none
  | fuel + 1, token, ret =>
    if (n.token token).type = .endToken then some ret
    else countTokens fuel (token + (n.token token).nextItem) (ret + 1)

/-- Where counting starts: at the last item. -/
def lastItem : ℕ × ℕ :=
  match n.lastIndex with
  | some last => (n.lastToken, last)
  | none => (n.idx + 1, 0)

def listSize : Option ℕ × BdecodeNode :=
  match n.size with
  | some size => (some size, n)
  | none =>
    let (token, ret) := n.lastItem
    let ret := n.countTokens (n.tokens.length + 1) token ret
    (ret, { n with size := ret })

/-- The key and the value of the item `i`. The first item is not remembered. -/
def dictAtNode (i : ℕ) : (BdecodeNode × BdecodeNode) × BdecodeNode :=
  let (token, item) := n.cached i
  let token := n.skip (2 * (i - item)) token
  let valueToken := token + (n.token token).nextItem
  ((n.child token, n.child valueToken),
    if 0 < i then { n with lastToken := token, lastIndex := some i } else n)

def dictAt (i : ℕ) : (List UInt8 × BdecodeNode) × BdecodeNode :=
  let ((key, value), n) := n.dictAtNode i
  ((key.stringValue, value), n)

def dictSize : Option ℕ × BdecodeNode :=
  match n.size with
  | some size => (some size, n)
  | none =>
    let (token, last) := n.lastItem
    let ret := last * 2
    let ret := (n.countTokens (n.tokens.length + 1) token ret).map (· / 2)
    (ret, { n with size := ret })

end BdecodeNode

open Value

/-! ## Where a value is -/

section Holds
variable {tokens : List BdecodeToken} {buf : List UInt8} {i off : ℕ} {v : Value} {vs : List Value}

/-- The items `vs` are at `off` in the buffer and have their tokens at `i`; the token after these is
for what comes after the items in the buffer. -/
structure HoldsAll (tokens : List BdecodeToken) (buf : List UInt8) (i off : ℕ) (vs : List Value) :
    Prop where
  size : buf.length ≤ maxOffset
  bytes : ∃ pre post, buf = pre ++ encodeAll vs ++ post ∧ pre.length = off
  tokens : ∃ pre post next, tokens = pre ++ tokensAll off vs ++ next :: post ∧ pre.length = i ∧
    next.offset = off + (encodeAll vs).length

/-- The same for one value. -/
def Holds (tokens : List BdecodeToken) (buf : List UInt8) (i off : ℕ) (v : Value) : Prop :=
  HoldsAll tokens buf i off [v]

theorem HoldsAll.off_lt (h : HoldsAll tokens buf i off vs) : off + (encodeAll vs).length < 2 ^ 29 := by
  obtain ⟨pre, post, hbuf, rfl⟩ := h.bytes
  have := h.size
  rw [hbuf, List.length_append, List.length_append, maxOffset] at this
  omega

theorem tokens_eq_cons (off : ℕ) (v : Value) : ∃ t ts, v.tokens off = t :: ts ∧
    t.offset = off % 2 ^ 29 ∧ t.nextItem = v.tokenCount % 2 ^ 29 ∧ t.type ≠ .endToken := by
  cases v with
  | int _ _ => exact ⟨_, _, rfl, rfl, rfl, by simp [BdecodeToken.linked]⟩
  | str l b =>
    refine ⟨_, _, rfl, rfl, rfl, ?_⟩
    simp only [BdecodeToken.linked]
    split_ifs <;> simp
  | list items => exact ⟨_, _, rfl, rfl, rfl, by simp [BdecodeToken.unlinked]⟩
  | dict items => exact ⟨_, _, rfl, rfl, rfl, by simp [BdecodeToken.unlinked]⟩

/-- The first item, and the others after it. -/
theorem HoldsAll.cons (h : HoldsAll tokens buf i off (v :: vs)) : Holds tokens buf i off v ∧
    HoldsAll tokens buf (i + v.tokenCount) (off + v.encode.length) vs := by
  have hlt := h.off_lt
  obtain ⟨hsize, ⟨bpre, bpost, hbuf, hoff⟩, tpre, tpost, next, htok, hi, hnext⟩ := h
  rw [encodeAll, List.length_append] at hlt hnext
  rw [encodeAll] at hbuf
  rw [tokensAll] at htok
  refine ⟨⟨hsize, ⟨bpre, encodeAll vs ++ bpost, ?_, hoff⟩, ?_⟩, hsize,
    ⟨bpre ++ v.encode, bpost, ?_, ?_⟩, tpre ++ v.tokens off, tpost, next, ?_, ?_, ?_⟩
  · rw [hbuf, encodeAll_singleton]
    simp only [List.append_assoc]
  · rcases vs with - | ⟨w, ws⟩
    · refine ⟨tpre, tpost, next, ?_, hi, ?_⟩
      · rw [htok, tokensAll_singleton, tokensAll, List.append_nil]
      · rw [hnext, encodeAll, List.length_nil, encodeAll_singleton, Nat.add_zero]
    · obtain ⟨t, ts, ht, htoff, -⟩ := tokens_eq_cons (off + v.encode.length) w
      refine ⟨tpre, ts ++ (tokensAll (off + v.encode.length + w.encode.length) ws ++ next :: tpost), t,
        ?_, hi, ?_⟩
      · rw [htok, tokensAll, ht, tokensAll_singleton]
        simp only [List.append_assoc, List.cons_append]
      · rw [htoff, encodeAll_singleton, Nat.mod_eq_of_lt (by omega)]
  · rw [hbuf]
    simp only [List.append_assoc]
  · rw [List.length_append, hoff]
  · rw [htok]
    simp only [List.append_assoc]
  · rw [List.length_append, length_tokens, hi]
  · rw [hnext, Nat.add_assoc]

/-- The item `j`. -/
theorem HoldsAll.getElem? (h : HoldsAll tokens buf i off vs) {j : ℕ} (hj : vs[j]? = some v) :
    Holds tokens buf (i + tokenCountAll (vs.take j)) (off + (encodeAll (vs.take j)).length) v := by
  induction vs generalizing i off j with
  | nil => cases hj
  | cons w ws ih =>
    obtain ⟨h₁, h₂⟩ := h.cons
    rcases j with - | j
    · obtain rfl := Option.some.inj hj
      exact h₁
    · rw [List.take_succ_cons, tokenCountAll, encodeAll, List.length_append, ← Nat.add_assoc,
        ← Nat.add_assoc]
      exact ih h₂ hj

/-- The items of a list or dictionary, and its end. -/
theorem Holds.items {isDict : Bool} {items : List Value}
    (h : Holds tokens buf i off (.sequence isDict items)) :
    HoldsAll tokens buf (i + 1) (off + 1) items ∧
      (tokens[i + 1 + tokenCountAll items]?).map BdecodeToken.type = some .endToken := by
  have hlt := h.off_lt
  obtain ⟨hsize, ⟨bpre, bpost, hbuf, hoff⟩, tpre, tpost, next, htok, hi, hnext⟩ := h
  rw [encodeAll_singleton, encode_sequence] at hbuf hlt
  rw [List.length_cons, List.length_append] at hlt
  rw [tokensAll_singleton, tokens_sequence, sequenceTokens] at htok
  set first : BdecodeToken := { BdecodeToken.unlinked off (sequenceType isDict) with
    nextItem := (tokenCountAll items + 2) % 2 ^ 29 }
  set last := BdecodeToken.linked (off + 1 + (encodeAll items).length) 1 .endToken 0 with hlast
  have htok' : tokens = (tpre ++ [first]) ++ tokensAll (off + 1) items ++ last :: (next :: tpost) := by
    rw [htok]
    simp only [List.append_assoc, List.cons_append, List.nil_append]
  have hpre : (tpre ++ [first]).length = i + 1 := by
    rw [List.length_append, List.length_singleton, hi]
  refine ⟨⟨hsize, ⟨bpre ++ [sequenceByte isDict], ascii 'e' :: bpost, ?_, ?_⟩,
    tpre ++ [first], next :: tpost, last, htok', hpre, ?_⟩, ?_⟩
  · rw [hbuf]
    simp only [List.append_assoc, List.cons_append, List.nil_append]
  · rw [List.length_append, List.length_singleton, hoff]
  · exact Nat.mod_eq_of_lt (by omega)
  · have hlen : ((tpre ++ [first]) ++ tokensAll (off + 1) items).length =
        i + 1 + tokenCountAll items := by
      rw [List.length_append, hpre, length_tokensAll]
    rw [htok', ← hlen, List.getElem?_append_right (Nat.le_refl _), Nat.sub_self,
      List.getElem?_cons_zero]
    rfl

end Holds

namespace BdecodeNode

variable {n : BdecodeNode} {i off : ℕ} {v : Value} {vs : List Value}

/-- The first token of a value. -/
theorem token_of_holds (h : Holds n.tokens n.buffer i off v) : ∃ ts, v.tokens off = n.token i :: ts := by
  obtain ⟨-, -, pre, post, next, htok, rfl, -⟩ := h
  obtain ⟨t, ts, ht, -⟩ := tokens_eq_cons off v
  refine ⟨ts, ?_⟩
  rw [tokensAll_singleton, ht] at htok
  rw [token, htok, List.append_assoc, List.cons_append,
    List.getD_append_right _ _ _ _ (Nat.le_refl _), Nat.sub_self, List.getD_cons_zero, ht]

/-- The token after those of a value. -/
theorem next_of_holds (h : Holds n.tokens n.buffer i off v) :
    (n.token (i + v.tokenCount)).offset = off + v.encode.length := by
  obtain ⟨-, -, pre, post, next, htok, rfl, hnext⟩ := h
  rw [tokensAll_singleton] at htok
  rw [encodeAll_singleton] at hnext
  have hlen : pre.length + v.tokenCount = (pre ++ v.tokens off).length := by
    rw [List.length_append, length_tokens]
  rw [token, htok, hlen, List.getD_append_right _ _ _ _ (Nat.le_refl _), Nat.sub_self,
    List.getD_cons_zero, hnext]

theorem first_of_holds (h : Holds n.tokens n.buffer i off v) : (n.token i).offset = off ∧
    (n.token i).nextItem = v.tokenCount ∧ (n.token i).type ≠ .endToken := by
  have hlt := h.off_lt
  rw [encodeAll_singleton] at hlt
  have := v.tokenCount_le
  obtain ⟨ts, hts⟩ := token_of_holds h
  obtain ⟨t, ts', ht, h₁, h₂, h₃⟩ := tokens_eq_cons off v
  obtain ⟨rfl, -⟩ := List.cons.inj (ht.symm.trans hts)
  exact ⟨by rw [h₁, Nat.mod_eq_of_lt (by omega)], by rw [h₂, Nat.mod_eq_of_lt (by omega)], h₃⟩

/-! ## Following links -/

theorem take_succ_of_getElem? {j : ℕ} (hj : vs[j]? = some v) : vs.take (j + 1) = vs.take j ++ [v] := by
  rw [List.take_add_one, hj]
  rfl

theorem tokenCountAll_append (vs ws : List Value) :
    tokenCountAll (vs ++ ws) = tokenCountAll vs + tokenCountAll ws := by
  induction vs with
  | nil => exact (Nat.zero_add _).symm
  | cons v vs ih => rw [List.cons_append, tokenCountAll, tokenCountAll, ih, Nat.add_assoc]

theorem tokenCountAll_take_succ {j : ℕ} (hj : vs[j]? = some v) :
    tokenCountAll (vs.take (j + 1)) = tokenCountAll (vs.take j) + v.tokenCount := by
  rw [take_succ_of_getElem? hj, tokenCountAll_append, tokenCountAll, tokenCountAll, Nat.add_zero]

/-- `k` links lead `k` items on. -/
theorem skip_items (h : HoldsAll n.tokens n.buffer i off vs) {j k : ℕ} (hk : j + k ≤ vs.length) :
    n.skip k (i + tokenCountAll (vs.take j)) = i + tokenCountAll (vs.take (j + k)) := by
  induction k generalizing j with
  | zero => rfl
  | succ k ih =>
    obtain ⟨v, hv⟩ : ∃ v, vs[j]? = some v := ⟨_, List.getElem?_eq_getElem (by omega)⟩
    rw [skip, (first_of_holds (h.getElem? hv)).2.1, Nat.add_assoc, ← tokenCountAll_take_succ hv,
      ih (by omega), Nat.add_right_comm j 1 k]
    rfl

theorem countTokens_items (h : HoldsAll n.tokens n.buffer i off vs)
    (hend : (n.tokens[i + tokenCountAll vs]?).map BdecodeToken.type = some .endToken) {j fuel : ℕ}
    (hj : j ≤ vs.length) (hfuel : vs.length - j < fuel) (ret : ℕ) :
    n.countTokens fuel (i + tokenCountAll (vs.take j)) ret = some (ret + (vs.length - j)) := by
  induction fuel generalizing j ret with
  | zero => cases hfuel
  | succ fuel ih =>
    rw [countTokens]
    rcases hv : vs[j]? with - | v
    · obtain rfl : j = vs.length := Nat.le_antisymm hj (List.getElem?_eq_none_iff.mp hv)
      rw [List.take_length]
      obtain ⟨t, ht, hend⟩ := Option.map_eq_some_iff.mp hend
      rw [if_pos (by rw [token, List.getD_eq_getElem?_getD, ht]; exact hend), Nat.sub_self,
        Nat.add_zero]
    · have hlt : j < vs.length := (List.getElem?_eq_some_iff.mp hv).1
      obtain ⟨-, hnext, hne⟩ := first_of_holds (h.getElem? hv)
      rw [if_neg hne, hnext, Nat.add_assoc, ← tokenCountAll_take_succ hv, ih hlt (by omega)]
      congr 1
      omega

/-! ## Values -/

/-- The type of a value. -/
def typeOf : Value → TokenType
  | .int _ _ => .integer
  | .str _ _ => .string
  | .list _ => .list
  | .dict _ => .dict

/-- The node is for the value `v`. -/
def IsNode (n : BdecodeNode) (v : Value) : Prop :=
  ∃ off, n.tokenIdx = some n.idx ∧ Holds n.tokens n.buffer n.idx off v

theorem IsNode.type_eq (h : n.IsNode v) : n.type = typeOf v := by
  obtain ⟨off, hidx, h⟩ := h
  obtain ⟨ts, hts⟩ := token_of_holds h
  rw [type, hidx]
  dsimp only
  cases v with
  | int _ _ =>
    rw [← (List.cons.inj hts).1]
    rfl
  | str l b =>
    rw [← (List.cons.inj hts).1]
    simp only [BdecodeToken.linked]
    split_ifs with h₁ h₂ h₂
    · rfl
    · exact absurd rfl h₂
    · cases h₂
    · rfl
  | list items =>
    rw [← (List.cons.inj hts).1]
    rfl
  | dict items =>
    rw [← (List.cons.inj hts).1]
    rfl

theorem drop_take_of_holds (h : Holds n.tokens n.buffer i off v) :
    (n.buffer.drop off).take v.encode.length = v.encode := by
  obtain ⟨-, ⟨pre, post, hbuf, rfl⟩, -⟩ := h
  rw [hbuf, encodeAll_singleton, List.append_assoc, List.drop_left, List.take_left]

theorem IsNode.dataSection_eq (h : n.IsNode v) : n.dataSection = v.encode := by
  obtain ⟨off, hidx, h⟩ := h
  obtain ⟨h₁, h₂, -⟩ := first_of_holds h
  rw [dataSection, hidx]
  dsimp only
  rw [h₂, h₁, next_of_holds h, Nat.add_sub_cancel_left, drop_take_of_holds h]

theorem tokenSourceSpan_of_holds (h : Holds n.tokens n.buffer i off v) (hone : v.tokenCount = 1) :
    n.tokenSourceSpan i = v.encode.length := by
  have hnext := next_of_holds h
  rw [hone] at hnext
  rw [tokenSourceSpan, hnext, (first_of_holds h).1, Nat.add_sub_cancel_left]

theorem startOffset_linked {header : ℕ} (off : ℕ) (h₁ : 2 ≤ header) (h₂ : header ≤ 17) :
    (BdecodeToken.linked off 1 .string header).startOffset = header := by
  have hshort : shortStringMaxHeader = 9 := rfl
  rw [BdecodeToken.startOffset, BdecodeToken.linked]
  by_cases h : shortStringMaxHeader < header
  · simp only [true_and, if_pos h]
    rw [if_neg (by decide)]
    omega
  · simp only [true_and, if_neg h, if_pos]
    omega

theorem IsNode.stringValue_eq {l b : List UInt8} (h : n.IsNode (.str l b))
    (hv : (Value.str l b).Valid) : n.stringValue = b := by
  obtain ⟨off, hidx, h⟩ := h
  obtain ⟨-, hpos, hmax, -⟩ := hv
  obtain ⟨ts, hts⟩ := token_of_holds h
  have hstart : (n.token n.idx).startOffset = l.length + 1 := by
    rw [← (List.cons.inj hts).1]
    exact startOffset_linked off (by omega) (by omega)
  have hspan := tokenSourceSpan_of_holds h rfl
  rw [encode, List.length_append, List.length_cons] at hspan
  have hsize : n.tokenSourceSpan n.idx - (l.length + 1) = b.length := by omega
  obtain ⟨-, ⟨pre, post, hbuf, rfl⟩, -⟩ := id h
  have hdrop : n.buffer.drop (pre.length + (l.length + 1)) = b ++ post := by
    have hbuf' : n.buffer = (pre ++ (l ++ [ascii ':'])) ++ (b ++ post) := by
      rw [hbuf, encodeAll_singleton, encode]
      simp only [List.append_assoc, List.cons_append, List.nil_append]
    have hlen : pre.length + (l.length + 1) = (pre ++ (l ++ [ascii ':'])).length := by
      rw [List.length_append, List.length_append, List.length_singleton]
    rw [hbuf', hlen, List.drop_left]
  rw [stringValue, (first_of_holds h).1, hstart, hsize, hdrop, List.take_left]

/-- The digits of an integer and what follows them are parsed. -/
theorem IsNode.intValue_parse {negative : Bool} {digits : List UInt8} (h : n.IsNode (.int negative digits))
    (hv : (Value.int negative digits).Valid) : ∃ rest,
      n.intValue = (let r := parseInt (ascii 'e') (digits ++ ascii 'e' :: rest) 0 0
        if r.error ≠ .noError then 0 else if negative then -r.val else r.val) := by
  obtain ⟨off, hidx, h⟩ := h
  obtain ⟨hnum, hpos, -⟩ := hv
  have hspan := tokenSourceSpan_of_holds h rfl
  obtain ⟨-, ⟨pre, post, hbuf, hoff⟩, -⟩ := id h
  have hptr : n.buffer.drop (off + 1) = signBytes negative ++ (digits ++ ascii 'e' :: post) := by
    have hbuf' : n.buffer = (pre ++ [ascii 'i']) ++ (signBytes negative ++ (digits ++ ascii 'e' :: post)) := by
      rw [hbuf, encodeAll_singleton, Decoder.encode_int]
      simp only [List.append_assoc, List.cons_append, List.nil_append]
    have hlen : off + 1 = (pre ++ [ascii 'i']).length := by
      rw [List.length_append, List.length_singleton, hoff]
    rw [hbuf', hlen, List.drop_left]
  have hdigits : ((n.buffer.drop (off + 1)).take (n.tokenSourceSpan n.idx)).drop
      (signBytes negative).length = digits ++ ascii 'e' :: post.take 1 := by
    rw [hspan, hptr, Decoder.encode_int]
    simp only [List.length_cons, List.length_append, List.length_nil]
    rw [List.drop_take, List.drop_left, List.take_append, List.take_of_length_le (by omega)]
    congr 1
    rw [show (signBytes negative).length + digits.length + (0 + 1) + 1 - (signBytes negative).length -
      digits.length = 1 + 1 by omega, List.take_succ_cons]
  have hsign := sign_eq negative (List.length_pos_iff.mp hpos) hnum (ascii 'e' :: post)
  refine ⟨post.take 1, ?_⟩
  rw [intValue, (first_of_holds h).1, hptr, hsign, ← hptr, hdigits]
  cases negative <;> rfl

/-- An integer that fits in 64 bits. -/
theorem IsNode.intValue_eq {negative : Bool} {digits : List UInt8}
    (h : n.IsNode (.int negative digits)) (hv : (Value.int negative digits).Valid)
    (hmax : (decimal digits : ℤ) ≤ int64Max) :
    n.intValue = if negative then -(decimal digits : ℤ) else decimal digits := by
  obtain ⟨rest, hparse⟩ := h.intValue_parse hv
  have hdigits := parseInt_of not_numeric_e hv.1 0 0 hmax rest
  rw [Nat.cast_zero] at hdigits
  rw [hparse, hdigits]
  exact if_neg (not_not.mpr rfl)

/-! ## Items -/

/-- The token of the item `j` of the list or dictionary. -/
def itemToken (n : BdecodeNode) (items : List Value) (j : ℕ) : ℕ :=
  n.idx + 1 + tokenCountAll (items.take j)

/-- What the node remembers is right; an item has `w` tokens of its own, 2 in a dictionary. -/
structure CacheOk (n : BdecodeNode) (w : ℕ) (items : List Value) : Prop where
  index : ∀ last, n.lastIndex = some last →
    w * last < items.length ∧ n.lastToken = n.itemToken items (w * last)
  size : ∀ size, n.size = some size → w * size = items.length

/-- A node of a list or dictionary with these items. -/
structure HasItems (n : BdecodeNode) (w : ℕ) (items : List Value) : Prop extends
    CacheOk n w items where
  tokenIdx : n.tokenIdx = some n.idx
  holds : ∃ off, HoldsAll n.tokens n.buffer (n.idx + 1) off items
  ends : (n.tokens[n.idx + 1 + tokenCountAll items]?).map BdecodeToken.type = some .endToken

variable {w : ℕ} {items : List Value}

theorem HasItems.skip (h : n.HasItems w items) {j k : ℕ} (hk : j + k ≤ items.length) :
    n.skip k (n.itemToken items j) = n.itemToken items (j + k) := by
  obtain ⟨off, hh⟩ := h.holds
  exact skip_items hh hk

/-- A look-up starts at an item at or before the one looked for. -/
theorem HasItems.cached (h : n.HasItems w items) (i : ℕ) : (n.cached i).2 ≤ i ∧
    (n.cached i).1 = n.itemToken items (w * (n.cached i).2) := by
  have hstart : n.idx + 1 = n.itemToken items (w * 0) := by
    rw [itemToken, Nat.mul_zero, List.take_zero, tokenCountAll, Nat.add_zero]
  rw [BdecodeNode.cached]
  rcases hlast : n.lastIndex with - | last
  · exact ⟨Nat.zero_le i, hstart⟩
  · dsimp only
    split_ifs with hle
    · exact ⟨hle, (h.index last hlast).2⟩
    · exact ⟨Nat.zero_le i, hstart⟩

/-- The token a look-up of the item `i` ends at. -/
theorem HasItems.lookup (h : n.HasItems w items) {i : ℕ} (hi : w * i < items.length) :
    n.skip (w * (i - (n.cached i).2)) (n.cached i).1 = n.itemToken items (w * i) := by
  obtain ⟨hle, htok⟩ := h.cached i
  have hadd : w * (n.cached i).2 + w * (i - (n.cached i).2) = w * i := by
    rw [← Nat.mul_add, Nat.add_sub_cancel' hle]
  rw [htok, h.skip (by omega), hadd]

/-- Remembering the item `i`. -/
theorem HasItems.remember (h : n.HasItems w items) {i : ℕ} (hi : w * i < items.length) :
    HasItems { n with lastToken := n.itemToken items (w * i), lastIndex := some i } w items :=
  ⟨⟨fun _ hl => Option.some.inj hl ▸ ⟨hi, rfl⟩, h.size⟩, h.tokenIdx, h.holds, h.ends⟩

theorem HasItems.resize (h : n.HasItems w items) {size : Option ℕ}
    (hs : ∀ k, size = some k → w * k = items.length) : HasItems { n with size := size } w items :=
  ⟨⟨h.index, hs⟩, h.tokenIdx, h.holds, h.ends⟩

theorem HasItems.listAt (h : n.HasItems 1 items) {i : ℕ} (hi : i < items.length) :
    (n.listAt i).1 = n.child (n.itemToken items i) ∧ (n.listAt i).2.HasItems 1 items := by
  have hlook := h.lookup (i := i) (by omega)
  have hrem := h.remember (i := i) (by omega)
  rw [Nat.one_mul, Nat.one_mul] at hlook
  rw [Nat.one_mul] at hrem
  simp only [BdecodeNode.listAt, hlook]
  exact ⟨trivial, hrem⟩

theorem HasItems.dictAtNode (h : n.HasItems 2 items) {i : ℕ} (hi : 2 * i + 1 < items.length) :
    (n.dictAtNode i).1 = (n.child (n.itemToken items (2 * i)), n.child (n.itemToken items (2 * i + 1))) ∧
      (n.dictAtNode i).2.HasItems 2 items := by
  have hlook := h.lookup (i := i) (by omega)
  have hrem := h.remember (i := i) (by omega)
  have hnext := h.skip (j := 2 * i) (k := 1) (by omega)
  rw [BdecodeNode.skip, BdecodeNode.skip] at hnext
  simp only [BdecodeNode.dictAtNode, hlook, hnext]
  refine ⟨trivial, ?_⟩
  split_ifs
  · exact hrem
  · exact h

theorem HasItems.length_le (h : n.HasItems w items) : items.length ≤ n.tokens.length := by
  obtain ⟨off, hh⟩ := h.holds
  obtain ⟨pre, post, next, htok, -⟩ := hh.tokens
  have := length_le_tokenCountAll items
  rw [htok, List.length_append, List.length_append, length_tokensAll]
  omega

/-- Counting the items, from wherever. -/
theorem HasItems.countTokens (h : n.HasItems w items) {j : ℕ} (hj : j ≤ items.length) :
    n.countTokens (n.tokens.length + 1) (n.itemToken items j) j = some items.length := by
  obtain ⟨off, hh⟩ := h.holds
  have := h.length_le
  rw [itemToken, countTokens_items hh h.ends hj (by omega), Nat.add_sub_cancel' hj]

theorem HasItems.lastItem (h : n.HasItems w items) : w * n.lastItem.2 ≤ items.length ∧
    n.lastItem.1 = n.itemToken items (w * n.lastItem.2) := by
  rw [BdecodeNode.lastItem]
  rcases hlast : n.lastIndex with - | last
  · refine ⟨Nat.zero_le _, ?_⟩
    rw [itemToken, Nat.mul_zero, List.take_zero, tokenCountAll, Nat.add_zero]
  · exact ⟨Nat.le_of_lt (h.index last hlast).1, (h.index last hlast).2⟩

theorem HasItems.listSize (h : n.HasItems 1 items) :
    n.listSize.1 = some items.length ∧ n.listSize.2.HasItems 1 items := by
  rw [BdecodeNode.listSize]
  rcases hs : n.size with - | size
  · obtain ⟨hle, htok⟩ := h.lastItem
    have hcount := h.countTokens hle
    rw [← htok, Nat.one_mul] at hcount
    dsimp only
    rw [hcount]
    exact ⟨rfl, h.resize fun k hk => by rw [← Option.some.inj hk, Nat.one_mul]⟩
  · have := h.size size hs
    rw [Nat.one_mul] at this
    exact ⟨by rw [this], h⟩

theorem HasItems.dictSize (h : n.HasItems 2 items) {k : ℕ} (hk : items.length = 2 * k) :
    n.dictSize.1 = some k ∧ n.dictSize.2.HasItems 2 items := by
  rw [BdecodeNode.dictSize]
  rcases hs : n.size with - | size
  · obtain ⟨hle, htok⟩ := h.lastItem
    have hcount := h.countTokens hle
    rw [← htok, Nat.mul_comm, hk] at hcount
    dsimp only
    rw [hcount, Option.map_some, Nat.mul_div_cancel_left k Nat.two_pos]
    exact ⟨rfl, h.resize fun k' hk' => by rw [← Option.some.inj hk', hk]⟩
  · have := h.size size hs
    exact ⟨congrArg some (by omega), h⟩

end BdecodeNode

end Bencode

end LibtorrentSN
