import LibtorrentSN.Bencode.Decode

/-!
# Bencoding: the grammar

A `Value` is a tree of the grammar as it stands in the buffer, with its digits as they are written
(leading zeros and negative zero are let through). `encode` gives its bytes, `tokens` the tokens
`bdecode` should write for it.
-/

namespace LibtorrentSN

namespace Bencode

/-- A bencoded value. The items of a dictionary are its keys and values in turn. -/
inductive Value
  | int (negative : Bool) (digits : List UInt8)
  | str (length : List UInt8) (bytes : List UInt8)
  | list (items : List Value)
  | dict (items : List Value)

/-- The number a list of digits stands for. -/
def decimal (digits : List UInt8) : ℕ := digits.foldl (fun n c => n * 10 + digit c) 0

/-- Keys, which are strings, and values in turn. -/
def members : List Value → Prop
  | [] => True
  | .str _ _ :: _ :: vs => members vs
  | _ => False

/-- The first byte of a list or dictionary. -/
def sequenceByte (isDict : Bool) : UInt8 := if isDict then ascii 'd' else ascii 'l'

def sequenceType (isDict : Bool) : TokenType := if isDict then .dict else .list

namespace Value

/-- The items of a list or dictionary. -/
def sequence (isDict : Bool) (items : List Value) : Value :=
  if isDict then .dict items else .list items

mutual

/-- The bytes of a value. -/
def encode : Value → List UInt8
  | .int negative digits =>
    ascii 'i' :: ((if negative then [ascii '-'] else []) ++ digits ++ [ascii 'e'])
  | .str length bytes => length ++ ascii ':' :: bytes
  | .list items => ascii 'l' :: (encodeAll items ++ [ascii 'e'])
  | .dict items => ascii 'd' :: (encodeAll items ++ [ascii 'e'])

def encodeAll : List Value → List UInt8
  | [] => []
  | v :: vs => v.encode ++ encodeAll vs

end

mutual

/-- What the grammar asks for. -/
def Valid : Value → Prop
  | .int _ digits => (∀ c ∈ digits, numeric c) ∧ 1 ≤ digits.length ∧ digits.length ≤ 20
  | .str length bytes => (∀ c ∈ length, numeric c) ∧ 1 ≤ length.length ∧ length.length + 1 ≤ 17 ∧
      decimal length = bytes.length
  | .list items => ValidAll items
  | .dict items => members items ∧ ValidAll items

def ValidAll : List Value → Prop
  | [] => True
  | v :: vs => v.Valid ∧ ValidAll vs

end

mutual

/-- How deep lists and dictionaries are nested. -/
def depth : Value → ℕ
  | .int _ _ => 0
  | .str _ _ => 0
  | .list items => depthAll items + 1
  | .dict items => depthAll items + 1

def depthAll : List Value → ℕ
  | [] => 0
  | v :: vs => max v.depth (depthAll vs)

end

mutual

/-- The number of tokens: two for a list or dictionary, on top of those of its items. -/
def tokenCount : Value → ℕ
  | .int _ _ => 1
  | .str _ _ => 1
  | .list items => tokenCountAll items + 2
  | .dict items => tokenCountAll items + 2

def tokenCountAll : List Value → ℕ
  | [] => 0
  | v :: vs => v.tokenCount + tokenCountAll vs

end

/-- The tokens of a list or dictionary at `off`, with those of its items. -/
def sequenceTokens (off : ℕ) (t : TokenType) (items : List Value) (inner : List BdecodeToken) :
    List BdecodeToken :=
  { BdecodeToken.unlinked off t with nextItem := (tokenCountAll items + 2) % 2 ^ 29 } ::
    (inner ++ [.linked (off + 1 + (encodeAll items).length) 1 .endToken 0])

mutual

/-- The tokens of a value at `off`. -/
def tokens (off : ℕ) : Value → List BdecodeToken
  | .int _ _ => [.linked off 1 .integer 1]
  | .str length _ => [.linked off 1 .string (length.length + 1)]
  | .list items => sequenceTokens off .list items (tokensAll (off + 1) items)
  | .dict items => sequenceTokens off .dict items (tokensAll (off + 1) items)

def tokensAll (off : ℕ) : List Value → List BdecodeToken
  | [] => []
  | v :: vs => v.tokens off ++ tokensAll (off + v.encode.length) vs

end

/-! ## Items one by one -/

variable {v : Value} {vs ws : List Value} {isDict : Bool}

theorem encodeAll_append (vs ws : List Value) :
    encodeAll (vs ++ ws) = encodeAll vs ++ encodeAll ws := by
  induction vs with
  | nil => rfl
  | cons v vs ih => rw [List.cons_append, encodeAll, encodeAll, ih, List.append_assoc]

theorem encodeAll_singleton (v : Value) : encodeAll [v] = v.encode := by
  rw [encodeAll, encodeAll, List.append_nil]

theorem tokensAll_append (off : ℕ) (vs ws : List Value) : tokensAll off (vs ++ ws) =
    tokensAll off vs ++ tokensAll (off + (encodeAll vs).length) ws := by
  induction vs generalizing off with
  | nil => rfl
  | cons v vs ih =>
    rw [List.cons_append, tokensAll, tokensAll, ih, encodeAll, List.length_append, List.append_assoc,
      Nat.add_assoc]

theorem tokensAll_singleton (off : ℕ) (v : Value) : tokensAll off [v] = v.tokens off := by
  rw [tokensAll, tokensAll, List.append_nil]

theorem validAll_iff : ValidAll vs ↔ ∀ v ∈ vs, v.Valid := by
  induction vs with
  | nil => simp [ValidAll]
  | cons v vs ih => rw [ValidAll, ih, List.forall_mem_cons]

theorem depthAll_lt {n : ℕ} : depthAll vs < n ↔ 0 < n ∧ ∀ v ∈ vs, v.depth < n := by
  induction vs with
  | nil => simp [depthAll]
  | cons v vs ih =>
    rw [depthAll, max_lt_iff, ih, List.forall_mem_cons]
    exact ⟨fun ⟨h₁, h₂, h₃⟩ => ⟨h₂, h₁, h₃⟩, fun ⟨h₁, h₂, h₃⟩ => ⟨h₂, h₁, h₃⟩⟩

theorem depth_le_depthAll (h : v ∈ vs) : v.depth ≤ depthAll vs := by
  have := (depthAll_lt.mp (Nat.lt_succ_self (depthAll vs))).2 v h
  omega

mutual

theorem length_tokens (off : ℕ) : ∀ v : Value, (v.tokens off).length = v.tokenCount
  | .int _ _ => rfl
  | .str _ _ => rfl
  | .list items => by
    rw [tokens, sequenceTokens, tokenCount, List.length_cons, List.length_append,
      length_tokensAll (off + 1) items]
    rfl
  | .dict items => by
    rw [tokens, sequenceTokens, tokenCount, List.length_cons, List.length_append,
      length_tokensAll (off + 1) items]
    rfl

theorem length_tokensAll (off : ℕ) :
    ∀ vs : List Value, (tokensAll off vs).length = tokenCountAll vs
  | [] => rfl
  | v :: vs => by
    rw [tokensAll, tokenCountAll, List.length_append, length_tokens off v, length_tokensAll _ vs]

end

mutual

/-- Every token has a byte of its own. -/
theorem tokenCount_le : ∀ v : Value, v.tokenCount ≤ v.encode.length
  | .int _ _ => by
    rw [tokenCount, encode, List.length_cons]
    exact Nat.succ_le_succ (Nat.zero_le _)
  | .str _ _ => by
    rw [tokenCount, encode, List.length_append, List.length_cons]
    exact Nat.le_add_left_of_le (Nat.succ_le_succ (Nat.zero_le _))
  | .list items => by
    rw [tokenCount, encode, List.length_cons, List.length_append]
    exact Nat.add_le_add_right (tokenCountAll_le items) 2
  | .dict items => by
    rw [tokenCount, encode, List.length_cons, List.length_append]
    exact Nat.add_le_add_right (tokenCountAll_le items) 2

theorem tokenCountAll_le : ∀ vs : List Value, tokenCountAll vs ≤ (encodeAll vs).length
  | [] => Nat.le_refl 0
  | v :: vs => by
    rw [tokenCountAll, encodeAll, List.length_append]
    exact Nat.add_le_add (tokenCount_le v) (tokenCountAll_le vs)

end

mutual

theorem depth_le_tokenCount : ∀ v : Value, v.depth ≤ v.tokenCount
  | .int _ _ => Nat.zero_le _
  | .str _ _ => Nat.zero_le _
  | .list items => Nat.add_le_add (depthAll_le_tokenCountAll items) (Nat.le_succ 1)
  | .dict items => Nat.add_le_add (depthAll_le_tokenCountAll items) (Nat.le_succ 1)

theorem depthAll_le_tokenCountAll : ∀ vs : List Value, depthAll vs ≤ tokenCountAll vs
  | [] => Nat.le_refl 0
  | v :: vs => by
    have h₁ := depth_le_tokenCount v
    have h₂ := depthAll_le_tokenCountAll vs
    rw [depthAll, tokenCountAll]
    omega

end

/-! ## Lists and dictionaries alike -/

theorem encode_sequence (isDict : Bool) (items : List Value) :
    (sequence isDict items).encode = sequenceByte isDict :: (encodeAll items ++ [ascii 'e']) := by
  cases isDict <;> rfl

theorem tokens_sequence (off : ℕ) (isDict : Bool) (items : List Value) :
    (sequence isDict items).tokens off =
      sequenceTokens off (sequenceType isDict) items (tokensAll (off + 1) items) := by
  cases isDict <;> rfl

theorem depth_sequence (isDict : Bool) (items : List Value) :
    (sequence isDict items).depth = depthAll items + 1 := by
  cases isDict <;> rfl

theorem tokenCount_sequence (isDict : Bool) (items : List Value) :
    (sequence isDict items).tokenCount = tokenCountAll items + 2 := by
  cases isDict <;> rfl

theorem valid_sequence (isDict : Bool) (items : List Value) :
    (sequence isDict items).Valid ↔ (isDict = true → members items) ∧ ValidAll items := by
  cases isDict <;> simp [sequence, Valid]

end Value

end Bencode

end LibtorrentSN
