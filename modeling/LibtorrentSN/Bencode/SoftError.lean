import LibtorrentSN.Bencode.Integers

/-!
# Bencoding: soft errors

`has_soft_error` (`src/bdecode.cpp`) looks through the tokens of a node, in their order, for numbers with leading zeros
and for keys that are not sorted. It says nothing about a minus sign in front of a zero. What it lets through is what
`bencode` writes.
-/

namespace LibtorrentSN

namespace Bencode

open Value

namespace BdecodeNode

variable (n : BdecodeNode)

/-- `m_buffer[i]` -/
def byte (i : ℕ) : UInt8 := n.buffer.getD i 0

/-- The loop over the keys of a dictionary, from the one with the token `k1` on. The end of the dictionary is the token
`last`. The error, if there is one, is the text for the user. -/
def keysError (last : ℕ) : ℕ → ℕ → Option (Option String)
  | 0, _ => none
  | fuel + 1, k1 =>
    -- skip to the first key's value, and then to the next key
    let v1 := k1 + (n.token k1).nextItem
    let k2 := v1 + (n.token v1).nextItem
    if k2 = last then some none
    else
      let v2 := k2 + (n.token k2).nextItem
      let k1Start := (n.token k1).offset + (n.token k1).startOffset
      let k1Len := (n.token v1).offset - k1Start
      let k2Start := (n.token k2).offset + (n.token k2).startOffset
      let k2Len := (n.token v2).offset - k2Start
      let minLen := min k1Len k2Len
      let s1 := (n.buffer.drop k1Start).take minLen
      let s2 := (n.buffer.drop k2Start).take minLen
      if s2 < s1 ∨ s1 = s2 ∧ k2Len < k1Len then some (some "unsorted dictionary key")
      else if s1 = s2 ∧ k1Len = k2Len then some (some "duplicate dictionary key")
      else keysError last fuel k2

/-- What `has_soft_error` does with a token, where the lists and dictionaries in the stack are open: an error, or what is
open behind it. -/
def checkToken (token : ℕ) (stack : List ℕ) : Option (Except String (List ℕ)) :=
  match (n.token token).type with
  | .integer =>
    if n.byte ((n.token token).offset + 1) = ascii '0' ∧ n.byte ((n.token token).offset + 2) ≠ ascii 'e' then
      some (.error "leading zero in integer")
    else some (.ok stack)
  | .string | .longString =>
    if n.byte (n.token token).offset = ascii '0' ∧ n.byte ((n.token token).offset + 1) ≠ ascii ':' then
      some (.error "leading zero in string length")
    else some (.ok stack)
  | .dict | .list => some (.ok (token :: stack))
  | .endToken =>
    match stack with
    | [] => none
    | parent :: stack =>
      if (n.token parent).type = .dict ∧ token ≠ parent + 1 then
        -- this is the end of a non-empty dict: check the sort order of the keys
        (n.keysError token (n.tokens.length + 1) (parent + 1)).map fun error => error.elim (.ok stack) .error
      else some (.ok stack)
  | .none => some (.ok stack)

/-- The loop, until nothing is open any more. -/
def softErrorFrom : ℕ → ℕ → List ℕ → Option (Option String)
  | 0, _, _ => none
  | fuel + 1, token, stack =>
    match n.checkToken token stack with
    | none => none
    | some (.error error) => some (some error)
    | some (.ok stack) => if stack = [] then some none else softErrorFrom fuel (token + 1) stack

/-- `has_soft_error`: what it writes to `error` where it returns true. The outer `none` is for a loop that does not
end. -/
def hasSoftError : Option (Option String) :=
  if n.type = .none then some none else n.softErrorFrom (n.tokens.length + 1) n.idx []

end BdecodeNode

/-! ## The first soft error of a value -/

/-- A number that begins with a zero and has more digits. -/
def leadingZero (digits : List UInt8) : Bool := digits.head? == some (ascii '0') && digits.length != 1

/-- The first two keys that are out of order. -/
def keyError : List (List UInt8) → Option String
  | k1 :: k2 :: keys =>
    if k2 < k1 then some "unsorted dictionary key"
    else if k1 = k2 then some "duplicate dictionary key"
    else keyError (k2 :: keys)
  | _ => none

/-- The keys among the items of a dictionary. -/
def keysOf : List Value → List (List UInt8)
  | .str _ bytes :: _ :: items => bytes :: keysOf items
  | _ => []

namespace Value

mutual

def softError : Value → Option String
  | .int negative digits => if !negative && leadingZero digits then some "leading zero in integer" else none
  | .str length _ => if leadingZero length then some "leading zero in string length" else none
  | .list items => softErrorAll items
  | .dict items => (softErrorAll items).or (keyError (keysOf items))

def softErrorAll : List Value → Option String
  | [] => none
  | v :: vs => v.softError.or (softErrorAll vs)

end

end Value

/-! ## What the loop finds -/

section Loop

/-- The common part of two keys, and then their lengths, give their order. -/
theorem take_min_lt_iff (x y : List UInt8) :
    y.take (min x.length y.length) < x.take (min x.length y.length) ∨
      x.take (min x.length y.length) = y.take (min x.length y.length) ∧ y.length < x.length ↔ y < x := by
  induction x generalizing y with
  | nil => simp
  | cons a x ih =>
    cases y with
    | nil => simp
    | cons b y =>
      rw [List.length_cons, List.length_cons, Nat.add_min_add_right, List.take_succ_cons, List.take_succ_cons,
        List.cons_lt_cons_iff, List.cons_lt_cons_iff, List.cons.injEq, ← ih y]
      constructor
      · rintro ((hlt | ⟨heq, hlt⟩) | ⟨⟨heq, htake⟩, hlen⟩)
        · exact .inl hlt
        · exact .inr ⟨heq, .inl hlt⟩
        · exact .inr ⟨heq.symm, .inr ⟨htake, Nat.lt_of_succ_lt_succ hlen⟩⟩
      · rintro (hlt | ⟨heq, hlt | ⟨htake, hlen⟩⟩)
        · exact .inl (.inl hlt)
        · exact .inl (.inr ⟨heq, hlt⟩)
        · exact .inr ⟨⟨heq.symm, htake⟩, Nat.succ_lt_succ hlen⟩

theorem take_min_eq_iff (x y : List UInt8) :
    x.take (min x.length y.length) = y.take (min x.length y.length) ∧ x.length = y.length ↔ x = y := by
  constructor
  · rintro ⟨htake, hlen⟩
    rwa [hlen, min_self, List.take_length, ← hlen, List.take_length] at htake
  · rintro rfl
    exact ⟨rfl, rfl⟩

variable {n : BdecodeNode} {i off : ℕ} {v : Value} {vs items : List Value}

/-- Where the bytes of a string are. -/
theorem BdecodeNode.str_of_holds {l b : List UInt8} (h : Holds n.tokens n.buffer i off (.str l b))
    (hv : (Value.str l b).Valid) : ∃ post,
      n.buffer.drop ((n.token i).offset + (n.token i).startOffset) = b ++ post ∧
      (n.token (i + 1)).offset - ((n.token i).offset + (n.token i).startOffset) = b.length := by
  obtain ⟨-, hpos, hmax, -⟩ := hv
  obtain ⟨ts, hts⟩ := token_of_holds h
  have hstart : (n.token i).startOffset = l.length + 1 := by
    rw [← (List.cons.inj hts).1]
    exact startOffset_linked off (by omega) (by omega)
  have hnext := next_of_holds h
  rw [(first_of_holds h).1, hstart]
  obtain ⟨-, ⟨pre, post, hbuf, rfl⟩, -⟩ := id h
  refine ⟨post, ?_, ?_⟩
  · have hbuf' : n.buffer = (pre ++ (l ++ [ascii ':'])) ++ (b ++ post) := by
      rw [hbuf, encodeAll_singleton, encode]
      simp only [List.append_assoc, List.cons_append, List.nil_append]
    have hlen : pre.length + (l.length + 1) = (pre ++ (l ++ [ascii ':'])).length := by
      rw [List.length_append, List.length_append, List.length_singleton]
    rw [hbuf', hlen, List.drop_left]
  · change (n.token (i + 1)).offset = _ at hnext
    rw [hnext, encode, List.length_append, List.length_cons]
    omega

/-- The loop over the keys of a dictionary that is not empty. -/
theorem BdecodeNode.keysError_eq {l b : List UInt8} {fuel : ℕ}
    (h : HoldsAll n.tokens n.buffer i off (.str l b :: v :: vs)) (hm : members vs)
    (hv : ValidAll (.str l b :: v :: vs)) (hfuel : vs.length < fuel) :
    n.keysError (i + tokenCountAll (.str l b :: v :: vs)) fuel i = some (keyError (b :: keysOf vs)) := by
  induction fuel generalizing i off l b v vs with
  | zero => cases hfuel
  | succ fuel ih =>
    obtain ⟨hkey, hrest⟩ := h.cons
    obtain ⟨hval, hnext⟩ := hrest.cons
    have hk2 : i + (n.token i).nextItem + (n.token (i + (n.token i).nextItem)).nextItem =
        i + (Value.str l b).tokenCount + v.tokenCount := by
      rw [(first_of_holds hkey).2.1, (first_of_holds hval).2.1]
    have hlast : i + tokenCountAll (.str l b :: v :: vs) =
        i + (Value.str l b).tokenCount + v.tokenCount + tokenCountAll vs := by
      simp only [tokenCountAll]
      omega
    rw [keysError, hk2, (first_of_holds hkey).2.1, hlast]
    rcases vs with - | ⟨v2, vs⟩
    · exact if_pos rfl
    obtain ⟨l2, b2, rfl⟩ : ∃ l2 b2, v2 = .str l2 b2 := by
      cases v2 with
      | str l2 b2 => exact ⟨l2, b2, rfl⟩
      | _ => cases vs <;> cases hm
    rcases vs with - | ⟨w, vs⟩
    · cases hm
    obtain ⟨hkey2, -⟩ := hnext.cons
    obtain ⟨post, hbytes, hlen⟩ := str_of_holds hkey hv.1
    obtain ⟨post2, hbytes2, hlen2⟩ := str_of_holds hkey2 hv.2.2.1
    have htake : ∀ {m : ℕ}, m ≤ b.length → (b ++ post).take m = b.take m := fun hm => List.take_append_of_le_length hm
    have htake2 : ∀ {m : ℕ}, m ≤ b2.length → (b2 ++ post2).take m = b2.take m :=
      fun hm => List.take_append_of_le_length hm
    have hcount : 0 < tokenCountAll (.str l2 b2 :: w :: vs) := Nat.lt_of_lt_of_le Nat.zero_lt_one (Nat.le_add_right 1 _)
    rw [if_neg (by omega), (first_of_holds hkey2).2.1, show (Value.str l b).tokenCount = 1 from rfl,
      show (Value.str l2 b2).tokenCount = 1 from rfl] at *
    dsimp only
    rw [hbytes, hbytes2, hlen, hlen2, htake (min_le_left _ _), htake2 (min_le_right _ _), keysOf, keyError]
    simp only [take_min_lt_iff, take_min_eq_iff]
    split_ifs
    · rfl
    · rfl
    · exact ih hnext hm hv.2.2 (Nat.lt_of_succ_lt (Nat.lt_of_succ_lt_succ hfuel))

/-- The byte `k` of a value. -/
theorem BdecodeNode.byte_of_holds (h : Holds n.tokens n.buffer i off v) {k : ℕ} (hk : k < v.encode.length) :
    n.byte ((n.token i).offset + k) = v.encode.getD k 0 := by
  obtain ⟨post, hdrop⟩ := bytes_of_holds h
  have hget := congrArg (·.getD k 0) hdrop
  rw [List.getD_append _ _ _ _ hk, List.getD_eq_getElem?_getD, List.getElem?_drop, ← List.getD_eq_getElem?_getD] at hget
  rw [byte, (first_of_holds h).1, hget]

/-- An error, or what is open behind the token. -/
def outcome (stack : List ℕ) (error : Option String) : Option (Except String (List ℕ)) :=
  some (error.elim (.ok stack) .error)

theorem outcome_ite {p : Prop} [Decidable p] (stack : List ℕ) (error : String) :
    (if p then some (.error error) else some (.ok stack)) = outcome stack (if p then some error else none) := by
  split_ifs <;> rfl

/-- The second byte after a number tells whether it has more digits. -/
theorem leadingZero_iff {digits rest : List UInt8} {c : UInt8} (hd : digits ≠ []) (hnum : ∀ d ∈ digits, numeric d)
    (hc : ¬ numeric c) : (digits ++ c :: rest).getD 0 0 = ascii '0' ∧ (digits ++ c :: rest).getD 1 0 ≠ c ↔
      leadingZero digits = true := by
  rcases digits with - | ⟨d, - | ⟨d', digits⟩⟩
  · exact absurd rfl hd
  · simp [leadingZero]
  · have hne : d' ≠ c := by
      rintro rfl
      exact hc (hnum d' (by simp))
    simp [leadingZero, hne]

theorem BdecodeNode.checkToken_int {negative : Bool} {digits : List UInt8} (stack : List ℕ)
    (h : Holds n.tokens n.buffer i off (.int negative digits)) (hv : (Value.int negative digits).Valid) :
    n.checkToken i stack = outcome stack (Value.int negative digits).softError := by
  obtain ⟨hnum, hpos, -⟩ := hv
  have hd := List.length_pos_iff.mp hpos
  obtain ⟨ts, hts⟩ := token_of_holds h
  have htype : (n.token i).type = .integer := by
    rw [← (List.cons.inj hts).1]
    rfl
  have hlen : 3 ≤ (Value.int negative digits).encode.length := by
    rw [Decoder.encode_int]
    simp only [List.length_cons, List.length_append, List.length_nil]
    omega
  rw [checkToken.eq_def, htype]
  dsimp only
  rw [byte_of_holds h (show 1 < _ by omega), byte_of_holds h (show 2 < _ by omega), Decoder.encode_int, softError,
    List.getD_cons_succ, List.getD_cons_succ, outcome_ite, List.append_assoc]
  congr 1
  refine if_congr ?_ rfl rfl
  cases negative with
  | true => exact iff_of_false (fun hc => absurd (show ascii '-' = ascii '0' from hc.1) (by decide)) (by simp)
  | false =>
    rw [Bool.not_false, Bool.true_and]
    exact leadingZero_iff hd hnum not_numeric_e

theorem BdecodeNode.checkToken_str {l b : List UInt8} (stack : List ℕ) (h : Holds n.tokens n.buffer i off (.str l b))
    (hv : (Value.str l b).Valid) : n.checkToken i stack = outcome stack (Value.str l b).softError := by
  obtain ⟨hnum, hpos, -⟩ := hv
  have hd := List.length_pos_iff.mp hpos
  obtain ⟨ts, hts⟩ := token_of_holds h
  have htype : (n.token i).type = .string ∨ (n.token i).type = .longString := by
    rw [← (List.cons.inj hts).1, BdecodeToken.linked]
    dsimp only
    split_ifs
    · exact .inr rfl
    · exact .inl rfl
  have hlen : 2 ≤ (Value.str l b).encode.length := by
    rw [encode, List.length_append, List.length_cons]
    omega
  have hcheck : n.checkToken i stack =
      if n.byte (n.token i).offset = ascii '0' ∧ n.byte ((n.token i).offset + 1) ≠ ascii ':' then
        some (.error "leading zero in string length")
      else some (.ok stack) := by
    rw [checkToken.eq_def]
    rcases htype with htype | htype <;> rw [htype]
  rw [hcheck, ← Nat.add_zero (n.token i).offset, Nat.add_assoc, byte_of_holds h (show 0 < _ by omega),
    byte_of_holds h (show 0 + 1 < _ by omega), outcome_ite, softError]
  congr 1
  exact if_congr (leadingZero_iff hd hnum not_numeric_colon) rfl rfl

/-- How the loop goes on behind a value with this error. -/
def after (n : BdecodeNode) (fuel token : ℕ) (stack : List ℕ) : Option String → Option (Option String)
  | some error => some (some error)
  | none => if stack = [] then some none else n.softErrorFrom fuel token stack

theorem BdecodeNode.softErrorFrom_outcome {stack stack' : List ℕ} {error : Option String}
    (h : n.checkToken i stack = outcome stack' error) (fuel : ℕ) :
    n.softErrorFrom (fuel + 1) i stack = after n fuel (i + 1) stack' error := by
  rw [softErrorFrom, h]
  cases error <;> rfl

/-- The tokens of a list or dictionary, where those of its items are known. -/
theorem BdecodeNode.softErrorFrom_sequence (isDict : Bool) {items : List Value} (fuel : ℕ) (stack : List ℕ)
    (h : Holds n.tokens n.buffer i off (.sequence isDict items)) (hv : (Value.sequence isDict items).Valid)
    (hitems : n.softErrorFrom (tokenCountAll items + (fuel + 1)) (i + 1) (i :: stack) =
      after n (fuel + 1) (i + 1 + tokenCountAll items) (i :: stack) (softErrorAll items)) :
    n.softErrorFrom (tokenCountAll items + 2 + fuel) i stack =
      after n fuel (i + (tokenCountAll items + 2)) stack (Value.sequence isDict items).softError := by
  obtain ⟨hholds, hend⟩ := h.items
  obtain ⟨ts, hts⟩ := token_of_holds h
  have htype : (n.token i).type = sequenceType isDict := by
    rw [tokens_sequence] at hts
    rw [← (List.cons.inj hts).1]
    rfl
  have htypeEnd : (n.token (i + 1 + tokenCountAll items)).type = .endToken := by
    obtain ⟨t, htok, ht⟩ := Option.map_eq_some_iff.mp hend
    rwa [token, List.getD_eq_getElem?_getD, htok, Option.getD_some]
  have hopen : n.checkToken i stack = outcome (i :: stack) none := by
    rw [checkToken.eq_def, htype]
    cases isDict <;> rfl
  have hclose : n.checkToken (i + 1 + tokenCountAll items) (i :: stack) =
      outcome stack (if isDict then keyError (keysOf items) else none) := by
    rw [checkToken.eq_def, htypeEnd]
    dsimp only
    rw [htype]
    cases isDict with
    | false => rfl
    | true =>
      rcases items with - | ⟨w, items⟩
      · exact if_neg fun hc => hc.2 rfl
      -- the keys of a dictionary that is not empty
      obtain ⟨hm, hvalid⟩ := hv
      obtain ⟨l, b, v, vs, rfl, rfl⟩ : ∃ l b v vs, w = .str l b ∧ items = v :: vs := by
        cases w with
        | str l b =>
          cases items with
          | nil => cases hm
          | cons v vs => exact ⟨l, b, v, vs, rfl, rfl⟩
        | _ => cases items <;> cases hm
      have hcount : 0 < tokenCountAll (.str l b :: v :: vs) := Nat.lt_of_lt_of_le Nat.zero_lt_one (Nat.le_add_right 1 _)
      have hfuel := length_le_of_holdsAll hholds
      rw [if_pos ⟨rfl, by omega⟩, keysError_eq hholds hm hvalid (by simp only [List.length_cons] at hfuel; omega)]
      rfl
  have hfirst := softErrorFrom_outcome hopen (tokenCountAll items + (fuel + 1))
  rw [show tokenCountAll items + 2 + fuel = tokenCountAll items + (fuel + 1) + 1 by omega, hfirst, after,
    if_neg (List.cons_ne_nil _ _), hitems]
  have hseq : (Value.sequence isDict items).softError =
      (softErrorAll items).or (if isDict then keyError (keysOf items) else none) := by
    cases isDict with
    | true => rfl
    | false => exact Option.or_none.symm
  rw [hseq]
  cases softErrorAll items with
  | some error => rfl
  | none =>
    rw [after, if_neg (List.cons_ne_nil _ _), softErrorFrom_outcome hclose, Option.none_or,
      show i + 1 + tokenCountAll items + 1 = i + (tokenCountAll items + 2) by omega]

mutual

/-- The loop reads a value from its first token on. -/
theorem BdecodeNode.softErrorFrom_eq : ∀ (v : Value) (i off : ℕ), Holds n.tokens n.buffer i off v → v.Valid →
    ∀ (fuel : ℕ) (stack : List ℕ),
      n.softErrorFrom (v.tokenCount + fuel) i stack = after n fuel (i + v.tokenCount) stack v.softError
  | .int negative digits, i, off, h, hv, fuel, stack => by
    rw [show (Value.int negative digits).tokenCount = 1 from rfl, Nat.add_comm 1]
    exact softErrorFrom_outcome (checkToken_int stack h hv) fuel
  | .str l b, i, off, h, hv, fuel, stack => by
    rw [show (Value.str l b).tokenCount = 1 from rfl, Nat.add_comm 1]
    exact softErrorFrom_outcome (checkToken_str stack h hv) fuel
  | .list items, i, off, h, hv, fuel, stack => by
    change Holds n.tokens n.buffer i off (.sequence false items) at h
    exact softErrorFrom_sequence false fuel stack h hv (softErrorFrom_items items _ _ h.items.1 hv _ i stack)
  | .dict items, i, off, h, hv, fuel, stack => by
    change Holds n.tokens n.buffer i off (.sequence true items) at h
    exact softErrorFrom_sequence true fuel stack h hv (softErrorFrom_items items _ _ h.items.1 hv.2 _ i stack)

theorem BdecodeNode.softErrorFrom_items : ∀ (vs : List Value) (i off : ℕ), HoldsAll n.tokens n.buffer i off vs →
    ValidAll vs → ∀ (fuel parent : ℕ) (stack : List ℕ), n.softErrorFrom (tokenCountAll vs + fuel) i (parent :: stack) =
      after n fuel (i + tokenCountAll vs) (parent :: stack) (softErrorAll vs)
  | [], i, off, _, _, fuel, parent, stack => by
    rw [tokenCountAll, Nat.zero_add, Nat.add_zero, softErrorAll, after, if_neg (List.cons_ne_nil _ _)]
  | v :: vs, i, off, h, hv, fuel, parent, stack => by
    obtain ⟨hhead, htail⟩ := h.cons
    rw [tokenCountAll, Nat.add_assoc, softErrorFrom_eq v i off hhead hv.1, softErrorAll]
    cases v.softError with
    | some error => rfl
    | none =>
      rw [after, if_neg (List.cons_ne_nil _ _), softErrorFrom_items vs _ _ htail hv.2, Nat.add_assoc, Option.none_or]

end

/-- `has_soft_error` finds the first soft error of the value. -/
theorem BdecodeNode.IsNode.hasSoftError_eq (h : n.IsNode v) (hv : v.Valid) : n.hasSoftError = some v.softError := by
  have htype := h.type_eq
  obtain ⟨off, hidx, hholds⟩ := h
  have hle : v.tokenCount ≤ n.tokens.length := by
    obtain ⟨-, -, pre, post, next, htok, -, -⟩ := hholds
    rw [htok, List.length_append, List.length_append, tokensAll_singleton, length_tokens]
    omega
  obtain ⟨fuel, hfuel⟩ := Nat.exists_eq_add_of_le (show v.tokenCount ≤ n.tokens.length + 1 by omega)
  rw [hasSoftError, if_neg (by rw [htype]; cases v <;> exact TokenType.noConfusion), hfuel,
    softErrorFrom_eq v _ _ hholds hv]
  cases v.softError <;> rfl

end Loop

/-! ## What is let through -/

section Canonical
variable {digits : List UInt8} {v : Value} {vs : List Value}

theorem numeric_spec {c : UInt8} (hc : numeric c) : digitByte (digit c : ℕ) = c ∧ digit c < 10 := by
  obtain ⟨hlow, hhigh⟩ := hc
  rw [UInt8.le_iff_toNat_le] at hlow hhigh
  have hzero : (ascii '0').toNat = 48 := rfl
  have hnine : (ascii '9').toNat = 57 := rfl
  rw [digit, digitByte]
  refine ⟨?_, by omega⟩
  rw [show ((48 : ℤ) + ((c.toNat - (ascii '0').toNat : ℕ) : ℤ)).toNat = c.toNat by omega, UInt8.ofNat_toNat]

theorem digit_pos {c : UInt8} (hc : numeric c) (hne : c ≠ ascii '0') : 0 < digit c := by
  refine Nat.pos_of_ne_zero fun hzero => hne ?_
  rw [← (numeric_spec hc).1, hzero]
  rfl

/-- A number that does not begin with a zero is positive. -/
theorem decimal_pos (hd : digits ≠ []) (hnum : ∀ c ∈ digits, numeric c) (hhead : digits.head? ≠ some (ascii '0')) :
    0 < decimal digits := by
  obtain ⟨c, digits, rfl⟩ := List.exists_cons_of_ne_nil hd
  have hne : c ≠ ascii '0' := fun hc => hhead (by rw [List.head?_cons, hc])
  have hle := le_foldl_addDigit digits (digit c)
  rw [← decimal_cons] at hle
  exact Nat.lt_of_lt_of_le (digit_pos (hnum c List.mem_cons_self) hne) hle

theorem leadingZero_eq_false_iff : leadingZero digits = false ↔ digits.head? ≠ some (ascii '0') ∨ digits.length = 1 := by
  rw [leadingZero, Bool.and_eq_false_iff, beq_eq_false_iff_ne, bne_eq_false_iff_eq]

/-- The digits of a number in its canonical form. -/
theorem eq_decimalDigits (hd : digits ≠ []) (hnum : ∀ c ∈ digits, numeric c) (hlead : leadingZero digits = false) :
    digits = decimalDigits (decimal digits) := by
  induction digits using List.reverseRecOn with
  | nil => exact absurd rfl hd
  | append_singleton digits c ih =>
    obtain ⟨hnum, hc⟩ := List.forall_mem_append.mp hnum
    obtain ⟨hbyte, hlt⟩ := numeric_spec (hc c (List.mem_singleton_self c))
    rw [decimal_append]
    rcases eq_or_ne digits [] with rfl | hne
    · rw [show decimal [] = 0 from rfl, Nat.zero_mul, Nat.zero_add, decimalDigits_eq, if_pos hlt, hbyte,
        List.nil_append]
    · have hhead : digits.head? ≠ some (ascii '0') := by
        obtain ⟨d, digits, rfl⟩ := List.exists_cons_of_ne_nil hne
        refine (leadingZero_eq_false_iff.mp hlead).resolve_right fun hc => ?_
        rw [List.length_append, List.length_cons, List.length_singleton] at hc
        omega
      have hpos := decimal_pos hne hnum hhead
      rw [decimalDigits_eq, if_neg (by omega), show (decimal digits * 10 + digit c) / 10 = decimal digits by omega,
        show (decimal digits * 10 + digit c) % 10 = digit c by omega, hbyte,
        ← ih hne hnum (leadingZero_eq_false_iff.mpr (.inl hhead))]

theorem head_decimalDigits {n : ℕ} (hn : 0 < n) : (decimalDigits n).head? ≠ some (ascii '0') := by
  induction n using Nat.strong_induction_on with
  | _ n ih =>
    rw [decimalDigits_eq]
    split_ifs with hlt
    · interval_cases n <;> decide
    · have hhead := ih (n / 10) (by omega) (by omega)
      obtain ⟨c, digits, hcons⟩ := List.exists_cons_of_length_pos (l := decimalDigits (n / 10)) (by
        rw [decimalDigits, List.length_map]
        exact Nat.length_toDigits_pos)
      rw [hcons] at hhead ⊢
      exact hhead

theorem leadingZero_decimalDigits (n : ℕ) : leadingZero (decimalDigits n) = false := by
  rcases Nat.eq_zero_or_pos n with rfl | hn
  · decide
  · exact leadingZero_eq_false_iff.mpr (.inl (head_decimalDigits hn))

theorem digitsOf_eq {val : ℤ} (h₁ : -2 ^ 63 ≤ val) (h₂ : val < 2 ^ 63) : digitsOf val = decimalDigits val.natAbs := by
  rw [digitsOf, integerToStr_eq h₁ h₂, decimalOf, List.drop_left]

theorem integerToStr_length {s : List UInt8} (h : s.length ≤ maxOffset) :
    integerToStr s.length = decimalDigits s.length := by
  rw [maxOffset] at h
  rw [integerToStr_eq (by omega) (by omega), decimalOf, decide_eq_false (by omega), Int.natAbs_natCast]
  rfl

mutual

/-- All integers of a value satisfy the condition. -/
def Value.Integers (P : Bool → List UInt8 → Prop) : Value → Prop
  | .int negative digits => P negative digits
  | .str _ _ => True
  | .list items => IntegersAll P items
  | .dict items => IntegersAll P items

def Value.IntegersAll (P : Bool → List UInt8 → Prop) : List Value → Prop
  | [] => True
  | v :: vs => v.Integers P ∧ IntegersAll P vs

end

/-- An integer that is read and written as it stands, but for leading zeros: it fits in 64 bits, is not the lowest one,
and no minus sign is in front of a zero. -/
def Ordinary (negative : Bool) (digits : List UInt8) : Prop :=
  -2 ^ 63 < intOf negative digits ∧ intOf negative digits < 2 ^ 63 ∧ (negative = true → digits.head? ≠ some (ascii '0'))

theorem keyError_eq_none_iff {keys : List (List UInt8)} : keyError keys = none ↔ keys.Pairwise (· < ·) := by
  rw [← List.isChain_iff_pairwise]
  induction keys with
  | nil => simp [keyError]
  | cons k1 keys ih =>
    cases keys with
    | nil => simp [keyError]
    | cons k2 keys =>
      rw [keyError, List.isChain_cons_cons, ← ih]
      split_ifs with hlt heq
      · exact iff_of_false not_false fun h => List.lt_asymm h.1 hlt
      · exact iff_of_false not_false fun h => List.lt_irrefl _ (heq ▸ h.1)
      · have hless : k1 < k2 := by
          by_contra hc
          exact heq (List.le_antisymm (List.not_lt.mp hlt) (List.not_lt.mp hc))
        exact (and_iff_right hless).symm

open Entry (Plain PlainList PlainDict)

theorem or_eq_none {o o' : Option String} (h : o.or o' = none) : o = none ∧ o' = none := by
  cases o with
  | none => exact ⟨rfl, h⟩
  | some error => cases h

/-- The length of a string without soft errors. -/
theorem eq_integerToStr {l b : List UInt8} (hv : (Value.str l b).Valid)
    (hlen : (Value.str l b).encode.length ≤ maxOffset) (hsoft : (Value.str l b).softError = none) :
    l = integerToStr b.length := by
  obtain ⟨hnum, hpos, -, hval⟩ := hv
  have hlead : leadingZero l = false := by
    rw [Value.softError] at hsoft
    exact Bool.eq_false_of_not_eq_true fun hc => Option.some_ne_none _ ((if_pos hc).symm.trans hsoft)
  rw [encode, List.length_append, List.length_cons] at hlen
  rw [integerToStr_length (by omega), ← hval]
  exact eq_decimalDigits (List.length_pos_iff.mp hpos) hnum hlead

mutual

/-- A value without soft errors is what is written for an entry. -/
theorem exists_entry : ∀ v : Value, v.Valid → v.encode.length ≤ maxOffset → v.softError = none → v.Integers Ordinary →
    ∃ e : Entry, e.Plain ∧ e.value = v
  | .int negative digits, hv, _, hsoft, hint => by
    obtain ⟨hnum, hpos, -⟩ := hv
    have hd := List.length_pos_iff.mp hpos
    obtain ⟨hmin, hmax, hzero⟩ := hint
    have hlead : leadingZero digits = false := by
      cases negative with
      | true => exact leadingZero_eq_false_iff.mpr (.inl (hzero rfl))
      | false =>
        rw [Value.softError, Bool.not_false, Bool.true_and] at hsoft
        exact Bool.eq_false_of_not_eq_true fun hc => Option.some_ne_none _ ((if_pos hc).symm.trans hsoft)
    refine ⟨.int (intOf negative digits), ⟨hmin, hmax⟩, ?_⟩
    rw [Entry.value, digitsOf_eq hmin.le hmax]
    cases negative with
    | true =>
      have hdec := decimal_pos hd hnum (hzero rfl)
      rw [intOf, if_pos rfl, decide_eq_true (by omega), Int.natAbs_neg, Int.natAbs_natCast,
        ← eq_decimalDigits hd hnum hlead]
    | false =>
      rw [intOf, if_neg Bool.false_ne_true, decide_eq_false (by omega), Int.natAbs_natCast,
        ← eq_decimalDigits hd hnum hlead]
  | .str l b, hv, hlen, hsoft, _ => by
    exact ⟨.string b, trivial, by rw [Entry.value, ← eq_integerToStr hv hlen hsoft]⟩
  | .list items, hv, hlen, hsoft, hint => by
    rw [encode, List.length_cons, List.length_append] at hlen
    obtain ⟨es, hplain, heq⟩ := exists_entries items hv (by omega) hsoft hint
    exact ⟨.list es, hplain, by rw [Entry.value, heq]⟩
  | .dict items, hv, hlen, hsoft, hint => by
    rw [encode, List.length_cons, List.length_append] at hlen
    obtain ⟨hitems, hkeys⟩ := or_eq_none hsoft
    obtain ⟨es, hplain, heq, hfst⟩ := exists_members items hv.1 hv.2 (by omega) hitems hint
    exact ⟨.dict es, ⟨by rw [hfst]; exact keyError_eq_none_iff.mp hkeys, hplain⟩, by rw [Entry.value, heq]⟩

theorem exists_entries : ∀ vs : List Value, ValidAll vs → (encodeAll vs).length ≤ maxOffset → softErrorAll vs = none →
    IntegersAll Ordinary vs → ∃ es : List Entry, PlainList es ∧ Entry.values es = vs
  | [], _, _, _, _ => ⟨[], trivial, rfl⟩
  | v :: vs, hv, hlen, hsoft, hint => by
    rw [encodeAll, List.length_append] at hlen
    obtain ⟨hhead, htail⟩ := or_eq_none hsoft
    obtain ⟨e, hplain, heq⟩ := exists_entry v hv.1 (by omega) hhead hint.1
    obtain ⟨es, hplains, heqs⟩ := exists_entries vs hv.2 (by omega) htail hint.2
    exact ⟨e :: es, ⟨hplain, hplains⟩, by rw [Entry.values, heq, heqs]⟩

theorem exists_members : ∀ items : List Value, Bencode.members items → ValidAll items →
    (encodeAll items).length ≤ maxOffset → softErrorAll items = none → IntegersAll Ordinary items →
      ∃ es : List (List UInt8 × Entry), PlainDict es ∧ Entry.members es = items ∧ es.map Prod.fst = keysOf items
  | [], _, _, _, _, _ => ⟨[], trivial, rfl, rfl⟩
  | .str l b :: v :: items, hm, hv, hlen, hsoft, hint => by
    rw [encodeAll, encodeAll, List.length_append, List.length_append] at hlen
    obtain ⟨hkey, hrest⟩ := or_eq_none hsoft
    obtain ⟨hhead, htail⟩ := or_eq_none hrest
    obtain ⟨e, hplain, heq⟩ := exists_entry v hv.2.1 (by omega) hhead hint.2.1
    obtain ⟨es, hplains, heqs, hfst⟩ := exists_members items hm hv.2.2 (by omega) htail hint.2.2
    refine ⟨(b, e) :: es, ⟨hplain, hplains⟩, ?_, ?_⟩
    · rw [Entry.members, heq, heqs, ← eq_integerToStr hv.1 (by omega) hkey]
    · rw [List.map_cons, hfst, keysOf]

end

namespace Entry

mutual

/-- Nothing in the entry is preformatted, and it is one that the program can hold: integers have 64 bits, and the keys
of a dictionary are in order. -/
def Structured : Entry → Prop
  | .int val => -2 ^ 63 ≤ val ∧ val < 2 ^ 63
  | .string _ => True
  | .list val => StructuredList val
  | .dict val => (val.map Prod.fst).Pairwise (· < ·) ∧ StructuredDict val
  | .preformatted _ => False
  | .undefined => True

def StructuredList : List Entry → Prop
  | [] => True
  | e :: es => e.Structured ∧ StructuredList es

def StructuredDict : List (List UInt8 × Entry) → Prop
  | [] => True
  | (_, e) :: es => e.Structured ∧ StructuredDict es

end

mutual

/-- The value that is written for an entry, the empty string being written for an undefined one. -/
def text : Entry → Value
  | .int val => .int (val < 0) (decimalDigits val.natAbs)
  | .string val => .str (integerToStr val.length) val
  | .list val => .list (texts val)
  | .dict val => .dict (memberTexts val)
  | .preformatted _ => .str [] []
  | .undefined => .str [ascii '0'] []

def texts : List Entry → List Value
  | [] => []
  | e :: es => e.text :: texts es

def memberTexts : List (List UInt8 × Entry) → List Value
  | [] => []
  | (key, e) :: es => .str (integerToStr key.length) key :: e.text :: memberTexts es

end

mutual

theorem bencodeRecursive_text : ∀ (e : Entry) (out : List UInt8), e.Structured →
    bencodeRecursive out e = (out ++ e.text.encode, e.text.encode.length)
  | .int val, out, h => by
    rw [text, ← int_eq_encode, ← integerToStr_eq h.1 h.2]
    simp only [bencodeRecursive, writeChar, writeInteger, List.append_assoc, List.cons_append, List.length_append,
      List.length_cons, List.length_nil, List.nil_append]
  | .string val, out, _ => bencodeString_eq out val
  | .list val, out, h => by
    simp only [bencodeRecursive, bencodeList_text val _ h, text, encode, writeChar, List.append_assoc,
      List.cons_append, List.nil_append, List.length_append, List.length_cons, List.length_nil]
  | .dict val, out, h => by
    simp only [bencodeRecursive, bencodeDict_text val _ h.2, text, encode, writeChar, List.append_assoc,
      List.cons_append, List.nil_append, List.length_append, List.length_cons, List.length_nil]
  | .preformatted _, _, h => h.elim
  | .undefined, out, _ => by
    simp only [bencodeRecursive, text, encode, writeChar, List.append_assoc, List.cons_append, List.nil_append,
      List.length_cons, List.length_nil]

theorem bencodeList_text : ∀ (es : List Entry) (out : List UInt8), StructuredList es →
    bencodeList out es = (out ++ encodeAll (texts es), (encodeAll (texts es)).length)
  | [], out, _ => by
    rw [bencodeList, texts, encodeAll, List.append_nil]
    rfl
  | e :: es, out, h => by
    simp only [bencodeList, bencodeRecursive_text e _ h.1, bencodeList_text es _ h.2, texts, encodeAll,
      List.append_assoc, List.length_append]

theorem bencodeDict_text : ∀ (es : List (List UInt8 × Entry)) (out : List UInt8), StructuredDict es →
    bencodeDict out es = (out ++ encodeAll (memberTexts es), (encodeAll (memberTexts es)).length)
  | [], out, _ => by
    rw [bencodeDict, memberTexts, encodeAll, List.append_nil]
    rfl
  | (key, e) :: es, out, h => by
    simp only [bencodeDict, bencodeString_eq, bencodeRecursive_text e _ h.1, bencodeDict_text es _ h.2,
      memberTexts, encodeAll, List.append_assoc, List.length_append, Nat.add_assoc]

end

theorem members_memberTexts (es : List (List UInt8 × Entry)) : Bencode.members (memberTexts es) := by
  induction es with
  | nil => trivial
  | cons e es ih => exact ih

theorem keysOf_memberTexts (es : List (List UInt8 × Entry)) : keysOf (memberTexts es) = es.map Prod.fst := by
  induction es with
  | nil => rfl
  | cons e es ih => rw [memberTexts, keysOf, ih, List.map_cons]

theorem str_softError {s : List UInt8} (h : s.length ≤ maxOffset) :
    (Value.str (integerToStr s.length) s).softError = none := by
  rw [Value.softError, integerToStr_length h, leadingZero_decimalDigits]
  rfl

mutual

/-- What is written for an entry is a value without soft errors. -/
theorem text_spec : ∀ e : Entry, e.Structured → e.text.encode.length ≤ maxOffset →
    e.text.Valid ∧ e.text.softError = none
  | .int val, h, _ => by
    refine ⟨decimalDigits_valid h.1 h.2, ?_⟩
    rw [text, Value.softError, leadingZero_decimalDigits, Bool.and_false]
    rfl
  | .string val, _, hlen => by
    rw [text, encode, List.length_append, List.length_cons] at hlen
    exact ⟨str_valid (by omega), str_softError (by omega)⟩
  | .list val, h, hlen => by
    rw [text, encode, List.length_cons, List.length_append] at hlen
    exact texts_spec val h (by omega)
  | .dict val, h, hlen => by
    rw [text, encode, List.length_cons, List.length_append] at hlen
    obtain ⟨hvalid, hsoft⟩ := memberTexts_spec val h.2 (by omega)
    refine ⟨⟨members_memberTexts val, hvalid⟩, ?_⟩
    rw [text, Value.softError, hsoft, Option.none_or, keysOf_memberTexts]
    exact keyError_eq_none_iff.mpr h.1
  | .preformatted _, h, _ => h.elim
  | .undefined, _, _ => ⟨str_valid (s := []) (Nat.zero_le _), str_softError (s := []) (Nat.zero_le _)⟩

theorem texts_spec : ∀ es : List Entry, StructuredList es → (encodeAll (texts es)).length ≤ maxOffset →
    ValidAll (texts es) ∧ softErrorAll (texts es) = none
  | [], _, _ => ⟨trivial, rfl⟩
  | e :: es, h, hlen => by
    rw [texts, encodeAll, List.length_append] at hlen
    obtain ⟨hvalid, hsoft⟩ := text_spec e h.1 (by omega)
    obtain ⟨hvalids, hsofts⟩ := texts_spec es h.2 (by omega)
    exact ⟨⟨hvalid, hvalids⟩, by rw [texts, softErrorAll, hsoft, hsofts, Option.none_or]⟩

theorem memberTexts_spec : ∀ es : List (List UInt8 × Entry), StructuredDict es →
    (encodeAll (memberTexts es)).length ≤ maxOffset →
      ValidAll (memberTexts es) ∧ softErrorAll (memberTexts es) = none
  | [], _, _ => ⟨trivial, rfl⟩
  | (key, e) :: es, h, hlen => by
    rw [memberTexts, encodeAll, encodeAll, List.length_append, List.length_append, encode, List.length_append,
      List.length_cons] at hlen
    obtain ⟨hvalid, hsoft⟩ := text_spec e h.1 (by omega)
    obtain ⟨hvalids, hsofts⟩ := memberTexts_spec es h.2 (by omega)
    refine ⟨⟨str_valid (by omega), hvalid, hvalids⟩, ?_⟩
    rw [memberTexts, softErrorAll, softErrorAll, str_softError (by omega), hsoft, hsofts, Option.none_or,
      Option.none_or]

end

end Entry

/-! ## `bdecode` and `bencode` -/

/-- A buffer is canonical if nothing soft is wrong with it, and what `bencode` writes has no soft errors. -/
theorem hasSoftError_canonical :
    (∀ (buf : List UInt8) (depthLimit tokenLimit : ℤ) (v : Value), (bdecode buf depthLimit tokenLimit).error = .noError →
      Begins buf depthLimit tokenLimit v → v.Integers Ordinary →
      (bdecode buf depthLimit tokenLimit).node.hasSoftError = some none →
      ∃ e, Entry.ofNode (bdecode buf depthLimit tokenLimit).node = some e ∧
        (bencode e).1 = (bdecode buf depthLimit tokenLimit).node.dataSection) ∧
    ∀ (e : Entry) (depthLimit tokenLimit : ℤ), e.Structured →
      (bdecode (bencode e).1 depthLimit tokenLimit).error = .noError →
      (bdecode (bencode e).1 depthLimit tokenLimit).node.hasSoftError = some none := by
  have hlength : ∀ {buf : List UInt8} {depthLimit tokenLimit : ℤ},
      (bdecode buf depthLimit tokenLimit).error = .noError → buf.length ≤ maxOffset := by
    intro buf depthLimit tokenLimit h
    by_contra hlen
    rw [bdecode, if_pos (not_le.mp hlen)] at h
    cases h
  refine ⟨fun buf depthLimit tokenLimit v h hbegins hints hsoft => ?_, fun e depthLimit tokenLimit he h => ?_⟩
  · have hlen := hlength h
    obtain ⟨rest, hbuf⟩ := hbegins.encode
    have hnode : ((Zipper.done v tokenLimit).finish buf).IsNode v := finish_isNode hlen hbuf
    have htoks : v.tokenCount ≤ ((Zipper.done v tokenLimit).finish buf).tokens.length := by
      rw [← length_tokens 0, ← tokensAll_singleton]
      exact (Nat.le_add_right _ _).trans List.length_append.ge
    rw [bdecode_of_begins hlen hbegins] at hsoft ⊢
    dsimp only at hsoft ⊢
    rw [hnode.hasSoftError_eq hbegins.valid, Option.some.injEq] at hsoft
    have hle : v.encode.length ≤ maxOffset := by
      rw [hbuf, List.length_append] at hlen
      omega
    obtain ⟨e, hplain, rfl⟩ := exists_entry v hbegins.valid hle hsoft hints
    refine ⟨e, ?_, by rw [hnode.dataSection_eq, Entry.bencode_eq hplain]⟩
    have hdepth := e.value.depth_le_tokenCount
    rw [Entry.depth_value] at hdepth
    exact Entry.ofNodeAt_converts e _ hplain hbegins.valid (by omega) _ hnode ⟨rfl, rfl⟩
  · have hlen := hlength h
    have hwritten : (bencode e).1 = e.text.encode := by rw [bencode, Entry.bencodeRecursive_text e [] he, List.nil_append]
    rw [hwritten] at hlen h ⊢
    obtain ⟨hvalid, hsoft⟩ := e.text_spec he hlen
    obtain ⟨-, hdepth, htokens⟩ := (bdecode_encode_iff hvalid).mp h
    have hbegins : Begins e.text.encode depthLimit tokenLimit e.text :=
      ⟨⟨[], (List.append_nil _).symm⟩, hvalid, hdepth, htokens⟩
    rw [bdecode_of_begins hlen hbegins]
    have hnode : ((Zipper.done e.text tokenLimit).finish e.text.encode).IsNode e.text :=
      finish_isNode hlen (List.append_nil _).symm
    rw [hnode.hasSoftError_eq hvalid, hsoft]

/-- A dictionary with one key, and one with an undefined entry and the lowest integer. -/
theorem hasSoftError_canonical_dicts :
    (∃ e, Entry.ofNode (bdecode [100, 49, 58, 97, 105, 55, 101, 101] 100 2000000).node = some e ∧
      (bencode e).1 = (bdecode [100, 49, 58, 97, 105, 55, 101, 101] 100 2000000).node.dataSection) ∧
    (bdecode (bencode (.dict [([97], .undefined), ([98], .int (-2 ^ 63))])).1 100 2000000).node.hasSoftError =
      some none := by
  refine ⟨hasSoftError_canonical.1 _ _ _ (.dict [.str [49] [97], .int false [55]]) (by decide +kernel) ?_ ?_
    (by decide +kernel), hasSoftError_canonical.2 _ _ _ ?_ (by decide +kernel)⟩
  · refine ⟨⟨[], rfl⟩, ⟨trivial, ⟨?_, ?_, ?_, rfl⟩, ⟨?_, ?_, ?_⟩, trivial⟩, ?_, ?_⟩ <;> decide +kernel
  · exact ⟨trivial, ⟨by decide, by decide, fun h => absurd h (by decide)⟩, trivial⟩
  · exact ⟨by decide, trivial, ⟨by decide, by decide⟩, trivial⟩

/-- A negative zero is let through, and preformatted text is written as it is. -/
theorem hasSoftError_negativeZero :
    (¬ ∀ (buf : List UInt8) (depthLimit tokenLimit : ℤ) (v : Value),
      (bdecode buf depthLimit tokenLimit).error = .noError → Begins buf depthLimit tokenLimit v →
      v.Integers (fun negative digits => -2 ^ 63 ≤ intOf negative digits ∧ intOf negative digits < 2 ^ 63) →
      (bdecode buf depthLimit tokenLimit).node.hasSoftError = some none →
      (Entry.ofNode (bdecode buf depthLimit tokenLimit).node).map (fun e => (bencode e).1) =
        some (bdecode buf depthLimit tokenLimit).node.dataSection) ∧
    ¬ ∀ (e : Entry) (depthLimit tokenLimit : ℤ), (bdecode (bencode e).1 depthLimit tokenLimit).error = .noError →
      (bdecode (bencode e).1 depthLimit tokenLimit).node.hasSoftError = some none := by
  refine ⟨fun hall => ?_, fun hall => ?_⟩
  · have hzero := hall [105, 45, 48, 101] 100 2000000 (.int true [48]) (by decide +kernel)
      ⟨⟨[], rfl⟩, ⟨by decide +kernel, by decide, by decide⟩, by decide, by decide +kernel⟩
      ⟨by decide +kernel, by decide +kernel⟩ (by decide +kernel)
    revert hzero
    decide +kernel
  · have hpre := hall (.preformatted [105, 48, 49, 101]) 100 2000000 (by decide +kernel)
    revert hpre
    decide +kernel

end Canonical

end Bencode

end LibtorrentSN
