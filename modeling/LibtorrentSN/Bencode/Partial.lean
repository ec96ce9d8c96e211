import LibtorrentSN.Bencode.Tree

/-!
# Bencoding: what is left after an error

After an error `bdecode` ends the lists and dictionaries that are open, so that the items before the
error can be read: a key without a value gets an empty dictionary, and every sequence gets an end and
a link to it. All of these tokens have the offset the loop stopped at. The length of a string follows
from the offset of the next token, so for the last string before the error that offset has to be its
end. An error in the length prefix of a string has moved the offset already.
-/

namespace LibtorrentSN

namespace Bencode

open Value

namespace BdecodeNode

variable (n : BdecodeNode)

/-- From the token `i`, `k` links lead over as many items to an end, which is `stop` or the token
before it. -/
structure Walk (i k stop : ℕ) : Prop where
  items : ∀ j < k, (n.token (n.skip j i)).type ≠ .endToken
  inside : n.skip k i < n.tokens.length
  ends : (n.token (n.skip k i)).type = .endToken
  stops : stop = n.skip k i ∨ stop = n.skip k i + 1

/-- The `k` items from the token `i` on are keys and values in turn. -/
def Pairs (i k : ℕ) : Prop :=
  k % 2 = 0 ∧ ∀ j < k, j % 2 = 0 → (n.child (n.skip j i)).type = .string

/-- The link of a token stays inside the array, and the items of a list or dictionary lead to an end. -/
structure SoundLink (i : ℕ) : Prop where
  jump : i + (n.token i).nextItem < n.tokens.length
  sequence : ∀ isDict, (n.token i).type = sequenceType isDict → ∃ k,
    n.Walk (i + 1) k (i + (n.token i).nextItem) ∧ (isDict = true → n.Pairs (i + 1) k)

/-- A string has as many bytes as its length prefix says. -/
def SoundString (i : ℕ) : Prop :=
  (n.child i).type = .string → (n.child i).stringValue.length =
    decimal ((n.buffer.drop (n.token i).offset).takeWhile (numeric ·))

/-- The tree can be relied on. -/
def Faithful : Prop := ∀ i < n.tokens.length, n.SoundLink i ∧ n.SoundString i

variable {n} {i off k stop : ℕ} {v : Value} {vs : List Value}

/-! ## The tokens of complete values -/

/-- Skipping is additive. -/
theorem skip_add (j k i : ℕ) : n.skip (j + k) i = n.skip k (n.skip j i) := by
  induction j generalizing i with
  | zero => rw [Nat.zero_add, skip]
  | succ j ih => rw [Nat.add_right_comm, skip, skip, ih]

/-- The token at a known place. -/
theorem token_append {pre post : List BdecodeToken} {t : BdecodeToken} (h : n.tokens = pre ++ t :: post) :
    n.token pre.length = t := by
  rw [token, h, List.getD_append_right _ _ _ _ (Nat.le_refl _), Nat.sub_self, List.getD_cons_zero]

theorem type_child (n : BdecodeNode) (i : ℕ) : (n.child i).type =
    if (n.token i).type = .longString then .string else (n.token i).type := rfl

/-- Skipping values moves past their tokens. -/
theorem skip_holdsAll (h : HoldsAll n.tokens n.buffer i off vs) {j : ℕ} (hj : j ≤ vs.length) :
    n.skip j i = i + tokenCountAll (vs.take j) := by
  have hskip := skip_items h (j := 0) (k := j) (by omega)
  rwa [List.take_zero, tokenCountAll, Nat.add_zero, Nat.zero_add] at hskip

/-- Over the items, and on from there. -/
theorem Walk.over (hw : n.Walk (i + tokenCountAll vs) k stop) (h : HoldsAll n.tokens n.buffer i off vs) :
    n.Walk i (vs.length + k) stop := by
  have hend : n.skip vs.length i = i + tokenCountAll vs := by
    rw [skip_holdsAll h (Nat.le_refl _), List.take_length]
  have hskip : ∀ j, n.skip (vs.length + j) i = n.skip j (i + tokenCountAll vs) := fun j => by
    rw [skip_add, hend]
  refine ⟨fun j hj => ?_, ?_, ?_, ?_⟩
  · rcases Nat.lt_or_ge j vs.length with hlt | hge
    · obtain ⟨v, hv⟩ : ∃ v, vs[j]? = some v := ⟨_, List.getElem?_eq_getElem hlt⟩
      rw [skip_holdsAll h hlt.le]
      exact (first_of_holds (h.getElem? hv)).2.2
    · obtain ⟨j, rfl⟩ := Nat.exists_eq_add_of_le hge
      rw [hskip]
      exact hw.items j (by omega)
  · rw [hskip]
    exact hw.inside
  · rw [hskip]
    exact hw.ends
  · rw [hskip]
    exact hw.stops

/-- The tokens of a value are in the array. -/
theorem lt_of_holds (h : Holds n.tokens n.buffer i off v) : i + v.tokenCount < n.tokens.length := by
  obtain ⟨-, -, pre, post, next, htok, rfl, -⟩ := h
  rw [htok, tokensAll_singleton, List.length_append, List.length_append, List.length_cons, length_tokens]
  omega

/-- The keys among complete items. -/
theorem string_of_keysAt (h : HoldsAll n.tokens n.buffer i off vs) (hkeys : Zipper.KeysAt 0 vs) {j : ℕ}
    (hj : j < vs.length) (heven : j % 2 = 0) : (n.child (n.skip j i)).type = .string := by
  obtain ⟨v, hv⟩ : ∃ v, vs[j]? = some v := ⟨_, List.getElem?_eq_getElem hj⟩
  obtain ⟨l, b, rfl⟩ := hkeys j v hv (by rwa [Nat.zero_add])
  rw [type_child, skip_holdsAll h hj.le, type_of_holds (h.getElem? hv)]
  rfl

/-- The digits of a string give its length. -/
theorem decimal_of_holds {l b : List UInt8} (h : Holds n.tokens n.buffer i off (.str l b))
    (hv : (Value.str l b).Valid) :
    decimal ((n.buffer.drop (n.token i).offset).takeWhile (numeric ·)) = b.length := by
  obtain ⟨post, hpost⟩ := bytes_of_holds h
  rw [(first_of_holds h).1, hpost, encode, List.append_assoc, List.cons_append,
    List.takeWhile_append_of_pos (by simpa using hv.1), List.takeWhile_cons_of_neg (by decide),
    List.append_nil]
  exact hv.2.2.2

/-- A value read in full has a sound link. -/
theorem SoundLink.of_holds (h : Holds n.tokens n.buffer i off v) (hv : v.Valid) : n.SoundLink i := by
  refine ⟨?_, fun isDict ht => ?_⟩
  · rw [(first_of_holds h).2.1]
    exact lt_of_holds h
  · obtain ⟨items, rfl⟩ := eq_sequence_of_type h ht
    obtain ⟨hitems, hend⟩ := h.items
    obtain ⟨t, htok, hend⟩ := Option.map_eq_some_iff.mp hend
    have hlt := lt_of_holds h
    rw [tokenCount_sequence] at hlt
    have hwalk : n.Walk (i + 1 + tokenCountAll items) 0 (i + (n.token i).nextItem) := by
      refine ⟨fun j hj => absurd hj (Nat.not_lt_zero j), ?_, ?_, .inr ?_⟩
      · rw [skip]
        omega
      · rw [skip, token, List.getD_eq_getElem?_getD, htok]
        exact hend
      · rw [skip, (first_of_holds h).2.1, tokenCount_sequence]
        omega
    refine ⟨items.length + 0, hwalk.over hitems, fun hdict => ?_⟩
    obtain ⟨heven, hkeys⟩ := Zipper.members_iff.mp (((valid_sequence _ _).mp hv).1 hdict)
    exact ⟨heven, fun j hj hj' => string_of_keysAt hitems hkeys hj hj'⟩

/-- A string read in full has a sound length. -/
theorem SoundString.of_holds (h : Holds n.tokens n.buffer i off v) (hv : v.Valid) : n.SoundString i := by
  intro ht
  have hstring : typeOf v = .string := by rwa [type_child, type_of_holds h] at ht
  obtain ⟨l, b, rfl⟩ : ∃ l b, v = .str l b := by
    cases v with
    | str l b => exact ⟨l, b, rfl⟩
    | _ => cases hstring
  have hnode : (n.child i).IsNode (.str l b) := ⟨off, rfl, h⟩
  rw [hnode.stringValue_eq hv, decimal_of_holds h hv]

/-- So has an end token that stays in the array. -/
theorem SoundLink.of_end (ht : (n.token i).type = .endToken)
    (hjump : i + (n.token i).nextItem < n.tokens.length) : n.SoundLink i := by
  refine ⟨hjump, fun isDict hs => ?_⟩
  rw [ht] at hs
  cases isDict <;> cases hs

theorem SoundString.of_type (ht : (n.child i).type ≠ .string) : n.SoundString i := fun hs => absurd hs ht

/-- End tokens of a sequence link to the next token. -/
theorem nextItem_of_end_sequence (isDict : Bool) {items : List Value} {inner : List BdecodeToken}
    (hinner : ∀ t ∈ inner, t.type = .endToken → t.nextItem = 1) :
    ∀ t ∈ sequenceTokens off (sequenceType isDict) items inner, t.type = .endToken → t.nextItem = 1 := by
  intro t hmem ht
  rcases List.mem_cons.mp hmem with rfl | hmem
  · cases isDict <;> cases ht
  · rcases List.mem_append.mp hmem with hmem | hmem
    · exact hinner t hmem ht
    · obtain rfl := List.mem_singleton.mp hmem
      rfl

mutual

/-- The ends among the tokens of a value link to the next token. -/
theorem nextItem_of_end (off : ℕ) :
    ∀ v : Value, ∀ t ∈ v.tokens off, t.type = .endToken → t.nextItem = 1
  | .int _ _, t, hmem, _ => by
    obtain rfl := List.mem_singleton.mp hmem
    rfl
  | .str _ _, t, hmem, _ => by
    obtain rfl := List.mem_singleton.mp hmem
    rfl
  | .list items, t, hmem, ht =>
    nextItem_of_end_sequence false (nextItem_of_end_items (off + 1) items) t hmem ht
  | .dict items, t, hmem, ht =>
    nextItem_of_end_sequence true (nextItem_of_end_items (off + 1) items) t hmem ht

/-- End tokens of values link to the next token. -/
theorem nextItem_of_end_items (off : ℕ) :
    ∀ vs : List Value, ∀ t ∈ tokensAll off vs, t.type = .endToken → t.nextItem = 1
  | [], _, hmem, _ => absurd hmem List.not_mem_nil
  | v :: vs, t, hmem, ht => by
    rcases List.mem_append.mp hmem with hmem | hmem
    · exact nextItem_of_end off v t hmem ht
    · exact nextItem_of_end_items _ vs t hmem ht

end

/-- Every token of complete items. -/
theorem sound_of_holdsAll (h : HoldsAll n.tokens n.buffer i off vs) (hv : ValidAll vs) {j : ℕ}
    (hj : j < tokenCountAll vs) : n.SoundLink (i + j) ∧ n.SoundString (i + j) := by
  by_cases ht : (n.token (i + j)).type = .endToken
  · obtain ⟨-, -, pre, post, next, htok, rfl, -⟩ := h
    have hlen : j < (tokensAll off vs).length := by rwa [length_tokensAll]
    have hget : n.token (pre.length + j) = (tokensAll off vs)[j] := by
      rw [token, htok, List.append_assoc, List.getD_append_right _ _ _ _ (Nat.le_add_right _ _),
        Nat.add_sub_cancel_left, List.getD_append _ _ _ _ hlen, List.getD_eq_getElem _ _ hlen]
    refine ⟨.of_end ht ?_, .of_type ?_⟩
    · rw [hget] at ht ⊢
      rw [nextItem_of_end_items off vs _ (List.getElem_mem hlen) ht, htok, List.length_append,
        List.length_append, List.length_cons]
      omega
    · rw [type_child, ht]
      decide
  · obtain ⟨off', v, h', hv'⟩ := holdsAll_of_token vs i off h hv j hj ht
    exact ⟨.of_holds h' hv', .of_holds h' hv'⟩

/-- The way is the only one to an end. -/
theorem Walk.unique {k' stop' : ℕ} (h : n.Walk i k stop) (h' : n.Walk i k' stop') : k = k' := by
  rcases Nat.lt_trichotomy k k' with hlt | heq | hgt
  · exact absurd h.ends (h'.items k hlt)
  · exact heq
  · exact absurd h'.ends (h.items k' hgt)

/-- A string depends on its token and on the offset of the next one. -/
theorem SoundString.congr {n' : BdecodeNode} (hbuf : n.buffer = n'.buffer) (htoken : n.token i = n'.token i)
    (hnext : (n.token (i + 1)).offset = (n'.token (i + 1)).offset) (h : n.SoundString i) : n'.SoundString i := by
  intro ht
  have hvalue : (n'.child i).stringValue = (n.child i).stringValue := by
    change ((n'.buffer.drop _).take (n'.tokenSourceSpan i - _)) = (n.buffer.drop _).take (n.tokenSourceSpan i - _)
    rw [tokenSourceSpan, tokenSourceSpan, hbuf, hnext]
    change ((n'.buffer.drop ((n'.token i).offset + (n'.token i).startOffset)).take _) =
      (n'.buffer.drop ((n.token i).offset + (n.token i).startOffset)).take
        ((n'.token (i + 1)).offset - (n.token i).offset - (n.token i).startOffset)
    rw [htoken]
    rfl
  rw [type_child, ← htoken, ← type_child] at ht
  rw [hvalue, ← htoken, ← hbuf]
  exact h ht

/-- The links depend on the types and the links of the tokens only. -/
theorem SoundLink.congr {n' : BdecodeNode}
    (hlinks : n.tokens.map (fun t => (t.type, t.nextItem)) = n'.tokens.map fun t => (t.type, t.nextItem))
    (h : n.SoundLink i) : n'.SoundLink i := by
  have hlen : n.tokens.length = n'.tokens.length := by simpa using congrArg List.length hlinks
  have htoken : ∀ i, (n.token i).type = (n'.token i).type ∧ (n.token i).nextItem = (n'.token i).nextItem := by
    intro i
    have hget := congrArg (List.getD · i (TokenType.none, 0)) hlinks
    have hmap : ∀ ts : List BdecodeToken, (ts.map fun t => (t.type, t.nextItem)).getD i (TokenType.none, 0) =
        ((ts.getD i ⟨0, .none, 0, 0⟩).type, (ts.getD i ⟨0, .none, 0, 0⟩).nextItem) := fun ts =>
      List.getD_map ts ⟨0, .none, 0, 0⟩ fun t : BdecodeToken => (t.type, t.nextItem)
    rw [hmap, hmap] at hget
    exact Prod.mk.inj hget
  have hskip : ∀ k i, n.skip k i = n'.skip k i := by
    intro k
    induction k with
    | zero => exact fun i => rfl
    | succ k ih => exact fun i => by rw [skip, skip, (htoken i).2, ih]
  refine ⟨by rw [← hlen, ← (htoken i).2]; exact h.jump, fun isDict ht => ?_⟩
  obtain ⟨k, ⟨h₁, h₂, h₃, h₄⟩, hpairs⟩ := h.sequence isDict ((htoken i).1.trans ht)
  rw [hskip] at h₂ h₃ h₄
  refine ⟨k, ⟨fun j hj => ?_, hlen ▸ h₂, (htoken _).1 ▸ h₃, (htoken i).2 ▸ h₄⟩, fun hd => ?_⟩
  · rw [← hskip, ← (htoken _).1]
    exact h₁ j hj
  · refine ⟨(hpairs hd).1, fun j hj heven => ?_⟩
    have hstring := (hpairs hd).2 j hj heven
    rwa [type_child, (htoken _).1, hskip, ← type_child] at hstring

end BdecodeNode

namespace Zipper

/-! ## The tokens of open sequences -/

section Unwind
variable (root : List Value)

/-- The token of the open sequence `o` when it ends, with `m` tokens after its items. -/
def headOf (m : ℕ) (o : OpenSequence) (fs : List OpenSequence) : BdecodeToken :=
  { BdecodeToken.unlinked (bytesOf root fs).length (sequenceType o.isDict) with
    nextItem := (tokenCountAll o.items + m + 1) % 2 ^ 29 }

/-- The tokens of the open sequences when these end, up to the first of the `m` tokens that come
between the innermost items and the innermost end. -/
def frontOf (m : ℕ) : List OpenSequence → List BdecodeToken
  | [] => tokensAll 0 root
  | o :: fs => frontOf (tokenCountAll o.items + m + 2) fs ++
      headOf root m o fs ::
      tokensAll ((bytesOf root fs).length + 1) o.items

end Unwind

/-- The tokens in the place of a value whose key was the last item. -/
def dummy (start : ℕ) : List BdecodeToken := [.linked start 2 .dict 0, .unlinked start .endToken]

variable {root : List Value} {d : Decoder} {o : OpenSequence} {fs : List OpenSequence}

theorem headOf_type (m : ℕ) (o : OpenSequence) (fs : List OpenSequence) :
    (headOf root m o fs).type = sequenceType o.isDict := rfl

/-- An open sequence, when closed, links past its tokens. -/
theorem headOf_nextItem {m : ℕ} (hfit : tokenCountAll o.items + m + 1 < 2 ^ 29) :
    (headOf root m o fs).nextItem = tokenCountAll o.items + m + 1 := Nat.mod_eq_of_lt hfit

theorem length_frontOf (m : ℕ) (fs : List OpenSequence) :
    (frontOf root m fs).length = (tokensOf root fs).length := by
  induction fs generalizing m with
  | nil => rfl
  | cons o fs ih => rw [frontOf, tokensOf, List.length_append, List.length_append, ih, List.length_cons,
      List.length_cons]

/-- A frame ends without an item of its own in between. -/
theorem unwindFrame_eq {inner : List BdecodeToken} (hd : d.tokens = tokensOf root (o :: fs) ++ inner)
    (hlen : (tokensOf root fs).length < 2 ^ 31) {state : Bool} (hstate : o.isDict = true → state = false) :
    d.unwindFrame ⟨(tokensOf root fs).length % 2 ^ 31, state⟩ =
      { d with tokens := tokensOf root fs ++
        (headOf root inner.length o fs :: (tokensAll ((bytesOf root fs).length + 1) o.items ++ inner ++
            [BdecodeToken.linked d.start 1 .endToken 0])) } := by
  have hcond : ¬ (d.isDict ⟨(tokensOf root fs).length % 2 ^ 31, state⟩ ∧ state = true) := by
    rintro ⟨h₁, h₂⟩
    rw [hstate ((isDict_top hd hlen state).mp h₁)] at h₂
    cases h₂
  have hnext : d.tokens.length - (tokensOf root fs).length = tokenCountAll o.items + inner.length + 1 := by
    rw [hd, tokensOf, List.length_append, List.length_append, List.length_cons, length_tokensAll]
    omega
  rw [Decoder.unwindFrame, if_neg hcond]
  dsimp only
  rw [Nat.mod_eq_of_lt hlen, hnext, hd, tokensOf, List.append_assoc, List.cons_append, modify_append_cons,
    List.append_assoc, List.cons_append]
  rfl

/-- All tokens, with `inner` between the innermost items and the innermost end. -/
def closedTokens (root : List Value) (fs : List OpenSequence) (start : ℕ) (inner : List BdecodeToken) :
    List BdecodeToken :=
  frontOf root inner.length fs ++ inner ++ List.replicate fs.length (.linked start 1 .endToken 0)

/-- Closing the innermost sequence leaves the outer ones. -/
theorem closedTokens_cons (start : ℕ) (inner : List BdecodeToken) :
    closedTokens root fs start
      (headOf root inner.length o fs ::
        (tokensAll ((bytesOf root fs).length + 1) o.items ++ inner ++ [.linked start 1 .endToken 0])) =
      closedTokens root (o :: fs) start inner := by
  rw [closedTokens, closedTokens, List.length_cons, List.length_append, List.length_append, length_tokensAll,
    List.length_singleton, frontOf, List.length_cons, List.replicate_succ]
  simp only [List.append_assoc, List.cons_append, List.nil_append]

/-- All frames end, none of them with a key that has no value. -/
theorem foldl_unwindFrame {inner : List BdecodeToken} (hd : d.tokens = tokensOf root fs ++ inner)
    (hlen : (tokensOf root fs).length < 2 ^ 31) (hodd : ∀ o ∈ fs, o.isDict = true → o.items.length % 2 = 1) :
    (stackOf root 1 fs).foldl Decoder.unwindFrame d =
      { d with tokens := closedTokens root fs d.start inner } := by
  induction fs generalizing d inner with
  | nil =>
    rw [stackOf, List.foldl_nil, closedTokens, frontOf, List.length_nil, List.replicate_zero, List.append_nil]
    exact Decoder.ext rfl rfl hd rfl
  | cons o fs ih =>
    obtain ⟨ho, hodd⟩ := List.forall_mem_cons.mp hodd
    have hlt : (tokensOf root fs).length < 2 ^ 31 := by
      rw [tokensOf, List.length_append] at hlen
      omega
    have hstate : o.isDict = true → (o.isDict && (o.items.length + 1) % 2 == 1) = false := by
      intro hdict
      have := ho hdict
      rw [hdict, Bool.true_and, beq_eq_false_iff_ne]
      omega
    rw [stackOf, List.foldl_cons, unwindFrame_eq hd hlt hstate]
    exact (ih rfl hlt hodd).trans (Decoder.ext rfl rfl (closedTokens_cons d.start inner) rfl)

/-- A key without a value gets a dummy. -/
theorem unwindFrame_dummy {f : StackFrame} (h : d.isDict f)
    (hstate : f.state = true) : d.unwindFrame f =
      Decoder.unwindFrame { d with tokens := d.tokens ++ dummy d.start } ⟨f.token, false⟩ := by
  rw [Decoder.unwindFrame, Decoder.unwindFrame, if_pos ⟨h, hstate⟩, if_neg (fun h => by cases h.2)]
  rfl

/-- The tokens between the innermost items and the innermost end. -/
def gap (start : ℕ) : List OpenSequence → List BdecodeToken
  | [] => []
  | o :: _ => if o.isDict = true ∧ o.items.length % 2 = 1 then dummy start else []

/-- The tokens after an error at `start`. -/
def brokenTokens (root : List Value) (fs : List OpenSequence) (start : ℕ) : List BdecodeToken :=
  closedTokens root fs start (gap start fs) ++ [.linked start 0 .endToken 0]

/-- Unwinding closes all open sequences. -/
theorem unwind_eq (hstack : d.stack = stackOf root 0 (o :: fs)) (hd : d.tokens = tokensOf root (o :: fs))
    (hlen : (tokensOf root (o :: fs)).length < 2 ^ 31)
    (hodd : ∀ o ∈ fs, o.isDict = true → o.items.length % 2 = 1) :
    d.unwind = { d with
      stack := []
      tokens := closedTokens root (o :: fs) d.start (gap d.start (o :: fs)) } := by
  have hlt : (tokensOf root fs).length < 2 ^ 31 := by
    rw [tokensOf, List.length_append] at hlen
    omega
  have htok : d.tokens = tokensOf root (o :: fs) ++ [] := by rw [hd, List.append_nil]
  -- the innermost frame, with the tokens in its gap
  have hfirst : d.unwindFrame ⟨(tokensOf root fs).length % 2 ^ 31, o.isDict && (o.items.length + 0) % 2 == 1⟩ =
      Decoder.unwindFrame { d with tokens := tokensOf root (o :: fs) ++ gap d.start (o :: fs) }
        ⟨(tokensOf root fs).length % 2 ^ 31, false⟩ := by
    rw [gap, Nat.add_zero]
    split_ifs with h
    · have hone : (o.isDict && o.items.length % 2 == 1) = true := by
        rw [h.1, h.2]
        rfl
      rw [hone, unwindFrame_dummy ((isDict_top htok hlt true).mpr h.1) rfl, hd]
    · have hzero : (o.isDict && o.items.length % 2 == 1) = false := by
        rw [Bool.and_eq_false_iff, beq_eq_false_iff_ne]
        by_contra hc
        rw [not_or, not_not, Bool.not_eq_false] at hc
        exact h hc
      rw [hzero, ← htok]
  rw [Decoder.unwind, hstack, stackOf, List.foldl_cons, hfirst, unwindFrame_eq rfl hlt fun _ => rfl]
  refine Decoder.ext ?_ rfl ?_ ?_
  · rw [foldl_unwindFrame rfl hlt hodd]
  · rw [foldl_unwindFrame rfl hlt hodd]
    exact closedTokens_cons d.start _
  · rw [foldl_unwindFrame rfl hlt hodd]

/-! ## Following the links of open sequences -/

variable {n : BdecodeNode} {m k : ℕ} {depthLimit : ℤ}

/-- The node has the tokens of the open sequences, with `m` tokens between the innermost items and the
innermost end. -/
structure Layout (n : BdecodeNode) (root : List Value) (fs : List OpenSequence) (m : ℕ) : Prop where
  size : n.buffer.length ≤ maxOffset
  bytes : ∃ rest, n.buffer = bytesOf root fs ++ rest
  tokens : ∃ next rest, n.tokens = frontOf root m fs ++ next :: rest ∧ next.offset = (bytesOf root fs).length

/-- The head of the innermost sequence. -/
theorem Layout.head (h : Layout n root (o :: fs) m) : n.token (tokensOf root fs).length =
    headOf root m o fs := by
  obtain ⟨next, rest, htok, -⟩ := h.tokens
  rw [← length_frontOf (tokenCountAll o.items + m + 2)]
  have hsplit : n.tokens = frontOf root (tokenCountAll o.items + m + 2) fs ++ headOf root m o fs ::
      (tokensAll ((bytesOf root fs).length + 1) o.items ++ next :: rest) := by
    rw [htok, frontOf, List.append_assoc, List.cons_append]
  exact BdecodeNode.token_append hsplit

/-- The items of the innermost sequence. -/
theorem Layout.items (h : Layout n root (o :: fs) m) : HoldsAll n.tokens n.buffer
    ((tokensOf root fs).length + 1) ((bytesOf root fs).length + 1) o.items := by
  obtain ⟨next, rest, htok, hnext⟩ := h.tokens
  obtain ⟨post, hbuf⟩ := h.bytes
  refine ⟨h.size, ⟨bytesOf root fs ++ [sequenceByte o.isDict], post, ?_, ?_⟩,
    frontOf root (tokenCountAll o.items + m + 2) fs ++
      [headOf root m o fs], rest, next, ?_, ?_, ?_⟩
  · rw [hbuf, bytesOf]
    simp only [List.append_assoc, List.cons_append, List.nil_append]
  · rw [List.length_append, List.length_singleton]
  · rw [htok, frontOf]
    simp only [List.append_assoc, List.cons_append, List.nil_append]
  · rw [List.length_append, List.length_singleton, length_frontOf]
  · rw [hnext, bytesOf, List.length_append, List.length_cons]
    omega

/-- The layout of the sequences around it. -/
theorem Layout.outer (h : Layout n root (o :: fs) m) :
    Layout n root fs (tokenCountAll o.items + m + 2) := by
  obtain ⟨next, rest, htok, -⟩ := h.tokens
  obtain ⟨post, hbuf⟩ := h.bytes
  refine ⟨h.size, ⟨sequenceByte o.isDict :: encodeAll o.items ++ post, ?_⟩, headOf root m o fs,
    tokensAll ((bytesOf root fs).length + 1) o.items ++ next :: rest, ?_, ?_⟩
  · rw [hbuf, bytesOf, List.append_assoc]
  · rw [htok, frontOf, List.append_assoc, List.cons_append]
  · have hsize := h.size
    rw [hbuf, bytesOf, List.length_append, List.length_append, maxOffset] at hsize
    exact Nat.mod_eq_of_lt (by omega)

theorem length_tokensOf_cons (root : List Value) (o : OpenSequence) (fs : List OpenSequence) :
    (tokensOf root (o :: fs)).length = (tokensOf root fs).length + 1 + tokenCountAll o.items := by
  rw [tokensOf, List.length_append, List.length_cons, length_tokensAll]
  omega

/-- The strings of open sequences. -/
theorem Layout.soundString (h : Layout n [] fs m) (hgood : GoodFrames depthLimit fs) {i : ℕ}
    (hi : i < (tokensOf [] fs).length) : n.SoundString i := by
  induction fs generalizing m with
  | nil => exact absurd hi (Nat.not_lt_zero i)
  | cons o fs ih =>
    obtain ⟨hv, -, -, -, hgood⟩ := hgood
    rw [length_tokensOf_cons] at hi
    rcases Nat.lt_trichotomy i (tokensOf [] fs).length with hlt | rfl | hgt
    · exact ih h.outer hgood hlt
    · refine .of_type ?_
      rw [BdecodeNode.type_child, h.head, headOf_type]
      cases o.isDict <;> decide
    · obtain ⟨j, rfl⟩ := Nat.exists_eq_add_of_le (Nat.succ_le_of_lt hgt)
      exact (BdecodeNode.sound_of_holdsAll h.items hv (by omega)).2

/-- From the end of the innermost items, `k` links lead to an end, and every open sequence has its own
end further on. -/
structure Ended (n : BdecodeNode) (root : List Value) (fs : List OpenSequence) (m k : ℕ) : Prop
    extends Layout n root fs m where
  walk : n.Walk (tokensOf root fs).length k ((tokensOf root fs).length + m)
  ends : ∀ j < fs.length, (tokensOf root fs).length + m + j + 1 < n.tokens.length ∧
    (n.token ((tokensOf root fs).length + m + j)).type = .endToken
  one : k ≤ 1
  pairs : ∀ o ∈ fs.head?, o.isDict = true → (o.items.length + k) % 2 = 0

/-- Over the items of the innermost sequence. -/
theorem Ended.over (h : Ended n root (o :: fs) m k) : n.Walk ((tokensOf root fs).length + 1)
    (o.items.length + k) ((tokensOf root fs).length + (tokenCountAll o.items + m + 1)) := by
  have hwalk := h.walk
  rw [length_tokensOf_cons] at hwalk
  have hover := hwalk.over h.items
  rwa [show (tokensOf root fs).length + 1 + tokenCountAll o.items + m =
    (tokensOf root fs).length + (tokenCountAll o.items + m + 1) by omega] at hover

/-- The link of the innermost sequence leads to its own end if it fits. -/
theorem Ended.outer (h : Ended n root (o :: fs) m k) (hfit : tokenCountAll o.items + m + 1 < 2 ^ 29)
    (hodd : ∀ o ∈ fs.head?, o.isDict = true → o.items.length % 2 = 1) :
    Ended n root fs (tokenCountAll o.items + m + 2) 1 := by
  have hlen := length_tokensOf_cons root o fs
  obtain ⟨hlt, hend⟩ := h.ends 0 (Nat.succ_pos _)
  have hskip : n.skip 1 (tokensOf root fs).length =
      (tokensOf root fs).length + (tokenCountAll o.items + m + 1) := by
    rw [BdecodeNode.skip, BdecodeNode.skip, h.head, headOf_nextItem hfit]
  have hlast : (tokensOf root (o :: fs)).length + m + 0 =
      (tokensOf root fs).length + (tokenCountAll o.items + m + 1) := by omega
  refine ⟨h.toLayout.outer, ⟨fun j hj => ?_, ?_, ?_, .inr ?_⟩, fun j hj => ?_, Nat.le_refl 1, fun o' ho' hd => ?_⟩
  · obtain rfl := Nat.lt_one_iff.mp hj
    rw [BdecodeNode.skip, h.head, headOf_type]
    cases o.isDict <;> decide
  · rw [hskip]
    omega
  · rw [hskip, ← hlast]
    exact hend
  · rw [hskip]
    omega
  · have hnext := h.ends (j + 1) (Nat.succ_lt_succ hj)
    rwa [show (tokensOf root (o :: fs)).length + m + (j + 1) =
      (tokensOf root fs).length + (tokenCountAll o.items + m + 2) + j by omega] at hnext
  · have := hodd o' ho' hd
    omega

theorem sequenceType_injective {isDict isDict' : Bool} (h : sequenceType isDict = sequenceType isDict') :
    isDict = isDict' := by
  cases isDict <;> cases isDict' <;> first | rfl | cases h

/-- The links of open sequences, if all of them fit into their 29 bits. -/
theorem Ended.soundLink (h : Ended n [] fs m k) (hgood : GoodFrames depthLimit fs)
    (hfit : (tokensOf [] fs).length + m + fs.length ≤ 2 ^ 29) {i : ℕ} (hi : i < (tokensOf [] fs).length) :
    n.SoundLink i := by
  induction fs generalizing m k with
  | nil => exact absurd hi (Nat.not_lt_zero i)
  | cons o fs ih =>
    obtain ⟨hv, -, hkeys, hodd, hgood⟩ := hgood
    have hlen := length_tokensOf_cons [] o fs
    rw [List.length_cons] at hfit
    have hlink : tokenCountAll o.items + m + 1 < 2 ^ 29 := by omega
    rcases Nat.lt_trichotomy i (tokensOf [] fs).length with hlt | rfl | hgt
    · exact ih (h.outer hlink hodd) hgood (by omega) hlt
    · have hnext : (n.token (tokensOf [] fs).length).nextItem = tokenCountAll o.items + m + 1 := by
        rw [h.head, headOf_nextItem hlink]
      refine ⟨?_, fun isDict ht => ⟨o.items.length + k, ?_, fun hdict => ?_⟩⟩
      · have := (h.ends 0 (Nat.succ_pos _)).1
        omega
      · rw [hnext]
        exact h.over
      · rw [h.head, headOf_type] at ht
        obtain rfl := sequenceType_injective ht
        have heven := h.pairs o rfl hdict
        refine ⟨heven, fun j hj hj' => ?_⟩
        -- after the keys among the items at most one item is left, which is not a key
        have := h.one
        exact BdecodeNode.string_of_keysAt h.items (hkeys hdict) (by omega) hj'
    · obtain ⟨j, rfl⟩ := Nat.exists_eq_add_of_le (Nat.succ_le_of_lt hgt)
      exact (BdecodeNode.sound_of_holdsAll h.items hv (by omega)).1

/-- A link that does not fit leads somewhere else. -/
theorem Ended.fits (h : Ended n [] fs m k) (hgood : GoodFrames depthLimit fs) (hopen : fs ≠ [])
    (hsound : ∀ i < (tokensOf [] fs).length, n.SoundLink i) :
    (tokensOf [] fs).length + m + fs.length ≤ 2 ^ 29 := by
  induction fs generalizing m k with
  | nil => exact absurd rfl hopen
  | cons o fs ih =>
    obtain ⟨-, -, -, hodd, hgood⟩ := hgood
    have hlen := length_tokensOf_cons [] o fs
    have hlink : tokenCountAll o.items + m + 1 < 2 ^ 29 := by
      have htype : (n.token (tokensOf [] fs).length).type = sequenceType o.isDict := by rw [h.head, headOf_type]
      obtain ⟨k', hwalk, -⟩ := (hsound _ (by omega)).sequence o.isDict htype
      have hover := h.over
      obtain rfl := hover.unique hwalk
      have hstop := hover.stops
      have hstop' := hwalk.stops
      have hnext : (n.token (tokensOf [] fs).length).nextItem = (tokenCountAll o.items + m + 1) % 2 ^ 29 := by
        rw [h.head]
        rfl
      omega
    rcases fs with - | ⟨o', fs⟩
    · have hzero : (tokensOf [] []).length = 0 := rfl
      rw [List.length_singleton]
      omega
    · have := ih (h.outer hlink hodd) hgood (List.cons_ne_nil _ _) fun i hi => hsound i (by omega)
      rw [List.length_cons]
      omega

/-! ## The whole array -/

section Broken
variable {start : ℕ}

/-- The gap is empty or one dummy. -/
theorem gap_cases (start : ℕ) (fs : List OpenSequence) : gap start fs = [] ∨ gap start fs = dummy start := by
  rcases fs with - | ⟨o, fs⟩
  · exact .inl rfl
  · rw [gap]
    split_ifs
    · exact .inr rfl
    · exact .inl rfl

/-- Types and links do not depend on where the error is. -/
theorem brokenTokens_links (start start' : ℕ) (fs : List OpenSequence) :
    (brokenTokens root fs start).map (fun t => (t.type, t.nextItem)) =
      (brokenTokens root fs start').map fun t => (t.type, t.nextItem) := by
  have hgap : (gap start fs).length = (gap start' fs).length ∧
      (gap start fs).map (fun t => (t.type, t.nextItem)) = (gap start' fs).map fun t => (t.type, t.nextItem) := by
    rcases fs with - | ⟨o, fs⟩
    · exact ⟨rfl, rfl⟩
    · rw [gap, gap]
      split_ifs
      · exact ⟨rfl, rfl⟩
      · exact ⟨rfl, rfl⟩
  rw [brokenTokens, brokenTokens, closedTokens, closedTokens, hgap.1]
  simp only [List.map_append, hgap.2, List.map_replicate]
  rfl

variable (hn : n.tokens = brokenTokens root fs start)
include hn

/-- How many tokens there are after an error. -/
theorem broken_length : n.tokens.length = (tokensOf root fs).length + (gap start fs).length + fs.length + 1 := by
  rw [hn, brokenTokens, closedTokens, List.length_append, List.length_append, List.length_append,
    length_frontOf, List.length_replicate, List.length_singleton]

/-- The tokens before the gap. -/
theorem broken_front {i : ℕ} (hi : i < (tokensOf root fs).length) :
    n.token i = (frontOf root (gap start fs).length fs).getD i ⟨0, .none, 0, 0⟩ := by
  rw [← length_frontOf (gap start fs).length] at hi
  rw [BdecodeNode.token, hn, brokenTokens, closedTokens, List.append_assoc, List.append_assoc,
    List.getD_append _ _ _ _ hi]

/-- The tokens in the gap. -/
theorem broken_gap {j : ℕ} (hj : j < (gap start fs).length) :
    n.token ((tokensOf root fs).length + j) = (gap start fs).getD j ⟨0, .none, 0, 0⟩ := by
  rw [BdecodeNode.token, hn, brokenTokens, closedTokens, List.append_assoc, List.append_assoc,
    ← length_frontOf (gap start fs).length, List.getD_append_right _ _ _ _ (Nat.le_add_right _ _),
    Nat.add_sub_cancel_left, List.getD_append _ _ _ _ hj]

/-- The ends after the gap: one for every open sequence, and one for the array. -/
theorem broken_end {j : ℕ} (hj : j ≤ fs.length) :
    n.token ((tokensOf root fs).length + (gap start fs).length + j) =
      .linked start (if j < fs.length then 1 else 0) .endToken 0 := by
  have hpre : ((tokensOf root fs).length + (gap start fs).length) =
      (frontOf root (gap start fs).length fs ++ gap start fs).length := by
    rw [List.length_append, length_frontOf]
  rw [BdecodeNode.token, hn, brokenTokens, closedTokens, List.append_assoc, hpre,
    List.getD_append_right _ _ _ _ (Nat.le_add_right _ _), Nat.add_sub_cancel_left]
  rcases Nat.lt_or_ge j fs.length with hlt | hge
  · rw [List.getD_append _ _ _ _ (by rwa [List.length_replicate]),
      List.getD_eq_getElem _ _ (by rwa [List.length_replicate]), List.getElem_replicate, if_pos hlt]
  · obtain rfl : j = fs.length := Nat.le_antisymm hj hge
    rw [List.getD_append_right _ _ _ _ (by rw [List.length_replicate]), List.length_replicate, Nat.sub_self,
      List.getD_cons_zero, if_neg (Nat.lt_irrefl _)]

/-- The offset of the token after the last item. -/
theorem broken_offset (hstart : start < 2 ^ 29) : (n.token (tokensOf root fs).length).offset = start := by
  rcases gap_cases start fs with hgap | hgap
  · have hend := broken_end hn (Nat.zero_le _)
    rw [hgap, List.length_nil] at hend
    exact (congrArg BdecodeToken.offset hend).trans (Nat.mod_eq_of_lt hstart)
  · have hfirst := broken_gap hn (j := 0) (by rw [hgap]; exact Nat.succ_pos _)
    rw [hgap] at hfirst
    exact (congrArg BdecodeToken.offset hfirst).trans (Nat.mod_eq_of_lt hstart)

/-- The tokens behind the gap. -/
theorem broken_ended (hsize : n.buffer.length ≤ maxOffset) {rest : List UInt8}
    (hbuf : n.buffer = bytesOf root fs ++ rest) (hstart : start = (bytesOf root fs).length) :
    Ended n root fs (gap start fs).length ((gap start fs).length / 2) := by
  have hlen := broken_length hn
  have hlt : start < 2 ^ 29 := by
    rw [hbuf, List.length_append, maxOffset] at hsize
    omega
  have hfirst := broken_end hn (Nat.zero_le fs.length)
  refine ⟨⟨hsize, ⟨rest, hbuf⟩, ?_⟩, ?_, fun j hj => ⟨by omega, ?_⟩, ?_, fun o ho hd => ?_⟩
  · obtain ⟨next, ts, hts⟩ : ∃ next ts, n.tokens = frontOf root (gap start fs).length fs ++ next :: ts := by
      obtain ⟨next, ts, hts⟩ := List.exists_cons_of_ne_nil (l := gap start fs ++
        (List.replicate fs.length (BdecodeToken.linked start 1 .endToken 0) ++ [.linked start 0 .endToken 0]))
        (by simp)
      refine ⟨next, ts, ?_⟩
      rw [hn, brokenTokens, closedTokens, List.append_assoc, List.append_assoc, hts]
    refine ⟨next, ts, hts, ?_⟩
    rw [← BdecodeNode.token_append hts, length_frontOf, broken_offset hn hlt, hstart]
  · rcases gap_cases start fs with hgap | hgap
    · rw [hgap, List.length_nil, Nat.add_zero] at hfirst
      refine ⟨fun j hj => ?_, ?_, ?_, .inl ?_⟩
      · rw [hgap] at hj
        exact absurd hj (Nat.not_lt_zero j)
      · rw [hgap, List.length_nil, Nat.zero_div, BdecodeNode.skip]
        omega
      · rw [hgap, List.length_nil, Nat.zero_div, BdecodeNode.skip, hfirst]
        rfl
      · rw [hgap]
        rfl
    · have htoken := broken_gap hn (j := 0) (by rw [hgap]; exact Nat.succ_pos _)
      rw [hgap, Nat.add_zero] at htoken
      have htwo : (dummy start).length = 2 := rfl
      rw [hgap, htwo] at hlen
      rw [hgap, htwo, Nat.add_zero] at hfirst
      have hskip : n.skip 1 (tokensOf root fs).length = (tokensOf root fs).length + 2 := by
        rw [BdecodeNode.skip, BdecodeNode.skip, htoken]
        rfl
      rw [hgap, htwo, Nat.div_self Nat.two_pos]
      refine ⟨fun j hj => ?_, ?_, ?_, .inl hskip.symm⟩
      · obtain rfl := Nat.lt_one_iff.mp hj
        rw [BdecodeNode.skip, htoken]
        exact TokenType.noConfusion
      · rw [hskip]
        omega
      · rw [hskip, hfirst]
        rfl
  · rw [broken_end hn hj.le]
    rfl
  · have htwo : (dummy start).length = 2 := rfl
    rcases gap_cases start fs with hgap | hgap
    · rw [hgap]
      exact Nat.zero_le 1
    · rw [hgap, htwo]
  · obtain ⟨fs, rfl⟩ : ∃ fs', fs = o :: fs' := List.head?_eq_some_iff.mp ho
    rw [gap]
    split_ifs with hodd
    · have htwo : (dummy start).length = 2 := rfl
      rw [htwo]
      omega
    · have : ¬ o.items.length % 2 = 1 := fun hc => hodd ⟨hd, hc⟩
      rw [List.length_nil]
      omega

/-- The tokens that were added. -/
theorem broken_sound {i : ℕ} (hge : (tokensOf root fs).length ≤ i) (hi : i < n.tokens.length) :
    n.SoundLink i ∧ (n.child i).type ≠ .string := by
  obtain ⟨j, rfl⟩ := Nat.exists_eq_add_of_le hge
  have hlen := broken_length hn
  have hends : ∀ j, (gap start fs).length ≤ j → (tokensOf root fs).length + j < n.tokens.length →
      n.SoundLink ((tokensOf root fs).length + j) ∧
        (n.child ((tokensOf root fs).length + j)).type ≠ .string := by
    intro j hj hi
    obtain ⟨j, rfl⟩ := Nat.exists_eq_add_of_le hj
    rw [← Nat.add_assoc] at hi ⊢
    have htoken := broken_end hn (j := j) (by omega)
    refine ⟨.of_end (by rw [htoken]; rfl) ?_, ?_⟩
    · rw [htoken]
      split_ifs
      · change _ + 1 < _
        omega
      · exact hi
    · rw [BdecodeNode.type_child, htoken]
      exact TokenType.noConfusion
  rcases Nat.lt_or_ge j (gap start fs).length with hlt | hge
  · have hgap := (gap_cases start fs).resolve_left fun h => by rw [h] at hlt; cases hlt
    have hzero := broken_gap hn (j := 0) (by rw [hgap]; exact Nat.succ_pos _)
    have hone := broken_gap hn (j := 1) (by rw [hgap]; exact Nat.succ_lt_succ Nat.one_pos)
    rw [hgap] at hzero hone
    have htwo : (gap start fs).length = 2 := by rw [hgap]; rfl
    rw [htwo] at hlt
    rcases j with - | j
    · refine ⟨⟨?_, fun isDict ht => ⟨0, ⟨fun j hj => absurd hj (Nat.not_lt_zero j), ?_, ?_, .inr ?_⟩, fun _ =>
        ⟨rfl, fun j hj => absurd hj (Nat.not_lt_zero j)⟩⟩⟩, ?_⟩
      · rw [hzero]
        change _ + 2 < _
        omega
      · rw [BdecodeNode.skip]
        omega
      · rw [BdecodeNode.skip, Nat.add_zero, hone]
        rfl
      · rw [BdecodeNode.skip, hzero]
        rfl
      · rw [BdecodeNode.type_child, hzero]
        exact TokenType.noConfusion
    · obtain rfl : j = 0 := by omega
      refine ⟨.of_end (by rw [hone]; rfl) ?_, ?_⟩
      · rw [hone]
        exact hi
      · rw [BdecodeNode.type_child, hone]
        exact TokenType.noConfusion
  · exact hends j hge hi

end Broken

/-- The last item read is a string. -/
def EndsInString (fs : List OpenSequence) : Prop :=
  ∃ o ∈ fs.head?, ∃ l b, o.items.getLast? = some (.str l b)

/-- The last item, with its first token. -/
theorem Layout.last {vs : List Value} {v : Value} (h : Layout n root (o :: fs) m) (hitems : o.items = vs ++ [v]) :
    Holds n.tokens n.buffer ((tokensOf root fs).length + 1 + tokenCountAll vs)
      ((bytesOf root fs).length + 1 + (encodeAll vs).length) v := by
  have hget := h.items.getElem? (j := vs.length) (v := v) (by rw [hitems, List.getElem?_concat_length])
  rwa [hitems, List.take_left] at hget

/-- The last item is a string just when the sequences end in one. -/
theorem Layout.last_type (h : Layout n root (o :: fs) m) :
    (n.child ((tokensOf root fs).length + tokenCountAll o.items)).type = .string ↔ EndsInString (o :: fs) := by
  have hends : EndsInString (o :: fs) ↔ ∃ l b, o.items.getLast? = some (.str l b) := by
    simp [EndsInString]
  rw [hends]
  rcases List.eq_nil_or_concat' o.items with hnil | ⟨vs, v, hitems⟩
  · rw [hnil, tokenCountAll, Nat.add_zero, BdecodeNode.type_child, h.head, headOf_type]
    cases o.isDict <;> simp [sequenceType]
  have hlast := h.last hitems
  have hcount : (tokensOf root fs).length + tokenCountAll o.items + 1 =
      (tokensOf root fs).length + 1 + tokenCountAll vs + v.tokenCount := by
    rw [hitems, BdecodeNode.tokenCountAll_append, tokenCountAll, tokenCountAll]
    omega
  rw [hitems, List.getLast?_concat]
  have hend : ∀ isDict items, v = .sequence isDict items →
      (n.child ((tokensOf root fs).length + tokenCountAll o.items)).type ≠ .string := by
    rintro isDict items rfl
    obtain ⟨t, htok, hend⟩ := Option.map_eq_some_iff.mp hlast.items.2
    rw [tokenCount_sequence] at hcount
    rw [show (tokensOf root fs).length + 1 + tokenCountAll vs + 1 + tokenCountAll items =
      (tokensOf root fs).length + tokenCountAll o.items by omega] at htok
    rw [BdecodeNode.type_child, BdecodeNode.token, List.getD_eq_getElem?_getD, htok, Option.getD_some, hend]
    exact TokenType.noConfusion
  cases v with
  | str l b =>
    have hfirst : (tokensOf root fs).length + tokenCountAll o.items =
      (tokensOf root fs).length + 1 + tokenCountAll vs := Nat.add_right_cancel hcount
    rw [← hitems, hfirst, BdecodeNode.type_child, BdecodeNode.type_of_holds hlast]
    exact iff_of_true rfl ⟨l, b, rfl⟩
  | int negative digits =>
    have hfirst : (tokensOf root fs).length + tokenCountAll o.items =
      (tokensOf root fs).length + 1 + tokenCountAll vs := Nat.add_right_cancel hcount
    rw [← hitems, hfirst, BdecodeNode.type_child, BdecodeNode.type_of_holds hlast]
    simp [BdecodeNode.typeOf]
  | list items =>
    rw [← hitems]
    exact iff_of_false (hend false items rfl) (by simp)
  | dict items =>
    rw [← hitems]
    exact iff_of_false (hend true items rfl) (by simp)

/-- A string that is followed by a token for a later place in the buffer. -/
theorem not_soundString {n' : BdecodeNode} {i off : ℕ} {l b : List UInt8} (hbuf : n.buffer = n'.buffer)
    (htoken : n.token i = n'.token i) (h : Holds n'.tokens n'.buffer i off (.str l b))
    (hv : (Value.str l b).Valid) (hlt : off + (Value.str l b).encode.length < (n.token (i + 1)).offset)
    (hle : (n.token (i + 1)).offset ≤ n.buffer.length) : ¬ n.SoundString i := by
  intro hsound
  obtain ⟨ts, hts⟩ := BdecodeNode.token_of_holds h
  have hstart : (n.token i).startOffset = l.length + 1 := by
    rw [htoken, ← (List.cons.inj hts).1]
    exact BdecodeNode.startOffset_linked off (Nat.succ_le_succ hv.2.1) hv.2.2.1
  have hoff : (n.token i).offset = off := by rw [htoken, (BdecodeNode.first_of_holds h).1]
  have htype : (n.child i).type = .string := by
    rw [BdecodeNode.type_child, htoken, BdecodeNode.type_of_holds h]
    rfl
  have hlength := hsound htype
  rw [htoken, hbuf, BdecodeNode.decimal_of_holds h hv] at hlength
  have hvalue : (n.child i).stringValue.length =
      min ((n.token (i + 1)).offset - off - (l.length + 1)) (n.buffer.length - (off + (l.length + 1))) := by
    change ((n.buffer.drop ((n.token i).offset + (n.token i).startOffset)).take
      ((n.token (i + 1)).offset - (n.token i).offset - (n.token i).startOffset)).length = _
    rw [hstart, hoff, List.length_take, List.length_drop]
  rw [encode, List.length_append, List.length_cons] at hlt
  omega

/-- The strings are those of the buffer, unless the last item is one and the loop went on from its end. -/
theorem broken_strings {start : ℕ} (hn : n.tokens = brokenTokens [] (o :: fs) start)
    (hsize : n.buffer.length ≤ maxOffset) {rest : List UInt8} (hbuf : n.buffer = bytesOf [] (o :: fs) ++ rest)
    (hgood : GoodFrames depthLimit (o :: fs)) (hle : (bytesOf [] (o :: fs)).length ≤ start)
    (hstart : start ≤ n.buffer.length) : (∀ i < n.tokens.length, n.SoundString i) ↔
      (EndsInString (o :: fs) → start = (bytesOf [] (o :: fs)).length) := by
  set n' : BdecodeNode := { n with tokens := brokenTokens [] (o :: fs) (bytesOf [] (o :: fs)).length } with hn'
  have hlayout : Layout n' [] (o :: fs) (gap (bytesOf [] (o :: fs)).length (o :: fs)).length :=
    (broken_ended (n := n') rfl hsize hbuf rfl).toLayout
  have hgap : (gap start (o :: fs)).length = (gap (bytesOf [] (o :: fs)).length (o :: fs)).length := by
    rw [gap, gap]
    split_ifs <;> rfl
  have hfront : ∀ i < (tokensOf [] (o :: fs)).length, n'.token i = n.token i := fun i hi => by
    rw [broken_front hn hi, hgap]
    exact broken_front rfl hi
  have hlen := length_tokensOf_cons [] o fs
  have hlt : start < 2 ^ 29 := by
    rw [maxOffset] at hsize
    omega
  have hlast := hlayout.last_type
  constructor
  · intro hsound hends
    by_contra hne
    obtain ⟨o', ho', l, b, hl⟩ := hends
    obtain rfl := Option.some.inj ho'
    obtain ⟨vs, hitems⟩ : ∃ vs, o.items = vs ++ [.str l b] := ⟨_, (List.dropLast_append_getLast? _ hl).symm⟩
    have hholds := hlayout.last hitems
    have hcount : tokenCountAll o.items = tokenCountAll vs + 1 := by
      rw [hitems, BdecodeNode.tokenCountAll_append]
      rfl
    have hv : (Value.str l b).Valid :=
      validAll_iff.mp hgood.1 _ (by rw [hitems]; exact List.mem_append_right _ (List.mem_singleton_self _))
    have hend : (bytesOf [] (o :: fs)).length =
        (bytesOf [] fs).length + 1 + (encodeAll vs).length + (Value.str l b).encode.length := by
      rw [bytesOf, List.length_append, List.length_cons, hitems, encodeAll_append, encodeAll_singleton,
        List.length_append]
      omega
    have hnext := broken_offset hn hlt
    rw [show (tokensOf [] (o :: fs)).length = (tokensOf [] fs).length + 1 + tokenCountAll vs + 1 by omega] at hnext
    have hbuffer : n.buffer = n'.buffer := rfl
    exact not_soundString hbuffer (hfront _ (by omega)).symm hholds hv (by omega) (by omega)
      (hsound _ (by rw [broken_length hn]; omega))
  · intro hends i hi
    rcases Nat.lt_or_ge i (tokensOf [] (o :: fs)).length with hlt' | hge
    · have hsound : n'.SoundString i := hlayout.soundString hgood hlt'
      by_cases hnext : (n'.token (i + 1)).offset = (n.token (i + 1)).offset
      · exact BdecodeNode.SoundString.congr (n := n') rfl (hfront i hlt') hnext hsound
      · -- the token of the last item, which is no string
        have heq : i + 1 = (tokensOf [] (o :: fs)).length := by
          by_contra hc
          exact hnext (congrArg _ (hfront (i + 1) (by omega)))
        have hno : ¬ EndsInString (o :: fs) := fun hc => by
          refine hnext ?_
          rw [heq, broken_offset hn hlt, hends hc]
          exact broken_offset rfl (hends hc ▸ hlt)
        refine .of_type fun hs => hno (hlast.mp ?_)
        rwa [show (tokensOf [] fs).length + tokenCountAll o.items = i by omega, BdecodeNode.type_child,
          hfront i hlt', ← BdecodeNode.type_child]
    · exact .of_type (broken_sound hn hge hi).2

/-- The links lead where they should exactly if the outermost one fits. -/
theorem broken_links {start : ℕ} (hn : n.tokens = brokenTokens [] (o :: fs) start)
    (hsize : n.buffer.length ≤ maxOffset) {rest : List UInt8} (hbuf : n.buffer = bytesOf [] (o :: fs) ++ rest)
    (hgood : GoodFrames depthLimit (o :: fs)) : (∀ i < n.tokens.length, n.SoundLink i) ↔
      n.tokens.length ≤ 2 ^ 29 + 1 := by
  set n' : BdecodeNode := { n with tokens := brokenTokens [] (o :: fs) (bytesOf [] (o :: fs)).length } with hn'
  have hlinks : n.tokens.map (fun t => (t.type, t.nextItem)) = n'.tokens.map fun t => (t.type, t.nextItem) := by
    rw [hn]
    exact brokenTokens_links _ _ _
  have hended : Ended n' [] (o :: fs) _ _ := broken_ended (n := n') rfl hsize hbuf rfl
  have hlen : n'.tokens.length = _ := broken_length (n := n') rfl
  have hsame : n.tokens.length = n'.tokens.length := by simpa using congrArg List.length hlinks
  constructor
  · intro hsound
    have := hended.fits hgood (List.cons_ne_nil _ _) fun i hi => (hsound i (by omega)).congr hlinks
    omega
  · intro hfit i hi
    refine BdecodeNode.SoundLink.congr hlinks.symm ?_
    rcases Nat.lt_or_ge i (tokensOf [] (o :: fs)).length with hlt | hge
    · exact hended.soundLink hgood (by omega) hlt
    · exact (broken_sound (n := n') rfl hge (by omega)).1

end Zipper

/-! ## Where the loop stops -/

namespace Decoder

variable {buf : List UInt8} {d : Decoder} {f : Failure} {t : UInt8}

/-- No more is read than there is. -/
theorem parseInt_read_le (delimiter : UInt8) (cs : List UInt8) (read : ℕ) (val : ℤ) :
    (parseInt delimiter cs read val).read ≤ read + cs.length := by
  induction cs generalizing read val with
  | nil => exact Nat.le_refl _
  | cons c cs ih =>
    rw [parseInt, List.length_cons]
    have hnext := ih (read + 1) (val * 10 + digit c)
    split_ifs
    · exact Nat.le_add_right _ _
    · exact Nat.le_add_right _ _
    · exact Nat.le_add_right _ _
    · omega
    · exact Nat.le_add_right _ _

/-- The loop stopped while it looked at the byte `t`: nothing was written, and only in a length prefix
was the offset moved. -/
structure Stopped (buf : List UInt8) (d : Decoder) (t : UInt8) (d' : Decoder) : Prop where
  stack : d'.stack = d.stack
  tokens : d'.tokens = d.tokens
  le : d.start ≤ d'.start
  inside : d'.start ≤ buf.length
  moved : d'.start = d.start ↔ ¬ numeric t

theorem Stopped.here (hd : d.start < buf.length) (ht : ¬ numeric t) : Stopped buf d t d :=
  ⟨rfl, rfl, Nat.le_refl _, hd.le, iff_of_true rfl ht⟩

/-- A string that fails stops the decoder at its first byte. -/
theorem stopped_of_readString (hd : d.start < buf.length) (h : d.readString buf = .error f) :
    Stopped buf d (buf.getD d.start 0) f.decoder := by
  have hread := parseInt_read_le (ascii ':') (buf.drop (d.start + 1)) 0 (digit (buf.getD d.start 0))
  rw [List.length_drop] at hread
  rw [readString] at h
  dsimp only at h
  have hmoved : ∀ start, d.start < start → start ≤ buf.length → numeric (buf.getD d.start 0) →
      Stopped buf d (buf.getD d.start 0) { d with start := start } := fun start hlt hle hnum =>
    ⟨rfl, rfl, hlt.le, hle, iff_of_false hlt.ne' (not_not.mpr hnum)⟩
  split_ifs at h with hnum h₁ h₂ h₃ h₄ h₅ h₆
  · obtain rfl := Except.error.inj h
    exact hmoved _ (by omega) (by omega) hnum
  · obtain rfl := Except.error.inj h
    exact hmoved _ (by omega) (by omega) hnum
  · obtain rfl := Except.error.inj h
    exact hmoved _ (by omega) (by omega) hnum
  · obtain rfl := Except.error.inj h
    exact hmoved _ (by omega) (by omega) hnum
  · obtain rfl := Except.error.inj h
    exact hmoved _ (by omega) (by omega) hnum
  · obtain rfl := Except.error.inj h
    exact hmoved _ (by omega) (by omega) hnum
  · obtain rfl := Except.error.inj h
    exact .here hd hnum

/-- A token that fails stops the decoder at its first byte. -/
theorem stopped_of_readToken (hd : d.start < buf.length) (hcount : d.tokens.length < maxNextItem)
    (h : d.readToken buf (buf.getD d.start 0) = .error f) : Stopped buf d (buf.getD d.start 0) f.decoder := by
  rw [readToken] at h
  split_ifs at h with h₁ h₂ h₃ h₄
  · rw [readInteger] at h
    split_ifs at h
    obtain rfl := Except.error.inj h
    exact .here hd (by rw [h₃]; decide)
  · have hnum : ¬ numeric (buf.getD d.start 0) := by rw [h₄]; decide
    rw [closeSequence] at h
    split at h
    · obtain rfl := Except.error.inj h
      exact .here hd hnum
    · dsimp only at h
      split_ifs at h with h₅ h₆
      · obtain rfl := Except.error.inj h
        exact .here hd hnum
      · rw [List.length_append, List.length_singleton] at h₆
        omega
  · exact stopped_of_readString hd h

end Decoder

namespace Zipper

variable {buf : List UInt8} {depthLimit tokenLimit : ℤ} {z : Zipper}

/-- The next byte is taken for the first digit of a length prefix. -/
def AtPrefix (buf : List UInt8) (depthLimit tokenLimit : ℤ) (z : Zipper) : Prop :=
  (z.frames.length : ℤ) < depthLimit ∧ (z.tokens.length : ℤ) < tokenLimit ∧
    ∃ t ∈ buf[z.bytes.length]?, numeric t

/-- Every failing step stops the decoder there. -/
theorem stopped_of_step {rest : List UInt8} {f : Failure} (hbuf : buf = z.bytes ++ rest)
    (hlen : buf.length ≤ maxOffset) (h : (z.decoder tokenLimit).step buf depthLimit = .error f) :
    f.decoder.stack = stackOf z.root 0 z.frames ∧ f.decoder.tokens = z.tokens ∧
      z.bytes.length ≤ f.decoder.start ∧ f.decoder.start ≤ buf.length ∧
      (f.decoder.start = z.bytes.length ↔ ¬ AtPrefix buf depthLimit tokenLimit z) := by
  have hsize : buf.length = z.bytes.length + rest.length := by rw [hbuf, List.length_append]
  have hhere : ∀ d : Decoder, ¬ AtPrefix buf depthLimit tokenLimit z → d.stack = stackOf z.root 0 z.frames →
      d.tokens = z.tokens → d.start = z.bytes.length → d.stack = stackOf z.root 0 z.frames ∧
      d.tokens = z.tokens ∧ z.bytes.length ≤ d.start ∧ d.start ≤ buf.length ∧
      (d.start = z.bytes.length ↔ ¬ AtPrefix buf depthLimit tokenLimit z) := fun d hp h₁ h₂ h₃ =>
    ⟨h₁, h₂, h₃.ge, by omega, iff_of_true h₃ hp⟩
  rw [Decoder.step] at h
  split_ifs at h with h₁ h₂
  · obtain rfl := Except.error.inj h
    refine hhere _ (fun hp => ?_) rfl rfl rfl
    obtain ⟨-, -, t, ht, -⟩ := hp
    have hnone : buf[z.bytes.length]? = none := List.getElem?_eq_none h₁
    rw [hnone] at ht
    cases ht
  · obtain rfl := Except.error.inj h
    refine hhere _ (fun hp => ?_) rfl rfl rfl
    rw [decoder, length_stackOf] at h₂
    exact absurd hp.1 (not_lt.mpr h₂)
  · change (if (z.counted tokenLimit).tokenLimit < 0 then _ else if (z.counted tokenLimit).inKey ∧
      ¬ numeric (buf.getD z.bytes.length 0) ∧ buf.getD z.bytes.length 0 ≠ ascii 'e' then _ else
        ((z.counted tokenLimit).readToken buf (buf.getD z.bytes.length 0)).map _) = _ at h
    have hlt : z.bytes.length < buf.length := Nat.lt_of_not_le h₁
    have hget : buf[z.bytes.length]? = some (buf.getD z.bytes.length 0) := by
      rw [List.getD_eq_getElem?_getD, List.getElem?_eq_getElem hlt]
      rfl
    have hlimit : (z.counted tokenLimit).tokenLimit = tokenLimit - z.tokens.length - 1 := rfl
    split_ifs at h with h₃ h₄
    · obtain rfl := Except.error.inj h
      exact hhere _ (fun hp => by have := hp.2.1; omega) rfl rfl rfl
    · obtain rfl := Except.error.inj h
      refine hhere _ (fun hp => ?_) rfl rfl rfl
      obtain ⟨-, -, t, ht, hnum⟩ := hp
      rw [hget] at ht
      exact h₄.2.1 (Option.some.inj ht ▸ hnum)
    · rcases hread : (z.counted tokenLimit).readToken buf (buf.getD z.bytes.length 0) with f' | d'
      · rw [hread] at h
        obtain rfl := Except.error.inj h
        have hcount : (z.counted tokenLimit).tokens.length < maxNextItem := by
          have hle : z.tokens.length ≤ z.bytes.length := length_tokensOf_le z.root z.frames
          change z.tokens.length < maxNextItem
          rw [maxOffset] at hlen
          rw [maxNextItem]
          omega
        obtain ⟨g₁, g₂, g₃, g₄, g₅⟩ := Decoder.stopped_of_readToken (d := z.counted tokenLimit) hlt hcount hread
        rw [decoder, length_stackOf, not_le] at h₂
        refine ⟨g₁, g₂, g₃, g₄, g₅.trans (not_congr ⟨fun hnum => ⟨h₂, by omega, _, hget, hnum⟩, ?_⟩)⟩
        rintro ⟨-, -, t, ht, hnum⟩
        rw [hget] at ht
        exact Option.some.inj ht ▸ hnum
      · rw [hread] at h
        cases h

/-- The lists and dictionaries of `z` are open at the beginning of the buffer, and no further token can
be read. -/
structure Stops (buf : List UInt8) (depthLimit tokenLimit : ℤ) (z : Zipper) : Prop where
  root : z.root = []
  good : z.Good depthLimit
  bytes : ∃ rest, buf = z.bytes ++ rest
  depth : (z.frames.length : ℤ) ≤ depthLimit
  count : (z.tokens.length : ℤ) ≤ tokenLimit
  stops : (z.frames.length : ℤ) < depthLimit → (z.tokens.length : ℤ) < tokenLimit → ∀ z', ¬ Turn buf z z'

theorem Stops.step (h : Stops buf depthLimit tokenLimit z) (hlen : buf.length ≤ maxOffset) :
    ∃ f, (z.decoder tokenLimit).step buf depthLimit = .error f := by
  obtain ⟨rest, hbuf⟩ := h.bytes
  rcases hs : (z.decoder tokenLimit).step buf depthLimit with f | d
  · exact ⟨f, rfl⟩
  · obtain ⟨hd, ht, z', hturn, -⟩ := turn_of_step hbuf hlen hs
    exact absurd hturn (h.stops hd ht z')

/-- The loop gets to open sequences, with a turn for every token. -/
theorem loop_reaches (hlen : buf.length ≤ maxOffset) {fs : List OpenSequence} {rest : List UInt8}
    (hgood : GoodFrames depthLimit fs) (hbuf : buf = bytesOf [] fs ++ rest)
    (hdepth : (fs.length : ℤ) ≤ depthLimit) (hcount : ((tokensOf [] fs).length : ℤ) ≤ tokenLimit) (fuel : ℕ) :
    Decoder.loop buf depthLimit (fuel + (tokensOf [] fs).length) ((⟨[], []⟩ : Zipper).decoder tokenLimit) =
      Decoder.loop buf depthLimit fuel ((⟨[], fs⟩ : Zipper).decoder tokenLimit) := by
  induction fs generalizing rest fuel with
  | nil => rfl
  | cons o fs ih =>
    obtain ⟨hv, hdepths, hkeys, hodd, hgood⟩ := hgood
    obtain ⟨isDict, items⟩ := o
    have hlength := length_tokensOf_cons [] ⟨isDict, items⟩ fs
    rw [List.length_cons] at hdepth
    dsimp only at hlength
    push_cast at hdepth
    rw [bytesOf, List.append_assoc, List.cons_append] at hbuf
    have hkey : ¬ (⟨[], fs⟩ : Zipper).keyNext := by
      rintro ⟨o, ho, hdict, heven⟩
      have := hodd o ho hdict
      omega
    have henter : Turn buf ⟨[], fs⟩ ((⟨[], fs⟩ : Zipper).enter isDict) := .enter isDict hbuf hkey
    have hopen : ((⟨[], fs⟩ : Zipper).enter isDict).frames ≠ [] := List.cons_ne_nil _ _
    have hcount' : (((⟨[], fs⟩ : Zipper).enter isDict).tokens.length + tokenCountAll items : ℤ) ≤ tokenLimit := by
      have hone : ((⟨[], fs⟩ : Zipper).enter isDict).tokens.length = (tokensOf [] fs).length + 1 :=
        henter.tokens_length
      omega
    have hread := readsAll hlen items ((⟨[], fs⟩ : Zipper).enter isDict) ⟨isDict, []⟩ fs rest rfl
      (by rw [hbuf, bytes_enter, List.append_assoc, List.singleton_append]; rfl) hv hdepths hcount' hkeys fuel
    rw [hlength, show fuel + ((tokensOf [] fs).length + 1 + tokenCountAll items) =
      fuel + tokenCountAll items + 1 + (tokensOf [] fs).length by omega, ih hgood hbuf (by omega) (by omega),
      loop_turn hlen (by change (fs.length : ℤ) < _; omega) (by change ((tokensOf [] fs).length : ℤ) < _; omega)
        henter, if_neg hopen, hread]
    rfl

/-- The loop ends with the error of its last step. -/
theorem Stops.loop (h : Stops buf depthLimit tokenLimit z) (hlen : buf.length ≤ maxOffset) {f : Failure}
    (hf : (z.decoder tokenLimit).step buf depthLimit = .error f) :
    Decoder.loop buf depthLimit (buf.length + 1) ⟨0, [], [], tokenLimit⟩ = .error f := by
  obtain ⟨root, fs⟩ := z
  obtain rfl : root = [] := h.root
  obtain ⟨rest, hbuf⟩ := h.bytes
  have hle := length_tokensOf_le [] fs
  have hsize : buf.length = (bytesOf [] fs).length + rest.length := by
    rw [hbuf, List.length_append]
    rfl
  have hstart : (⟨0, [], [], tokenLimit⟩ : Decoder) = (⟨[], []⟩ : Zipper).decoder tokenLimit :=
    Decoder.ext rfl rfl rfl (Int.sub_zero _).symm
  rw [hstart, show buf.length + 1 = buf.length - (tokensOf [] fs).length + 1 + (tokensOf [] fs).length by omega,
    loop_reaches hlen h.good.2 hbuf h.depth h.count, Decoder.loop, hf]

theorem Turn.length_bytes {z' : Zipper} (ht : Turn buf z z') : z.bytes.length < z'.bytes.length := by
  cases ht with
  | enter isDict hbuf hkey =>
    rw [bytes_enter, List.length_append]
    exact Nat.lt_succ_self _
  | leaf v hleaf hv hbuf hkey =>
    have := v.tokenCount_le
    have := v.tokenCount_pos
    rw [bytes_push, List.length_append]
    omega
  | leave o fs hz hbuf hpairs =>
    rw [bytes_leave hz, List.length_append]
    exact Nat.lt_succ_self _

theorem Turn.length_frames {z' : Zipper} (ht : Turn buf z z') : z'.frames.length ≤ z.frames.length + 1 := by
  have hpush : ∀ (z : Zipper) v, (z.push v).frames.length = z.frames.length := by
    rintro ⟨root, - | ⟨o, fs⟩⟩ v <;> rfl
  cases ht with
  | enter isDict hbuf hkey => exact Nat.le_refl _
  | leaf v hleaf hv hbuf hkey =>
    rw [hpush]
    exact Nat.le_succ _
  | leave o fs hz hbuf hpairs =>
    rw [Zipper.leave, hpush, hz, List.length_cons]
    exact (Nat.le_succ fs.length).trans (Nat.le_succ _)

/-- An error comes from a place where the loop stops, or from the very first turn. -/
theorem stops_of_loop (hlen : buf.length ≤ maxOffset) {fuel : ℕ} {rest : List UInt8} {f : Failure}
    (hroot : z.root = []) (hgood : z.Good depthLimit) (hbuf : buf = z.bytes ++ rest)
    (hlimits : z.frames ≠ [] → (z.frames.length : ℤ) ≤ depthLimit ∧ (z.tokens.length : ℤ) ≤ tokenLimit)
    (hfuel : buf.length < fuel + z.bytes.length)
    (h : Decoder.loop buf depthLimit fuel (z.decoder tokenLimit) = .error f) :
    ∃ z', (z'.frames ≠ [] → Stops buf depthLimit tokenLimit z') ∧ z'.root = [] ∧ (∃ rest, buf = z'.bytes ++ rest) ∧
      (z'.decoder tokenLimit).step buf depthLimit = .error f := by
  induction fuel generalizing z rest with
  | zero =>
    rw [hbuf, List.length_append] at hfuel
    omega
  | succ fuel ih =>
    rcases hs : (z.decoder tokenLimit).step buf depthLimit with f' | d
    · rw [Decoder.loop, hs] at h
      obtain rfl := Except.error.inj h
      refine ⟨z, fun hopen => ⟨hroot, hgood, ⟨rest, hbuf⟩, (hlimits hopen).1, (hlimits hopen).2,
        fun hd ht z' hturn => ?_⟩, hroot, ⟨rest, hbuf⟩, hs⟩
      rw [step_of_turn hlen hd ht hturn] at hs
      cases hs
    · obtain ⟨hd, ht, z', hturn, -⟩ := turn_of_step hbuf hlen hs
      rw [loop_turn hlen hd ht hturn] at h
      obtain ⟨rest', hbuf'⟩ := hturn.bytes_prefix
      have hbytes := hturn.length_bytes
      have hframes := hturn.length_frames
      have htokens := hturn.tokens_length
      split_ifs at h with hopen
      rcases hturn.root hroot with ⟨hnil, -⟩ | ⟨-, hroot'⟩
      · exact absurd hnil hopen
      · exact ih hroot' (hturn.good hgood hd) hbuf' (fun _ => ⟨by omega, by omega⟩) (by omega) h

/-- The link of the outermost sequence fits into its 29 bits. -/
def LinksFit (z : Zipper) : Prop :=
  z.tokens.length + (gap z.bytes.length z.frames).length + z.frames.length ≤ 2 ^ 29

/-- Only the innermost dictionary can miss a value. -/
theorem odd_of_good {fs : List OpenSequence} (hgood : GoodFrames depthLimit fs) :
    ∀ o ∈ fs.tail, o.isDict = true → o.items.length % 2 = 1 := by
  induction fs with
  | nil => exact fun o ho => absurd ho List.not_mem_nil
  | cons o fs ih =>
    obtain ⟨-, -, -, hodd, hgood⟩ := hgood
    intro o' ho' hdict
    rcases fs with - | ⟨o₁, fs⟩
    · exact absurd ho' List.not_mem_nil
    · rcases List.mem_cons.mp ho' with rfl | ho'
      · exact hodd o' rfl hdict
      · exact ih hgood o' ho' hdict

/-- The node after an error. -/
theorem faithful_of_step {rest : List UInt8} {f : Failure} (hroot : z.root = []) (hgood : z.Good depthLimit)
    (hopen : z.frames ≠ []) (hbuf : buf = z.bytes ++ rest) (hlen : buf.length ≤ maxOffset)
    (h : (z.decoder tokenLimit).step buf depthLimit = .error f) : (f.decoder.unwind.finish buf).Faithful ↔
      z.LinksFit ∧ ¬ (z.AtPrefix buf depthLimit tokenLimit ∧ EndsInString z.frames) := by
  obtain ⟨root, frames⟩ := z
  obtain rfl : root = [] := hroot
  obtain ⟨o, fs, rfl⟩ := List.exists_cons_of_ne_nil hopen
  obtain ⟨hstack, htokens, hle, hinside, hmoved⟩ := stopped_of_step hbuf hlen h
  have hcount := length_tokens_lt (z := ⟨[], o :: fs⟩) (by
    rw [hbuf, List.length_append] at hlen
    omega)
  have hn : (f.decoder.unwind.finish buf).tokens = brokenTokens [] (o :: fs) f.decoder.start := by
    rw [Decoder.finish, unwind_eq hstack htokens hcount (odd_of_good hgood.2)]
    rfl
  have hlinks := broken_links hn hlen hbuf hgood.2
  have hstrings := broken_strings hn hlen hbuf hgood.2 hle hinside
  have hgap : (gap f.decoder.start (o :: fs)).length = (gap (bytesOf [] (o :: fs)).length (o :: fs)).length := by
    rw [gap, gap]
    split_ifs <;> rfl
  have hfit : (f.decoder.unwind.finish buf).tokens.length ≤ 2 ^ 29 + 1 ↔ LinksFit ⟨[], o :: fs⟩ := by
    rw [broken_length hn, hgap]
    exact Nat.succ_le_succ_iff
  have hsplit : (f.decoder.unwind.finish buf).Faithful ↔
      (∀ i < (f.decoder.unwind.finish buf).tokens.length, (f.decoder.unwind.finish buf).SoundLink i) ∧
      ∀ i < (f.decoder.unwind.finish buf).tokens.length, (f.decoder.unwind.finish buf).SoundString i :=
    ⟨fun h => ⟨fun i hi => (h i hi).1, fun i hi => (h i hi).2⟩, fun h i hi => ⟨h.1 i hi, h.2 i hi⟩⟩
  have hends : f.decoder.start = (bytesOf [] (o :: fs)).length ↔ ¬ AtPrefix buf depthLimit tokenLimit ⟨[], o :: fs⟩ :=
    hmoved
  rw [hsplit, hlinks, hstrings, hfit, hends]
  exact and_congr_right fun _ => ⟨fun h hc => h hc.2 hc.1, fun h hs hp => h ⟨hp, hs⟩⟩

end Zipper

/-- After an error the tree can be relied on, unless the loop stopped in a length prefix that follows a
string, or the link of the outermost sequence does not fit into its 29 bits. -/
theorem bdecode_partial_faithful_iff (buf : List UInt8) (depthLimit tokenLimit : ℤ)
    (herror : (bdecode buf depthLimit tokenLimit).error ≠ .noError)
    (htokens : 1 < (bdecode buf depthLimit tokenLimit).node.tokens.length) :
    (bdecode buf depthLimit tokenLimit).node.Faithful ↔
      ∀ z, Zipper.Stops buf depthLimit tokenLimit z →
        z.LinksFit ∧ ¬ (z.AtPrefix buf depthLimit tokenLimit ∧ Zipper.EndsInString z.frames) := by
  rw [bdecode] at herror htokens ⊢
  split_ifs at herror htokens ⊢ with hsize
  · exact absurd htokens (Nat.not_lt_zero 1)
  have hlen : buf.length ≤ maxOffset := not_lt.mp hsize
  rcases hloop : Decoder.loop buf depthLimit (buf.length + 1) ⟨0, [], [], tokenLimit⟩ with f | d
  · rw [hloop] at htokens
    change 1 < (f.decoder.unwind.finish buf).tokens.length at htokens
    change (f.decoder.unwind.finish buf).Faithful ↔ _
    -- something was read before the error
    have hopen : ∀ z : Zipper, z.root = [] → (∃ rest, buf = z.bytes ++ rest) →
        (z.decoder tokenLimit).step buf depthLimit = .error f → z.frames ≠ [] := by
      rintro ⟨root, fs⟩ hroot ⟨rest, hbuf⟩ hstep hnil
      obtain rfl : root = [] := hroot
      obtain rfl : fs = [] := hnil
      obtain ⟨hstack, htoks, -⟩ := Zipper.stopped_of_step hbuf hlen hstep
      rw [Decoder.finish, Decoder.unwind, hstack, Zipper.stackOf, List.foldl_nil, htoks] at htokens
      exact absurd htokens (Nat.lt_irrefl 1)
    constructor
    · intro hfaithful z hz
      obtain ⟨f', hf'⟩ := hz.step hlen
      have heq := hz.loop hlen hf'
      rw [hloop] at heq
      obtain rfl := Except.error.inj heq
      obtain ⟨rest, hbuf⟩ := hz.bytes
      exact (Zipper.faithful_of_step hz.root hz.good (hopen z hz.root hz.bytes hf') hbuf hlen hf').mp hfaithful
    · intro hall
      have hstart : (⟨0, [], [], tokenLimit⟩ : Decoder) = (⟨[], []⟩ : Zipper).decoder tokenLimit :=
        Decoder.ext rfl rfl rfl (Int.sub_zero _).symm
      rw [hstart] at hloop
      obtain ⟨z, hz, hroot, hbytes, hstep⟩ := Zipper.stops_of_loop (z := ⟨[], []⟩) hlen rfl ⟨by simp, trivial⟩ rfl
        (fun h => absurd rfl h) (Nat.lt_succ_self _) hloop
      have hne := hopen z hroot hbytes hstep
      obtain ⟨rest, hbuf⟩ := hbytes
      exact (Zipper.faithful_of_step hroot (hz hne).good hne hbuf hlen hstep).mpr (hall z (hz hne))
  · rw [hloop] at herror
    exact absurd rfl herror

/-- A list that ends in the middle of an integer, after a string. -/
theorem bdecode_partial_faithful_iff_integer :
    (bdecode [108, 49, 58, 97, 105, 53] 100 2000000).error ≠ .noError ∧
    1 < (bdecode [108, 49, 58, 97, 105, 53] 100 2000000).node.tokens.length ∧
    ((bdecode [108, 49, 58, 97, 105, 53] 100 2000000).node.Faithful ↔
      ∀ z, Zipper.Stops [108, 49, 58, 97, 105, 53] 100 2000000 z → z.LinksFit ∧
        ¬ (z.AtPrefix [108, 49, 58, 97, 105, 53] 100 2000000 ∧ Zipper.EndsInString z.frames)) :=
  ⟨by decide +kernel, by decide +kernel,
    bdecode_partial_faithful_iff _ _ _ (by decide +kernel) (by decide +kernel)⟩

/-- The same with a length prefix instead of the integer: its digit becomes a part of the string. -/
theorem bdecode_partial_prefix : ¬ ∀ (buf : List UInt8) (depthLimit tokenLimit : ℤ),
    (bdecode buf depthLimit tokenLimit).error ≠ .noError →
    1 < (bdecode buf depthLimit tokenLimit).node.tokens.length →
    (bdecode buf depthLimit tokenLimit).node.Faithful := by
  intro h
  have hsound := (h [108, 49, 58, 97, 53] 100 2000000 (by decide +kernel) (by decide +kernel) 1
    (by decide +kernel)).2 (by decide +kernel)
  revert hsound
  decide +kernel

end Bencode

end LibtorrentSN
