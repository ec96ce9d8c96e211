import LibtorrentSN.Bencode.Node

/-!
# Bencoding: what `bdecode` returns

`bdecode` succeeds on exactly the buffers that begin with a value of the grammar, within the limits.
The node it returns shows that value (`Shows`): the items of every list and dictionary are found in
their order, whatever calls were made on the node before.
-/

namespace LibtorrentSN

namespace Bencode

open Value

namespace BdecodeNode

/-- `n'` is the node `n` after some calls that look at its items, each with an index in range. -/
inductive Used (n : BdecodeNode) : BdecodeNode → Prop
  | refl : Used n n
  | listSize {n' : BdecodeNode} (h : Used n n') (ht : n'.type = .list) : Used n n'.listSize.2
  | listAt {n' : BdecodeNode} {i size : ℕ} (h : Used n n') (ht : n'.type = .list)
      (hs : n'.listSize.1 = some size) (hi : i < size) : Used n (n'.listAt i).2
  | dictSize {n' : BdecodeNode} (h : Used n n') (ht : n'.type = .dict) : Used n n'.dictSize.2
  | dictAt {n' : BdecodeNode} {i size : ℕ} (h : Used n n') (ht : n'.type = .dict)
      (hs : n'.dictSize.1 = some size) (hi : i < size) : Used n (n'.dictAt i).2

/-- The link of a list or dictionary with `k` items leads past its end, which is where the links of
the items lead to. -/
def Closed (n : BdecodeNode) (k : ℕ) : Prop :=
  n.skip k (n.idx + 1) + 1 = n.idx + (n.token n.idx).nextItem ∧
    (n.token (n.skip k (n.idx + 1))).type = .endToken

/-- What the node says about itself is the value. -/
inductive Shows : BdecodeNode → Value → Prop
  | int {n : BdecodeNode} {negative : Bool} {digits : List UInt8} (ht : n.type = .integer) :
      Shows n (.int negative digits)
  | str {n : BdecodeNode} {l b : List UInt8} (ht : n.type = .string) (hb : n.stringValue = b) :
      Shows n (.str l b)
  | list {n : BdecodeNode} {items : List Value} (ht : n.type = .list) (hc : n.Closed items.length)
      (hsize : ∀ n', n.Used n' → n'.listSize.1 = some items.length)
      (hitems : ∀ n' i v, n.Used n' → items[i]? = some v → Shows (n'.listAt i).1 v) :
      Shows n (.list items)
  | dict {n : BdecodeNode} {items : List Value} (ht : n.type = .dict) (hc : n.Closed items.length)
      (hsize : ∀ n', n.Used n' → ∃ k, items.length = 2 * k ∧ n'.dictSize.1 = some k)
      (hkeys : ∀ n' i, n.Used n' → 2 * i < items.length →
        ∃ l, items[2 * i]? = some (.str l (n'.dictAt i).1.1))
      (hitems : ∀ n' i v, n.Used n' → items[2 * i + 1]? = some v → Shows (n'.dictAt i).1.2 v) :
      Shows n (.dict items)

/-- Nothing has been looked up yet. -/
def Fresh (n : BdecodeNode) : Prop := n.lastIndex = none ∧ n.size = none

variable {n n' : BdecodeNode} {v : Value} {items : List Value} {w : ℕ}

theorem child_fresh (n : BdecodeNode) (token : ℕ) : (n.child token).Fresh := ⟨rfl, rfl⟩

theorem IsNode.hasItems (isDict : Bool) (h : n.IsNode (.sequence isDict items)) (hf : n.Fresh)
    (w : ℕ) : n.HasItems w items := by
  obtain ⟨off, hidx, h⟩ := h
  obtain ⟨h₁, h₂⟩ := h.items
  refine ⟨⟨fun last hl => ?_, fun size hs => ?_⟩, hidx, ⟨off + 1, h₁⟩, h₂⟩
  · rw [hf.1] at hl
    cases hl
  · rw [hf.2] at hs
    cases hs

theorem IsNode.closed (isDict : Bool) (h : n.IsNode (.sequence isDict items)) :
    n.Closed items.length := by
  obtain ⟨off, hidx, h⟩ := h
  obtain ⟨h₁, h₂⟩ := h.items
  have hskip := skip_items h₁ (j := 0) (k := items.length) (by omega)
  rw [List.take_zero, tokenCountAll, Nat.add_zero, Nat.zero_add, List.take_length] at hskip
  obtain ⟨t, ht, hend⟩ := Option.map_eq_some_iff.mp h₂
  rw [Closed, hskip, (first_of_holds h).2.1, tokenCount_sequence]
  refine ⟨by omega, ?_⟩
  rw [token, List.getD_eq_getElem?_getD, ht]
  exact hend

/-- The node of the item `j`. -/
theorem HasItems.child (h : n.HasItems w items) {j : ℕ} (hj : items[j]? = some v) :
    (n.child (n.itemToken items j)).IsNode v := by
  obtain ⟨off, hh⟩ := h.holds
  exact ⟨_, rfl, hh.getElem? hj⟩

theorem dictAt_eq (n : BdecodeNode) (i : ℕ) : n.dictAt i =
    (((n.dictAtNode i).1.1.stringValue, (n.dictAtNode i).1.2), (n.dictAtNode i).2) := rfl

theorem listSize_type (n : BdecodeNode) : n.listSize.2.type = n.type := by
  rw [listSize]
  split <;> rfl

theorem dictSize_type (n : BdecodeNode) : n.dictSize.2.type = n.type := by
  rw [dictSize]
  split <;> rfl

theorem dictAt_type (n : BdecodeNode) (i : ℕ) : (n.dictAt i).2.type = n.type := by
  simp only [dictAt, dictAtNode]
  split <;> rfl

/-- Calls on a list leave what it remembers in order. -/
theorem Used.list (h : n.Used n') (ht : n.type = .list) (hn : n.HasItems 1 items) :
    n'.HasItems 1 items ∧ n'.type = .list := by
  induction h with
  | refl => exact ⟨hn, ht⟩
  | listSize h htype ih => exact ⟨ih.1.listSize.2, (listSize_type _).trans ih.2⟩
  | listAt h htype hs hi ih =>
    rw [ih.1.listSize.1] at hs
    exact ⟨(ih.1.listAt (Option.some.inj hs ▸ hi)).2, ih.2⟩
  | dictSize h htype ih =>
    rw [ih.2] at htype
    cases htype
  | dictAt h htype hs hi ih =>
    rw [ih.2] at htype
    cases htype

theorem Used.dict (h : n.Used n') (ht : n.type = .dict) {k : ℕ} (hk : items.length = 2 * k)
    (hn : n.HasItems 2 items) : n'.HasItems 2 items ∧ n'.type = .dict := by
  induction h with
  | refl => exact ⟨hn, ht⟩
  | listSize h htype ih =>
    rw [ih.2] at htype
    cases htype
  | listAt h htype hs hi ih =>
    rw [ih.2] at htype
    cases htype
  | dictSize h htype ih => exact ⟨(ih.1.dictSize hk).2, (dictSize_type _).trans ih.2⟩
  | dictAt h htype hs hi ih =>
    rw [(ih.1.dictSize hk).1] at hs
    obtain rfl := Option.some.inj hs
    exact ⟨(ih.1.dictAtNode (by omega)).2, (dictAt_type _ _).trans ih.2⟩

theorem shows_list (h : n.IsNode (.list items)) (hf : n.Fresh)
    (hitems : ∀ v ∈ items, ∀ n : BdecodeNode, n.IsNode v → n.Fresh → n.Shows v) :
    n.Shows (.list items) := by
  have hn : n.HasItems 1 items := IsNode.hasItems false h hf 1
  refine .list h.type_eq (IsNode.closed false h)
    (fun n' hu => (hu.list h.type_eq hn).1.listSize.1) fun n' i v hu hv => ?_
  have hn' := (hu.list h.type_eq hn).1
  rw [(hn'.listAt (List.getElem?_eq_some_iff.mp hv).1).1]
  exact hitems v (List.mem_of_getElem? hv) _ (hn'.child hv) (child_fresh n' _)

theorem shows_dict (h : n.IsNode (.dict items)) (hf : n.Fresh) (hv : (Value.dict items).Valid)
    (hitems : ∀ v ∈ items, ∀ n : BdecodeNode, n.IsNode v → n.Fresh → n.Shows v) :
    n.Shows (.dict items) := by
  have hn : n.HasItems 2 items := IsNode.hasItems true h hf 2
  obtain ⟨hmem, hv⟩ := hv
  obtain ⟨heven, hkeys⟩ := Zipper.members_iff.mp hmem
  obtain ⟨k, hk⟩ : ∃ k, items.length = 2 * k := ⟨items.length / 2, by omega⟩
  have hused := fun n' (hu : n.Used n') => (hu.dict h.type_eq hk hn).1
  refine .dict h.type_eq (IsNode.closed true h)
    (fun n' hu => ⟨k, hk, ((hused n' hu).dictSize hk).1⟩) (fun n' i hu hi => ?_)
    fun n' i v hu hv => ?_
  · obtain ⟨v, hv'⟩ : ∃ v, items[2 * i]? = some v := ⟨_, List.getElem?_eq_getElem hi⟩
    obtain ⟨l, b, rfl⟩ := hkeys (2 * i) v hv' (by omega)
    refine ⟨l, ?_⟩
    have hvalid := validAll_iff.mp hv _ (List.mem_of_getElem? hv')
    rw [dictAt_eq, ((hused n' hu).dictAtNode (i := i) (by omega)).1]
    dsimp only
    rw [((hused n' hu).child hv').stringValue_eq hvalid]
    exact hv'
  · have hlt := (List.getElem?_eq_some_iff.mp hv).1
    have hdict := ((hused n' hu).dictAtNode hlt).1
    rw [dictAt_eq, hdict]
    exact hitems v (List.mem_of_getElem? hv) _ ((hused n' hu).child hv) (child_fresh n' _)

mutual

/-- A node of a value shows the value. -/
theorem shows_of_isNode : ∀ (v : Value) (n : BdecodeNode), n.IsNode v → n.Fresh → v.Valid → n.Shows v
  | .int _ _, _, h, _, _ => .int h.type_eq
  | .str _ _, _, h, _, hv => .str h.type_eq (h.stringValue_eq hv)
  | .list items, _, h, hf, hv => shows_list h hf fun v hmem n hn hf =>
      showsAll_of_isNode items v hmem n hn hf (validAll_iff.mp hv v hmem)
  | .dict items, _, h, hf, hv => shows_dict h hf hv fun v hmem n hn hf =>
      showsAll_of_isNode items v hmem n hn hf (validAll_iff.mp hv.2 v hmem)

theorem showsAll_of_isNode : ∀ (vs : List Value) (v : Value), v ∈ vs →
    ∀ n : BdecodeNode, n.IsNode v → n.Fresh → v.Valid → n.Shows v
  | [], _, hmem, _, _, _, _ => absurd hmem List.not_mem_nil
  | w :: ws, v, hmem, n, hn, hf, hv =>
    (List.mem_cons.mp hmem).elim (fun h => h ▸ shows_of_isNode w n (h ▸ hn) hf (h ▸ hv))
      fun h => showsAll_of_isNode ws v h n hn hf hv

end

end BdecodeNode

/-! ## Errors -/

namespace Decoder

variable {buf : List UInt8} {d : Decoder} {f : Failure} {depthLimit : ℤ}

/-- A failure has an error code. -/
def FailsWithError (r : Except Failure Decoder) : Prop := ∀ f, r = .error f → f.error ≠ .noError

theorem fail_withError (d : Decoder) {e : ErrorCode} (he : e ≠ .noError) :
    FailsWithError (d.fail e) := by
  rintro f ⟨rfl⟩
  exact he

theorem ok_withError (d : Decoder) : FailsWithError (.ok d) := by
  rintro f ⟨⟩

theorem readToken_withError (buf : List UInt8) (d : Decoder) (t : UInt8) :
    FailsWithError (d.readToken buf t) := by
  rw [readToken]
  split_ifs
  · exact ok_withError _
  · exact ok_withError _
  · rw [readInteger]
    split_ifs with he
    · rintro f ⟨rfl⟩
      exact he
    · exact ok_withError _
  · rw [closeSequence]
    split
    · exact fail_withError _ (by decide)
    · dsimp only
      split_ifs
      · exact fail_withError _ (by decide)
      · exact fail_withError _ (by decide)
      · exact ok_withError _
  · rw [readString]
    dsimp only
    split_ifs with h₁ h₂ h₃ h₄ h₅ h₆ h₇
    · exact fail_withError _ (by decide)
    · exact fail_withError _ h₃
    · exact fail_withError _ (by decide)
    · exact fail_withError _ (by decide)
    · exact fail_withError _ (by decide)
    · exact fail_withError _ (by decide)
    · exact ok_withError _
    · exact fail_withError _ (by decide)

theorem step_withError (buf : List UInt8) (d : Decoder) (depthLimit : ℤ) :
    FailsWithError (d.step buf depthLimit) := by
  rw [step]
  dsimp only
  split_ifs
  · exact fail_withError _ (by decide)
  · exact fail_withError _ (by decide)
  · exact fail_withError _ (by decide)
  · exact fail_withError _ (by decide)
  · intro f hf
    set d' : Decoder := { d with tokenLimit := d.tokenLimit - 1 }
    rcases hr : d'.readToken buf (buf.getD d.start 0) with f' | d₁
    · rw [hr] at hf
      cases hf
      exact readToken_withError _ _ _ _ hr
    · rw [hr] at hf
      cases hf

theorem loop_withError (buf : List UInt8) (depthLimit : ℤ) (fuel : ℕ) (d : Decoder) :
    FailsWithError (loop buf depthLimit fuel d) := by
  induction fuel generalizing d with
  | zero => exact fail_withError _ (by decide)
  | succ fuel ih =>
    rw [loop]
    rcases hs : d.step buf depthLimit with f | d₁
    · rintro f' ⟨rfl⟩
      exact step_withError _ _ _ _ hs
    · dsimp only
      split_ifs
      · exact ok_withError _
      · exact ih d₁

end Decoder

/-! ## `bdecode` -/

section Bdecode
variable {buf rest : List UInt8} {depthLimit tokenLimit : ℤ} {v : Value}

/-- The buffer begins with the value `v`, which keeps to the limits. -/
structure Begins (buf : List UInt8) (depthLimit tokenLimit : ℤ) (v : Value) : Prop where
  encode : ∃ rest, buf = v.encode ++ rest
  valid : v.Valid
  depth : (v.depth : ℤ) < depthLimit
  tokenCount : (v.tokenCount : ℤ) ≤ tokenLimit

theorem finish_isNode (hlen : buf.length ≤ maxOffset) (hbuf : buf = v.encode ++ rest) :
    ((Zipper.done v tokenLimit).finish buf).IsNode v := by
  have hbytes : Zipper.bytes ⟨[v], []⟩ = v.encode := encodeAll_singleton v
  refine ⟨0, rfl, hlen, ⟨[], rest, ?_, rfl⟩, [], [], _, rfl, rfl, ?_⟩
  · rw [List.nil_append, encodeAll_singleton]
    exact hbuf
  · change (Zipper.bytes ⟨[v], []⟩).length % 2 ^ 29 = _
    rw [hbytes, encodeAll_singleton, Nat.zero_add]
    refine Nat.mod_eq_of_lt ?_
    rw [hbuf, List.length_append, maxOffset] at hlen
    omega

/-- What `bdecode` makes of a buffer that begins with a value. -/
theorem bdecode_of_begins (hlen : buf.length ≤ maxOffset) (h : Begins buf depthLimit tokenLimit v) :
    bdecode buf depthLimit tokenLimit = ⟨(Zipper.done v tokenLimit).finish buf, .noError, none⟩ := by
  obtain ⟨⟨rest, hbuf⟩, hv, hd, ht⟩ := h
  rw [bdecode, if_neg (Nat.not_lt.mpr hlen),
    (Zipper.loop_eq_ok hlen).mpr ⟨v, rest, hbuf, hv, hd, ht, rfl⟩]

theorem begins_of_bdecode (hlen : buf.length ≤ maxOffset)
    (h : (bdecode buf depthLimit tokenLimit).error = .noError) :
    ∃ v, Begins buf depthLimit tokenLimit v := by
  rw [bdecode, if_neg (Nat.not_lt.mpr hlen)] at h
  rcases hloop : Decoder.loop buf depthLimit (buf.length + 1) ⟨0, [], [], tokenLimit⟩ with f | d
  · rw [hloop] at h
    exact absurd h (Decoder.loop_withError _ _ _ _ f hloop)
  · obtain ⟨v, rest, hbuf, hv, hd, ht, -⟩ := (Zipper.loop_eq_ok hlen).mp hloop
    exact ⟨v, ⟨rest, hbuf⟩, hv, hd, ht⟩

/-- `bdecode` accepts exactly the grammar, and returns the value it read. -/
theorem bdecode_grammar (buf : List UInt8) (hlen : buf.length ≤ 2 ^ 29 - 1)
    (depthLimit tokenLimit : ℤ) :
    ((bdecode buf depthLimit tokenLimit).error = .noError ↔
      ∃ v, Begins buf depthLimit tokenLimit v) ∧
    ((bdecode buf depthLimit tokenLimit).error = .noError →
      ∃ v, Begins buf depthLimit tokenLimit v ∧
        (bdecode buf depthLimit tokenLimit).node.Shows v) := by
  refine ⟨⟨begins_of_bdecode hlen, ?_⟩, fun h => ?_⟩
  · rintro ⟨v, hv⟩
    rw [bdecode_of_begins hlen hv]
  · obtain ⟨v, hv⟩ := begins_of_bdecode hlen h
    obtain ⟨rest, hbuf⟩ := hv.encode
    refine ⟨v, hv, ?_⟩
    rw [bdecode_of_begins hlen hv]
    exact BdecodeNode.shows_of_isNode v _ (finish_isNode hlen hbuf) ⟨rfl, rfl⟩ hv.valid

/-- A dictionary with one key, whose value is a list: all of it is read, and the byte after it is
not. -/
theorem bdecode_grammar_dict :
    ([100, 49, 58, 97, 108, 105, 48, 55, 101, 101, 101, 120] : List UInt8).length ≤ 2 ^ 29 - 1 ∧
    ∃ v, Begins [100, 49, 58, 97, 108, 105, 48, 55, 101, 101, 101, 120] 3 7 v ∧
      (bdecode [100, 49, 58, 97, 108, 105, 48, 55, 101, 101, 101, 120] 3 7).node.Shows v := by
  have h := bdecode_grammar [100, 49, 58, 97, 108, 105, 48, 55, 101, 101, 101, 120] (by decide) 3 7
  exact ⟨by decide, h.2 (by decide +kernel)⟩

end Bdecode

end Bencode

end LibtorrentSN
