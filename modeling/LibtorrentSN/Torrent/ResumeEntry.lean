import LibtorrentSN.Torrent.ResumeData

/-!
# Resume data: the dictionary

What `bencode` writes of the dictionary is a value of the grammar, `resumeValue`, and a look-up in it
finds what was assigned to the key. An info section is copied as it is; the value `info` stands for it.
-/

namespace LibtorrentSN

namespace Torrent

namespace ResumeData

open Bencode (ascii Value Entry assign bencode bencodeRecursive bencodeList bencodeDict bencodeString
  integerToStr digitsOf decimal maxOffset)
open Info (key dictFind dictFindString dictFindList dictFindIntValue intValue findAt)

/-! ## Assignments -/

section Fields
variable {k k' : List UInt8} {e : Entry} {d : List (List UInt8 × Entry)}

/-- The entry of a key. -/
def fieldOf (k : List UInt8) (d : List (List UInt8 × Entry)) : Option Entry :=
  (d.find? (·.1 = k)).map Prod.snd

theorem fieldOf_cons (k : List UInt8) (f : List UInt8 × Entry) (d : List (List UInt8 × Entry)) :
    fieldOf k (f :: d) = if f.1 = k then some f.2 else fieldOf k d := by
  rw [fieldOf, List.find?_cons]
  split <;> simp_all [fieldOf]

theorem fieldOf_assign (k k' : List UInt8) (e : Entry) (d : List (List UInt8 × Entry)) :
    fieldOf k (assign k' e d) = if k' = k then some e else fieldOf k d := by
  induction d with
  | nil => rw [assign, fieldOf_cons]
  | cons f d ih =>
    rw [assign]
    split
    · rw [fieldOf_cons]
    · split
      · next heq =>
        rw [fieldOf_cons, fieldOf_cons, heq]
        split <;> rfl
      · next hne =>
        rw [fieldOf_cons, fieldOf_cons, ih]
        split
        · next hf => rw [if_neg fun h => hne (h.trans hf.symm)]
        · rfl

variable {fields : List (String × Option Entry)} {f : String × Option Entry}

theorem fieldOf_setField (k : List UInt8) (d : List (List UInt8 × Entry))
    (f : String × Option Entry) (h : key f.1 ≠ k) : fieldOf k (setField d f) = fieldOf k d := by
  rw [setField]
  split
  · rw [fieldOf_assign, if_neg h]
  · rfl

theorem fieldOf_foldl (h : ∀ f ∈ fields, key f.1 ≠ k) :
    fieldOf k (fields.foldl setField d) = fieldOf k d := by
  induction fields generalizing d with
  | nil => rfl
  | cons f fields ih =>
    obtain ⟨h₁, h₂⟩ := List.forall_mem_cons.mp h
    rw [List.foldl_cons, ih h₂, fieldOf_setField k d f h₁]

/-- The keys are different, so that each has what was assigned to it. -/
theorem fieldOf_fields (hkeys : (fields.map fun f => key f.1).Nodup) (hf : f ∈ fields)
    (hd : fieldOf (key f.1) d = none) : fieldOf (key f.1) (fields.foldl setField d) = f.2 := by
  induction fields generalizing d with
  | nil => cases hf
  | cons f' fields ih =>
    rw [List.map_cons, List.nodup_cons] at hkeys
    obtain ⟨hnew, hkeys⟩ := hkeys
    rw [List.foldl_cons]
    rcases List.mem_cons.mp hf with rfl | hf
    · have hne : ∀ f' ∈ fields, key f'.1 ≠ key f.1 := fun f' hf' heq =>
        hnew (List.mem_map.mpr ⟨f', hf', heq⟩)
      rw [fieldOf_foldl hne, setField]
      split
      · next e he => rw [fieldOf_assign, if_pos rfl, he]
      · next he => rw [hd, he]
    · refine ih hkeys hf ?_
      rw [fieldOf_setField _ _ _ fun heq => hnew (List.mem_map.mpr ⟨f, hf, heq.symm⟩), hd]

end Fields

/-! ## What is written -/

section Written
variable {info : Value} {e : Entry} {es : List Entry} {d : List (List UInt8 × Entry)}

/-- The value of an item of a list. -/
def itemValue : Entry → Value
  | .undefined => .str [ascii '0'] []
  | e => e.value

/-- The value of a field. -/
def fieldValue (info : Value) : Entry → Value
  | .preformatted _ => info
  | .list es => .list (es.map itemValue)
  | e => e.value

/-- An integer of 64 bits, or an entry that is plain. -/
def Fits64 : Entry → Prop
  | .int val => -2 ^ 63 ≤ val ∧ val < 2 ^ 63
  | e => e.Plain

/-- The field can be written. -/
def FieldFits (info : Value) : Entry → Prop
  | .preformatted bytes => bytes = info.encode ∧ info.Valid
  | .list es => ∀ e ∈ es, e = .undefined ∨ e.Plain
  | e => Fits64 e

/-- The members of the dictionary. -/
def fieldMembers (info : Value) (d : List (List UInt8 × Entry)) : List Value :=
  d.flatMap fun f => [.str (integerToStr f.1.length) f.1, fieldValue info f.2]

/-- The value of the whole dictionary. -/
def resumeValue (info : Value) (p : AddTorrentParams) : Value :=
  .dict (fieldMembers info ((resumeFields p).foldl setField []))

theorem integerToStr_min : integerToStr (-2 ^ 63) = ascii '-' :: digitsOf (-2 ^ 63) ∧
    (∀ c ∈ digitsOf (-2 ^ 63), Bencode.numeric c) ∧ (digitsOf (-2 ^ 63)).length = 19 ∧
    decimal (digitsOf (-2 ^ 63)) = 2 ^ 63 := by
  have hdigits : integerToStr (-2 ^ 63) = [45, 57, 50, 50, 51, 51, 55, 50, 48, 51, 54, 56, 53, 52, 55, 55, 53, 56, 48, 56] := by
    decide +kernel
  have hpow : (2 : ℕ) ^ 63 = 9223372036854775808 := by norm_num
  rw [digitsOf, hdigits, hpow]
  decide +kernel

theorem bencode_int {val : ℤ} (h₁ : -2 ^ 63 ≤ val) (h₂ : val < 2 ^ 63) (out : List UInt8) :
    bencodeRecursive out (.int val) =
      (out ++ (Entry.int val).value.encode, (Entry.int val).value.encode.length) := by
  rcases h₁.lt_or_eq with h₁ | rfl
  · exact Entry.bencodeRecursive_eq (.int val) out ⟨h₁, h₂⟩
  · simp only [bencodeRecursive, Bencode.writeChar, Bencode.writeInteger, Entry.value,
      Bencode.Decoder.encode_int, integerToStr_min.1, List.append_assoc, List.cons_append,
      List.length_append, List.length_cons, List.length_nil, List.nil_append]
    rfl

theorem bencodeList_items (h : ∀ e ∈ es, e = .undefined ∨ e.Plain) (out : List UInt8) :
    bencodeList out es = (out ++ Value.encodeAll (es.map itemValue),
      (Value.encodeAll (es.map itemValue)).length) := by
  induction es generalizing out with
  | nil =>
    rw [bencodeList, List.map_nil, Value.encodeAll, List.append_nil]
    rfl
  | cons e es ih =>
    obtain ⟨he, hes⟩ := List.forall_mem_cons.mp h
    have hitem : bencodeRecursive out e = (out ++ (itemValue e).encode, (itemValue e).encode.length) := by
      rcases he with rfl | he
      · simp only [bencodeRecursive, Bencode.writeChar, itemValue, Value.encode, List.append_assoc,
          List.singleton_append]
        rfl
      · rw [Entry.bencodeRecursive_eq e out he]
        cases e with
        | undefined => cases he
        | _ => rfl
    simp only [bencodeList, hitem, ih hes, List.map_cons, Value.encodeAll, List.append_assoc,
      List.length_append]

theorem bencodeRecursive_field (h : FieldFits info e) (out : List UInt8) : bencodeRecursive out e =
    (out ++ (fieldValue info e).encode, (fieldValue info e).encode.length) := by
  cases e with
  | int val => exact bencode_int h.1 h.2 out
  | string val => exact Entry.bencodeRecursive_eq (.string val) out trivial
  | list es =>
    simp only [bencodeRecursive, bencodeList_items h, fieldValue, Value.encode, Bencode.writeChar,
      List.append_assoc, List.cons_append, List.nil_append, List.length_append, List.length_cons,
      List.length_nil]
  | dict val => exact Entry.bencodeRecursive_eq (.dict val) out h
  | preformatted bytes =>
    obtain ⟨rfl, -⟩ := h
    rfl
  | undefined => exact h.elim

theorem bencodeDict_fields (h : ∀ f ∈ d, FieldFits info f.2) (out : List UInt8) :
    bencodeDict out d = (out ++ Value.encodeAll (fieldMembers info d),
      (Value.encodeAll (fieldMembers info d)).length) := by
  induction d generalizing out with
  | nil =>
    rw [bencodeDict, fieldMembers, List.flatMap_nil, Value.encodeAll, List.append_nil]
    rfl
  | cons f d ih =>
    obtain ⟨hf, hd⟩ := List.forall_mem_cons.mp h
    have htail : fieldMembers info (f :: d) =
        .str (integerToStr f.1.length) f.1 :: fieldValue info f.2 :: fieldMembers info d := rfl
    simp only [bencodeDict, Entry.bencodeString_eq, bencodeRecursive_field hf, ih hd, htail,
      Value.encodeAll, List.append_assoc, List.length_append, Nat.add_assoc]

/-! ## The value is one of the grammar -/

theorem itemValue_valid (h : e = .undefined ∨ e.Plain)
    (hlen : (itemValue e).encode.length ≤ maxOffset) : (itemValue e).Valid := by
  rcases h with rfl | h
  · rw [itemValue, Value.Valid]
    decide +kernel
  · cases e with
    | undefined => cases h
    | _ => exact Entry.value_valid _ h hlen

theorem items_valid (h : ∀ e ∈ es, e = .undefined ∨ e.Plain)
    (hlen : (Value.encodeAll (es.map itemValue)).length ≤ maxOffset) :
    Value.ValidAll (es.map itemValue) := by
  induction es with
  | nil => trivial
  | cons e es ih =>
    obtain ⟨he, hes⟩ := List.forall_mem_cons.mp h
    rw [List.map_cons, Value.encodeAll, List.length_append] at hlen
    exact ⟨itemValue_valid he (by omega), ih hes (by omega)⟩

theorem int_valid {val : ℤ} (h₁ : -2 ^ 63 ≤ val) (h₂ : val < 2 ^ 63) : (Entry.int val).value.Valid := by
  rw [Entry.value, Value.Valid]
  rcases h₁.lt_or_eq with h₁ | rfl
  · have hd := (Bencode.integerToStr_spec h₁ h₂).2
    exact ⟨hd.numeric, hd.pos, hd.length 20 (by decide) (by omega)⟩
  · obtain ⟨-, hnum, hlen, -⟩ := integerToStr_min
    rw [hlen]
    exact ⟨hnum, by decide, by decide⟩

theorem fieldValue_valid (h : FieldFits info e)
    (hlen : (fieldValue info e).encode.length ≤ maxOffset) : (fieldValue info e).Valid := by
  cases e with
  | int val =>
    exact int_valid h.1 h.2
  | string val => exact Entry.value_valid (.string val) trivial hlen
  | list es =>
    rw [fieldValue, Value.encode, List.length_cons, List.length_append] at hlen
    exact items_valid h (by omega)
  | dict val => exact Entry.value_valid (.dict val) h hlen
  | preformatted bytes => exact h.2
  | undefined => exact h.elim

theorem fieldMembers_members (d : List (List UInt8 × Entry)) :
    Bencode.members (fieldMembers info d) := by
  induction d with
  | nil => trivial
  | cons f d ih => exact ih

theorem fieldMembers_valid (h : ∀ f ∈ d, FieldFits info f.2)
    (hlen : (Value.encodeAll (fieldMembers info d)).length ≤ maxOffset) :
    Value.ValidAll (fieldMembers info d) := by
  induction d with
  | nil => trivial
  | cons f d ih =>
    obtain ⟨hf, hd⟩ := List.forall_mem_cons.mp h
    have htail : fieldMembers info (f :: d) =
        .str (integerToStr f.1.length) f.1 :: fieldValue info f.2 :: fieldMembers info d := rfl
    rw [htail, Value.encodeAll, Value.encodeAll, List.length_append, List.length_append] at hlen
    rw [htail]
    refine ⟨Entry.str_valid ?_, fieldValue_valid hf (by omega), ih hd (by omega)⟩
    rw [Value.encode, List.length_append, List.length_cons] at hlen
    omega

/-! ## Look-ups -/

theorem intValue_digitsOf {val : ℤ} (h₁ : -2 ^ 63 < val) (h₂ : val < 2 ^ 63) :
    intValue (val < 0) (digitsOf val) = val := by
  have hd := (Bencode.integerToStr_spec h₁ h₂).2.value
  rw [intValue, hd, Bencode.int64Max, if_neg (by omega)]
  by_cases h : val < 0
  · rw [decide_eq_true h, if_pos rfl]
    omega
  · rw [decide_eq_false h, if_neg (by decide)]
    omega

theorem findAt_fieldMembers (k : List UInt8) (off : ℕ) (d : List (List UInt8 × Entry)) :
    (findAt k off (fieldMembers info d)).map Prod.snd = (fieldOf k d).map (fieldValue info) := by
  induction d generalizing off with
  | nil => rfl
  | cons f d ih =>
    have htail : fieldMembers info (f :: d) =
        .str (integerToStr f.1.length) f.1 :: fieldValue info f.2 :: fieldMembers info d := rfl
    rw [htail, findAt, fieldOf_cons]
    split_ifs with h
    · rfl
    · exact ih _

end Written

/-- The keys are different. -/
theorem resumeFields_nodup (p : AddTorrentParams) : ((resumeFields p).map fun f => key f.1).Nodup := by
  simp only [resumeFields, List.map_cons, List.map_nil]
  repeat rw [Info.key_ofList]
  decide +kernel

section Lookup
variable {info : Value} {p : AddTorrentParams} {s : String} {o : Option Entry}

/-- A look-up in the dictionary finds the field. -/
theorem dictFind_field (h : (s, o) ∈ resumeFields p) :
    (dictFind (resumeValue info p) (key s)).map Prod.snd = o.map (fieldValue info) := by
  rw [resumeValue, dictFind, findAt_fieldMembers]
  exact congrArg (Option.map (fieldValue info))
    (fieldOf_fields (resumeFields_nodup p) h rfl)

theorem dictFind_some {e : Entry} (h : (s, some e) ∈ resumeFields p) :
    ∃ off, dictFind (resumeValue info p) (key s) = some (off, fieldValue info e) := by
  obtain ⟨⟨off, v⟩, hfind, rfl⟩ := Option.map_eq_some_iff.mp (dictFind_field h)
  exact ⟨off, hfind⟩

theorem dictFind_none (h : (s, none) ∈ resumeFields p) :
    dictFind (resumeValue info p) (key s) = none :=
  Option.map_eq_none_iff.mp (dictFind_field h)

theorem mem_of_findAt {k : List UInt8} {o : ℕ} {v : Value} : ∀ {off : ℕ} {vs : List Value},
    findAt k off vs = some (o, v) → v ∈ vs
  | off, .str l bytes :: v' :: vs, h => by
    rw [findAt] at h
    split at h
    · obtain ⟨-, rfl⟩ := Prod.mk.inj (Option.some.inj h)
      exact List.mem_cons_of_mem _ List.mem_cons_self
    · exact List.mem_cons_of_mem _ (List.mem_cons_of_mem _ (mem_of_findAt h))

theorem tokenCount_le_tokenCountAll {v : Value} {vs : List Value} (h : v ∈ vs) :
    v.tokenCount ≤ Value.tokenCountAll vs := by
  induction vs with
  | nil => cases h
  | cons w ws ih =>
    rw [Value.tokenCountAll]
    rcases List.mem_cons.mp h with rfl | h
    · exact Nat.le_add_right _ _
    · exact (ih h).trans (Nat.le_add_left _ _)

/-- The tokens of a field are some of those of the dictionary. -/
theorem tokenCount_field_le {e : Entry} (h : (s, some e) ∈ resumeFields p) :
    (fieldValue info e).tokenCount ≤ (resumeValue info p).tokenCount := by
  obtain ⟨off, hfind⟩ := dictFind_some h
  rw [resumeValue, Value.tokenCount]
  exact (tokenCount_le_tokenCountAll (mem_of_findAt hfind)).trans (Nat.le_add_right _ 2)

end Lookup

end ResumeData

end Torrent

end LibtorrentSN
