import LibtorrentSN.Torrent.ResumeEntry

/-!
# Resume data: bits, trackers and maps

What the reader makes of each of the lists the writer builds: the bits of pieces come back with zeros
after them, the trackers sorted by tier, and the maps entry by entry.
-/

namespace LibtorrentSN

namespace Torrent

namespace ResumeData

open Bencode (ascii Value Entry assign)
open Info (key dictFind dictFindString dictFindList dictFindIntValue intValue)

/-! ## Bits -/

section Bits
variable {bits : List Bool} {i : ℕ}

theorem mem_setBits : i ∈ setBits bits ↔ bits.getD i false = true := by
  change bits[i]? = some true ↔ _
  rw [List.getD_eq_getElem?_getD]
  cases bits[i]? <;> simp

theorem getD_map_range {α : Type*} (f : ℕ → α) (n i : ℕ) (d : α) :
    ((List.range n).map f).getD i d = if i < n then f i else d := by
  rw [List.getD_eq_getElem?_getD, List.getElem?_map]
  split
  · next hi => rw [List.getElem?_range hi, Option.map_some, Option.getD_some]
  · next hi =>
    rw [List.getElem?_eq_none (by rw [List.length_range]; omega), Option.map_none, Option.getD_none]

/-- The bits of a byte. -/
theorem bit_of_byte : ∀ b₀ b₁ b₂ b₃ b₄ b₅ b₆ b₇ : Bool, ∀ k : Fin 8,
    (([b₀, b₁, b₂, b₃, b₄, b₅, b₆, b₇].foldl (fun (b : UInt8) x => 2 * b + if x then 1 else 0) 0) &&&
      (0x80 >>> UInt8.ofNat k) ≠ 0) = ([b₀, b₁, b₂, b₃, b₄, b₅, b₆, b₇].getD k false = true) := by
  decide +kernel

theorem byteAt_bit (bits : List Bool) (j : ℕ) {k : ℕ} (hk : k < 8) :
    (byteAt bits j &&& (0x80 >>> UInt8.ofNat k) ≠ 0) = (bits.getD (8 * j + k) false = true) := by
  have hbyte : byteAt bits j = ((List.range 8).map fun k => bits.getD (8 * j + k) false).foldl
      (fun (b : UInt8) x => 2 * b + if x then 1 else 0) 0 := by
    rw [byteAt, List.foldl_map]
  have hget := getD_map_range (fun k => bits.getD (8 * j + k) false) 8 k false
  rw [if_pos hk] at hget
  rw [hbyte, ← hget]
  exact bit_of_byte _ _ _ _ _ _ _ _ ⟨k, hk⟩

/-- The bits are packed and unpacked. -/
theorem setBits_assign (bits : List Bool) :
    setBits (Bitfield.assign (Bitfield.data bits)) = setBits bits := by
  ext i
  have hlen : (Bitfield.data bits).length = (bits.length + 7) / 8 := by
    rw [Bitfield.data, List.length_map, List.length_range]
  rw [mem_setBits, mem_setBits, Bitfield.assign, hlen, getD_map_range]
  split
  · next hi =>
    have hget : (Bitfield.data bits).getD (i / 8) 0 = byteAt bits (i / 8) := by
      rw [Bitfield.data, getD_map_range, if_pos (Nat.div_lt_of_lt_mul (by omega))]
    rw [decide_eq_true_iff, hget, byteAt_bit bits (i / 8) (Nat.mod_lt i (by decide)), Nat.div_add_mod]
  · next hi => rw [List.getD_eq_default _ _ (by omega)]

theorem data_eq_nil (h : Bitfield.data bits = []) : bits = [] := by
  rw [Bitfield.data, List.map_eq_nil_iff, List.range_eq_nil] at h
  exact List.length_eq_zero_iff.mp (by omega)

/-- The two bits of a piece. -/
theorem piece_bits : ∀ a b : Bool,
    (((if a then 1 else 0 : UInt8) ||| (if b then 2 else 0)) &&& 1 ≠ 0) = (a = true) ∧
    (((if a then 1 else 0 : UInt8) ||| (if b then 2 else 0)) &&& 2 ≠ 0) = (b = true) := by
  decide

theorem getD_writePieces (have' verified : List Bool) (test : UInt8 → Bool) (h : test 0 = false) (i : ℕ) :
    ((writePieces have' verified).map test).getD i false =
      test ((if have'.getD i false then 1 else 0) ||| (if verified.getD i false then 2 else 0)) := by
  rw [writePieces, List.map_map, getD_map_range]
  split
  · rfl
  · next hi =>
    rw [not_lt, max_le_iff] at hi
    rw [List.getD_eq_default _ _ hi.1, List.getD_eq_default _ _ hi.2]
    exact h.symm

theorem setBits_clear_unset (bits : List Bool) :
    setBits (if bits.any id then bits else []) = setBits bits := by
  split
  · rfl
  · next h =>
    have hnone : ∀ i, i ∉ setBits bits := fun i hi =>
      h (List.any_eq_true.mpr ⟨true, List.mem_of_getElem? hi, rfl⟩)
    exact Set.ext fun i => ⟨fun hi => absurd (mem_setBits.mp hi) (by simp), fun hi => absurd hi (hnone i)⟩

/-- The pieces are the same ones. -/
theorem readPieces_write (have' verified : List Bool) :
    setBits (readPieces 1 (writePieces have' verified)).1 = setBits have' ∧
    setBits (readPieces 1 (writePieces have' verified)).2 = setBits verified := by
  rw [readPieces, if_pos rfl]
  refine ⟨?_, (setBits_clear_unset _).trans ?_⟩
  · ext i
    rw [mem_setBits, mem_setBits, getD_writePieces _ _ _ (by decide), decide_eq_true_iff,
      (piece_bits _ _).1]
  · ext i
    rw [mem_setBits, mem_setBits, getD_writePieces _ _ _ (by decide), decide_eq_true_iff,
      (piece_bits _ _).2]

end Bits

/-! ## Trackers -/

section Trackers
variable {l : List (List UInt8 × ℤ)} {trackers : List (List UInt8)} {tiers : List ℤ} {n : ℕ}

/-- The trackers of a tier. -/
def ofTier (l : List (List UInt8 × ℤ)) (t : ℕ) : List (List UInt8 × ℤ) := l.filter (·.2 = t)

/-- The tier has a list: the first one always does. -/
def Listed (l : List (List UInt8 × ℤ)) (t : ℕ) : Prop := t = 0 ∨ ofTier l t ≠ []

instance (l : List (List UInt8 × ℤ)) (t : ℕ) : Decidable (Listed l t) :=
  inferInstanceAs (Decidable (_ ∨ _))

/-- The entry of a tier. -/
def slot (l : List (List UInt8 × ℤ)) (t : ℕ) : Entry :=
  if Listed l t then .list ((ofTier l t).map fun x => .string x.1) else .undefined

theorem ofTier_append (l : List (List UInt8 × ℤ)) (x : List UInt8 × ℤ) (t : ℕ) :
    ofTier (l ++ [x]) t = if x.2 = t then ofTier l t ++ [x] else ofTier l t := by
  rw [ofTier, List.filter_append]
  split
  · next h => rw [List.filter_cons_of_pos (by simpa using h)]; rfl
  · next h => rw [List.filter_cons_of_neg (by simpa using h), List.filter_nil, List.append_nil]; rfl

theorem slot_append_of_ne {x : List UInt8 × ℤ} {t : ℕ} (h : x.2 ≠ t) : slot (l ++ [x]) t = slot l t := by
  have heq : ofTier (l ++ [x]) t = ofTier l t := by rw [ofTier_append, if_neg h]
  have hiff : Listed (l ++ [x]) t ↔ Listed l t := by rw [Listed, Listed, heq]
  rw [slot, slot, heq]
  exact if_congr hiff rfl rfl

theorem addTracker_slot (l : List (List UInt8 × ℤ)) (tr : List UInt8) (t : ℕ) :
    addTracker tr (slot l t) = slot (l ++ [(tr, (t : ℤ))]) t := by
  have heq : ofTier (l ++ [(tr, (t : ℤ))]) t = ofTier l t ++ [(tr, (t : ℤ))] := by
    rw [ofTier_append, if_pos rfl]
  have hlisted : Listed (l ++ [(tr, (t : ℤ))]) t := by
    refine .inr ?_
    rw [heq]
    exact List.append_ne_nil_of_right_ne_nil _ (List.cons_ne_nil _ _)
  rw [slot, slot, if_pos hlisted, heq, List.map_append]
  split
  · rfl
  · next h =>
    obtain ⟨-, h⟩ := not_or.mp h
    rw [not_not.mp h]
    rfl

/-- A tier past all trackers has no entry. -/
theorem slot_of_le (hn : 1 ≤ n) (hl : ∀ x ∈ l, x.2 < n) {t : ℕ} (ht : n ≤ t) :
    slot l t = .undefined := by
  refine if_neg (not_or.mpr ⟨by omega, not_not.mpr ?_⟩)
  refine List.filter_eq_nil_iff.mpr fun x hx => ?_
  have := hl x hx
  simp only [decide_eq_true_eq]
  omega

/-- The loop puts every tracker into the slot of its tier. -/
theorem trackerLoop_eq (hn : 1 ≤ n) (hl : ∀ x ∈ l, x.2 < n) (hlen : tiers.length = trackers.length)
    (htiers : ∀ t ∈ tiers, 0 ≤ t ∧ t ≤ 1023) (tier : ℕ) :
    ∃ m : ℕ, 1 ≤ m ∧ (∀ x ∈ l ++ trackers.zip tiers, x.2 < m) ∧
      trackerLoop trackers tiers tier ((List.range n).map (slot l)) =
        (List.range m).map (slot (l ++ trackers.zip tiers)) := by
  induction trackers generalizing tiers l n tier with
  | nil =>
    rw [List.zip_nil_left, List.append_nil]
    exact ⟨n, hn, hl, rfl⟩
  | cons tr trackers ih =>
    obtain ⟨t, tiers, rfl⟩ := List.exists_cons_of_ne_nil (List.ne_nil_of_length_eq_add_one hlen)
    obtain ⟨ht, htiers'⟩ := List.forall_mem_cons.mp htiers
    obtain ⟨k, rfl⟩ : ∃ k : ℕ, t = k := ⟨t.toNat, by omega⟩
    have hclamp : clampTier k = k := by
      rw [clampTier, if_neg (by omega)]
      omega
    have hresize : (List.range n).map (slot l) ++ List.replicate (k + 1 - n) Entry.undefined =
        (List.range (max n (k + 1))).map (slot l) := by
      have hmax : max n (k + 1) = n + (k + 1 - n) := by omega
      rw [hmax, List.range_add, List.map_append, List.map_map]
      refine congrArg _ (List.eq_replicate_iff.mpr ⟨by simp, fun e he => ?_⟩).symm
      obtain ⟨j, -, rfl⟩ := List.mem_map.mp he
      exact slot_of_le hn hl (Nat.le_add_right n j)
    have hmodify : ((List.range (max n (k + 1))).map (slot l)).modify k (addTracker tr) =
        (List.range (max n (k + 1))).map (slot (l ++ [(tr, (k : ℤ))])) := by
      refine List.ext_getElem? fun j => ?_
      rw [List.getElem?_modify, List.getElem?_map, List.getElem?_map]
      rcases Nat.lt_or_ge j (max n (k + 1)) with hj | hj
      · rw [List.getElem?_range hj, Option.map_some, Option.map_some]
        split
        · next heq =>
          rw [← heq]
          exact congrArg some (addTracker_slot l tr k)
        · next hne =>
          have hne' : ((tr, (k : ℤ)) : List UInt8 × ℤ).2 ≠ (j : ℤ) := by
            dsimp only
            omega
          exact congrArg some (slot_append_of_ne hne').symm
      · rw [List.getElem?_eq_none (by rw [List.length_range]; exact hj)]
        rfl
    obtain ⟨m, hm, hlm, hloop⟩ := ih (l := l ++ [(tr, (k : ℤ))]) (n := max n (k + 1)) (by omega)
      (by
        intro x hx
        rcases List.mem_append.mp hx with hx | hx
        · have := hl x hx
          omega
        · rw [List.mem_singleton.mp hx]
          dsimp only
          omega) (Nat.succ.inj hlen) htiers' k
    refine ⟨m, hm, ?_, ?_⟩
    · simpa [List.append_assoc] using hlm
    · rw [trackerLoop, List.head?_cons, Option.map_some, Option.getD_some, hclamp,
        List.length_map, List.length_range, hresize, hmodify, List.tail_cons, hloop, List.append_assoc]
      rfl

/-! Trackers sorted by tier, those of one tier in their order. -/

/-- The order of the tiers. -/
def tierLe (a b : List UInt8 × ℤ) : Prop := a.2 ≤ b.2

instance : DecidableRel tierLe := fun a b => inferInstanceAs (Decidable (a.2 ≤ b.2))

theorem orderedInsert_append {x : List UInt8 × ℤ} {as : List (List UInt8 × ℤ)}
    (h : ∀ a ∈ as, ¬ tierLe x a) (bs : List (List UInt8 × ℤ)) :
    (as ++ bs).orderedInsert tierLe x = as ++ bs.orderedInsert tierLe x := by
  induction as with
  | nil => rfl
  | cons a as ih =>
    obtain ⟨ha, has⟩ := List.forall_mem_cons.mp h
    rw [List.cons_append, List.orderedInsert_of_not_le _ _ ha, ih has, List.cons_append]

theorem orderedInsert_front {x : List UInt8 × ℤ} {bs : List (List UInt8 × ℤ)}
    (h : ∀ b ∈ bs, tierLe x b) : bs.orderedInsert tierLe x = x :: bs := by
  rcases bs with - | ⟨b, bs⟩
  · rfl
  · exact List.orderedInsert_cons_of_le _ _ (h b List.mem_cons_self)

theorem mem_flatMap_ofTier {ts : List ℕ} {x : List UInt8 × ℤ} (h : x ∈ ts.flatMap (ofTier l)) :
    ∃ t ∈ ts, x.2 = t := by
  obtain ⟨t, ht, hx⟩ := List.mem_flatMap.mp h
  exact ⟨t, ht, by simpa using (List.mem_filter.mp hx).2⟩

theorem flatMap_ofTier_cons {ts : List ℕ} {x : List UInt8 × ℤ} (h : ∀ t ∈ ts, x.2 ≠ t) :
    ts.flatMap (ofTier (x :: l)) = ts.flatMap (ofTier l) := by
  induction ts with
  | nil => rfl
  | cons t ts ih =>
    obtain ⟨ht, hts⟩ := List.forall_mem_cons.mp h
    rw [List.flatMap_cons, List.flatMap_cons, ih hts, ofTier, List.filter_cons_of_neg (by simpa using ht)]
    rfl

/-- One tier after the other is the stable order. -/
theorem flatMap_ofTier (hl : ∀ x ∈ l, 0 ≤ x.2 ∧ x.2 < n) :
    (List.range n).flatMap (ofTier l) = l.insertionSort tierLe := by
  induction l with
  | nil => exact List.flatMap_eq_nil_iff.mpr fun _ _ => rfl
  | cons x l ih =>
    obtain ⟨hx, hl⟩ := List.forall_mem_cons.mp hl
    obtain ⟨t, ht⟩ : ∃ t : ℕ, x.2 = t := ⟨x.2.toNat, by omega⟩
    have hrange : List.range n = List.range t ++ t :: List.range' (t + 1) (n - t - 1) := by
      have h := @List.range'_append_1 0 t (n - t - 1 + 1)
      rw [Nat.zero_add, List.range'_succ, show t + (n - t - 1 + 1) = n by omega] at h
      rw [List.range_eq_range', List.range_eq_range', h]
    have hself : ofTier (x :: l) t = x :: ofTier l t :=
      List.filter_cons_of_pos (by simpa using ht)
    rw [List.insertionSort_cons, ← ih hl, hrange, List.flatMap_append, List.flatMap_append,
      List.flatMap_cons, List.flatMap_cons, hself, flatMap_ofTier_cons, flatMap_ofTier_cons,
      orderedInsert_append, orderedInsert_front]
    · rfl
    · intro b hb
      rw [tierLe, ht]
      rcases List.mem_append.mp hb with hb | hb
      · have := (List.mem_filter.mp hb).2
        simp only [decide_eq_true_eq] at this
        omega
      · obtain ⟨j, hj, hbj⟩ := mem_flatMap_ofTier hb
        have := (List.mem_range'_1.mp hj).1
        omega
    · intro a ha
      obtain ⟨j, hj, haj⟩ := mem_flatMap_ofTier ha
      have := List.mem_range.mp hj
      rw [tierLe, ht]
      omega
    · intro j hj
      have := (List.mem_range'_1.mp hj).1
      omega
    · intro j hj
      have := List.mem_range.mp hj
      omega

/-- The number of lists before the tier, which is what it is read back as. -/
def rank (l : List (List UInt8 × ℤ)) (t : ℕ) : ℤ := (Nat.count (Listed l) t : ℕ)

theorem readTrackers_slots (l : List (List UInt8 × ℤ)) (s n : ℕ) :
    readTrackers ((List.range' s n).map fun t => itemValue (slot l t)) (rank l s) =
      ((List.range' s n).flatMap (ofTier l)).map fun x => (x.1, rank l x.2.toNat) := by
  induction n generalizing s with
  | zero => rfl
  | succ n ih =>
    rw [List.range'_succ, List.map_cons, List.flatMap_cons, List.map_append, ← ih, slot]
    by_cases h : Listed l s
    · have hrank : rank l (s + 1) = rank l s + 1 := by
        rw [rank, Nat.count_succ, if_pos h]
        rfl
      rw [if_pos h, hrank, itemValue, Entry.value, readTrackers, Entry.values_eq_map, List.map_map,
        List.map_map]
      · congr 1
        refine List.map_congr_left fun x hx => ?_
        have hx := (List.mem_filter.mp hx).2
        simp only [decide_eq_true_eq] at hx
        rw [hx]
        rfl
      · rintro ⟨⟩
    · have hrank : rank l (s + 1) = rank l s := by
        rw [rank, Nat.count_succ, if_neg h]
        rfl
      rw [if_neg h, hrank, itemValue, readTrackers]
      · rw [not_not.mp (not_or.mp h).2]
        rfl
      · rintro _ ⟨⟩

theorem rank_strictMonoOn (hlen : tiers.length = trackers.length)
    (htiers : ∀ t ∈ tiers, 0 ≤ t ∧ t ≤ 1023) :
    StrictMonoOn (fun t : ℤ => rank (trackers.zip tiers) t.toNat) {t | t ∈ tiers} := by
  intro a ha b hb hab
  obtain ⟨i, hi, rfl⟩ := List.mem_iff_getElem.mp ha
  have hmem : (trackers[i], tiers[i]) ∈ trackers.zip tiers := by
    refine List.mem_iff_getElem.mpr ⟨i, ?_, List.getElem_zip⟩
    rw [List.length_zip]
    omega
  have ha := htiers _ ha
  have hlisted : Listed (trackers.zip tiers) tiers[i].toNat := by
    refine .inr (List.ne_nil_of_mem (a := (trackers[i], tiers[i])) (List.mem_filter.mpr ⟨hmem, ?_⟩))
    simp only [decide_eq_true_eq]
    omega
  exact Int.ofNat_lt.mpr (Nat.count_strict_mono hlisted (by omega))

/-- The list that is written has an entry for every tier. -/
theorem buildTrackerList_eq (hlen : tiers.length = trackers.length)
    (htiers : ∀ t ∈ tiers, 0 ≤ t ∧ t ≤ 1023) :
    ∃ m : ℕ, (∀ x ∈ trackers.zip tiers, x.2 < m) ∧
      buildTrackerList trackers tiers = .list ((List.range m).map (slot (trackers.zip tiers))) := by
  rw [buildTrackerList]
  split
  · next h => exact ⟨0, by simp [h], rfl⟩
  · obtain ⟨m, -, hm, hloop⟩ := trackerLoop_eq (l := []) (Nat.le_refl 1) (by simp) hlen htiers 0
    rw [List.nil_append] at hm hloop
    exact ⟨m, hm, congrArg Entry.list hloop⟩

/-- The trackers come back in the order of their tiers, and these are numbered anew. -/
theorem readTrackers_write (htiers : ∀ t ∈ tiers, 0 ≤ t ∧ t ≤ 1023) {m : ℕ}
    (hm : ∀ x ∈ trackers.zip tiers, x.2 < m) :
    readTrackers (((List.range m).map (slot (trackers.zip tiers))).map itemValue) 0 =
      ((trackers.zip tiers).insertionSort tierLe).map fun x =>
        (x.1, rank (trackers.zip tiers) x.2.toNat) := by
  rw [List.map_map, List.range_eq_range']
  refine (readTrackers_slots (trackers.zip tiers) 0 m).trans ?_
  rw [← List.range_eq_range', flatMap_ofTier fun x hx => ⟨(htiers _ ?_).1, hm x hx⟩]
  exact (List.of_mem_zip hx).2

theorem slot_fits (l : List (List UInt8 × ℤ)) (t : ℕ) : slot l t = .undefined ∨ (slot l t).Plain := by
  rw [slot]
  split
  · refine .inr ?_
    rw [Entry.Plain]
    induction ofTier l t with
    | nil => trivial
    | cons x xs ih => exact ⟨trivial, ih⟩
  · exact .inl rfl

end Trackers

/-! ## Files and unfinished pieces -/

section Maps

/-- The string that is read for the item `i`. -/
def nameAt (vs : List Value) (i : ℕ) : List UInt8 := (vs[i]?.map stringValueOf).getD []

theorem nameAt_mapFile (fl : List Entry) (file : ℕ × List UInt8) (i : ℕ) :
    nameAt ((mapFile fl file).map itemValue) i =
      if i = file.1 then file.2 else nameAt (fl.map itemValue) i := by
  rw [nameAt, nameAt, mapFile, List.getElem?_map, List.getElem?_map, List.getElem?_set]
  rw [List.length_append, List.length_replicate]
  by_cases hi : i = file.1
  · rw [if_pos hi.symm, if_pos (by omega), if_pos hi]
    rfl
  · rw [if_neg (Ne.symm hi), if_neg hi]
    rcases Nat.lt_or_ge i fl.length with hlt | hge
    · rw [List.getElem?_append_left hlt]
    · rw [List.getElem?_append_right hge, List.getElem?_replicate, List.getElem?_eq_none hge]
      split <;> rfl

theorem mapFile_fits {fl : List Entry} (h : ∀ e ∈ fl, e = .undefined ∨ e.Plain)
    (file : ℕ × List UInt8) : ∀ e ∈ mapFile fl file, e = .undefined ∨ e.Plain := by
  intro e he
  rcases List.mem_or_eq_of_mem_set he with he | rfl
  · rcases List.mem_append.mp he with he | he
    · exact h e he
    · exact .inl (List.eq_of_mem_replicate he)
  · exact .inr trivial

theorem foldl_mapFile_fits {fl : List Entry} (h : ∀ e ∈ fl, e = .undefined ∨ e.Plain)
    (files : List (ℕ × List UInt8)) : ∀ e ∈ files.foldl mapFile fl, e = .undefined ∨ e.Plain := by
  induction files generalizing fl with
  | nil => exact h
  | cons file files ih => exact ih (mapFile_fits h file)

theorem nameAt_foldl {files : List (ℕ × List UInt8)} (hkeys : (files.map Prod.fst).Nodup)
    (fl : List Entry) (i : ℕ) : nameAt ((files.foldl mapFile fl).map itemValue) i =
      ((files.find? (·.1 = i)).map Prod.snd).getD (nameAt (fl.map itemValue) i) := by
  induction files generalizing fl with
  | nil => rfl
  | cons file files ih =>
    rw [List.map_cons, List.nodup_cons] at hkeys
    rw [List.foldl_cons, ih hkeys.2, nameAt_mapFile, List.find?_cons]
    by_cases hi : i = file.1
    · have hnone : files.find? (·.1 = i) = none := by
        refine List.find?_eq_none.mpr fun file' hfile' h => hkeys.1 ?_
        rw [← hi, ← of_decide_eq_true h]
        exact List.mem_map_of_mem hfile'
      rw [hnone, if_pos hi, decide_eq_true hi.symm]
      rfl
    · rw [if_neg hi, decide_eq_false (Ne.symm hi)]

theorem getElem?_readMappedFiles (vs : List Value) (i : ℕ) (files : Std.TreeMap ℕ (List UInt8))
    (j : ℕ) : (readMappedFiles vs i files)[j]? =
      if i ≤ j ∧ nameAt vs (j - i) ≠ [] then some (nameAt vs (j - i)) else files[j]? := by
  induction vs generalizing i files with
  | nil =>
    rw [readMappedFiles, if_neg]
    rintro ⟨-, h⟩
    exact h rfl
  | cons v vs ih =>
    rw [readMappedFiles, ih]
    rcases Nat.lt_trichotomy i j with h | rfl | h
    · have hsucc : nameAt (v :: vs) (j - i) = nameAt vs (j - (i + 1)) := by
        rw [nameAt, nameAt, show j - i = j - (i + 1) + 1 by omega, List.getElem?_cons_succ]
      rw [hsucc]
      have hne : (if stringValueOf v = [] then files else files.insert i (stringValueOf v))[j]? =
          files[j]? := by
        split
        · rfl
        · rw [Std.TreeMap.getElem?_insert, if_neg]
          simpa using Nat.ne_of_lt h
      rw [hne]
      exact if_congr ⟨fun h => ⟨by omega, h.2⟩, fun h => ⟨by omega, h.2⟩⟩ rfl rfl
    · have hzero : nameAt (v :: vs) (i - i) = stringValueOf v := by
        rw [Nat.sub_self]
        rfl
      rw [hzero, if_neg fun h => absurd h.1 (by omega)]
      by_cases hv : stringValueOf v = []
      · rw [if_pos hv, if_neg fun h => h.2 hv]
      · rw [if_neg hv, if_pos ⟨Nat.le_refl i, hv⟩, Std.TreeMap.getElem?_insert_self]
    · have hne : (if stringValueOf v = [] then files else files.insert i (stringValueOf v))[j]? =
          files[j]? := by
        split
        · rfl
        · rw [Std.TreeMap.getElem?_insert, if_neg]
          simpa using Nat.ne_of_gt h
      have h₁ : ¬ (i + 1 ≤ j ∧ nameAt vs (j - (i + 1)) ≠ []) := fun h' => absurd h'.1 (by omega)
      have h₂ : ¬ (i ≤ j ∧ nameAt (v :: vs) (j - i) ≠ []) := fun h' => absurd h'.1 (by omega)
      rw [if_neg h₁, if_neg h₂, hne]

theorem nodup_keys_toList {β : Type*} (m : Std.TreeMap ℕ β) : (m.toList.map Prod.fst).Nodup := by
  refine List.pairwise_map.mpr (m.distinct_keys_toList.imp fun h heq => h ?_)
  simpa using heq

theorem find?_toList {β : Type*} (m : Std.TreeMap ℕ β) (i : ℕ) :
    (m.toList.find? (·.1 = i)).map Prod.snd = m[i]? := by
  cases hfind : m.toList.find? (·.1 = i) with
  | none =>
    cases hget : m[i]? with
    | none => rfl
    | some b =>
      have hmem := Std.TreeMap.mem_toList_iff_getElem?_eq_some.mpr hget
      exact absurd (decide_eq_true rfl) (List.find?_eq_none.mp hfind _ hmem)
  | some x =>
    have hi : x.1 = i := by simpa using List.find?_some hfind
    have hget := Std.TreeMap.mem_toList_iff_getElem?_eq_some.mp (List.mem_of_find?_eq_some hfind)
    rw [hi] at hget
    exact hget.symm

/-- The file names come back. -/
theorem readMappedFiles_write (files : Std.TreeMap ℕ (List UInt8))
    (hnames : ∀ (i : ℕ) name, files[i]? = some name → name ≠ []) (j : ℕ) :
    (readMappedFiles ((files.toList.foldl mapFile []).map itemValue) 0 ∅)[j]? = files[j]? := by
  have hname := nameAt_foldl (nodup_keys_toList files) [] j
  rw [find?_toList] at hname
  rw [getElem?_readMappedFiles, Nat.sub_zero, hname]
  cases hget : files[j]? with
  | none => rw [Option.getD_none, if_neg fun h => h.2 rfl, Std.TreeMap.getElem?_emptyc]
  | some name => rw [Option.getD_some, if_pos ⟨Nat.zero_le j, hnames j name hget⟩]

/-- The dictionary of an unfinished piece. -/
theorem unfinishedPiece_eq (piece : ℕ × List Bool) : unfinishedPiece piece =
    .dict [(key "bitmask", .string (Bitfield.data piece.2)), (key "piece", .int piece.1)] := by
  rw [unfinishedPiece, assign, assign, if_pos (by decide +kernel)]

theorem unfinishedPiece_plain {piece : ℕ × List Bool} (hpiece : piece.1 < 2 ^ 31) :
    (unfinishedPiece piece).Plain := by
  rw [unfinishedPiece_eq, Entry.Plain]
  refine ⟨?_, trivial, ⟨by omega, by omega⟩, trivial⟩
  exact (by decide +kernel : [key "bitmask", key "piece"].Pairwise (· < ·))

theorem readUnfinished_write (pieces : Std.TreeMap ℕ (List Bool)) {piece : ℕ × List Bool}
    (hpiece : piece.1 < 2 ^ 31) : readUnfinished pieces (itemValue (unfinishedPiece piece)) =
      if piece.2 = [] then pieces
      else pieces.insert piece.1 (Bitfield.assign (Bitfield.data piece.2)) := by
  have hne : key "bitmask" ≠ key "piece" := by decide +kernel
  have hint := @intValue_digitsOf (piece.1 : ℤ) (by omega) (by omega)
  have hpiece' : dictFindIntValue (itemValue (unfinishedPiece piece)) (key "piece") (-1) = piece.1 := by
    rw [unfinishedPiece_eq]
    simp only [itemValue, Entry.value, Entry.members, dictFindIntValue, dictFind, Info.findAt,
      if_neg hne, if_pos, hint]
  have hbits : dictFindStringValue (itemValue (unfinishedPiece piece)) (key "bitmask") =
      Bitfield.data piece.2 := by
    rw [unfinishedPiece_eq]
    simp only [itemValue, Entry.value, Entry.members, dictFindStringValue, dictFindString, dictFind,
      Info.findAt, if_pos, Option.map_some, Option.getD_some]
  have hdict : itemValue (unfinishedPiece piece) = .dict (Entry.members
      [(key "bitmask", .string (Bitfield.data piece.2)), (key "piece", .int piece.1)]) := by
    rw [unfinishedPiece_eq]
    rfl
  have hcast : (Int32.ofInt (piece.1 : ℤ)).toInt = piece.1 := by
    rw [Int32.toInt_ofInt_of_le (by simp) (by simp; omega)]
  rw [hdict] at hpiece' hbits ⊢
  simp only [readUnfinished, hpiece', hbits, hcast]
  rw [if_neg (by omega), Int.toNat_natCast]
  exact if_congr ⟨data_eq_nil, fun h => by rw [h]; rfl⟩ rfl rfl

/-- The bits come back. -/
theorem foldl_readUnfinished {l : List (ℕ × List Bool)} (hkeys : (l.map Prod.fst).Nodup)
    (hl : ∀ piece ∈ l, piece.1 < 2 ^ 31) {pieces : Std.TreeMap ℕ (List Bool)}
    (hnew : ∀ piece ∈ l, pieces[piece.1]? = none) (i : ℕ) :
    setBits ((((l.map fun piece => itemValue (unfinishedPiece piece)).foldl readUnfinished
      pieces)[i]?).getD []) = setBits (((l.find? (·.1 = i)).map Prod.snd).getD (pieces[i]?.getD [])) := by
  induction l generalizing pieces with
  | nil => rfl
  | cons piece l ih =>
    rw [List.map_cons, List.nodup_cons] at hkeys
    obtain ⟨hlt, hl⟩ := List.forall_mem_cons.mp hl
    obtain ⟨hnone, hnew⟩ := List.forall_mem_cons.mp hnew
    have hother : ∀ j, j ≠ piece.1 →
        (readUnfinished pieces (itemValue (unfinishedPiece piece)))[j]? = pieces[j]? := by
      intro j hj
      rw [readUnfinished_write pieces hlt]
      split
      · rfl
      · rw [Std.TreeMap.getElem?_insert, if_neg]
        simpa using Ne.symm hj
    have hnew' : ∀ piece' ∈ l,
        (readUnfinished pieces (itemValue (unfinishedPiece piece)))[piece'.1]? = none := by
      intro piece' hmem
      rw [hother _ fun heq => hkeys.1 (heq ▸ List.mem_map_of_mem hmem)]
      exact hnew piece' hmem
    rw [List.map_cons, List.foldl_cons, ih hkeys.2 hl hnew', List.find?_cons]
    by_cases hi : i = piece.1
    · subst hi
      have hfind : l.find? (·.1 = piece.1) = none := by
        refine List.find?_eq_none.mpr fun piece' hmem h => hkeys.1 ?_
        rw [← of_decide_eq_true h]
        exact List.mem_map_of_mem hmem
      rw [hfind, decide_eq_true rfl, readUnfinished_write pieces hlt]
      change setBits (Option.getD _ []) = setBits piece.2
      split
      · next hnil => rw [hnone, hnil]; rfl
      · rw [Std.TreeMap.getElem?_insert_self, Option.getD_some, setBits_assign]
    · rw [hother i hi, decide_eq_false (Ne.symm hi)]

theorem readUnfinished_all (pieces : Std.TreeMap ℕ (List Bool))
    (hlt : ∀ i : ℕ, i ∈ pieces → i < 2 ^ 31) (i : ℕ) :
    setBits ((((pieces.toList.map fun piece => itemValue (unfinishedPiece piece)).foldl
      readUnfinished ∅)[i]?).getD []) = setBits (pieces[i]?.getD []) := by
  have hlt' : ∀ piece ∈ pieces.toList, piece.1 < 2 ^ 31 := by
    intro piece h
    refine hlt _ ?_
    rw [Std.TreeMap.mem_iff_isSome_getElem?, Std.TreeMap.mem_toList_iff_getElem?_eq_some.mp h]
    rfl
  rw [foldl_readUnfinished (nodup_keys_toList pieces) hlt' (fun _ _ => Std.TreeMap.getElem?_emptyc),
    find?_toList, Std.TreeMap.getElem?_emptyc, Option.getD_none]

end Maps

end ResumeData

end Torrent

end LibtorrentSN
