import Mathlib

/-!
# Vectors sorted by a key

A list kept strictly sorted by a natural-number key, with the operations a sorted
vector offers: binary search (`find`), insertion at the lower bound, removal and change
of the entry with a given key.
-/

namespace LibtorrentSN

namespace SortedVector

variable {α : Type*} (key : α → ℕ)

/-- The entry with key `k`: the first one that is not less than `k`, if it has that key. -/
def find (l : List α) (k : ℕ) : Option α :=
  match (l.dropWhile fun a => key a < k).head? with
  | some a => if key a = k then some a else none
  | none => none

/-- Insert `a` before the first entry that is not less than it. -/
def insert (l : List α) (a : α) : List α :=
  (l.takeWhile fun b => key b < key a) ++ a :: l.dropWhile fun b => key b < key a

/-- Remove the entry with key `k`. -/
def erase (l : List α) (k : ℕ) : List α := l.eraseP fun a => key a = k

/-- Change the entry with key `k`. -/
def modify (l : List α) (k : ℕ) (f : α → α) : List α :=
  l.map fun a => if key a = k then f a else a

/-- Strictly sorted by the key. -/
def Sorted (l : List α) : Prop := l.Pairwise fun a b => key a < key b

variable {key} {l : List α} {a b : α} {k : ℕ}

/-- In a sorted vector the key identifies the entry. -/
theorem Sorted.eq_of_key (h : Sorted key l) (ha : a ∈ l) (hb : b ∈ l) (he : key a = key b) :
    a = b := by
  induction l with
  | nil => exact absurd ha List.not_mem_nil
  | cons c l ih =>
    obtain ⟨hc, hl⟩ := List.pairwise_cons.mp h
    rcases List.mem_cons.mp ha with hac | hal
    · rcases List.mem_cons.mp hb with hbc | hbl
      · rw [hac, hbc]
      · have := hc b hbl
        rw [← hac] at this
        omega
    · rcases List.mem_cons.mp hb with hbc | hbl
      · have := hc a hal
        rw [← hbc] at this
        omega
      · exact ih hl hal hbl

theorem Sorted.lt_of_mem_takeWhile (hb : b ∈ l.takeWhile fun a => key a < k) : key b < k := by
  have := List.mem_takeWhile_imp hb
  simpa using this

theorem Sorted.le_of_mem_dropWhile (h : Sorted key l)
    (hb : b ∈ l.dropWhile fun a => key a < k) : k ≤ key b := by
  induction l with
  | nil => exact absurd hb List.not_mem_nil
  | cons c l ih =>
    obtain ⟨hc, hl⟩ := List.pairwise_cons.mp h
    by_cases hck : key c < k
    · rw [List.dropWhile_cons_of_pos (by simpa using hck)] at hb
      exact ih hl hb
    · rw [List.dropWhile_cons_of_neg (by simpa using hck)] at hb
      rcases List.mem_cons.mp hb with rfl | hb
      · omega
      · have := hc b hb
        omega

/-- Searching finds exactly the entry with the key. -/
theorem Sorted.find_eq_some (h : Sorted key l) : find key l k = some a ↔ a ∈ l ∧ key a = k := by
  have hsplit := List.takeWhile_append_dropWhile (p := fun a => key a < k) (l := l)
  constructor
  · intro hf
    rw [find] at hf
    rcases hd : (l.dropWhile fun a => key a < k) with - | ⟨c, d⟩ <;> rw [hd] at hf
    · simp at hf
    · simp only [List.head?_cons] at hf
      split_ifs at hf with hc
      obtain rfl := Option.some.inj hf
      refine ⟨?_, hc⟩
      rw [← hsplit, hd]
      simp
  · rintro ⟨ha, hk⟩
    rw [← hsplit, List.mem_append] at ha
    rcases ha with ha | ha
    · have := Sorted.lt_of_mem_takeWhile ha
      omega
    · rw [find]
      rcases hd : (l.dropWhile fun a => key a < k) with - | ⟨c, d⟩
      · rw [hd] at ha
        exact absurd ha List.not_mem_nil
      · simp only [List.head?_cons]
        have hcl : c ∈ l := by
          rw [← hsplit, hd]
          simp
        have hkc : k ≤ key c := h.le_of_mem_dropWhile (k := k) (by rw [hd]; simp)
        have hca : c = a := by
          rw [hd] at ha
          rcases List.mem_cons.mp ha with rfl | ha
          · rfl
          · have hs : (c :: d).Pairwise fun a b => key a < key b := by
              rw [← hd]
              exact h.sublist (List.dropWhile_sublist _)
            have := (List.pairwise_cons.mp hs).1 a ha
            omega
        rw [hca, if_pos hk]

theorem Sorted.find_eq_none (h : Sorted key l) : find key l k = none ↔ ∀ a ∈ l, key a ≠ k := by
  constructor
  · intro hf a ha hk
    rw [h.find_eq_some.mpr ⟨ha, hk⟩] at hf
    cases hf
  · intro hno
    rcases hf : find key l k with - | a
    · rfl
    · obtain ⟨ha, hk⟩ := h.find_eq_some.mp hf
      exact absurd hk (hno a ha)

theorem insert_perm : (insert key l a).Perm (a :: l) := by
  rw [insert]
  refine List.perm_middle.trans ?_
  rw [List.takeWhile_append_dropWhile]

theorem mem_insert : b ∈ insert key l a ↔ b = a ∨ b ∈ l := by
  rw [insert_perm.mem_iff, List.mem_cons]

theorem Sorted.insert (h : Sorted key l) (hno : ∀ b ∈ l, key b ≠ key a) :
    Sorted key (insert key l a) := by
  rw [SortedVector.insert, Sorted, List.pairwise_append]
  refine ⟨h.sublist (List.takeWhile_sublist _), ?_, ?_⟩
  · refine List.pairwise_cons.mpr ⟨?_, h.sublist (List.dropWhile_sublist _)⟩
    intro b hb
    have h₁ := h.le_of_mem_dropWhile hb
    have h₂ := hno b ((List.dropWhile_sublist _).subset hb)
    omega
  · intro b hb c hc
    have h₁ := Sorted.lt_of_mem_takeWhile hb
    rcases List.mem_cons.mp hc with rfl | hc
    · exact h₁
    · have := h.le_of_mem_dropWhile hc
      omega

theorem Sorted.erase (h : Sorted key l) (k : ℕ) : Sorted key (erase key l k) :=
  h.sublist List.eraseP_sublist

theorem Sorted.mem_erase (h : Sorted key l) : b ∈ SortedVector.erase key l k ↔ b ∈ l ∧ key b ≠ k := by
  induction l with
  | nil => simp [SortedVector.erase]
  | cons c l ih =>
    obtain ⟨hc, hl⟩ := List.pairwise_cons.mp h
    by_cases hck : key c = k
    · rw [SortedVector.erase, List.eraseP_cons_of_pos (by simpa using hck), List.mem_cons]
      constructor
      · intro hb
        have := hc b hb
        exact ⟨.inr hb, by omega⟩
      · rintro ⟨rfl | hb, hk⟩
        · exact absurd hck hk
        · exact hb
    · rw [SortedVector.erase, List.eraseP_cons_of_neg (by simpa using hck), List.mem_cons,
        List.mem_cons]
      have := ih hl
      rw [SortedVector.erase] at this
      rw [this]
      constructor
      · rintro (rfl | hb)
        · exact ⟨.inl rfl, hck⟩
        · exact ⟨.inr hb.1, hb.2⟩
      · rintro ⟨rfl | hb, hk⟩
        · exact .inl rfl
        · exact .inr ⟨hb, hk⟩

/-- Removing an entry, up to order. -/
theorem Sorted.perm_erase (h : Sorted key l) (ha : a ∈ l) :
    l.Perm (a :: SortedVector.erase key l (key a)) := by
  induction l with
  | nil => exact absurd ha List.not_mem_nil
  | cons c l ih =>
    obtain ⟨hc, hl⟩ := List.pairwise_cons.mp h
    by_cases hck : key c = key a
    · have hca : c = a := h.eq_of_key (by simp) ha hck
      rw [SortedVector.erase, List.eraseP_cons_of_pos (by simpa using hck), hca]
    · rw [SortedVector.erase, List.eraseP_cons_of_neg (by simpa using hck)]
      have hal : a ∈ l := by
        rcases List.mem_cons.mp ha with rfl | ha
        · exact absurd rfl hck
        · exact ha
      exact ((ih hl hal).cons c).trans (List.Perm.swap _ _ _)

section Modify
variable {f : α → α}

theorem mem_modify : b ∈ modify key l k f ↔
    ∃ a ∈ l, b = if key a = k then f a else a := by
  simp only [modify, List.mem_map, eq_comm]

theorem Sorted.modify (h : Sorted key l) (hf : ∀ a, key (f a) = key a) :
    Sorted key (modify key l k f) := by
  rw [SortedVector.modify, Sorted, List.pairwise_map]
  refine h.imp ?_
  intro a b hab
  split_ifs <;> first | exact hab | (simp only [hf]; exact hab)

theorem Sorted.find_modify (h : Sorted key l) (hf : ∀ a, key (f a) = key a) (j : ℕ) :
    find key (SortedVector.modify key l k f) j =
      if j = k then (find key l j).map f else find key l j := by
  have hm := h.modify (k := k) hf
  have hkey : ∀ c : α, key (if key c = k then f c else c) = key c := by
    intro c
    split_ifs
    · exact hf c
    · rfl
  rcases hfind : find key l j with - | a
  · have hno := h.find_eq_none.mp hfind
    rw [show find key (SortedVector.modify key l k f) j = none from hm.find_eq_none.mpr (by
      intro b hb
      obtain ⟨c, hc, rfl⟩ := mem_modify.mp hb
      rw [hkey]
      exact hno c hc)]
    split_ifs <;> rfl
  · obtain ⟨ha, hk⟩ := h.find_eq_some.mp hfind
    have hmem : (if key a = k then f a else a) ∈ SortedVector.modify key l k f :=
      mem_modify.mpr ⟨a, ha, rfl⟩
    rw [hm.find_eq_some.mpr ⟨hmem, (hkey a).trans hk⟩, hk]
    split_ifs <;> rfl

end Modify

/-- Changing an entry is taking it out and putting another one in. -/
theorem Sorted.perm_modify (h : Sorted key l) (ha : a ∈ l) (f : α → α) :
    (SortedVector.modify key l (key a) f).Perm (f a :: SortedVector.erase key l (key a)) := by
  induction l with
  | nil => exact absurd ha List.not_mem_nil
  | cons c l ih =>
    obtain ⟨hc, hl⟩ := List.pairwise_cons.mp h
    rcases List.mem_cons.mp ha with rfl | hal
    · have hrest : l.map (fun b => if key b = key a then f b else b) = l := by
        rw [List.map_congr_left (g := id), List.map_id]
        intro b hb
        rw [if_neg (Nat.ne_of_gt (hc b hb))]
        rfl
      rw [SortedVector.modify, SortedVector.erase, List.map_cons, if_pos rfl, hrest,
        List.eraseP_cons_of_pos (by simp)]
    · have hne : key c ≠ key a := Nat.ne_of_lt (hc a hal)
      rw [SortedVector.modify, List.map_cons, if_neg hne, SortedVector.erase,
        List.eraseP_cons_of_neg (by simpa using hne)]
      exact ((ih hl hal).cons c).trans (List.Perm.swap _ _ _)

end SortedVector

end LibtorrentSN
