import Mathlib.Data.List.Lex
import Mathlib.Order.Fin.Basic

/-!
# Addresses of the filters

The filters are written for an array of bytes, four or sixteen of them, and for a port (`src/ip_filter.cpp`,
`include/libtorrent/ip_filter.hpp`).
-/

namespace LibtorrentSN

namespace Filter

/-- What the filters use of an address. -/
class Addr (A : Type) [LinearOrder A] where
  zero : A
  maxAddr : A
  plusOne : A → A
  minusOne : A → A
  zero_le : ∀ a : A, zero ≤ a
  le_maxAddr : ∀ a : A, a ≤ maxAddr
  plusOne_le_iff : ∀ a b : A, a ≠ maxAddr → (plusOne a ≤ b ↔ a < b)
  le_minusOne_iff : ∀ a b : A, a ≠ zero → (b ≤ minusOne a ↔ b < a)

namespace Addr

variable {A : Type} [LinearOrder A] [Addr A] {a b : A}

/-- An address below another one is not the last. -/
theorem ne_maxAddr (h : a < b) : a ≠ maxAddr := (h.trans_le (le_maxAddr b)).ne

/-- An address above another one is not the first. -/
theorem ne_zero (h : a < b) : b ≠ zero := ((zero_le a).trans_lt h).ne'

/-- The next address is greater. -/
theorem lt_plusOne (h : a ≠ maxAddr) : a < plusOne a := (plusOne_le_iff a _ h).mp le_rfl

/-- One step up and one step down. -/
theorem minusOne_plusOne (h : a ≠ maxAddr) : minusOne (plusOne a) = a := by
  have hne := ne_zero (lt_plusOne h)
  refine le_antisymm (not_lt.mp fun hlt => ?_) ((le_minusOne_iff _ _ hne).mpr (lt_plusOne h))
  have hle := (plusOne_le_iff _ _ h).mpr hlt
  exact absurd ((le_minusOne_iff _ _ hne).mp le_rfl) (not_lt.mpr hle)

end Addr

/-! ## Ports -/

/-- `std::uint16_t` -/
abbrev Port := Fin 65536

instance : Addr Port where
  zero := 0
  maxAddr := 65535
  plusOne val := val + 1
  minusOne val := val - 1
  zero_le := Fin.zero_le
  le_maxAddr a := Fin.le_def.mpr (Nat.le_of_lt_succ a.isLt)
  plusOne_le_iff a b h := by
    have hval : (a + 1).val = a.val + 1 := by
      have hne : a.val ≠ 65535 := fun heq => h (Fin.ext heq)
      rw [Fin.val_add]
      exact Nat.mod_eq_of_lt (by have := a.isLt; omega)
    rw [Fin.le_def, Fin.lt_def, hval]
    exact Nat.succ_le_iff
  le_minusOne_iff a b h := by
    have hpos : 0 < a.val := Nat.pos_of_ne_zero fun heq => h (Fin.ext heq)
    have hval : (a - 1).val = a.val - 1 := by
      rw [Fin.sub_def]
      have := a.isLt
      change (65536 - 1 + a.val) % 65536 = a.val - 1
      omega
    rw [Fin.le_def, Fin.lt_def, hval]
    omega

/-! ## Arrays of bytes -/

/-- The bytes from the last one on until one takes the carry, and whether none did. -/
def plusOneBytes (a : List (Fin 256)) : List (Fin 256) × Bool :=
  a.foldr (fun t (tmp, carry) =>
    if carry then if t < 255 then ((t + 1) :: tmp, false) else (0 :: tmp, true) else (t :: tmp, false)) ([], true)

/-- `minus_one`: the bytes from the last one on, with the borrow. -/
def minusOneBytes (a : List (Fin 256)) : List (Fin 256) × Bool :=
  a.foldr (fun t (tmp, borrow) =>
    if borrow then if t > 0 then ((t - 1) :: tmp, false) else (255 :: tmp, true) else (t :: tmp, false)) ([], true)

/-- The first byte takes the carry of the others. -/
theorem plusOneBytes_cons (t : Fin 256) (a : List (Fin 256)) : plusOneBytes (t :: a) =
    if (plusOneBytes a).2 then
      if t < 255 then ((t + 1) :: (plusOneBytes a).1, false) else (0 :: (plusOneBytes a).1, true)
    else (t :: (plusOneBytes a).1, false) := rfl

/-- The first byte takes the borrow of the others. -/
theorem minusOneBytes_cons (t : Fin 256) (a : List (Fin 256)) : minusOneBytes (t :: a) =
    if (minusOneBytes a).2 then
      if t > 0 then ((t - 1) :: (minusOneBytes a).1, false) else (255 :: (minusOneBytes a).1, true)
    else (t :: (minusOneBytes a).1, false) := rfl

/-- The first bytes decide, unless they are equal. -/
theorem lt_cons_iff (t u : Fin 256) (a b : List (Fin 256)) : t :: a < u :: b ↔ t < u ∨ t = u ∧ a < b :=
  List.cons_lt_cons_iff

/-- A byte that is not the last has another one behind it. -/
theorem lt_add_one_iff {t u : Fin 256} (h : t < 255) : u < t + 1 ↔ ¬ t < u := by
  have hval : (t + 1).val = t.val + 1 := by
    rw [Fin.val_add]
    exact Nat.mod_eq_of_lt (Nat.succ_lt_succ (Fin.lt_def.mp h))
  rw [Fin.lt_def, Fin.lt_def, hval]
  omega

/-- A byte that is not zero has another one before it. -/
theorem sub_one_lt_iff {t u : Fin 256} (h : 0 < t) : t - 1 < u ↔ ¬ u < t := by
  have hval : (t - 1).val = t.val - 1 := by
    have hlt := t.isLt
    have hpos : 0 < t.val := h
    rw [Fin.sub_def]
    change (256 - 1 + t.val) % 256 = t.val - 1
    omega
  have hpos : 0 < t.val := h
  rw [Fin.lt_def, Fin.lt_def, hval]
  omega

/-- The first address has none below it. -/
theorem not_lt_zeros {b : List (Fin 256)} {n : ℕ} (h : b.length = n) : ¬ b < List.replicate n 0 := by
  induction b generalizing n with
  | nil => rw [← h]; exact lt_irrefl _
  | cons u b ih =>
    rw [← h, List.length_cons, List.replicate_succ, lt_cons_iff]
    rintro (hlt | ⟨-, hlt⟩)
    · exact Nat.not_lt_zero _ hlt
    · exact ih rfl hlt

/-- The last address has none above it. -/
theorem not_ones_lt {b : List (Fin 256)} {n : ℕ} (h : b.length = n) : ¬ List.replicate n 255 < b := by
  induction b generalizing n with
  | nil => rw [← h]; exact lt_irrefl _
  | cons u b ih =>
    rw [← h, List.length_cons, List.replicate_succ, lt_cons_iff]
    rintro (hlt | ⟨-, hlt⟩)
    · exact absurd (Fin.lt_def.mp hlt) (not_lt.mpr (Nat.le_of_lt_succ u.isLt))
    · exact ih rfl hlt

/-- One step up keeps the length. -/
theorem length_plusOneBytes (a : List (Fin 256)) : (plusOneBytes a).1.length = a.length := by
  induction a with
  | nil => rfl
  | cons t a ih =>
    rw [plusOneBytes_cons]
    split
    · split <;> exact congrArg Nat.succ ih
    · exact congrArg Nat.succ ih

/-- One step down keeps it. -/
theorem length_minusOneBytes (a : List (Fin 256)) : (minusOneBytes a).1.length = a.length := by
  induction a with
  | nil => rfl
  | cons t a ih =>
    rw [minusOneBytes_cons]
    split
    · split <;> exact congrArg Nat.succ ih
    · exact congrArg Nat.succ ih

/-- A carry is left only if all bytes were 255. -/
theorem plusOneBytes_carry {a : List (Fin 256)} (h : (plusOneBytes a).2 = true) :
    a = List.replicate a.length 255 ∧ (plusOneBytes a).1 = List.replicate a.length 0 := by
  induction a with
  | nil => exact ⟨rfl, rfl⟩
  | cons t a ih =>
    rw [plusOneBytes_cons] at h ⊢
    split at h
    · next hcarry =>
      obtain ⟨hones, hzeros⟩ := ih hcarry
      split at h
      · cases h
      · next hlt =>
        have ht : t = 255 := le_antisymm (Nat.le_of_lt_succ t.isLt) (not_lt.mp hlt)
        rw [if_pos hcarry, if_neg hlt, List.length_cons, List.replicate_succ, List.replicate_succ, ← hones, ← hzeros, ht]
        exact ⟨rfl, rfl⟩
    · cases h

/-- A borrow is left over from the first address only. -/
theorem minusOneBytes_borrow {a : List (Fin 256)} (h : (minusOneBytes a).2 = true) :
    a = List.replicate a.length 0 ∧ (minusOneBytes a).1 = List.replicate a.length 255 := by
  induction a with
  | nil => exact ⟨rfl, rfl⟩
  | cons t a ih =>
    rw [minusOneBytes_cons] at h ⊢
    split at h
    · next hborrow =>
      obtain ⟨hzeros, hones⟩ := ih hborrow
      split at h
      · cases h
      · next hlt =>
        have ht : t = 0 := Fin.le_zero_iff.mp (not_lt.mp hlt)
        rw [if_pos hborrow, if_neg hlt, List.length_cons, List.replicate_succ, List.replicate_succ, ← hzeros, ← hones, ht]
        exact ⟨rfl, rfl⟩
    · cases h

/-- Nothing is between an address and the next one. -/
theorem lt_plusOneBytes_iff {a b : List (Fin 256)} (h : (plusOneBytes a).2 = false) (hlen : b.length = a.length) :
    b < (plusOneBytes a).1 ↔ ¬ a < b := by
  induction a generalizing b with
  | nil => cases h
  | cons t a ih =>
    obtain ⟨u, b, rfl⟩ := List.exists_cons_of_length_eq_add_one hlen
    have hlen : b.length = a.length := Nat.succ.inj hlen
    rw [plusOneBytes_cons] at h ⊢
    split at h
    · next hcarry =>
      obtain ⟨hones, hzeros⟩ := plusOneBytes_carry hcarry
      split at h
      · next hlt =>
        have hzero := not_lt_zeros hlen
        have hone := not_ones_lt hlen
        rw [← hones] at hone
        rw [if_pos hcarry, if_pos hlt, hzeros, lt_cons_iff, lt_cons_iff, or_iff_left fun h => hzero h.2,
          or_iff_left fun h => hone h.2, lt_add_one_iff hlt]
      · cases h
    · next hcarry =>
      rw [if_neg hcarry, lt_cons_iff, lt_cons_iff, ih (eq_false_of_ne_true hcarry) hlen]
      constructor
      · rintro (hlt | ⟨rfl, hle⟩) (hlt' | ⟨heq, hlt'⟩)
        · exact hlt.asymm hlt'
        · exact hlt.ne heq.symm
        · exact lt_irrefl _ hlt'
        · exact hle hlt'
      · intro hnot
        rcases lt_trichotomy u t with hlt | rfl | hlt
        · exact .inl hlt
        · exact .inr ⟨rfl, fun hlt => hnot (.inr ⟨rfl, hlt⟩)⟩
        · exact absurd (.inl hlt) hnot

/-- Nothing is between an address and the one before it. -/
theorem minusOneBytes_lt_iff {a b : List (Fin 256)} (h : (minusOneBytes a).2 = false) (hlen : b.length = a.length) :
    (minusOneBytes a).1 < b ↔ ¬ b < a := by
  induction a generalizing b with
  | nil => cases h
  | cons t a ih =>
    obtain ⟨u, b, rfl⟩ := List.exists_cons_of_length_eq_add_one hlen
    have hlen : b.length = a.length := Nat.succ.inj hlen
    rw [minusOneBytes_cons] at h ⊢
    split at h
    · next hborrow =>
      obtain ⟨hzeros, hones⟩ := minusOneBytes_borrow hborrow
      split at h
      · next hpos =>
        have hzero := not_lt_zeros hlen
        have hone := not_ones_lt hlen
        rw [← hzeros] at hzero
        rw [if_pos hborrow, if_pos hpos, hones, lt_cons_iff, lt_cons_iff, or_iff_left fun h => hone h.2,
          or_iff_left fun h => hzero h.2, sub_one_lt_iff hpos]
      · cases h
    · next hborrow =>
      rw [if_neg hborrow, lt_cons_iff, lt_cons_iff, ih (eq_false_of_ne_true hborrow) hlen]
      constructor
      · rintro (hlt | ⟨rfl, hle⟩) (hlt' | ⟨heq, hlt'⟩)
        · exact hlt.asymm hlt'
        · exact hlt.ne heq.symm
        · exact lt_irrefl _ hlt'
        · exact hle hlt'
      · intro hnot
        rcases lt_trichotomy t u with hlt | rfl | hlt
        · exact .inl hlt
        · exact .inr ⟨rfl, fun hlt => hnot (.inr ⟨rfl, hlt⟩)⟩
        · exact absurd (.inl hlt) hnot

/-- `address_v4::bytes_type` and `address_v6::bytes_type`, with the order of `std::array`. -/
abbrev Bytes (n : ℕ) := { a : List (Fin 256) // a.length = n }

instance (n : ℕ) : Addr (Bytes n) where
  zero := ⟨List.replicate n 0, List.length_replicate⟩
  maxAddr := ⟨List.replicate n 255, List.length_replicate⟩
  plusOne a := ⟨(plusOneBytes a.1).1, (length_plusOneBytes a.1).trans a.2⟩
  minusOne a := ⟨(minusOneBytes a.1).1, (length_minusOneBytes a.1).trans a.2⟩
  zero_le a := not_lt.mp (not_lt_zeros a.2)
  le_maxAddr a := not_lt.mp (not_ones_lt a.2)
  plusOne_le_iff a b h := by
    have hcarry : (plusOneBytes a.1).2 = false := by
      refine eq_false_of_ne_true fun hcarry => h (Subtype.ext ?_)
      rw [(plusOneBytes_carry hcarry).1, a.2]
    rw [← not_lt]
    exact (not_congr (lt_plusOneBytes_iff hcarry (b.2.trans a.2.symm))).trans not_not
  le_minusOne_iff a b h := by
    have hborrow : (minusOneBytes a.1).2 = false := by
      refine eq_false_of_ne_true fun hborrow => h (Subtype.ext ?_)
      rw [(minusOneBytes_borrow hborrow).1, a.2]
    rw [← not_lt]
    exact (not_congr (minusOneBytes_lt_iff hborrow (b.2.trans a.2.symm))).trans not_not

end Filter

end LibtorrentSN
