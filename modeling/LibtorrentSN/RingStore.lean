import Mathlib

/-!
# Ring stores

A finite map on the residues modulo `N`, kept in a list of slots whose length divides `N`:
the value of key `k` sits in slot `k % length`. Two keys can fall on one slot, so the store is
only unambiguous while every stored key lies in one window no longer than the list. The window
is not part of the store: it is stated where it is needed, from any base.
-/

namespace LibtorrentSN

namespace RingStore

variable {α : Type*} {N : ℕ}

/-- The distance from `a` up to `b`, modulo `N`. -/
def dist (N a b : ℕ) : ℕ := (b + N - a) % N

theorem dist_lt {a b : ℕ} (ha : a < N) : dist N a b < N := Nat.mod_lt _ (by omega)

theorem add_dist {a b : ℕ} (ha : a < N) (hb : b < N) : (a + dist N a b) % N = b := by
  have h : a + (b + N - a) = b + N := by omega
  rw [dist, Nat.add_mod_mod, h, Nat.add_mod_right, Nat.mod_eq_of_lt hb]

theorem dist_add {a o : ℕ} (ha : a < N) (ho : o < N) : dist N a ((a + o) % N) = o := by
  rcases Nat.lt_or_ge (a + o) N with h | h
  · have hs : a + o + N - a = o + N := by omega
    rw [dist, Nat.mod_eq_of_lt h, hs, Nat.add_mod_right, Nat.mod_eq_of_lt ho]
  · have hm : (a + o) % N = a + o - N := by
      rw [Nat.mod_eq_sub_mod h, Nat.mod_eq_of_lt (by omega)]
    have hs : a + o - N + N - a = o := by omega
    rw [dist, hm, hs, Nat.mod_eq_of_lt ho]

/-- The sum of `f` over the values stored under the keys below `N`. -/
def total (N : ℕ) (f : α → ℕ) (m : ℕ → Option α) : ℕ := ∑ k ∈ Finset.range N, (m k).elim 0 f

theorem total_update (f : α → ℕ) (m : ℕ → Option α) {k : ℕ} (hk : k < N) (v : Option α) :
    total N f (Function.update m k v) + (m k).elim 0 f = total N f m + v.elim 0 f := by
  have hmem : k ∈ Finset.range N := Finset.mem_range.mpr hk
  have hrest : ∑ x ∈ (Finset.range N).erase k, (Function.update m k v x).elim 0 f =
      ∑ x ∈ (Finset.range N).erase k, (m x).elim 0 f := by
    refine Finset.sum_congr rfl fun x hx => ?_
    rw [Function.update_of_ne (Finset.ne_of_mem_erase hx)]
  rw [total, total, ← Finset.add_sum_erase _ _ hmem, ← Finset.add_sum_erase _ _ hmem, hrest,
    Function.update_self]
  omega

theorem total_empty (f : α → ℕ) : total N f (fun _ => none) = 0 := by
  simp [total]

/-- Two keys of one window that fall on one slot are the same key. -/
theorem eq_of_slot {a b f c : ℕ} (hc : c ∣ N) (hf : f < N) (ha : a < N) (hb : b < N)
    (hda : dist N f a < c) (hdb : dist N f b < c) (h : a % c = b % c) : a = b := by
  have key : ∀ {x}, x < N → (f + dist N f x) % c = x % c := by
    intro x hx
    rw [← Nat.mod_mod_of_dvd (f + dist N f x) hc, add_dist hf hx]
  have hmod : f + dist N f a ≡ f + dist N f b [MOD c] := by
    rw [Nat.ModEq, key ha, key hb, h]
  have hd : dist N f a = dist N f b := by
    have := hmod.add_left_cancel'
    rwa [Nat.ModEq, Nat.mod_eq_of_lt hda, Nat.mod_eq_of_lt hdb] at this
  rw [← add_dist hf ha, ← add_dist hf hb, hd]

/-- The value in slot `i`. -/
def get (s : List (Option α)) (i : ℕ) : Option α := s[i]?.join

@[simp] theorem get_replicate (n i : ℕ) : get (List.replicate n (none : Option α)) i = none := by
  rw [get, List.getElem?_replicate]
  split <;> rfl

theorem get_set (s : List (Option α)) (i j : ℕ) (v : Option α) :
    get (s.set i v) j = if i = j ∧ i < s.length then v else get s j := by
  rw [get, get, List.getElem?_set]
  by_cases hij : i = j
  · by_cases hi : i < s.length
    · simp [hij, hij ▸ hi]
    · have : s[j]? = none := List.getElem?_eq_none (by omega)
      simp [hij, hij ▸ hi]
  · simp [hij]

/-- Every key stored lies less than `w` past `f`. -/
def Within (N f w : ℕ) (m : ℕ → Option α) : Prop := ∀ k, m k ≠ none → dist N f k < w

theorem Within.mono {f v w : ℕ} {m : ℕ → Option α} (h : Within N f v m) (hvw : v ≤ w) :
    Within N f w m :=
  fun k hk => (h k hk).trans_le hvw

/-- The slots `s` hold the map `m` and nothing else. -/
structure Stores (N : ℕ) (s : List (Option α)) (m : ℕ → Option α) : Prop where
  key_lt : ∀ k, m k ≠ none → k < N
  stored : ∀ k p, m k = some p → get s (k % s.length) = some p
  source : ∀ i p, get s i = some p → ∃ k, k % s.length = i ∧ m k = some p

variable {s : List (Option α)} {m : ℕ → Option α} {f k : ℕ}

/-- Inside a window of the length of the store, a slot holds exactly its key's value. -/
theorem Stores.get_eq (h : Stores N s m) (hs : s.length ∣ N) (hf : f < N) (hk : k < N)
    (hw : Within N f s.length m) (hd : dist N f k < s.length) : get s (k % s.length) = m k := by
  cases hm : m k with
  | some p => exact h.stored k p hm
  | none =>
    cases hg : get s (k % s.length) with
    | none => rfl
    | some p =>
      obtain ⟨k', hk', hm'⟩ := h.source _ _ hg
      have hne : m k' ≠ none := by simp [hm']
      have := eq_of_slot hs hf (h.key_lt k' hne) hk (hw k' hne) hd hk'
      rw [this, hm] at hm'
      exact absurd hm' (by simp)

/-- Writing the slot of a key inside the window changes that key only. -/
theorem Stores.set (h : Stores N s m) (hs : s.length ∣ N) (hf : f < N) (hk : k < N)
    (hw : Within N f s.length m) (hd : dist N f k < s.length) (v : Option α) :
    Stores N (s.set (k % s.length) v) (Function.update m k v) := by
  have hlt : k % s.length < s.length := Nat.mod_lt _ (by omega)
  have hlen : (s.set (k % s.length) v).length = s.length := List.length_set
  refine ⟨fun k' hk' => ?_, fun k' p hp => ?_, fun i p hp => ?_⟩
  · by_cases hkk : k' = k
    · exact hkk ▸ hk
    · rw [Function.update_of_ne hkk] at hk'
      exact h.key_lt k' hk'
  · rw [hlen, get_set]
    by_cases hkk : k' = k
    · subst hkk
      rw [Function.update_self] at hp
      rw [if_pos ⟨rfl, hlt⟩, hp]
    · rw [Function.update_of_ne hkk] at hp
      have hne : m k' ≠ none := by simp [hp]
      have hslot : ¬ (k % s.length = k' % s.length ∧ k % s.length < s.length) := by
        intro hc
        exact hkk (eq_of_slot hs hf hk (h.key_lt k' hne) hd (hw k' hne) hc.1).symm
      rw [if_neg hslot]
      exact h.stored k' p hp
  · rw [hlen]
    rw [get_set] at hp
    by_cases hi : k % s.length = i
    · rw [if_pos ⟨hi, hlt⟩] at hp
      exact ⟨k, hi, by rw [Function.update_self, hp]⟩
    · rw [if_neg (by simp [hi])] at hp
      obtain ⟨k', hk', hm'⟩ := h.source i p hp
      have hkk : k' ≠ k := by
        rintro rfl
        exact hi hk'
      exact ⟨k', hk', by rw [Function.update_of_ne hkk, hm']⟩

/-! ### Copying into a longer store -/

/-- Copy the `n` slots that start at `first` into an empty list of `t` slots. -/
def copy (s : List (Option α)) (first t n : ℕ) : List (Option α) :=
  (List.range n).foldl
    (fun st i => st.set ((first + i) % t) (get s ((first + i) % s.length)))
    (List.replicate t none)

theorem copy_succ (s : List (Option α)) (first t n : ℕ) :
    copy s first t (n + 1) =
      (copy s first t n).set ((first + n) % t) (get s ((first + n) % s.length)) := by
  rw [copy, List.range_succ, List.foldl_append]
  rfl

theorem length_copy (s : List (Option α)) (first t n : ℕ) : (copy s first t n).length = t := by
  induction n with
  | zero => exact List.length_replicate
  | succ n ih =>
    rw [copy_succ]
    exact List.length_set.trans ih

/-- What a slot holds after the copy: the slot copied there, if there is one. -/
theorem get_copy {first t n : ℕ} (hn : n ≤ t) (i : ℕ) (v : α) :
    get (copy s first t n) i = some v ↔
      ∃ o < n, (first + o) % t = i ∧ get s ((first + o) % s.length) = some v := by
  induction n with
  | zero => simp [copy]
  | succ n ih =>
    have hpos : 0 < t := by omega
    rw [copy_succ, get_set, length_copy]
    have hlt : (first + n) % t < t := Nat.mod_lt _ hpos
    by_cases hi : (first + n) % t = i
    · rw [if_pos ⟨hi, hlt⟩]
      refine ⟨fun h => ⟨n, by omega, hi, h⟩, ?_⟩
      rintro ⟨o, ho, hoi, hv⟩
      have hmod : first + o ≡ first + n [MOD t] := by rw [Nat.ModEq, hoi, hi]
      have hon : o = n := by
        have := hmod.add_left_cancel'
        rwa [Nat.ModEq, Nat.mod_eq_of_lt (by omega), Nat.mod_eq_of_lt (by omega)] at this
      exact hon ▸ hv
    · rw [if_neg (by simp [hi]), ih (by omega)]
      refine ⟨fun ⟨o, ho, h⟩ => ⟨o, by omega, h⟩, fun ⟨o, ho, hoi, hv⟩ => ?_⟩
      have hon : o ≠ n := by
        rintro rfl
        exact hi hoi
      exact ⟨o, by omega, hoi, hv⟩

/-- Copying the window into a longer list keeps the map. -/
theorem Stores.copy (h : Stores N s m) {t : ℕ} (hs : s.length ∣ N) (ht : t ∣ N)
    (hst : s.length ≤ t) (hf : f < N) (hw : Within N f s.length m) :
    Stores N (RingStore.copy s f t s.length) m := by
  have hlen : (RingStore.copy s f t s.length).length = t := length_copy s f t s.length
  have slot : ∀ {c k}, c ∣ N → k < N → (f + dist N f k) % c = k % c := by
    intro c k hc hk
    rw [← Nat.mod_mod_of_dvd (f + dist N f k) hc, add_dist hf hk]
  refine ⟨h.key_lt, fun k p hp => ?_, fun i p hp => ?_⟩
  · have hne : m k ≠ none := by simp [hp]
    have hk := h.key_lt k hne
    rw [hlen, get_copy hst]
    refine ⟨dist N f k, hw k hne, slot ht hk, ?_⟩
    rw [slot hs hk]
    exact h.stored k p hp
  · rw [get_copy hst] at hp
    obtain ⟨o, ho, hoi, hv⟩ := hp
    obtain ⟨k, hk, hm⟩ := h.source _ _ hv
    have hne : m k ≠ none := by simp [hm]
    have hkN := h.key_lt k hne
    refine ⟨k, ?_, hm⟩
    have hmod : f + dist N f k ≡ f + o [MOD s.length] := by
      rw [Nat.ModEq, slot hs hkN, hk]
    have hod : dist N f k = o := by
      have := hmod.add_left_cancel'
      rwa [Nat.ModEq, Nat.mod_eq_of_lt (hw k hne), Nat.mod_eq_of_lt ho] at this
    rw [hlen, ← slot ht hkN, hod, hoi]

end RingStore

end LibtorrentSN
