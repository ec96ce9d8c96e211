import LibtorrentSN.BucketList

/-!
# Bucketed lists: insertion and erasure

Both operations walk over the buckets above the one they change. The invariants below
say what such a walk has already settled (the slots on one side of the free slot) and
what it has not touched (the slots on the other side).
-/

namespace LibtorrentSN

namespace BucketList

/-! ## Insertion -/

section Insert
variable {l l₀ : BucketList} {key key₀ : ℕ → ℤ}

/-- The slot `k` of `l` is as it will stay: its item is indexed there and belongs to
the bucket around `k` once all bucket ends from `q₀` on have moved up by one. -/
def InsertDone (l₀ : BucketList) (key : ℕ → ℤ) (q₀ : ℕ) (l : BucketList) (k : ℕ) : Prop :=
  l.item k < l₀.index.length ∧ l.idx (l.item k) = k ∧
    ∃ j < l₀.bounds.length, key (l.item k) = j ∧
      l₀.lo j + (if q₀ < j then 1 else 0) ≤ k ∧ k < l₀.hi j + (if q₀ ≤ j then 1 else 0)

/-- The invariant of `insertLoop`: `x` was carried away from slot `i` of the old list
`l₀`, which lies in (or at the end of) bucket `q`; slots up to `i` are done and slots
above `i` are untouched. -/
structure InsertInv (l₀ : BucketList) (key : ℕ → ℤ) (q₀ q i x : ℕ) (l : BucketList) :
    Prop where
  length : l.items.length = l₀.items.length + 1
  bounds_length : l.bounds.length = l₀.bounds.length
  index_length : l.index.length = l₀.index.length
  bound_eq : ∀ j, l.bound j = l₀.bound j + (if q₀ ≤ j ∧ j < q then 1 else 0)
  lo_le : l₀.lo q ≤ i
  le_hi : i ≤ l₀.hi q
  carried : x = if i < l₀.items.length then l₀.item i else l₀.index.length
  fresh : ∀ k ≤ i, l.item k ≠ x
  done : ∀ k ≤ i, InsertDone l₀ key q₀ l k
  above : ∀ k, i < k → k < l₀.items.length → l.item k = l₀.item k ∧ l.idx (l.item k) = k
  tail : i < l₀.items.length → l.item l₀.items.length = l₀.index.length
  listed : ∀ p < l₀.index.length, 0 ≤ key p → p ≠ x →
    ∃ k, (k ≤ i ∨ k < l₀.items.length) ∧ l.item k = p

theorem InsertInv.bound_step {q₀ q i x : ℕ} (h : InsertInv l₀ key q₀ q i x l)
    (hq₀ : q₀ ≤ q) (hq : q < l₀.bounds.length) (j : ℕ) :
    (l.setBound q (l.bound q + 1)).bound j =
      l₀.bound j + (if q₀ ≤ j ∧ j < q + 1 then 1 else 0) := by
  rw [setBound_bound, h.bounds_length, h.bound_eq, h.bound_eq]
  by_cases hj : q = j
  · subst hj
    rw [if_pos ⟨rfl, hq⟩, if_neg (by omega), if_pos (by omega)]
  · rw [if_neg (fun hc => hj hc.1)]
    split_ifs <;> omega

/-- A slot between the free slot and the end of bucket `q` is done when the walk leaves
the bucket. -/
theorem InsertInv.done_above {q₀ q i x k : ℕ} (h : InsertInv l₀ key q₀ q i x l)
    (h₀ : l₀.Sorted key₀) (hkey : ∀ k < l₀.items.length, key (l₀.item k) = key₀ (l₀.item k))
    (hq₀ : q₀ ≤ q) (hq : q < l₀.bounds.length) (hik : i < k) (hk : k < l₀.hi q) :
    InsertDone l₀ key q₀ l k := by
  have hlt : k < l₀.items.length := Nat.lt_of_lt_of_le hk (h₀.bound_le hq)
  obtain ⟨hitem, hidx⟩ := h.above k hik hlt
  have hlo := h.lo_le
  refine ⟨by rw [hitem]; exact (h₀.slot k hlt).1, hidx, q, hq, ?_, ?_, ?_⟩
  · rw [hitem, hkey k hlt]
    exact h₀.key_item hq (by omega) hk
  · split_ifs <;> omega
  · rw [if_pos hq₀]
    omega

/-- One bucket further with the same carried item: the bucket was empty above `i`. -/
theorem InsertInv.skip {q₀ q i x : ℕ} (h : InsertInv l₀ key q₀ q i x l)
    (hq₀ : q₀ ≤ q) (hq : q + 1 < l₀.bounds.length) (h₀ : l₀.Sorted key₀)
    (hi : l.bound q = i) :
    InsertInv l₀ key q₀ (q + 1) i x (l.setBound q (l.bound q + 1)) := by
  have hb := h.bound_eq q
  rw [if_neg (by omega)] at hb
  refine { h with
    bounds_length := by rw [setBound_length, h.bounds_length]
    bound_eq := h.bound_step hq₀ (by omega)
    lo_le := by rw [lo_succ]; omega
    le_hi := by
      have := h₀.mono q (q + 1) (by omega) hq
      simp only [BucketList.hi]
      omega }

/-- The carried item goes to the end of its bucket `q`. -/
theorem InsertInv.place {q₀ q i x : ℕ} (h : InsertInv l₀ key q₀ q i x l)
    (h₀ : l₀.Sorted key₀) (hkey : ∀ k < l₀.items.length, key (l₀.item k) = key₀ (l₀.item k))
    (hq₀ : q₀ ≤ q) (hq : q < l₀.bounds.length) (hi : l.bound q ≠ i) :
    let t := l.bound q
    let l' := (l.setBound q (t + 1)).put t x
    (∀ k ≤ t, InsertDone l₀ key q₀ l' k) ∧
    (∀ k, t < k → k < l₀.items.length → l'.item k = l₀.item k ∧ l'.idx (l'.item k) = k) ∧
    (∀ p < l₀.index.length, 0 ≤ key p → p ≠ (if t < l₀.items.length then l₀.item t
        else l₀.index.length) → ∃ k, (k ≤ t ∨ k < l₀.items.length) ∧ l'.item k = p) ∧
    (∀ k ≤ t, l'.item k ≠ if t < l₀.items.length then l₀.item t else l₀.index.length) ∧
    (t < l₀.items.length → l'.item l₀.items.length = l₀.index.length) := by
  intro t l'
  have hb : t = l₀.hi q := by
    have := h.bound_eq q
    rw [if_neg (by omega)] at this
    exact this
  have hit : i < t := by
    have := h.le_hi
    omega
  have htL : t ≤ l₀.items.length := by
    rw [hb]
    exact h₀.bound_le hq
  have hiL : i < l₀.items.length := by omega
  have hx : x = l₀.item i := by rw [h.carried, if_pos hiL]
  have hxn : x < l₀.index.length := by rw [hx]; exact (h₀.slot i hiL).1
  have hxkey : key x = q := by
    rw [hx, hkey i hiL]
    exact h₀.key_item hq h.lo_le (by omega)
  -- reading the new list
  have hitem : ∀ k, l'.item k = if k = t then x else l.item k := by
    intro k
    simp only [l', put_item, setBound_items, setBound_item, h.length]
    exact if_congr ⟨fun hc => hc.1.symm, fun hc => ⟨hc.symm, by omega⟩⟩ rfl rfl
  have hidx : ∀ p, l'.idx p = if p = x then (t : ℤ) else l.idx p := by
    intro p
    simp only [l', put_idx, setBound_index, setBound_idx, h.index_length]
    exact if_congr ⟨fun hc => hc.1.symm, fun hc => ⟨hc.symm, hxn⟩⟩ rfl rfl
  have habove : ∀ k, i < k → k < l₀.items.length → l.item k ≠ x := by
    intro k hik hk
    rw [(h.above k hik hk).1, hx]
    exact fun hc => by have := h₀.item_inj hk hiL hc; omega
  have hne : ∀ k < t, l.item k ≠ x := by
    intro k hk
    by_cases hki : k ≤ i
    · exact h.fresh k hki
    · exact habove k (by omega) (by omega)
  have hdone : ∀ k ≤ t, InsertDone l₀ key q₀ l' k := by
    intro k hk
    rcases Nat.lt_or_eq_of_le hk with hlt | rfl
    · have hd : InsertDone l₀ key q₀ l k := by
        by_cases hki : k ≤ i
        · exact h.done k hki
        · exact h.done_above h₀ hkey hq₀ hq (by omega) (by omega)
      simpa only [InsertDone, hitem, hidx, if_neg (Nat.ne_of_lt hlt), if_neg (hne k hlt)] using hd
    · refine ⟨?_, ?_, q, hq, ?_, ?_, ?_⟩
      · rwa [hitem, if_pos rfl]
      · rw [hitem, if_pos rfl, hidx, if_pos rfl]
      · rwa [hitem, if_pos rfl]
      · have := h.lo_le
        split_ifs <;> omega
      · rw [if_pos hq₀]
        omega
  refine ⟨hdone, ?_, ?_, ?_, ?_⟩
  · intro k htk hk
    have ha := h.above k (by omega) hk
    rw [hitem, if_neg (by omega), hidx, if_neg (habove k (by omega) hk)]
    exact ha
  · intro p hp hp0 hpx
    by_cases hpe : p = x
    · exact ⟨t, .inl (Nat.le_refl t), by rw [hitem, if_pos rfl, hpe]⟩
    · obtain ⟨k, hk, hkp⟩ := h.listed p hp hp0 hpe
      by_cases hkt : k = t
      · -- slot `t` held the item carried on
        exfalso
        have htl : t < l₀.items.length := by omega
        rw [if_pos htl] at hpx
        rw [hkt, (h.above t hit htl).1] at hkp
        exact hpx hkp.symm
      · exact ⟨k, by omega, by rw [hitem, if_neg hkt, hkp]⟩
  · intro k hk
    split_ifs with htl
    · rw [hitem]
      split_ifs with hkt
      · rw [hx]
        exact fun hc => by have := h₀.item_inj hiL htl hc; omega
      · intro hc
        have h₁ : l.idx (l.item k) = k := by
          by_cases hki : k ≤ i
          · exact (h.done k hki).2.1
          · exact (h.above k (by omega) (by omega)).2
        have h₂ := (h.above t hit htl).2
        rw [(h.above t hit htl).1, ← hc, h₁] at h₂
        omega
    · have := (hdone k hk).1
      omega
  · intro htl
    rw [hitem, if_neg (by omega)]
    exact h.tail hiL

/-- When every slot is done the list is exact. -/
theorem sorted_of_insertDone {q₀ : ℕ} (h₀ : l₀.Sorted key₀)
    (hq₀ : q₀ < l₀.bounds.length)
    (hlen : l.items.length = l₀.items.length + 1)
    (hblen : l.bounds.length = l₀.bounds.length)
    (hilen : l.index.length = l₀.index.length)
    (hb : ∀ j, j < l₀.bounds.length → l.bound j = l₀.bound j + (if q₀ ≤ j then 1 else 0))
    (hdone : ∀ k ≤ l₀.items.length, InsertDone l₀ key q₀ l k)
    (hlisted : ∀ p < l₀.index.length, 0 ≤ key p → ∃ k ≤ l₀.items.length, l.item k = p) :
    l.Sorted key := by
  refine ⟨by omega, ?_, ?_, ?_, ?_, ?_⟩
  · intro i j hij hj
    rw [hb i (by omega), hb j (by omega)]
    have := h₀.mono i j hij (by omega)
    split_ifs <;> omega
  · rw [hb _ (by omega), hblen, h₀.last, hlen, if_pos (by omega)]
  · exact fun k hk => (hdone k (by omega)).2.1
  · intro k hk
    obtain ⟨h₁, -, j, hj, hkey, hlo, hhi⟩ := hdone k (by omega)
    refine ⟨by omega, j, by omega, hkey, ?_, ?_⟩
    · rcases j with - | j
      · exact Nat.zero_le _
      · rw [lo_succ] at hlo ⊢
        rw [hb j (by omega)]
        split_ifs at hlo ⊢ <;> omega
    · rw [hi, hb j hj]
      exact hhi
  · intro p hp hp0
    obtain ⟨k, hk, hkp⟩ := hlisted p (by omega) hp0
    exact ⟨k, by omega, hkp⟩

/-- The walk over the buckets ends with an exact list. -/
theorem InsertInv.sorted_loop (h₀ : l₀.Sorted key₀)
    (hkey : ∀ k < l₀.items.length, key (l₀.item k) = key₀ (l₀.item k)) {q₀ : ℕ} :
    ∀ (fuel q i x : ℕ) (l : BucketList), q₀ ≤ q → q < l₀.bounds.length →
      l₀.bounds.length ≤ q + fuel → InsertInv l₀ key q₀ q i x l →
      (if (insertLoop fuel q i x l).2.1 = l₀.index.length then (insertLoop fuel q i x l).2.2
        else (insertLoop fuel q i x l).2.2.put (insertLoop fuel q i x l).1
          (insertLoop fuel q i x l).2.1).Sorted key := by
  intro fuel
  induction fuel with
  | zero =>
    intro q i x l _ hq hf _
    omega
  | succ fuel ih =>
    intro q i x l hq₀ hq hf h
    have hbl := h.bounds_length
    have hlast := h₀.last
    have hbq : l.bound q = l₀.bound q := by
      rw [h.bound_eq, if_neg (by omega), Nat.add_zero]
    -- the bucket ends once bucket `q`, the last one, has grown too
    have hends : q + 1 = l₀.bounds.length → ∀ j, j < l₀.bounds.length →
        (l.setBound q (l.bound q + 1)).bound j = l₀.bound j + (if q₀ ≤ j then 1 else 0) := by
      intro hqe j hj
      rw [h.bound_step hq₀ hq]
      split_ifs <;> omega
    by_cases hi : l.bound q = i
    · by_cases hqe : q + 1 < l₀.bounds.length
      · have hstep : insertLoop (fuel + 1) q i x l =
            insertLoop fuel (q + 1) i x (l.setBound q (l.bound q + 1)) := by
          rw [insertLoop]
          exact if_pos ⟨hi, by rw [setBound_length]; omega⟩
        rw [hstep]
        exact ih _ _ _ _ (by omega) hqe (by omega) (h.skip hq₀ hqe h₀ hi)
      · have hstep : insertLoop (fuel + 1) q i x l =
            (l.bound q, x, l.setBound q (l.bound q + 1)) := by
          rw [insertLoop]
          simp only [setBound_length]
          rw [if_neg (by omega), if_pos (by omega)]
        have hiL : i = l₀.items.length := by
          rw [← hi, hbq, ← hlast]
          congr 1
          omega
        have hx : x = l₀.index.length := by rw [h.carried, if_neg (by omega)]
        rw [hstep, if_pos hx]
        refine sorted_of_insertDone h₀ (by omega) h.length (by rw [setBound_length, hbl])
          h.index_length (hends (by omega)) ?_ ?_
        · exact fun k hk => h.done k (by omega)
        · intro p hp hp0
          obtain ⟨k, hk, hkp⟩ := h.listed p hp hp0 (by omega)
          exact ⟨k, by omega, hkp⟩
    · have hiq : i < l.bound q := by
        have := h.le_hi
        simp only [BucketList.hi] at this
        omega
      obtain ⟨hdone, habove, hlisted, hfresh, htail⟩ := h.place h₀ hkey hq₀ hq hi
      by_cases hqe : q + 1 < l₀.bounds.length
      · have hstep : insertLoop (fuel + 1) q i x l =
            insertLoop fuel (q + 1) (l.bound q) (l.item (l.bound q))
              ((l.setBound q (l.bound q + 1)).put (l.bound q) x) := by
          rw [insertLoop]
          simp only [setBound_length, setBound_item]
          rw [if_neg (by omega), if_neg (by omega)]
        have hmono := h₀.mono q (q + 1) (by omega) hqe
        have hcarry : l.item (l.bound q) =
            if l.bound q < l₀.items.length then l₀.item (l.bound q) else l₀.index.length := by
          split_ifs with htl
          · exact (h.above _ hiq htl).1
          · have := h₀.bound_le hq
            rw [show l.bound q = l₀.items.length by omega]
            exact h.tail (by omega)
        rw [hstep]
        refine ih _ _ _ _ (by omega) hqe (by omega)
          ⟨by rw [put_length, setBound_items, h.length], by rw [put_bounds, setBound_length, hbl],
            by rw [put_index_length, setBound_index, h.index_length], h.bound_step hq₀ hq, ?_, ?_,
            hcarry, ?_, hdone, habove, htail, ?_⟩
        · rw [lo_succ]
          omega
        · simp only [BucketList.hi]
          omega
        · rwa [hcarry]
        · rwa [hcarry]
      · have hstep : insertLoop (fuel + 1) q i x l =
            (l.bound q, x, l.setBound q (l.bound q + 1)) := by
          rw [insertLoop]
          simp only [setBound_length]
          rw [if_neg (by omega), if_pos (by omega)]
        have htL : l.bound q = l₀.items.length := by
          rw [hbq, ← hlast]
          congr 1
          omega
        have hxn : x ≠ l₀.index.length := by
          have := (hdone (l.bound q) (Nat.le_refl _)).1
          rw [put_item, if_pos ⟨rfl, by rw [setBound_items, h.length]; omega⟩] at this
          omega
        rw [hstep, if_neg hxn]
        refine sorted_of_insertDone h₀ (by omega) (by rw [put_length, setBound_items, h.length])
          (by rw [put_bounds, setBound_length, hbl])
          (by rw [put_index_length, setBound_index, h.index_length]) (hends (by omega)) ?_ ?_
        · exact fun k hk => hdone k (by omega)
        · intro p hp hp0
          obtain ⟨k, hk, hkp⟩ := hlisted p hp hp0 (by rw [if_neg (by omega)]; omega)
          exact ⟨k, by omega, hkp⟩

/-- **Insertion.** An item that had no key gets the key `q`. -/
theorem Sorted.insert (h : l.Sorted key₀) {p q : ℕ} (r : ℕ) (hp : p < l.index.length)
    (habs : key₀ p < 0) (hkey : ∀ y, y ≠ p → key y = key₀ y) (hq : key p = q) :
    (l.insert q p r).Sorted key := by
  have hg := h.growTo q
  have hglen := growTo_length l q
  set l₁ := l.growTo q with hl₁
  have hn : l₁.index.length = l.index.length := rfl
  set i := if l₁.hi q = l₁.lo q then l₁.lo q else random r (l₁.hi q - l₁.lo q) + l₁.lo q with hi
  have hlohi := hg.lo_le_hi (q := q) (by omega)
  have hloi : l₁.lo q ≤ i := by
    rw [hi]
    split_ifs <;> omega
  have hihi : i ≤ l₁.hi q := by
    rw [hi]
    have := random_le r (l₁.hi q - l₁.lo q)
    split_ifs <;> omega
  have hiL : i ≤ l₁.items.length := Nat.le_trans hihi (hg.bound_le (by omega))
  -- no slot holds the new item
  have hnot : ∀ k < l₁.items.length, l₁.item k ≠ p := by
    intro k hk hc
    obtain ⟨-, j, -, hj, -⟩ := hg.slot k hk
    rw [hc] at hj
    omega
  set l₂ : BucketList := { l₁ with items := l₁.items ++ [l₁.index.length] } with hl₂
  have hitem₂ : ∀ k, l₂.item k = if k = l₁.items.length then l₁.index.length else l₁.item k :=
    fun k => getD_append_single ..
  have hitem : ∀ k, (l₂.put i p).item k = if k = i then p else l₂.item k := by
    intro k
    rw [put_item]
    refine if_congr ⟨fun hc => hc.1.symm, fun hc => ⟨hc.symm, ?_⟩⟩ rfl rfl
    simp only [hl₂, List.length_append, List.length_singleton]
    omega
  have hidx : ∀ y, (l₂.put i p).idx y = if y = p then (i : ℤ) else l₁.idx y := by
    intro y
    rw [put_idx]
    exact if_congr ⟨fun hc => hc.1.symm, fun hc => ⟨hc.symm, hp⟩⟩ rfl rfl
  have hkeys : ∀ k < l₁.items.length, key (l₁.item k) = key₀ (l₁.item k) :=
    fun k hk => hkey _ (hnot k hk)
  have hinv : InsertInv l₁ key q q i (l₂.item i) (l₂.put i p) := by
    refine ⟨by simp [hl₂], rfl, by simp [hl₂], fun j => ?_, hloi, hihi, ?_, ?_, ?_, ?_, ?_, ?_⟩
    · rw [if_neg (by omega)]
      rfl
    · rw [hitem₂]
      split_ifs <;> first | rfl | omega
    · intro k hk
      rcases Nat.lt_or_eq_of_le hk with hlt | rfl
      · have hkL : k < l₁.items.length := by omega
        rw [hitem, if_neg (by omega), hitem₂, if_neg (by omega), hitem₂]
        split_ifs with hie
        · exact Nat.ne_of_lt (hg.slot k hkL).1
        · exact fun hc => by have := hg.item_inj hkL (k := i) (by omega) hc; omega
      · rw [hitem, if_pos rfl, hitem₂]
        split_ifs with hie
        · exact Nat.ne_of_lt hp
        · exact (hnot i (by omega)).symm
    · intro k hk
      rcases Nat.lt_or_eq_of_le hk with hlt | rfl
      · have hkL : k < l₁.items.length := by omega
        obtain ⟨hkn, j, hj, hkj, hlo, hhi⟩ := hg.slot k hkL
        have he : (l₂.put i p).item k = l₁.item k := by
          rw [hitem, if_neg (by omega), hitem₂, if_neg (by omega)]
        have hjq : ¬ q < j := by
          intro hc
          have := hg.mono q (j - 1) (by omega) (by omega)
          simp only [lo, BucketList.hi] at *
          split_ifs at hlo <;> omega
        refine ⟨by rwa [he], ?_, j, hj, by rw [he, hkeys k hkL, hkj], ?_, ?_⟩
        · rw [he, hidx, if_neg (hnot k hkL)]
          exact hg.idx_item k hkL
        · rw [if_neg hjq]
          exact hlo
        · split_ifs <;> omega
      · have he : (l₂.put i p).item i = p := by rw [hitem, if_pos rfl]
        refine ⟨by rwa [he], by rw [he, hidx, if_pos rfl], q, by omega, by rw [he, hq], ?_, ?_⟩
        · rw [if_neg (Nat.lt_irrefl q)]
          exact hloi
        · rw [if_pos (Nat.le_refl q)]
          omega
    · intro k hik hk
      have he : (l₂.put i p).item k = l₁.item k := by
        rw [hitem, if_neg (by omega), hitem₂, if_neg (by omega)]
      rw [he, hidx, if_neg (hnot k hk)]
      exact ⟨rfl, hg.idx_item k hk⟩
    · intro hlt
      rw [hitem, if_neg (by omega), hitem₂, if_pos rfl]
    · intro y hy hy0 hyx
      by_cases hyp : y = p
      · exact ⟨i, .inl (Nat.le_refl i), by rw [hitem, if_pos rfl, hyp]⟩
      · obtain ⟨k, hk, rfl⟩ := hg.listed y hy (by rw [← hkey y hyp]; exact hy0)
        have hki : k ≠ i := by
          rintro rfl
          rw [hitem₂, if_neg (by omega)] at hyx
          exact hyx rfl
        exact ⟨k, .inr hk, by rw [hitem, if_neg hki, hitem₂, if_neg (by omega)]⟩
  exact InsertInv.sorted_loop hg hkeys _ _ _ _ _ (Nat.le_refl q) (by omega)
    (by change _ ≤ q + (l₁.bounds.length - q); omega) hinv

end Insert

/-! ## Erasure -/

section Erase
variable {l l₀ : BucketList} {key key₀ : ℕ → ℤ}

/-- The slot `k` of `l` is as it will stay once all bucket ends from `q₀` on have moved
down by one. -/
def EraseDone (l₀ : BucketList) (key : ℕ → ℤ) (q₀ : ℕ) (l : BucketList) (k : ℕ) : Prop :=
  l.item k < l₀.index.length ∧ l.idx (l.item k) = k ∧
    ∃ j < l₀.bounds.length, key (l.item k) = j ∧
      l₀.lo j ≤ k + (if q₀ < j then 1 else 0) ∧ k + (if q₀ ≤ j then 1 else 0) < l₀.hi j

/-- The invariant of `eraseLoop`: slot `e` is free, slots below it are done and slots
above it are untouched. `x` is the erased item. -/
structure EraseInv (l₀ : BucketList) (key : ℕ → ℤ) (x q₀ q e : ℕ) (l : BucketList) :
    Prop where
  length : l.items.length = l₀.items.length
  bounds_length : l.bounds.length = l₀.bounds.length
  index_length : l.index.length = l₀.index.length
  bound_eq : ∀ j, j < l₀.bounds.length →
    l.bound j + (if q₀ ≤ j ∧ j < q then 1 else 0) = l₀.bound j
  lo_le : l₀.lo q ≤ e + (if q₀ < q then 1 else 0)
  lt_hi : e < l₀.hi q
  done : ∀ k < e, EraseDone l₀ key q₀ l k
  above : ∀ k, e < k → k < l₀.items.length → l.item k = l₀.item k ∧ l.idx (l.item k) = k
  listed : ∀ p < l₀.index.length, 0 ≤ key p →
    ∃ k, k ≠ e ∧ k < l₀.items.length ∧ l.item k = p

theorem EraseInv.bound_step {x q₀ q e : ℕ} (h : EraseInv l₀ key x q₀ q e l)
    (hq₀ : q₀ ≤ q) (hq : q < l₀.bounds.length) (j : ℕ) (hj : j < l₀.bounds.length) :
    (l.setBound q (l.bound q - 1)).bound j + (if q₀ ≤ j ∧ j < q + 1 then 1 else 0) =
      l₀.bound j := by
  have hb := h.bound_eq j hj
  have hlt := h.lt_hi
  rw [setBound_bound, h.bounds_length]
  by_cases hjq : q = j
  · subst hjq
    rw [if_neg (by omega)] at hb
    rw [if_pos ⟨rfl, hq⟩, if_pos (by omega)]
    simp only [hi] at hlt
    omega
  · rw [if_neg (fun hc => hjq hc.1)]
    split_ifs at hb ⊢ <;> omega

/-- The free slot is the end of bucket `q`: on to the next bucket. -/
theorem EraseInv.skip {x q₀ q e : ℕ} (h : EraseInv l₀ key x q₀ q e l) (h₀ : l₀.Sorted key₀)
    (hq₀ : q₀ ≤ q) (hq : q + 1 < l₀.bounds.length) (he : e = l.bound q - 1) :
    EraseInv l₀ key x q₀ (q + 1) e (l.setBound q (l.bound q - 1)) := by
  have hb := h.bound_eq q (by omega)
  have hlt := h.lt_hi
  rw [if_neg (by omega)] at hb
  simp only [hi] at hlt
  refine { h with
    bounds_length := by rw [setBound_length, h.bounds_length]
    bound_eq := h.bound_step hq₀ (by omega)
    lo_le := by rw [lo_succ, if_pos (by omega)]; omega
    lt_hi := by
      have := h₀.mono q (q + 1) (by omega) hq
      simp only [hi]
      omega }

/-- The last item of bucket `q` fills the free slot. -/
theorem EraseInv.fill {x q₀ q e : ℕ} (h : EraseInv l₀ key x q₀ q e l) (h₀ : l₀.Sorted key₀)
    (hkey : ∀ k < l₀.items.length, l₀.item k ≠ x → key (l₀.item k) = key₀ (l₀.item k))
    (hx : ∀ k, e < k → k < l₀.items.length → l₀.item k ≠ x)
    (hq₀ : q₀ ≤ q) (hq : q < l₀.bounds.length) (he : e ≠ l.bound q - 1) :
    let t := l.bound q - 1
    let l' := (l.setBound q t).put e (l.item t)
    e < t ∧ t < l₀.items.length ∧
    (∀ k < t, EraseDone l₀ key q₀ l' k) ∧
    (∀ k, t < k → k < l₀.items.length → l'.item k = l₀.item k ∧ l'.idx (l'.item k) = k) ∧
    (∀ p < l₀.index.length, 0 ≤ key p →
      ∃ k, k ≠ t ∧ k < l₀.items.length ∧ l'.item k = p) := by
  intro t l'
  have hb := h.bound_eq q hq
  have hlt := h.lt_hi
  have hlo := h.lo_le
  have hbL := h₀.bound_le hq
  rw [if_neg (by omega)] at hb
  simp only [hi] at hlt
  have hte : e < t := by omega
  have htL : t < l₀.items.length := by omega
  have hy := h.above t hte htL
  have hyn : l.item t < l₀.index.length := by rw [hy.1]; exact (h₀.slot t htL).1
  have hlot : l₀.lo q ≤ e + 1 := by split_ifs at hlo <;> omega
  -- slots strictly between the free slot and the end of the bucket hold items of bucket `q`
  have hbucket : ∀ k, e < k → k < l₀.hi q → key (l.item k) = q := by
    intro k hek hk
    have hkL : k < l₀.items.length := Nat.lt_of_lt_of_le hk hbL
    rw [(h.above k hek hkL).1, hkey k hkL (hx k hek hkL)]
    exact h₀.key_item hq (by omega) hk
  have hitem : ∀ k, l'.item k = if k = e then l.item t else l.item k := by
    intro k
    simp only [l', put_item, setBound_items, setBound_item, h.length]
    exact if_congr ⟨fun hc => hc.1.symm, fun hc => ⟨hc.symm, by omega⟩⟩ rfl rfl
  have hidx : ∀ p, l'.idx p = if p = l.item t then (e : ℤ) else l.idx p := by
    intro p
    simp only [l', put_idx, setBound_index, setBound_idx, h.index_length]
    exact if_congr ⟨fun hc => hc.1.symm, fun hc => ⟨hc.symm, hyn⟩⟩ rfl rfl
  -- only slot `t` holds the item that is moved
  have hne : ∀ k, k ≠ e → k ≠ t → k < l₀.items.length → l.item k ≠ l.item t := by
    intro k hke hkt hkL hc
    have h₁ : l.idx (l.item k) = k := by
      rcases Nat.lt_or_gt_of_ne hke with hlt | hgt
      · exact (h.done k hlt).2.1
      · exact (h.above k hgt hkL).2
    rw [hc, hy.2] at h₁
    omega
  refine ⟨hte, htL, ?_, ?_, ?_⟩
  · intro k hk
    rcases Nat.lt_trichotomy k e with hke | rfl | hke
    · simpa only [EraseDone, hitem, hidx, if_neg (Nat.ne_of_lt hke),
        if_neg (hne k (by omega) (by omega) (by omega))] using h.done k hke
    · refine ⟨?_, ?_, q, hq, ?_, ?_, ?_⟩
      · rwa [hitem, if_pos rfl]
      · rw [hitem, if_pos rfl, hidx, if_pos rfl]
      · rw [hitem, if_pos rfl]
        exact hbucket t hte (by simp only [hi]; omega)
      · split_ifs at hlo ⊢ <;> omega
      · rw [if_pos hq₀]
        simp only [hi]
        omega
    · have ha := h.above k hke (by omega)
      rw [EraseDone, hitem, if_neg (by omega), hidx,
        if_neg (hne k (by omega) (by omega) (by omega))]
      refine ⟨?_, ha.2, q, hq, hbucket k hke (by simp only [hi]; omega), ?_, ?_⟩
      · rw [ha.1]
        exact (h₀.slot k (by omega)).1
      · omega
      · rw [if_pos hq₀]
        simp only [hi]
        omega
  · intro k htk hk
    rw [hitem, if_neg (by omega), hidx, if_neg (hne k (by omega) (by omega) hk)]
    exact h.above k (by omega) hk
  · intro p hp hp0
    obtain ⟨k, hke, hk, hkp⟩ := h.listed p hp hp0
    by_cases hkt : k = t
    · exact ⟨e, by omega, by omega, by rw [hitem, if_pos rfl, ← hkt, hkp]⟩
    · exact ⟨k, hkt, hk, by rw [hitem, if_neg hke, hkp]⟩

/-- When all buckets are done the last slot is the free one, and dropping it leaves an
exact list. -/
theorem sorted_of_eraseDone {q₀ : ℕ} (h₀ : l₀.Sorted key₀) (hq₀ : q₀ < l₀.bounds.length)
    (hne : l₀.lo q₀ < l₀.hi q₀)
    (hlen : l.items.length = l₀.items.length) (hL : 0 < l₀.items.length)
    (hblen : l.bounds.length = l₀.bounds.length)
    (hilen : l.index.length = l₀.index.length)
    (hb : ∀ j, j < l₀.bounds.length → l.bound j + (if q₀ ≤ j then 1 else 0) = l₀.bound j)
    (hdone : ∀ k < l₀.items.length - 1, EraseDone l₀ key q₀ l k)
    (hlisted : ∀ p < l₀.index.length, 0 ≤ key p →
      ∃ k, k ≠ l₀.items.length - 1 ∧ k < l₀.items.length ∧ l.item k = p) :
    ({ l with items := l.items.dropLast } : BucketList).Sorted key := by
  set l' : BucketList := { l with items := l.items.dropLast } with hl'
  have hlen' : l'.items.length = l₀.items.length - 1 := by
    simp only [hl', List.length_dropLast, hlen]
  have hitem : ∀ k < l'.items.length, l'.item k = l.item k := by
    intro k hk
    simp only [hl', item, List.getD_eq_getElem?_getD, List.getElem?_dropLast]
    rw [if_pos (by omega)]
  refine ⟨by rw [hl', hblen]; exact h₀.pos, ?_, ?_, ?_, ?_, ?_⟩
  · intro i j hij hj
    have hj' : j < l₀.bounds.length := by rw [← hblen]; exact hj
    have h₁ := hb i (by omega)
    have h₂ := hb j hj'
    have := h₀.mono i j hij hj'
    -- the bucket of the erased item was not empty
    have hgap : i < q₀ → q₀ ≤ j → l₀.bound i < l₀.bound j := by
      intro hi hj
      have h₃ := h₀.mono i (q₀ - 1) (by omega) (by omega)
      have h₄ := h₀.mono q₀ j hj hj'
      simp only [lo, BucketList.hi, if_neg (show q₀ ≠ 0 by omega)] at hne
      omega
    change l.bound i ≤ l.bound j
    split_ifs at h₁ h₂ <;> omega
  · have h₁ := hb (l₀.bounds.length - 1) (by omega)
    rw [if_pos (by omega), h₀.last] at h₁
    change l.bound (l.bounds.length - 1) = _
    rw [hblen]
    omega
  · intro k hk
    rw [hitem k hk]
    exact (hdone k (by omega)).2.1
  · intro k hk
    rw [hitem k hk]
    obtain ⟨h₁, -, j, hj, hkey, hlo, hhi⟩ := hdone k (by omega)
    refine ⟨by change _ < l.index.length; omega, j, by change _ < l.bounds.length; omega, hkey,
      ?_, ?_⟩
    · rcases j with - | j
      · exact Nat.zero_le _
      · have h₁ := hb j (by omega)
        rw [lo_succ] at hlo ⊢
        change l.bound j ≤ k
        split_ifs at hlo h₁ <;> omega
    · have h₁ := hb j hj
      simp only [hi] at hhi ⊢
      change k < l.bound j
      split_ifs at hhi h₁ <;> omega
  · intro p hp hp0
    obtain ⟨k, hk, hkL, hkp⟩ := hlisted p (by rw [← hilen]; exact hp) hp0
    exact ⟨k, by omega, by rw [hitem k (by omega), hkp]⟩

theorem EraseInv.sorted_loop (h₀ : l₀.Sorted key₀) {x q₀ : ℕ}
    (hne : l₀.lo q₀ < l₀.hi q₀) (hL : 0 < l₀.items.length)
    (hkey : ∀ k < l₀.items.length, l₀.item k ≠ x → key (l₀.item k) = key₀ (l₀.item k)) :
    ∀ (fuel q e : ℕ) (l : BucketList), q₀ ≤ q → q < l₀.bounds.length →
      l₀.bounds.length ≤ q + fuel → (∀ k, e < k → k < l₀.items.length → l₀.item k ≠ x) →
      EraseInv l₀ key x q₀ q e l →
      ({ eraseLoop fuel q e l with
        items := (eraseLoop fuel q e l).items.dropLast } : BucketList).Sorted key := by
  intro fuel
  induction fuel with
  | zero =>
    intro q e l _ hq hf _ _
    omega
  | succ fuel ih =>
    intro q e l hq₀ hq hf hx h
    have hbl := h.bounds_length
    have hlast := h₀.last
    have hbq := h.bound_eq q hq
    rw [if_neg (by omega)] at hbq
    have hends : q + 1 = l₀.bounds.length → ∀ j, j < l₀.bounds.length →
        (l.setBound q (l.bound q - 1)).bound j + (if q₀ ≤ j then 1 else 0) = l₀.bound j := by
      intro hqe j hj
      rw [← h.bound_step hq₀ hq j hj]
      split_ifs <;> omega
    have hend : q + 1 = l₀.bounds.length → l.bound q - 1 = l₀.items.length - 1 := by
      intro hqe
      rw [← hlast, ← hqe, Nat.add_sub_cancel, ← hbq]
      rfl
    rw [eraseLoop]
    simp only [setBound_length, setBound_item, hbl, put_bounds]
    by_cases he : e = l.bound q - 1
    · rw [if_pos he]
      by_cases hqe : q + 1 < l₀.bounds.length
      · rw [if_pos hqe]
        exact ih _ _ _ (by omega) hqe (by omega) hx (h.skip h₀ hq₀ hqe he)
      · rw [if_neg hqe]
        have := hend (by omega)
        refine sorted_of_eraseDone h₀ (by omega) hne h.length hL (by rw [setBound_length, hbl])
          h.index_length (hends (by omega)) ?_ ?_
        · exact fun k hk => h.done k (by omega)
        · intro p hp hp0
          obtain ⟨k, hk, hkL, hkp⟩ := h.listed p hp hp0
          exact ⟨k, by omega, hkL, hkp⟩
    · rw [if_neg he]
      obtain ⟨het, htL, hdone, habove, hlisted⟩ := h.fill h₀ hkey hx hq₀ hq he
      have hlen : ((l.setBound q (l.bound q - 1)).put e (l.item (l.bound q - 1))).items.length =
          l₀.items.length := by rw [put_length, setBound_items, h.length]
      have hilen : ((l.setBound q (l.bound q - 1)).put e (l.item (l.bound q - 1))).index.length =
          l₀.index.length := by rw [put_index_length, setBound_index, h.index_length]
      by_cases hqe : q + 1 = l₀.bounds.length
      · rw [if_pos hqe]
        have := hend hqe
        refine sorted_of_eraseDone h₀ (by omega) hne hlen hL
          (by rw [put_bounds, setBound_length, hbl]) hilen (hends hqe) ?_ ?_
        · exact fun k hk => hdone k (by omega)
        · intro p hp hp0
          obtain ⟨k, hk, hkL, hkp⟩ := hlisted p hp hp0
          exact ⟨k, by omega, hkL, hkp⟩
      · rw [if_neg hqe]
        have hmono := h₀.mono q (q + 1) (by omega) (by omega)
        refine ih _ _ _ (by omega) (by omega) (by omega) (fun k hk => hx k (by omega))
          ⟨hlen, by rw [put_bounds, setBound_length, hbl], hilen, h.bound_step hq₀ hq, ?_, ?_,
            hdone, habove, hlisted⟩
        · rw [lo_succ, if_pos (by omega)]
          omega
        · simp only [hi]
          omega

/-- **Erasure.** The item in slot `e` of bucket `q` loses its key. -/
theorem Sorted.erase (h : l.Sorted key₀) {q e : ℕ} (hq : q < l.bounds.length)
    (hlo : l.lo q ≤ e) (hhi : e < l.hi q) (hgone : key (l.item e) < 0)
    (hkey : ∀ y, y ≠ l.item e → key y = key₀ y) : (l.erase q e).Sorted key := by
  have heL : e < l.items.length := Nat.lt_of_lt_of_le hhi (h.bound_le hq)
  have hinj : ∀ k < l.items.length, k ≠ e → l.item k ≠ l.item e :=
    fun k hk hke hc => hke (h.item_inj hk heL hc)
  refine EraseInv.sorted_loop h (x := l.item e) (by omega) (by omega)
    (fun k _ hk => hkey _ hk) _ _ _ _ (Nat.le_refl q) hq (by omega)
    (fun k hek hk => hinj k hk (by omega)) ⟨rfl, rfl, rfl, ?_, ?_, hhi, ?_, ?_, ?_⟩
  · intro j _
    rw [if_neg (by omega), Nat.add_zero]
  · rw [if_neg (Nat.lt_irrefl q)]
    exact hlo
  · intro k hk
    obtain ⟨hn, j, hj, hkj, h₁, h₂⟩ := h.slot k (by omega)
    refine ⟨hn, h.idx_item k (by omega), j, hj, ?_, ?_, ?_⟩
    · rw [hkey _ (hinj k (by omega) (by omega)), hkj]
    · omega
    · split_ifs with hqj
      · rcases Nat.eq_or_lt_of_le hqj with rfl | hlt
        · omega
        · have := h.mono q (j - 1) (by omega) (by omega)
          simp only [lo, hi, if_neg (show j ≠ 0 by omega)] at *
          omega
      · omega
  · exact fun k _ hk => ⟨rfl, h.idx_item k hk⟩
  · intro p hp hp0
    have hpe : p ≠ l.item e := by
      rintro rfl
      omega
    obtain ⟨k, hk, rfl⟩ := h.listed p hp (by rw [← hkey p hpe]; exact hp0)
    exact ⟨k, fun hc => hpe (by rw [hc]), hk, rfl⟩

end Erase

end BucketList

end LibtorrentSN
