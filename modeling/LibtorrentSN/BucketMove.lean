import LibtorrentSN.BucketInsert

/-!
# Bucketed lists: moving an item to another bucket

An item whose key changes is carried from its bucket to the new one; every bucket in
between gives one slot away at one end and gets one at the other.
-/

namespace LibtorrentSN

namespace BucketList

/-! ## Moving an item to another bucket -/

section Update
variable {l l₀ : BucketList} {key key₀ : ℕ → ℤ}

/-- The slot `k` of `l` is as it will stay: its item is indexed there and belongs to the
bucket around `k` in terms of the final bucket ends `b`. -/
def Done (key : ℕ → ℤ) (b : ℕ → ℕ) (m n : ℕ) (l : BucketList) (k : ℕ) : Prop :=
  l.item k < n ∧ l.idx (l.item k) = k ∧
    ∃ j < m, key (l.item k) = j ∧ (if j = 0 then 0 else b (j - 1)) ≤ k ∧ k < b j

/-- A list whose slots are all done is exact. -/
theorem sorted_of_done (hpos : 0 < l.bounds.length)
    (hmono : ∀ i j, i ≤ j → j < l.bounds.length → l.bound i ≤ l.bound j)
    (hlast : l.bound (l.bounds.length - 1) = l.items.length)
    (hdone : ∀ k < l.items.length, Done key l.bound l.bounds.length l.index.length l k)
    (hlisted : ∀ p < l.index.length, 0 ≤ key p → ∃ k < l.items.length, l.item k = p) :
    l.Sorted key :=
  ⟨hpos, hmono, hlast, fun k hk => (hdone k hk).2.1,
    fun k hk => ⟨(hdone k hk).1, (hdone k hk).2.2⟩, hlisted⟩

/-- What both walks keep: slot `e` is free and still shows the item `temp` it held in the
old list, every other slot holds an item that is indexed there, and every item except
`p` with a key is in one of those slots. -/
structure Carry (l₀ : BucketList) (key : ℕ → ℤ) (p temp e : ℕ) (l : BucketList) : Prop where
  length : l.items.length = l₀.items.length
  bounds_length : l.bounds.length = l₀.bounds.length
  index_length : l.index.length = l₀.index.length
  lt : e < l₀.items.length
  free : l.item e = temp
  orig : temp = l₀.item e
  own : ∀ k < l₀.items.length, k ≠ e →
    l.item k < l₀.index.length ∧ l.idx (l.item k) = k ∧ l.item k ≠ p
  listed : ∀ y < l₀.index.length, 0 ≤ key y → y ≠ p →
    ∃ k < l₀.items.length, k ≠ e ∧ l.item k = y

/-- The item of slot `i` moves to the free slot; slot `i` becomes the free one. -/
theorem Carry.move {p temp e i : ℕ} (h : Carry l₀ key p temp e l)
    (hi : i < l₀.items.length) (hie : i ≠ e) (horig : l.item i = l₀.item i) :
    Carry l₀ key p (l.item i) i (l.put e (l.item i)) ∧
      (∀ k, (l.put e (l.item i)).item k = if k = e then l.item i else l.item k) ∧
      (l.put e (l.item i)).idx (l.item i) = e ∧
      (∀ k < l₀.items.length, k ≠ e → k ≠ i →
        (l.put e (l.item i)).idx (l.item k) = l.idx (l.item k)) := by
  have hlt := h.lt
  have hin := (h.own i hi hie).1
  have hitem : ∀ k, (l.put e (l.item i)).item k = if k = e then l.item i else l.item k := by
    intro k
    rw [put_item, h.length]
    exact if_congr ⟨fun hc => hc.1.symm, fun hc => ⟨hc.symm, hlt⟩⟩ rfl rfl
  have hidx : ∀ y, (l.put e (l.item i)).idx y = if y = l.item i then (e : ℤ) else l.idx y := by
    intro y
    rw [put_idx, h.index_length]
    exact if_congr ⟨fun hc => hc.1.symm, fun hc => ⟨hc.symm, hin⟩⟩ rfl rfl
  have hne : ∀ k < l₀.items.length, k ≠ e → k ≠ i → l.item k ≠ l.item i := by
    intro k hk hke hki hc
    have h₁ := (h.own k hk hke).2.1
    rw [hc, (h.own i hi hie).2.1] at h₁
    omega
  refine ⟨⟨by rw [put_length, h.length], by rw [put_bounds, h.bounds_length],
    by rw [put_index_length, h.index_length], hi, ?_, horig, ?_, ?_⟩, hitem, ?_, ?_⟩
  · rw [hitem, if_neg hie]
  · intro k hk hki
    rw [hitem]
    split_ifs with hke
    · rw [hidx, if_pos rfl, hke]
      exact ⟨hin, rfl, (h.own i hi hie).2.2⟩
    · rw [hidx, if_neg (hne k hk hke hki)]
      exact h.own k hk hke
  · intro y hy hy0 hyp
    obtain ⟨k, hk, hke, rfl⟩ := h.listed y hy hy0 hyp
    by_cases hki : k = i
    · exact ⟨e, hlt, Ne.symm hie, by rw [hitem, if_pos rfl, hki]⟩
    · exact ⟨k, hk, hki, by rw [hitem, if_neg hke]⟩
  · rw [hidx, if_pos rfl]
  · intro k hk hke hki
    rw [hidx, if_neg (hne k hk hke hki)]

/-- Moving bucket ends does not concern the slots. -/
theorem Carry.setBound {p temp e : ℕ} (h : Carry l₀ key p temp e l) (q v : ℕ) :
    Carry l₀ key p temp e (l.setBound q v) :=
  { h with bounds_length := by rw [setBound_length, h.bounds_length] }

/-- The bucket ends after an item has gone from bucket `q₀` down to bucket `q`. -/
def lowered (l₀ : BucketList) (q₀ q j : ℕ) : ℕ := l₀.bound j + (if q ≤ j ∧ j < q₀ then 1 else 0)

/-- The bucket ends after an item has gone from bucket `q₀` up to bucket `q`. -/
def raised (l₀ : BucketList) (q₀ q j : ℕ) : ℕ := l₀.bound j - (if q₀ ≤ j ∧ j < q then 1 else 0)

/-- The invariant of `lowerLoop` with target `new`. -/
structure LowerInv (l₀ : BucketList) (key : ℕ → ℤ) (p q₀ new q temp e : ℕ) (l : BucketList) :
    Prop extends Carry l₀ key p temp e l where
  bound_eq : ∀ j, j < l₀.bounds.length → l.bound j = lowered l₀ q₀ q j
  lo_le : l₀.lo q ≤ e
  lt_hi : e < lowered l₀ q₀ q q
  below : ∀ k < e, l.item k = l₀.item k
  done : ∀ k, e < k → k < l₀.items.length →
    Done key (lowered l₀ q₀ new) l₀.bounds.length l₀.index.length l k

theorem LowerInv.step {p q₀ new q temp e : ℕ} (h : LowerInv l₀ key p q₀ new (q + 1) temp e l)
    (h₀ : l₀.Sorted key₀) (hkey : ∀ y, y ≠ p → key y = key₀ y) (hnew : new ≤ q)
    (hq₀ : q < q₀) (hlen : q₀ < l₀.bounds.length) :
    let i := l.bound q
    let l' := l.setBound q (i + 1)
    if l'.item i = temp then LowerInv l₀ key p q₀ new q temp i l'
    else LowerInv l₀ key p q₀ new q (l'.item i) i (l'.put e (l'.item i)) := by
  intro i l'
  have hi : i = l₀.bound q := by
    have := h.bound_eq q (by omega)
    rw [lowered, if_neg (by omega)] at this
    exact this
  have hlo := h.lo_le
  rw [lo_succ] at hlo
  have hhi := h.lt_hi
  have heL := h.lt
  have hmono := h₀.mono q (q + 1) (by omega) (by omega)
  have hb' : ∀ j, j < l₀.bounds.length → l'.bound j = lowered l₀ q₀ q j := by
    intro j hj
    rw [setBound_bound, h.bounds_length]
    by_cases hjq : q = j
    · subst hjq
      rw [if_pos ⟨rfl, by omega⟩, lowered, if_pos (by omega), hi]
    · rw [if_neg (fun hc => hjq hc.1), h.bound_eq j hj, lowered, lowered]
      split_ifs <;> omega
  have hloq : l₀.lo q ≤ i := by
    rw [hi]
    exact h₀.lo_le_hi (by omega)
  have hiq : i < lowered l₀ q₀ q q := by
    rw [lowered, if_pos (by omega), hi]
    exact Nat.lt_succ_self _
  have hiL : i < l₀.items.length := by omega
  by_cases hie : i = e
  · rw [if_pos (by rw [hie]; exact h.free)]
    subst hie
    exact { h.toCarry.setBound q (i + 1) with
      bound_eq := hb', lo_le := hloq, lt_hi := hiq, below := h.below, done := h.done }
  · have hlt : i < e := by omega
    have hitem : l'.item i = l₀.item i := h.below i hlt
    have hne : l'.item i ≠ temp := by
      rw [hitem, h.orig]
      exact fun hc => hie (h₀.item_inj hiL heL hc)
    rw [if_neg hne]
    -- the slots from `i` up to the free one are in bucket `q + 1`
    have hehi : e ≤ l₀.bound (q + 1) := by
      rw [lowered] at hhi
      split_ifs at hhi <;> omega
    have hbucket : ∀ k, i ≤ k → k < e → key (l.item k) = (q + 1 : ℕ) := by
      intro k hik hke
      have hown := h.own k (by omega) (by omega)
      rw [hkey _ hown.2.2, h.below k hke]
      refine h₀.key_item (by omega) ?_ ?_
      · rw [lo_succ]
        omega
      · simp only [BucketList.hi]
        omega
    obtain ⟨hc, hput, hidx, hidx'⟩ := (h.toCarry.setBound q (i + 1)).move hiL hie hitem
    refine { hc with
      bound_eq := fun j hj => by rw [put_bound]; exact hb' j hj
      lo_le := hloq, lt_hi := hiq
      below := fun k hk => by rw [hput, if_neg (by omega)]; exact h.below k (by omega)
      done := ?_ }
    have hfin : lowered l₀ q₀ new q = l₀.bound q + 1 := by rw [lowered, if_pos ⟨hnew, hq₀⟩]
    intro k hik hk
    rcases Nat.lt_trichotomy k e with hke | rfl | hke
    · have hown := h.own k hk (by omega)
      rw [Done, hput, if_neg (by omega)]
      refine ⟨hown.1, ?_, q + 1, by omega, hbucket k (by omega) hke, ?_, ?_⟩
      · exact (hidx' k hk (by omega) (by omega)).trans hown.2.1
      · rw [if_neg (Nat.succ_ne_zero q), Nat.add_sub_cancel]
        omega
      · rw [lowered]
        split_ifs <;> omega
    · rw [Done, hput, if_pos rfl]
      refine ⟨(h.own i hiL hie).1, hidx, q + 1, by omega, hbucket i (Nat.le_refl i) hlt, ?_, ?_⟩
      · rw [if_neg (Nat.succ_ne_zero q), Nat.add_sub_cancel]
        omega
      · rw [lowered] at hhi ⊢
        split_ifs at hhi ⊢ <;> omega
    · have hd := h.done k hke hk
      rw [Done, hput, if_neg (by omega), hidx' k hk (by omega) (by omega)]
      exact hd

theorem LowerInv.loop {p q₀ new : ℕ} (h₀ : l₀.Sorted key₀)
    (hkey : ∀ y, y ≠ p → key y = key₀ y) (hlen : q₀ < l₀.bounds.length) :
    ∀ (fuel q temp e : ℕ) (l : BucketList), q = new + fuel → q ≤ q₀ →
      LowerInv l₀ key p q₀ new q temp e l →
      ∃ temp', LowerInv l₀ key p q₀ new new temp' (lowerLoop fuel q temp e l).1
        (lowerLoop fuel q temp e l).2 := by
  intro fuel
  induction fuel with
  | zero =>
    intro q temp e l hq _ h
    rw [Nat.add_zero] at hq
    subst hq
    exact ⟨temp, h⟩
  | succ fuel ih =>
    intro q temp e l hq hq₀ h
    obtain rfl : q = new + fuel + 1 := hq
    have hs := h.step h₀ hkey (by omega) (by omega) hlen
    dsimp only at hs
    rw [lowerLoop]
    simp only [Nat.add_sub_cancel]
    split_ifs at hs ⊢ with hc
    · exact ih _ _ _ _ rfl (by omega) hs
    · exact ih _ _ _ _ rfl (by omega) hs

/-- The invariant of `raiseLoop` with target `new`. -/
structure RaiseInv (l₀ : BucketList) (key : ℕ → ℤ) (p q₀ new q temp e : ℕ) (l : BucketList) :
    Prop extends Carry l₀ key p temp e l where
  bound_eq : ∀ j, j < l₀.bounds.length → l.bound j = raised l₀ q₀ q j
  lo_le : (if q = 0 then 0 else raised l₀ q₀ q (q - 1)) ≤ e
  lt_hi : e < l₀.hi q
  above : ∀ k, e < k → k < l₀.items.length → l.item k = l₀.item k
  done : ∀ k < e, Done key (raised l₀ q₀ new) l₀.bounds.length l₀.index.length l k

theorem RaiseInv.step {p q₀ new q temp e : ℕ} (h : RaiseInv l₀ key p q₀ new q temp e l)
    (h₀ : l₀.Sorted key₀) (hkey : ∀ y, y ≠ p → key y = key₀ y) (hnew : q < new)
    (hq₀ : q₀ ≤ q) (hlen : new < l₀.bounds.length) :
    let i := l.bound q - 1
    let l' := l.setBound q i
    if l'.item i = temp then RaiseInv l₀ key p q₀ new (q + 1) temp i l'
    else RaiseInv l₀ key p q₀ new (q + 1) (l'.item i) i (l'.put e (l'.item i)) := by
  intro i l'
  have hhi := h.lt_hi
  simp only [hi] at hhi
  have hi : i = l₀.bound q - 1 := by
    have := h.bound_eq q (by omega)
    rw [raised, if_neg (by omega)] at this
    simp only [i, this, Nat.sub_zero]
  have hlo := h.lo_le
  have hbL := h₀.bound_le (q := q) (by omega)
  have hmono := h₀.mono q (q + 1) (by omega) (by omega)
  have hb' : ∀ j, j < l₀.bounds.length → l'.bound j = raised l₀ q₀ (q + 1) j := by
    intro j hj
    rw [setBound_bound, h.bounds_length]
    by_cases hjq : q = j
    · subst hjq
      rw [if_pos ⟨rfl, by omega⟩, raised, if_pos (by omega), hi]
    · rw [if_neg (fun hc => hjq hc.1), h.bound_eq j hj, raised, raised]
      split_ifs <;> omega
  have hloq : (if q + 1 = 0 then 0 else raised l₀ q₀ (q + 1) (q + 1 - 1)) ≤ i := by
    refine Nat.le_of_eq ?_
    rw [if_neg (Nat.succ_ne_zero q), Nat.add_sub_cancel, raised, if_pos (by omega), hi]
  have hiq : i < l₀.hi (q + 1) := by
    simp only [BucketList.hi]
    omega
  have hiL : i < l₀.items.length := by omega
  have heL := h.lt
  by_cases hie : i = e
  · rw [if_pos (by rw [hie]; exact h.free)]
    subst hie
    exact { h.toCarry.setBound q i with
      bound_eq := hb', lo_le := hloq, lt_hi := hiq, above := h.above, done := h.done }
  · have hlt : e < i := by omega
    have hitem : l'.item i = l₀.item i := h.above i hlt hiL
    have hne : l'.item i ≠ temp := by
      rw [hitem, h.orig]
      exact fun hc => hie (h₀.item_inj hiL heL hc)
    rw [if_neg hne]
    -- the slots from the free one up to `i` are in bucket `q`
    have hloe : l₀.lo q ≤ e + 1 := by
      simp only [lo]
      rw [raised] at hlo
      split_ifs at hlo ⊢ <;> omega
    have hbucket : ∀ k, e < k → k ≤ i → key (l.item k) = q := by
      intro k hek hki
      have hown := h.own k (by omega) (by omega)
      rw [hkey _ hown.2.2, h.above k hek (by omega)]
      refine h₀.key_item (by omega) (by omega) ?_
      simp only [BucketList.hi]
      omega
    obtain ⟨hc, hput, hidx, hidx'⟩ := (h.toCarry.setBound q i).move hiL hie hitem
    refine { hc with
      bound_eq := fun j hj => by rw [put_bound]; exact hb' j hj
      lo_le := hloq, lt_hi := hiq
      above := fun k hk hkL => by rw [hput, if_neg (by omega)]; exact h.above k (by omega) hkL
      done := ?_ }
    have hfin : raised l₀ q₀ new q = l₀.bound q - 1 := by rw [raised, if_pos ⟨hq₀, hnew⟩]
    -- the start of bucket `q` in terms of the final bucket ends
    have hlof : (if q = 0 then 0 else raised l₀ q₀ new (q - 1)) ≤ e := by
      rw [raised] at hlo ⊢
      split_ifs at hlo ⊢ <;> omega
    intro k hik
    rcases Nat.lt_trichotomy k e with hke | rfl | hke
    · have hd := h.done k hke
      rw [Done, hput, if_neg (by omega), hidx' k (by omega) (by omega) (by omega)]
      exact hd
    · rw [Done, hput, if_pos rfl]
      exact ⟨(h.own i hiL hie).1, hidx, q, by omega, hbucket i hlt (Nat.le_refl i), hlof,
        by omega⟩
    · have hown := h.own k (by omega) (by omega)
      rw [Done, hput, if_neg (by omega)]
      exact ⟨hown.1, (hidx' k (by omega) (by omega) (by omega)).trans hown.2.1, q, by omega,
        hbucket k hke (by omega), by omega, by omega⟩

theorem RaiseInv.loop {p q₀ new : ℕ} (h₀ : l₀.Sorted key₀)
    (hkey : ∀ y, y ≠ p → key y = key₀ y) (hlen : new < l₀.bounds.length) :
    ∀ (fuel q temp e : ℕ) (l : BucketList), new = q + fuel → q₀ ≤ q →
      RaiseInv l₀ key p q₀ new q temp e l →
      ∃ temp', RaiseInv l₀ key p q₀ new new temp' (raiseLoop fuel q temp e l).1
        (raiseLoop fuel q temp e l).2 := by
  intro fuel
  induction fuel with
  | zero =>
    intro q temp e l hq _ h
    rw [Nat.add_zero] at hq
    subst hq
    exact ⟨temp, h⟩
  | succ fuel ih =>
    intro q temp e l hq hq₀ h
    have hs := h.step h₀ hkey (by omega) hq₀ hlen
    dsimp only at hs
    rw [raiseLoop]
    split_ifs at hs ⊢ with hc
    · exact ih _ _ _ _ (by omega) (by omega) hs
    · exact ih _ _ _ _ (by omega) (by omega) hs

/-- The free slot takes the item that was on the move. -/
theorem Carry.settle {p temp e new : ℕ} {b : ℕ → ℕ} (h : Carry l₀ key p temp e l)
    (hpos : 0 < l₀.bounds.length)
    (hmono : ∀ i j, i ≤ j → j < l₀.bounds.length → b i ≤ b j)
    (hlast : b (l₀.bounds.length - 1) = l₀.items.length)
    (hb : ∀ j, j < l₀.bounds.length → l.bound j = b j) (hp : p < l₀.index.length)
    (hnew : new < l₀.bounds.length) (hkp : key p = new)
    (hlo : (if new = 0 then 0 else b (new - 1)) ≤ e) (hhi : e < b new)
    (hdone : ∀ k < l₀.items.length, k ≠ e →
      Done key b l₀.bounds.length l₀.index.length l k) :
    (l.put e p).Sorted key := by
  have hitem : ∀ k, (l.put e p).item k = if k = e then p else l.item k := by
    intro k
    rw [put_item, h.length]
    exact if_congr ⟨fun hc => hc.1.symm, fun hc => ⟨hc.symm, h.lt⟩⟩ rfl rfl
  have hidx : ∀ y, (l.put e p).idx y = if y = p then (e : ℤ) else l.idx y := by
    intro y
    rw [put_idx, h.index_length]
    exact if_congr ⟨fun hc => hc.1.symm, fun hc => ⟨hc.symm, hp⟩⟩ rfl rfl
  -- `Done` only looks at the ends of existing buckets
  have hbb : ∀ k, Done key b l₀.bounds.length l₀.index.length (l.put e p) k →
      Done key (l.put e p).bound l₀.bounds.length l₀.index.length (l.put e p) k := by
    rintro k ⟨h₁, h₂, j, hj, h₃, h₄, h₅⟩
    refine ⟨h₁, h₂, j, hj, h₃, ?_, by rw [put_bound, hb j hj]; exact h₅⟩
    split_ifs at h₄ ⊢ with hj0
    · exact h₄
    · rw [put_bound, hb _ (by omega)]
      exact h₄
  refine sorted_of_done (by rw [put_bounds, h.bounds_length]; exact hpos) ?_ ?_ ?_ ?_
  · intro i j hij hj
    rw [put_bounds, h.bounds_length] at hj
    rw [put_bound, put_bound, hb i (by omega), hb j hj]
    exact hmono i j hij hj
  · rw [put_bounds, put_bound, h.bounds_length, hb _ (by omega), hlast, put_length, h.length]
  · intro k hk
    rw [put_length, h.length] at hk
    rw [put_bounds, put_index_length, h.bounds_length, h.index_length]
    refine hbb k ?_
    by_cases hke : k = e
    · rw [Done, hitem, if_pos hke, hidx, if_pos rfl, hke]
      exact ⟨hp, rfl, new, hnew, hkp, hlo, hhi⟩
    · rw [Done, hitem, if_neg hke, hidx, if_neg (h.own k hk hke).2.2]
      exact hdone k hk hke
  · intro y hy hy0
    rw [put_index_length, h.index_length] at hy
    rw [put_length, h.length]
    by_cases hyp : y = p
    · exact ⟨e, h.lt, by rw [hitem, if_pos rfl, hyp]⟩
    · obtain ⟨k, hk, hke, hky⟩ := h.listed y hy hy0 hyp
      exact ⟨k, hk, by rw [hitem, if_neg hke, hky]⟩

/-- Exchanging two slots of one bucket. -/
theorem Sorted.swap (h : l.Sorted key) {q i j : ℕ} (hq : q < l.bounds.length)
    (hi₁ : l.lo q ≤ i) (hi₂ : i < l.hi q) (hj₁ : l.lo q ≤ j) (hj₂ : j < l.hi q) (hij : i ≠ j) :
    (l.swap i j).Sorted key := by
  have hiL : i < l.items.length := Nat.lt_of_lt_of_le hi₂ (h.bound_le hq)
  have hjL : j < l.items.length := Nat.lt_of_lt_of_le hj₂ (h.bound_le hq)
  have hne : ∀ a < l.items.length, ∀ b < l.items.length, a ≠ b → l.item a ≠ l.item b :=
    fun a ha b hb hab hc => hab (h.item_inj ha hb hc)
  have hin := (h.slot i hiL).1
  have hjn := (h.slot j hjL).1
  have hitem : ∀ k, (l.swap i j).item k =
      if k = j then l.item i else if k = i then l.item j else l.item k := by
    intro k
    simp only [BucketList.swap, item, getD_set, List.length_set]
    split_ifs <;> first | rfl | omega
  have hidx : ∀ y, (l.swap i j).idx y =
      if y = l.item j then (i : ℤ) else if y = l.item i then (j : ℤ) else l.idx y := by
    intro y
    have h₁ := h.idx_item i hiL
    have h₂ := h.idx_item j hjL
    simp only [BucketList.swap, idx, getD_set, List.length_set] at h₁ h₂ ⊢
    split_ifs <;> first | rfl | omega
  have hlen : (l.swap i j).items.length = l.items.length := by simp [BucketList.swap]
  have hilen : (l.swap i j).index.length = l.index.length := by simp [BucketList.swap]
  have hb : (l.swap i j).bounds = l.bounds := rfl
  refine ⟨h.pos, h.mono, by rw [hlen]; exact h.last, ?_, ?_, ?_⟩
  · intro k hk
    rw [hlen] at hk
    rw [hitem, hidx]
    by_cases hkj : k = j
    · rw [if_pos hkj, if_neg (hne i hiL j hjL hij), if_pos rfl, hkj]
    · by_cases hki : k = i
      · rw [if_neg hkj, if_pos hki, if_pos rfl, hki]
      · rw [if_neg hkj, if_neg hki, if_neg (hne k hk j hjL hkj), if_neg (hne k hk i hiL hki)]
        exact h.idx_item k hk
  · intro k hk
    rw [hlen] at hk
    rw [hitem, hilen]
    by_cases hkj : k = j
    · rw [if_pos hkj, hkj]
      exact ⟨hin, q, hq, h.key_item hq hi₁ hi₂, hj₁, hj₂⟩
    · by_cases hki : k = i
      · rw [if_neg hkj, if_pos hki, hki]
        exact ⟨hjn, q, hq, h.key_item hq hj₁ hj₂, hi₁, hi₂⟩
      · rw [if_neg hkj, if_neg hki]
        exact h.slot k hk
  · intro p hp hp0
    rw [hilen] at hp
    rw [hlen]
    obtain ⟨k, hk, rfl⟩ := h.listed p hp hp0
    by_cases hkj : k = j
    · exact ⟨i, hiL, by rw [hitem, if_neg hij, if_pos rfl, hkj]⟩
    · by_cases hki : k = i
      · exact ⟨j, hjL, by rw [hitem, if_pos rfl, hki]⟩
      · exact ⟨k, hk, by rw [hitem, if_neg hkj, if_neg hki]⟩

theorem Sorted.shuffle (h : l.Sorted key) {q e : ℕ} (r : ℕ) (hq : q < l.bounds.length)
    (h₁ : l.lo q ≤ e) (h₂ : e < l.hi q) : (l.shuffle q e r).Sorted key := by
  have := random_le r (l.hi q - l.lo q - 1)
  rw [BucketList.shuffle]
  split_ifs with hc
  · exact h
  · exact h.swap hq (by omega) (by omega) h₁ h₂ hc

/-- At the start of a walk nothing has moved. -/
theorem Sorted.carry (h : l.Sorted key₀) {e : ℕ} (he : e < l.items.length)
    (hkey : ∀ y, y ≠ l.item e → key y = key₀ y) :
    Carry l key (l.item e) (l.item e) e l := by
  refine ⟨rfl, rfl, rfl, he, rfl, rfl, ?_, ?_⟩
  · intro k hk hke
    exact ⟨(h.slot k hk).1, h.idx_item k hk, fun hc => hke (h.item_inj hk he hc)⟩
  · intro y hy hy0 hyp
    obtain ⟨k, hk, rfl⟩ := h.listed y hy (by rw [← hkey y hyp]; exact hy0)
    exact ⟨k, hk, fun hc => hyp (by rw [hc]), rfl⟩

/-- A slot away from `e` keeps its bucket. -/
theorem Sorted.slot_ne (h : l.Sorted key₀) {e k : ℕ} (he : e < l.items.length)
    (hkey : ∀ y, y ≠ l.item e → key y = key₀ y) (hk : k < l.items.length) (hke : k ≠ e) :
    l.item k < l.index.length ∧ l.idx (l.item k) = k ∧
      ∃ j < l.bounds.length, key (l.item k) = j ∧ l.lo j ≤ k ∧ k < l.bound j := by
  obtain ⟨hn, j, hj, hkj, h₁, h₂⟩ := h.slot k hk
  have hne : l.item k ≠ l.item e := fun hc => hke (h.item_inj hk he hc)
  exact ⟨hn, h.idx_item k hk, j, hj, by rw [hkey _ hne, hkj], h₁, h₂⟩

/-- The item of slot `e` walks down from bucket `q` to bucket `new`. -/
theorem Sorted.lower (h : l.Sorted key₀) {q new e : ℕ} (hq : q < l.bounds.length)
    (hlo : l.lo q ≤ e) (hhi : e < l.hi q) (hlt : new < q)
    (hkey : ∀ y, y ≠ l.item e → key y = key₀ y) (hnew : key (l.item e) = new) :
    let r := lowerLoop (q - new) q (l.item e) e l
    let l' := r.2.put r.1 (l.item e)
    l'.Sorted key ∧ new < l'.bounds.length ∧ l'.lo new ≤ r.1 ∧ r.1 < l'.hi new := by
  have heL : e < l.items.length := Nat.lt_of_lt_of_le hhi (h.bound_le hq)
  have hcarry := h.carry heL hkey
  simp only [lo, if_neg (show q ≠ 0 by omega)] at hlo
  simp only [hi] at hhi
  have hinv : LowerInv l key (l.item e) q new q (l.item e) e l := by
    refine { hcarry with
      bound_eq := fun j _ => by rw [lowered, if_neg (by omega), Nat.add_zero]
      lo_le := by simp only [lo, if_neg (show q ≠ 0 by omega)]; exact hlo
      lt_hi := by rw [lowered, if_neg (by omega)]; exact hhi
      below := fun _ _ => rfl
      done := ?_ }
    intro k hek hk
    obtain ⟨hn, hix, j, hj, hkj, h₁, h₂⟩ := h.slot_ne heL hkey hk (by omega)
    refine ⟨hn, hix, j, hj, hkj, ?_, by rw [lowered]; omega⟩
    simp only [lo] at h₁
    split_ifs at h₁ ⊢ with hj0
    · exact Nat.zero_le _
    · rw [lowered]
      split_ifs with hc
      · -- the slot lies beyond `e`, hence beyond the start of a bucket up to `q`
        have := h.mono (j - 1) (q - 1) (by omega) (by omega)
        omega
      · omega
  obtain ⟨temp', hfin⟩ := LowerInv.loop h hkey (by omega) (q - new) q (l.item e) e l (by omega)
    (Nat.le_refl q) hinv
  generalize lowerLoop (q - new) q (l.item e) e l = r at hfin ⊢
  obtain ⟨e', l'⟩ := r
  dsimp only at hfin ⊢
  have hhi' := hfin.lt_hi
  have hlo' := hfin.lo_le
  simp only [lo] at hlo'
  have hdone : ∀ k < l.items.length, k ≠ e' →
      Done key (lowered l q new) l.bounds.length l.index.length l' k := by
    intro k hk hke
    rcases Nat.lt_or_gt_of_ne hke with hlt' | hgt
    · have hown := hfin.own k hk hke
      obtain ⟨hn, j, hj, hkj, h₁, h₂⟩ := h.slot k hk
      have hjn : j ≤ new := by
        by_contra hc
        have := h.mono new (j - 1) (by omega) (by omega)
        simp only [lo, if_neg (show j ≠ 0 by omega)] at h₁
        rw [lowered] at hhi'
        split_ifs at hhi' <;> omega
      refine ⟨hown.1, hown.2.1, j, hj, by rw [hkey _ hown.2.2, hfin.below k hlt', hkj], ?_, ?_⟩
      · simp only [lo] at h₁
        split_ifs at h₁ ⊢ with hj0
        · exact Nat.zero_le _
        · rw [lowered, if_neg (by omega)]
          omega
      · rw [lowered]
        simp only [hi] at h₂
        omega
    · exact hfin.done k hgt hk
  have hmono : ∀ i j, i ≤ j → j < l.bounds.length → lowered l q new i ≤ lowered l q new j := by
    intro i j hij hj
    have h₁ := h.mono i j hij hj
    rw [lowered, lowered]
    by_cases hc : i < q ∧ q ≤ j
    · have h₂ := h.mono i (q - 1) (by omega) (by omega)
      have h₃ := h.mono q j hc.2 hj
      split_ifs <;> omega
    · split_ifs <;> omega
  have hstart : (if new = 0 then 0 else lowered l q new (new - 1)) ≤ e' := by
    split_ifs at hlo' ⊢
    · exact Nat.zero_le _
    · rw [lowered, if_neg (by omega)]
      exact hlo'
  refine ⟨hfin.toCarry.settle h.pos hmono
    (by rw [lowered, if_neg (by omega), Nat.add_zero, h.last]) hfin.bound_eq (h.slot e heL).1
    (by omega) hnew hstart hhi' hdone, by rw [put_bounds, hfin.bounds_length]; omega, ?_, ?_⟩
  · simp only [lo, put_bound]
    split_ifs at hstart ⊢
    · exact Nat.zero_le _
    · rw [hfin.bound_eq _ (by omega)]
      exact hstart
  · simp only [hi, put_bound]
    rw [hfin.bound_eq _ (by omega)]
    exact hhi'

/-- The item of slot `e` walks up from bucket `q` to bucket `new`. -/
theorem Sorted.raise (h : l.Sorted key₀) {q new e : ℕ} (hn : new < l.bounds.length)
    (hlo : l.lo q ≤ e) (hhi : e < l.hi q) (hlt : q < new)
    (hkey : ∀ y, y ≠ l.item e → key y = key₀ y) (hnew : key (l.item e) = new) :
    let r := raiseLoop (new - q) q (l.item e) e l
    let l' := r.2.put r.1 (l.item e)
    l'.Sorted key ∧ new < l'.bounds.length ∧ l'.lo new ≤ r.1 ∧ r.1 < l'.hi new := by
  have heL : e < l.items.length := Nat.lt_of_lt_of_le hhi (h.bound_le (by omega))
  have hcarry := h.carry heL hkey
  simp only [lo] at hlo
  simp only [hi] at hhi
  have hinv : RaiseInv l key (l.item e) q new q (l.item e) e l := by
    refine { hcarry with
      bound_eq := fun j _ => by rw [raised, if_neg (by omega), Nat.sub_zero]
      lo_le := by
        rw [raised]
        split_ifs at hlo ⊢ <;> omega
      lt_hi := hhi
      above := fun _ _ _ => rfl
      done := ?_ }
    intro k hke
    obtain ⟨hn', hix, j, hj, hkj, h₁, h₂⟩ := h.slot_ne heL hkey (show k < l.items.length by omega)
      (by omega)
    refine ⟨hn', hix, j, hj, hkj, ?_, ?_⟩
    · simp only [lo] at h₁
      split_ifs at h₁ ⊢ with hj0
      · exact Nat.zero_le _
      · rw [raised]
        omega
    · rw [raised]
      split_ifs with hc
      · -- the slot lies before `e`, hence not at the end of a bucket from `q` on
        rcases Nat.eq_or_lt_of_le hc.1 with rfl | hqj
        · omega
        · have := h.mono q (j - 1) (by omega) (by omega)
          simp only [lo, if_neg (show j ≠ 0 by omega)] at h₁
          omega
      · omega
  obtain ⟨temp', hfin⟩ := RaiseInv.loop h hkey hn (new - q) q (l.item e) e l (by omega)
    (Nat.le_refl q) hinv
  generalize raiseLoop (new - q) q (l.item e) e l = r at hfin ⊢
  obtain ⟨e', l'⟩ := r
  dsimp only at hfin ⊢
  have hhi' := hfin.lt_hi
  have hlo' := hfin.lo_le
  simp only [hi] at hhi'
  have hdone : ∀ k < l.items.length, k ≠ e' →
      Done key (raised l q new) l.bounds.length l.index.length l' k := by
    intro k hk hke
    rcases Nat.lt_or_gt_of_ne hke with hlt' | hgt
    · exact hfin.done k hlt'
    · have hown := hfin.own k hk hke
      obtain ⟨hn', j, hj, hkj, h₁, h₂⟩ := h.slot k hk
      have hjn : new ≤ j := by
        by_contra hc
        have := h.mono j (new - 1) (by omega) (by omega)
        rw [raised] at hlo'
        simp only [hi] at h₂
        split_ifs at hlo' <;> omega
      refine ⟨hown.1, hown.2.1, j, hj, by rw [hkey _ hown.2.2, hfin.above k hgt hk, hkj], ?_, ?_⟩
      · simp only [lo] at h₁
        split_ifs at h₁ ⊢ with hj0
        · exact Nat.zero_le _
        · rw [raised]
          omega
      · rw [raised, if_neg (by omega)]
        exact h₂
  have hmono : ∀ i j, i ≤ j → j < l.bounds.length → raised l q new i ≤ raised l q new j := by
    intro i j hij hj
    have h₁ := h.mono i j hij hj
    rw [raised, raised]
    by_cases hc : i < q ∧ q ≤ j
    · have h₂ := h.mono i (q - 1) (by omega) (by omega)
      have h₃ := h.mono q j hc.2 hj
      rw [if_neg (show q ≠ 0 by omega)] at hlo
      split_ifs <;> omega
    · split_ifs <;> omega
  have hend : e' < raised l q new new := by
    rw [raised, if_neg (by omega)]
    exact hhi'
  refine ⟨hfin.toCarry.settle h.pos hmono
    (by rw [raised, if_neg (by omega), Nat.sub_zero, h.last]) hfin.bound_eq (h.slot e heL).1
    hn hnew hlo' hend hdone, by rw [put_bounds, hfin.bounds_length]; omega, ?_, ?_⟩
  · simp only [lo, put_bound]
    split_ifs at hlo' ⊢
    · exact Nat.zero_le _
    · rw [hfin.bound_eq _ (by omega)]
      exact hlo'
  · simp only [hi, put_bound]
    rw [hfin.bound_eq _ hn]
    exact hend

/-- **Update.** The item in slot `e` of bucket `q` changes its key. -/
theorem Sorted.update (h : l.Sorted key₀) {q e : ℕ} (r : ℕ) (hq : q < l.bounds.length)
    (hlo : l.lo q ≤ e) (hhi : e < l.hi q)
    (hkey : ∀ y, y ≠ l.item e → key y = key₀ y) :
    (l.update q e (key (l.item e)) r).Sorted key := by
  have hkq : key₀ (l.item e) = q := h.key_item hq hlo hhi
  rw [BucketList.update]
  by_cases hsame : key (l.item e) = q
  · rw [if_pos hsame]
    have : key = key₀ := by
      funext y
      by_cases hy : y = l.item e
      · rw [hy, hsame, hkq]
      · exact hkey y hy
    rwa [this]
  rw [if_neg hsame]
  by_cases hneg : key (l.item e) < 0
  · rw [if_pos hneg]
    exact h.erase hq hlo hhi hneg hkey
  rw [if_neg hneg]
  obtain ⟨new, hnew⟩ : ∃ new : ℕ, key (l.item e) = new :=
    ⟨_, (Int.toNat_of_nonneg (by omega)).symm⟩
  have hnq : new ≠ q := by
    rintro rfl
    exact hsame hnew
  rw [hnew, Int.toNat_natCast]
  have hg := h.growTo new
  have hglen := growTo_length l new
  have hgb := growTo_bound l new
  have hlo₁ : (l.growTo new).lo q = l.lo q := by
    simp only [lo, hgb]
    split_ifs <;> first | rfl | omega
  have hhi₁ : (l.growTo new).hi q = l.hi q := by
    simp only [hi, hgb]
    rw [if_pos hq]
  dsimp only
  by_cases hlt : new < q
  · rw [if_pos hlt]
    obtain ⟨hs, hb, h₁, h₂⟩ := hg.lower (by omega) (by omega) (by omega) hlt hkey hnew
    exact hs.shuffle r hb h₁ h₂
  · rw [if_neg hlt]
    obtain ⟨hs, hb, h₁, h₂⟩ := hg.raise (q := q) (by omega) (by omega) (by omega) (by omega) hkey hnew
    exact hs.shuffle r hb h₁ h₂

end Update

end BucketList

end LibtorrentSN
