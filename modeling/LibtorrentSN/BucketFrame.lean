import LibtorrentSN.BucketMove

/-!
# Bucketed lists: what the operations leave alone

The index of an item that is neither stored nor being stored is not touched by any
operation, and no operation writes a negative index. A client may therefore keep a
negative mark in the index of an item that has no key: `MarkEq` says that two lists agree
on these marks.
-/

namespace LibtorrentSN

namespace BucketList

section Frame
variable {l : BucketList} {key key₀ : ℕ → ℤ}

/-- Record `v` as the slot of `p` without storing `p`. -/
def setIdx (l : BucketList) (p : ℕ) (v : ℤ) : BucketList :=
  { l with index := l.index.set p v }

theorem setIdx_idx (l : BucketList) (p : ℕ) (v : ℤ) (x : ℕ) :
    (l.setIdx p v).idx x = if p = x ∧ p < l.index.length then v else l.idx x :=
  getD_set ..

@[simp] theorem setIdx_bounds (l : BucketList) (p : ℕ) (v : ℤ) :
    (l.setIdx p v).bounds = l.bounds := rfl

@[simp] theorem setIdx_bound (l : BucketList) (p : ℕ) (v : ℤ) (q : ℕ) :
    (l.setIdx p v).bound q = l.bound q := rfl

@[simp] theorem setIdx_item (l : BucketList) (p : ℕ) (v : ℤ) (k : ℕ) :
    (l.setIdx p v).item k = l.item k := rfl

theorem setIdx_setBound (l : BucketList) (p : ℕ) (v : ℤ) (q w : ℕ) :
    (l.setIdx p v).setBound q w = (l.setBound q w).setIdx p v := rfl

@[simp] theorem setIdx_index_length (l : BucketList) (p : ℕ) (v : ℤ) :
    (l.setIdx p v).index.length = l.index.length := by simp [setIdx]

/-- The index of an item without a key may hold anything. -/
theorem Sorted.setIdx (h : l.Sorted key) {p : ℕ} (hp : key p < 0) (v : ℤ) :
    (l.setIdx p v).Sorted key := by
  refine ⟨h.pos, h.mono, h.last, ?_, ?_, ?_⟩
  · intro k hk
    obtain ⟨-, q, -, hkey, -, -⟩ := h.slot k hk
    rw [show (l.setIdx p v).item k = l.item k from rfl, setIdx_idx, if_neg ?_]
    · exact h.idx_item k hk
    · rintro ⟨rfl, -⟩
      omega
  · intro k hk
    rw [setIdx_index_length]
    exact h.slot k hk
  · intro x hx
    rw [setIdx_index_length] at hx
    exact h.listed x hx

/-! ## The number of items -/

@[simp] theorem insertLoop_index_length (fuel : ℕ) : ∀ (q i x : ℕ) (l : BucketList),
    (insertLoop fuel q i x l).2.2.index.length = l.index.length := by
  induction fuel with
  | zero => exact fun _ _ _ _ => rfl
  | succ fuel ih =>
    intro q i x l
    rw [insertLoop]
    split_ifs <;> simp [ih]

@[simp] theorem eraseLoop_index_length (fuel : ℕ) : ∀ (q e : ℕ) (l : BucketList),
    (eraseLoop fuel q e l).index.length = l.index.length := by
  induction fuel with
  | zero => exact fun _ _ _ => rfl
  | succ fuel ih =>
    intro q e l
    rw [eraseLoop]
    dsimp only
    split_ifs <;> simp [ih]

@[simp] theorem lowerLoop_index_length (fuel : ℕ) : ∀ (q temp e : ℕ) (l : BucketList),
    (lowerLoop fuel q temp e l).2.index.length = l.index.length := by
  induction fuel with
  | zero => exact fun _ _ _ _ => rfl
  | succ fuel ih =>
    intro q temp e l
    rw [lowerLoop]
    split_ifs <;> simp [ih]

@[simp] theorem raiseLoop_index_length (fuel : ℕ) : ∀ (q temp e : ℕ) (l : BucketList),
    (raiseLoop fuel q temp e l).2.index.length = l.index.length := by
  induction fuel with
  | zero => exact fun _ _ _ _ => rfl
  | succ fuel ih =>
    intro q temp e l
    rw [raiseLoop]
    split_ifs <;> simp [ih]

@[simp] theorem insert_index_length (l : BucketList) (q p r : ℕ) :
    (l.insert q p r).index.length = l.index.length := by
  rw [BucketList.insert]
  dsimp only
  split_ifs <;> simp

@[simp] theorem erase_index_length (l : BucketList) (q e : ℕ) :
    (l.erase q e).index.length = l.index.length := by
  rw [BucketList.erase]
  simp

@[simp] theorem update_index_length (l : BucketList) (q e : ℕ) (key : ℤ) (r : ℕ) :
    (l.update q e key r).index.length = l.index.length := by
  rw [BucketList.update]
  simp only [BucketList.shuffle, BucketList.swap]
  split_ifs <;> simp

/-! ## Untouched indices -/

/-- Every stored item, and everything an operation may store, is in `S`. -/
def Within (S : ℕ → Prop) (l : BucketList) : Prop := ∀ k < l.items.length, S (l.item k)

variable {S : ℕ → Prop}

theorem Within.put (h : Within S l) {k p : ℕ} (hp : S p) : Within S (l.put k p) := by
  intro j hj
  rw [put_item]
  split_ifs
  · exact hp
  · exact h j (by simpa using hj)

theorem put_idx_of_not {k p y : ℕ} (hp : S p) (hy : ¬ S y) : (l.put k p).idx y = l.idx y := by
  rw [put_idx, if_neg]
  rintro ⟨rfl, -⟩
  exact hy hp

theorem insertLoop_frame {y : ℕ} (hy : ¬ S y) : ∀ (fuel q i x : ℕ) (l : BucketList),
    Within S l → S x → (∀ j, q ≤ j → l.bound j < l.items.length) →
    (insertLoop fuel q i x l).2.2.idx y = l.idx y ∧ S (insertLoop fuel q i x l).2.1 := by
  intro fuel
  induction fuel with
  | zero => exact fun q i x l _ hx _ => ⟨rfl, hx⟩
  | succ fuel ih =>
    intro q i x l hl hx hb
    have hb' : ∀ j, q + 1 ≤ j → (l.setBound q (l.bound q + 1)).bound j < l.items.length := by
      intro j hj
      rw [setBound_bound, if_neg (by omega)]
      exact hb j (by omega)
    rw [insertLoop]
    split_ifs
    · exact ih _ _ _ _ hl hx hb'
    · exact ⟨rfl, hx⟩
    · have hput : Within S ((l.setBound q (l.bound q + 1)).put (l.bound q) x) :=
        Within.put hl hx
      obtain ⟨h₁, h₂⟩ := ih (q + 1) (l.bound q) (l.item (l.bound q)) _ hput
        (hl _ (hb q (Nat.le_refl q))) (by simpa using hb')
      exact ⟨h₁.trans (put_idx_of_not hx hy), h₂⟩

/-- The free slot `e` is not read, so its item may be outside of `S`. -/
theorem eraseLoop_frame {y : ℕ} (hy : ¬ S y) : ∀ (fuel q e : ℕ) (l : BucketList),
    (∀ k < l.items.length, k ≠ e → S (l.item k)) → 0 < l.items.length →
    (∀ j, q ≤ j → l.bound j ≤ l.items.length) →
    (eraseLoop fuel q e l).idx y = l.idx y := by
  intro fuel
  induction fuel with
  | zero => exact fun _ _ _ _ _ _ => rfl
  | succ fuel ih =>
    intro q e l hl hpos hb
    have hb' : ∀ j, q + 1 ≤ j → (l.setBound q (l.bound q - 1)).bound j ≤ l.items.length := by
      intro j hj
      rw [setBound_bound, if_neg (by omega)]
      exact hb j (by omega)
    have hlast : e ≠ l.bound q - 1 → S (l.item (l.bound q - 1)) := by
      have := hb q (Nat.le_refl q)
      exact fun he => hl _ (by omega) (Ne.symm he)
    rw [eraseLoop]
    dsimp only
    split_ifs with he
    · exact ih _ _ _ hl hpos hb'
    · rfl
    · exact put_idx_of_not (l := l.setBound q _) (hlast he) hy
    · refine (ih _ _ _ ?_ (by simpa using hpos) (by simpa using hb')).trans ?_
      · intro k hk _
        rw [put_item]
        split_ifs with hc
        · exact hlast he
        · rw [put_length, setBound_items] at hk
          rw [setBound_items] at hc
          exact hl k hk (by omega)
      · exact put_idx_of_not (l := l.setBound q _) (hlast he) hy

/-- The free slot is not written back, so the index of its item may be set before or
after. -/
theorem eraseLoop_setIdx {p : ℕ} {v : ℤ} : ∀ (fuel q e : ℕ) (l : BucketList),
    (∀ k < l.items.length, k ≠ e → l.item k ≠ p) → 0 < l.items.length →
    (∀ j, q ≤ j → l.bound j ≤ l.items.length) →
    eraseLoop fuel q e (l.setIdx p v) = (eraseLoop fuel q e l).setIdx p v := by
  intro fuel
  induction fuel with
  | zero => exact fun _ _ _ _ _ _ => rfl
  | succ fuel ih =>
    intro q e l hl hpos hb
    have hb' : ∀ j, q + 1 ≤ j → (l.setBound q (l.bound q - 1)).bound j ≤ l.items.length := by
      intro j hj
      rw [setBound_bound, if_neg (by omega)]
      exact hb j (by omega)
    have hlast : e ≠ l.bound q - 1 → l.item (l.bound q - 1) ≠ p := by
      have := hb q (Nat.le_refl q)
      exact fun he => hl _ (by omega) (Ne.symm he)
    have hset : ∀ x, x ≠ p →
        ((l.setBound q (l.bound q - 1)).setIdx p v).put e x =
          ((l.setBound q (l.bound q - 1)).put e x).setIdx p v := by
      intro x hx
      simp only [BucketList.put, BucketList.setIdx, List.set_comm _ _ (Ne.symm hx)]
    simp only [eraseLoop, setIdx_bound, setIdx_setBound, setBound_length, setIdx_bounds,
      setIdx_item, put_bounds]
    split_ifs with he h₁ h₂
    · exact ih _ _ _ hl hpos hb'
    · rfl
    · exact hset _ (hlast he)
    · refine Eq.trans (congrArg _ (hset _ (hlast he))) (ih _ _ _ ?_ (by simpa using hpos)
        (by simpa using hb'))
      intro k hk _
      rw [put_item]
      split_ifs with hc
      · exact hlast he
      · rw [put_length, setBound_items] at hk
        rw [setBound_items] at hc
        exact hl k hk (by omega)

theorem lowerLoop_frame {y : ℕ} (hy : ¬ S y) : ∀ (fuel q temp e : ℕ) (l : BucketList),
    Within S l → (∀ j < q, l.bound j < l.items.length) → fuel ≤ q →
    (lowerLoop fuel q temp e l).2.idx y = l.idx y ∧
      Within S (lowerLoop fuel q temp e l).2 := by
  intro fuel
  induction fuel with
  | zero => exact fun _ _ _ _ hl _ _ => ⟨rfl, hl⟩
  | succ fuel ih =>
    intro q temp e l hl hb hq
    have hb' : ∀ j < q - 1, (l.setBound (q - 1) (l.bound (q - 1) + 1)).bound j <
        l.items.length := by
      intro j hj
      rw [setBound_bound, if_neg (by omega)]
      exact hb j (by omega)
    have hend : S (l.item (l.bound (q - 1))) := hl _ (hb _ (by omega))
    have hput : Within S ((l.setBound (q - 1) (l.bound (q - 1) + 1)).put e
        (l.item (l.bound (q - 1)))) := Within.put hl hend
    rw [lowerLoop]
    split_ifs
    · exact ih _ _ _ _ hl hb' (by omega)
    · obtain ⟨h₁, h₂⟩ := ih (q - 1) (l.item (l.bound (q - 1))) (l.bound (q - 1)) _ hput
        (by simpa using hb') (by omega)
      exact ⟨h₁.trans (put_idx_of_not hend hy), h₂⟩

theorem raiseLoop_frame {y : ℕ} (hy : ¬ S y) : ∀ (fuel q temp e : ℕ) (l : BucketList),
    Within S l → 0 < l.items.length → (∀ j, q ≤ j → l.bound j ≤ l.items.length) →
    (raiseLoop fuel q temp e l).2.idx y = l.idx y ∧
      Within S (raiseLoop fuel q temp e l).2 := by
  intro fuel
  induction fuel with
  | zero => exact fun _ _ _ _ hl _ _ => ⟨rfl, hl⟩
  | succ fuel ih =>
    intro q temp e l hl hpos hb
    have hb' : ∀ j, q + 1 ≤ j → (l.setBound q (l.bound q - 1)).bound j ≤ l.items.length := by
      intro j hj
      rw [setBound_bound, if_neg (by omega)]
      exact hb j (by omega)
    have hend : S (l.item (l.bound q - 1)) := by
      have := hb q (Nat.le_refl q)
      exact hl _ (by omega)
    have hput : Within S ((l.setBound q (l.bound q - 1)).put e (l.item (l.bound q - 1))) :=
      Within.put hl hend
    rw [raiseLoop]
    split_ifs
    · exact ih _ _ _ _ hl hpos hb'
    · obtain ⟨h₁, h₂⟩ := ih (q + 1) (l.item (l.bound q - 1)) (l.bound q - 1) _ hput
        (by simpa using hpos) (by simpa using hb')
      exact ⟨h₁.trans (put_idx_of_not hend hy), h₂⟩

/-! ## The operations -/

theorem Sorted.bound_le_all (h : l.Sorted key) (j : ℕ) : l.bound j ≤ l.items.length := by
  by_cases hj : j < l.bounds.length
  · exact h.bound_le hj
  · rw [BucketList.bound, List.getD_eq_default _ _ (by omega)]
    exact Nat.zero_le _

theorem Sorted.within (h : l.Sorted key) (hS : ∀ x, 0 ≤ key x → S x) : Within S l := by
  intro k hk
  obtain ⟨-, q, -, hkey, -, -⟩ := h.slot k hk
  exact hS _ (by omega)

/-- Insertion touches the index of no other item without a key. -/
theorem Sorted.insert_idx (h : l.Sorted key₀) {p q y : ℕ} (r : ℕ) (hyp : y ≠ p)
    (hy : key₀ y < 0) (hn : y < l.index.length) : (l.insert q p r).idx y = l.idx y := by
  have hg := h.growTo q
  set S : ℕ → Prop := fun x => x = p ∨ x = l.index.length ∨ 0 ≤ key₀ x with hS
  have hyS : ¬ S y := by
    rintro (rfl | rfl | h0)
    · exact hyp rfl
    · omega
    · omega
  set l₁ : BucketList :=
    { l.growTo q with items := (l.growTo q).items ++ [l.index.length] } with hl₁
  have hlen : l₁.items.length = l.items.length + 1 := by simp [hl₁]
  have hw : Within S l₁ := by
    intro k hk
    have hitem : l₁.item k = if k = l.items.length then l.index.length else l.item k :=
      getD_append_single ..
    rw [hitem]
    split_ifs with hc
    · exact .inr (.inl rfl)
    · exact h.within (S := S) (fun x hx => .inr (.inr hx)) k (by omega)
  have hb : ∀ j, l₁.bound j < l₁.items.length := by
    intro j
    have hj : l₁.bound j ≤ l.items.length := hg.bound_le_all j
    omega
  simp only [BucketList.insert]
  set i := if (l.growTo q).hi q = (l.growTo q).lo q then (l.growTo q).lo q
    else random r ((l.growTo q).hi q - (l.growTo q).lo q) + (l.growTo q).lo q with hi
  have hil : i < l₁.items.length := by
    have hq : q < (l.growTo q).bounds.length := by rw [growTo_length]; omega
    have h₁ := hg.lo_le_hi hq
    have h₂ := hg.bound_le hq
    have h₃ := random_le r ((l.growTo q).hi q - (l.growTo q).lo q)
    have h₄ : (l.growTo q).hi q = (l.growTo q).bound q := rfl
    simp only [growTo_items] at h₂
    rw [hi]
    split_ifs <;> omega
  obtain ⟨h₁, h₂⟩ := insertLoop_frame hyS ((l.growTo q).bounds.length - q) q i (l₁.item i)
    (l₁.put i p) (hw.put (.inl rfl)) (hw i hil) (fun j _ => by simpa using hb j)
  have h₀ : (l₁.put i p).idx y = l.idx y := put_idx_of_not (S := S) (.inl rfl) hyS
  split_ifs
  · exact h₁.trans h₀
  · exact (put_idx_of_not h₂ hyS).trans (h₁.trans h₀)

/-- Erasure touches no index of an item without a key, nor that of the erased item. -/
theorem Sorted.erase_idx (h : l.Sorted key) {q e y : ℕ} (he : e < l.items.length)
    (hy : key y < 0 ∨ y = l.item e) : (l.erase q e).idx y = l.idx y := by
  have hfr : (eraseLoop (l.bounds.length - q) q e l).idx y = l.idx y := by
    refine eraseLoop_frame (S := fun x => 0 ≤ key x ∧ x ≠ l.item e) ?_ _ q e l ?_ (by omega) ?_
    · rintro ⟨h₁, h₂⟩
      rcases hy with hy | hy
      · omega
      · exact h₂ hy
    · intro k hk hke
      refine ⟨h.within (S := fun x => 0 ≤ key x) (fun _ hx => hx) k hk, fun hc => hke ?_⟩
      exact h.item_inj hk he hc
    · exact fun j _ => h.bound_le_all j
  exact hfr

/-- The index of the item to be erased may be overwritten first. -/
theorem Sorted.erase_setIdx (h : l.Sorted key) {q e : ℕ} (he : e < l.items.length) (v : ℤ) :
    (l.setIdx (l.item e) v).erase q e = (l.erase q e).setIdx (l.item e) v := by
  have := eraseLoop_setIdx (p := l.item e) (v := v) (l.bounds.length - q) q e l
    (fun k hk hke hc => hke (h.item_inj hk he hc)) (by omega)
    (fun j _ => h.bound_le_all j)
  simp only [BucketList.erase, setIdx_bounds, this]
  rfl

theorem swap_idx_of_not {i j y : ℕ} (hi : S (l.item i)) (hj : S (l.item j)) (hy : ¬ S y) :
    (l.swap i j).idx y = l.idx y := by
  have hne : ∀ x, S x → ¬ x = y := fun x hx hc => hy (hc ▸ hx)
  simp only [BucketList.swap, BucketList.idx, getD_set, hne _ hi, hne _ hj, false_and, if_false]

theorem Sorted.shuffle_idx (h : l.Sorted key) {q e y : ℕ} (r : ℕ) (hq : q < l.bounds.length)
    (h₁ : l.lo q ≤ e) (h₂ : e < l.hi q) (hy : key y < 0) :
    (l.shuffle q e r).idx y = l.idx y := by
  have := random_le r (l.hi q - l.lo q - 1)
  have hend : l.hi q ≤ l.items.length := h.bound_le hq
  have hw := h.within (S := fun x => 0 ≤ key x) (fun _ hx => hx)
  rw [BucketList.shuffle]
  split_ifs with hc
  · rfl
  · refine swap_idx_of_not (S := fun x => 0 ≤ key x) (hw _ ?_) (hw _ (by omega)) ?_
    · omega
    · exact Int.not_le.mpr hy

/-- Moving an item touches the index of no item without a key. -/
theorem Sorted.update_idx (h : l.Sorted key₀) {q e y : ℕ} (r : ℕ) (hq : q < l.bounds.length)
    (hlo : l.lo q ≤ e) (hhi : e < l.hi q)
    (hkey : ∀ y, y ≠ l.item e → key y = key₀ y) (hy : key₀ y < 0) :
    (l.update q e (key (l.item e)) r).idx y = l.idx y := by
  have heL : e < l.items.length := Nat.lt_of_lt_of_le hhi (h.bound_le hq)
  have hkq : key₀ (l.item e) = q := h.key_item hq hlo hhi
  have hye : y ≠ l.item e := by
    rintro rfl
    omega
  have hy' : key y < 0 := by rwa [hkey y hye]
  rw [BucketList.update]
  by_cases hsame : key (l.item e) = q
  · rw [if_pos hsame]
  rw [if_neg hsame]
  by_cases hneg : key (l.item e) < 0
  · rw [if_pos hneg]
    exact h.erase_idx heL (.inl hy)
  rw [if_neg hneg]
  obtain ⟨new, hnew⟩ : ∃ new : ℕ, key (l.item e) = new :=
    ⟨_, (Int.toNat_of_nonneg (by omega)).symm⟩
  have hnq : new ≠ q := by
    rintro rfl
    exact hsame hnew
  rw [hnew, Int.toNat_natCast]
  have hg := h.growTo new
  have hglen := growTo_length l new
  have hgb := growTo_bound l new
  have hlo₁ : (l.growTo new).lo q = l.lo q := by
    simp only [lo, hgb]
    split_ifs <;> first | rfl | omega
  have hhi₁ : (l.growTo new).hi q = l.hi q := by
    simp only [hi, hgb]
    rw [if_pos hq]
  have hw := hg.within (S := fun x => 0 ≤ key₀ x) (fun _ hx => hx)
  have hyS : ¬ 0 ≤ key₀ y := by omega
  have hput : ∀ (l' : BucketList) (k : ℕ), (l'.put k (l.item e)).idx y = l'.idx y :=
    fun l' k => put_idx_of_not (S := fun x => 0 ≤ key₀ x) (by omega) hyS
  dsimp only
  by_cases hlt : new < q
  · rw [if_pos hlt]
    obtain ⟨hs, hb, h₁, h₂⟩ := hg.lower (by omega) (by omega) (by omega) hlt hkey hnew
    refine (hs.shuffle_idx r hb h₁ h₂ hy').trans ((hput _ _).trans ?_)
    refine (lowerLoop_frame hyS (q - new) q _ e _ hw ?_ (by omega)).1
    -- the buckets below `q` end before the slot `e`
    intro j hj
    have h₃ := hg.mono j (q - 1) (by omega) (by omega)
    rw [← hlo₁, lo, if_neg (by omega)] at hlo
    simp only [growTo_items]
    omega
  · rw [if_neg hlt]
    obtain ⟨hs, hb, h₁, h₂⟩ :=
      hg.raise (q := q) (by omega) (by omega) (by omega) (by omega) hkey hnew
    refine (hs.shuffle_idx r hb h₁ h₂ hy').trans ((hput _ _).trans ?_)
    refine (raiseLoop_frame hyS (new - q) q _ e _ hw (Nat.lt_of_le_of_lt (Nat.zero_le e) heL)
      fun j _ => ?_).1
    exact hg.bound_le_all j

/-! ## Marks -/

/-- The two lists carry the same negative marks. -/
def MarkEq (l l' : BucketList) : Prop := ∀ y, l'.idx y = -1 ↔ l.idx y = -1

/-- A marked item is not stored. -/
theorem Sorted.lt_zero_of_mark (h : l.Sorted key) {y : ℕ} (hy : l.idx y = -1) :
    y < l.index.length ∧ key y < 0 := by
  have hn : y < l.index.length := by
    by_contra hc
    rw [BucketList.idx, List.getD_eq_default _ _ (by omega)] at hy
    omega
  refine ⟨hn, ?_⟩
  by_contra hc
  obtain ⟨k, hk, rfl⟩ := h.listed y hn (by omega)
  rw [h.idx_item k hk] at hy
  omega

/-- Storing an unmarked item keeps the marks. -/
theorem Sorted.insert_markEq (h : l.Sorted key₀) {p q : ℕ} (r : ℕ) (hp : p < l.index.length)
    (habs : key₀ p < 0) (hkey : ∀ y, y ≠ p → key y = key₀ y) (hq : key p = q)
    (hm : l.idx p ≠ -1) : MarkEq l (l.insert q p r) := by
  have hs := h.insert r hp habs hkey hq
  intro y
  constructor
  · intro hy
    obtain ⟨hn, hneg⟩ := hs.lt_zero_of_mark hy
    have hyp : y ≠ p := by
      rintro rfl
      omega
    rw [insert_index_length] at hn
    rwa [h.insert_idx r hyp (by rw [← hkey y hyp]; exact hneg) hn] at hy
  · intro hy
    obtain ⟨hn, hneg⟩ := h.lt_zero_of_mark hy
    have hyp : y ≠ p := by
      rintro rfl
      exact hm hy
    rwa [h.insert_idx r hyp hneg hn]

/-- Moving or erasing a stored item keeps the marks. -/
theorem Sorted.update_markEq (h : l.Sorted key₀) {q e : ℕ} (r : ℕ) (hq : q < l.bounds.length)
    (hlo : l.lo q ≤ e) (hhi : e < l.hi q) (hkey : ∀ y, y ≠ l.item e → key y = key₀ y) :
    MarkEq l (l.update q e (key (l.item e)) r) := by
  have hs := h.update r hq hlo hhi hkey
  have heL : e < l.items.length := Nat.lt_of_lt_of_le hhi (h.bound_le hq)
  have hkq : key₀ (l.item e) = q := h.key_item hq hlo hhi
  intro y
  constructor
  · intro hy
    obtain ⟨hn, hneg⟩ := hs.lt_zero_of_mark hy
    by_cases hye : y = l.item e
    · -- the item was erased, which leaves its index alone
      subst hye
      rw [BucketList.update, if_neg (by omega), if_pos hneg, h.erase_idx heL (.inr rfl)] at hy
      exact hy
    · rwa [h.update_idx r hq hlo hhi hkey (by rw [← hkey y hye]; exact hneg)] at hy
  · intro hy
    rwa [h.update_idx r hq hlo hhi hkey (h.lt_zero_of_mark hy).2]

/-- So does erasing one. -/
theorem Sorted.erase_markEq (h : l.Sorted key₀) {q e : ℕ} (hq : q < l.bounds.length)
    (hlo : l.lo q ≤ e) (hhi : e < l.hi q) : MarkEq l (l.erase q e) := by
  have hoff : ∀ y, y ≠ l.item e → (fun y => if y = l.item e then -1 else key₀ y) y = key₀ y :=
    fun y hy => if_neg hy
  have hup := h.update_markEq 0 hq hlo hhi hoff
  have hkey : (if l.item e = l.item e then (-1 : ℤ) else key₀ (l.item e)) = -1 := if_pos rfl
  rw [hkey, BucketList.update, if_neg (by omega), if_pos (by decide)] at hup
  exact hup

end Frame

end BucketList

end LibtorrentSN
