import LibtorrentSN.BucketList

/-!
# Bucketed lists: building the list from the keys

`rebuild` is a counting sort followed by a random shuffle of every bucket: a first pass
counts the items of each key and gives every item its rank among the items of its key,
the counts are summed up to bucket ends, a second pass writes every item to the slot
its rank names, and after the shuffles a last pass records the slots.

The result is `Sorted` whatever the list held before, and the index of an item without a
key is left alone.
-/

namespace LibtorrentSN

/-- The next raw draw of a random source, and the rest of the source. -/
def draw : List ℕ → ℕ × List ℕ
  | [] => (0, [])
  | r :: rng => (r, rng)

/-- A random permutation: every item is inserted at a random place of the shuffled rest. -/
def randomShuffle {α : Type*} : List α → List ℕ → List α × List ℕ
  | [], rng => ([], rng)
  | a :: l, rng =>
    let (r, rng) := draw rng
    let (l', rng) := randomShuffle l rng
    (l'.insertIdx (random r l'.length) a, rng)

theorem randomShuffle_perm {α : Type*} (l : List α) (rng : List ℕ) :
    (randomShuffle l rng).1.Perm l := by
  induction l generalizing rng with
  | nil => exact List.Perm.nil
  | cons a l ih =>
    have h := ih (draw rng).2
    exact (List.perm_insertIdx a _ (random_le _ _)).trans (h.cons a)

namespace BucketList

/-! ## The passes -/

/-- Count `p` in the bucket of its key; its index becomes its rank there. -/
def countStep (key : ℕ → ℤ) (l : BucketList) (p : ℕ) : BucketList :=
  if key p < 0 then l
  else
    let q := (key p).toNat
    let l := { l with bounds := l.bounds ++ List.replicate (q + 1 - l.bounds.length) 0 }
    { l with index := l.index.set p (l.bound q), bounds := l.bounds.set q (l.bound q + 1) }

/-- Turn bucket sizes into bucket ends. -/
def cumulate : ℕ → List ℕ → List ℕ
  | _, [] => []
  | s, b :: bs => (s + b) :: cumulate (s + b) bs

/-- Write `p` to the slot its rank names. -/
def fillStep (key : ℕ → ℤ) (l : BucketList) (p : ℕ) : BucketList :=
  if key p < 0 then l
  else { l with items := l.items.set (l.lo (key p).toNat + (l.idx p).toNat) p }

/-- Shuffle the bucket from `start` to the first bucket end, then the later ones; `items`
are the items from slot `start` on. -/
def shuffleBuckets : ℕ → List ℕ → List ℕ → List ℕ → List ℕ × List ℕ
  | _, [], items, rng => (items, rng)
  | start, b :: bs, items, rng =>
    if start = b then shuffleBuckets start bs items rng
    else
      let (s, rng) := randomShuffle (items.take (b - start)) rng
      let (rest, rng) := shuffleBuckets b bs (items.drop (b - start)) rng
      (s ++ rest, rng)

/-- Record the slots of `items`, the first of which is in slot `k`. -/
def indexPass : ℕ → List ℕ → List ℤ → List ℤ
  | _, [], index => index
  | k, p :: items, index => indexPass (k + 1) items (index.set p k)

/-- Build the list for `key` from scratch. -/
def rebuild (l : BucketList) (key : ℕ → ℤ) (rng : List ℕ) : BucketList × List ℕ :=
  let l := if l.bounds = [] then { l with bounds := [0] } else l
  let l := { l with bounds := List.replicate l.bounds.length 0 }
  let l := (List.range l.index.length).foldl (countStep key) l
  let size := l.bounds.sum
  let l := { l with
    bounds := cumulate 0 l.bounds
    items := l.items.take size ++ List.replicate (size - l.items.length) 0 }
  let l := (List.range l.index.length).foldl (fillStep key) l
  let (items, rng) := shuffleBuckets 0 l.bounds l.items rng
  ({ l with items := items, index := indexPass 0 items l.index }, rng)

/-! ## Counting -/

section Count
variable (key : ℕ → ℤ)

/-- The number of items below `m` with key `q`. -/
def rank (q m : ℕ) : ℕ := (List.range m).countP fun p => key p = q

theorem rank_succ (q m : ℕ) :
    rank key q (m + 1) = rank key q m + (if key m = q then 1 else 0) := by
  rw [rank, List.range_succ, List.countP_append, List.countP_singleton]
  simp [rank]

theorem rank_mono {q m n : ℕ} (h : m ≤ n) : rank key q m ≤ rank key q n := by
  induction h with
  | refl => exact Nat.le_refl _
  | step _ ih =>
    rw [Nat.succ_eq_add_one, rank_succ]
    omega

/-- Of two items with one key the later has the greater rank. -/
theorem rank_lt {p m : ℕ} {q : ℕ} (hp : key p = q) (h : p < m) :
    rank key q p < rank key q m := by
  have h₁ := rank_succ key q p
  rw [if_pos hp] at h₁
  have h₂ := rank_mono key (q := q) (show p + 1 ≤ m from h)
  omega

/-- Every rank below the count is taken. -/
theorem exists_rank {q r : ℕ} : ∀ {n : ℕ}, r < rank key q n →
    ∃ p < n, key p = q ∧ rank key q p = r := by
  intro n
  induction n with
  | zero =>
    intro h
    exact absurd h (Nat.not_lt_zero _)
  | succ n ih =>
    intro h
    rw [rank_succ] at h
    by_cases hlt : r < rank key q n
    · obtain ⟨p, hp, hk, hr⟩ := ih hlt
      exact ⟨p, by omega, hk, hr⟩
    · split_ifs at h with hk
      · exact ⟨n, by omega, hk, by omega⟩
      · omega

end Count

section CountPass
variable (key : ℕ → ℤ) (l : BucketList)

theorem getD_append_replicate (b : List ℕ) (m j : ℕ) :
    (b ++ List.replicate m 0).getD j 0 = b.getD j 0 := by
  simp only [List.getD_eq_getElem?_getD]
  rcases Nat.lt_or_ge j b.length with h | h
  · rw [List.getElem?_append_left h]
  · rw [List.getElem?_append_right h, List.getElem?_replicate, List.getElem?_eq_none h]
    split_ifs <;> rfl

theorem countStep_bound (p j : ℕ) :
    (countStep key l p).bound j = l.bound j + (if key p = j then 1 else 0) := by
  rw [countStep]
  by_cases hneg : key p < 0
  · rw [if_pos hneg, if_neg (by omega), Nat.add_zero]
  · rw [if_neg hneg]
    simp only [bound]
    rw [getD_set, getD_append_replicate]
    by_cases hj : key p = j
    · obtain rfl : (key p).toNat = j := by omega
      rw [if_pos hj, getD_append_replicate, if_pos]
      refine ⟨rfl, ?_⟩
      simp only [List.length_append, List.length_replicate]
      omega
    · rw [if_neg hj, if_neg (by omega), getD_append_replicate, Nat.add_zero]

theorem countStep_idx (p x : ℕ) (hp : p < l.index.length) :
    (countStep key l p).idx x =
      if x = p ∧ 0 ≤ key p then (l.bound (key p).toNat : ℤ) else l.idx x := by
  rw [countStep]
  by_cases hneg : key p < 0
  · rw [if_pos hneg, if_neg (by omega)]
  · rw [if_neg hneg]
    simp only [idx, bound]
    rw [getD_set, getD_append_replicate]
    exact if_congr ⟨fun h => ⟨h.1.symm, by omega⟩, fun h => ⟨h.1.symm, hp⟩⟩ rfl rfl

theorem countStep_index_length (p : ℕ) :
    (countStep key l p).index.length = l.index.length := by
  rw [countStep]
  split_ifs <;> simp

theorem countStep_length (p : ℕ) : l.bounds.length ≤ (countStep key l p).bounds.length ∧
    ∀ q : ℕ, key p = q → q < (countStep key l p).bounds.length := by
  rw [countStep]
  split_ifs with h
  · exact ⟨Nat.le_refl _, fun q hq => by omega⟩
  · simp only [List.length_set, List.length_append, List.length_replicate]
    exact ⟨by omega, fun q hq => by omega⟩

/-- The first pass: bucket counts and ranks. -/
theorem countPass_spec (h₀ : ∀ j, l.bound j = 0) (hpos : 0 < l.bounds.length) (m : ℕ)
    (hm : m ≤ l.index.length) :
    let l' := (List.range m).foldl (countStep key) l
    (∀ j, l'.bound j = rank key j m) ∧ l'.index.length = l.index.length ∧
      0 < l'.bounds.length ∧ (∀ p < m, ∀ q : ℕ, key p = q → q < l'.bounds.length) ∧
      (∀ p < m, ∀ q : ℕ, key p = q → l'.idx p = rank key q p) ∧
      (∀ p, (m ≤ p ∨ key p < 0) → l'.idx p = l.idx p) := by
  induction m with
  | zero =>
    refine ⟨h₀, rfl, hpos, fun p hp => absurd hp (Nat.not_lt_zero p),
      fun p hp => absurd hp (Nat.not_lt_zero p), fun _ _ => rfl⟩
  | succ m ih =>
    obtain ⟨hb, hi, hp0, hlt, hrank, hold⟩ := ih (by omega)
    rw [List.range_succ, List.foldl_append, List.foldl_cons, List.foldl_nil]
    set l₁ := (List.range m).foldl (countStep key) l
    have hlen := countStep_length key l₁ m
    refine ⟨?_, ?_, by omega, ?_, ?_, ?_⟩
    · intro j
      rw [countStep_bound, hb, rank_succ]
    · rw [countStep_index_length, hi]
    · intro p hp q hq
      rcases Nat.lt_succ_iff_lt_or_eq.mp hp with h | rfl
      · exact Nat.lt_of_lt_of_le (hlt p h q hq) hlen.1
      · exact hlen.2 q hq
    · intro p hp q hq
      rw [countStep_idx key l₁ m p (by omega)]
      rcases Nat.lt_succ_iff_lt_or_eq.mp hp with h | rfl
      · rw [if_neg (by omega)]
        exact hrank p h q hq
      · rw [if_pos ⟨rfl, by omega⟩, hb, hq, Int.toNat_natCast]
    · intro p hp
      rw [countStep_idx key l₁ m p (by omega), if_neg (by
        rintro ⟨rfl, h⟩
        omega)]
      exact hold p (by omega)

end CountPass

/-! ## Bucket ends -/

theorem cumulate_length (s : ℕ) (bs : List ℕ) : (cumulate s bs).length = bs.length := by
  induction bs generalizing s with
  | nil => rfl
  | cons b bs ih => rw [cumulate, List.length_cons, ih, List.length_cons]

theorem cumulate_getD (s : ℕ) (bs : List ℕ) (q : ℕ) (hq : q < bs.length) :
    (cumulate s bs).getD q 0 = s + (bs.take (q + 1)).sum := by
  induction bs generalizing s q with
  | nil => exact absurd hq (Nat.not_lt_zero q)
  | cons b bs ih =>
    rcases q with - | q
    · simp [cumulate]
    · have := ih (s + b) q (by simpa using hq)
      simp only [cumulate, List.getD_cons_succ, List.take_succ_cons, List.sum_cons]
      omega

theorem sum_take_succ (bs : List ℕ) (q : ℕ) (hq : q < bs.length) :
    (bs.take (q + 1)).sum = (bs.take q).sum + bs.getD q 0 := by
  rw [List.take_add_one, List.sum_append, List.getElem?_eq_getElem hq,
    List.getD_eq_getElem _ _ hq]
  simp

/-! ## Filling the slots -/

section Fill
variable {key : ℕ → ℤ} {l : BucketList} {n : ℕ}

/-- What the first pass and the sums establish: bucket `q` is as long as there are items
of key `q`, and the index of an item is its rank. -/
structure Counted (l : BucketList) (key : ℕ → ℤ) (n : ℕ) : Prop where
  index_length : l.index.length = n
  pos : 0 < l.bounds.length
  lt : ∀ p < n, ∀ q : ℕ, key p = q → q < l.bounds.length
  size : ∀ q < l.bounds.length, l.hi q = l.lo q + rank key q n
  idx_eq : ∀ p < n, ∀ q : ℕ, key p = q → l.idx p = rank key q p
  last : l.bound (l.bounds.length - 1) = l.items.length

/-- The slot an item is written to. -/
def slotOf (l : BucketList) (key : ℕ → ℤ) (p : ℕ) : ℕ :=
  l.lo (key p).toNat + (l.idx p).toNat

theorem Counted.mono (h : l.Counted key n) (i j : ℕ) (hij : i ≤ j)
    (hj : j < l.bounds.length) : l.bound i ≤ l.bound j := by
  induction hij with
  | refl => exact Nat.le_refl _
  | @step j _ ih =>
    have h₁ := ih (by omega)
    have h₂ := h.size (j + 1) hj
    simp only [hi, lo_succ] at h₂
    exact Nat.le_trans h₁ (by rw [Nat.succ_eq_add_one]; omega)

theorem Counted.slotOf_bucket (h : l.Counted key n) {p q : ℕ} (hp : p < n) (hq : key p = q) :
    l.slotOf key p = l.lo q + rank key q p ∧ l.lo q ≤ l.slotOf key p ∧
      l.slotOf key p < l.hi q := by
  have h₁ := h.idx_eq p hp q hq
  have h₂ := h.size q (h.lt p hp q hq)
  have h₃ := rank_lt key hq hp
  have he : l.slotOf key p = l.lo q + rank key q p := by
    rw [slotOf, hq, h₁, Int.toNat_natCast, Int.toNat_natCast]
  omega

theorem Counted.slotOf_lt (h : l.Counted key n) {p q : ℕ} (hp : p < n) (hq : key p = q) :
    l.slotOf key p < l.items.length := by
  have h₁ := (h.slotOf_bucket hp hq).2.2
  have h₂ := h.lt p hp q hq
  have h₃ := h.mono q (l.bounds.length - 1) (by omega) (by omega)
  rw [h.last] at h₃
  exact Nat.lt_of_lt_of_le h₁ h₃

theorem Counted.bucket_unique (h : l.Counted key n) {j q k : ℕ} (hj : j < l.bounds.length)
    (hq : q < l.bounds.length) (h₁ : l.lo j ≤ k) (h₂ : k < l.hi j) (h₃ : l.lo q ≤ k)
    (h₄ : k < l.hi q) : j = q := by
  rcases Nat.lt_trichotomy j q with hlt | heq | hgt
  · have := h.mono j (q - 1) (by omega) (by omega)
    simp only [lo, hi] at *
    split at h₃ <;> omega
  · exact heq
  · have := h.mono q (j - 1) (by omega) (by omega)
    simp only [lo, hi] at *
    split at h₁ <;> omega

theorem Counted.slotOf_inj (h : l.Counted key n) {p p' : ℕ} (hp : p < n) (hp' : p' < n)
    (h0 : 0 ≤ key p) (h0' : 0 ≤ key p') (he : l.slotOf key p = l.slotOf key p') : p = p' := by
  obtain ⟨q, hq⟩ : ∃ q : ℕ, key p = q := ⟨_, (Int.toNat_of_nonneg h0).symm⟩
  obtain ⟨q', hq'⟩ : ∃ q : ℕ, key p' = q := ⟨_, (Int.toNat_of_nonneg h0').symm⟩
  obtain ⟨h₁, h₂, h₃⟩ := h.slotOf_bucket hp hq
  obtain ⟨h₁', h₂', h₃'⟩ := h.slotOf_bucket hp' hq'
  obtain rfl := h.bucket_unique (h.lt p hp q hq) (h.lt p' hp' q' hq') h₂ h₃ (by omega) (by omega)
  rcases Nat.lt_trichotomy p p' with hlt | heq | hgt
  · have := rank_lt key hq hlt
    omega
  · exact heq
  · have := rank_lt key hq' hgt
    omega

/-- Some bucket covers every slot. -/
theorem exists_bucket (l : BucketList) {k : ℕ} :
    ∀ {m : ℕ}, m < l.bounds.length → k < l.bound m →
      ∃ q < l.bounds.length, l.lo q ≤ k ∧ k < l.hi q := by
  intro m
  induction m with
  | zero => exact fun hm hk => ⟨0, hm, Nat.zero_le k, hk⟩
  | succ m ih =>
    intro hm hk
    by_cases hlt : k < l.bound m
    · exact ih (by omega) hlt
    · exact ⟨m + 1, hm, by rw [lo_succ]; omega, hk⟩

/-- Every slot is the slot of an item. -/
theorem Counted.exists_slotOf (h : l.Counted key n) {k : ℕ} (hk : k < l.items.length) :
    ∃ p < n, ∃ q < l.bounds.length, key p = (q : ℕ) ∧ l.slotOf key p = k ∧ l.lo q ≤ k ∧
      k < l.hi q := by
  have hpos := h.pos
  obtain ⟨q, hq, h₁, h₂⟩ := l.exists_bucket (m := l.bounds.length - 1) (by omega)
    (by rw [h.last]; exact hk)
  have hs := h.size q hq
  obtain ⟨p, hp, hkp, hr⟩ := exists_rank key (q := q) (r := k - l.lo q) (n := n) (by omega)
  have := (h.slotOf_bucket hp hkp).1
  exact ⟨p, hp, q, hq, hkp, by omega, h₁, h₂⟩

theorem fillStep_item (h : l.Counted key n) (l' : BucketList) (hb : l'.bounds = l.bounds)
    (hi : l'.index = l.index) (hlen : l'.items.length = l.items.length) {p : ℕ} (hp : p < n)
    (k : ℕ) :
    (fillStep key l' p).item k =
      if 0 ≤ key p ∧ l.slotOf key p = k then p else l'.item k := by
  rw [fillStep]
  by_cases hneg : key p < 0
  · rw [if_pos hneg, if_neg (by omega)]
  · obtain ⟨q, hq⟩ : ∃ q : ℕ, key p = q := ⟨_, (Int.toNat_of_nonneg (by omega)).symm⟩
    have hlt := h.slotOf_lt hp hq
    have hslot : l'.lo (key p).toNat + (l'.idx p).toNat = l.slotOf key p := by
      simp only [slotOf, lo, bound, idx, hb, hi]
    rw [if_neg hneg, hslot]
    simp only [item]
    rw [getD_set]
    exact if_congr ⟨fun hc => ⟨by omega, hc.1⟩, fun hc => ⟨hc.2, by omega⟩⟩ rfl rfl

/-- The second pass writes every item to its slot. -/
theorem fillPass_spec (h : l.Counted key n) (m : ℕ) (hm : m ≤ n) :
    let l' := (List.range m).foldl (fillStep key) l
    l'.bounds = l.bounds ∧ l'.index = l.index ∧ l'.items.length = l.items.length ∧
      ∀ p < m, 0 ≤ key p → l'.item (l.slotOf key p) = p := by
  induction m with
  | zero => exact ⟨rfl, rfl, rfl, fun p hp => absurd hp (Nat.not_lt_zero p)⟩
  | succ m ih =>
    obtain ⟨hb, hi, hlen, hitem⟩ := ih (by omega)
    rw [List.range_succ, List.foldl_append, List.foldl_cons, List.foldl_nil]
    set l₁ := (List.range m).foldl (fillStep key) l
    have hstep := fillStep_item h l₁ hb hi hlen (show m < n by omega)
    refine ⟨?_, ?_, ?_, ?_⟩
    · rw [fillStep]
      split_ifs <;> exact hb
    · rw [fillStep]
      split_ifs <;> exact hi
    · rw [fillStep]
      split_ifs
      · exact hlen
      · rw [List.length_set, hlen]
    · intro p hp h0
      rw [hstep]
      rcases Nat.lt_succ_iff_lt_or_eq.mp hp with hlt | rfl
      · rw [if_neg]
        · exact hitem p hlt h0
        · rintro ⟨h0', he⟩
          have := h.slotOf_inj (by omega) (by omega) h0' h0 he
          omega
      · rw [if_pos ⟨h0, rfl⟩]

end Fill

/-! ## Shuffling and indexing -/

section Shuffle

/-- No bucket end separates the slots `j` and `k`. -/
def SameBucket (bs : List ℕ) (j k : ℕ) : Prop := ∀ b ∈ bs, j < b ↔ k < b

theorem shuffleBuckets_perm (bs : List ℕ) : ∀ (start : ℕ) (items rng : List ℕ),
    (shuffleBuckets start bs items rng).1.Perm items := by
  induction bs with
  | nil => exact fun _ _ _ => List.Perm.refl _
  | cons b bs ih =>
    intro start items rng
    rw [shuffleBuckets]
    split_ifs with h
    · exact ih _ _ _
    · conv_rhs => rw [← List.take_append_drop (b - start) items]
      exact (randomShuffle_perm _ _).append (ih _ _ _)

/-- Every item of the shuffled list comes from the same bucket. -/
theorem shuffleBuckets_bucket (bs : List ℕ) : ∀ (start : ℕ) (items rng : List ℕ) (k : ℕ),
    k < items.length → (∀ b ∈ bs, start ≤ b) → bs.Pairwise (· ≤ ·) →
    ∃ j < items.length, (shuffleBuckets start bs items rng).1.getD k 0 = items.getD j 0 ∧
      SameBucket bs (start + j) (start + k) := by
  induction bs with
  | nil =>
    intro start items rng k hk _ _
    exact ⟨k, hk, rfl, fun b hb => absurd hb List.not_mem_nil⟩
  | cons b bs ih =>
    intro start items rng k hk hstart hsorted
    obtain ⟨hb, hsorted⟩ := List.pairwise_cons.mp hsorted
    have hsb : start ≤ b := hstart b List.mem_cons_self
    rw [shuffleBuckets]
    by_cases he : start = b
    · rw [if_pos he]
      obtain ⟨j, hj, hget, hsame⟩ := ih start items rng k hk (fun c hc => by
        rw [he]
        exact hb c hc) hsorted
      refine ⟨j, hj, hget, ?_⟩
      intro c hc
      rcases List.mem_cons.mp hc with rfl | hc
      · omega
      · exact hsame c hc
    · rw [if_neg he]
      dsimp only
      set s := (randomShuffle (items.take (b - start)) rng).1 with hs
      have hperm : s.Perm (items.take (b - start)) := randomShuffle_perm _ _
      have hslen : s.length = min (b - start) items.length := by
        rw [hperm.length_eq, List.length_take]
      by_cases hlt : k < s.length
      · -- a slot of the first bucket
        have hmem : s.getD k 0 ∈ items.take (b - start) := by
          rw [List.getD_eq_getElem _ _ hlt]
          exact hperm.mem_iff.mp (List.getElem_mem hlt)
        obtain ⟨j, hj, hje⟩ := List.getElem_of_mem hmem
        rw [List.length_take] at hj
        refine ⟨j, by omega, ?_, ?_⟩
        · rw [List.getD_eq_getElem?_getD, List.getElem?_append_left hlt,
            ← List.getD_eq_getElem?_getD, ← hje, List.getElem_take,
            List.getD_eq_getElem _ _ (by omega)]
        · intro c hc
          have hbc : b ≤ c := by
            rcases List.mem_cons.mp hc with rfl | hc
            · exact Nat.le_refl _
            · exact hb c hc
          omega
      · have hle : b - start ≤ items.length := by omega
        have hslen' : s.length = b - start := by omega
        obtain ⟨j, hj, hget, hsame⟩ := ih b (items.drop (b - start))
          (randomShuffle (items.take (b - start)) rng).2 (k - (b - start))
          (by rw [List.length_drop]; omega) hb hsorted
        rw [List.length_drop] at hj
        refine ⟨b - start + j, by omega, ?_, ?_⟩
        · rw [List.getD_eq_getElem?_getD, List.getElem?_append_right (by omega), hslen',
            ← List.getD_eq_getElem?_getD, hget]
          simp only [List.getD_eq_getElem?_getD, List.getElem?_drop]
        · intro c hc
          rcases List.mem_cons.mp hc with rfl | hc
          · omega
          · have := hsame c hc
            omega

theorem indexPass_length (items : List ℕ) : ∀ (k : ℕ) (index : List ℤ),
    (indexPass k items index).length = index.length := by
  induction items with
  | nil => exact fun _ _ => rfl
  | cons p items ih =>
    intro k index
    rw [indexPass, ih, List.length_set]

theorem indexPass_of_notMem (items : List ℕ) (x : ℕ) : ∀ (k : ℕ) (index : List ℤ),
    x ∉ items → (indexPass k items index).getD x 0 = index.getD x 0 := by
  induction items with
  | nil => exact fun _ _ _ => rfl
  | cons p items ih =>
    intro k index hx
    obtain ⟨hxp, hx⟩ : x ≠ p ∧ x ∉ items := by simpa using hx
    rw [indexPass, ih _ _ hx, getD_set, if_neg (fun hc => hxp hc.1.symm)]

theorem indexPass_getD (items : List ℕ) : ∀ (k : ℕ) (index : List ℤ), items.Nodup →
    (∀ p ∈ items, p < index.length) → ∀ j < items.length,
      (indexPass k items index).getD (items.getD j 0) 0 = (k + j : ℕ) := by
  induction items with
  | nil => exact fun _ _ _ _ j hj => absurd hj (Nat.not_lt_zero j)
  | cons p items ih =>
    intro k index hnd hlt j hj
    obtain ⟨hp, hnd⟩ := List.nodup_cons.mp hnd
    rw [indexPass]
    rcases j with - | j
    · rw [List.getD_cons_zero, indexPass_of_notMem _ _ _ _ hp, getD_set,
        if_pos ⟨rfl, hlt p List.mem_cons_self⟩]
      rfl
    · rw [List.getD_cons_succ, ih (k + 1) _ hnd (fun y hy => by
        rw [List.length_set]
        exact hlt y (List.mem_cons_of_mem _ hy)) j (by simpa using hj),
        show k + 1 + j = k + (j + 1) by omega]

end Shuffle

/-! ## The rebuilt list -/

section Rebuild
variable (l : BucketList) (key : ℕ → ℤ) (rng : List ℕ)

/-- The list after the counts have been summed up, before the items are written. -/
def counted : BucketList :=
  let l := if l.bounds = [] then { l with bounds := [0] } else l
  let l := { l with bounds := List.replicate l.bounds.length 0 }
  let l := (List.range l.index.length).foldl (countStep key) l
  { l with
    bounds := cumulate 0 l.bounds
    items := l.items.take l.bounds.sum ++ List.replicate (l.bounds.sum - l.items.length) 0 }

theorem counted_spec : (l.counted key).Counted key l.index.length ∧
    ∀ p, key p < 0 → (l.counted key).idx p = l.idx p := by
  set l₀ : BucketList := if l.bounds = [] then { l with bounds := [0] } else l with hl₀
  set l₁ : BucketList := { l₀ with bounds := List.replicate l₀.bounds.length 0 } with hl₁
  have hidx₁ : l₁.index = l.index := by
    rw [hl₁, hl₀]
    split_ifs <;> rfl
  have hpos₁ : 0 < l₁.bounds.length := by
    rw [hl₁, List.length_replicate, hl₀]
    split_ifs with h
    · exact Nat.one_pos
    · exact List.length_pos_of_ne_nil h
  have hzero : ∀ j, l₁.bound j = 0 := by
    intro j
    simp only [hl₁, bound, List.getD_eq_getElem?_getD, List.getElem?_replicate]
    split_ifs <;> rfl
  obtain ⟨hb, hi, hp0, hlt, hrank, hold⟩ := countPass_spec key l₁ hzero hpos₁ l₁.index.length
    (Nat.le_refl _)
  set l₂ := (List.range l₁.index.length).foldl (countStep key) l₁ with hl₂
  have hn : l₁.index.length = l.index.length := by rw [hidx₁]
  rw [hn] at hb hi hlt hrank hold
  have hc : l.counted key = { l₂ with
      bounds := cumulate 0 l₂.bounds
      items := l₂.items.take l₂.bounds.sum ++
        List.replicate (l₂.bounds.sum - l₂.items.length) 0 } := rfl
  have hblen : (l.counted key).bounds.length = l₂.bounds.length := by
    rw [hc]
    exact cumulate_length _ _
  have hbound : ∀ q < l₂.bounds.length,
      (l.counted key).bound q = (l₂.bounds.take (q + 1)).sum := by
    intro q hq
    rw [hc]
    simp only [bound]
    rw [cumulate_getD 0 _ q hq, Nat.zero_add]
  refine ⟨⟨by rw [hc]; exact hi, by omega, ?_, ?_, ?_, ?_⟩, ?_⟩
  · intro p hp q hq
    rw [hblen]
    exact hlt p hp q hq
  · intro q hq
    rw [hblen] at hq
    have h₁ := sum_take_succ l₂.bounds q hq
    have h₂ := hb q
    simp only [bound] at h₂
    rw [h₂] at h₁
    rw [BucketList.hi, hbound q hq, h₁]
    rcases q with - | q
    · rfl
    · rw [lo_succ, hbound q (by omega)]
  · intro p hp q hq
    rw [hc]
    exact hrank p hp q hq
  · rw [hblen, hbound _ (by omega), hc]
    simp only [List.length_append, List.length_take, List.length_replicate]
    rw [show l₂.bounds.length - 1 + 1 = l₂.bounds.length by omega, List.take_length]
    omega
  · intro p hp
    rw [hc]
    refine (hold p (.inr hp)).trans ?_
    simp only [idx, hidx₁]

/-- **Rebuilding.** The rebuilt list is exact for `key`, and the index of an item without
a key has not changed. -/
theorem rebuild_spec : (l.rebuild key rng).1.Sorted key ∧
    (l.rebuild key rng).1.index.length = l.index.length ∧
    ∀ p, key p < 0 → (l.rebuild key rng).1.idx p = l.idx p := by
  obtain ⟨hc, hold⟩ := counted_spec l key
  set l₁ := l.counted key with hl₁
  have hn := hc.index_length
  obtain ⟨hb, hi, hlen, hitem⟩ := fillPass_spec hc l₁.index.length (by omega)
  set l₂ := (List.range l₁.index.length).foldl (fillStep key) l₁ with hl₂
  rw [hn] at hitem
  set items := (shuffleBuckets 0 l₂.bounds l₂.items rng).1 with hitems
  have hr : (l.rebuild key rng).1 =
      { l₂ with items := items, index := indexPass 0 items l₂.index } := rfl
  have hperm : items.Perm l₂.items := shuffleBuckets_perm _ _ _ _
  -- before the shuffle, slot `k` holds an item of the bucket around `k`
  have hslot : ∀ k < l₁.items.length, ∃ p < l.index.length, ∃ q < l₁.bounds.length,
      key p = (q : ℕ) ∧ l₂.item k = p ∧ l₁.slotOf key p = k ∧ l₁.lo q ≤ k ∧ k < l₁.hi q := by
    intro k hk
    obtain ⟨p, hp, q, hq, hkey, hs, h₁, h₂⟩ := hc.exists_slotOf hk
    exact ⟨p, hp, q, hq, hkey, by rw [← hs]; exact hitem p hp (by omega), hs, h₁, h₂⟩
  have hnodup₂ : l₂.items.Nodup := by
    rw [List.nodup_iff_getElem?_ne_getElem?]
    intro i j hij hj he
    obtain ⟨p, -, -, -, -, hp, hps, -⟩ := hslot i (by omega)
    obtain ⟨p', -, -, -, -, hp', hps', -⟩ := hslot j (by omega)
    have : l₂.item i = l₂.item j := by
      simp only [item, List.getD_eq_getElem?_getD, he]
    rw [hp, hp'] at this
    subst this
    omega
  have hnodup : items.Nodup := hperm.nodup_iff.mpr hnodup₂
  have hmem₂ : ∀ p ∈ l₂.items, p < l.index.length := by
    intro p hp
    obtain ⟨k, hk, rfl⟩ := List.getElem_of_mem hp
    obtain ⟨p', hp', -, -, -, he, -⟩ := hslot k (by omega)
    rwa [← List.getD_eq_getElem _ 0 hk, show l₂.items.getD k 0 = p' from he]
  have hmem : ∀ p ∈ items, p < l₂.index.length := by
    intro p hp
    rw [hi, hn]
    exact hmem₂ p (hperm.mem_iff.mp hp)
  have hlen' : items.length = l₁.items.length := by rw [hperm.length_eq, hlen]
  have hpair : l₂.bounds.Pairwise (· ≤ ·) := by
    rw [hb, List.pairwise_iff_getElem]
    intro i j hi' hj' hij
    have := hc.mono i j (Nat.le_of_lt hij) hj'
    rwa [bound, bound, List.getD_eq_getElem _ _ hi', List.getD_eq_getElem _ _ hj'] at this
  rw [hr]
  refine ⟨⟨by rw [hb]; exact hc.pos, ?_, ?_, ?_, ?_, ?_⟩, ?_, ?_⟩
  · intro i j hij hj
    simp only [bound, hb] at hj ⊢
    exact hc.mono i j hij hj
  · simp only [bound, hb, hlen']
    exact hc.last
  · intro k hk
    simp only [item, idx]
    rw [indexPass_getD items 0 l₂.index hnodup hmem k hk, Nat.zero_add]
  · intro k hk
    replace hk : k < items.length := hk
    obtain ⟨j, hj, hget, hsame⟩ := shuffleBuckets_bucket l₂.bounds 0 l₂.items rng k
      (by omega) (fun b _ => Nat.zero_le b) hpair
    obtain ⟨p, hp, q, hq, hkey, hpj, -, h₁, h₂⟩ := hslot j (by omega)
    have hke : items.getD k 0 = p := hget.trans hpj
    rw [Nat.zero_add, Nat.zero_add] at hsame
    -- the ends of bucket `q` do not separate `j` from `k`
    have hsame' : ∀ i < l₁.bounds.length, j < l₁.bound i ↔ k < l₁.bound i := by
      intro i hi'
      refine hsame (l₁.bound i) ?_
      rw [hb, bound, List.getD_eq_getElem _ _ hi']
      exact List.getElem_mem hi'
    simp only [item, lo, BucketList.hi, bound, hb, indexPass_length]
    refine ⟨by rw [hke, hi, hn]; exact hp, q, hq, by rw [hke, hkey], ?_, ?_⟩
    · simp only [lo] at h₁
      split_ifs at h₁ ⊢ with hq0
      · exact Nat.zero_le _
      · have := hsame' (q - 1) (by omega)
        simp only [bound] at this h₁
        omega
    · have := hsame' q hq
      simp only [BucketList.hi, bound] at h₂ this
      omega
  · intro p hp h0
    replace hp : p < l.index.length := by
      simp only [indexPass_length, hi] at hp
      omega
    obtain ⟨q, hq⟩ : ∃ q : ℕ, key p = q := ⟨_, (Int.toNat_of_nonneg h0).symm⟩
    have hlt := hc.slotOf_lt hp hq
    have hin : p ∈ items := by
      rw [hperm.mem_iff]
      have := hitem p hp h0
      rw [← this, item, List.getD_eq_getElem _ _ (by omega)]
      exact List.getElem_mem _
    obtain ⟨k, hk, hkp⟩ := List.getElem_of_mem hin
    exact ⟨k, hk, by rw [item, List.getD_eq_getElem _ _ hk, hkp]⟩
  · simp only [indexPass_length, hi, hn]
  · intro p hp
    have hnot : p ∉ items := by
      intro hin
      obtain ⟨k, hk, rfl⟩ := List.getElem_of_mem (hperm.mem_iff.mp hin)
      obtain ⟨p', -, q, -, hkey, he, -⟩ := hslot k (by omega)
      rw [← List.getD_eq_getElem _ 0 hk, show l₂.items.getD k 0 = p' from he] at hp
      omega
    simp only [idx]
    rw [indexPass_of_notMem _ _ _ _ hnot, hi]
    exact hold p hp

end Rebuild

end BucketList

end LibtorrentSN
