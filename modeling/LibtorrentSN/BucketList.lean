import Mathlib

/-!
# Bucketed lists with an inverse index

A general data structure, independent of what is stored in it: a dense array of
items grouped into consecutive *buckets* (one per key), the list of bucket ends,
and for every possible item the slot it was last written to.

* `items` — the array, bucket after bucket;
* `bounds` — the end of every bucket (bucket `q` is the slice `[lo q, hi q)`);
* `index` — for every item its slot, so that it is found without a search.

The four operations (`insert`, `erase`, `update` and `shuffle`) move at most one
item per bucket: a bucket is shifted by one slot by carrying its first item to its
end (or the other way round). The order inside a bucket is arbitrary, and where an
operation chooses a slot at random the raw draw is a parameter.

`Sorted l key` says that the list is exact for the key function `key`: an item is
stored iff its key is not negative, once, in the bucket of its key, and its index
is its slot. The laws below say that each operation re-establishes `Sorted` after
the key of one item has changed.
-/

namespace LibtorrentSN

/-- A value in `[0, max]` from a raw draw `r`. -/
def random (r max : ℕ) : ℕ := r % (max + 1)

theorem random_le (r max : ℕ) : random r max ≤ max :=
  Nat.le_of_lt_succ (Nat.mod_lt _ (Nat.succ_pos _))

theorem getD_set {α : Type*} (l : List α) (i j : ℕ) (a d : α) :
    (l.set i a).getD j d = if i = j ∧ i < l.length then a else l.getD j d := by
  simp only [List.getD_eq_getElem?_getD, List.getElem?_set]
  by_cases hij : i = j
  · subst hij
    by_cases hi : i < l.length
    · simp [hi]
    · simp [hi]
  · simp [hij]

theorem getD_append_single {α : Type*} (l : List α) (a d : α) (j : ℕ) :
    (l ++ [a]).getD j d = if j = l.length then a else l.getD j d := by
  simp only [List.getD_eq_getElem?_getD]
  rcases Nat.lt_trichotomy j l.length with h | h | h
  · rw [List.getElem?_append_left h, if_neg (by omega)]
  · subst h
    simp
  · rw [List.getElem?_eq_none (by simp; omega), List.getElem?_eq_none (by omega),
      if_neg (by omega)]

/-- Items in buckets, the bucket ends, and the slot of every item. -/
structure BucketList where
  /-- the items, bucket after bucket -/
  items : List ℕ
  /-- the end of each bucket -/
  bounds : List ℕ
  /-- for every item, the slot it was last written to -/
  index : List ℤ
  deriving DecidableEq, Repr

namespace BucketList

/-! ## Reading and writing -/

/-- The item in slot `k`. -/
def item (l : BucketList) (k : ℕ) : ℕ := l.items.getD k 0

/-- The end of bucket `q`. -/
def bound (l : BucketList) (q : ℕ) : ℕ := l.bounds.getD q 0

/-- The recorded slot of item `p`. -/
def idx (l : BucketList) (p : ℕ) : ℤ := l.index.getD p 0

/-- The first slot of bucket `q`. -/
def lo (l : BucketList) (q : ℕ) : ℕ := if q = 0 then 0 else l.bound (q - 1)

/-- One past the last slot of bucket `q`. -/
def hi (l : BucketList) (q : ℕ) : ℕ := l.bound q

/-- Store item `p` in slot `k` and record the slot. -/
def put (l : BucketList) (k p : ℕ) : BucketList :=
  { l with items := l.items.set k p, index := l.index.set p k }

/-- Move the end of bucket `q`. -/
def setBound (l : BucketList) (q v : ℕ) : BucketList :=
  { l with bounds := l.bounds.set q v }

/-- Make sure that bucket `q` exists; new buckets are empty. -/
def growTo (l : BucketList) (q : ℕ) : BucketList :=
  { l with bounds := l.bounds ++ List.replicate (q + 1 - l.bounds.length) l.items.length }

section Api
variable (l : BucketList) (k p q v : ℕ)

@[simp] theorem put_bounds : (l.put k p).bounds = l.bounds := rfl
@[simp] theorem put_length : (l.put k p).items.length = l.items.length := by simp [put]
@[simp] theorem put_index_length : (l.put k p).index.length = l.index.length := by simp [put]
@[simp] theorem put_bound (j : ℕ) : (l.put k p).bound j = l.bound j := rfl
@[simp] theorem setBound_items : (l.setBound q v).items = l.items := rfl
@[simp] theorem setBound_index : (l.setBound q v).index = l.index := rfl
@[simp] theorem setBound_item (j : ℕ) : (l.setBound q v).item j = l.item j := rfl
@[simp] theorem setBound_idx (j : ℕ) : (l.setBound q v).idx j = l.idx j := rfl
@[simp] theorem setBound_length : (l.setBound q v).bounds.length = l.bounds.length := by
  simp [setBound]

theorem put_item (j : ℕ) :
    (l.put k p).item j = if k = j ∧ k < l.items.length then p else l.item j :=
  getD_set ..

theorem put_idx (x : ℕ) :
    (l.put k p).idx x = if p = x ∧ p < l.index.length then (k : ℤ) else l.idx x :=
  getD_set ..

theorem setBound_bound (j : ℕ) :
    (l.setBound q v).bound j = if q = j ∧ q < l.bounds.length then v else l.bound j :=
  getD_set ..

end Api

/-! ## The operations -/

/-- The tail of an insertion: `x` has just lost its slot `i`, and the ends of the
buckets below `q` have been moved. Bucket `q` grows by one slot; if `x` is one of
its items, `x` goes to the new slot and the item found there is carried on. The
result is the last slot looked at, the item still carried, and the list. -/
def insertLoop : ℕ → ℕ → ℕ → ℕ → BucketList → ℕ × ℕ × BucketList
  | 0, _, i, x, l => (i, x, l)
  | fuel + 1, q, i, x, l =>
    let t := l.bound q
    let l := l.setBound q (t + 1)
    if t = i ∧ q + 1 < l.bounds.length then insertLoop fuel (q + 1) i x l
    else if l.bounds.length ≤ q + 1 then (t, x, l)
    else insertLoop fuel (q + 1) t (l.item t) (l.put t x)

/-- Add `p` to bucket `q`, at a random slot of the bucket (draw `r`). The new slot at
the end of the array starts with a placeholder that is no item. -/
def insert (l : BucketList) (q p r : ℕ) : BucketList :=
  let l := l.growTo q
  let i := if l.hi q = l.lo q then l.lo q else random r (l.hi q - l.lo q) + l.lo q
  let hole := l.index.length
  let l := { l with items := l.items ++ [hole] }
  let x := l.item i
  let l := l.put i p
  let (i, x, l) := insertLoop (l.bounds.length - q) q i x l
  if x = hole then l else l.put i x

/-- The tail of an erasure: slot `e` is free and the ends of the buckets below `q` have
been moved. The last item of bucket `q` fills the free slot. -/
def eraseLoop : ℕ → ℕ → ℕ → BucketList → BucketList
  | 0, _, _, l => l
  | fuel + 1, q, e, l =>
    let t := l.bound q - 1
    let l := l.setBound q t
    if e = t then
      if q + 1 < l.bounds.length then eraseLoop fuel (q + 1) e l else l
    else
      let l := l.put e (l.item t)
      if q + 1 = l.bounds.length then l else eraseLoop fuel (q + 1) t l

/-- Remove the item in slot `e` of bucket `q`. -/
def erase (l : BucketList) (q e : ℕ) : BucketList :=
  let l := eraseLoop (l.bounds.length - q) q e l
  { l with items := l.items.dropLast }

/-- Exchange the items of the slots `i` and `j`. -/
def swap (l : BucketList) (i j : ℕ) : BucketList :=
  let x := l.item i
  let y := l.item j
  { l with
    items := (l.items.set i y).set j x
    index := (l.index.set x (l.idx y)).set y (l.idx x) }

/-- Exchange slot `e` of bucket `q` with a random slot of the bucket (draw `r`). -/
def shuffle (l : BucketList) (q e r : ℕ) : BucketList :=
  let other := random r (l.hi q - l.lo q - 1) + l.lo q
  if other = e then l else l.swap other e

/-- Carry the free slot `e` from bucket `q` down `fuel` buckets: each bucket below
gives its end slot away. `temp` is the item that was written last. -/
def lowerLoop : ℕ → ℕ → ℕ → ℕ → BucketList → ℕ × BucketList
  | 0, _, _, e, l => (e, l)
  | fuel + 1, q, temp, e, l =>
    let q := q - 1
    let i := l.bound q
    let l := l.setBound q (i + 1)
    if l.item i = temp then lowerLoop fuel q temp i l
    else lowerLoop fuel q (l.item i) i (l.put e (l.item i))

/-- Carry the free slot `e` from bucket `q` up `fuel` buckets. -/
def raiseLoop : ℕ → ℕ → ℕ → ℕ → BucketList → ℕ × BucketList
  | 0, _, _, e, l => (e, l)
  | fuel + 1, q, temp, e, l =>
    let i := l.bound q - 1
    let l := l.setBound q i
    if l.item i = temp then raiseLoop fuel (q + 1) temp i l
    else raiseLoop fuel (q + 1) (l.item i) i (l.put e (l.item i))

/-- The item in slot `e` of bucket `q` now has the key `key`: move it there. -/
def update (l : BucketList) (q e : ℕ) (key : ℤ) (r : ℕ) : BucketList :=
  let p := l.item e
  if key = q then l
  else if key < 0 then l.erase q e
  else
    let new := key.toNat
    let l := l.growTo new
    let (e, l) :=
      if new < q then lowerLoop (q - new) q p e l else raiseLoop (new - q) q p e l
    (l.put e p).shuffle new e r

/-! ## Exactness -/

/-- The list is exact for `key`: an item is stored iff its key is not negative, in the
bucket of its key, in the slot its index names. -/
structure Sorted (l : BucketList) (key : ℕ → ℤ) : Prop where
  /-- there is a bucket -/
  pos : 0 < l.bounds.length
  /-- bucket ends do not decrease -/
  mono : ∀ i j, i ≤ j → j < l.bounds.length → l.bound i ≤ l.bound j
  /-- the last bucket ends with the array -/
  last : l.bound (l.bounds.length - 1) = l.items.length
  /-- the index inverts the array -/
  idx_item : ∀ k < l.items.length, l.idx (l.item k) = k
  /-- every slot holds an item of the bucket the slot is in -/
  slot : ∀ k < l.items.length, l.item k < l.index.length ∧
    ∃ q < l.bounds.length, key (l.item k) = q ∧ l.lo q ≤ k ∧ k < l.hi q
  /-- every item with a key is stored -/
  listed : ∀ p < l.index.length, 0 ≤ key p → ∃ k < l.items.length, l.item k = p

section Sorted
variable {l l₀ : BucketList} {key key₀ : ℕ → ℤ}

theorem lo_succ (l : BucketList) (q : ℕ) : l.lo (q + 1) = l.bound q := rfl

theorem Sorted.lo_le_hi (h : l.Sorted key) {q : ℕ} (hq : q < l.bounds.length) :
    l.lo q ≤ l.hi q := by
  rcases q with - | q
  · exact Nat.zero_le _
  · exact h.mono q (q + 1) (Nat.le_succ q) hq

theorem Sorted.bound_le (h : l.Sorted key) {q : ℕ} (hq : q < l.bounds.length) :
    l.bound q ≤ l.items.length := by
  rw [← h.last]
  exact h.mono q _ (by omega) (by have := h.pos; omega)

/-- Two slots with the same item are the same slot. -/
theorem Sorted.item_inj (h : l.Sorted key) {j k : ℕ} (hj : j < l.items.length)
    (hk : k < l.items.length) (he : l.item j = l.item k) : j = k := by
  have h₁ := h.idx_item j hj
  have h₂ := h.idx_item k hk
  rw [he, h₂] at h₁
  exact_mod_cast h₁.symm

/-- No item is stored twice. -/
theorem Sorted.nodup (h : l.Sorted key) : l.items.Nodup := by
  rw [List.nodup_iff_injective_get]
  intro i j hij
  have h₁ := List.getD_eq_getElem l.items 0 i.2
  have h₂ := List.getD_eq_getElem l.items 0 j.2
  refine Fin.ext (h.item_inj i.2 j.2 ?_)
  rw [item, item, h₁, h₂]
  exact hij

/-- The buckets are disjoint. -/
theorem Sorted.bucket_unique (h : l.Sorted key) {j q k : ℕ} (hj : j < l.bounds.length)
    (hq : q < l.bounds.length) (h₁ : l.lo j ≤ k) (h₂ : k < l.hi j) (h₃ : l.lo q ≤ k)
    (h₄ : k < l.hi q) : j = q := by
  rcases Nat.lt_trichotomy j q with hlt | heq | hgt
  · have := h.mono j (q - 1) (by omega) (by omega)
    simp only [lo, hi] at *
    split at h₃ <;> omega
  · exact heq
  · have := h.mono q (j - 1) (by omega) (by omega)
    simp only [lo, hi] at *
    split at h₁ <;> omega

/-- A slot of bucket `q` holds an item of key `q`. -/
theorem Sorted.key_item (h : l.Sorted key) {q k : ℕ} (hq : q < l.bounds.length)
    (h₁ : l.lo q ≤ k) (h₂ : k < l.hi q) : key (l.item k) = q := by
  obtain ⟨-, j, hj, hkey, h₃, h₄⟩ := h.slot k (Nat.lt_of_lt_of_le h₂ (h.bound_le hq))
  rw [hkey, h.bucket_unique hj hq h₃ h₄ h₁ h₂]

/-- An item with a key sits in the slot its index names, in the bucket of its key. -/
theorem Sorted.locate (h : l.Sorted key) {p : ℕ} (hp : p < l.index.length) (h0 : 0 ≤ key p) :
    ∃ k q : ℕ, k < l.items.length ∧ l.item k = p ∧ l.idx p = k ∧ q < l.bounds.length ∧
      key p = q ∧ l.lo q ≤ k ∧ k < l.hi q := by
  obtain ⟨k, hk, rfl⟩ := h.listed p hp h0
  obtain ⟨-, q, hq, hkey, h₁, h₂⟩ := h.slot k hk
  exact ⟨k, q, hk, rfl, h.idx_item k hk, hq, hkey, h₁, h₂⟩

theorem growTo_bound (l : BucketList) (q j : ℕ) :
    (l.growTo q).bound j =
      if j < l.bounds.length then l.bound j else if j ≤ q then l.items.length else 0 := by
  simp only [growTo, bound, List.getD_eq_getElem?_getD]
  by_cases hj : j < l.bounds.length
  · rw [List.getElem?_append_left hj, if_pos hj]
  · rw [List.getElem?_append_right (by omega), if_neg hj, List.getElem?_replicate]
    by_cases hq : j ≤ q
    · rw [if_pos hq, if_pos (by omega)]
      rfl
    · rw [if_neg hq, if_neg (by omega)]
      rfl

theorem growTo_length (l : BucketList) (q : ℕ) :
    (l.growTo q).bounds.length = max l.bounds.length (q + 1) := by
  simp only [growTo, List.length_append, List.length_replicate]
  omega

@[simp] theorem growTo_items (l : BucketList) (q : ℕ) : (l.growTo q).items = l.items := rfl
@[simp] theorem growTo_index (l : BucketList) (q : ℕ) : (l.growTo q).index = l.index := rfl
@[simp] theorem growTo_item (l : BucketList) (q k : ℕ) : (l.growTo q).item k = l.item k := rfl
@[simp] theorem growTo_idx (l : BucketList) (q k : ℕ) : (l.growTo q).idx k = l.idx k := rfl

/-- New empty buckets at the end change nothing. -/
theorem Sorted.growTo (h : l.Sorted key) (q : ℕ) : (l.growTo q).Sorted key := by
  have hlen := growTo_length l q
  have hb := growTo_bound l q
  have hpos := h.pos
  refine ⟨by omega, ?_, ?_, h.idx_item, ?_, h.listed⟩
  · intro i j hij hj
    rw [hb, hb]
    have := h.mono i j hij
    have := @Sorted.bound_le _ _ h i
    split_ifs <;> omega
  · rw [hb, growTo_items]
    have := h.last
    split_ifs with h₁ h₂
    · rw [show (l.growTo q).bounds.length - 1 = l.bounds.length - 1 by omega]
      exact this
    · rfl
    · omega
  · intro k hk
    obtain ⟨hn, j, hj, hkey, h₁, h₂⟩ := h.slot k hk
    refine ⟨hn, j, by omega, hkey, ?_, ?_⟩
    · rcases j with - | j
      · exact Nat.zero_le _
      · rw [lo_succ, hb, if_pos (by omega)]
        exact h₁
    · rw [hi, hb, if_pos hj]
      exact h₂

end Sorted

end BucketList

end LibtorrentSN
