import LibtorrentSN.Utp.PacketBuffer

/-!
# The packet buffer is a finite map

The map a packet buffer stands for, the invariant that ties the buffer to it, and what each
operation does to it while the stored packets keep to a window of fewer than `0x4000`
sequence numbers.
-/

namespace LibtorrentSN

namespace Utp

open RingStore

/-- The distance from one 16-bit sequence number up to another. -/
abbrev seqDist (a b : ℕ) : ℕ := RingStore.dist 65536 a b

theorem sub32_and {a b : ℕ} (ha : a < 65536) (hb : b < 65536) :
    sub32 b a &&& 0xffff = seqDist a b := by
  have h : sub32 b a &&& (2 ^ 16 - 1) = sub32 b a % 2 ^ 16 := Nat.and_two_pow_sub_one_eq_mod _ _
  have h' : sub32 b a % 2 ^ 16 = seqDist a b := by
    simp only [sub32, seqDist, RingStore.dist]
    omega
  exact h.trans h'

theorem and_ffff (a : ℕ) : a &&& 0xffff = a % 65536 := Nat.and_two_pow_sub_one_eq_mod a 16

/-- `lhs` is less than `rhs` when it lies more than half the numbers past it. -/
theorem compareLessWrap_iff {a b : ℕ} (ha : a < 65536) (hb : b < 65536) :
    compareLessWrap a b 0xffff = true ↔ 32768 < seqDist b a := by
  rw [compareLessWrap, sub32_and ha hb, sub32_and hb ha, decide_eq_true_iff]
  simp only [seqDist, RingStore.dist]
  omega

namespace PacketBuffer

variable {α : Type*} {b : PacketBuffer α} {m : ℕ → Option α} {k : ℕ}

/-! ### The map -/

/-- The number of packets in the map. -/
def stored (m : ℕ → Option α) : ℕ := ((Finset.range 65536).filter fun k => (m k).isSome).card

theorem stored_eq_zero (h : stored m = 0) (hlt : ∀ k, m k ≠ none → k < 65536) (k : ℕ) :
    m k = none := by
  by_contra hk
  have hmem : k ∈ (Finset.range 65536).filter fun k => (m k).isSome := by
    rw [Finset.mem_filter, Finset.mem_range]
    exact ⟨hlt k hk, Option.isSome_iff_ne_none.mpr hk⟩
  rw [Finset.card_eq_zero.mp h] at hmem
  exact absurd hmem (Finset.notMem_empty k)

theorem stored_ne_zero (hk : k < 65536) (h : m k ≠ none) : stored m ≠ 0 := by
  have hmem : k ∈ (Finset.range 65536).filter fun k => (m k).isSome := by
    rw [Finset.mem_filter, Finset.mem_range]
    exact ⟨hk, Option.isSome_iff_ne_none.mpr h⟩
  exact Finset.card_ne_zero_of_mem hmem

theorem stored_insert (hk : k < 65536) (p : α) :
    stored (Function.update m k (some p)) =
      if (m k).isSome then stored m else stored m + 1 := by
  have hset : ((Finset.range 65536).filter fun x => (Function.update m k (some p) x).isSome) =
      Insert.insert k ((Finset.range 65536).filter fun x => (m x).isSome) := by
    ext x
    by_cases hx : x = k
    · subst hx
      simp [Finset.mem_range.mpr hk]
    · simp [hx]
  rw [stored, hset]
  split
  next h =>
    have hmem : k ∈ (Finset.range 65536).filter fun x => (m x).isSome := by
      rw [Finset.mem_filter, Finset.mem_range]
      exact ⟨hk, h⟩
    rw [Finset.insert_eq_of_mem hmem, stored]
  next h =>
    have hmem : k ∉ (Finset.range 65536).filter fun x => (m x).isSome := by
      rw [Finset.mem_filter]
      exact fun hc => h hc.2
    rw [Finset.card_insert_of_notMem hmem, stored]

theorem stored_remove (h : m k ≠ none) (hk : k < 65536) :
    stored (Function.update m k none) = stored m - 1 := by
  have hset : ((Finset.range 65536).filter fun x => (Function.update m k none x).isSome) =
      ((Finset.range 65536).filter fun x => (m x).isSome).erase k := by
    ext x
    by_cases hx : x = k
    · subst hx
      simp
    · simp [hx]
  have hmem : k ∈ (Finset.range 65536).filter fun x => (m x).isSome := by
    rw [Finset.mem_filter, Finset.mem_range]
    exact ⟨hk, Option.isSome_iff_ne_none.mpr h⟩
  rw [stored, hset, Finset.card_erase_of_mem hmem, stored]

/-! ### The invariant -/

/-- The storage is allocated: as many slots as the capacity says, and that is a power of
two. -/
structure Allocated (b : PacketBuffer α) : Prop where
  length : b.storage.length = b.capacity
  power : ∃ j, 4 ≤ j ∧ j ≤ 14 ∧ b.capacity = 2 ^ j

/-- The end markers enclose the map: `first` is stored, `last` is one past a stored packet,
and every stored packet lies between them. -/
structure Covers (b : PacketBuffer α) (m : ℕ → Option α) : Prop where
  first_lt : b.first < 65536
  last_lt : b.last < 65536
  within : Within 65536 b.first (seqDist b.first b.last) m
  head : m b.first ≠ none
  tail : m ((b.last + 65535) % 65536) ≠ none
  fits : seqDist b.first b.last ≤ b.capacity

/-- The buffer `b` holds the map `m`. -/
structure Represents (b : PacketBuffer α) (m : ℕ → Option α) : Prop where
  shape : b.capacity = 0 ∧ b.first = 0 ∨ Allocated b
  stores : Stores 65536 b.storage m
  size : b.size = stored m
  first_lt : b.first < 65536
  covers : b.size ≠ 0 → Covers b m

theorem Allocated.bounds (h : Allocated b) : 16 ≤ b.capacity ∧ b.capacity ≤ 16384 := by
  obtain ⟨j, h4, h14, hj⟩ := h.power
  have hlo : 2 ^ 4 ≤ 2 ^ j := Nat.pow_le_pow_right (by decide) h4
  have hhi : 2 ^ j ≤ 2 ^ 14 := Nat.pow_le_pow_right (by decide) h14
  omega

theorem Allocated.dvd (h : Allocated b) : b.capacity ∣ 65536 := by
  obtain ⟨j, -, h14, hj⟩ := h.power
  rw [hj]
  exact pow_dvd_pow 2 (by omega : j ≤ 16)

theorem Allocated.dvd_length (h : Allocated b) : b.storage.length ∣ 65536 := h.length ▸ h.dvd

theorem and_sub32_one {c j : ℕ} (h : j ≤ 14) (hc : c = 2 ^ j) (i : ℕ) :
    i &&& sub32 c 1 = i % c := by
  have hle : 2 ^ j ≤ 2 ^ 14 := Nat.pow_le_pow_right (by decide) h
  have hpos : 0 < c := hc ▸ Nat.two_pow_pos j
  have hsub : sub32 c 1 = c - 1 := by
    simp only [sub32]
    omega
  rw [hsub, hc, Nat.and_two_pow_sub_one_eq_mod]

theorem Allocated.slotIndex_eq (h : Allocated b) (i : ℕ) : b.slotIndex i = i % b.capacity := by
  obtain ⟨j, -, h14, hj⟩ := h.power
  exact and_sub32_one h14 hj i

theorem Allocated.slot_eq (h : Allocated b) (i : ℕ) :
    b.slot i = RingStore.get b.storage (i % b.storage.length) := by
  rw [slot, h.slotIndex_eq, h.length]

/-- A slot less than the capacity past a base holds its own key's packet, when every stored key
does. -/
theorem Allocated.slot_key (h : Allocated b) (hs : Stores 65536 b.storage m) {f : ℕ}
    (hf : f < 65536) (hw : Within 65536 f b.capacity m) (hk : k < 65536)
    (hd : seqDist f k < b.capacity) : b.slot k = m k := by
  rw [h.slot_eq]
  exact hs.get_eq h.dvd_length hf hk (h.length.symm ▸ hw) (h.length.symm ▸ hd)

theorem Allocated.slot_congr (h : Allocated b) {i j : ℕ} (hij : i % b.capacity = j % b.capacity) :
    b.slot i = b.slot j := by
  rw [slot, slot, h.slotIndex_eq, h.slotIndex_eq, hij]

/-- The slot `o` past the base, at any index that names it. -/
theorem Allocated.slot_offset (h : Allocated b) (hs : Stores 65536 b.storage m) {f i o : ℕ}
    (hf : f < 65536) (hw : Within 65536 f b.capacity m) (ho : o < b.capacity)
    (hi : i % b.capacity = (f + o) % b.capacity) : b.slot i = m ((f + o) % 65536) := by
  have hcap := h.bounds.2
  have hidx : i % b.capacity = (f + o) % 65536 % b.capacity := by
    rw [hi, Nat.mod_mod_of_dvd _ h.dvd]
  rw [h.slot_congr hidx]
  refine h.slot_key hs hf hw (Nat.mod_lt _ (by omega)) ?_
  rw [seqDist, dist_add hf (by omega)]
  exact ho

/-! ### Growing -/

/-- Doubling stops at the first power of two that is large enough. -/
theorem growTo_eq {fuel j size : ℕ} (hj : j ≤ 14) (hs : size ≤ 2 ^ 14) (hf : 14 ≤ fuel + j) :
    ∃ j', j ≤ j' ∧ j' ≤ 14 ∧ growTo fuel (2 ^ j) size = 2 ^ j' ∧ size ≤ 2 ^ j' := by
  induction fuel generalizing j with
  | zero =>
    have : j = 14 := by omega
    exact ⟨j, le_rfl, hj, rfl, this ▸ hs⟩
  | succ fuel ih =>
    rw [growTo]
    split
    next hlt =>
      have hj14 : j < 14 := by
        by_contra hc
        have : j = 14 := by omega
        rw [this] at hlt
        omega
      have hle : 2 ^ (j + 1) ≤ 2 ^ 14 := Nat.pow_le_pow_right (by decide) hj14
      have hdouble : 2 ^ j * 2 % 2 ^ 32 = 2 ^ (j + 1) := by
        rw [← pow_succ, Nat.mod_eq_of_lt (by omega)]
      rw [hdouble]
      obtain ⟨j', h1, h2, h3, h4⟩ := ih (j := j + 1) (by omega) (by omega)
      exact ⟨j', by omega, h2, h3, h4⟩
    next hge => exact ⟨j, le_rfl, hj, rfl, by omega⟩

@[simp] theorem reserve_size (b : PacketBuffer α) (n : ℕ) : (b.reserve n).size = b.size := rfl

@[simp] theorem reserve_first (b : PacketBuffer α) (n : ℕ) : (b.reserve n).first = b.first := rfl

@[simp] theorem reserve_last (b : PacketBuffer α) (n : ℕ) : (b.reserve n).last = b.last := rfl

/-- Reserving keeps the map and makes room for `n` slots. -/
theorem Allocated.reserve (h : Allocated b) (hs : Stores 65536 b.storage m)
    (hf : b.first < 65536) (hw : Within 65536 b.first b.capacity m) {n : ℕ} (hn : n ≤ 2 ^ 14) :
    Allocated (b.reserve n) ∧ Stores 65536 (b.reserve n).storage m ∧
      n ≤ (b.reserve n).capacity ∧ b.capacity ≤ (b.reserve n).capacity := by
  obtain ⟨j, h4, h14, hj⟩ := h.power
  have hcap := h.bounds
  obtain ⟨j', hjj, h14', hgrow, hle⟩ :
      ∃ j', j ≤ j' ∧ j' ≤ 14 ∧ growTo 32 (2 ^ j) n = 2 ^ j' ∧ n ≤ 2 ^ j' :=
    growTo_eq h14 hn (by omega)
  have hnew : growTo 32 (if b.capacity = 0 then 16 else b.capacity) n = 2 ^ j' := by
    rw [if_neg (by omega), hj, hgrow]
  have hcap' : (b.reserve n).capacity = 2 ^ j' := hnew
  have hmono : b.capacity ≤ 2 ^ j' := hj ▸ Nat.pow_le_pow_right (by decide) hjj
  -- the loop of the source is the copy of the library
  have hcopy : (b.reserve n).storage =
      RingStore.copy b.storage b.first (2 ^ j') b.storage.length := by
    simp only [PacketBuffer.reserve, hnew, RingStore.copy, h.length]
    refine List.foldl_ext _ _ _ fun st i hi => ?_
    have hi' : i < b.capacity := List.mem_range.mp hi
    have hadd : add32 b.first i = b.first + i := Nat.mod_eq_of_lt (by omega)
    rw [hadd, and_sub32_one h14' rfl, h.slot_eq, h.length]
  have hdvd : 2 ^ j' ∣ 65536 := pow_dvd_pow 2 (by omega : j' ≤ 16)
  refine ⟨⟨?_, j', by omega, h14', hcap'⟩, ?_, hcap' ▸ hle, hcap' ▸ hmono⟩
  · rw [hcopy, hcap', length_copy]
  · rw [hcopy]
    exact hs.copy h.dvd_length hdvd (h.length.symm ▸ hmono) hf (h.length.symm ▸ hw)

/-- The first allocation: sixteen empty slots. -/
theorem allocated_reserve_sixteen (h0 : b.capacity = 0) :
    Allocated (b.reserve 16) ∧ (b.reserve 16).storage = List.replicate 16 none := by
  have hgrow : growTo 32 (if b.capacity = 0 then 16 else b.capacity) 16 = 16 := by
    rw [if_pos h0]
    rfl
  have hst : (b.reserve 16).storage = List.replicate 16 none := by
    simp only [PacketBuffer.reserve, h0]
    rfl
  have hcap : (b.reserve 16).capacity = 16 := hgrow
  exact ⟨⟨by rw [hst, hcap, List.length_replicate], 4, le_rfl, by omega, hcap⟩, hst⟩

/-! ### Storing a packet -/

/-- A map in which the buffer has room for the key `k`, from some base. -/
structure Room (b : PacketBuffer α) (m : ℕ → Option α) (k : ℕ) : Prop where
  allocated : Allocated b
  stores : Stores 65536 b.storage m
  window : ∃ f < 65536, Within 65536 f b.capacity m ∧ seqDist f k < b.capacity

theorem Room.slot_eq (h : Room b m k) (hk : k < 65536) : b.slot k = m k := by
  obtain ⟨f, hf, hw, hd⟩ := h.window
  exact h.allocated.slot_key h.stores hf hw hk hd

theorem Room.set (h : Room b m k) (hk : k < 65536) (v : Option α) :
    Stores 65536 (b.storage.set (b.slotIndex k) v) (Function.update m k v) := by
  obtain ⟨f, hf, hw, hd⟩ := h.window
  rw [h.allocated.slotIndex_eq, ← h.allocated.length]
  have hlen := h.allocated.length.symm
  exact h.stores.set h.allocated.dvd_length hf hk (hlen ▸ hw) (hlen ▸ hd) v

/-- Storing into a buffer whose end markers already enclose the new key. -/
theorem Room.storeSlot (h : Room b m k) (hk : k < 65536) (p : α) (hsize : b.size = stored m)
    (hc : Covers b (Function.update m k (some p))) (hfirst : b.size = 0 → b.first = k) :
    Represents (b.storeSlot k p) (Function.update m k (some p)) := by
  have hb : (b.storeSlot k p).first = b.first := by
    simp only [PacketBuffer.storeSlot]
    split
    next h0 => exact (hfirst h0).symm
    next => rfl
  have hlen : (b.storeSlot k p).storage.length = b.capacity := by
    simp only [PacketBuffer.storeSlot, List.length_set, h.allocated.length]
  refine ⟨.inr ⟨hlen, h.allocated.power⟩, h.set hk _, ?_, hb ▸ hc.first_lt, fun _ => ?_⟩
  · simp only [PacketBuffer.storeSlot, h.slot_eq hk, hsize, stored_insert hk]
  · exact ⟨hb ▸ hc.first_lt, hc.last_lt, by rw [hb]; exact hc.within, by rw [hb]; exact hc.head,
      hc.tail, by rw [hb]; exact hc.fits⟩

/-! ### The free slots below `first` -/

theorem Covers.window (h : Covers b m) : Within 65536 b.first b.capacity m :=
  h.within.mono h.fits

theorem Covers.span_pos (h : Covers b m) : 0 < seqDist b.first b.last :=
  Nat.zero_lt_of_lt (h.within _ h.head)

/-- The last stored packet, counted from `first`. -/
theorem Covers.tail_offset (h : Covers b m) :
    m ((b.first + (seqDist b.first b.last - 1)) % 65536) ≠ none := by
  have hpos := h.span_pos
  have hf := h.first_lt
  have hl := h.last_lt
  have he : (b.first + (seqDist b.first b.last - 1)) % 65536 = (b.last + 65535) % 65536 := by
    simp only [seqDist, RingStore.dist] at hpos ⊢
    omega
  rw [he]
  exact h.tail

theorem Covers.beyond (h : Covers b m) {o : ℕ} (ho : seqDist b.first b.last ≤ o)
    (hlt : o < 65536) : m ((b.first + o) % 65536) = none := by
  by_contra hne
  have := h.within _ hne
  rw [dist_add h.first_lt hlt] at this
  omega

theorem mod_offset_ne {f o c : ℕ} (ho : o < c) (h0 : o ≠ 0) : (f + o) % c ≠ f % c := by
  intro he
  have hmod : f + o ≡ f + 0 [MOD c] := he
  have := hmod.add_left_cancel'
  rw [Nat.ModEq, Nat.mod_eq_of_lt ho, Nat.zero_mod] at this
  exact h0 this

/-- Going down one slot, through the wrap of the 32-bit index. -/
theorem Allocated.slotIndex_pred (h : Allocated b) (x : ℕ) :
    b.slotIndex (sub32 ((x + 1) % b.capacity) 1) = x % b.capacity := by
  obtain ⟨j, -, h14, hj⟩ := h.power
  have hcap := h.bounds
  have hdvd : b.capacity ∣ 2 ^ 32 := hj ▸ pow_dvd_pow 2 (by omega : j ≤ 32)
  have hlt : (x + 1) % b.capacity < b.capacity := Nat.mod_lt _ (by omega)
  rw [h.slotIndex_eq, sub32, Nat.mod_mod_of_dvd _ hdvd]
  have hsplit : (x + 1) % b.capacity + 2 ^ 32 - 1 = (x + 1) % b.capacity + (2 ^ 32 - 1) := by
    omega
  rw [hsplit, Nat.mod_add_mod]
  have hsum : x + 1 + (2 ^ 32 - 1) = x + 2 ^ 32 := by omega
  rw [hsum, Nat.add_mod, Nat.mod_eq_zero_of_dvd hdvd, Nat.add_zero, Nat.mod_mod]

/-- The loop counts the free slots from offset `o` down to the last stored packet. -/
theorem Covers.freeSpace_eq (h : Covers b m) (ha : Allocated b) (hs : Stores 65536 b.storage m)
    {fuel o : ℕ} (free : ℕ) (ho : o < b.capacity) (hso : seqDist b.first b.last ≤ o + 1)
    (hfuel : o < fuel) :
    b.freeSpace fuel ((b.first + o) % b.capacity) free =
      free + (o + 1 - seqDist b.first b.last) := by
  have hcap := ha.bounds
  have hpos := h.span_pos
  induction fuel generalizing o free with
  | zero => omega
  | succ fuel ih =>
    have hslot : b.slot ((b.first + o) % b.capacity) = m ((b.first + o) % 65536) :=
      ha.slot_offset hs h.first_lt h.window ho (Nat.mod_mod _ _)
    rw [freeSpace, ha.slotIndex_eq, hslot]
    rcases Nat.eq_or_lt_of_le hso with hlast | hfree
    · -- the slot of the last packet
      have hsome : (m ((b.first + o) % 65536)).isSome := by
        have := h.tail_offset
        rw [hlast, Nat.add_sub_cancel] at this
        exact Option.isSome_iff_ne_none.mpr this
      have hzero : o + 1 - seqDist b.first b.last = 0 := by omega
      rw [if_pos hsome, ite_self, hzero, Nat.add_zero]
    · have hne : (b.first + o) % b.capacity ≠ b.first % b.capacity :=
        mod_offset_ne ho (by omega)
      have hnone := h.beyond (o := o) (by omega) (by omega)
      rw [if_neg hne, hnone, if_neg (by simp)]
      obtain ⟨o', rfl⟩ : ∃ o', o = o' + 1 := ⟨o - 1, by omega⟩
      rw [← Nat.add_assoc, ha.slotIndex_pred, ih (free + 1) (by omega) (by omega) (by omega)]
      omega

/-- The whole count: what the window leaves of the capacity. -/
theorem Covers.freeSpace (h : Covers b m) (ha : Allocated b) (hs : Stores 65536 b.storage m) :
    b.freeSpace b.capacity (b.slotIndex (sub32 b.first 1)) 0 =
      b.capacity - seqDist b.first b.last := by
  have hcap := ha.bounds
  have hfits := h.fits
  have hf := h.first_lt
  obtain ⟨j, -, h14, hj⟩ := ha.power
  have hdvd : b.capacity ∣ 2 ^ 32 := hj ▸ pow_dvd_pow 2 (by omega : j ≤ 32)
  have hstart : b.slotIndex (sub32 b.first 1) =
      (b.first + (b.capacity - 1)) % b.capacity := by
    rw [ha.slotIndex_eq, sub32, Nat.mod_mod_of_dvd _ hdvd]
    have h1 : b.first + 2 ^ 32 - 1 + b.capacity = b.first + (b.capacity - 1) + 2 ^ 32 := by omega
    rw [← Nat.add_mod_right, h1, Nat.add_mod, Nat.mod_eq_zero_of_dvd hdvd, Nat.add_zero,
      Nat.mod_mod]
  rw [hstart, h.freeSpace_eq ha hs 0 (by omega) (by omega) (by omega)]
  omega

end PacketBuffer

end Utp

end LibtorrentSN
