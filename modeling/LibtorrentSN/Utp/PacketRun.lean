import LibtorrentSN.Utp.PacketRing

/-!
# Runs of the packet buffer

Any sequence of calls on a packet buffer beside the same calls on a map. While the keys keep to
a window of fewer than `0x4000` numbers the two agree, as long as no call takes one of the
comparisons with `m_first + m_capacity` across the wrap of the sequence numbers.
-/

namespace LibtorrentSN

namespace Utp

open RingStore

namespace PacketBuffer

variable {α : Type*} {b : PacketBuffer α} {m : ℕ → Option α} {k : ℕ}

/-- The keys of the map and `k` lie in one window of fewer than `0x4000` numbers. -/
def Windowed (m : ℕ → Option α) (k : ℕ) : Prop :=
  ∃ base < 65536, ∃ w < 0x4000, Within 65536 base w m ∧ seqDist base k < w

/-- Two keys of the window are near each other, one way or the other. -/
theorem Windowed.near (h : Windowed m k) (hk : k < 65536) {i : ℕ} (hi : i < 65536)
    (hm : m i ≠ none) : seqDist i k < 16384 ∨ seqDist k i < 16384 := by
  obtain ⟨base, hbase, w, hw, hin, hd⟩ := h
  have := hin i hm
  simp only [seqDist, RingStore.dist] at *
  omega

/-- All keys lie in the window that starts at the lowest of them, `k` included. -/
theorem Windowed.from_first (h : Windowed m k) (hk : k < 65536) {i j : ℕ} (hi : i < 65536)
    (hj : j < 65536) (hmi : m i ≠ none) (hmj : m j ≠ none) (hij : seqDist i j < 16384) :
    seqDist i k < 16384 ∨ seqDist k j < 16384 ∧ seqDist k i ≤ seqDist k j := by
  obtain ⟨base, hbase, w, hw, hin, hd⟩ := h
  have h1 := hin i hmi
  have h2 := hin j hmj
  simp only [seqDist, RingStore.dist] at *
  omega

/-- No insertion goes past the last number while the storage ends before it. -/
def InsertSafe (b : PacketBuffer α) (k : ℕ) : Prop :=
  b.size ≠ 0 → k < b.first → seqDist b.first k < 32768 → 65536 ≤ b.first + b.capacity

/-- No lookup of a number past the wrap hits a slot that another packet occupies. -/
def LookupSafe (b : PacketBuffer α) (k : ℕ) : Prop :=
  k < b.first → b.capacity ≤ seqDist b.first k → seqDist b.first k < 32768 → b.slot k = none

/-! ### Lookup -/

theorem Represents.slot_of_empty (h : Represents b m) (h0 : b.size = 0) (i : ℕ) :
    b.slot i = none := by
  cases hs : b.slot i with
  | none => rfl
  | some p =>
    obtain ⟨k, -, hm⟩ := h.stores.source _ _ hs
    rw [stored_eq_zero (h.size ▸ h0) h.stores.key_lt k] at hm
    exact absurd hm (by simp)

theorem Represents.size_ne_zero (h : Represents b m) (hm : m k ≠ none) : b.size ≠ 0 := by
  rw [h.size]
  exact stored_ne_zero (h.stores.key_lt k hm) hm

theorem Represents.allocated (h : Represents b m) (hk : k < add32 b.first b.capacity) :
    Allocated b := by
  rcases h.shape with ⟨hc, hf⟩ | ha
  · rw [hc, hf] at hk
    exact absurd hk (Nat.not_lt_zero k)
  · exact ha

theorem Represents.allocated_of_covers (h : Represents b m) (hc : Covers b m) : Allocated b := by
  rcases h.shape with ⟨hz, -⟩ | ha
  · have := hc.fits
    have := hc.span_pos
    omega
  · exact ha

/-- A number that passes the guards of `at` and `remove` is looked up in its own slot, or in an
empty one. -/
theorem Represents.lookup (h : Represents b m) (hk : k < 65536) (hw : Windowed m k)
    (hsafe : LookupSafe b k) (h1 : ¬ k ≥ add32 b.first b.capacity)
    (h2 : ¬ compareLessWrap k b.first 0xffff = true) : b.slot k = m k := by
  have ha := h.allocated (not_le.mp h1)
  by_cases h0 : b.size = 0
  · rw [h.slot_of_empty h0, stored_eq_zero (h.size ▸ h0) h.stores.key_lt k]
  · have hc := h.covers h0
    have hcap := ha.bounds
    rw [compareLessWrap_iff hk hc.first_lt] at h2
    rcases Nat.lt_or_ge (seqDist b.first k) b.capacity with hd | hd
    · exact ha.slot_key h.stores hc.first_lt hc.window hk hd
    · -- past the storage: the guards only let through a number beyond the wrap
      have hf := hc.first_lt
      have hnear := hw.near hk hf hc.head
      have hadd : add32 b.first b.capacity = b.first + b.capacity := Nat.mod_eq_of_lt (by omega)
      rw [hadd] at h1
      have hslot : b.slot k = none := by
        refine hsafe ?_ hd ?_ <;> simp only [seqDist, RingStore.dist] at * <;> omega
      have hnone : m k = none := by
        by_contra hne
        have hlt : seqDist b.first k < b.capacity := hc.window k hne
        omega
      rw [hslot, hnone]

/-- A number stopped by the guards of `at` and `remove` is not stored. -/
theorem Represents.guarded (h : Represents b m) (hk : k < 65536)
    (hg : k ≥ add32 b.first b.capacity ∨ compareLessWrap k b.first 0xffff = true) :
    m k = none := by
  by_contra hne
  have hc := h.covers (h.size_ne_zero hne)
  have hf := hc.first_lt
  have hd := hc.window k hne
  rcases h.shape with ⟨h0, -⟩ | ha
  · omega
  have hcap := ha.bounds
  have hadd : add32 b.first b.capacity = b.first + b.capacity := Nat.mod_eq_of_lt (by omega)
  rw [compareLessWrap_iff hk hf, hadd] at hg
  simp only [seqDist, RingStore.dist] at *
  omega

/-- `at` returns the packet stored under `k`. -/
theorem Represents.packetAt (h : Represents b m) (hk : k < 65536) (hw : Windowed m k)
    (hsafe : LookupSafe b k) : b.packetAt k = m k := by
  rw [PacketBuffer.packetAt]
  split
  next h1 => exact (h.guarded hk (.inl h1)).symm
  next h1 =>
    split
    next h2 => exact (h.guarded hk (.inr h2)).symm
    next h2 => exact h.lookup hk hw hsafe h1 h2

/-! ### Insertion -/

/-- What `insert` has to arrange before it stores: the markers `first` and `last` enclose the
stored keys and `k`, and the storage is long enough for them. -/
theorem Represents.covers_insert (h : Represents b m) (hk : k < 65536) (h0 : b.size ≠ 0) (p : α)
    {b' : PacketBuffer α} (hlast : b'.last < 65536)
    (hfits : seqDist b'.first b'.last ≤ b'.capacity)
    (hends : (b'.first = k ∧ b'.last = b.last ∧
        seqDist k b.last = seqDist k b.first + seqDist b.first b.last) ∨
      (b'.first = b.first ∧ b'.last = b.last ∧ seqDist b.first k < seqDist b.first b.last) ∨
      (b'.first = b.first ∧ b'.last = (k + 1) % 65536 ∧
        seqDist b.first b'.last = seqDist b.first k + 1 ∧
        seqDist b.first b.last ≤ seqDist b.first k)) :
    Covers b' (Function.update m k (some p)) := by
  have hc := h.covers h0
  have hf := hc.first_lt
  have hl := hc.last_lt
  have hpos := hc.span_pos
  have hmono : ∀ i, m i ≠ none → Function.update m k (some p) i ≠ none := by
    intro i hi
    by_cases hik : i = k
    · rw [hik, Function.update_self]
      simp
    · rwa [Function.update_of_ne hik]
  have hkey : ∀ i, Function.update m k (some p) i ≠ none →
      i = k ∨ i < 65536 ∧ seqDist b.first i < seqDist b.first b.last := by
    intro i hi
    by_cases hik : i = k
    · exact .inl hik
    · rw [Function.update_of_ne hik] at hi
      exact .inr ⟨h.stores.key_lt i hi, hc.within i hi⟩
  obtain ⟨e1, e2, e3⟩ | ⟨e1, e2, e3⟩ | ⟨e1, e2, e3, e4⟩ := hends
  · refine ⟨e1 ▸ hk, hlast, fun i hi => ?_, ?_, e2 ▸ hmono _ hc.tail, hfits⟩
    · rw [e1, e2]
      obtain rfl | ⟨hi', hd⟩ := hkey i hi
      · simp only [seqDist, RingStore.dist] at *
        omega
      · simp only [seqDist, RingStore.dist] at *
        omega
    · rw [e1, Function.update_self]
      simp
  · refine ⟨e1 ▸ hf, hlast, fun i hi => ?_, e1 ▸ hmono _ hc.head, e2 ▸ hmono _ hc.tail, hfits⟩
    rw [e1, e2]
    obtain rfl | ⟨-, hd⟩ := hkey i hi
    · exact e3
    · exact hd
  · refine ⟨e1 ▸ hf, hlast, fun i hi => ?_, e1 ▸ hmono _ hc.head, ?_, hfits⟩
    · rw [e1]
      obtain rfl | ⟨-, hd⟩ := hkey i hi
      · exact e3.symm ▸ Nat.lt_succ_self _
      · exact lt_of_lt_of_le hd (by omega)
    · have hpred : (b'.last + 65535) % 65536 = k := by omega
      rw [hpred, Function.update_self]
      simp

/-- What growing leaves: the markers of `b`, with `first` moved down to a number below it, and a
storage that reaches from the new `first` past `k`. -/
structure Grown (b b' : PacketBuffer α) (m : ℕ → Option α) (k : ℕ) : Prop where
  allocated : Allocated b'
  stores : Stores 65536 b'.storage m
  size : b'.size = b.size
  last : b'.last = b.last
  reach : (b'.first = k ∧ 32768 < seqDist b.first k ∧
      seqDist k b.first + seqDist b.first b.last ≤ b'.capacity) ∨
    (b'.first = b.first ∧ seqDist b.first k < 16384 ∧ seqDist b.first k < b'.capacity ∧
      b.capacity ≤ b'.capacity)

/-- A number below `first` is, with all stored ones, less than `0x4000` long. -/
theorem Covers.below (hc : Covers b m) (hk : k < 65536) (hw : Windowed m k)
    (hfar : 32768 < seqDist b.first k) (hcap : b.capacity ≤ 16384) :
    seqDist k b.first + seqDist b.first b.last ≤ 16384 ∧
      seqDist k b.last = seqDist k b.first + seqDist b.first b.last := by
  have hf := hc.first_lt
  have hl := hc.last_lt
  have hpos := hc.span_pos
  have hfits := hc.fits
  have hlt : (b.last + 65535) % 65536 < 65536 := Nat.mod_lt _ (by decide)
  have hj : seqDist b.first ((b.last + 65535) % 65536) < 16384 := by
    simp only [seqDist, RingStore.dist] at *
    omega
  have := hw.from_first hk hf hlt hc.head hc.tail hj
  simp only [seqDist, RingStore.dist] at *
  omega

theorem Covers.growFor (hc : Covers b m) (ha : Allocated b) (hs : Stores 65536 b.storage m)
    (hk : k < 65536) (hw : Windowed m k) (hsafe : InsertSafe b k) (h0 : b.size ≠ 0) :
    Grown b (b.growFor k) m k := by
  have hf := hc.first_lt
  have hl := hc.last_lt
  have hcap := ha.bounds
  have hpos := hc.span_pos
  have hfits := hc.fits
  have hadd : add32 b.first b.capacity = b.first + b.capacity := Nat.mod_eq_of_lt (by omega)
  rw [PacketBuffer.growFor]
  split
  next hless =>
    rw [compareLessWrap_iff hk hf] at hless
    obtain ⟨hsum, -⟩ := hc.below hk hw hless hcap.2
    simp only [hc.freeSpace ha hs, sub32_and hk hf]
    split
    next hfree =>
      have hn : sub32 (add32 (seqDist k b.first) b.capacity)
          (b.capacity - seqDist b.first b.last) =
          seqDist k b.first + seqDist b.first b.last := by
        simp only [add32, sub32]
        omega
      rw [hn]
      obtain ⟨ha', hs', hle, -⟩ := ha.reserve hs hf hc.window hsum
      exact ⟨⟨ha'.length, ha'.power⟩, hs', rfl, rfl, .inl ⟨rfl, hless, hle⟩⟩
    next hfree =>
      exact ⟨⟨ha.length, ha.power⟩, hs, rfl, rfl, .inl ⟨rfl, hless, by dsimp only; omega⟩⟩
  next hless =>
    rw [compareLessWrap_iff hk hf] at hless
    have hnear : seqDist b.first k < 16384 := by
      have := hw.near hk hf hc.head
      simp only [seqDist, RingStore.dist] at *
      omega
    -- growing to exactly the distance to `k`
    have hgrow : ∀ n, n = seqDist b.first k + 1 → Grown b (b.reserve n) m k := by
      intro n hn
      obtain ⟨ha', hs', hle, hle'⟩ := ha.reserve hs hf hc.window (n := n) (by omega)
      exact ⟨ha', hs', rfl, rfl, .inr ⟨rfl, hnear, by omega, hle'⟩⟩
    have hstay : seqDist b.first k < b.capacity → Grown b b m k := fun hd =>
      ⟨ha, hs, rfl, rfl, .inr ⟨rfl, hnear, hd, le_rfl⟩⟩
    rw [hadd]
    split
    next hge =>
      apply hgrow
      simp only [add32, sub32, seqDist, RingStore.dist]
      omega
    next hlt =>
      split
      next hkf =>
        have hwrap := hsafe h0 hkf (by omega)
        have hand : (b.first + b.capacity) &&& 0xffff = b.first + b.capacity - 65536 := by
          rw [and_ffff]
          omega
        simp only [hand]
        split
        next hge =>
          apply hgrow
          simp only [add32, sub32, seqDist, RingStore.dist]
          omega
        next hge =>
          apply hstay
          simp only [seqDist, RingStore.dist]
          omega
      next hkf =>
        apply hstay
        simp only [seqDist, RingStore.dist]
        omega

@[simp] theorem moveLast_storage (b : PacketBuffer α) (k : ℕ) :
    (b.moveLast k).storage = b.storage := by
  rw [moveLast]
  split <;> rfl

@[simp] theorem moveLast_capacity (b : PacketBuffer α) (k : ℕ) :
    (b.moveLast k).capacity = b.capacity := by
  rw [moveLast]
  split <;> rfl

@[simp] theorem moveLast_size (b : PacketBuffer α) (k : ℕ) : (b.moveLast k).size = b.size := by
  rw [moveLast]
  split <;> rfl

@[simp] theorem moveLast_first (b : PacketBuffer α) (k : ℕ) :
    (b.moveLast k).first = b.first := by
  rw [moveLast]
  split <;> rfl

theorem moveLast_last (b : PacketBuffer α) (k : ℕ) (hl : b.last < 65536) :
    (b.moveLast k).last =
      if 32768 < seqDist ((k + 1) % 65536) b.last then (k + 1) % 65536 else b.last := by
  rw [moveLast, and_ffff]
  have hlt : (k + 1) % 65536 < 65536 := Nat.mod_lt _ (by decide)
  by_cases h : 32768 < seqDist ((k + 1) % 65536) b.last
  · rw [if_pos ((compareLessWrap_iff hl hlt).mpr h), if_pos h]
  · rw [if_neg (fun hc => h ((compareLessWrap_iff hl hlt).mp hc)), if_neg h]

/-- After `m_last` has moved the markers enclose `k` as well. -/
theorem Grown.moveLast {b' : PacketBuffer α} (h : Grown b b' m k) (hb : Represents b m)
    (h0 : b.size ≠ 0) (hk : k < 65536) (hw : Windowed m k) (hcap : b.capacity ≤ 16384) (p : α) :
    Room (b'.moveLast k) m k ∧ Covers (b'.moveLast k) (Function.update m k (some p)) := by
  have hc := hb.covers h0
  have hf := hc.first_lt
  have hl := hc.last_lt
  have hpos := hc.span_pos
  have hfits := hc.fits
  have ha : Allocated (b'.moveLast k) :=
    ⟨by rw [moveLast_storage, moveLast_capacity, h.allocated.length],
      by rw [moveLast_capacity]; exact h.allocated.power⟩
  have hs : Stores 65536 (b'.moveLast k).storage m := by
    rw [moveLast_storage]
    exact h.stores
  have hlast := moveLast_last b' k (h.last.symm ▸ hl)
  rw [h.last] at hlast
  obtain ⟨e, hfar, hlen⟩ | ⟨e, hnear, hin, hle⟩ := h.reach
  · obtain ⟨hsum, hadd⟩ := hc.below hk hw hfar hcap
    have hstay : ¬ 32768 < seqDist ((k + 1) % 65536) b.last := by
      simp only [seqDist, RingStore.dist] at *
      omega
    rw [if_neg hstay] at hlast
    refine ⟨⟨ha, hs, k, hk, fun i hi => ?_, ?_⟩, ?_⟩
    · have hi' := hb.stores.key_lt i hi
      have hd : seqDist b.first i < seqDist b.first b.last := hc.within i hi
      rw [moveLast_capacity]
      simp only [seqDist, RingStore.dist] at *
      omega
    · rw [moveLast_capacity]
      simp only [seqDist, RingStore.dist] at *
      omega
    · refine hb.covers_insert hk h0 p (hlast ▸ hl) ?_ (.inl ⟨?_, hlast, hadd⟩)
      · rw [moveLast_first, moveLast_capacity, hlast, e, hadd]
        exact hlen
      · rw [moveLast_first, e]
  · have hroom : Room (b'.moveLast k) m k := by
      refine ⟨ha, hs, b.first, hf, ?_, ?_⟩
      · rw [moveLast_capacity]
        exact hc.window.mono hle
      · rw [moveLast_capacity]
        exact hin
    refine ⟨hroom, ?_⟩
    have hfirst : (b'.moveLast k).first = b.first := by rw [moveLast_first, e]
    rcases Nat.lt_or_ge (seqDist b.first k) (seqDist b.first b.last) with hlt | hge
    · have hstay : ¬ 32768 < seqDist ((k + 1) % 65536) b.last := by
        simp only [seqDist, RingStore.dist] at *
        omega
      rw [if_neg hstay] at hlast
      refine hb.covers_insert hk h0 p (hlast ▸ hl) ?_ (.inr (.inl ⟨hfirst, hlast, hlt⟩))
      rw [hfirst, moveLast_capacity, hlast]
      omega
    · have hmove : 32768 < seqDist ((k + 1) % 65536) b.last := by
        simp only [seqDist, RingStore.dist] at *
        omega
      rw [if_pos hmove] at hlast
      have hspan : seqDist b.first ((k + 1) % 65536) = seqDist b.first k + 1 := by
        simp only [seqDist, RingStore.dist] at *
        omega
      refine hb.covers_insert hk h0 p (by omega) ?_
        (.inr (.inr ⟨hfirst, hlast, hlast ▸ hspan, hge⟩))
      rw [hfirst, moveLast_capacity, hlast, hspan]
      exact hin

/-- `insert` stores `p` under `k` and returns the packet that was there. -/
theorem Represents.insert (h : Represents b m) (hk : k < 65536) (hw : Windowed m k)
    (hsafe : InsertSafe b k) (p : α) :
    (b.insert k (some p)).2 = m k ∧
      Represents (b.insert k (some p)).1 (Function.update m k (some p)) := by
  by_cases h0 : b.size = 0
  · -- the first packet: both markers are placed at `k`
    have hnone := stored_eq_zero (h.size ▸ h0) h.stores.key_lt
    have hin : ∀ i, Function.update m k (some p) i ≠ none → i = k := by
      intro i hi
      by_contra hik
      rw [Function.update_of_ne hik] at hi
      exact hi (hnone i)
    have hself : Function.update m k (some p) k ≠ none := by simp
    have finish : ∀ b' : PacketBuffer α, Allocated b' → Stores 65536 b'.storage m → b'.size = 0 →
        b'.first = k → b'.last = (k + 1) &&& 0xffff →
        (b'.slot k) = m k ∧
          Represents (b'.storeSlot k p) (Function.update m k (some p)) := by
      intro b' ha hs hsize hfirst hlast
      rw [and_ffff] at hlast
      have hcap := ha.bounds
      have hspan : seqDist k ((k + 1) % 65536) = 1 := by
        simp only [seqDist, RingStore.dist]
        omega
      have hzero : seqDist k k = 0 := by
        simp only [seqDist, RingStore.dist]
        omega
      have hroom : Room b' m k :=
        ⟨ha, hs, k, hk, fun i hi => absurd (hnone i) hi, by omega⟩
      refine ⟨hroom.slot_eq hk, hroom.storeSlot hk p ?_ ?_ fun _ => hfirst⟩
      · rw [hsize, ← h0, h.size]
      · have hpred : ((k + 1) % 65536 + 65535) % 65536 = k := by omega
        refine ⟨hfirst ▸ hk, by omega, fun i hi => ?_, hfirst ▸ hself, ?_, ?_⟩
        · rw [hin i hi, hfirst, hlast, hspan]
          exact lt_of_eq_of_lt hzero Nat.one_pos
        · rw [hlast, hpred]
          exact hself
        · rw [hfirst, hlast, hspan]
          omega
    obtain ⟨b₀, hb₀⟩ : ∃ b₀ : PacketBuffer α,
        b₀ = { b with first := k, last := (k + 1) &&& 0xffff } := ⟨_, rfl⟩
    have hins : b.insert k (some p) =
        if b₀.capacity = 0 then ((b₀.reserve 16).storeSlot k p, (b₀.reserve 16).slot k)
        else (b₀.storeSlot k p, b₀.slot k) := by
      simp only [PacketBuffer.insert, h0, ne_eq, not_true_eq_false, if_false, hb₀]
      split <;> rfl
    have hsize : b₀.size = 0 := by rw [hb₀, ← h0]
    have hfirst : b₀.first = k := by rw [hb₀]
    have hlast : b₀.last = (k + 1) &&& 0xffff := by rw [hb₀]
    rw [hins]
    rcases h.shape with ⟨hz, -⟩ | ha
    · have hz' : b₀.capacity = 0 := by rw [hb₀, ← hz]
      rw [if_pos hz']
      obtain ⟨ha, hst⟩ := allocated_reserve_sixteen hz'
      have hs : Stores 65536 (b₀.reserve 16).storage m := by
        rw [hst]
        refine ⟨h.stores.key_lt, fun i q hq => ?_, fun i q hq => ?_⟩
        · rw [hnone] at hq
          exact absurd hq (by simp)
        · rw [get_replicate] at hq
          exact absurd hq (by simp)
      exact finish _ ha hs hsize hfirst hlast
    · have ha' : Allocated b₀ := by
        rw [hb₀]
        exact ⟨ha.length, ha.power⟩
      have hs : Stores 65536 b₀.storage m := by
        rw [hb₀]
        exact h.stores
      have hcap := ha'.bounds
      rw [if_neg (by omega)]
      exact finish _ ha' hs hsize hfirst hlast
  · have hc := h.covers h0
    have ha := h.allocated_of_covers hc
    have hgrown := hc.growFor ha h.stores hk hw hsafe h0
    obtain ⟨hroom, hcov⟩ := hgrown.moveLast h h0 hk hw ha.bounds.2 p
    have hcap := hroom.allocated.bounds
    have hsize : ((b.growFor k).moveLast k).size = b.size := by rw [moveLast_size, hgrown.size]
    simp only [PacketBuffer.insert, ne_eq, h0, not_false_eq_true, if_true]
    rw [if_neg (by omega)]
    refine ⟨hroom.slot_eq hk, hroom.storeSlot hk p (hsize.trans h.size) hcov fun hz => ?_⟩
    exact absurd (hsize.symm.trans hz) h0

/-! ### Removal -/

/-- The loop that looks upwards for the next occupied slot stops at the first one. -/
theorem scanFirst_eq {f t₀ : ℕ} (hf : f < 65536) (hc : t₀ ≤ 16384)
    (hsome : (b.slot (f + t₀)).isSome) {n t : ℕ} (hle : t ≤ t₀) (hn : t₀ < t + n)
    (hnone : ∀ u, t ≤ u → u < t₀ → b.slot (f + u) = none) :
    b.scanFirst n (f + t) = f + t₀ := by
  induction n generalizing t with
  | zero => omega
  | succ n ih =>
    rw [scanFirst]
    rcases Nat.eq_or_lt_of_le hle with rfl | hlt
    · rw [if_pos hsome]
    · have hadd : add32 (f + t) 1 = f + (t + 1) := Nat.mod_eq_of_lt (by omega)
      rw [hnone t le_rfl hlt, if_neg (by simp), hadd]
      exact ih (by omega) (by omega) fun u hu hu' => hnone u (by omega) hu'

/-- The loop that looks downwards for the next occupied slot stops at the first one. -/
theorem scanLast_eq {l t₀ : ℕ} (hc : t₀ ≤ 16384)
    (hsome : (b.slot ((l + 2 ^ 32 - t₀) % 2 ^ 32)).isSome) {n t : ℕ} (hle : t ≤ t₀)
    (hn : t₀ < t + n)
    (hnone : ∀ u, t ≤ u → u < t₀ → b.slot ((l + 2 ^ 32 - u) % 2 ^ 32) = none) :
    b.scanLast n ((l + 2 ^ 32 - t) % 2 ^ 32) = (l + 2 ^ 32 - t₀) % 2 ^ 32 := by
  induction n generalizing t with
  | zero => omega
  | succ n ih =>
    rw [scanLast]
    rcases Nat.eq_or_lt_of_le hle with rfl | hlt
    · rw [if_pos hsome]
    · have hsub : sub32 ((l + 2 ^ 32 - t) % 2 ^ 32) 1 = (l + 2 ^ 32 - (t + 1)) % 2 ^ 32 := by
        simp only [sub32]
        omega
      rw [hnone t le_rfl hlt, if_neg (by simp), hsub]
      exact ih (by omega) (by omega) fun u hu hu' => hnone u (by omega) hu'

/-- The stored packets lie between the end markers, which need not be stored themselves. -/
structure Enclosed (b : PacketBuffer α) (m : ℕ → Option α) : Prop where
  allocated : Allocated b
  stores : Stores 65536 b.storage m
  first_lt : b.first < 65536
  last_lt : b.last < 65536
  within : Within 65536 b.first (seqDist b.first b.last) m
  fits : seqDist b.first b.last ≤ b.capacity

theorem Enclosed.offset (h : Enclosed b m) {i : ℕ} (hi : m i ≠ none) :
    ∃ o < seqDist b.first b.last, i = (b.first + o) % 65536 :=
  ⟨seqDist b.first i, h.within i hi, (add_dist h.first_lt (h.stores.key_lt i hi)).symm⟩

theorem Enclosed.slot_offset (h : Enclosed b m) {i o : ℕ} (ho : o < seqDist b.first b.last)
    (hi : i % b.capacity = (b.first + o) % b.capacity) :
    b.slot i = m ((b.first + o) % 65536) :=
  h.allocated.slot_offset h.stores h.first_lt (h.within.mono h.fits) (ho.trans_le h.fits) hi

/-- When `first` was removed, it moves up to the next stored packet. -/
theorem Enclosed.dropFirst (h : Enclosed b m) (h0 : b.size ≠ 0) (hne : ∃ i, m i ≠ none)
    (hk : k = b.first ↔ m b.first = none) :
    Enclosed (b.dropFirst k) m ∧ m (b.dropFirst k).first ≠ none ∧
      (b.dropFirst k).last = b.last ∧ (b.dropFirst k).size = b.size := by
  have hf := h.first_lt
  have hl := h.last_lt
  have hfits := h.fits
  have hcap := h.allocated.bounds
  rw [PacketBuffer.dropFirst]
  split
  next hcond =>
    -- the least offset that holds a packet
    have hex : ∃ t, m ((b.first + t) % 65536) ≠ none := by
      obtain ⟨i, hi⟩ := hne
      obtain ⟨o, -, rfl⟩ := h.offset hi
      exact ⟨o, hi⟩
    classical
    have hspec := Nat.find_spec hex
    have hmin := fun u => Nat.find_min (m := u) hex
    generalize Nat.find hex = t₀ at hspec hmin
    have hlt : t₀ < seqDist b.first b.last := by
      obtain ⟨o, ho, he⟩ := h.offset hspec
      have : ¬ o < t₀ := fun hc => hmin o hc (he ▸ hspec)
      omega
    have hpos : 1 ≤ t₀ := by
      rcases Nat.eq_zero_or_pos t₀ with rfl | hp
      · rw [Nat.add_zero, Nat.mod_eq_of_lt hf] at hspec
        exact absurd (hk.mp hcond.1) hspec
      · exact hp
    have hscan : b.scanFirst b.capacity (b.first + 1) = b.first + t₀ := by
      refine scanFirst_eq hf (by omega) ?_ hpos (by omega) fun u hu hu' => ?_
      · rw [h.slot_offset hlt rfl]
        exact Option.isSome_iff_ne_none.mpr hspec
      · rw [h.slot_offset (hu'.trans hlt) rfl]
        exact not_ne_iff.mp (hmin u hu')
    have hadd : add32 b.first 1 = b.first + 1 := Nat.mod_eq_of_lt (by omega)
    rw [hadd, hscan, and_ffff]
    refine ⟨⟨⟨h.allocated.length, h.allocated.power⟩, h.stores, Nat.mod_lt _ (by decide), hl,
      fun i hi => ?_, ?_⟩, hspec, rfl, rfl⟩
    · have hi' := h.stores.key_lt i hi
      obtain ⟨o, ho, he⟩ := h.offset hi
      have hle : ¬ o < t₀ := fun hc => hmin o hc (he ▸ hi)
      simp only [seqDist, RingStore.dist] at *
      omega
    · simp only [seqDist, RingStore.dist] at *
      omega
  next hcond =>
    refine ⟨h, fun hc => hcond ⟨hk.mpr hc, h0⟩, rfl, rfl⟩

/-- The slot `t` below `last`, through the wrap of the 32-bit index. -/
theorem Enclosed.slot_below (h : Enclosed b m) {t : ℕ} (h1 : 1 ≤ t)
    (ht : t ≤ seqDist b.first b.last) :
    b.slot ((b.last + 2 ^ 32 - t) % 2 ^ 32) = m ((b.last + 65536 - t) % 65536) := by
  have hf := h.first_lt
  have hl := h.last_lt
  obtain ⟨j, -, h14, hj⟩ := h.allocated.power
  have hdvd : b.capacity ∣ 2 ^ 32 := hj ▸ pow_dvd_pow 2 (by omega : j ≤ 32)
  obtain ⟨q, hq⟩ : ∃ q, b.last + 2 ^ 32 - t =
      b.first + (seqDist b.first b.last - t) + 65536 * q := by
    simp only [seqDist, RingStore.dist] at *
    rcases Nat.lt_or_ge b.last b.first with hlt | hge
    · exact ⟨65535, by omega⟩
    · exact ⟨65536, by omega⟩
  have hidx : (b.last + 2 ^ 32 - t) % 2 ^ 32 % b.capacity =
      (b.first + (seqDist b.first b.last - t)) % b.capacity := by
    rw [Nat.mod_mod_of_dvd _ hdvd, hq, Nat.add_mod,
      Nat.mod_eq_zero_of_dvd (h.allocated.dvd.mul_right q), Nat.add_zero, Nat.mod_mod]
  have hkey : (b.first + (seqDist b.first b.last - t)) % 65536 =
      (b.last + 65536 - t) % 65536 := by
    simp only [seqDist, RingStore.dist] at *
    omega
  rw [h.slot_offset (by omega) hidx, hkey]

/-- When the last packet was removed, `last` moves down behind the one before it. -/
theorem Enclosed.dropLast (h : Enclosed b m) (h0 : b.size ≠ 0) (hhead : m b.first ≠ none)
    (hk : (k + 1) % 65536 = b.last ↔ m ((b.last + 65535) % 65536) = none) :
    Allocated (b.dropLast k) ∧ Stores 65536 (b.dropLast k).storage m ∧
      Covers (b.dropLast k) m ∧ (b.dropLast k).size = b.size := by
  have hf := h.first_lt
  have hl := h.last_lt
  have hfits := h.fits
  have hcap := h.allocated.bounds
  have hpos : 0 < seqDist b.first b.last := Nat.zero_lt_of_lt (h.within _ hhead)
  rw [PacketBuffer.dropLast, and_ffff]
  split
  next hcond =>
    -- the least distance below `last` at which there is a packet
    have hspan : m ((b.last + 65536 - seqDist b.first b.last) % 65536) ≠ none := by
      have he : (b.last + 65536 - seqDist b.first b.last) % 65536 = b.first := by
        simp only [seqDist, RingStore.dist]
        omega
      rw [he]
      exact hhead
    have hex : ∃ t, 1 ≤ t ∧ m ((b.last + 65536 - t) % 65536) ≠ none := ⟨_, hpos, hspan⟩
    classical
    have hle := Nat.find_le (n := seqDist b.first b.last) (h := hex) ⟨hpos, hspan⟩
    obtain ⟨h1, hspec⟩ := Nat.find_spec hex
    have hmin := fun u => Nat.find_min (m := u) hex
    generalize Nat.find hex = t₀ at hspec hmin h1 hle
    have hnone : ∀ u, 1 ≤ u → u < t₀ → m ((b.last + 65536 - u) % 65536) = none := by
      intro u hu hu'
      exact not_ne_iff.mp fun hc => hmin u hu' ⟨hu, hc⟩
    have hsub : sub32 b.last 1 = (b.last + 2 ^ 32 - 1) % 2 ^ 32 := rfl
    have hscan : b.scanLast b.capacity ((b.last + 2 ^ 32 - 1) % 2 ^ 32) =
        (b.last + 2 ^ 32 - t₀) % 2 ^ 32 := by
      refine scanLast_eq (by omega) ?_ h1 (by omega) fun u hu hu' => ?_
      · rw [h.slot_below h1 hle]
        exact Option.isSome_iff_ne_none.mpr hspec
      · rw [h.slot_below hu (by omega), hnone u hu hu']
    have hlast : add32 ((b.last + 2 ^ 32 - t₀) % 2 ^ 32) 1 % 65536 =
        (b.last + 65536 - (t₀ - 1)) % 65536 := by
      simp only [add32]
      omega
    rw [hsub, hscan, and_ffff, hlast]
    have hpred : ((b.last + 65536 - (t₀ - 1)) % 65536 + 65535) % 65536 =
        (b.last + 65536 - t₀) % 65536 := by omega
    have hspan' : seqDist b.first ((b.last + 65536 - (t₀ - 1)) % 65536) =
        seqDist b.first b.last - (t₀ - 1) := by
      simp only [seqDist, RingStore.dist] at *
      omega
    refine ⟨⟨h.allocated.length, h.allocated.power⟩, h.stores,
      ⟨hf, Nat.mod_lt _ (by decide), fun i hi => ?_, hhead, ?_, ?_⟩, rfl⟩
    · -- a packet at or past the new `last` would have stopped the loop
      have hi' : seqDist b.first i < seqDist b.first b.last := h.within i hi
      have hiN := h.stores.key_lt i hi
      dsimp only
      rw [hspan']
      by_contra hc
      have hu := hnone (seqDist b.first b.last - seqDist b.first i) (by omega) (by
        simp only [seqDist] at *
        omega)
      have hii : (b.last + 65536 - (seqDist b.first b.last - seqDist b.first i)) % 65536 = i := by
        simp only [seqDist, RingStore.dist] at *
        omega
      rw [hii] at hu
      exact hi hu
    · dsimp only
      rw [hpred]
      exact hspec
    · dsimp only
      rw [hspan']
      omega
  next hcond =>
    refine ⟨h.allocated, h.stores, ⟨hf, hl, h.within, hhead, fun hc => hcond ⟨hk.mpr hc, h0⟩,
      hfits⟩, rfl⟩

theorem clearSlot_none (ha : Allocated b) (h : b.slot k = none) : b.clearSlot k = b := by
  have hget : b.storage[b.slotIndex k]?.join = none := h
  have hlt : b.slotIndex k < b.storage.length := by
    rw [ha.slotIndex_eq, ha.length]
    exact Nat.mod_lt _ (by have := ha.bounds; omega)
  have hset : b.storage.set (b.slotIndex k) none = b.storage := by
    rw [List.getElem?_eq_getElem hlt, Option.join_some] at hget
    rw [← hget, List.set_getElem_self]
  simp only [clearSlot, h, hset, Option.isSome_none, Bool.false_eq_true, if_false]

/-- Emptying the slot of a stored packet, when others remain. -/
theorem Represents.clearSlot (h : Represents b m) (hm : m k ≠ none) (h1 : b.size - 1 ≠ 0) :
    Enclosed (b.clearSlot k) (Function.update m k none) ∧
      (b.clearSlot k).size = stored (Function.update m k none) ∧
      (b.clearSlot k).size ≠ 0 ∧ (b.clearSlot k).first = b.first ∧
      (b.clearSlot k).last = b.last := by
  have hc := h.covers (h.size_ne_zero hm)
  have hk := h.stores.key_lt k hm
  have ha : Allocated b := h.allocated_of_covers hc
  have hroom : Room b m k := ⟨ha, h.stores, b.first, hc.first_lt, hc.window, hc.window k hm⟩
  have hsome : (b.slot k).isSome := by
    rw [hroom.slot_eq hk]
    exact Option.isSome_iff_ne_none.mpr hm
  have heq : b.clearSlot k =
      { b with storage := b.storage.set (b.slotIndex k) none, size := b.size - 1 } := by
    simp only [PacketBuffer.clearSlot, hsome, if_true, h1, if_false]
  rw [heq]
  refine ⟨⟨⟨by rw [List.length_set, ha.length], ha.power⟩, hroom.set hk none, hc.first_lt,
    hc.last_lt, fun i hi => ?_, hc.fits⟩, ?_, h1, rfl, rfl⟩
  · by_cases hik : i = k
    · rw [hik, Function.update_self] at hi
      exact absurd rfl hi
    · rw [Function.update_of_ne hik] at hi
      exact hc.within i hi
  · rw [stored_remove hm hk, h.size]

/-- Removing the only packet empties the buffer. -/
theorem Represents.clearSlot_last (h : Represents b m) (hm : m k ≠ none) (h1 : b.size - 1 = 0) :
    Represents (b.clearSlot k) (Function.update m k none) ∧ (b.clearSlot k).size = 0 := by
  have hc := h.covers (h.size_ne_zero hm)
  have hk := h.stores.key_lt k hm
  have ha : Allocated b := h.allocated_of_covers hc
  have hroom : Room b m k := ⟨ha, h.stores, b.first, hc.first_lt, hc.window, hc.window k hm⟩
  have hsome : (b.slot k).isSome := by
    rw [hroom.slot_eq hk]
    exact Option.isSome_iff_ne_none.mpr hm
  have heq : b.clearSlot k =
      { b with
        storage := b.storage.set (b.slotIndex k) none, size := b.size - 1, last := b.first } := by
    simp only [PacketBuffer.clearSlot, hsome, if_true, h1]
  rw [heq]
  refine ⟨⟨.inr ⟨by rw [List.length_set, ha.length], ha.power⟩, hroom.set hk none, ?_,
    hc.first_lt, fun hne => absurd h1 hne⟩, h1⟩
  rw [stored_remove hm hk, h.size]

theorem dropFirst_of_empty (h : b.size = 0) : b.dropFirst k = b := by
  rw [dropFirst, if_neg (by simp [h])]

theorem dropLast_of_empty (h : b.size = 0) : b.dropLast k = b := by
  rw [dropLast, if_neg (by simp [h])]

/-- `remove` returns and deletes the packet stored under `k`. -/
theorem Represents.remove (h : Represents b m) (hk : k < 65536) (hw : Windowed m k)
    (hsafe : LookupSafe b k) :
    (b.remove k).2 = m k ∧ Represents (b.remove k).1 (Function.update m k none) := by
  have hsame : m k = none → Represents b (Function.update m k none) := by
    intro hm
    rwa [← hm, Function.update_eq_self]
  rw [PacketBuffer.remove]
  split
  next h1 =>
    have hm := h.guarded hk (.inl h1)
    exact ⟨hm.symm, hsame hm⟩
  next h1 =>
  split
  next h2 =>
    have hm := h.guarded hk (.inr h2)
    exact ⟨hm.symm, hsame hm⟩
  next h2 =>
  have ha := h.allocated (not_le.mp h1)
  have hslot := h.lookup hk hw hsafe h1 h2
  refine ⟨hslot, ?_⟩
  by_cases hm : m k = none
  · -- nothing was stored there: no marker is at `k` either
    have hclear := clearSlot_none ha (hslot.trans hm)
    dsimp only
    rw [hclear]
    by_cases h0 : b.size = 0
    · rw [dropFirst_of_empty h0, dropLast_of_empty h0]
      exact hsame hm
    · have hc := h.covers h0
      have hfirst : b.dropFirst k = b := by
        rw [PacketBuffer.dropFirst, if_neg]
        rintro ⟨rfl, -⟩
        exact hc.head hm
      have hlast : b.dropLast k = b := by
        rw [PacketBuffer.dropLast, if_neg]
        rintro ⟨hl, -⟩
        rw [and_ffff] at hl
        have hpred : (b.last + 65535) % 65536 = k := by omega
        exact hc.tail (hpred ▸ hm)
      rw [hfirst, hlast]
      exact hsame hm
  · by_cases h1' : b.size - 1 = 0
    · obtain ⟨hrep, hzero⟩ := h.clearSlot_last hm h1'
      dsimp only
      rw [dropFirst_of_empty hzero, dropLast_of_empty hzero]
      exact hrep
    · have hc := h.covers (h.size_ne_zero hm)
      obtain ⟨henc, hsize, hne, hfirst, hlast⟩ := h.clearSlot hm h1'
      -- some packet is left
      have hleft : ∃ i, Function.update m k none i ≠ none := by
        by_contra hno
        push Not at hno
        rw [hsize] at hne
        exact hne (by simp [stored, hno])
      have hupd : ∀ i, m i ≠ none → (k = i ↔ Function.update m k none i = none) := by
        intro i hi
        refine ⟨fun hki => by rw [hki, Function.update_self], fun hn => ?_⟩
        by_contra hki
        rw [Function.update_of_ne (Ne.symm hki)] at hn
        exact hi hn
      have hk1 : k = (b.clearSlot k).first ↔
          Function.update m k none (b.clearSlot k).first = none := by
        rw [hfirst]
        exact hupd _ hc.head
      obtain ⟨henc2, hhead2, hlast2, hsize2⟩ := henc.dropFirst hne hleft hk1
      have hl := hc.last_lt
      have hk2 : (k + 1) % 65536 = ((b.clearSlot k).dropFirst k).last ↔
          Function.update m k none
            ((((b.clearSlot k).dropFirst k).last + 65535) % 65536) = none := by
        rw [hlast2, hlast, ← hupd _ hc.tail]
        omega
      obtain ⟨ha3, hs3, hc3, hsize3⟩ := henc2.dropLast (hsize2 ▸ hne) hhead2 hk2
      exact ⟨.inr ha3, hs3, hsize3.trans (hsize2.trans hsize), hc3.first_lt, fun _ => hc3⟩

/-! ### Runs -/

/-- A call on the buffer. -/
inductive Op (α : Type*) where
  | insert (k : ℕ) (p : α)
  | remove (k : ℕ)
  | packetAt (k : ℕ)

def Op.key : Op α → ℕ
  | .insert k _ => k
  | .remove k => k
  | .packetAt k => k

/-- A call on the buffer: the buffer after it and the packet returned. -/
def step (b : PacketBuffer α) : Op α → PacketBuffer α × Option α
  | .insert k p => b.insert k (some p)
  | .remove k => b.remove k
  | .packetAt k => (b, b.packetAt k)

/-- The same call on a map. -/
def mapStep (m : ℕ → Option α) : Op α → (ℕ → Option α) × Option α
  | .insert k p => (Function.update m k (some p), m k)
  | .remove k => (Function.update m k none, m k)
  | .packetAt k => (m, m k)

/-- The comparison of the call with `m_first + m_capacity` is not taken across the wrap. -/
def WrapSafe (b : PacketBuffer α) : Op α → Prop
  | .insert k _ => InsertSafe b k
  | .remove k => LookupSafe b k
  | .packetAt k => LookupSafe b k

instance (b : PacketBuffer α) (k : ℕ) : Decidable (InsertSafe b k) :=
  inferInstanceAs (Decidable (_ → _))

instance (b : PacketBuffer α) (k : ℕ) : Decidable (LookupSafe b k) :=
  inferInstanceAs (Decidable (_ → _))

instance (b : PacketBuffer α) (op : Op α) : Decidable (WrapSafe b op) :=
  match op with
  | .insert k _ => inferInstanceAs (Decidable (InsertSafe b k))
  | .remove k => inferInstanceAs (Decidable (LookupSafe b k))
  | .packetAt k => inferInstanceAs (Decidable (LookupSafe b k))

/-- The calls of a run, one after the other: the buffer reached and everything returned. -/
def run (b : PacketBuffer α) : List (Op α) → PacketBuffer α × List (Option α)
  | [] => (b, [])
  | op :: ops => (((b.step op).1.run ops).1, (b.step op).2 :: ((b.step op).1.run ops).2)

/-- The same calls on a map. -/
def mapRun (m : ℕ → Option α) : List (Op α) → (ℕ → Option α) × List (Option α)
  | [] => (m, [])
  | op :: ops =>
    ((mapRun (mapStep m op).1 ops).1, (mapStep m op).2 :: (mapRun (mapStep m op).1 ops).2)

/-- At every moment of the run the keys present and the key of the call are 16-bit numbers in one
window of fewer than `0x4000`. -/
def WindowedRun (m : ℕ → Option α) : List (Op α) → Prop
  | [] => True
  | op :: ops => op.key < 65536 ∧ Windowed m op.key ∧ WindowedRun (mapStep m op).1 ops

/-- Every call of the run is safe at the wrap. -/
def WrapSafeRun (b : PacketBuffer α) : List (Op α) → Prop
  | [] => True
  | op :: ops => WrapSafe b op ∧ WrapSafeRun (b.step op).1 ops

theorem Represents.step (h : Represents b m) {op : Op α} (hk : op.key < 65536)
    (hw : Windowed m op.key) (hsafe : WrapSafe b op) :
    (b.step op).2 = (mapStep m op).2 ∧ Represents (b.step op).1 (mapStep m op).1 := by
  cases op with
  | insert k p => exact h.insert hk hw hsafe p
  | remove k => exact h.remove hk hw hsafe
  | packetAt k => exact ⟨h.packetAt hk hw hsafe, h⟩

theorem Represents.run (h : Represents b m) {ops : List (Op α)} (hw : WindowedRun m ops)
    (hsafe : WrapSafeRun b ops) :
    (b.run ops).2 = (mapRun m ops).2 ∧ Represents (b.run ops).1 (mapRun m ops).1 := by
  induction ops generalizing b m with
  | nil => exact ⟨rfl, h⟩
  | cons op ops ih =>
    obtain ⟨hk, hwin, hrest⟩ := hw
    obtain ⟨hout, hnext⟩ := h.step hk hwin hsafe.1
    obtain ⟨houts, hlast⟩ := ih hnext hrest hsafe.2
    exact ⟨by rw [PacketBuffer.run, mapRun, hout, houts], hlast⟩

theorem represents_empty : Represents ({} : PacketBuffer α) fun _ => none := by
  refine ⟨.inl ⟨rfl, rfl⟩, ⟨fun k hk => absurd rfl hk, fun k p hp => absurd hp (by simp),
    fun i p hp => absurd hp (by simp [RingStore.get])⟩, ?_, Nat.zero_lt_succ _,
    fun h => absurd rfl h⟩
  simp [stored]

/-- Keys that keep to one fixed window are windowed at every moment. -/
theorem windowedRun_of_base (base w : ℕ) (hbase : base < 65536) (hw : w < 0x4000)
    {ops : List (Op α)} (hm : Within 65536 base w m)
    (h : ∀ op ∈ ops, op.key < 65536 ∧ seqDist base op.key < w) : WindowedRun m ops := by
  induction ops generalizing m with
  | nil => trivial
  | cons op ops ih =>
    obtain ⟨hk, hd⟩ := h op List.mem_cons_self
    have hupd : ∀ v, Within 65536 base w (Function.update m op.key v) := by
      intro v i hi
      by_cases hik : i = op.key
      · exact hik ▸ hd
      · rw [Function.update_of_ne hik] at hi
        exact hm i hi
    refine ⟨hk, ⟨base, hbase, w, hw, hm, hd⟩, ih ?_ fun op' h' => h op' (List.mem_cons_of_mem _ h')⟩
    cases op with
    | insert k p => exact hupd (some p)
    | remove k => exact hupd none
    | packetAt k => exact hm

/-- Every run whose keys keep to a window of fewer than `0x4000` numbers at every moment, and whose
calls are safe at the wrap, is a run of the map: each call returns what the map returns, `size` is
the number of packets stored, `cursor` the lowest of them and `cursor + span` one past the
highest. -/
theorem run_refines_map (ops : List (Op α)) (hw : WindowedRun (fun _ => none) ops)
    (hsafe : WrapSafeRun ({} : PacketBuffer α) ops) :
    (run {} ops).2 = (mapRun (fun _ => none) ops).2 ∧
    (run {} ops).1.size = stored (mapRun (fun _ => none) ops).1 ∧
    ((run {} ops).1.size ≠ 0 →
      (mapRun (fun _ => none) ops).1 (run {} ops).1.cursor ≠ none ∧
      (mapRun (fun _ => none) ops).1
        (((run {} ops).1.cursor + (run {} ops).1.span + 65535) % 65536) ≠ none ∧
      ∀ k, (mapRun (fun _ => none) ops).1 k ≠ none →
        seqDist (run {} ops).1.cursor k < (run {} ops).1.span) := by
  obtain ⟨hout, hrep⟩ := represents_empty.run hw hsafe
  refine ⟨hout, hrep.size, fun h0 => ?_⟩
  have hc := hrep.covers h0
  have hf := hc.first_lt
  have hl := hc.last_lt
  have hspan : (run {} ops).1.span = seqDist (run {} ops).1.first (run {} ops).1.last :=
    sub32_and hf hl
  refine ⟨hc.head, ?_, fun k hk => hspan ▸ hc.within k hk⟩
  have he : ((run {} ops).1.cursor + (run {} ops).1.span + 65535) % 65536 =
      ((run {} ops).1.last + 65535) % 65536 := by
    rw [hspan, cursor]
    simp only [seqDist, RingStore.dist]
    omega
  rw [he]
  exact hc.tail

/-- A run through the wrap: two packets, the first one removed, the second one found. -/
theorem run_refines_map_wrap :
    (run {} [.insert 65534 'a', .insert 1 'b', .remove 65534, .packetAt 1]).2 =
      (mapRun (fun _ => none) [.insert 65534 'a', .insert 1 'b', .remove 65534, .packetAt 1]).2 := by
  refine (run_refines_map _ (windowedRun_of_base 65534 10 ?_ ?_ ?_ ?_) ?_).1
  · decide
  · decide
  · exact fun k hk => absurd rfl hk
  · decide
  · refine ⟨?_, ?_, ?_, ?_, trivial⟩ <;> decide

/-- The two comparisons that miss the wrap: `at` finds the packet numbered 65530 under 10, and
`insert` of 8 replaces the packet numbered 65000. -/
theorem run_not_map :
    (WindowedRun (fun _ => none) [.insert 65530 'a', .packetAt 10] ∧
      (run {} [.insert 65530 'a', .packetAt 10]).2 = [none, some 'a'] ∧
      (mapRun (fun _ => none) [.insert 65530 'a', .packetAt 10]).2 = [none, none]) ∧
    (WindowedRun (fun _ => none) [.insert 65000 'a', .insert 8 'b', .packetAt 65000] ∧
      (run {} [.insert 65000 'a', .insert 8 'b', .packetAt 65000]).2 = [none, some 'a', some 'b'] ∧
      (mapRun (fun _ => none) [.insert 65000 'a', .insert 8 'b', .packetAt 65000]).2 =
        [none, none, some 'a']) := by
  refine ⟨⟨windowedRun_of_base 65530 17 ?_ ?_ ?_ ?_, ?_, ?_⟩,
    ⟨windowedRun_of_base 65000 600 ?_ ?_ ?_ ?_, ?_, ?_⟩⟩
  all_goals first
    | decide
    | exact fun k hk => absurd rfl hk

end PacketBuffer

end Utp

end LibtorrentSN
