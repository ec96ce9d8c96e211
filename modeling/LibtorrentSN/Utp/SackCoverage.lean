import LibtorrentSN.Utp.SenderRun
import LibtorrentSN.Utp.PacketRun

/-!
# What a selective ack covers

The bitmask of a new packet starts at `m_ack_nr + 2`, but `send_pkt` makes it as long as the numbers from the lowest
buffered packet to the highest. What is missing in front of the lowest one is then missing at the end of the mask.
-/

namespace LibtorrentSN

namespace Utp

open RingStore Sender

/-- The packets of the receiving half that wait for others to come before them. `m_inbuf` holds them as a map. -/
structure Reordered (α : Type*) where
  ackNr : ℕ
  inbuf : PacketBuffer α
  packets : ℕ → Option α
  ackNr_lt : ackNr < 65536
  represents : inbuf.Represents packets
  /-- the next packet is not among them, and none is farther ahead than `max_packets_reorder` -/
  ahead : ∀ k, packets k ≠ none → 2 ≤ seqDist ackNr k ∧ seqDist ackNr k ≤ Receiver.maxPacketsReorder

namespace Reordered

variable {α : Type*} (r : Reordered α)

/-- What calls on the empty buffer leave, if none of them goes wrong at the wrap. -/
def ofRun (ackNr : ℕ) (ops : List (PacketBuffer.Op α)) (hack : ackNr < 65536)
    (hw : PacketBuffer.WindowedRun (fun _ => none) ops) (hsafe : PacketBuffer.WrapSafeRun {} ops)
    (hahead : ∀ k, (PacketBuffer.mapRun (fun _ => none) ops).1 k ≠ none →
      2 ≤ seqDist ackNr k ∧ seqDist ackNr k ≤ Receiver.maxPacketsReorder) : Reordered α :=
  ⟨ackNr, (PacketBuffer.run {} ops).1, _, hack, (PacketBuffer.represents_empty.run hw hsafe).2, hahead⟩

/-- What the sending half reads of it. -/
def recvSide : RecvSide := ⟨r.ackNr, fun k => (r.inbuf.packetAt k).isSome, 0 < r.inbuf.size⟩

/-- How many numbers a mask has for packets that are missing in front of the lowest one. -/
def gap : ℕ := seqDist ((r.ackNr + 2) % 65536) r.inbuf.cursor

end Reordered

/-- The bits of the SACK header. -/
def OutPacket.sackMask (p : OutPacket) : List Bool :=
  if p.extension = sackExtension then sackBits ((p.body.drop 2).take (p.body.getD 1 0).toNat) else []

/-- The bits that are set in the packet are those of the packets in the buffer. -/
def Reordered.CoveredBy {α : Type*} (r : Reordered α) (p : OutPacket) : Prop :=
  ∀ k < 65536, (∃ i, p.sackMask[i]? = some true ∧ k = (r.ackNr + 2 + i) % 65536) ↔ r.packets k ≠ none

/-- `max_sack_size`. -/
def Sender.maxSackSize (s : Sender) (inp : SendInput) : ℕ :=
  inp.effectiveMtu - 20 - 2 - if s.closeReason ≠ 0 then 6 else 0

/-! ### The mask as it is written -/

theorem toNat_bit {i : ℕ} (hi : i < 8) : ((1 : UInt8) <<< i.toUInt8).toNat = 2 ^ i := by
  interval_cases i <;> rfl

theorem testBit_byte (h : ℕ → Bool) {n : ℕ} (hn : n ≤ 8) (j : ℕ) :
    ((List.range n).foldl (fun byte i => if h i then byte ||| (1 <<< i.toUInt8) else byte) (0 : UInt8)).toNat.testBit j =
      (decide (j < n) && h j) := by
  induction n with
  | zero => simp
  | succ n ih =>
    rw [List.range_succ, List.foldl_append, List.foldl_cons, List.foldl_nil]
    split
    next hbit =>
      rw [UInt8.toNat_or, Nat.testBit_or, ih (by omega), toNat_bit (by omega), Nat.testBit_two_pow]
      grind
    next hbit =>
      rw [ih (by omega)]
      grind

theorem sackBits_byte (h : ℕ → Bool) :
    sackBits [(List.range 8).foldl (fun byte i => if h i then byte ||| (1 <<< i.toUInt8) else byte) 0] =
      (List.range 8).map h := by
  rw [sackBits, List.flatMap_singleton]
  refine List.map_congr_left fun i hi => ?_
  have hlt := List.mem_range.mp hi
  have hbit := testBit_byte h le_rfl i
  rw [bne, Bool.eq_iff_iff, Bool.not_eq_true', beq_eq_false_iff_ne, Ne, ← UInt8.toNat_inj, UInt8.toNat_and,
    toNat_bit hlt, Nat.and_two_pow, hbit, decide_eq_true hlt, Bool.true_and]
  cases h i <;> simp

theorem sackBits_writeSack (rx : RecvSide) (size : ℕ) :
    sackBits (rx.writeSack size) = (List.range (8 * size)).map fun i => rx.holds ((rx.ackNr + 2 + i) % 65536) := by
  induction size with
  | zero => rfl
  | succ size ih =>
    have hsplit : rx.writeSack (size + 1) =
        rx.writeSack size ++ [rx.sackByte ((rx.ackNr + 2 + 8 * size) &&& 0xffff)] := by
      rw [RecvSide.writeSack, List.range_succ, List.map_append]
      rfl
    have happend : ∀ a b, sackBits (a ++ b) = sackBits a ++ sackBits b := fun a b => List.flatMap_append
    rw [hsplit, happend, ih, RecvSide.sackByte, sackBits_byte, Nat.mul_succ, List.range_add, List.map_append,
      List.map_map]
    refine congrArg _ (List.map_congr_left fun i _ => ?_)
    rw [Function.comp_apply, and_ffff, and_ffff]
    congr 1
    omega

/-- The extension header of a new packet is read as it was written. -/
theorem sackMask_newPacket (s : Sender) (rx : RecvSide) (inp : SendInput) (payload : ℕ) (h0 : s.sackSize inp ≠ 0)
    (hle : s.sackSize inp ≤ 255) :
    (s.writeExtensions rx (s.sackSize inp) (s.newPacket inp payload)).sackMask =
      sackBits (rx.writeSack (s.sackSize inp)) := by
  have hlen : (rx.writeSack (s.sackSize inp)).length = s.sackSize inp := by
    rw [RecvSide.writeSack, List.length_map, List.length_range]
  -- the close reason comes behind the mask
  obtain ⟨next, rest, hbody⟩ : ∃ next rest,
      (s.writeExtensions rx (s.sackSize inp) (s.newPacket inp payload)).body =
        next :: (s.sackSize inp).toUInt8 :: (rx.writeSack (s.sackSize inp) ++ rest) := by
    simp only [writeExtensions, if_pos h0, overwrite, List.take_zero, List.nil_append, List.cons_append]
    split_ifs
    · rw [List.take_succ_cons, List.take_succ_cons, List.take_left' hlen, List.cons_append, List.cons_append,
        List.append_assoc]
      exact ⟨_, _, rfl⟩
    · exact ⟨_, _, rfl⟩
  have hext : (s.writeExtensions rx (s.sackSize inp) (s.newPacket inp payload)).extension = sackExtension :=
    if_pos h0
  rw [OutPacket.sackMask, if_pos hext, hbody]
  congr 1
  change (rx.writeSack (s.sackSize inp) ++ rest).take (s.sackSize inp).toUInt8.toNat = _
  rw [show (s.sackSize inp).toUInt8.toNat = s.sackSize inp from Nat.mod_eq_of_lt (by omega), List.take_left' hlen]

/-! ### The numbers it covers -/

namespace Reordered

variable {α : Type*} {r : Reordered α}

theorem span_eq (h : r.inbuf.Covers r.packets) : r.inbuf.span = seqDist r.inbuf.first r.inbuf.last :=
  sub32_and h.first_lt h.last_lt

/-- The number of the first bit. -/
def base (r : Reordered α) : ℕ := (r.ackNr + 2) % 65536

theorem base_lt (r : Reordered α) : r.base < 65536 := Nat.mod_lt _ (by decide)

/-- The packets are among the first numbers that a mask can have. -/
theorem seqDist_base_le {k : ℕ} (h : r.packets k ≠ none) : seqDist r.base k ≤ 951 := by
  have hk := r.represents.stores.key_lt k h
  have hack := r.ackNr_lt
  have hahead : 2 ≤ seqDist r.ackNr k ∧ seqDist r.ackNr k ≤ 953 := r.ahead k h
  simp only [base, seqDist, RingStore.dist] at *
  omega

/-- A distance between two numbers, seen from a third one. -/
theorem seqDist_from {a f k : ℕ} (ha : a < 65536) (hf : f < 65536) (hk : k < 65536) :
    seqDist a f ≤ seqDist a k ∧ seqDist f k = seqDist a k - seqDist a f ∨
      seqDist a k < seqDist a f ∧ seqDist f k = 65536 + seqDist a k - seqDist a f := by
  simp only [seqDist, RingStore.dist]
  omega

/-- The buffered packets are numbered from the lowest one on, which lies `gap` behind the first bit. -/
theorem offset_eq (h : r.inbuf.Covers r.packets) {k : ℕ} (hm : r.packets k ≠ none) :
    seqDist r.base k = r.gap + seqDist r.inbuf.first k := by
  have hk := r.represents.stores.key_lt k hm
  have hgap : r.gap = seqDist r.base r.inbuf.first := rfl
  have hfrom := seqDist_from r.base_lt h.first_lt hk
  have hnear := seqDist_base_le hm
  have hnear' := seqDist_base_le h.head
  have hwithin : seqDist r.inbuf.first k < seqDist r.inbuf.first r.inbuf.last := h.within k hm
  have hfits := h.fits
  have hcap := (r.represents.allocated_of_covers h).bounds
  omega

theorem span_lt (h : r.inbuf.Covers r.packets) : r.gap + r.inbuf.span ≤ 952 := by
  have hoff := offset_eq h h.tail_offset
  have hnear := seqDist_base_le h.tail_offset
  have hpos := h.span_pos
  have hlt : seqDist r.inbuf.first r.inbuf.last < 65536 := dist_lt h.first_lt
  have htail : seqDist r.inbuf.first ((r.inbuf.first + (seqDist r.inbuf.first r.inbuf.last - 1)) % 65536) =
      seqDist r.inbuf.first r.inbuf.last - 1 := dist_add h.first_lt (by omega)
  rw [span_eq h]
  omega

/-- `at` finds the packets of the map for all bits, whether or not the sequence numbers wrap. -/
theorem packetAt_eq (h : r.inbuf.Covers r.packets) {i : ℕ} (hi : i < 8 * ((r.inbuf.span + 7) / 8)) :
    r.inbuf.packetAt ((r.base + i) % 65536) = r.packets ((r.base + i) % 65536) := by
  have hk : (r.base + i) % 65536 < 65536 := Nat.mod_lt _ (by decide)
  have hspan := span_lt h
  have hoff : seqDist r.base ((r.base + i) % 65536) = i := dist_add r.base_lt (by omega)
  refine r.represents.packetAt hk ?_ ?_
  · refine ⟨r.base, r.base_lt, 2000, by decide, fun k hm => ?_, by omega⟩
    exact (seqDist_base_le hm).trans_lt (by decide)
  · -- no number of the mask is as far behind the lowest packet as the storage is long
    intro hlt hge hhalf
    obtain ⟨j, h4, -, hcap⟩ := (r.represents.allocated_of_covers h).power
    obtain ⟨c, hc⟩ : 8 ∣ r.inbuf.capacity := hcap ▸ pow_dvd_pow 2 (by omega : 3 ≤ j)
    clear hcap
    have hfits := h.fits
    have hhead := seqDist_base_le h.head
    have hfrom := seqDist_from r.base_lt h.first_lt hk
    rw [hoff] at hfrom
    rw [← span_eq h] at hfits
    omega

theorem windowedRun_insert {k : ℕ} (hk : k < 65536) :
    PacketBuffer.WindowedRun (fun _ => none) [PacketBuffer.Op.insert k ()] := by
  refine PacketBuffer.windowedRun_of_base k 1 hk (by decide) (fun _ hm => absurd rfl hm) fun op hop => ?_
  rw [List.mem_singleton.mp hop]
  refine ⟨hk, ?_⟩
  change (k + 65536 - k) % 65536 < 1
  omega

theorem wrapSafeRun_insert (k : ℕ) : PacketBuffer.WrapSafeRun {} [PacketBuffer.Op.insert k ()] :=
  ⟨fun hc => absurd rfl hc, trivial⟩

theorem ahead_insert {k : ℕ} (h : 2 ≤ k ∧ k ≤ 953) (j : ℕ)
    (hj : (PacketBuffer.mapRun (fun _ => none) [PacketBuffer.Op.insert k ()]).1 j ≠ none) :
    2 ≤ seqDist 0 j ∧ seqDist 0 j ≤ Receiver.maxPacketsReorder := by
  change Function.update (fun _ => none) k (some ()) j ≠ none at hj
  have hjk : j = k := by
    by_contra hne
    exact hj (Function.update_of_ne hne _ _)
  rw [hjk]
  change 2 ≤ (k + 65536 - 0) % 65536 ∧ (k + 65536 - 0) % 65536 ≤ 953
  omega

/-- Only the packet with the number `k` is in the buffer, and the first one is missing. -/
def single (k : ℕ) (hk : k < 65536) (h : 2 ≤ k ∧ k ≤ 953) : Reordered Unit :=
  ofRun 0 [.insert k ()] (Nat.zero_lt_succ _) (windowedRun_insert hk) (wrapSafeRun_insert k) (ahead_insert h)

theorem single_packets {k : ℕ} (hk : k < 65536) (h : 2 ≤ k ∧ k ≤ 953) : (single k hk h).packets k ≠ none := by
  change Function.update (fun _ => none) k (some ()) k ≠ none
  rw [Function.update_self]
  exact Option.some_ne_none _

/-- Nothing but a packet, and no payload. -/
def idleSender : Sender := { state := .connected, seqNr := 1, ackedSeqNr := 0 }

theorem buffer_ge_idle : 548 ≤ 20 + (List.replicate 528 (0 : UInt8)).length := by rw [List.length_replicate]

def idleInput (rx : RecvSide) : SendInput where
  rx := rx
  resend := fun _ => ⟨0, .ok⟩
  window := 0
  cwndFull := false
  effectiveMtu := 548
  span := 1
  buffer := List.replicate 528 0
  outcome := .ok
  retryOutcome := .ok
  span_le := Nat.le_of_ble_eq_true rfl
  buffer_ge := buffer_ge_idle

/-- The packets 1 to 9 are missing, and the eight bits are those of 2 to 9. -/
theorem single_not_coveredBy :
    ¬ ∀ (r : Reordered Unit) (s : Sender) (inp : SendInput) (payload : ℕ), r.inbuf.size ≠ 0 →
      inp.rx = r.recvSide → inp.span = r.inbuf.span → (r.gap + r.inbuf.span + 7) / 8 ≤ s.maxSackSize inp →
      r.CoveredBy (s.writeExtensions inp.rx (s.sackSize inp) (s.newPacket inp payload)) := by
  intro hclaim
  have hcov := hclaim (single 10 (by decide) (by decide)) idleSender (idleInput (single 10 (by decide) (by decide)).recvSide) 0
    (by decide +kernel) rfl (by decide +kernel) (by decide +kernel)
  obtain ⟨i, hi, hk⟩ := (hcov 10 (by decide)).mpr (single_packets _ _)
  have hlen : (idleSender.writeExtensions (single 10 (by decide) (by decide)).recvSide 1
      (idleSender.newPacket (idleInput (single 10 (by decide) (by decide)).recvSide) 0)).sackMask.length = 8 := by decide +kernel
  have hlt := (List.getElem?_eq_some_iff.mp hi).1.trans_eq hlen
  change 10 = (0 + 2 + i) % 65536 at hk
  omega

/-- The mask has a bit for every packet in the buffer if and only if the numbers that are missing in front take up no
byte of their own. -/
theorem coveredBy_iff (r : Reordered α) (s : Sender) (inp : SendInput) (payload : ℕ) (hne : r.inbuf.size ≠ 0)
    (hrx : inp.rx = r.recvSide) (hspan : inp.span = r.inbuf.span)
    (hfits : (r.gap + r.inbuf.span + 7) / 8 ≤ s.maxSackSize inp) :
    r.CoveredBy (s.writeExtensions inp.rx (s.sackSize inp) (s.newPacket inp payload)) ↔
      (r.gap + r.inbuf.span + 7) / 8 = (r.inbuf.span + 7) / 8 := by
  have hc := r.represents.covers hne
  have hack := r.ackNr_lt
  have hpos : 0 < r.inbuf.span := span_eq hc ▸ hc.span_pos
  have hsize : s.sackSize inp = (r.inbuf.span + 7) / 8 := by
    rw [maxSackSize] at hfits
    rw [sackSize, if_pos (by rw [hrx, recvSide]; exact decide_eq_true (by omega)), hspan, min_eq_left (by omega)]
  have hmask : (s.writeExtensions inp.rx (s.sackSize inp) (s.newPacket inp payload)).sackMask =
      (List.range (8 * ((r.inbuf.span + 7) / 8))).map fun i => r.recvSide.holds ((r.base + i) % 65536) := by
    rw [sackMask_newPacket s inp.rx inp payload (by omega) (sackSize_le s inp), hrx, sackBits_writeSack, hsize]
    refine List.map_congr_left fun i _ => ?_
    rw [base, Nat.mod_add_mod]
    rfl
  have hbit : ∀ i, (s.writeExtensions inp.rx (s.sackSize inp) (s.newPacket inp payload)).sackMask[i]? = some true ↔
      i < 8 * ((r.inbuf.span + 7) / 8) ∧ r.packets ((r.base + i) % 65536) ≠ none := by
    intro i
    rw [hmask, List.getElem?_map]
    rcases Nat.lt_or_ge i (8 * ((r.inbuf.span + 7) / 8)) with hi | hi
    · rw [List.getElem?_range hi, Option.map_some, Option.some_inj, and_iff_right hi, ← packetAt_eq hc hi]
      exact Option.isSome_iff_ne_none
    · rw [List.getElem?_eq_none (by rwa [List.length_range]), Option.map_none]
      exact iff_of_false (fun hc => by cases hc) fun hc => absurd hc.1 (not_lt.mpr hi)
  constructor
  · intro hcov
    -- the bit of the highest packet is in the mask
    obtain ⟨i, hi, hk⟩ := (hcov _ (Nat.mod_lt _ (by decide))).mpr hc.tail_offset
    have hilt := ((hbit i).mp hi).1
    have hspan := span_lt hc
    have hoff := offset_eq hc hc.tail_offset
    have htail : seqDist r.inbuf.first ((r.inbuf.first + (seqDist r.inbuf.first r.inbuf.last - 1)) % 65536) =
        seqDist r.inbuf.first r.inbuf.last - 1 := dist_add hc.first_lt (by rw [← span_eq hc]; omega)
    have hbase : seqDist r.base ((r.base + i) % 65536) = i := dist_add r.base_lt (by omega)
    rw [htail, hk, ← Nat.mod_add_mod, ← base, hbase, ← span_eq hc] at hoff
    omega
  · intro hsame k hk
    constructor
    · rintro ⟨i, hi, rfl⟩
      rw [← Nat.mod_add_mod]
      exact ((hbit i).mp hi).2
    · intro hm
      have hoff := offset_eq hc hm
      have hin : seqDist r.inbuf.first k < seqDist r.inbuf.first r.inbuf.last := hc.within k hm
      rw [← span_eq hc] at hin
      have hkey : (r.base + seqDist r.base k) % 65536 = k := add_dist r.base_lt hk
      refine ⟨seqDist r.base k, (hbit _).mpr ⟨by omega, hkey.symm ▸ hm⟩, ?_⟩
      rw [← Nat.mod_add_mod]
      exact hkey.symm

/-- Only the packet 1 is missing. -/
theorem coveredBy_iff_single :
    let r := single 2 (by decide) (by decide)
    let inp := idleInput r.recvSide
    r.CoveredBy (idleSender.writeExtensions inp.rx (idleSender.sackSize inp) (idleSender.newPacket inp 0)) ↔
      (r.gap + r.inbuf.span + 7) / 8 = (r.inbuf.span + 7) / 8 :=
  coveredBy_iff _ idleSender _ 0 (by decide +kernel) rfl (by decide +kernel) (by decide +kernel)

end Reordered

end Utp

end LibtorrentSN
