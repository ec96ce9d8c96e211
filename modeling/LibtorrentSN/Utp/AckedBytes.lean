import LibtorrentSN.Utp.Bookkeeping

/-!
# The bytes that congestion control sees

`incoming_packet` counts the payload that a packet acknowledges, and the least round trip time of it, once over the
numbers up to `ack_nr` and once for each selective ack. What `parse_sack` returns replaces the bytes that were counted
before, and a selective ack without any bits has a round trip time of zero.
-/

namespace LibtorrentSN

namespace Utp

namespace Sender

/-- `acked_bytes` and `min_rtt`. -/
@[ext]
structure Tally where
  ackedBytes : ℕ := 0
  minRtt : ℕ := 0xffffffff
deriving DecidableEq

/-- One packet is counted. -/
def Tally.add (t : Tally) (p : OutPacket) (rtt : ℕ) : Tally := ⟨t.ackedBytes + p.payloadSize, min t.minRtt rtt⟩

/-- A packet that `parse_sack` finds lost, and what sending it again depends on. -/
structure FastResend where
  nr : ℕ
  rx : RecvSide
  input : ResendInput

/-- A packet is sent again. -/
def fastResend (s : Sender) (r : FastResend) : Sender :=
  match s.outbuf r.nr with
  | none => s
  | some p => (s.resendPacket r.nr p true r.rx r.input).1

section

-- what `ack_packet` returns for the packet with this number
variable (rtt : ℕ → ℕ)

/-- The loop of `incoming_packet`, as `ackLoop`. -/
def ackLoopTally : ℕ → ℕ → Sender → Tally → Sender × Tally
  | 0, _, s, t => (s, t)
  | n + 1, nr, s, t =>
    match s.outbuf nr with
    | none => ackLoopTally n ((nr + 1) &&& 0xffff) s t
    | some p => ackLoopTally n ((nr + 1) &&& 0xffff) (s.removeAcked nr) (t.add p (rtt nr))

/-- What the loop of `parse_sack` does with a bit that is set. -/
def ackBit (nr : ℕ) (s : Sender) (t : Tally) : Sender × Tally :=
  match s.outbuf nr with
  | none => (s.maybeIncAckedSeqNr, t)
  | some p => (s.removeAcked nr, t.add p (rtt nr))

/-- The loop of `parse_sack`, as `sackLoop`. -/
def sackLoopTally : List Bool → ℕ → Sender → Tally → Sender × Tally
  | [], _, s, t => (s, t)
  | bit :: bits, nr, s, t =>
    let r := if bit then ackBit rtt nr s t else (s, t)
    if (nr + 1) &&& 0xffff = r.1.seqNr then r else sackLoopTally bits ((nr + 1) &&& 0xffff) r.1 r.2

/-- A selective ack: its bits, and the packets that are sent again because of it. -/
structure Sack where
  bitfield : List UInt8
  resends : List FastResend := []

/-- `parse_sack`. -/
def parseSackTally (ackNr : ℕ) (s : Sender) (sack : Sack) : Sender × Tally :=
  if sack.bitfield = [] then (s, ⟨0, 0⟩)
  else
    let r := sackLoopTally rtt (sackBits sack.bitfield) ((ackNr + 2) &&& 0xffff) s {}
    (sack.resends.foldl fastResend r.1, r.2)

/-- The call of `maybe_inc_acked_seq_nr` after the loop. -/
def Tally.settle (r : Sender × Tally) : Sender × Tally := (r.1.maybeIncAckedSeqNr, r.2)

/-- What `incoming_packet` does with `ack_nr`. -/
def ackNrTally (ackNr : ℕ) (s : Sender) : Sender × Tally :=
  if compareLessWrap s.ackedSeqNr ackNr 0xffff then
    Tally.settle
      (ackLoopTally rtt (sub32 ackNr s.ackedSeqNr &&& 0xffff) ((s.ackedSeqNr + 1) &&& 0xffff) s {})
  else (s, {})

/-- `std::tie(rtt, acked_bytes) = parse_sack(..); min_rtt = std::min(min_rtt, rtt);` -/
def takeSack (ackNr : ℕ) (r : Sender × Tally) (sack : Sack) : Sender × Tally :=
  let q := parseSackTally rtt ackNr r.1 sack
  (q.1, ⟨q.2.ackedBytes, min r.2.minRtt q.2.minRtt⟩)

/-- The acknowledgements of a packet that `incoming_packet` does not ignore. -/
def incomingTally (ackNr : ℕ) (sacks : List Sack) (s : Sender) : Sender × Tally :=
  sacks.foldl (takeSack rtt ackNr) (ackNrTally rtt ackNr s)

end

/-- What `do_ledbat` is called with, and the delay is clamped to, if it is called. -/
def ledbatArgs (sample : ℕ) (prevBytesInFlight : ℤ) (t : Tally) : Option Tally :=
  if sample ≠ 0 ∧ t.ackedBytes ≠ 0 ∧ prevBytesInFlight ≠ 0 then some t else none

/-! ### The states are those of the loops that do not count -/

/-- The loop of `incoming_packet`. -/
theorem ackLoopTally_fst (rtt : ℕ → ℕ) (n nr : ℕ) (s : Sender) (t : Tally) :
    (ackLoopTally rtt n nr s t).1 = ackLoop n nr s := by
  induction n generalizing nr s t with
  | zero => rfl
  | succ n ih =>
    rw [ackLoopTally, ackLoop]
    cases hp : s.outbuf nr with
    | none => rw [ih, removeAcked, hp]
    | some p => rw [ih]

/-- The loop of `parse_sack`. -/
theorem sackLoopTally_fst (rtt : ℕ → ℕ) (bits : List Bool) (nr : ℕ) (s : Sender) (t : Tally) :
    (sackLoopTally rtt bits nr s t).1 = sackLoop bits nr s := by
  induction bits generalizing nr s t with
  | nil => rfl
  | cons bit bits ih =>
    rw [sackLoopTally, sackLoop]
    have hbit : (if bit then ackBit rtt nr s t else (s, t)).1 =
        if bit then (if s.outbuf nr = none then s.maybeIncAckedSeqNr else s.removeAcked nr) else s := by
      cases bit with
      | false => rfl
      | true =>
        rw [if_pos rfl, if_pos rfl, ackBit]
        cases hp : s.outbuf nr <;> rfl
    rw [← hbit]
    generalize (if bit then ackBit rtt nr s t else (s, t)) = r
    split
    · rfl
    · exact ih ..

/-- What is done with `ack_nr`. -/
theorem ackNrTally_fst (rtt : ℕ → ℕ) (ackNr : ℕ) (s : Sender) : (ackNrTally rtt ackNr s).1 = s.ackPackets ackNr := by
  rw [ackNrTally, ackPackets]
  split
  · rw [Tally.settle, ackLoopTally_fst]
  · rfl

/-- What is done with a selective ack. -/
theorem parseSackTally_fst (rtt : ℕ → ℕ) (ackNr : ℕ) (s : Sender) (bitfield : List UInt8) :
    (parseSackTally rtt ackNr s ⟨bitfield, []⟩).1 = s.parseSack ackNr bitfield := by
  rw [parseSackTally, parseSack]
  split
  next hnil =>
    have hbits : sackBits bitfield = [] := by
      rw [show bitfield = [] from hnil]
      rfl
    rw [hbits]
    rfl
  next hne => exact sackLoopTally_fst ..

/-- With nothing to send again this is what `incomingAcks` does with a packet that it does not ignore. -/
theorem incomingAcks_eq_incomingTally (rtt : ℕ → ℕ) {s : Sender} {type : PacketType} {ackNr : ℕ}
    (hnew : ¬ compareLessWrap (s.cmpSeqNr type) ackNr 0xffff)
    (hold : ¬ compareLessWrap ackNr (sub32 s.ackedSeqNr 3) 0xffff) (sacks : List (List UInt8)) :
    s.incomingAcks type ackNr sacks = (incomingTally rtt ackNr (sacks.map (⟨·, []⟩)) s).1 := by
  rw [incomingAcks, if_neg (by simp [hnew, hold]), incomingTally, List.foldl_map, ← ackNrTally_fst rtt]
  generalize ackNrTally rtt ackNr s = r
  induction sacks generalizing r with
  | nil => rfl
  | cons bitfield sacks ih =>
    rw [List.foldl_cons, List.foldl_cons, ← parseSackTally_fst rtt]
    exact ih (takeSack rtt ackNr r ⟨bitfield, []⟩)

/-! ### What is counted -/

variable {s s' s'' : Sender} {k nr : ℕ} {p : OutPacket}

/-- The payload of the packet with a number. -/
def payloadAt (s : Sender) (k : ℕ) : ℕ := (s.outbuf k).elim 0 OutPacket.payloadSize

/-- The numbers of the packets that are no longer in `m_outbuf`. -/
def removed (s s' : Sender) : Finset ℕ :=
  (Finset.range 65536).filter fun k => (s.outbuf k).isSome ∧ (s'.outbuf k).isNone

/-- The payload of these packets, and the least of their round trip times. -/
def between (rtt : ℕ → ℕ) (s s' : Sender) : Tally :=
  ⟨∑ k ∈ removed s s', payloadAt s k, (removed s s').fold min 0xffffffff rtt⟩

/-- Two counts together. -/
def Tally.merge (t u : Tally) : Tally := ⟨t.ackedBytes + u.ackedBytes, min t.minRtt u.minRtt⟩

/-- A packet was there and is not there any more. -/
theorem mem_removed : k ∈ removed s s' ↔ k < 65536 ∧ s.outbuf k ≠ none ∧ s'.outbuf k = none := by
  rw [removed, Finset.mem_filter, Finset.mem_range, Option.isSome_iff_ne_none, Option.isNone_iff_eq_none]

/-- Packets have been removed, and the others have the payload they had. -/
structure Shrinks (s s' : Sender) : Prop where
  payload : ∀ k, s'.outbuf k ≠ none → s.outbuf k ≠ none ∧ payloadAt s' k = payloadAt s k
  seqNr : s'.seqNr = s.seqNr
  fits : (∀ k p, s.outbuf k = some p → p.SackFits) → ∀ k p, s'.outbuf k = some p → p.SackFits

theorem Shrinks.refl (s : Sender) : Shrinks s s := ⟨fun _ h => ⟨h, rfl⟩, rfl, id⟩

/-- Packets are removed in two steps. -/
theorem Shrinks.trans (h : Shrinks s s') (h' : Shrinks s' s'') : Shrinks s s'' where
  payload k hk :=
    have ⟨h1, h2⟩ := h'.payload k hk
    have ⟨h3, h4⟩ := h.payload k h1
    ⟨h3, h2.trans h4⟩
  seqNr := h'.seqNr.trans h.seqNr
  fits := h'.fits ∘ h.fits

/-- No packet is removed twice. -/
theorem removed_trans (h : Shrinks s s') (h' : Shrinks s' s'') :
    ∃ hd : Disjoint (removed s s') (removed s' s''), removed s s'' = (removed s s').disjUnion (removed s' s'') hd := by
  refine ⟨Finset.disjoint_left.mpr fun k hk hk' => (mem_removed.mp hk').2.1 (mem_removed.mp hk).2.2, ?_⟩
  ext k
  rw [Finset.mem_disjUnion, mem_removed, mem_removed, mem_removed]
  constructor
  · rintro ⟨hlt, hs, hs''⟩
    by_cases hs' : s'.outbuf k = none
    · exact .inl ⟨hlt, hs, hs'⟩
    · exact .inr ⟨hlt, hs', hs''⟩
  · rintro (⟨hlt, hs, hs'⟩ | ⟨hlt, hs', hs''⟩)
    · exact ⟨hlt, hs, by_contra fun hc => (h'.payload k hc).1 hs'⟩
    · exact ⟨hlt, (h.payload k hs').1, hs''⟩

/-- What is removed in two steps is counted in two steps. -/
theorem between_trans (rtt : ℕ → ℕ) (h : Shrinks s s') (h' : Shrinks s' s'') :
    between rtt s s'' = (between rtt s s').merge (between rtt s' s'') := by
  obtain ⟨hd, heq⟩ := removed_trans h h'
  have hsum : ∑ k ∈ removed s' s'', payloadAt s k = ∑ k ∈ removed s' s'', payloadAt s' k :=
    Finset.sum_congr rfl fun k hk => (h.payload k (mem_removed.mp hk).2.1).2.symm
  have hmin : ((removed s s').disjUnion (removed s' s'') hd).fold min 0xffffffff rtt =
      min ((removed s s').fold min 0xffffffff rtt) ((removed s' s'').fold min 0xffffffff rtt) := by
    conv_lhs => rw [← min_self 0xffffffff]
    exact Finset.fold_disjUnion hd
  simp only [between, Tally.merge, heq, Finset.sum_disjUnion, hsum, hmin]

/-- Nothing is counted if nothing is removed. -/
theorem between_of_none (rtt : ℕ → ℕ) (h : ∀ k, s'.outbuf k = none → s.outbuf k = none) : between rtt s s' = {} := by
  have hempty : removed s s' = ∅ :=
    Finset.eq_empty_of_forall_notMem fun k hk => (mem_removed.mp hk).2.1 (h k (mem_removed.mp hk).2.2)
  rw [between, hempty]
  rfl

/-- Only `m_acked_seq_nr` moves on. -/
@[simp]
theorem incAckedSeqNr_outbuf (fuel : ℕ) (s : Sender) : (incAckedSeqNr fuel s).outbuf = s.outbuf := by
  induction fuel generalizing s with
  | zero => rfl
  | succ fuel ih =>
    rw [incAckedSeqNr]
    split
    · exact ih _
    · rfl

/-- No number is given out. -/
@[simp]
theorem incAckedSeqNr_seqNr (fuel : ℕ) (s : Sender) : (incAckedSeqNr fuel s).seqNr = s.seqNr := by
  induction fuel generalizing s with
  | zero => rfl
  | succ fuel ih =>
    rw [incAckedSeqNr]
    split
    · exact ih _
    · rfl

/-- Nothing is removed. -/
theorem shrinks_of_outbuf (h : s'.outbuf = s.outbuf) (hq : s'.seqNr = s.seqNr) : Shrinks s s' where
  payload k hk := ⟨h ▸ hk, by rw [payloadAt, payloadAt, h]⟩
  seqNr := hq
  fits hf := h ▸ hf

/-- `maybe_inc_acked_seq_nr` removes no packet. -/
theorem maybeInc_outbuf (s : Sender) : s.maybeIncAckedSeqNr.outbuf = s.outbuf := by
  rw [maybeIncAckedSeqNr, incAckedSeqNr_outbuf]

/-- It changes nothing of what counts. -/
theorem shrinks_maybeInc (s : Sender) : Shrinks s s.maybeIncAckedSeqNr :=
  shrinks_of_outbuf (maybeInc_outbuf s) (by rw [maybeIncAckedSeqNr, incAckedSeqNr_seqNr])

/-- One packet is removed. -/
theorem removeAcked_outbuf (hp : s.outbuf nr = some p) :
    (s.removeAcked nr).outbuf = Function.update s.outbuf nr none := by
  rw [removeAcked, hp]
  exact incAckedSeqNr_outbuf _ _

/-- The other packets are kept. -/
theorem shrinks_removeAcked (hp : s.outbuf nr = some p) : Shrinks s (s.removeAcked nr) where
  payload k hk := by
    rw [payloadAt, removeAcked_outbuf hp] at *
    by_cases hkn : k = nr
    · rw [hkn, Function.update_self] at hk
      exact absurd rfl hk
    · rw [Function.update_of_ne hkn] at hk ⊢
      exact ⟨hk, rfl⟩
  seqNr := by
    rw [removeAcked, hp]
    exact incAckedSeqNr_seqNr _ _
  fits hf k q hq := by
    rw [removeAcked_outbuf hp] at hq
    by_cases hkn : k = nr
    · rw [hkn, Function.update_self] at hq
      cases hq
    · exact hf k q ((Function.update_of_ne hkn none s.outbuf).symm.trans hq)

/-- It is the packet that is counted. -/
theorem between_removeAcked (rtt : ℕ → ℕ) (hp : s.outbuf nr = some p) (hnr : nr < 65536) :
    between rtt s (s.removeAcked nr) = ({} : Tally).add p (rtt nr) := by
  have hset : removed s (s.removeAcked nr) = {nr} := by
    ext k
    rw [mem_removed, removeAcked_outbuf hp, Finset.mem_singleton]
    by_cases hkn : k = nr
    · rw [hkn, Function.update_self, hp]
      exact iff_of_true ⟨hnr, Option.some_ne_none p, rfl⟩ rfl
    · rw [Function.update_of_ne hkn]
      exact iff_of_false (fun hc => hc.2.1 hc.2.2) hkn
  rw [between, hset, Finset.sum_singleton, Finset.fold_singleton, payloadAt, hp, Tally.add, Nat.zero_add, min_comm]
  rfl

/-! ### One phase after the other -/

variable {rtt : ℕ → ℕ} {t : Tally} {r : Sender × Tally}

/-- What a phase has counted in addition to `t`, from the state `s` on, is right. -/
structure Counts (rtt : ℕ → ℕ) (s : Sender) (t : Tally) (r : Sender × Tally) : Prop where
  shrinks : Shrinks s r.1
  tally : r.2 = t.merge (between rtt s r.1)

/-- Counts can be taken together in any order of steps. -/
theorem Tally.merge_assoc (t u v : Tally) : (t.merge u).merge v = t.merge (u.merge v) := by
  rw [merge, merge, merge, merge, Nat.add_assoc, min_assoc]

/-- A phase that counts nothing adds nothing. -/
theorem Tally.merge_empty (ht : t.minRtt ≤ 0xffffffff) : t.merge {} = t := by
  rw [merge, Nat.add_zero, min_eq_left ht]

/-- It adds nothing in front, either. -/
theorem Tally.empty_merge (ht : t.minRtt ≤ 0xffffffff) : ({} : Tally).merge t = t := by
  rw [merge, Nat.zero_add, min_eq_right ht]

/-- To count a packet is to add a count of one. -/
theorem Tally.add_eq_merge (ht : t.minRtt ≤ 0xffffffff) (p : OutPacket) (x : ℕ) :
    t.add p x = t.merge (({} : Tally).add p x) := by
  rw [merge, add, add, Nat.zero_add, ← min_assoc, min_eq_left ht]

/-- A least value is at most the one to begin with. -/
theorem fold_min_le_base (R : Finset ℕ) (b : ℕ) (rtt : ℕ → ℕ) : R.fold min b rtt ≤ b :=
  (Finset.fold_min_le b).mpr (.inl le_rfl)

/-- No round trip time that is counted is above the one to begin with. -/
theorem minRtt_between_le (rtt : ℕ → ℕ) (s s' : Sender) : (between rtt s s').minRtt ≤ 0xffffffff := by
  simp only [between, fold_min_le_base]

/-- It begins there. -/
theorem Tally.minRtt_empty_le : ({} : Tally).minRtt ≤ 0xffffffff := Nat.le_of_ble_eq_true rfl

/-- A phase that removes nothing. -/
theorem Counts.idle (h : Shrinks s s') (hnone : ∀ k, s'.outbuf k = none → s.outbuf k = none)
    (ht : t.minRtt ≤ 0xffffffff) : Counts rtt s t (s', t) :=
  ⟨h, by rw [between_of_none rtt hnone, Tally.merge_empty ht]⟩

/-- One phase comes after another. -/
theorem Counts.trans {q : Sender × Tally} (h : Counts rtt s t r) (h' : Counts rtt r.1 r.2 q) : Counts rtt s t q := by
  refine ⟨h.shrinks.trans h'.shrinks, ?_⟩
  rw [h'.tally, h.tally, Tally.merge_assoc, between_trans rtt h.shrinks h'.shrinks]

/-- The least round trip time only goes down. -/
theorem Counts.minRtt_le (h : Counts rtt s t r) : r.2.minRtt ≤ 0xffffffff := by
  rw [h.tally]
  exact min_le_of_right_le (minRtt_between_le rtt s r.1)

/-- The last call of the phase removes nothing. -/
theorem settle_outbuf (r : Sender × Tally) : (Tally.settle r).1.outbuf = r.1.outbuf := maybeInc_outbuf r.1

/-- And it counts nothing. -/
theorem Counts.settle (h : Counts rtt s t r) : Counts rtt s t (Tally.settle r) :=
  h.trans (.idle (shrinks_maybeInc r.1) (fun _ hk => maybeInc_outbuf r.1 ▸ hk) h.minRtt_le)

/-- A packet that is removed is counted. -/
theorem Counts.removeAcked (hp : s.outbuf nr = some p) (hnr : nr < 65536) (ht : t.minRtt ≤ 0xffffffff) :
    Counts rtt s t (s.removeAcked nr, t.add p (rtt nr)) :=
  ⟨shrinks_removeAcked hp, by rw [between_removeAcked rtt hp hnr, Tally.add_eq_merge ht]⟩

/-- All packets up to `ack_nr` are. -/
theorem counts_ackLoop {n : ℕ} (hnr : nr < 65536) (ht : t.minRtt ≤ 0xffffffff) :
    Counts rtt s t (ackLoopTally rtt n nr s t) := by
  induction n generalizing nr s t with
  | zero => exact .idle (.refl s) (fun _ h => h) ht
  | succ n ih =>
    have hnext : (nr + 1) &&& 0xffff < 65536 := and_ffff _ ▸ Nat.mod_lt _ (by decide)
    rw [ackLoopTally]
    cases hp : s.outbuf nr with
    | none => exact ih hnext ht
    | some p =>
      have hone : Counts rtt s t _ := Counts.removeAcked hp hnr ht
      exact hone.trans (ih hnext hone.minRtt_le)

/-- So is the packet of a bit. -/
theorem counts_ackBit (hnr : nr < 65536) (ht : t.minRtt ≤ 0xffffffff) : Counts rtt s t (ackBit rtt nr s t) := by
  rw [ackBit]
  cases hp : s.outbuf nr with
  | none => exact .idle (shrinks_maybeInc s) (fun k h => maybeInc_outbuf s ▸ h) ht
  | some p => exact .removeAcked hp hnr ht

/-- So are those of all bits. -/
theorem counts_sackLoop {bits : List Bool} (hnr : nr < 65536) (ht : t.minRtt ≤ 0xffffffff) :
    Counts rtt s t (sackLoopTally rtt bits nr s t) := by
  induction bits generalizing nr s t with
  | nil => exact .idle (.refl s) (fun _ h => h) ht
  | cons bit bits ih =>
    have hbit : Counts rtt s t (if bit then ackBit rtt nr s t else (s, t)) := by
      split
      · exact counts_ackBit hnr ht
      · exact .idle (.refl s) (fun _ h => h) ht
    rw [sackLoopTally]
    generalize (if bit then ackBit rtt nr s t else (s, t)) = r at hbit ⊢
    split
    · exact hbit
    · exact hbit.trans (ih (and_ffff _ ▸ Nat.mod_lt _ (by decide)) hbit.minRtt_le)

/-- Sending a packet again changes neither its number nor its payload. -/
theorem resendPacket_outbuf (hp : s.outbuf nr = some p) (hfits : p.SackFits) (fast : Bool) (rx : RecvSide)
    (inp : ResendInput) :
    (s.resendPacket nr p fast rx inp).1.seqNr = s.seqNr ∧
      ∃ q, (s.resendPacket nr p fast rx inp).1.outbuf = Function.update s.outbuf nr (some q) ∧
        q.SackFits ∧ q.payloadSize = p.payloadSize := by
  obtain ⟨hfits', hsize, -⟩ := hfits.refreshSack rx
  have hself : s.outbuf = Function.update s.outbuf nr (some p) := by rw [← hp, Function.update_eq_self]
  rw [resendPacket]
  split
  · exact ⟨rfl, p, hself, hfits, rfl⟩
  split
  · exact ⟨rfl, p, hself, hfits, rfl⟩
  · dsimp only
    split <;> exact ⟨rfl, _, rfl, ⟨hfits'.header_le, hfits'.sack⟩, hsize⟩

/-- A packet that is sent again is not removed. -/
theorem shrinks_fastResend (hf : ∀ k p, s.outbuf k = some p → p.SackFits) (f : FastResend) :
    Shrinks s (s.fastResend f) ∧ ∀ k, (s.fastResend f).outbuf k = none → s.outbuf k = none := by
  rw [fastResend]
  cases hp : s.outbuf f.nr with
  | none => exact ⟨.refl s, fun _ h => h⟩
  | some p =>
    obtain ⟨hseq, q, hupd, hq, hpay⟩ := resendPacket_outbuf hp (hf _ p hp) true f.rx f.input
    refine ⟨⟨fun k hk => ?_, hseq, fun _ k p' hp' => ?_⟩, fun k hk => ?_⟩
    · rw [payloadAt, hupd] at *
      by_cases hkn : k = f.nr
      · rw [hkn, Function.update_self, payloadAt, hp]
        exact ⟨Option.some_ne_none p, hpay⟩
      · rw [Function.update_of_ne hkn] at hk ⊢
        exact ⟨hk, rfl⟩
    · rw [hupd] at hp'
      by_cases hkn : k = f.nr
      · rw [hkn, Function.update_self] at hp'
        exact Option.some.inj hp' ▸ hq
      · exact hf k p' ((Function.update_of_ne hkn _ _).symm.trans hp')
    · rw [hupd] at hk
      by_cases hkn : k = f.nr
      · rw [hkn, Function.update_self] at hk
        cases hk
      · exact (Function.update_of_ne hkn _ _).symm.trans hk

/-- None of them is. -/
theorem shrinks_fastResends (rs : List FastResend) (hf : ∀ k p, s.outbuf k = some p → p.SackFits) :
    Shrinks s (rs.foldl fastResend s) ∧ ∀ k, (rs.foldl fastResend s).outbuf k = none → s.outbuf k = none := by
  induction rs generalizing s with
  | nil => exact ⟨.refl s, fun _ h => h⟩
  | cons f rs ih =>
    obtain ⟨hone, hnone⟩ := shrinks_fastResend hf f
    obtain ⟨hrest, hnone'⟩ := ih (hone.fits hf)
    exact ⟨hone.trans hrest, fun k hk => hnone k (hnone' k hk)⟩

/-- The first phase counts what it removes. -/
theorem counts_ackNr (rtt : ℕ → ℕ) (ackNr : ℕ) (s : Sender) : Counts rtt s {} (ackNrTally rtt ackNr s) := by
  rw [ackNrTally]
  generalize sub32 ackNr s.ackedSeqNr &&& 0xffff = n
  split
  · have hloop : Counts rtt s {} (ackLoopTally rtt n ((s.ackedSeqNr + 1) &&& 0xffff) s {}) := counts_ackLoop (and_ffff _ ▸ Nat.mod_lt _ (by decide)) Tally.minRtt_empty_le
    exact hloop.settle
  · exact .idle (.refl s) (fun _ h => h) Tally.minRtt_empty_le

/-- A selective ack with bits counts what it removes. -/
theorem counts_parseSack {sack : Sack} (ackNr : ℕ) (hf : ∀ k p, s.outbuf k = some p → p.SackFits)
    (hne : sack.bitfield ≠ []) : Counts rtt s {} (parseSackTally rtt ackNr s sack) := by
  rw [parseSackTally, if_neg hne]
  have hloop : Counts rtt s {} (sackLoopTally rtt (sackBits sack.bitfield) ((ackNr + 2) &&& 0xffff) s {}) :=
    counts_sackLoop (and_ffff _ ▸ Nat.mod_lt _ (by decide)) Tally.minRtt_empty_le
  obtain ⟨hres, hnone⟩ := shrinks_fastResends sack.resends (hloop.shrinks.fits hf)
  exact hloop.trans (.idle hres hnone hloop.minRtt_le)

/-! ### What is removed -/

/-- The numbers from one on: this one and those behind it. -/
theorem exists_lt_succ_iff {n : ℕ} (hnr : nr < 65536) :
    (∃ i < n + 1, k = (nr + i) % 65536) ↔ k = nr ∨ ∃ i < n, k = ((nr + 1) % 65536 + i) % 65536 := by
  constructor
  · rintro ⟨i, hi, rfl⟩
    cases i with
    | zero => exact .inl (Nat.mod_eq_of_lt hnr)
    | succ i => exact .inr ⟨i, by omega, by rw [Nat.mod_add_mod]; congr 1; omega⟩
  · rintro (rfl | ⟨i, hi, rfl⟩)
    · exact ⟨0, Nat.zero_lt_succ n, (Nat.mod_eq_of_lt hnr).symm⟩
    · exact ⟨i + 1, by omega, by rw [Nat.mod_add_mod]; congr 1; omega⟩

/-- The loop removes the packets with these numbers. -/
theorem ackLoop_eq_none_iff {n : ℕ} (hnr : nr < 65536) :
    (ackLoopTally rtt n nr s t).1.outbuf k = none ↔ s.outbuf k = none ∨ ∃ i < n, k = (nr + i) % 65536 := by
  induction n generalizing nr s t with
  | zero => exact ⟨.inl, fun h => h.elim id fun ⟨i, hi, _⟩ => absurd hi (Nat.not_lt_zero i)⟩
  | succ n ih =>
    have hnext : (nr + 1) % 65536 < 65536 := Nat.mod_lt _ (by decide)
    rw [ackLoopTally, exists_lt_succ_iff hnr, and_ffff]
    cases hp : s.outbuf nr with
    | none =>
      rw [ih hnext]
      constructor
      · rintro (h | h)
        · exact .inl h
        · exact .inr (.inr h)
      · rintro (h | rfl | h)
        · exact .inl h
        · exact .inl hp
        · exact .inr h
    | some p =>
      rw [ih hnext, removeAcked_outbuf hp]
      by_cases hkn : k = nr
      · rw [hkn, Function.update_self]
        exact iff_of_true (.inl rfl) (.inr (.inl rfl))
      · rw [Function.update_of_ne hkn, or_iff_right (a := k = nr) hkn]

/-- A bit removes the packet it stands for. -/
theorem ackBit_eq_none_iff (rtt : ℕ → ℕ) (nr : ℕ) (s : Sender) (t : Tally) :
    (ackBit rtt nr s t).1.outbuf k = none ↔ s.outbuf k = none ∨ k = nr := by
  rw [ackBit]
  cases hp : s.outbuf nr with
  | none =>
    change s.maybeIncAckedSeqNr.outbuf k = none ↔ _
    rw [maybeInc_outbuf]
    exact ⟨.inl, fun h => h.elim id fun hk => hk ▸ hp⟩
  | some p =>
    change (s.removeAcked nr).outbuf k = none ↔ _
    rw [removeAcked_outbuf hp]
    by_cases hkn : k = nr
    · rw [hkn, Function.update_self]
      exact iff_of_true rfl (.inr rfl)
    · rw [Function.update_of_ne hkn, or_iff_left hkn]

/-- No number is given out. -/
theorem ackBit_seqNr (rtt : ℕ → ℕ) (nr : ℕ) (s : Sender) (t : Tally) : (ackBit rtt nr s t).1.seqNr = s.seqNr := by
  rw [ackBit]
  cases hp : s.outbuf nr with
  | none => exact (shrinks_maybeInc s).seqNr
  | some p => exact (shrinks_removeAcked hp).seqNr

/-- The bits behind the last number that was sent do not count. -/
def BitOf (bits : List Bool) (nr seqNr k : ℕ) : Prop :=
  ∃ i, bits[i]? = some true ∧ k = (nr + i) % 65536 ∧ ∀ j < i, (nr + j + 1) % 65536 ≠ seqNr

/-- The first bit, or one of the others if it is not the last. -/
theorem bitOf_cons {bit : Bool} {bits : List Bool} {seqNr : ℕ} (hnr : nr < 65536) :
    BitOf (bit :: bits) nr seqNr k ↔
      bit = true ∧ k = nr ∨ (nr + 1) % 65536 ≠ seqNr ∧ BitOf bits ((nr + 1) % 65536) seqNr k := by
  constructor
  · rintro ⟨i, hi, rfl, hlt⟩
    cases i with
    | zero => exact .inl ⟨Option.some.inj hi, Nat.mod_eq_of_lt hnr⟩
    | succ i =>
      refine .inr ⟨hlt 0 (Nat.zero_lt_succ i), i, hi, ?_, fun j hj => ?_⟩
      · rw [Nat.mod_add_mod]
        congr 1
        omega
      · have hnext := hlt (j + 1) (by omega)
        rwa [Nat.add_assoc, Nat.mod_add_mod, ← Nat.add_assoc, Nat.add_right_comm nr 1 j, Nat.add_assoc nr j 1]
  · rintro (⟨rfl, rfl⟩ | ⟨hne, i, hi, rfl, hlt⟩)
    · exact ⟨0, rfl, (Nat.mod_eq_of_lt hnr).symm, fun j hj => absurd hj (Nat.not_lt_zero j)⟩
    · refine ⟨i + 1, hi, ?_, fun j hj => ?_⟩
      · rw [Nat.mod_add_mod]
        congr 1
        omega
      · cases j with
        | zero => exact hne
        | succ j =>
          have hprev := hlt j (by omega)
          rwa [Nat.add_assoc, Nat.mod_add_mod, ← Nat.add_assoc, Nat.add_right_comm nr 1 j, Nat.add_assoc nr j 1] at hprev

/-- The loop removes the packets of the bits that are set. -/
theorem sackLoop_eq_none_iff {bits : List Bool} (hnr : nr < 65536) :
    (sackLoopTally rtt bits nr s t).1.outbuf k = none ↔ s.outbuf k = none ∨ BitOf bits nr s.seqNr k := by
  induction bits generalizing nr s t with
  | nil => exact ⟨.inl, fun h => h.elim id fun ⟨i, hi, _⟩ => by cases hi⟩
  | cons bit bits ih =>
    have hbit : ((if bit then ackBit rtt nr s t else (s, t)).1.outbuf k = none ↔
        s.outbuf k = none ∨ bit = true ∧ k = nr) ∧ (if bit then ackBit rtt nr s t else (s, t)).1.seqNr = s.seqNr := by
      cases bit with
      | true =>
        rw [if_pos rfl, and_iff_right rfl]
        exact ⟨ackBit_eq_none_iff rtt nr s t, ackBit_seqNr rtt nr s t⟩
      | false => exact ⟨⟨.inl, fun h => h.elim id fun h => absurd h.1 Bool.false_ne_true⟩, rfl⟩
    rw [sackLoopTally, bitOf_cons hnr]
    generalize (if bit then ackBit rtt nr s t else (s, t)) = r at hbit ⊢
    rw [and_ffff, hbit.2, ← or_assoc, ← hbit.1]
    split
    next hend => exact ⟨.inl, fun h => h.elim id fun h => absurd hend h.1⟩
    next hend => rw [ih (Nat.mod_lt _ (by decide)), hbit.2, and_iff_right hend]

/-- The cumulative acknowledgement covers the number `k`. -/
def AckedByNr (s : Sender) (ackNr k : ℕ) : Prop :=
  compareLessWrap s.ackedSeqNr ackNr 0xffff = true ∧
    ∃ i < sub32 ackNr s.ackedSeqNr &&& 0xffff, k = ((s.ackedSeqNr + 1) % 65536 + i) % 65536

/-- One of the selective acks does. -/
def AckedBySack (s : Sender) (ackNr : ℕ) (sacks : List Sack) (k : ℕ) : Prop :=
  ∃ sack ∈ sacks, BitOf (sackBits sack.bitfield) ((ackNr + 2) % 65536) s.seqNr k

/-- A packet is acknowledged by `ack_nr` or by a selective ack. -/
def Acked (s : Sender) (ackNr : ℕ) (sacks : List Sack) (k : ℕ) : Prop :=
  s.AckedByNr ackNr k ∨ s.AckedBySack ackNr sacks k

/-- The first phase removes the packets up to `ack_nr`. -/
theorem ackNr_eq_none_iff (rtt : ℕ → ℕ) (ackNr : ℕ) (s : Sender) :
    (ackNrTally rtt ackNr s).1.outbuf k = none ↔ s.outbuf k = none ∨ s.AckedByNr ackNr k := by
  rw [ackNrTally, AckedByNr]
  generalize sub32 ackNr s.ackedSeqNr &&& 0xffff = n
  split
  next hless =>
    rw [settle_outbuf, and_ffff, ackLoop_eq_none_iff (Nat.mod_lt _ (by decide)), and_iff_right hless]
  next hless => exact ⟨.inl, fun h => h.elim id fun h => absurd h.1 hless⟩

/-- A selective ack removes the packets of its bits. -/
theorem parseSack_eq_none_iff {sack : Sack} (ackNr : ℕ) (hf : ∀ k p, s.outbuf k = some p → p.SackFits) :
    (parseSackTally rtt ackNr s sack).1.outbuf k = none ↔
      s.outbuf k = none ∨ BitOf (sackBits sack.bitfield) ((ackNr + 2) % 65536) s.seqNr k := by
  have hlt : (ackNr + 2) % 65536 < 65536 := Nat.mod_lt _ (by decide)
  rw [parseSackTally]
  split
  next hempty =>
    rw [hempty]
    exact ⟨.inl, fun h => h.elim id fun ⟨i, hi, _⟩ => by cases hi⟩
  next =>
    rw [and_ffff, ← @sackLoop_eq_none_iff s k _ rtt {} _ hlt]
    have hloop : Counts rtt s {} (sackLoopTally rtt (sackBits sack.bitfield) ((ackNr + 2) % 65536) s {}) :=
      counts_sackLoop hlt Tally.minRtt_empty_le
    obtain ⟨hres, hnone⟩ := shrinks_fastResends sack.resends (hloop.shrinks.fits hf)
    exact ⟨hnone k, fun h => by_contra fun hc => (hres.payload k hc).1 h⟩

/-! ### All acknowledgements of a packet -/

/-- It removes packets and adds none. -/
theorem shrinks_parseSack (rtt : ℕ → ℕ) (ackNr : ℕ) (sack : Sack) (hf : ∀ k p, s.outbuf k = some p → p.SackFits) :
    Shrinks s (parseSackTally rtt ackNr s sack).1 := by
  by_cases hempty : sack.bitfield = []
  · rw [parseSackTally, if_pos hempty]
    exact .refl s
  · exact (counts_parseSack ackNr hf hempty).shrinks

/-- What the selective acks that have been taken so far leave. -/
structure Taken (rtt : ℕ → ℕ) (ackNr : ℕ) (s : Sender) (sacks : List Sack) (r : Sender × Tally) : Prop where
  shrinks : Shrinks s r.1
  removed : ∀ k, r.1.outbuf k = none ↔ s.outbuf k = none ∨ s.Acked ackNr sacks k
  minRtt : r.2.minRtt = if ∃ sack ∈ sacks, sack.bitfield = [] then 0 else (between rtt s r.1).minRtt

/-- There is no selective ack. -/
theorem taken_nil (rtt : ℕ → ℕ) (ackNr : ℕ) (s : Sender) : Taken rtt ackNr s [] (ackNrTally rtt ackNr s) where
  shrinks := (counts_ackNr rtt ackNr s).shrinks
  removed k := by
    rw [ackNr_eq_none_iff, Acked, AckedBySack]
    simp
  minRtt := by
    rw [(counts_ackNr rtt ackNr s).tally, Tally.empty_merge (minRtt_between_le ..), if_neg (by simp)]

/-- The next selective ack. The bytes are those that it alone has removed. -/
theorem Taken.take {ackNr : ℕ} {sacks : List Sack} (h : Taken rtt ackNr s sacks r) (sack : Sack)
    (hf : ∀ k p, s.outbuf k = some p → p.SackFits) :
    Taken rtt ackNr s (sacks ++ [sack]) (takeSack rtt ackNr r sack) ∧
      (takeSack rtt ackNr r sack).2.ackedBytes + (between rtt s r.1).ackedBytes =
        (between rtt s (takeSack rtt ackNr r sack).1).ackedBytes := by
  have hf' := h.shrinks.fits hf
  have hshr := shrinks_parseSack rtt ackNr sack hf'
  have hsplit := between_trans rtt h.shrinks hshr
  have hnone : ∀ k, (takeSack rtt ackNr r sack).1.outbuf k = none ↔
      s.outbuf k = none ∨ s.Acked ackNr (sacks ++ [sack]) k := by
    intro k
    rw [takeSack, parseSack_eq_none_iff ackNr hf', h.removed, h.shrinks.seqNr, Acked, Acked, AckedBySack, AckedBySack]
    simp only [List.mem_append, List.mem_singleton, or_and_right, exists_or, exists_eq_left, or_assoc]
  by_cases hempty : sack.bitfield = []
  · have hsame : parseSackTally rtt ackNr r.1 sack = (r.1, ⟨0, 0⟩) := by rw [parseSackTally, if_pos hempty]
    refine ⟨⟨h.shrinks.trans hshr, hnone, ?_⟩, ?_⟩
    · rw [if_pos ⟨sack, List.mem_append_right _ (List.mem_singleton_self _), hempty⟩, takeSack, hsame]
      exact min_eq_right (Nat.zero_le _)
    · rw [takeSack, hsame]
      exact Nat.zero_add _
  · have hcount : Counts rtt r.1 {} (parseSackTally rtt ackNr r.1 sack) := counts_parseSack ackNr hf' hempty
    have htally : (parseSackTally rtt ackNr r.1 sack).2 = between rtt r.1 (parseSackTally rtt ackNr r.1 sack).1 :=
      hcount.tally.trans (Tally.empty_merge (minRtt_between_le ..))
    refine ⟨⟨h.shrinks.trans hshr, hnone, ?_⟩, ?_⟩
    · have hiff : (∃ q ∈ sacks ++ [sack], q.bitfield = []) ↔ ∃ q ∈ sacks, q.bitfield = [] := by
        simp only [List.mem_append, List.mem_singleton, or_and_right, exists_or, exists_eq_left, hempty, or_false]
      rw [takeSack, htally, h.minRtt, hsplit, Tally.merge, if_congr hiff rfl rfl]
      split
      · exact min_eq_left (Nat.zero_le _)
      · rfl
    · rw [takeSack, htally, hsplit, Tally.merge, Nat.add_comm]

/-- The selective acks are taken one after the other. -/
theorem taken_foldl (rtt : ℕ → ℕ) (ackNr : ℕ) (sacks : List Sack) (hf : ∀ k p, s.outbuf k = some p → p.SackFits) :
    Taken rtt ackNr s sacks (incomingTally rtt ackNr sacks s) := by
  rw [incomingTally]
  induction sacks using List.reverseRecOn with
  | nil =>
    rw [List.foldl_nil]
    exact taken_nil rtt ackNr s
  | append_singleton sacks sack ih =>
    rw [List.foldl_append, List.foldl_cons, List.foldl_nil]
    exact (ih.take sack hf).1

/-- No bytes are counted if no packet with payload is acknowledged. -/
theorem Taken.ackedBytes_eq_zero_iff {ackNr : ℕ} {sacks : List Sack} (h : Taken rtt ackNr s sacks r) :
    (between rtt s r.1).ackedBytes = 0 ↔ ∀ k, payloadAt s k ≠ 0 → ¬ s.Acked ackNr sacks k := by
  have hlt : ∀ k, s.Acked ackNr sacks k → k < 65536 := by
    rintro k (⟨-, i, -, rfl⟩ | ⟨q, -, i, -, rfl, -⟩) <;> exact Nat.mod_lt _ (by decide)
  have hsome : ∀ k, payloadAt s k ≠ 0 → s.outbuf k ≠ none := fun k hpay hk => hpay (by rw [payloadAt, hk]; rfl)
  rw [between, Finset.sum_eq_zero_iff]
  constructor
  · intro hzero k hpay hacked
    exact hpay (hzero k (mem_removed.mpr ⟨hlt k hacked, hsome k hpay, (h.removed k).mpr (.inr hacked)⟩))
  · intro hnot k hk
    obtain ⟨-, hs, hr⟩ := mem_removed.mp hk
    by_contra hpay
    exact hnot k hpay (((h.removed k).mp hr).resolve_left hs)

/-- The round trip time is zero if that of an acknowledged packet is. -/
theorem Taken.minRtt_eq_zero_iff {ackNr : ℕ} {sacks : List Sack} (h : Taken rtt ackNr s sacks r) :
    (between rtt s r.1).minRtt = 0 ↔ ∃ k, s.outbuf k ≠ none ∧ s.Acked ackNr sacks k ∧ rtt k = 0 := by
  have hlt : ∀ k, s.Acked ackNr sacks k → k < 65536 := by
    rintro k (⟨-, i, -, rfl⟩ | ⟨q, -, i, -, rfl, -⟩) <;> exact Nat.mod_lt _ (by decide)
  rw [between, ← Nat.le_zero, Finset.fold_min_le]
  constructor
  · rintro (hc | ⟨k, hk, hz⟩)
    · exact absurd hc (by decide)
    · obtain ⟨-, hs, hr⟩ := mem_removed.mp hk
      exact ⟨k, hs, ((h.removed k).mp hr).resolve_left hs, Nat.le_zero.mp hz⟩
  · rintro ⟨k, hs, hacked, hz⟩
    exact .inr ⟨k, mem_removed.mpr ⟨hlt k hacked, hs, (h.removed k).mpr (.inr hacked)⟩, hz.le⟩

/-- A count that has lost bytes is right if it has lost none. -/
theorem Tally.eq_iff {t u : Tally} {lost : ℕ} (h : t.ackedBytes + lost = u.ackedBytes) :
    t = u ↔ lost = 0 ∧ t.minRtt = u.minRtt := by
  constructor
  · rintro rfl
    exact ⟨by omega, rfl⟩
  · rintro ⟨h0, hm⟩
    exact Tally.ext (by omega) hm

/-- Too few bytes are noticed, unless nothing is to be noticed. -/
theorem ledbatArgs_eq_iff {sample : ℕ} {b : ℤ} {t u : Tally} (h : t.ackedBytes ≤ u.ackedBytes) :
    ledbatArgs sample b t = ledbatArgs sample b u ↔ sample = 0 ∨ b = 0 ∨ u.ackedBytes = 0 ∨ t = u := by
  rw [ledbatArgs, ledbatArgs]
  by_cases hs : sample = 0
  · exact iff_of_true (by simp [hs]) (.inl hs)
  by_cases hb : b = 0
  · exact iff_of_true (by simp [hb]) (.inr (.inl hb))
  rw [or_iff_right hs, or_iff_right hb]
  by_cases hu : u.ackedBytes = 0
  · have ht : t.ackedBytes = 0 := by omega
    exact iff_of_true (by simp [hu, ht]) (.inl hu)
  · rw [or_iff_right hu, if_pos (c := sample ≠ 0 ∧ u.ackedBytes ≠ 0 ∧ b ≠ 0) ⟨hs, hu, hb⟩]
    constructor
    · intro heq
      split at heq
      · exact Option.some.inj heq
      · cases heq
    · rintro rfl
      rw [if_pos ⟨hs, hu, hb⟩]

/-- Three packets of a hundred bytes are in flight. -/
def threeSent : Sender where
  state := .connected
  seqNr := 4
  ackedSeqNr := 0
  outbuf k := if 1 ≤ k ∧ k ≤ 3 then some { type := .data, seqNr := k, body := List.replicate 100 0, size := 120 } else none
  bytesInFlight := 300

/-- The packets of the example have no selective ack. -/
theorem threeSent_fits (k : ℕ) (p : OutPacket) (hp : threeSent.outbuf k = some p) : p.SackFits := by
  change (if 1 ≤ k ∧ k ≤ 3 then _ else none) = some p at hp
  split at hp
  · rw [← Option.some.inj hp]
    exact ⟨Nat.le_of_ble_eq_true rfl, fun hc => absurd hc (show noExtension ≠ sackExtension by decide)⟩
  · cases hp

/-- One packet acknowledges the number 1, and the number 3 selectively. The bytes of the first one are lost. -/
theorem ledbatArgs_not_incoming :
    ¬ ∀ (rtt : ℕ → ℕ) (sample ackNr : ℕ) (sacks : List Sack) (s : Sender),
      (∀ k p, s.outbuf k = some p → p.SackFits) →
      ledbatArgs sample s.bytesInFlight (incomingTally rtt ackNr sacks s).2 =
        ledbatArgs sample s.bytesInFlight (between rtt s (incomingTally rtt ackNr sacks s).1) := by
  intro hclaim
  have heq := hclaim (fun _ => 50000) 1 1 [⟨[1], []⟩] threeSent threeSent_fits
  have hbytes := ((taken_nil (fun _ => 50000) 1 threeSent).take ⟨[1], []⟩ threeSent_fits).2
  have hfirst : (between (fun _ => 50000) threeSent (ackNrTally (fun _ => 50000) 1 threeSent).1).ackedBytes = 100 := by
    have htally := (counts_ackNr (fun _ => 50000) 1 threeSent).tally
    rw [Tally.empty_merge (minRtt_between_le ..)] at htally
    rw [← htally]
    decide +kernel
  rw [incomingTally, List.foldl_cons, List.foldl_nil] at heq
  generalize takeSack (fun _ => 50000) 1 (ackNrTally (fun _ => 50000) 1 threeSent) ⟨[1], []⟩ = r at heq hbytes
  obtain hc | hc | hc | hc := (ledbatArgs_eq_iff (by omega)).mp heq
  · cases hc
  · cases hc
  · omega
  · rw [← hc] at hbytes
    omega

/-- Congestion control sees what a packet acknowledges if and only if there is nothing to see, or nothing with payload
is acknowledged in front of the last selective ack and no selective ack is empty (or a round trip time is zero). -/
theorem ledbatArgs_incoming_iff (rtt : ℕ → ℕ) (sample ackNr : ℕ) (sacks : List Sack) (s : Sender)
    (hf : ∀ k p, s.outbuf k = some p → p.SackFits) :
    ledbatArgs sample s.bytesInFlight (incomingTally rtt ackNr sacks s).2 =
        ledbatArgs sample s.bytesInFlight (between rtt s (incomingTally rtt ackNr sacks s).1) ↔
      sample = 0 ∨ s.bytesInFlight = 0 ∨ (∀ k, payloadAt s k ≠ 0 → ¬ s.Acked ackNr sacks k) ∨
        (sacks = [] ∨ ∀ k, payloadAt s k ≠ 0 → ¬ s.Acked ackNr sacks.dropLast k) ∧
          ((∀ sack ∈ sacks, sack.bitfield ≠ []) ∨ ∃ k, s.outbuf k ≠ none ∧ s.Acked ackNr sacks k ∧ rtt k = 0) := by
  have htaken := taken_foldl rtt ackNr sacks hf
  -- the bytes in front of the last selective ack are lost
  obtain ⟨lost, hlost, hzero⟩ : ∃ lost, (incomingTally rtt ackNr sacks s).2.ackedBytes + lost =
      (between rtt s (incomingTally rtt ackNr sacks s).1).ackedBytes ∧
        (lost = 0 ↔ sacks = [] ∨ ∀ k, payloadAt s k ≠ 0 → ¬ s.Acked ackNr sacks.dropLast k) := by
    obtain rfl | ⟨init, last, rfl⟩ := sacks.eq_nil_or_concat
    · refine ⟨0, ?_, iff_of_true rfl (.inl rfl)⟩
      rw [incomingTally, List.foldl_nil, (counts_ackNr rtt ackNr s).tally, Tally.empty_merge (minRtt_between_le ..),
        Nat.add_zero]
    · have hinit := taken_foldl rtt ackNr init hf
      refine ⟨_, ?_, hinit.ackedBytes_eq_zero_iff.trans ?_⟩
      · have hlast := (hinit.take last hf).2
        rwa [incomingTally, List.concat_eq_append, List.foldl_append, List.foldl_cons, List.foldl_nil]
      · rw [List.concat_eq_append, List.dropLast_concat, or_iff_right (by simp)]
  have hmin : (incomingTally rtt ackNr sacks s).2.minRtt =
      (between rtt s (incomingTally rtt ackNr sacks s).1).minRtt ↔ (∀ sack ∈ sacks, sack.bitfield ≠ []) ∨
        ∃ k, s.outbuf k ≠ none ∧ s.Acked ackNr sacks k ∧ rtt k = 0 := by
    rw [htaken.minRtt, ← htaken.minRtt_eq_zero_iff]
    split
    next hex =>
      obtain ⟨q, hq, hempty⟩ := hex
      rw [or_iff_right fun hall => hall q hq hempty]
      exact eq_comm
    next hex => exact iff_of_true rfl (.inl fun q hq hempty => hex ⟨q, hq, hempty⟩)
  rw [ledbatArgs_eq_iff (by omega), htaken.ackedBytes_eq_zero_iff, ← hzero, ← hmin]
  rw [Tally.eq_iff hlost]

/-- Only the number 3 is acknowledged. -/
theorem ledbatArgs_incoming_iff_selective :
    ledbatArgs 1 threeSent.bytesInFlight (incomingTally (fun _ => 50000) 0 [⟨[2], []⟩] threeSent).2 =
        ledbatArgs 1 threeSent.bytesInFlight
          (between (fun _ => 50000) threeSent (incomingTally (fun _ => 50000) 0 [⟨[2], []⟩] threeSent).1) ↔
      1 = 0 ∨ threeSent.bytesInFlight = 0 ∨ (∀ k, payloadAt threeSent k ≠ 0 → ¬ threeSent.Acked 0 [⟨[2], []⟩] k) ∨
        ([⟨[2], []⟩] = ([] : List Sack) ∨ ∀ k, payloadAt threeSent k ≠ 0 → ¬ threeSent.Acked 0 [] k) ∧
          ((∀ sack ∈ ([⟨[2], []⟩] : List Sack), sack.bitfield ≠ []) ∨
            ∃ k, threeSent.outbuf k ≠ none ∧ threeSent.Acked 0 [⟨[2], []⟩] k ∧ (fun _ => 50000) k = 0) :=
  ledbatArgs_incoming_iff (fun _ => 50000) 1 0 [⟨[2], []⟩] threeSent threeSent_fits

end Sender

end Utp

end LibtorrentSN
