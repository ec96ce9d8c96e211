import LibtorrentSN.Picker.Invariants

/-!
# The swarm

The picker counts how many peers have each piece, but it does not know the peers: it relies
on being told of every change. Here are the peers, with what each of them has announced, and
the calls that torrent and peer connections make when a peer joins, announces or withdraws
pieces and leaves. All other calls of the picker may happen in between.

The counters then are what they should be: the availability of a piece is the number of peers
that have it, and no counter is ever counted down below zero.
-/

namespace LibtorrentSN

namespace PiecePicker

open PickerCore

variable {s s' : PiecePicker} {p q : ℕ} {l : List ℕ} {bitmask : List Bool}

/-! ## Availability -/

/-- Counting one piece after the other, in steps that change the availability of one piece. -/
theorem foldl_availability {f : PiecePicker → ℕ → PiecePicker} {n : ℤ}
    (hn : ∀ s p, (f s p).numPieces = s.numPieces)
    (hf : ∀ {s p q}, p < s.numPieces → q < s.numPieces →
      (f s p).getAvailability q = s.getAvailability q + if q = p then n else 0)
    (hnd : l.Nodup) (hl : ∀ p ∈ l, p < s.numPieces) (hq : q < s.numPieces) :
    (l.foldl f s).getAvailability q = s.getAvailability q + if q ∈ l then n else 0 := by
  induction l generalizing s with
  | nil => simp
  | cons p l ih =>
    obtain ⟨hpl, hnd⟩ := List.nodup_cons.mp hnd
    have hp := hl p List.mem_cons_self
    have := ih (s := f s p) hnd (fun q hq => by rw [hn]; exact hl q (List.mem_cons_of_mem p hq))
      (by rwa [hn])
    rw [List.foldl_cons, this, hf hp hq]
    by_cases hqp : q = p
    · subst hqp
      simp [hpl]
    · simp [hqp]

theorem incRefcount_availability (hp : p < s.numPieces) (y : ℕ) :
    (s.incRefcount p).getAvailability y = s.getAvailability y + if y = p then 1 else 0 := by
  rw [incRefcount, (reposition_peers _ _ p).availability, addPeers_availability s hp]

theorem decRefcount_availability (hp : p < s.numPieces) (hq : q < s.numPieces) :
    (s.decRefcount p).getAvailability q = s.getAvailability q + if q = p then -1 else 0 := by
  rw [(decRefcount_peers s p).availability, countDown_availability hp hq]
  split_ifs <;> omega

/-- The bits of a bitmask, as a number. -/
theorem ite_mem_setPieces (n : ℤ) : (if q ∈ setPieces bitmask then n else 0) =
    if bitmask.getD q false = true then n else 0 := by
  simp only [mem_setPieces]

theorem incRefcountBitmask_availability (hlen : bitmask.length = s.numPieces)
    (hq : q < s.numPieces) : (s.incRefcountBitmask bitmask).getAvailability q =
      s.getAvailability q + if bitmask.getD q false = true then 1 else 0 := by
  have hlt : ∀ p ∈ setPieces bitmask, p < s.numPieces := fun p hp => hlen ▸ lt_of_mem_setPieces hp
  have hnd := setPieces_nodup bitmask
  rw [← ite_mem_setPieces, incRefcountBitmask]
  dsimp only
  by_cases h₁ : setPieces bitmask = []
  · rw [if_pos h₁, h₁, if_neg List.not_mem_nil, Int.add_zero]
  rw [if_neg h₁]
  by_cases h₂ : bitmask.all id = true ∧ bitmask.length = s.numPieces
  · rw [if_pos h₂, if_pos (mem_setPieces_of_all h₂.1 (by omega)), incRefcountAll_availability]
  rw [if_neg h₂]
  by_cases h₃ : s.dirty = false ∧ (setPieces bitmask).length < incrementalSize bitmask
  · rw [if_pos h₃]
    exact foldl_availability (fun s p => (incRefcount_recounts s p).numPieces)
      (fun hp _ => incRefcount_availability hp _) hnd hlt hq
  · rw [if_neg h₃]
    exact foldl_availability (f := fun s p => s.addPeers p 1) (fun s p => addPeers_numPieces s p 1)
      (fun hp _ => addPeers_availability _ hp 1 _) hnd hlt hq

theorem decRefcountBitmask_availability (hlen : bitmask.length = s.numPieces)
    (hq : q < s.numPieces) : (s.decRefcountBitmask bitmask).getAvailability q =
      s.getAvailability q + if bitmask.getD q false = true then -1 else 0 := by
  have hlt : ∀ p ∈ setPieces bitmask, p < s.numPieces := fun p hp => hlen ▸ lt_of_mem_setPieces hp
  have hnd := setPieces_nodup bitmask
  rw [← ite_mem_setPieces, decRefcountBitmask]
  dsimp only
  by_cases h₁ : setPieces bitmask = []
  · rw [if_pos h₁, h₁, if_neg List.not_mem_nil, Int.add_zero]
  rw [if_neg h₁]
  by_cases h₂ : bitmask.all id = true ∧ bitmask.length = s.numPieces
  · rw [if_pos h₂, if_pos (mem_setPieces_of_all h₂.1 (by omega)), decRefcountAll_availability hq]
    rfl
  rw [if_neg h₂]
  by_cases h₃ : s.dirty = false ∧ (setPieces bitmask).length < incrementalSize bitmask
  · rw [if_pos h₃, show decOne = decRefcount from funext₂ decOne_eq]
    exact foldl_availability (fun s p => (decRefcount_recounts s p).numPieces)
      decRefcount_availability hnd hlt hq
  · rw [if_neg h₃]
    refine foldl_availability (f := countDown) countDown_numPieces (fun {s p q} hp hq => ?_)
      hnd hlt hq
    rw [countDown_availability hp hq]
    split_ifs <;> omega

/-! ### No counter is negative -/

theorem foldl_nonneg {f : PiecePicker → ℕ → PiecePicker}
    (hf : ∀ {s} p, Nonneg s → Nonneg (f s p)) (h : s.Nonneg) (l : List ℕ) :
    (l.foldl f s).Nonneg := by
  induction l generalizing s with
  | nil => exact h
  | cons p l ih => exact ih (hf p h)

theorem incRefcount_nonneg (p : ℕ) (h : s.Nonneg) : (s.incRefcount p).Nonneg :=
  (reposition_peers _ _ p).nonneg (addPeers_one_nonneg h p)

theorem incRefcountAll_nonneg (h : s.Nonneg) : s.incRefcountAll.Nonneg :=
  ⟨h.1, Int.le_add_one h.2⟩

theorem incRefcountBitmask_nonneg (h : s.Nonneg) (bitmask : List Bool) :
    (s.incRefcountBitmask bitmask).Nonneg := by
  rw [incRefcountBitmask]
  dsimp only
  split_ifs
  · exact h
  · exact incRefcountAll_nonneg h
  · exact foldl_nonneg incRefcount_nonneg h _
  · exact foldl_nonneg (f := fun s p => s.addPeers p 1) (fun p h => addPeers_one_nonneg h p) h _

theorem decRefcountBitmask_nonneg (h : s.Nonneg) (ha : s.asserts (.decRefcountBitmask bitmask)) :
    (s.decRefcountBitmask bitmask).Nonneg := by
  obtain ⟨hlen, hc⟩ := ha
  have hc' : ∀ p ∈ setPieces bitmask, p < s.numPieces ∧ s.countable p := fun p hp =>
    ⟨Nat.lt_of_lt_of_le (lt_of_mem_setPieces hp) hlen, hc p hp⟩
  have hnd := setPieces_nodup bitmask
  rw [decRefcountBitmask]
  dsimp only
  split_ifs with h₁ h₂ h₃
  · exact h
  · exact decRefcountAll_nonneg h fun p hp => hc p (mem_setPieces_of_all h₂.1 (by omega))
  · exact (countDowns_safe (r := []) decOne_peers h (by rwa [List.append_nil])
      (by rwa [List.append_nil])).1
  · exact countDowns_nonneg h hnd hc'

/-! ### Other calls -/

/-- The call is not about peers, and does not start over. -/
def quiet : Op → Prop
  | .incRefcountAll | .decRefcountAll | .incRefcount _ | .decRefcount _
  | .incRefcountBitmask _ | .decRefcountBitmask _ | .resize => False
  | _ => True

theorem weHave_peers (hb : s.Buckets) (hp : p < s.numPieces) : SamePeers s (s.weHave p) := by
  by_cases hh : s.havePiece p
  · rw [weHave, if_pos hh]
    exact .refl s
  · exact (weHave_gains hb hp hh).toSamePeers

theorem MayGain.peers (h : MayGain s s' p) (hp : p < s.numPieces) : SamePeers s s' := by
  obtain ⟨t, hk, hb, rfl | rfl⟩ := h
  · exact hk.toSamePeers
  · exact hk.toSamePeers.trans (weHave_peers hb (by rwa [hk.numPieces]))

theorem weHaveAll_peers (s : PiecePicker) : SamePeers s s.weHaveAll := by
  refine ⟨⟨rfl, rfl⟩, List.length_map _, fun y => ?_, rfl⟩
  simp only [PickerCore.pos, weHaveAll, List.getD_eq_getElem?_getD, List.getElem?_map]
  rcases s.pieceMap[y]? with - | pos <;> rfl

/-- Such a call changes no counter, whether or not it keeps the list. -/
theorem apply_peers (h : s.Book True) {op : Op} (ha : s.asserts op) (hq : quiet op) :
    SamePeers s (s.apply op) := by
  cases op with
  | weHave p => exact weHave_peers h.buckets ha.1
  | weDontHave p =>
    by_cases hh : s.havePiece p
    · exact (weDontHave_loses ha hh).toSamePeers
    · exact (weDontHave_drop h.buckets hh).1
  | weHaveAll => exact weHaveAll_peers s
  | setPiecePriority p n => exact (setPiecePriority_reprioritizes h.buckets ha.1 ha.2).toSamePeers
  | markAsDownloading p b peer reverse affinity => exact (markAsDownloading_keeps h ha).toSamePeers
  | markAsWriting p b peer => exact (markAsWriting_keeps h ha).toSamePeers
  | markAsFinished p b peer => exact (markAsFinished_mayGain h ha).peers ha.1.1
  | markAsCanceled p b peer =>
    obtain ⟨n, hk, -⟩ := markAsCanceled_keeps h ha
    exact hk.toSamePeers
  | writeFailed p b => exact (writeFailed_keeps h ha).toSamePeers
  | lockPiece p => exact (lockPiece_keeps h.buckets p).toSamePeers
  | restorePiece p blocks =>
    obtain ⟨n, hp, -⟩ := restorePiece_spec h ha
    exact hp
  | abortDownload p b peer =>
    obtain ⟨n, hk, -⟩ := abortDownload_keeps h ha
    exact hk.toSamePeers
  | piecePassed p => exact (piecePassed_mayGain h.buckets ha).peers ha.1
  | startedHashJob | completedHashJob | clearPeer => exact ⟨⟨rfl, rfl⟩, rfl, fun _ => rfl, rfl⟩
  | setPadBytes p bytes => exact (setPadBytes_mayGain h.buckets p bytes).peers ha.1
  | pickPieces a => exact (s.pickPieces_effect a).keeps.toSamePeers
  | incRefcountAll | decRefcountAll | incRefcount | decRefcount | incRefcountBitmask
  | decRefcountBitmask | resize => exact hq.elim

end PiecePicker

/-! ## Peers -/

/-- The picker, and the pieces each peer has announced. -/
structure Swarm where
  picker : PiecePicker
  peers : List (List Bool)

/-- What can happen in a swarm. Peers are numbered in the order they joined. -/
inductive SwarmOp where
  | join
  | bitfield (i : ℕ) (bits : List Bool)
  | haveAll (i : ℕ)
  | incomingHave (i p : ℕ)
  | incomingDontHave (i p : ℕ)
  | leave (i : ℕ)
  /-- a call of the picker that is not about peers -/
  | other (op : Op)

namespace Swarm

open PiecePicker

variable (w : Swarm)

/-- The pieces of the peer `i`. -/
def bits (i : ℕ) : List Bool := w.peers.getD i []

/-- The calls of the picker. A seed that leaves is told apart from other peers. -/
def apply : SwarmOp → Swarm
  | .join => { w with peers := w.peers ++ [List.replicate w.picker.numPieces false] }
  | .bitfield i bits => ⟨w.picker.incRefcountBitmask bits, w.peers.set i bits⟩
  | .haveAll i => ⟨w.picker.incRefcountAll, w.peers.set i (List.replicate w.picker.numPieces true)⟩
  | .incomingHave i p => ⟨w.picker.incRefcount p, w.peers.set i ((w.bits i).set p true)⟩
  | .incomingDontHave i p => ⟨w.picker.decRefcount p, w.peers.set i ((w.bits i).set p false)⟩
  | .leave i =>
    ⟨if (w.bits i).all id then w.picker.decRefcountAll
      else w.picker.decRefcountBitmask (w.bits i), w.peers.eraseIdx i⟩
  | .other op => { w with picker := w.picker.apply op }

/-- Peers announce pieces they have not announced, and withdraw pieces they have. -/
def allowed : SwarmOp → Prop
  | .join => True
  | .bitfield i bits => i < w.peers.length ∧ bits.length = w.picker.numPieces ∧
    ∀ b ∈ w.bits i, b = false
  | .haveAll i => i < w.peers.length ∧ ∀ b ∈ w.bits i, b = false
  | .incomingHave i p => i < w.peers.length ∧ p < w.picker.numPieces ∧
    (w.bits i).getD p false = false
  | .incomingDontHave i p => i < w.peers.length ∧ (w.bits i).getD p false = true
  | .leave i => i < w.peers.length
  | .other op => quiet op ∧ w.picker.asserts op

/-- The swarms that come about from a new picker without peers. -/
inductive Reach : Swarm → Prop
  | create {totalSize pieceSize : ℕ} {rng : List ℕ} {s : PiecePicker} (ht : 0 < totalSize)
      (hp : 0 < pieceSize) (h : PiecePicker.create totalSize pieceSize rng = some s) :
      Reach ⟨s, []⟩
  | step {w : Swarm} (h : Reach w) (op : SwarmOp) (ha : w.allowed op) : Reach (w.apply op)

/-- The number of peers that have the piece `p`. -/
def holders (p : ℕ) : ℕ := w.peers.countP fun bits => bits.getD p false

/-- The picker counts the peers. -/
structure Counted (w : Swarm) : Prop where
  reach : LibtorrentSN.Reach anyCall w.picker
  length : ∀ bits ∈ w.peers, bits.length = w.picker.numPieces
  availability : ∀ p < w.picker.numPieces, w.picker.getAvailability p = w.holders p
  nonneg : w.picker.Nonneg

variable {w} {i p : ℕ} {bits : List Bool}

theorem bits_mem (hi : i < w.peers.length) : w.bits i ∈ w.peers := by
  rw [Swarm.bits, List.getD_eq_getElem _ _ hi]
  exact List.getElem_mem hi

/-- A peer has other pieces than before. -/
theorem holders_set (hi : i < w.peers.length) (s : PiecePicker) (bits : List Bool) (p : ℕ) :
    ((Swarm.mk s (w.peers.set i bits)).holders p : ℤ) = w.holders p +
      (if bits.getD p false = true then 1 else 0) -
      (if (w.bits i).getD p false = true then 1 else 0) := by
  have hperm := List.set_perm_cons_eraseIdx hi bits
  have hold := List.getElem_cons_eraseIdx_perm hi
  rw [holders, holders, Swarm.bits, hperm.countP_eq, ← hold.countP_eq, List.countP_cons,
    List.countP_cons, List.getD_eq_getElem _ _ hi]
  split_ifs <;> push_cast <;> omega

/-- A peer is gone. -/
theorem holders_eraseIdx (hi : i < w.peers.length) (s : PiecePicker) (p : ℕ) :
    ((Swarm.mk s (w.peers.eraseIdx i)).holders p : ℤ) = w.holders p -
      (if (w.bits i).getD p false = true then 1 else 0) := by
  have hold := List.getElem_cons_eraseIdx_perm hi
  rw [holders, holders, Swarm.bits, ← hold.countP_eq, List.countP_cons,
    List.getD_eq_getElem _ _ hi]
  split_ifs <;> push_cast <;> omega

theorem Counted.lt_of_bit (h : w.Counted) (hm : bits ∈ w.peers) (hb : bits.getD p false = true) :
    p < w.picker.numPieces := by
  rw [← h.length bits hm]
  exact lt_of_mem_setPieces (mem_setPieces.mpr hb)

/-- A piece that somebody has can be counted down. -/
theorem Counted.countable (h : w.Counted) (hm : bits ∈ w.peers) (hb : bits.getD p false = true) :
    w.picker.countable p := by
  intro h0
  have hpos : 0 < w.holders p := List.countP_pos_iff.mpr ⟨bits, hm, hb⟩
  have havail := h.availability p (h.lt_of_bit hm hb)
  rw [getAvailability, h0] at havail
  omega

/-- If somebody has all pieces, all of them can be counted down. -/
theorem Counted.countable_all (h : w.Counted) (hm : bits ∈ w.peers) (hall : bits.all id = true)
    (hp : p < w.picker.numPieces) : w.picker.countable p := by
  refine h.countable hm (mem_setPieces.mp (mem_setPieces_of_all hall ?_))
  rwa [h.length bits hm]

theorem Counted.asserts_bitmask (h : w.Counted) (hm : bits ∈ w.peers) :
    w.picker.asserts (.decRefcountBitmask bits) :=
  ⟨Nat.le_of_eq (h.length bits hm), fun _ hp => h.countable hm (mem_setPieces.mp hp)⟩

theorem getD_of_all_false (h : ∀ b ∈ bits, b = false) : bits.getD p false = false := by
  rw [List.getD_eq_getElem?_getD]
  rcases hb : bits[p]? with - | b
  · rfl
  · exact h b (List.mem_of_getElem? hb)

theorem getD_set (hp : p < bits.length) (b : Bool) (q : ℕ) :
    (bits.set p b).getD q false = if q = p then b else bits.getD q false := by
  rw [List.getD_eq_getElem?_getD, List.getD_eq_getElem?_getD, List.getElem?_set]
  by_cases hq : q = p
  · rw [if_pos hq, if_pos hq.symm, if_pos hp]
    rfl
  · rw [if_neg hq, if_neg (Ne.symm hq)]

/-- A peer gets other pieces, and the picker counts the difference. -/
theorem Counted.set (h : w.Counted) (hi : i < w.peers.length) (op : Op) (ha : w.picker.asserts op)
    (hn : (w.picker.apply op).numPieces = w.picker.numPieces)
    (hlen : bits.length = w.picker.numPieces) (hnn : (w.picker.apply op).Nonneg)
    (hav : ∀ p < w.picker.numPieces, (w.picker.apply op).getAvailability p =
      w.picker.getAvailability p + (if bits.getD p false = true then 1 else 0) -
        (if (w.bits i).getD p false = true then 1 else 0)) :
    (Swarm.mk (w.picker.apply op) (w.peers.set i bits)).Counted := by
  refine ⟨.step h.reach ha trivial, fun b hb => ?_, fun p hp => ?_, hnn⟩
  · rcases List.mem_or_eq_of_mem_set hb with hb | rfl
    · exact (h.length b hb).trans hn.symm
    · exact hlen.trans hn.symm
  · rw [hn] at hp
    rw [holders_set hi, hav p hp, h.availability p hp]

/-- A peer leaves, and the picker counts its pieces down. -/
theorem Counted.eraseIdx (h : w.Counted) (hi : i < w.peers.length) (op : Op)
    (ha : w.picker.asserts op) (hn : (w.picker.apply op).numPieces = w.picker.numPieces)
    (hnn : (w.picker.apply op).Nonneg)
    (hav : ∀ p < w.picker.numPieces, (w.picker.apply op).getAvailability p =
      w.picker.getAvailability p - (if (w.bits i).getD p false = true then 1 else 0)) :
    (Swarm.mk (w.picker.apply op) (w.peers.eraseIdx i)).Counted := by
  refine ⟨.step h.reach ha trivial, fun b hb => ?_, fun p hp => ?_, hnn⟩
  · exact (h.length b (List.mem_of_mem_eraseIdx hb)).trans hn.symm
  · rw [hn] at hp
    rw [holders_eraseIdx hi, hav p hp, h.availability p hp]

/-- Whatever happens, the peers stay counted. -/
theorem Counted.apply (h : w.Counted) {op : SwarmOp} (ha : w.allowed op) : (w.apply op).Counted := by
  cases op with
  | join =>
    refine ⟨h.reach, fun b hb => ?_, fun p hp => ?_, h.nonneg⟩
    · rcases List.mem_append.mp hb with hb | hb
      · exact h.length b hb
      · rw [List.mem_singleton.mp hb, List.length_replicate]
        rfl
    · refine (h.availability p hp).trans ?_
      simp only [holders, Swarm.apply, List.countP_append, List.countP_singleton]
      rw [getD_of_all_false fun b hb => (List.mem_replicate.mp hb).2]
      rfl
  | bitfield i bits =>
    obtain ⟨hi, hlen, hnone⟩ := ha
    refine h.set hi (.incRefcountBitmask bits) (Nat.le_of_eq hlen)
      (incRefcountBitmask_recounts _ bits).numPieces hlen (incRefcountBitmask_nonneg h.nonneg bits)
      fun p hp => ?_
    rw [getD_of_all_false hnone, PiecePicker.apply, incRefcountBitmask_availability hlen hp]
    exact (Int.sub_zero _).symm
  | haveAll i =>
    obtain ⟨hi, hnone⟩ := ha
    refine h.set hi .incRefcountAll trivial rfl List.length_replicate
      (incRefcountAll_nonneg h.nonneg) fun p hp => ?_
    rw [getD_of_all_false hnone, PiecePicker.apply, incRefcountAll_availability,
      List.getD_eq_getElem _ _ (by rwa [List.length_replicate]), List.getElem_replicate]
    exact (Int.sub_zero _).symm
  | incomingHave i p =>
    obtain ⟨hi, hp, hnot⟩ := ha
    have hlen := h.length _ (bits_mem hi)
    refine h.set hi (.incRefcount p) hp (incRefcount_recounts _ p).numPieces
      (by rw [List.length_set, hlen]) (incRefcount_nonneg p h.nonneg) fun q hq => ?_
    rw [PiecePicker.apply, incRefcount_availability hp, getD_set (by rwa [hlen])]
    by_cases hqp : q = p
    · rw [hqp, hnot]
      simp
    · simp [hqp]
  | incomingDontHave i p =>
    obtain ⟨hi, hhas⟩ := ha
    have hm := bits_mem hi
    have hlen := h.length _ hm
    have hp := h.lt_of_bit hm hhas
    have hc := h.countable hm hhas
    refine h.set hi (.decRefcount p) ⟨hp, hc⟩ (decRefcount_recounts _ p).numPieces
      (by rw [List.length_set, hlen])
      ((decRefcount_peers _ p).nonneg (countDown_nonneg h.nonneg hp hc)) fun q hq => ?_
    rw [PiecePicker.apply, decRefcount_availability hp hq, getD_set (by rwa [hlen])]
    by_cases hqp : q = p
    · rw [hqp, hhas]
      simp
      rfl
    · simp [hqp]
  | leave i =>
    have hm := bits_mem ha
    have hlen := h.length _ hm
    rw [Swarm.apply]
    by_cases hall : (w.bits i).all id = true
    · rw [if_pos hall]
      have hc : ∀ p < w.picker.numPieces, w.picker.countable p :=
        fun p hp => h.countable_all hm hall hp
      refine h.eraseIdx ha .decRefcountAll hc (decRefcountAll_recounts _).numPieces
        (decRefcountAll_nonneg h.nonneg hc) fun p hp => ?_
      rw [PiecePicker.apply, decRefcountAll_availability hp,
        mem_setPieces.mp (mem_setPieces_of_all hall (by rwa [hlen])), if_pos rfl]
    · rw [if_neg hall]
      refine h.eraseIdx ha (.decRefcountBitmask (w.bits i)) (h.asserts_bitmask hm)
        (decRefcountBitmask_recounts _ _).numPieces
        (decRefcountBitmask_nonneg h.nonneg (h.asserts_bitmask hm)) fun p hp => ?_
      rw [PiecePicker.apply, decRefcountBitmask_availability hlen hp]
      split_ifs <;> omega
  | other op =>
    obtain ⟨hq, ha⟩ := ha
    have hsame := apply_peers h.reach.book ha hq
    refine ⟨.step h.reach ha trivial, fun b hb => ?_, fun p hp => ?_, hsame.nonneg h.nonneg⟩
    · exact (h.length b hb).trans hsame.numPieces.symm
    · exact (hsame.availability p).trans (h.availability p (by rwa [← hsame.numPieces]))

theorem counted_create {totalSize pieceSize : ℕ} {rng : List ℕ} {s : PiecePicker}
    (ht : 0 < totalSize) (hp : 0 < pieceSize)
    (h : PiecePicker.create totalSize pieceSize rng = some s) : (Swarm.mk s []).Counted := by
  obtain ⟨s₀, hr, -, hseeds, -, -⟩ := create_eq h
  have hzero : ∀ p, s.getAvailability p = 0 := by
    intro p
    rw [getAvailability, (hr.pos p).1, hr.seeds, hseeds]
    rfl
  exact ⟨.create ht hp h, fun b hb => absurd hb List.not_mem_nil, fun p _ => hzero p,
    (create_listed h).nonneg⟩

theorem Reach.counted (h : w.Reach) : w.Counted := by
  induction h with
  | create ht hp h => exact counted_create ht hp h
  | step _ op ha ih => exact ih.apply ha

/-! ## What is counted -/

/-- The availability of a piece is the number of peers that have it, and counting down is
possible whenever it is called for: when a seed leaves, when a peer withdraws a piece, and in
every turn of the two loops of `dec_refcount(bitmask)` when a peer leaves. -/
structure Exact (w : Swarm) : Prop where
  availability : ∀ p < w.picker.numPieces, w.picker.getAvailability p = w.holders p
  peers : ∀ p, 0 ≤ (w.picker.pos p).peerCount
  seeds : 0 ≤ w.picker.seeds
  /-- `dec_refcount_all` counts every piece down only if it can -/
  seedLeaves : ∀ bits ∈ w.peers, bits.all id = true → w.picker.seeds = 0 →
    ∀ p < w.picker.numPieces, 0 < (w.picker.pos p).peerCount
  /-- `dec_refcount` breaks a seed only if there is one -/
  dontHave : ∀ bits ∈ w.peers, ∀ p, bits.getD p false = true →
    (w.picker.pos p).peerCount = 0 → 0 < w.picker.seeds
  /-- so does the loop that keeps the list up to date -/
  leaves : ∀ bits ∈ w.peers, ∀ l r p, setPieces bits = l ++ p :: r →
    (l.foldl decOne w.picker).Nonneg ∧ (l.foldl decOne w.picker).countable p
  /-- and the loop that does not -/
  leavesDirty : ∀ bits ∈ w.peers, ∀ l r p, setPieces bits = l ++ p :: r →
    (l.foldl countDown w.picker).Nonneg ∧ (l.foldl countDown w.picker).countable p

/-- A loop over the pieces of a peer. -/
theorem Counted.loop (h : w.Counted) (hm : bits ∈ w.peers)
    {f : PiecePicker → ℕ → PiecePicker} (hf : ∀ s p, SamePeers (s.countDown p) (f s p))
    {l r : List ℕ} (hset : setPieces bits = l ++ p :: r) :
    (l.foldl f w.picker).Nonneg ∧ (l.foldl f w.picker).countable p := by
  have hnd := setPieces_nodup bits
  have hc : ∀ q ∈ setPieces bits, q < w.picker.numPieces ∧ w.picker.countable q := fun q hq =>
    ⟨h.lt_of_bit hm (mem_setPieces.mp hq), h.countable hm (mem_setPieces.mp hq)⟩
  rw [hset] at hnd hc
  obtain ⟨h₁, h₂⟩ := countDowns_safe hf h.nonneg hnd hc
  exact ⟨h₁, h₂ p List.mem_cons_self⟩

/-- In every swarm that comes about, the picker counts exactly. -/
theorem availability_exact (h : w.Reach) : w.Exact := by
  have hc := h.counted
  refine ⟨hc.availability, hc.nonneg.1, hc.nonneg.2, fun bits hm hall h0 p hp => ?_,
    fun bits hm p hb => hc.countable hm hb, fun bits hm l r p hset => hc.loop hm decOne_peers hset,
    fun bits hm l r p hset => hc.loop hm (fun s p => .refl _) hset⟩
  have hpos := hc.nonneg.1 p
  have hcount := hc.countable_all hm hall hp
  by_contra hneg
  have := hcount (by omega)
  omega

/-- A seed and a peer with one of two pieces. -/
theorem availability_exact_two : ∃ w : Swarm, w.Reach ∧ w.peers = [[true, true], [true, false]] ∧
    w.picker.getAvailability 0 = 2 ∧ w.picker.getAvailability 1 = 1 ∧ w.Exact := by
  obtain ⟨s, hs, hn⟩ : ∃ s, PiecePicker.create 0x8000 0x4000 [] = some s ∧ s.numPieces = 2 :=
    ⟨_, rfl, by decide +kernel⟩
  have h₀ : (Swarm.mk s []).Reach := .create (by decide) (by decide) hs
  have h₁ := (h₀.step .join trivial).step (.haveAll 0)
    ⟨by simp [Swarm.apply], by simp [Swarm.apply, Swarm.bits]⟩
  have h₂ := (h₁.step .join trivial).step (.bitfield 1 [true, false])
    ⟨by simp [Swarm.apply], hn.symm, by simp [Swarm.apply, Swarm.bits]⟩
  have hpeers : ((((Swarm.mk s []).apply .join).apply (.haveAll 0)).apply .join |>.apply
      (.bitfield 1 [true, false])).peers = [[true, true], [true, false]] := by
    simp [Swarm.apply, hn, List.replicate]
  have hnum := h₂.counted.length [true, true] (by rw [hpeers]; exact List.mem_cons_self)
  have hexact := availability_exact h₂
  refine ⟨_, h₂, hpeers, ?_, ?_, hexact⟩
  · rw [hexact.availability 0 (by rw [← hnum]; decide), holders, hpeers]
    rfl
  · rw [hexact.availability 1 (by rw [← hnum]; decide), holders, hpeers]
    rfl

end Swarm

end LibtorrentSN
