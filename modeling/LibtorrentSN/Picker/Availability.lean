import LibtorrentSN.Picker.ListRun

/-!
# The piece picker: counting availability

The availability of a piece is the sum of two counters, one for the piece and one (for
seeds) for all pieces; a seed can be counted in either. What the operations do to the sum is
simple, and what they do to the list is one step per piece or a rebuild.
-/

namespace LibtorrentSN

namespace PiecePicker

open PickerCore

variable {s s' s'' : PiecePicker} {p q : ℕ} {n : ℤ}

/-! ## The two counters -/

/-- No counter is negative. -/
def Nonneg (s : PiecePicker) : Prop := (∀ y, 0 ≤ (s.pos y).peerCount) ∧ 0 ≤ s.seeds

/-- Count the availability of `p` down, breaking a seed if need be. -/
def countDown (s : PiecePicker) (p : ℕ) : PiecePicker := (s.breakFor p).addPeers p (-1)

/-- Only the counter of the piece is changed. -/
theorem addPeers_pos (s : PiecePicker) (p : ℕ) (n : ℤ) (y : ℕ) : (s.addPeers p n).pos y =
    if y = p ∧ p < s.numPieces then { s.pos p with peerCount := (s.pos p).peerCount + n }
    else s.pos y :=
  modifyPos_pos ..

/-- The counters of the peers of all pieces. -/
theorem addPeers_peers (s : PiecePicker) (p : ℕ) (n : ℤ) (y : ℕ) :
    ((s.addPeers p n).pos y).peerCount =
      (s.pos y).peerCount + (if y = p ∧ p < s.numPieces then n else 0) := by
  rw [addPeers_pos]
  split_ifs with h
  · rw [h.1]
  · rw [Int.add_zero]

@[simp] theorem addPeers_numPieces (s : PiecePicker) (p : ℕ) (n : ℤ) :
    (s.addPeers p n).numPieces = s.numPieces :=
  s.modifyPos_numPieces p _

/-- All pieces are counted up or down at once. -/
theorem map_peers {pieceMap : List PiecePos} {c : PickerCore} (n : ℤ)
    (hm : c.pieceMap = pieceMap.map fun pos => { pos with peerCount := pos.peerCount + n })
    {d : PickerCore} (hm₀ : d.pieceMap = pieceMap) (y : ℕ) :
    (c.pos y).peerCount = (d.pos y).peerCount + (if y < d.numPieces then n else 0) ∧
      (c.pos y).piecePriority = (d.pos y).piecePriority ∧
      (c.pos y).downloadState = (d.pos y).downloadState := by
  subst hm₀
  simp only [PickerCore.pos, PickerCore.numPieces, hm, List.getD_eq_getElem?_getD,
    List.getElem?_map]
  by_cases hy : y < d.pieceMap.length
  · simp [hy]
  · simp [hy]

@[simp] theorem breakFor_numPieces (s : PiecePicker) (p : ℕ) :
    (s.breakFor p).numPieces = s.numPieces :=
  (peersOnly_breakFor s p).1.numPieces

/-- Where a seed is broken up, all pieces get a peer. -/
theorem breakFor_peers (s : PiecePicker) (p y : ℕ) : ((s.breakFor p).pos y).peerCount =
    (s.pos y).peerCount + (if (s.pos p).peerCount = 0 ∧ y < s.numPieces then 1 else 0) := by
  rw [breakFor]
  by_cases h : (s.pos p).peerCount = 0
  · rw [if_pos h]
    simp only [h, true_and]
    exact (map_peers 1 (c := s.breakOneSeed.toPickerCore) rfl rfl y).1
  · rw [if_neg h, if_neg (fun hc => h hc.1), Int.add_zero]

/-- And there is one seed less. -/
theorem breakFor_seeds (s : PiecePicker) (p : ℕ) :
    (s.breakFor p).seeds = s.seeds - (if (s.pos p).peerCount = 0 then 1 else 0) := by
  rw [breakFor]
  split_ifs
  · rfl
  · rw [Int.sub_zero]

/-- The counters after a peer that has the piece has left. -/
theorem countDown_peers (hp : p < s.numPieces) (y : ℕ) : ((s.countDown p).pos y).peerCount =
    (s.pos y).peerCount + (if (s.pos p).peerCount = 0 ∧ y < s.numPieces then 1 else 0) -
      (if y = p then 1 else 0) := by
  rw [countDown, addPeers_peers, breakFor_peers, breakFor_numPieces]
  simp only [hp, and_true]
  split_ifs <;> omega

/-- The seeds after that. -/
theorem countDown_seeds (s : PiecePicker) (p : ℕ) : (s.countDown p).seeds =
    s.seeds - (if (s.pos p).peerCount = 0 then 1 else 0) :=
  breakFor_seeds s p

@[simp] theorem countDown_numPieces (s : PiecePicker) (p : ℕ) :
    (s.countDown p).numPieces = s.numPieces := by
  rw [countDown, addPeers_numPieces, breakFor_numPieces]

/-- A peer that leaves was counted. -/
theorem countDown_nonneg (h : s.Nonneg) (hp : p < s.numPieces) (hc : s.countable p) :
    (s.countDown p).Nonneg := by
  refine ⟨fun y => ?_, ?_⟩
  · rw [countDown_peers hp]
    have := h.1 y
    split_ifs with h₁ h₂ h₂
    · omega
    · omega
    · subst h₂
      have : (s.pos y).peerCount ≠ 0 := fun h0 => h₁ ⟨h0, hp⟩
      omega
    · omega
  · rw [countDown_seeds]
    have := h.2
    split_ifs with h₁
    · have := hc h₁
      omega
    · omega

/-- Breaking a seed for one piece leaves the others countable. -/
theorem countDown_countable (h : s.Nonneg) (hp : p < s.numPieces) (hq : q < s.numPieces)
    (hne : q ≠ p) (hc : s.countable q) : (s.countDown p).countable q := by
  intro h0
  rw [countDown_peers hp, if_neg hne] at h0
  rw [countDown_seeds]
  have := h.1 q
  by_cases h₁ : (s.pos p).peerCount = 0
  · rw [if_pos ⟨h₁, hq⟩] at h0
    omega
  · rw [if_neg (fun h => h₁ h.1)] at h0
    have := hc (by omega)
    rw [if_neg h₁]
    omega

/-! ### The sum -/

/-- More peers make the piece more available, and no other one. -/
theorem addPeers_availability (s : PiecePicker) (hp : p < s.numPieces) (n : ℤ) (y : ℕ) :
    (s.addPeers p n).getAvailability y = s.getAvailability y + (if y = p then n else 0) := by
  rw [getAvailability, getAvailability, addPeers_peers]
  simp only [hp, and_true]
  have : (s.addPeers p n).seeds = s.seeds := rfl
  omega

/-- A peer that leaves makes the piece less available, even if a seed is broken up for it. -/
theorem countDown_availability (hp : p < s.numPieces) (hq : q < s.numPieces) :
    (s.countDown p).getAvailability q = s.getAvailability q - (if q = p then 1 else 0) := by
  rw [getAvailability, getAvailability, countDown_peers hp, countDown_seeds]
  simp only [hq, and_true]
  split_ifs <;> omega

/-- Telling the list changes no counter. -/
theorem reposition_peers (s : PiecePicker) (prev : ℤ) (p : ℕ) :
    SamePeers s (s.reposition prev p) := by
  obtain ⟨l, rng, hr⟩ := s.reposition_rest p prev
  rw [hr]
  exact ⟨⟨rfl, rfl⟩, rfl, fun _ => rfl, rfl⟩

/-- The list of pieces does not count peers. -/
theorem updateFrom_peers (s : PiecePicker) (prev : ℤ) (p : ℕ) :
    SamePeers s (s.updateFrom prev p) := by
  obtain ⟨l, rng, hr⟩ := s.updateFrom_rest p prev
  rw [hr]
  exact ⟨⟨rfl, rfl⟩, rfl, fun _ => rfl, rfl⟩

/-- The availability is made of these counters. -/
theorem SamePeers.availability (h : SamePeers s s') (y : ℕ) :
    s'.getAvailability y = s.getAvailability y := by
  rw [getAvailability, getAvailability, h.peers, h.seeds]

/-- So is their sign. -/
theorem SamePeers.nonneg (h : SamePeers s s') (hn : s.Nonneg) : s'.Nonneg :=
  ⟨fun y => by rw [h.peers]; exact hn.1 y, by rw [h.seeds]; exact hn.2⟩

/-- So is whether a peer can be taken away. -/
theorem SamePeers.countable (h : SamePeers s s') (hc : s.countable q) : s'.countable q := by
  rw [PiecePicker.countable, h.peers, h.seeds]
  exact hc

/-- `dec_refcount` counts the piece down, and then tells the list. -/
theorem decRefcount_peers (s : PiecePicker) (p : ℕ) :
    SamePeers (s.countDown p) (s.decRefcount p) :=
  updateFrom_peers (s.countDown p) _ p

/-- If a seed is broken the list is out of date, and else nothing happens before the priority
is read. -/
theorem decOne_eq (s : PiecePicker) (p : ℕ) : s.decOne p = s.decRefcount p := by
  rw [decOne, decRefcount, breakFor]
  split_ifs with h
  · rw [updateFrom, updateFrom, if_neg, if_neg]
    · exact fun hc => Bool.noConfusion hc.2
    · exact fun hc => Bool.noConfusion hc.2
  · rfl

/-! ## The list -/

/-- What counting availability leaves as it is. -/
structure Recounts (s s' : PiecePicker) : Prop extends SameWants s s' where
  sizes : SameSizes s.toPickerCore s'.toPickerCore
  numPieces : s'.numPieces = s.numPieces
  surplus : s'.surplus = s.surplus

theorem Recounts.refl (s : PiecePicker) : Recounts s s := ⟨.refl s, ⟨rfl, rfl⟩, rfl, rfl⟩

theorem Recounts.trans (h : Recounts s s') (h' : Recounts s' s'') : Recounts s s'' :=
  ⟨h.toSameWants.trans h'.toSameWants,
    ⟨h'.sizes.1.trans h.sizes.1, h'.sizes.2.trans h.sizes.2⟩, h'.numPieces.trans h.numPieces,
    h'.surplus.trans h.surplus⟩

/-- A loop recounts if its body does. -/
theorem Recounts.foldl {f : PiecePicker → ℕ → PiecePicker} (hf : ∀ s p, Recounts s (f s p))
    (l : List ℕ) (s : PiecePicker) : Recounts s (l.foldl f s) := by
  induction l generalizing s with
  | nil => exact .refl s
  | cons p l ih => exact (hf s p).trans (ih _)

theorem addPeers_recounts (s : PiecePicker) (p : ℕ) (n : ℤ) : Recounts s (s.addPeers p n) := by
  refine ⟨⟨fun y => ?_, rfl, rfl, rfl, rfl, rfl⟩, ⟨rfl, rfl⟩, addPeers_numPieces s p n, rfl⟩
  rw [addPeers_pos]
  split_ifs with h
  · rw [h.1]
  · rfl

/-- To break up a seed is to recount. -/
theorem breakFor_recounts (s : PiecePicker) (p : ℕ) : Recounts s (s.breakFor p) := by
  rw [breakFor]
  split_ifs
  · refine ⟨⟨fun y => ?_, rfl, rfl, rfl, rfl, rfl⟩, ⟨rfl, rfl⟩, List.length_map _, rfl⟩
    exact (map_peers 1 (c := s.breakOneSeed.toPickerCore) rfl rfl y).2.1
  · exact .refl s

theorem reposition_recounts (s : PiecePicker) (prev : ℤ) (p : ℕ) :
    Recounts s (s.reposition prev p) := by
  obtain ⟨l, rng, hr⟩ := s.reposition_rest p prev
  rw [hr]
  exact ⟨⟨fun _ => rfl, rfl, rfl, rfl, rfl, rfl⟩, ⟨rfl, rfl⟩, rfl, rfl⟩

/-- To move a piece in the list is to recount. -/
theorem updateFrom_recounts (s : PiecePicker) (prev : ℤ) (p : ℕ) :
    Recounts s (s.updateFrom prev p) := by
  obtain ⟨l, rng, hr⟩ := s.updateFrom_rest p prev
  rw [hr]
  exact ⟨⟨fun _ => rfl, rfl, rfl, rfl, rfl, rfl⟩, ⟨rfl, rfl⟩, rfl, rfl⟩

/-- A peer of a piece comes. -/
theorem incRefcount_recounts (s : PiecePicker) (p : ℕ) : Recounts s (s.incRefcount p) :=
  (addPeers_recounts s p 1).trans (reposition_recounts _ _ p)

theorem countDown_recounts (s : PiecePicker) (p : ℕ) : Recounts s (s.countDown p) :=
  (breakFor_recounts s p).trans (addPeers_recounts _ p (-1))

/-- A peer of a piece leaves. -/
theorem decRefcount_recounts (s : PiecePicker) (p : ℕ) : Recounts s (s.decRefcount p) :=
  (countDown_recounts s p).trans (updateFrom_recounts _ _ p)

/-- The pieces we have and the state of the pieces do not change when peers are counted. -/
theorem sane_recount (h : s.Sane) (hlist : s'.list = s.list) (hn : s'.Nonneg)
    (hr : Recounts s s') (hst : ∀ y, s'.state y = s.state y) : s'.Sane := by
  refine ⟨?_, hn.1, hn.2, fun y => ?_, fun y hy => ?_⟩
  · rw [hlist, hr.numPieces]
    exact h.index_length
  · rw [hr.prio]
    exact h.prio y
  · rw [hst]
    refine h.have_open y ?_
    rwa [havePiece, hlist] at hy

/-- The counters of a sane state are not negative. -/
theorem Sane.nonneg (h : s.Sane) : s.Nonneg := ⟨h.peers, h.seeds⟩

/-- The state of the pieces is not touched. -/
theorem addPeers_state (s : PiecePicker) (p : ℕ) (n : ℤ) (y : ℕ) :
    (s.addPeers p n).state y = s.state y := by
  rw [PickerCore.state, PickerCore.state, addPeers_pos]
  split_ifs with h
  · rw [h.1]
  · rfl

theorem countDown_state (s : PiecePicker) (p y : ℕ) : (s.countDown p).state y = s.state y := by
  rw [countDown, addPeers_state, breakFor]
  split_ifs
  · exact (map_peers 1 (c := s.breakOneSeed.toPickerCore) rfl rfl y).2.2
  · rfl

/-- Nothing is asked of a list that is to be rebuilt. -/
theorem listed_of_dirty (h : s.Sane) (hd : s.dirty = true) : s.Listed :=
  ⟨h, fun hc => by rw [hd] at hc; cases hc⟩

/-- With another number of peers a piece has another place, and no other piece has. -/
theorem shift_addPeers (h : s.Sane) (hn : (s.addPeers p n).Nonneg) :
    Shift s (s.addPeers p n) p := by
  refine ⟨rfl, rfl, fun y hy => ?_, ?_⟩
  · have := addPeers_pos s p n y
    rw [if_neg (fun hc => hy hc.1)] at this
    exact congrArg (PiecePos.priority · (decide (s.havePiece y)) s.seeds) this
  · exact sane_recount h rfl hn (addPeers_recounts s p n) (addPeers_state s p n)

/-- One more peer does no harm. -/
theorem addPeers_one_nonneg (h : s.Nonneg) (p : ℕ) : (s.addPeers p 1).Nonneg := by
  refine ⟨fun y => ?_, h.2⟩
  rw [addPeers_peers]
  have := h.1 y
  split_ifs <;> omega

/-- The list follows a piece that one more peer has. -/
theorem incRefcount_list (s : PiecePicker) (p : ℕ) : KeepsList s (s.incRefcount p) := by
  intro hl
  have hsh := shift_addPeers hl.toSane (addPeers_one_nonneg hl.nonneg p)
  obtain ⟨h₁, h₂⟩ := hsh.reposition hl
  exact ⟨h₁, fun y => (h₂ y).trans (hsh.have_iff y)⟩

/-- The list follows a piece that one peer less has. -/
theorem decRefcount_list (hp : p < s.numPieces) (hc : s.countable p) :
    KeepsList s (s.decRefcount p) := by
  intro hl
  have hn := countDown_nonneg hl.nonneg hp hc
  have hbf : (s.breakFor p).list = s.list := by
    rw [breakFor]
    split_ifs <;> rfl
  have hsane : (s.countDown p).Sane :=
    sane_recount hl.toSane hbf hn (countDown_recounts s p) (countDown_state s p)
  rw [decRefcount]
  by_cases h0 : (s.pos p).peerCount = 0
  · -- a seed is broken, and the list is out of date
    have hb : s.breakFor p = s.breakOneSeed := if_pos h0
    rw [countDown, hb] at hsane
    rw [hb, updateFrom, if_neg (fun h => Bool.noConfusion h.2)]
    exact ⟨listed_of_dirty hsane rfl, fun _ => Iff.rfl⟩
  · have hb : s.breakFor p = s := if_neg h0
    rw [countDown, hb] at hn
    rw [hb]
    have hsh := shift_addPeers hl.toSane hn
    have hstay : s.priority p < 0 → (s.addPeers p (-1)).priority p < 0 := by
      intro hneg
      -- somebody has the piece, so it is hidden for another reason
      rw [hsh.sane.priority_neg_iff]
      rcases hl.priority_neg_iff.mp hneg with h | h | h | h
      · exact .inl (((addPeers_recounts s p (-1)).filtered p).mpr h)
      · exact .inr (.inl h)
      · rw [getAvailability] at h
        have := hl.peers p
        have := hl.seeds
        omega
      · rw [addPeers_state]
        exact .inr (.inr (.inr h))
    obtain ⟨h₁, h₂⟩ := hsh.updateFrom hl hstay
    exact ⟨h₁, fun y => (h₂ y).trans (hsh.have_iff y)⟩

/-! ### All pieces at once -/

/-- As long as there is a seed, their number does not matter. -/
theorem priority_seeds (h : s.Sane) (hs : 0 < s.seeds) {n : ℤ} (hn : 0 < n) (d : Bool) :
    ({ s with seeds := n, dirty := d } : PiecePicker).priority = s.priority := by
  funext y
  have hp := h.peers y
  have h₁ : ¬ (s.pos y).peerCount + n = 0 := by omega
  have h₂ : ¬ (s.pos y).peerCount + s.seeds = 0 := by omega
  have hh : ({ s with seeds := n, dirty := d } : PiecePicker).havePiece y = s.havePiece y := rfl
  rw [priority, priority, PiecePos.priority, PiecePos.priority]
  simp only [h₁, h₂, hh]

/-- The number of seeds moves no piece as long as there is one. -/
theorem setSeeds_list (h : s.Listed) {n : ℤ} (hn : 0 ≤ n) {d : Bool}
    (hd : d = false → s.dirty = false ∧ 0 < s.seeds ∧ 0 < n) :
    ({ s with seeds := n, dirty := d } : PiecePicker).Listed := by
  refine ⟨⟨h.index_length, h.peers, hn, h.prio, h.have_open⟩, fun hd' => ?_⟩
  obtain ⟨h₁, h₂, h₃⟩ := hd hd'
  rw [priority_seeds h.toSane h₂ h₃ d]
  exact h.sorted h₁

/-- A seed comes. -/
theorem incRefcountAll_list (s : PiecePicker) : KeepsList s s.incRefcountAll := by
  refine fun hl => ⟨setSeeds_list hl ?_ fun hd => ?_, fun _ => Iff.rfl⟩
  · have := hl.seeds
    omega
  · rw [Bool.or_eq_false_iff, decide_eq_false_iff_not] at hd
    have := hl.seeds
    exact ⟨hd.1, by omega, by omega⟩

/-- To count a seed is to recount. -/
theorem incRefcountAll_recounts (s : PiecePicker) : Recounts s s.incRefcountAll :=
  ⟨⟨fun _ => rfl, rfl, rfl, rfl, rfl, rfl⟩, ⟨rfl, rfl⟩, rfl, rfl⟩

/-- To take a seed away is to recount. -/
theorem decRefcountAll_recounts (s : PiecePicker) : Recounts s s.decRefcountAll := by
  rw [decRefcountAll]
  split_ifs
  · exact ⟨⟨fun _ => rfl, rfl, rfl, rfl, rfl, rfl⟩, ⟨rfl, rfl⟩, rfl, rfl⟩
  · refine ⟨⟨fun y => ?_, rfl, rfl, rfl, rfl, rfl⟩, ⟨rfl, rfl⟩, List.length_map _, rfl⟩
    exact (map_peers (-1) (d := s.toPickerCore) rfl rfl y).2.1

/-- Without a seed to take away, all pieces are counted down. -/
theorem decRefcountAll_nonneg (h : s.Nonneg) (hc : ∀ p < s.numPieces, s.countable p) :
    s.decRefcountAll.Nonneg := by
  rw [decRefcountAll]
  split_ifs with hs
  · exact ⟨h.1, by dsimp only; omega⟩
  · refine ⟨fun y => ?_, h.2⟩
    rw [(map_peers (-1) (d := s.toPickerCore) rfl rfl y).1]
    have := h.1 y
    split_ifs with hy
    · have : (s.pos y).peerCount ≠ 0 := fun h0 => hs (hc y hy h0)
      omega
    · omega

/-- A seed leaves, and the list follows. -/
theorem decRefcountAll_list (hc : ∀ p < s.numPieces, s.countable p) :
    KeepsList s s.decRefcountAll := by
  intro hl
  have hn := decRefcountAll_nonneg hl.nonneg hc
  have hr := decRefcountAll_recounts s
  rw [decRefcountAll] at hn hr ⊢
  split_ifs at hn hr ⊢ with hs
  · refine ⟨setSeeds_list hl hn.2 fun hd => ?_, fun _ => Iff.rfl⟩
    rw [Bool.or_eq_false_iff, decide_eq_false_iff_not] at hd
    exact ⟨hd.1, hs, show 0 < s.seeds - 1 by omega⟩
  · refine ⟨listed_of_dirty (sane_recount hl.toSane rfl hn hr fun y => ?_) rfl, fun _ => Iff.rfl⟩
    exact (map_peers (-1) (d := s.toPickerCore) rfl rfl y).2.2

/-- A seed makes all pieces more available. -/
theorem incRefcountAll_availability (s : PiecePicker) (y : ℕ) :
    s.incRefcountAll.getAvailability y = s.getAvailability y + 1 :=
  (Int.add_assoc _ _ _).symm

/-- A seed that leaves makes them less available. -/
theorem decRefcountAll_availability (hq : q < s.numPieces) :
    s.decRefcountAll.getAvailability q = s.getAvailability q - 1 := by
  rw [decRefcountAll]
  split_ifs
  · simp only [getAvailability]
    omega
  · simp only [getAvailability]
    rw [(map_peers (-1) (d := s.toPickerCore) rfl rfl q).1, if_pos hq]
    omega

/-! ## Bitmasks -/

/-- These are the bits that are set. -/
theorem mem_setPieces {bitmask : List Bool} :
    p ∈ setPieces bitmask ↔ bitmask.getD p false = true := by
  rw [setPieces, List.mem_filter, List.mem_range]
  constructor
  · exact fun h => h.2
  · intro h
    refine ⟨?_, h⟩
    by_contra hc
    rw [List.getD_eq_default _ _ (Nat.le_of_not_lt hc)] at h
    cases h

/-- In a full mask they are all pieces. -/
theorem mem_setPieces_of_all {bitmask : List Bool} (h : bitmask.all id = true)
    (hp : p < bitmask.length) : p ∈ setPieces bitmask := by
  rw [mem_setPieces, List.getD_eq_getElem _ _ hp]
  exact List.all_eq_true.mp h _ (List.getElem_mem hp)

/-- No piece is listed twice. -/
theorem setPieces_nodup (bitmask : List Bool) : (setPieces bitmask).Nodup :=
  List.nodup_range.filter _

/-- They are inside of the mask. -/
theorem lt_of_mem_setPieces {bitmask : List Bool} (h : p ∈ setPieces bitmask) :
    p < bitmask.length :=
  List.mem_range.mp (List.mem_of_mem_filter h)

/-- The list follows the pieces one by one. -/
theorem incRefcounts_list (l : List ℕ) (s : PiecePicker) :
    KeepsList s (l.foldl incRefcount s) := by
  induction l generalizing s with
  | nil => exact .refl s
  | cons p l ih => exact (incRefcount_list s p).trans (ih _)

/-- The counters alone leave the list as it is. -/
theorem addPeers_list (l : List ℕ) (h : s.Sane) :
    (l.foldl (fun s p => s.addPeers p 1) s).Sane ∧
      (l.foldl (fun s p => s.addPeers p 1) s).list = s.list := by
  induction l generalizing s with
  | nil => exact ⟨h, rfl⟩
  | cons p l ih =>
    exact ih (s := s.addPeers p 1) (shift_addPeers h (addPeers_one_nonneg h.nonneg p)).sane

/-- Marking the list as out of date. -/
theorem Sane.dirty (h : s.Sane) : ({ s with dirty := true } : PiecePicker).Listed :=
  listed_of_dirty ⟨h.index_length, h.peers, h.seeds, h.prio, h.have_open⟩ rfl

/-- A peer comes, and the list follows. -/
theorem incRefcountBitmask_list (s : PiecePicker) (bitmask : List Bool) :
    KeepsList s (s.incRefcountBitmask bitmask) := by
  rw [incRefcountBitmask]
  dsimp only
  split_ifs
  · exact .refl s
  · exact incRefcountAll_list s
  · exact incRefcounts_list _ s
  · intro hl
    obtain ⟨h₁, h₂⟩ := addPeers_list (setPieces bitmask) hl.toSane
    refine ⟨h₁.dirty, fun y => ?_⟩
    simp only [havePiece, h₂]

/-- To count the pieces of a peer is to recount. -/
theorem incRefcountBitmask_recounts (s : PiecePicker) (bitmask : List Bool) :
    Recounts s (s.incRefcountBitmask bitmask) := by
  rw [incRefcountBitmask]
  dsimp only
  split_ifs
  · exact .refl s
  · exact incRefcountAll_recounts s
  · exact Recounts.foldl incRefcount_recounts _ s
  · exact (Recounts.foldl (fun s p => addPeers_recounts s p 1) _ s).trans
      ⟨⟨fun _ => rfl, rfl, rfl, rfl, rfl, rfl⟩, ⟨rfl, rfl⟩, rfl, rfl⟩

section CountDown
variable {l : List ℕ}

/-- Counting several pieces down, one after the other, needs no more than that each of them can
be: after any number of them no counter is negative, and the next one can be counted down. -/
theorem countDowns_safe {f : PiecePicker → ℕ → PiecePicker}
    (hf : ∀ s p, SamePeers (s.countDown p) (f s p)) (h : s.Nonneg) {r : List ℕ}
    (hnd : (l ++ r).Nodup) (hc : ∀ p ∈ l ++ r, p < s.numPieces ∧ s.countable p) :
    (l.foldl f s).Nonneg ∧ ∀ p ∈ r, (l.foldl f s).countable p := by
  induction l generalizing s with
  | nil => exact ⟨h, fun p hp => (hc p hp).2⟩
  | cons p l ih =>
    obtain ⟨hp, hcp⟩ := hc p List.mem_cons_self
    obtain ⟨hpl, hnd⟩ := List.nodup_cons.mp hnd
    refine ih ((hf s p).nonneg (countDown_nonneg h hp hcp)) hnd fun q hq => ?_
    obtain ⟨hqn, hcq⟩ := hc q (List.mem_cons_of_mem p hq)
    refine ⟨by rwa [(hf s p).numPieces, countDown_numPieces], (hf s p).countable ?_⟩
    exact countDown_countable h hp hqn (fun he => hpl (he ▸ hq)) hcq

/-- All of these pieces were counted. -/
theorem countDowns_nonneg (h : s.Nonneg) (hl : l.Nodup)
    (hc : ∀ p ∈ l, p < s.numPieces ∧ s.countable p) : (l.foldl countDown s).Nonneg :=
  (countDowns_safe (r := []) (fun s p => .refl _) h (by rwa [List.append_nil])
    (by rwa [List.append_nil])).1

/-- To count down is not to touch the list or the state of a piece. -/
theorem countDowns_list (l : List ℕ) (s : PiecePicker) :
    (l.foldl countDown s).list = s.list ∧ ∀ y, (l.foldl countDown s).state y = s.state y := by
  induction l generalizing s with
  | nil => exact ⟨rfl, fun _ => rfl⟩
  | cons p l ih =>
    obtain ⟨h₁, h₂⟩ := ih (s.countDown p)
    have hbf : (s.breakFor p).list = s.list := by
      rw [breakFor]
      split_ifs <;> rfl
    exact ⟨h₁.trans hbf, fun y => (h₂ y).trans (countDown_state s p y)⟩

/-- The list follows the pieces that are counted down one by one. -/
theorem decRefcounts_list (hl : l.Nodup) (hc : ∀ p ∈ l, p < s.numPieces ∧ s.countable p) :
    KeepsList s (l.foldl decRefcount s) := by
  induction l generalizing s with
  | nil => exact .refl s
  | cons p l ih =>
    obtain ⟨hp, hcp⟩ := hc p List.mem_cons_self
    obtain ⟨hpl, hnd⟩ := List.nodup_cons.mp hl
    intro hlist
    refine ((decRefcount_list hp hcp).trans (ih hnd fun q hq => ?_)) hlist
    obtain ⟨hqn, hcq⟩ := hc q (List.mem_cons_of_mem p hq)
    rw [(decRefcount_recounts s p).numPieces]
    exact ⟨hqn, (decRefcount_peers s p).countable
      (countDown_countable hlist.nonneg hp hqn (fun he => hpl (he ▸ hq)) hcq)⟩

/-- A step of the loop counts like `dec_refcount`. -/
theorem decOne_peers (s : PiecePicker) (p : ℕ) : SamePeers (s.countDown p) (s.decOne p) := by
  rw [decOne_eq]
  exact decRefcount_peers s p

/-- A peer leaves, and the list follows. -/
theorem decRefcountBitmask_list {bitmask : List Bool} (hn : bitmask.length ≤ s.numPieces)
    (hc : ∀ p ∈ setPieces bitmask, s.countable p) : KeepsList s (s.decRefcountBitmask bitmask) := by
  have hc' : ∀ p ∈ setPieces bitmask, p < s.numPieces ∧ s.countable p := fun p hp =>
    ⟨Nat.lt_of_lt_of_le (lt_of_mem_setPieces hp) hn, hc p hp⟩
  rw [decRefcountBitmask]
  dsimp only
  split_ifs with h₁ h₂ h₃
  · exact .refl s
  · exact decRefcountAll_list fun p hp => hc p (mem_setPieces_of_all h₂.1 (by omega))
  · rw [show decOne = decRefcount from funext₂ decOne_eq]
    exact decRefcounts_list (setPieces_nodup bitmask) hc'
  · intro hl
    obtain ⟨hlist, hst⟩ := countDowns_list (setPieces bitmask) s
    have hs : ((setPieces bitmask).foldl countDown s).Sane :=
      sane_recount hl.toSane hlist (countDowns_nonneg hl.nonneg (setPieces_nodup bitmask) hc')
        (Recounts.foldl countDown_recounts _ s) hst
    refine ⟨hs.dirty, fun y => ?_⟩
    rw [havePiece, havePiece, ← hlist]
    rfl

/-- To take the pieces of a peer away is to recount. -/
theorem decRefcountBitmask_recounts (s : PiecePicker) (bitmask : List Bool) :
    Recounts s (s.decRefcountBitmask bitmask) := by
  rw [decRefcountBitmask]
  dsimp only
  split_ifs
  · exact .refl s
  · exact decRefcountAll_recounts s
  · rw [show decOne = decRefcount from funext₂ decOne_eq]
    exact Recounts.foldl decRefcount_recounts _ s
  · exact (Recounts.foldl countDown_recounts _ s).trans
      ⟨⟨fun _ => rfl, rfl, rfl, rfl, rfl, rfl⟩, ⟨rfl, rfl⟩, rfl, rfl⟩

end CountDown

end PiecePicker

end LibtorrentSN
