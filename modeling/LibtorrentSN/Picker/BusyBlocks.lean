import LibtorrentSN.Picker.Draws
import LibtorrentSN.Picker.PickSound

/-!
# The piece picker: busy blocks

The end game of `pick_pieces` picks a block that was requested from another peer, and there nobody looks at
the lock of its piece. Its random numbers are drawn after all others, so they can lead to any busy block of
the pieces it looks at: `pick_pieces` is sound whatever is drawn if and only if none of these pieces is
locked, unless the peer is on parole or there is no end game.
-/

namespace LibtorrentSN

namespace PiecePicker

open PickerCore PickState

variable {s : PiecePicker} {a : PickRequest} {st : PickState} {dp : DownloadingPiece} {pb : PieceBlock}

/-! ## The draws of the end game -/

/-- The stages before the end game use some of the draws. -/
theorem freeStages_draws (s : PiecePicker) (a : PickRequest) (st : PickState) :
    DrawsSome (fun s => s.freeStages a st) s := by
  simp only [freeStages]
  refine (s.partialsStage_draws a st).bind (G := fun st s =>
    if st.numBlocks ≤ 0 then (st, s)
    else
      let st := s.suggestedStage a a.suggestedPieces st
      if st.numBlocks ≤ 0 then (st, s)
      else
        let r := s.mainStage a st
        if r.1.numBlocks ≤ 0 then r else (takeBackups r.1, r.2)) ?_
  generalize s.partialsStage a st = r
  obtain ⟨st₁, s₁⟩ := r
  by_cases h₁ : st₁.numBlocks ≤ 0
  · simp only [if_pos h₁]
    exact .nothing fun rng => rfl
  simp only [if_neg h₁]
  by_cases h₂ : (s₁.suggestedStage a a.suggestedPieces st₁).numBlocks ≤ 0
  · refine .nothing fun rng => ?_
    simp only [suggestedStage_withRng, if_pos h₂]
  obtain ⟨used, hused⟩ := s₁.mainStage_draws a (s₁.suggestedStage a a.suggestedPieces st₁)
  refine ⟨used, fun tail => ?_⟩
  simp only [suggestedStage_withRng, if_neg h₂, hused]
  split_ifs <;> rfl

theorem random_eq {i n : ℕ} (h : i < n) : random i (n - 1) = i := by
  rw [random, Nat.sub_add_cancel (by omega), Nat.mod_eq_of_lt h]

/-- The end game may pick from every one of these pieces that has a busy block. -/
theorem endGame_picks (hpar : a.options.onParole = false) {i : ℕ} (hi : (s.endGamePartials a)[i]? = some dp)
    {rest : List PieceBlock} (hbusy : s.busyBlocks a dp = pb :: rest) :
    ((s.withRng [i, 0]).endGame a st).1.interestingBlocks = st.interestingBlocks ++ [pb] := by
  obtain ⟨hlt, -⟩ := List.getElem?_eq_some_iff.mp hi
  have hpartials : (s.withRng [i, 0]).endGamePartials a = s.endGamePartials a := rfl
  have hblocks : (s.withRng [i, 0]).busyBlocks a dp = pb :: rest := hbusy
  obtain ⟨n, hn⟩ := Nat.exists_eq_succ_of_ne_zero (Nat.ne_zero_of_lt hlt)
  rw [endGame, if_neg (by rw [hpar]; exact Bool.false_ne_true)]
  change ((s.withRng [i, 0]).busyLoop a (s.endGamePartials a).length (s.endGamePartials a) st [i, 0]).1.interestingBlocks = _
  rw [hn, busyLoop]
  dsimp only [draw]
  rw [random_eq hlt, hi]
  dsimp only
  rw [hblocks, if_pos (List.cons_ne_nil _ _)]
  dsimp only [random, List.length_cons, List.getElem?_cons_zero, Nat.zero_mod]
  rw [flag]
  split_ifs <;> rfl

/-! ## Soundness -/

/-- No piece that the end game could pick a busy block from is locked, or one we have. -/
def endGameSafe (s : PiecePicker) (a : PickRequest) : Prop :=
  ∀ dp ∈ s.endGamePartials a, s.busyBlocks a dp ≠ [] → dp.locked = false ∧ ¬ s.havePiece dp.index

instance (s : PiecePicker) (a : PickRequest) : Decidable (s.endGameSafe a) := inferInstanceAs (Decidable (∀ _ ∈ _, _))

/-- The stages before the end game find enough blocks. -/
def enoughFree (s : PiecePicker) (a : PickRequest) : Prop :=
  (s.freeStages (s.limitPartials a).1 (startState (s.limitPartials a).1 (s.limitPartials a).2)).1.numBlocks ≤ 0

/-- A busy block of a piece that the end game looks at. -/
theorem BusyOf.spec (h : s.Book True) (hb : s.BusyOf a dp pb) :
    s.findDlPiece pb.pieceIndex = some dp ∧ pb.pieceIndex = dp.index ∧ a.pieces.getD dp.index false = true ∧
      ¬ s.filtered dp.index ∧ pb.blockIndex < s.blocksInPiece dp.index ∧
      (s.block dp pb.blockIndex).state = .requested ∧ (s.block dp pb.blockIndex).peer ≠ a.peer := by
  obtain ⟨hlooked, hpb⟩ := hb
  obtain ⟨hdp, hbit⟩ := mem_endGamePartials hlooked
  obtain ⟨hi, hlt, hreq, hpeer⟩ := mem_busyBlocks hpb
  have hfind : s.findDlPiece dp.index = some dp :=
    h.buckets.find_eq_some.mpr ⟨Downloads.mem_all.mpr ⟨.pieceFull, hdp⟩, rfl⟩
  have hq : s.downloadQueue dp.index = some .pieceFull := h.buckets.queue _ dp hdp
  have hfil : ¬ s.filtered dp.index := by
    intro hc
    have := (h.category _ dp hfind).filtered hc
    rw [hq] at this
    cases this
  exact ⟨by rw [hi]; exact hfind, hi, hbit, hfil, by rw [← h.length hfind]; exact hlt, hreq, hpeer⟩

/-- A busy block of a safe piece is sound. -/
theorem BusyOf.busyPick (h : s.Book True) (hsafe : s.endGameSafe a) (hpar : a.options.onParole = false)
    (hb : s.BusyOf a dp pb) : s.BusyPick a pb := by
  obtain ⟨hfind, hi, hbit, hfil, hlt, hreq, hpeer⟩ := hb.spec h
  obtain ⟨hlock, hnot⟩ := hsafe dp hb.1 (List.ne_nil_of_mem hb.2)
  exact ⟨by rw [hi]; exact ⟨hbit, hnot, hfil⟩, by rw [hi]; exact hlt, ⟨dp, hfind, hlock, hreq, hpeer⟩, hpar⟩

/-- A busy block of a piece that is locked, or that we have, is not sound. -/
theorem BusyOf.not_sound (h : s.Book True) (hb : s.BusyOf a dp pb) (hbad : dp.locked = true ∨ s.havePiece dp.index)
    {blocks : List PieceBlock} (hmem : pb ∈ blocks) : ¬ s.PickSound a blocks := by
  obtain ⟨hfind, hi, -, -, -, hreq, -⟩ := hb.spec h
  rintro ⟨free, busy, rfl, -, hfree, hbusy⟩
  rcases List.mem_append.mp hmem with hm | hm
  · have hstate := (hfree pb hm).state
    rw [onPartial, hfind] at hstate
    rw [hstate] at hreq
    cases hreq
  · have hpick := hbusy pb hm
    obtain ⟨dp', hdp', hlock, -⟩ := hpick.busy
    obtain rfl := Option.some.inj (hfind.symm.trans hdp')
    rcases hbad with hlocked | hhave
    · rw [hlock] at hlocked
      cases hlocked
    · have hpiece := hpick.piece
      rw [hi] at hpiece
      exact hpiece.2.1 hhave

/-- Without the end game, or with a safe one, nothing but sound blocks are picked. -/
theorem pickPieces_sound_of_safe (h : s.Book True)
    (hsafe : a.options.onParole = true ∨ s.endGameSafe a ∨ s.enoughFree a) :
    s.PickSound a (s.pickPieces a).1.interestingBlocks := by
  set st := startState (s.limitPartials a).1 (s.limitPartials a).2 with hst
  have hfree : ∀ pb ∈ (s.freeStages (s.limitPartials a).1 st).1.interestingBlocks,
      s.FreePick a pb := fun pb hpb => .of_limit (freeStages_free h.buckets _ pb hpb)
  change s.PickSound a (s.pickStages (s.limitPartials a).1 st).1.interestingBlocks
  rcases s.pickStages_spec (s.limitPartials a).1 st with heq | ⟨hmore, hpar, dp, pb, hbusy, heq⟩
  · rw [heq]
    exact ⟨_, [], (List.append_nil _).symm, Nat.zero_le 1, hfree, by simp⟩
  · rw [heq]
    rw [(s.limitPartials_same a).2.2] at hpar
    have hgame : s.endGameSafe a := by
      rcases hsafe with hparole | hgame | henough
      · rw [hpar] at hparole
        cases hparole
      · exact hgame
      · exact absurd henough (not_le.mpr hmore)
    refine ⟨_, [pb], rfl, Nat.le_refl 1, hfree, fun pb' hpb' => ?_⟩
    obtain rfl := List.mem_singleton.mp hpb'
    exact hbusy.of_limit.busyPick h hgame hpar

/-- The draws of the stages before the end game can be followed by any others. -/
theorem exists_pick (hpar : a.options.onParole = false) (hmore : ¬ s.enoughFree a) (hb : s.BusyOf a dp pb) :
    ∃ rng pb', s.BusyOf a dp pb' ∧ pb' ∈ ((s.withRng rng).pickPieces a).1.interestingBlocks := by
  obtain ⟨i, hi⟩ := List.mem_iff_getElem?.mp hb.1
  obtain ⟨pb', rest, hblocks⟩ := List.exists_cons_of_ne_nil (List.ne_nil_of_mem hb.2)
  obtain ⟨hpartials', hblocks'⟩ := s.endGame_limit a
  set a' := (s.limitPartials a).1 with ha'
  set st := startState a' (s.limitPartials a).2 with hst
  obtain ⟨used, hused⟩ := s.freeStages_draws a' st
  have hcore := s.freeStages_core a' st
  refine ⟨used ++ [i, 0], pb', ⟨hb.1, by rw [hblocks]; exact List.mem_cons_self⟩, ?_⟩
  change pb' ∈ ((s.withRng (used ++ [i, 0])).pickStages a' st).1.interestingBlocks
  have hfree : (s.withRng (used ++ [i, 0])).freeStages a' st =
      ((s.freeStages a' st).1, (s.freeStages a' st).2.withRng [i, 0]) := hused [i, 0]
  have hmore : ¬(s.freeStages a' st).1.numBlocks ≤ 0 := hmore
  have hpar' : a'.options.onParole = false := by rw [(s.limitPartials_same a).2.2, hpar]
  have hget : ((s.freeStages a' st).2.endGamePartials a')[i]? = some dp := by
    rw [endGamePartials_congr hcore, hpartials', hi]
  have hbusy : (s.freeStages a' st).2.busyBlocks a' dp = pb' :: rest := by
    rw [busyBlocks_congr hcore, hblocks', hblocks]
  rw [pickStages_eq, hfree, if_neg hmore, endGame_picks hpar' hget hbusy]
  exact List.mem_append_right _ List.mem_cons_self

end PiecePicker

end LibtorrentSN
