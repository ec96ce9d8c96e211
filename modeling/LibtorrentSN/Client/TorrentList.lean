import Mathlib

/-!
# The list of torrents of the client

The rows of the window are found by the number of their torrent (`gtk/Session.cc`), which is a memory address.
The search halves an interval of positions, so it needs the rows in the order of these numbers: a torrent that
is added is inserted in that order, and those that are loaded at start-up are appended.
-/

namespace LibtorrentSN

namespace Client

/-- A handle of libtorrent, with what `id` and `info_hashes` return. The row of a torrent keeps both. -/
structure TorrentHandle where
  id : ℕ
  infoHashes : ℕ
  deriving DecidableEq

/-- The loop of `find_torrent_by_uniq_id`, cut off after a number of turns. -/
def findTorrentByUniqId (rows : List TorrentHandle) (uniqId : ℕ) :
    (turns beginPosition endPosition : ℕ) → Option (Option (TorrentHandle × ℕ))
  | 0, _, _ => none
  | turns + 1, beginPosition, endPosition =>
    if beginPosition < endPosition then
      let position := beginPosition + (endPosition - beginPosition) / 2
      match rows[position]? with
      | none => none
      | some torrent =>
        if torrent.id = uniqId then some (some (torrent, position))
        else if torrent.id < uniqId then findTorrentByUniqId rows uniqId turns position endPosition
        else findTorrentByUniqId rows uniqId turns beginPosition position
    else some none

/-- The first row with that number, and its position. -/
def lookup (rows : List TorrentHandle) (uniqId : ℕ) : Option (TorrentHandle × ℕ) :=
  rows.zipIdx.find? fun row => row.1.id = uniqId

/-- The search ends, and returns what it is asked for. -/
def FindsRight (rows : List TorrentHandle) (uniqId : ℕ) : Prop :=
  ∃ turns, findTorrentByUniqId rows uniqId turns 0 rows.length = some (lookup rows uniqId)

/-- The order that `compare_by_uniq_id` is for. -/
def Sorted (rows : List TorrentHandle) : Prop := rows.Pairwise fun t u => t.id < u.id

instance (rows : List TorrentHandle) : Decidable (Sorted rows) :=
  inferInstanceAs (Decidable (List.Pairwise _ _))

/-- The fields of `Session::Impl` that have to do with torrents, and the torrents of the session of libtorrent. -/
structure Torrents where
  rawModel : List TorrentHandle := []
  uidIh : List (ℕ × ℕ) := []
  allTorrents : List TorrentHandle := []
  session : List TorrentHandle := []

inductive TorrentEvent
  -- the alert for a torrent that is loaded, and for one that is added; the latter says where the row goes
  | load (t : TorrentHandle)
  | add (t : TorrentHandle) (position : ℕ)
  | remove (t : TorrentHandle)

namespace Torrents

variable (s : Torrents)

/-- The alert for a torrent that was added to the session, up to its row. `emplace` keeps what is there. -/
def addTorrentAlert (t : TorrentHandle) : Torrents :=
  { s with
    session := s.session ++ [t]
    allTorrents := if t ∈ s.allTorrents then s.allTorrents else s.allTorrents ++ [t]
    uidIh := if s.uidIh.any (·.1 = t.id) then s.uidIh else s.uidIh ++ [(t.id, t.infoHashes)] }

/-- `remove_torrent`, where the search may take so many turns. -/
def removeTorrent (t : TorrentHandle) (turns : ℕ) : Option Torrents :=
  let unqid := ((s.uidIh.find? (·.2 = t.infoHashes)).map Prod.fst).getD 0
  let s' := { s with
    uidIh := s.uidIh.eraseP (·.2 = t.infoHashes)
    allTorrents := s.allTorrents.erase t }
  (findTorrentByUniqId s.rawModel unqid turns 0 s.rawModel.length).map fun
    | some (_, position) => { s' with rawModel := s.rawModel.eraseIdx position, session := s.session.erase t }
    | none => s'

/-- The torrent is not in the session yet, and has a number of its own. -/
def New (t : TorrentHandle) : Prop :=
  t.id ≠ 0 ∧ t.id < 2 ^ 32 ∧ ∀ u ∈ s.session ++ s.rawModel, u.id ≠ t.id ∧ u.infoHashes ≠ t.infoHashes

instance (t : TorrentHandle) : Decidable (s.New t) := inferInstanceAs (Decidable (_ ∧ _ ∧ _))

/-- One event. A row that is inserted leaves a list that is sorted sorted. -/
inductive Step : Torrents → TorrentEvent → Torrents → Prop
  | load {s : Torrents} {t : TorrentHandle} (hnew : s.New t) :
      Step s (.load t) { s.addTorrentAlert t with rawModel := s.rawModel ++ [t] }
  | add {s : Torrents} {t : TorrentHandle} {position : ℕ} (hnew : s.New t) (hle : position ≤ s.rawModel.length)
      (hsorted : Sorted s.rawModel → Sorted (s.rawModel.insertIdx position t)) :
      Step s (.add t position) { s.addTorrentAlert t with rawModel := s.rawModel.insertIdx position t }
  | remove {s s' : Torrents} {t : TorrentHandle} {turns : ℕ} (hlisted : t ∈ s.rawModel)
      (h : s.removeTorrent t turns = some s') : Step s (.remove t) s'

/-- The states of the runs whose steps all meet a condition. -/
inductive Reached (permitted : Torrents → TorrentEvent → Prop) : Torrents → Prop
  | start : Reached permitted {}
  | step {s s' : Torrents} {e : TorrentEvent} (hs : Reached permitted s) (hp : permitted s e) (h : Step s e s') :
      Reached permitted s'

/-- A torrent that is loaded has a greater number than those in the list. -/
def InOrder (s : Torrents) : TorrentEvent → Prop
  | .load t => ∀ u ∈ s.rawModel, u.id < t.id
  | _ => True

end Torrents

section search

variable {rows : List TorrentHandle} {id i j n m b e : ℕ} {t u : TorrentHandle}

/-- One turn that goes on. -/
theorem find_succ (id : ℕ) (hb : b < e) (he : e ≤ rows.length) : ∃ p t, p = b + (e - b) / 2 ∧ b ≤ p ∧ p < e ∧
    rows[p]? = some t ∧ ∀ n, findTorrentByUniqId rows id (n + 1) b e =
      if t.id = id then some (some (t, p))
      else if t.id < id then findTorrentByUniqId rows id n p e else findTorrentByUniqId rows id n b p := by
  have hp : b + (e - b) / 2 < rows.length := by omega
  refine ⟨b + (e - b) / 2, rows[b + (e - b) / 2], rfl, by omega, by omega, List.getElem?_eq_getElem hp, fun n => ?_⟩
  rw [findTorrentByUniqId, if_pos hb]
  dsimp only
  rw [List.getElem?_eq_getElem hp]

theorem find_unique {r r' : Option (TorrentHandle × ℕ)} (h : findTorrentByUniqId rows id n b e = some r)
    (h' : findTorrentByUniqId rows id m b e = some r') : r = r' := by
  induction n generalizing m b e with
  | zero => cases h
  | succ n ih =>
    cases m with
    | zero => cases h'
    | succ m =>
      rw [findTorrentByUniqId] at h h'
      split_ifs at h h' with hbe
      · dsimp only at h h'
        split at h
        · cases h
        · rename_i t ht
          rw [ht] at h'
          dsimp only at h'
          split_ifs at h h'
          · exact Option.some.inj (h.symm.trans h')
          · exact ih h h'
          · exact ih h h'
      · exact Option.some.inj (h.symm.trans h')

/-- What is found lies in the interval. -/
theorem find_mem (h : findTorrentByUniqId rows id n b e = some (some (t, i))) (he : e ≤ rows.length) :
    b ≤ i ∧ i < e := by
  induction n generalizing b e with
  | zero => cases h
  | succ n ih =>
    by_cases hb : b < e
    · obtain ⟨p, u, -, hbp, hpe, hu, hturn⟩ := find_succ id hb he
      rw [hturn] at h
      split_ifs at h
      · cases h
        exact ⟨hbp, hpe⟩
      · have hin := ih h he
        omega
      · have hin := ih h (by omega)
        omega
    · rw [findTorrentByUniqId, if_neg hb] at h
      cases h

theorem lookup_of_getElem? (hrows : rows.Pairwise fun t u => t.id ≠ u.id) (h : rows[i]? = some t) :
    lookup rows t.id = some (t, i) := by
  obtain ⟨hi, rfl⟩ := List.getElem?_eq_some_iff.mp h
  refine List.find?_eq_some_iff_getElem.mpr ⟨by simp, i, by simpa using hi, by simp, fun j hj => ?_⟩
  have hne := List.pairwise_iff_getElem.mp hrows j i (hj.trans hi) hi hj
  simpa using hne

theorem lookup_of_forall (h : ∀ t ∈ rows, t.id ≠ id) : lookup rows id = none := by
  refine List.find?_eq_none.mpr fun row hrow => ?_
  have hmem := List.fst_mem_of_mem_zipIdx hrow
  simpa using h row.1 hmem

theorem Sorted.ne (h : Sorted rows) : rows.Pairwise fun t u => t.id ≠ u.id := h.imp fun hlt => hlt.ne

theorem Sorted.lt_of_lt (h : Sorted rows) (hi : rows[i]? = some t) (hj : rows[j]? = some u) (hlt : t.id < u.id) :
    i < j := by
  by_contra hge
  obtain ⟨hi', rfl⟩ := List.getElem?_eq_some_iff.mp hi
  obtain ⟨hj', rfl⟩ := List.getElem?_eq_some_iff.mp hj
  rcases (not_lt.mp hge).eq_or_lt with rfl | hlt'
  · exact lt_irrefl _ hlt
  · exact lt_asymm hlt (List.pairwise_iff_getElem.mp h j i hj' hi' hlt')

/-- In a list that is sorted the search comes upon every row. -/
theorem Sorted.find_row (h : Sorted rows) (hi : rows[i]? = some t) (hb : b ≤ i) (hie : i < e)
    (he : e ≤ rows.length) : ∃ n, findTorrentByUniqId rows t.id n b e = some (some (t, i)) := by
  induction hlen : e - b using Nat.strong_induction_on generalizing b e with
  | _ len ih =>
    obtain ⟨p, u, hp, hbp, hpe, hu, hturn⟩ := find_succ t.id (hb.trans_lt hie) he
    rcases lt_trichotomy u.id t.id with hlt | heq | hgt
    · -- the row lies behind the middle, which is then not the first position
      have hpi := h.lt_of_lt hu hi hlt
      obtain ⟨n, hn⟩ := ih (e - p) (by omega) hpi.le hie he rfl
      exact ⟨n + 1, by rw [hturn, if_neg hlt.ne, if_pos hlt, hn]⟩
    · have hfirst := lookup_of_getElem? h.ne hu
      rw [heq, lookup_of_getElem? h.ne hi] at hfirst
      cases hfirst
      exact ⟨1, by rw [hturn, if_pos rfl]⟩
    · have hip := h.lt_of_lt hi hu hgt
      obtain ⟨n, hn⟩ := ih (p - b) (by omega) hb hip (by omega) rfl
      exact ⟨n + 1, by rw [hturn, if_neg hgt.ne', if_neg hgt.not_gt, hn]⟩

/-- The search for a number below all others ends. -/
theorem find_below (h : ∀ t ∈ rows, id < t.id) (he : e ≤ rows.length) :
    ∃ n, findTorrentByUniqId rows id n 0 e = some none := by
  induction e using Nat.strong_induction_on with
  | _ e ih =>
    rcases Nat.eq_zero_or_pos e with rfl | hpos
    · exact ⟨1, rfl⟩
    · obtain ⟨p, u, -, -, hpe, hu, hturn⟩ := find_succ id hpos he
      have hgt := h u (List.mem_of_getElem? hu)
      obtain ⟨n, hn⟩ := ih p hpe (by omega)
      exact ⟨n + 1, by rw [hturn, if_neg hgt.ne', if_neg hgt.not_gt, hn]⟩

/-- The search for a number that no row of the interval has does not end if the first one is below it. -/
theorem find_hangs (h : ∀ k u, b ≤ k → rows[k]? = some u → u.id ≠ id) (hb : rows[b]? = some t) (hlt : t.id < id) (hbe : b < e)
    (he : e ≤ rows.length) (n : ℕ) : findTorrentByUniqId rows id n b e = none := by
  induction n generalizing b e t with
  | zero => rfl
  | succ n ih =>
    obtain ⟨p, u, -, hbp, hpe, hu, hturn⟩ := find_succ id hbe he
    rw [hturn, if_neg (h p u hbp hu)]
    split_ifs with hless
    · exact ih (fun k w hpk => h k w (hbp.trans hpk)) hu hless hpe he
    · have hne : b ≠ p := by
        rintro rfl
        rw [hb] at hu
        cases hu
        exact hless hlt
      exact ih h hb hlt (lt_of_le_of_ne hbp hne) (by omega)

/-- In a list that is sorted, the search for a number is right if a row has it or all numbers are above it. -/
theorem Sorted.findsRight_iff (h : Sorted rows) :
    FindsRight rows id ↔ (∃ t ∈ rows, t.id = id) ∨ ∀ t ∈ rows, id < t.id := by
  constructor
  · rintro ⟨n, hn⟩
    by_contra hc
    obtain ⟨hlisted, hbelow⟩ := not_or.mp hc
    push Not at hlisted hbelow
    obtain ⟨u, hu, hle⟩ := hbelow
    have hlt : u.id < id := lt_of_le_of_ne hle (hlisted u hu)
    obtain ⟨j, hj⟩ := List.getElem?_of_mem hu
    have hlen := List.length_pos_of_mem hu
    have hzero := List.getElem?_eq_getElem hlen
    -- the first row is below the number too
    have hfirst : (rows[0]).id < id := by
      rcases Nat.eq_zero_or_pos j with rfl | hpos
      · rw [hzero] at hj
        cases hj
        exact hlt
      · obtain ⟨hj', rfl⟩ := List.getElem?_eq_some_iff.mp hj
        exact (List.pairwise_iff_getElem.mp h 0 j hlen hj' hpos).trans hlt
    have hnone : ∀ k u, 0 ≤ k → rows[k]? = some u → u.id ≠ id :=
      fun k u _ hu => hlisted u (List.mem_of_getElem? hu)
    rw [find_hangs hnone hzero hfirst hlen le_rfl] at hn
    cases hn
  · rintro (⟨t, ht, rfl⟩ | hbelow)
    · obtain ⟨i, hi⟩ := List.getElem?_of_mem ht
      have hlt := (List.getElem?_eq_some_iff.mp hi).1
      rw [FindsRight, lookup_of_getElem? h.ne hi]
      exact h.find_row hi (Nat.zero_le i) hlt le_rfl
    · rw [FindsRight, lookup_of_forall fun t ht => (hbelow t ht).ne']
      exact find_below hbelow le_rfl

/-- Two searches that find their rows in one interval part at a row between them. -/
theorem lt_of_find (hi : findTorrentByUniqId rows t.id n b e = some (some (t, i)))
    (hj : findTorrentByUniqId rows u.id m b e = some (some (u, j))) (hij : i < j) (he : e ≤ rows.length) :
    t.id < u.id := by
  induction n generalizing b e m with
  | zero => cases hi
  | succ n ih =>
    cases m with
    | zero => cases hj
    | succ m =>
      obtain ⟨hbi, hie⟩ := find_mem hi he
      obtain ⟨p, w, hp, hbp, hpe, hw, hturn⟩ := find_succ t.id (hbi.trans_lt hie) he
      obtain ⟨p', w', hp', -, -, hw', hturn'⟩ := find_succ u.id (hbi.trans_lt hie) he
      obtain rfl : p = p' := hp.trans hp'.symm
      rw [hw] at hw'
      cases hw'
      rw [hturn] at hi
      rw [hturn'] at hj
      rcases lt_trichotomy w.id t.id with hwt | hwt | hwt
      · rw [if_neg hwt.ne, if_pos hwt] at hi
        have hpi := (find_mem hi he).1
        rcases lt_trichotomy w.id u.id with hwu | hwu | hwu
        · rw [if_neg hwu.ne, if_pos hwu] at hj
          exact ih hi hj he
        · rw [if_pos hwu] at hj
          cases hj
          omega
        · rw [if_neg hwu.ne', if_neg hwu.not_gt] at hj
          have hjp := (find_mem hj (hpe.le.trans he)).2
          omega
      · rw [if_pos hwt] at hi
        cases hi
        rcases lt_trichotomy t.id u.id with hwu | hwu | hwu
        · exact hwu
        · rw [if_pos hwu] at hj
          cases hj
          exact absurd hij (lt_irrefl i)
        · rw [if_neg hwu.ne', if_neg hwu.not_gt] at hj
          have hjp := (find_mem hj (hpe.le.trans he)).2
          omega
      · rcases lt_or_ge u.id w.id with hwu | hwu
        · rw [if_neg hwt.ne', if_neg hwt.not_gt] at hi
          rw [if_neg hwu.ne', if_neg hwu.not_gt] at hj
          exact ih hi hj (hpe.le.trans he)
        · exact hwt.trans_le hwu

/-- The search is right for every row just if the list is sorted. -/
theorem findsRight_iff_sorted (hrows : rows.Pairwise fun t u => t.id ≠ u.id) :
    (∀ t ∈ rows, FindsRight rows t.id) ↔ Sorted rows := by
  refine ⟨fun h => List.pairwise_iff_getElem.mpr fun i j hi hj hij => ?_, fun h t ht => ?_⟩
  · obtain ⟨n, hn⟩ := h rows[i] (List.getElem_mem hi)
    obtain ⟨m, hm⟩ := h rows[j] (List.getElem_mem hj)
    rw [lookup_of_getElem? hrows (List.getElem?_eq_getElem hi)] at hn
    rw [lookup_of_getElem? hrows (List.getElem?_eq_getElem hj)] at hm
    exact lt_of_find hn hm hij le_rfl
  · exact h.findsRight_iff.mpr (.inl ⟨t, ht, rfl⟩)

end search

namespace Torrents

variable {s s' : Torrents} {t : TorrentHandle} {e : TorrentEvent} {permitted : Torrents → TorrentEvent → Prop}

/-- In every run the rows have different numbers. -/
theorem Step.ne (h : Step s e s') (hs : s.rawModel.Pairwise fun t u => t.id ≠ u.id) :
    s'.rawModel.Pairwise fun t u => t.id ≠ u.id := by
  cases h with
  | load hnew =>
    refine List.pairwise_append.mpr ⟨hs, List.pairwise_singleton _ _, fun u hu v hv => ?_⟩
    rw [List.mem_singleton.mp hv]
    exact (hnew.2.2 u (List.mem_append_right _ hu)).1
  | add hnew hle =>
    refine ((List.perm_insertIdx _ _ hle).pairwise_iff Ne.symm).mpr (List.pairwise_cons.mpr ⟨?_, hs⟩)
    exact fun u hu => (hnew.2.2 u (List.mem_append_right _ hu)).1.symm
  | remove _ h =>
    rw [removeTorrent, Option.map_eq_some_iff] at h
    obtain ⟨r, -, rfl⟩ := h
    rcases r with - | ⟨u, i⟩
    · exact hs
    · exact hs.sublist (List.eraseIdx_sublist _ _)

/-- In a run with the torrents loaded in order, the list has a row for each torrent of the session, and the
map an entry. -/
structure Inv (s : Torrents) : Prop where
  sorted : Sorted s.rawModel
  hashes : s.rawModel.Pairwise fun t u => t.infoHashes ≠ u.infoHashes
  session : s.session.Perm s.rawModel
  uidIh : s.uidIh.Perm (s.rawModel.map fun t => (t.id, t.infoHashes))

/-- A removal takes the torrent out of the list and out of the session, and nothing else. -/
def Removes (s : Torrents) (t : TorrentHandle) : Prop :=
  ∃ turns s', s.removeTorrent t turns = some s' ∧ s'.rawModel = s.rawModel.erase t ∧ s'.session = s.session.erase t

/-- What a removal of a row leaves. -/
def without (s : Torrents) (t : TorrentHandle) : Torrents where
  rawModel := s.rawModel.erase t
  uidIh := s.uidIh.eraseP (·.2 = t.infoHashes)
  allTorrents := s.allTorrents.erase t
  session := s.session.erase t

theorem eraseP_infoHashes {rows : List TorrentHandle} (h : rows.Pairwise fun t u => t.infoHashes ≠ u.infoHashes)
    (ht : t ∈ rows) : rows.eraseP (·.infoHashes = t.infoHashes) = rows.erase t := by
  induction rows with
  | nil => cases ht
  | cons u rows ih =>
    rw [List.pairwise_cons] at h
    rcases List.mem_cons.mp ht with rfl | ht
    · rw [List.eraseP_cons_of_pos (by simp), List.erase_cons_head]
    · have hne := h.1 t ht
      have hut : ¬ (u == t) = true := by
        rw [beq_iff_eq]
        exact fun hut => hne (by rw [hut])
      rw [List.eraseP_cons_of_neg (by simpa using hne), List.erase_cons_tail hut, ih h.2 ht]

namespace Inv

/-- The entry of the map for the info hash of a row. -/
theorem find?_uidIh (h : s.Inv) (ht : t ∈ s.rawModel) :
    s.uidIh.find? (·.2 = t.infoHashes) = some (t.id, t.infoHashes) := by
  have hmem : (t.id, t.infoHashes) ∈ s.uidIh := h.uidIh.mem_iff.mpr (List.mem_map_of_mem ht)
  rcases hf : s.uidIh.find? (·.2 = t.infoHashes) with - | p
  · have hnone := List.find?_eq_none.mp hf _ hmem
    simp at hnone
  · have hp := List.find?_some hf
    obtain ⟨u, hu, rfl⟩ := List.mem_map.mp (h.uidIh.mem_iff.mp (List.mem_of_find?_eq_some hf))
    have : Std.Symm fun t u : TorrentHandle => t.infoHashes ≠ u.infoHashes := ⟨fun _ _ h => h.symm⟩
    by_cases hut : u = t
    · exact hf.trans (by rw [hut])
    · exact absurd (by simpa using hp) (h.hashes.forall hu ht hut)

theorem removeTorrent_eq (h : s.Inv) (ht : t ∈ s.rawModel) :
    (∃ turns, s.removeTorrent t turns = some (s.without t)) ∧
      ∀ turns s', s.removeTorrent t turns = some s' → s' = s.without t := by
  obtain ⟨turns, hfind⟩ := h.sorted.findsRight_iff.mpr (.inl ⟨t, ht, rfl⟩)
  obtain ⟨i, hi⟩ := List.getElem?_of_mem ht
  obtain ⟨hlt, hrow⟩ := List.getElem?_eq_some_iff.mp hi
  rw [lookup_of_getElem? h.sorted.ne hi] at hfind
  have hnodup : s.rawModel.Nodup := h.sorted.imp fun hid htu => hid.ne (by rw [htu])
  have herase : s.rawModel.eraseIdx i = s.rawModel.erase t :=
    (List.erase_eq_eraseIdx_of_idxOf (hrow ▸ hnodup.idxOf_getElem i hlt)).symm
  constructor
  · refine ⟨turns, ?_⟩
    rw [removeTorrent, h.find?_uidIh ht]
    dsimp only [Option.map_some, Option.getD_some]
    rw [hfind, Torrents.without, ← herase]
    rfl
  · intro turns' s' hs'
    rw [removeTorrent, h.find?_uidIh ht, Option.map_eq_some_iff] at hs'
    obtain ⟨r, hr, rfl⟩ := hs'
    rw [find_unique hr hfind, Torrents.without, ← herase]

theorem removes (h : s.Inv) (ht : t ∈ s.rawModel) : s.Removes t := by
  obtain ⟨turns, hturns⟩ := (h.removeTorrent_eq ht).1
  exact ⟨turns, _, hturns, rfl, rfl⟩

theorem without (h : s.Inv) (ht : t ∈ s.rawModel) : (s.without t).Inv := by
  refine ⟨h.sorted.sublist List.erase_sublist, h.hashes.sublist List.erase_sublist, h.session.erase t, ?_⟩
  have hpair : (s.rawModel.map fun t => (t.id, t.infoHashes)).Pairwise
      fun p q => decide (p.2 = t.infoHashes) = true → decide (q.2 = t.infoHashes) = true → False := by
    refine List.pairwise_map.mpr (h.hashes.imp fun hne hp hq => hne ?_)
    rw [decide_eq_true_eq] at hp hq
    exact hp.trans hq.symm
  have hperm := h.uidIh.symm.eraseP (fun p => decide (p.2 = t.infoHashes)) hpair
  rw [List.eraseP_map] at hperm
  refine hperm.symm.trans ?_
  change (List.map _ (s.rawModel.eraseP (·.infoHashes = t.infoHashes))).Perm ((s.rawModel.erase t).map _)
  rw [eraseP_infoHashes h.hashes ht]

/-- A row for a new torrent, where it keeps the list sorted. -/
theorem addTorrentAlert (h : s.Inv) (hnew : s.New t) {rows : List TorrentHandle} (hperm : rows.Perm (t :: s.rawModel))
    (hsorted : Sorted rows) : Inv { s.addTorrentAlert t with rawModel := rows } := by
  have huid : s.uidIh.any (·.1 = t.id) = false := by
    rw [List.any_eq_false]
    intro p hp
    obtain ⟨u, hu, rfl⟩ := List.mem_map.mp (h.uidIh.mem_iff.mp hp)
    simpa using (hnew.2.2 u (List.mem_append_right _ hu)).1
  refine ⟨hsorted, ?_, ?_, ?_⟩
  · refine (hperm.pairwise_iff Ne.symm).mpr (List.pairwise_cons.mpr ⟨?_, h.hashes⟩)
    exact fun u hu => (hnew.2.2 u (List.mem_append_right _ hu)).2.symm
  · exact (List.perm_append_singleton t s.session).trans ((h.session.cons t).trans hperm.symm)
  · refine List.Perm.trans ?_ (hperm.symm.map _)
    rw [List.map_cons]
    change (if s.uidIh.any (·.1 = t.id) then s.uidIh else s.uidIh ++ [(t.id, t.infoHashes)]).Perm _
    rw [huid, if_neg Bool.false_ne_true]
    exact (List.perm_append_singleton _ _).trans (h.uidIh.cons _)

theorem step (h : s.Inv) (hp : s.InOrder e) (hstep : Step s e s') : s'.Inv := by
  cases hstep with
  | load hnew =>
    refine h.addTorrentAlert hnew (List.perm_append_singleton _ _) ?_
    refine List.pairwise_append.mpr ⟨h.sorted, List.pairwise_singleton _ _, fun u hu v hv => ?_⟩
    rw [List.mem_singleton.mp hv]
    exact hp u hu
  | add hnew hle hsorted => exact h.addTorrentAlert hnew (List.perm_insertIdx _ _ hle) (hsorted h.sorted)
  | remove hlisted hs' =>
    rw [(h.removeTorrent_eq hlisted).2 _ _ hs']
    exact h.without hlisted

end Inv

theorem Reached.ne (h : Reached permitted s) : s.rawModel.Pairwise fun t u => t.id ≠ u.id := by
  induction h with
  | start => exact List.Pairwise.nil
  | step _ _ hstep ih => exact hstep.ne ih

theorem Reached.inv (h : Reached InOrder s) : s.Inv := by
  induction h with
  | start => exact ⟨List.Pairwise.nil, List.Pairwise.nil, List.Perm.nil, List.Perm.nil⟩
  | step _ hp hstep ih => exact ih.step hp hstep

/-- In a run with the torrents loaded in order, the search for a number is right just if a row has it or all
numbers are above it, and a row can be removed. In any run, the search is right for every row just if the list
is sorted. -/
theorem reached_finds (s : Torrents) :
    (Reached InOrder s → (∀ id, FindsRight s.rawModel id ↔
      (∃ t ∈ s.rawModel, t.id = id) ∨ ∀ t ∈ s.rawModel, id < t.id) ∧ ∀ t ∈ s.rawModel, s.Removes t) ∧
    (Reached (fun _ _ => True) s →
      ((∀ t ∈ s.rawModel, FindsRight s.rawModel t.id) ↔ Sorted s.rawModel)) :=
  ⟨fun h => ⟨fun _ => h.inv.sorted.findsRight_iff, fun _ ht => h.inv.removes ht⟩,
    fun h => findsRight_iff_sorted h.ne⟩

/-- Two torrents are loaded in order, and one is added. -/
theorem reached_finds_three : ∃ s, Reached InOrder s ∧ s.rawModel = [⟨2, 20⟩, ⟨5, 50⟩, ⟨7, 70⟩] ∧
    FindsRight s.rawModel 5 ∧ FindsRight s.rawModel 1 ∧ s.Removes ⟨5, 50⟩ := by
  have hstart : Reached InOrder {} := .start
  have hfirst := hstart.step (e := .load ⟨2, 20⟩) (by simp [InOrder])
    (.load (by decide))
  have hsecond := hfirst.step (e := .load ⟨7, 70⟩) (by simp [InOrder]) (.load (by decide))
  have hadded := hsecond.step (e := .add ⟨5, 50⟩ 1) trivial (.add (by decide) (by decide) (by decide))
  obtain ⟨hfinds, hremoves⟩ := (reached_finds _).1 hadded
  exact ⟨_, hadded, rfl, (hfinds 5).mpr (.inl (by decide)), (hfinds 1).mpr (.inr (by decide)),
    hremoves _ (by decide)⟩

/-- With one row, the search for a greater number does not end; and with two that were loaded in the other order,
nor does the removal of the first one. -/
theorem not_reached_finds :
    (∃ s, Reached (fun _ _ => True) s ∧ s.rawModel = [⟨1, 10⟩] ∧ ¬ FindsRight s.rawModel 2) ∧
    ∃ s, Reached (fun _ _ => True) s ∧ s.rawModel = [⟨2, 20⟩, ⟨1, 10⟩] ∧ ∀ turns, s.removeTorrent ⟨2, 20⟩ turns = none := by
  have hstart : Reached (fun _ _ => True) {} := .start
  constructor
  · refine ⟨_, hstart.step (e := .load ⟨1, 10⟩) trivial (.load (by decide)), rfl, fun ⟨turns, hturns⟩ => ?_⟩
    rw [find_hangs (t := ⟨1, 10⟩) ?_ rfl (by decide) (by decide) le_rfl] at hturns
    · cases hturns
    · intro k u _ hu
      rw [List.mem_singleton.mp (List.mem_of_getElem? hu)]
      decide
  · have hfirst := hstart.step (e := .load ⟨2, 20⟩) trivial (.load (by decide))
    refine ⟨_, hfirst.step (e := .load ⟨1, 10⟩) trivial (.load (by decide)), rfl, fun turns => ?_⟩
    rw [removeTorrent, Option.map_eq_none_iff]
    cases turns with
    | zero => rfl
    | succ turns =>
      -- the first turn leaves the second row only
      refine find_hangs (b := 1) (t := ⟨1, 10⟩) ?_ rfl (by decide) (by decide) le_rfl turns
      intro k u hk hu
      rcases k with - | - | k
      · cases hk
      · cases hu
        decide
      · cases hu

end Torrents

end Client

end LibtorrentSN
