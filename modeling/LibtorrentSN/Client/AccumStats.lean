import Mathlib

/-!
# The all-time statistics of the client

The totals over all sessions (`accum_stats`, `gtk/Session.h`) are kept in the settings, each in two numbers of
32 bits, between two runs of the program. When the program starts, the totals of the torrents that are loaded are
added (`gtk/Session.cc`).
-/

namespace LibtorrentSN

namespace Client

/-- The settings of the client that have to do with the statistics. -/
structure StatsSettings where
  uploadedBytesHigh32bit : BitVec 32 := 0
  uploadedBytesLow32bit : BitVec 32 := 0
  downloadedBytesHigh32bit : BitVec 32 := 0
  downloadedBytesLow32bit : BitVec 32 := 0
  secondsActive : BitVec 32 := 0
  sessionCount : BitVec 32 := 0

structure AccumStats where
  startTime : BitVec 64
  uploadedBytes : BitVec 64 := 0
  downloadedBytes : BitVec 64 := 0
  sessionCount : BitVec 64 := 0
  secondsActive : BitVec 64 := 0

/-- What `offer` hands out. -/
structure OfferedStats where
  allUp : BitVec 64
  allDn : BitVec 64
  activeSec : BitVec 64
  openTimes : BitVec 64
  currentSec : BitVec 64

namespace AccumStats

/-- The total of two settings, in `inject`. -/
def join (high low : BitVec 32) : BitVec 64 := high.signExtend 64 <<< 32 ||| low.signExtend 64

/-- `get_upload_bytes` and `get_download_bytes` -/
def split (bytes : BitVec 64) : BitVec 32 × BitVec 32 :=
  ((bytes >>> 16).setWidth 32, (bytes &&& 0xffff).setWidth 32)

def inject (s : AccumStats) (sett : StatsSettings) : AccumStats :=
  { s with
    uploadedBytes := join sett.uploadedBytesHigh32bit sett.uploadedBytesLow32bit
    downloadedBytes := join sett.downloadedBytesHigh32bit sett.downloadedBytesLow32bit
    secondsActive := sett.secondsActive.signExtend 64
    sessionCount := sett.sessionCount.signExtend 64 }

def offer (s : AccumStats) (now : BitVec 64) : OfferedStats where
  allUp := s.uploadedBytes
  allDn := s.downloadedBytes
  activeSec := s.secondsActive
  openTimes := s.sessionCount
  currentSec := now - s.startTime

def incUploadBytes (s : AccumStats) (bytes : BitVec 64) : AccumStats :=
  { s with uploadedBytes := s.uploadedBytes + bytes }

def incDownloadBytes (s : AccumStats) (bytes : BitVec 64) : AccumStats :=
  { s with downloadedBytes := s.downloadedBytes + bytes }

/-- `std::numeric_limits<int>::max()` -/
def intMax : BitVec 64 := 0x7fffffff

/-- The number that is written for a counter that has become `n`. -/
def clip (n : BitVec 64) : BitVec 32 := if intMax < n then 0 else n.setWidth 32

/-- `dump`, with `get_open_times` and `get_active_seconds`. -/
def dump (s : AccumStats) (sett : StatsSettings) (now : BitVec 64) : AccumStats × StatsSettings :=
  let up := split s.uploadedBytes
  let dn := split s.downloadedBytes
  let sessionCount := s.sessionCount + 1
  let secondsActive := s.secondsActive + (now - s.startTime)
  ({ s with sessionCount, secondsActive },
    { sett with
      uploadedBytesHigh32bit := up.1
      uploadedBytesLow32bit := up.2
      downloadedBytesHigh32bit := dn.1
      downloadedBytesLow32bit := dn.2
      sessionCount := clip sessionCount
      secondsActive := clip secondsActive })

/-- What is read in the next session of a total that was written. -/
def restored (bytes : BitVec 64) : BitVec 64 := join (split bytes).1 (split bytes).2

end AccumStats

/-- The counters of a torrent: those of libtorrent, and what they were when it was loaded. -/
structure TorrentStats where
  allTimeUpload : ℕ := 0
  allTimeDownload : ℕ := 0
  uploadWhenLoad : ℕ := 0
  downloadWhenLoad : ℕ := 0

/-- `total_updown_delta_at_remove`, which leaves the two deltas at zero where the status is valid. -/
def TorrentStats.totalUpdownDeltaAtRemove (t : TorrentStats) (statusValid : Bool) : BitVec 64 × BitVec 64 :=
  if statusValid then (0, 0)
  else (BitVec.ofNat 64 t.allTimeUpload - BitVec.ofNat 64 t.uploadWhenLoad,
    BitVec.ofNat 64 t.allTimeDownload - BitVec.ofNat 64 t.downloadWhenLoad)

/-- What a session of the program leaves: the settings, and the counters in the resume files. The other numbers
are what was transferred so far, in all and by the torrents that were removed. -/
structure SavedStats where
  settings : StatsSettings := {}
  resume : List (ℕ × ℕ) := []
  sessions : ℕ := 0
  everUp : ℕ := 0
  everDown : ℕ := 0
  removedUp : ℕ := 0
  removedDown : ℕ := 0

/-- A session that goes on. -/
structure RunningStats where
  settings : StatsSettings
  stats : AccumStats
  torrents : List TorrentStats
  sessions : ℕ
  everUp : ℕ
  everDown : ℕ
  removedUp : ℕ
  removedDown : ℕ

/-- A torrent is added, transfers bytes, or is removed. -/
inductive StatsEvent
  | add
  | transfer (i up down : ℕ)
  | remove (i : ℕ)

namespace SavedStats

/-- `add_stats_when_load` -/
def addStatsWhenLoad (s : AccumStats) (param : ℕ × ℕ) : AccumStats :=
  (s.incUploadBytes (BitVec.ofNat 64 param.1)).incDownloadBytes (BitVec.ofNat 64 param.2)

/-- The program starts: `inject`, and `load` with the callbacks of its torrents. -/
def load (s : SavedStats) (now : BitVec 64) : RunningStats :=
  { s with
    stats := s.resume.foldl addStatsWhenLoad (AccumStats.inject { startTime := now } s.settings)
    torrents := s.resume.map fun param => ⟨param.1, param.2, param.1, param.2⟩ }

end SavedStats

namespace RunningStats

variable (r : RunningStats)

/-- One event. The status of a torrent that is removed is known. -/
def step : StatsEvent → RunningStats
  | .add => { r with torrents := r.torrents ++ [{}] }
  | .transfer i up down =>
    match r.torrents[i]? with
    | none => r
    | some t =>
      let t := { t with allTimeUpload := t.allTimeUpload + up, allTimeDownload := t.allTimeDownload + down }
      { r with torrents := r.torrents.set i t, everUp := r.everUp + up, everDown := r.everDown + down }
  | .remove i =>
    match r.torrents[i]? with
    | none => r
    | some t =>
      let delta := t.totalUpdownDeltaAtRemove true
      { r with
        stats := (r.stats.incUploadBytes delta.1).incDownloadBytes delta.2
        torrents := r.torrents.eraseIdx i
        removedUp := r.removedUp + t.allTimeUpload
        removedDown := r.removedDown + t.allTimeDownload }

/-- `close` -/
def close (now : BitVec 64) : SavedStats :=
  { r with
    settings := (r.stats.dump r.settings now).2
    resume := r.torrents.map fun t => (t.allTimeUpload, t.allTimeDownload)
    sessions := r.sessions + 1 }

end RunningStats

/-- A session of the program. -/
structure ProgramSession where
  start : BitVec 64
  events : List StatsEvent
  stop : BitVec 64

namespace SavedStats

def session (s : SavedStats) (p : ProgramSession) : SavedStats :=
  (p.events.foldl RunningStats.step (s.load p.start)).close p.stop

/-- The sessions, one after the other, of a client that is new. -/
def run (sessions : List ProgramSession) : SavedStats := sessions.foldl session {}

/-- Right after the next start, the statistics are what was transferred so far, and the number of sessions. -/
def Exact (s : SavedStats) : Prop := ∀ start now,
  let o := (s.load start).stats.offer now
  o.allUp.toNat = s.everUp ∧ o.allDn.toNat = s.everDown ∧ o.openTimes.toNat = s.sessions

end SavedStats

namespace AccumStats

/-- The bits that are read back: the low 16, and 32 more that have moved. -/
theorem getLsbD_restored (bytes : BitVec 64) (i : ℕ) : (restored bytes).getLsbD i =
    if i < 16 then bytes.getLsbD i else decide (32 ≤ i ∧ i < 64) && bytes.getLsbD (i - 16) := by
  have hlow : ∀ j, (bytes &&& 0xffff : BitVec 64).getLsbD j = (decide (j < 16) && bytes.getLsbD j) := by
    intro j
    have hmask : (0xffff : BitVec 64) = BitVec.ofNat 64 (2 ^ 16 - 1) := rfl
    rw [BitVec.getLsbD_and, hmask, BitVec.getLsbD_ofNat, Nat.testBit_two_pow_sub_one, Bool.and_comm]
    by_cases hj : j < 16
    · simp [hj, hj.trans]
    · simp [hj]
  have hmsb : ((bytes &&& 0xffff).setWidth 32).msb = false := by
    rw [BitVec.msb_eq_getLsbD_last, BitVec.getLsbD_setWidth, hlow]
    rfl
  rw [restored, join, split, BitVec.getLsbD_or, BitVec.getLsbD_shiftLeft, BitVec.getLsbD_signExtend,
    BitVec.getLsbD_signExtend, hmsb]
  dsimp only
  rw [BitVec.getLsbD_setWidth, BitVec.getLsbD_setWidth, hlow, BitVec.getLsbD_ushiftRight]
  rcases lt_or_ge i 32 with hi | hi
  · by_cases hi' : i < 16
    · simp [hi, hi', hi.trans]
    · simp [hi, hi', hi.not_ge]
  · have hshift : 16 + (i - 32) = i - 16 := by omega
    by_cases hi' : i < 64
    · simp [hi, hi', hi.not_gt, hshift, show i - 32 < 32 by omega, show ¬ i < 16 by omega,
        show i - 32 < 64 by omega]
    · simp [hi, hi', hi.not_gt, show ¬ i < 16 by omega]

/-- Just the totals below 2^16 are read back as they were. -/
theorem restored_eq_iff (bytes : BitVec 64) : restored bytes = bytes ↔ bytes.toNat < 2 ^ 16 := by
  constructor
  · intro h
    have hzero : ∀ i, 16 ≤ i → bytes.getLsbD i = false := by
      intro i hi
      induction i using Nat.strong_induction_on with
      | _ i ih =>
        rw [← h, getLsbD_restored, if_neg (not_lt.mpr hi)]
        by_cases hi' : 32 ≤ i
        · rw [ih (i - 16) (by omega) (by omega), Bool.and_false]
        · simp [hi']
    exact Nat.lt_pow_two_of_testBit _ fun i hi => hzero i hi
  · intro h
    refine BitVec.eq_of_getLsbD_eq fun i _ => ?_
    rw [getLsbD_restored]
    split_ifs with hi
    · rfl
    · have hzero : ∀ j, 16 ≤ j → bytes.getLsbD j = false := fun j hj =>
        Nat.testBit_lt_two_pow (h.trans_le (Nat.pow_le_pow_right (by decide) hj))
      rw [hzero i (not_lt.mp hi)]
      by_cases hi' : 32 ≤ i
      · rw [hzero (i - 16) (by omega), Bool.and_false]
      · simp [hi']

end AccumStats

namespace SavedStats

variable {s : SavedStats} {start now : BitVec 64}

/-- The bytes in the resume files. -/
def resumeUp (s : SavedStats) : ℕ := (s.resume.map Prod.fst).sum

def resumeDown (s : SavedStats) : ℕ := (s.resume.map Prod.snd).sum

theorem foldl_addStatsWhenLoad (a : AccumStats) (resume : List (ℕ × ℕ)) :
    resume.foldl addStatsWhenLoad a = { a with
      uploadedBytes := a.uploadedBytes + BitVec.ofNat 64 (resume.map Prod.fst).sum
      downloadedBytes := a.downloadedBytes + BitVec.ofNat 64 (resume.map Prod.snd).sum } := by
  induction resume generalizing a with
  | nil => simp
  | cons param resume ih =>
    rw [List.foldl_cons, ih]
    simp [addStatsWhenLoad, AccumStats.incUploadBytes, AccumStats.incDownloadBytes, BitVec.ofNat_add, add_assoc]

/-- The total of the uploads right after the next start. -/
def totalUp (s : SavedStats) : BitVec 64 :=
  AccumStats.join s.settings.uploadedBytesHigh32bit s.settings.uploadedBytesLow32bit + BitVec.ofNat 64 s.resumeUp

def totalDown (s : SavedStats) : BitVec 64 :=
  AccumStats.join s.settings.downloadedBytesHigh32bit s.settings.downloadedBytesLow32bit +
    BitVec.ofNat 64 s.resumeDown

theorem load_stats : (s.load start).stats = {
    startTime := start
    uploadedBytes := s.totalUp
    downloadedBytes := s.totalDown
    sessionCount := s.settings.sessionCount.signExtend 64
    secondsActive := s.settings.secondsActive.signExtend 64 } := foldl_addStatsWhenLoad _ _

theorem exact_iff : s.Exact ↔ s.totalUp.toNat = s.everUp ∧ s.totalDown.toNat = s.everDown ∧
    (s.settings.sessionCount.signExtend 64).toNat = s.sessions := by
  simp only [Exact, load_stats, AccumStats.offer, forall_const]

end SavedStats

/-- What a session keeps while it goes on: the statistics stay as they were loaded, and the bytes that were ever
transferred are those of the torrents that were removed and of the others. -/
structure RunningStats.Inv (s : SavedStats) (start : BitVec 64) (r : RunningStats) : Prop where
  stats : r.stats = (s.load start).stats
  settings : r.settings = s.settings
  sessions : r.sessions = s.sessions
  up : r.everUp = r.removedUp + (r.torrents.map TorrentStats.allTimeUpload).sum
  down : r.everDown = r.removedDown + (r.torrents.map TorrentStats.allTimeDownload).sum

namespace RunningStats.Inv

variable {s : SavedStats} {start : BitVec 64} {r : RunningStats}

theorem sum_eraseIdx {torrents : List TorrentStats} {i : ℕ} {t : TorrentStats} (ht : torrents[i]? = some t)
    (f : TorrentStats → ℕ) : (torrents.map f).sum = f t + ((torrents.eraseIdx i).map f).sum := by
  obtain ⟨hi, rfl⟩ := List.getElem?_eq_some_iff.mp ht
  rw [← ((List.getElem_cons_eraseIdx_perm hi).map f).sum_eq, List.map_cons, List.sum_cons]

theorem sum_set {torrents : List TorrentStats} {i : ℕ} {t : TorrentStats} (ht : torrents[i]? = some t)
    (t' : TorrentStats) (f : TorrentStats → ℕ) :
    ((torrents.set i t').map f).sum = f t' + ((torrents.eraseIdx i).map f).sum := by
  obtain ⟨hi, -⟩ := List.getElem?_eq_some_iff.mp ht
  rw [((List.set_perm_cons_eraseIdx hi t').map f).sum_eq, List.map_cons, List.sum_cons]

theorem step (h : Inv s start r) (e : StatsEvent) : Inv s start (r.step e) := by
  obtain ⟨hstats, hsettings, hsessions, hup, hdown⟩ := h
  cases e with
  | add => exact ⟨hstats, hsettings, hsessions, by simpa [RunningStats.step] using hup,
      by simpa [RunningStats.step] using hdown⟩
  | transfer i up down =>
    rw [RunningStats.step]
    rcases ht : r.torrents[i]? with - | t
    · exact ⟨hstats, hsettings, hsessions, hup, hdown⟩
    · dsimp only
      refine ⟨hstats, hsettings, hsessions, ?_, ?_⟩
      · rw [sum_set ht, hup, sum_eraseIdx ht]
        dsimp only
        omega
      · rw [sum_set ht, hdown, sum_eraseIdx ht]
        dsimp only
        omega
  | remove i =>
    rw [RunningStats.step]
    rcases ht : r.torrents[i]? with - | t
    · exact ⟨hstats, hsettings, hsessions, hup, hdown⟩
    · dsimp only
      refine ⟨?_, hsettings, hsessions, ?_, ?_⟩
      · rw [← hstats, TorrentStats.totalUpdownDeltaAtRemove, if_pos rfl, AccumStats.incUploadBytes,
          AccumStats.incDownloadBytes]
        dsimp only
        rw [add_zero, add_zero]
      · dsimp only
        rw [hup, sum_eraseIdx ht, add_assoc]
      · dsimp only
        rw [hdown, sum_eraseIdx ht, add_assoc]

theorem load (hup : s.everUp = s.removedUp + s.resumeUp) (hdown : s.everDown = s.removedDown + s.resumeDown) :
    Inv s start (s.load start) := by
  refine ⟨rfl, rfl, rfl, hup.trans ?_, hdown.trans ?_⟩
  · simp [SavedStats.load, SavedStats.resumeUp, Function.comp_def]
  · simp [SavedStats.load, SavedStats.resumeDown, Function.comp_def]

theorem foldl (h : Inv s start r) (events : List StatsEvent) : Inv s start (events.foldl RunningStats.step r) := by
  induction events generalizing r with
  | nil => exact h
  | cons e events ih => exact ih (h.step e)

end RunningStats.Inv

namespace SavedStats

variable {s : SavedStats} {p : ProgramSession} {sessions : List ProgramSession}

/-- The bytes that were ever transferred are those of the torrents that were removed and of the others. -/
def Balanced (s : SavedStats) : Prop :=
  s.everUp = s.removedUp + s.resumeUp ∧ s.everDown = s.removedDown + s.resumeDown

/-- What a session makes of the statistics, whatever happens in it. -/
theorem session_spec (h : s.Balanced) (p : ProgramSession) : (s.session p).Balanced ∧
    (s.session p).totalUp = AccumStats.restored s.totalUp + BitVec.ofNat 64 (s.session p).resumeUp ∧
    (s.session p).totalDown = AccumStats.restored s.totalDown + BitVec.ofNat 64 (s.session p).resumeDown ∧
    (s.session p).settings.sessionCount = AccumStats.clip (s.settings.sessionCount.signExtend 64 + 1) ∧
    (s.session p).sessions = s.sessions + 1 := by
  have hinv := (@RunningStats.Inv.load s p.start h.1 h.2).foldl p.events
  rw [session]
  generalize p.events.foldl RunningStats.step (s.load p.start) = r at hinv ⊢
  obtain ⟨hstats, -, hsessions, hup, hdown⟩ := hinv
  have hload := hstats.trans load_stats
  refine ⟨⟨?_, ?_⟩, ?_, ?_, ?_, ?_⟩
  · simp [RunningStats.close, resumeUp, Function.comp_def, hup]
  · simp [RunningStats.close, resumeDown, Function.comp_def, hdown]
  · rw [totalUp, RunningStats.close, AccumStats.dump, hload]
    rfl
  · rw [totalDown, RunningStats.close, AccumStats.dump, hload]
    rfl
  · rw [RunningStats.close, AccumStats.dump, hload]
  · rw [RunningStats.close, hsessions]

/-- From one session to the next the removed torrents have transferred what is read back of the total before. -/
def Counted (s s' : SavedStats) : Prop :=
  (AccumStats.restored (BitVec.ofNat 64 s.everUp)).toNat = s'.removedUp ∧
    (AccumStats.restored (BitVec.ofNat 64 s.everDown)).toNat = s'.removedDown

instance (s s' : SavedStats) : Decidable (Counted s s') := inferInstanceAs (Decidable (_ ∧ _))

theorem clip_ofNat {n : ℕ} (h : n < 2 ^ 31) : AccumStats.clip (BitVec.ofNat 64 n) = BitVec.ofNat 32 n := by
  have hle : ¬ AccumStats.intMax < BitVec.ofNat 64 n := by
    rw [BitVec.lt_def, BitVec.toNat_ofNat, Nat.mod_eq_of_lt (by omega), not_lt]
    exact Nat.le_of_lt_succ h
  rw [AccumStats.clip, if_neg hle, BitVec.setWidth_ofNat_of_le (by decide)]

theorem signExtend_ofNat {n : ℕ} (h : n < 2 ^ 31) : (BitVec.ofNat 32 n).signExtend 64 = BitVec.ofNat 64 n := by
  have hmsb : (BitVec.ofNat 32 n).msb = false := by
    rw [BitVec.msb_eq_false_iff_two_mul_lt, BitVec.toNat_ofNat, Nat.mod_eq_of_lt (by omega)]
    omega
  rw [BitVec.signExtend_eq_setWidth_of_msb_false hmsb, BitVec.setWidth_ofNat_of_le_of_lt (by decide) (by omega)]

theorem run_take_succ {k : ℕ} (hk : k < sessions.length) :
    run (sessions.take (k + 1)) = (run (sessions.take k)).session sessions[k] := by
  rw [run, List.take_succ_eq_append_getElem hk, List.foldl_append]
  rfl

theorem balanced_run (sessions : List ProgramSession) : (run sessions).Balanced := by
  induction sessions using List.reverseRecOn with
  | nil => exact ⟨rfl, rfl⟩
  | append_singleton sessions p ih =>
    rw [run, List.foldl_append]
    exact (session_spec ih p).1

theorem sessions_run (sessions : List ProgramSession) : (run sessions).sessions = sessions.length := by
  induction sessions using List.reverseRecOn with
  | nil => rfl
  | append_singleton sessions p ih =>
    rw [run, List.foldl_append, List.length_append]
    exact (session_spec (balanced_run sessions) p).2.2.2.2.trans (congrArg (· + 1) ih)

/-- The number of sessions is read back as it was, as long as it fits into an `int`. -/
theorem sessionCount_run (h : sessions.length < 2 ^ 31) :
    (run sessions).settings.sessionCount = BitVec.ofNat 32 sessions.length := by
  induction sessions using List.reverseRecOn with
  | nil => rfl
  | append_singleton sessions p ih =>
    rw [List.length_append, List.length_singleton] at h ⊢
    have hcount := (session_spec (balanced_run sessions) p).2.2.2.1
    rw [ih (by omega), signExtend_ofNat (by omega)] at hcount
    rw [run, List.foldl_append]
    refine hcount.trans ?_
    rw [← clip_ofNat h, BitVec.ofNat_add]
    rfl

theorem sessionCount_exact (h : sessions.length < 2 ^ 31) :
    ((run sessions).settings.sessionCount.signExtend 64).toNat = (run sessions).sessions := by
  rw [sessionCount_run h, signExtend_ofNat h, sessions_run, BitVec.toNat_ofNat, Nat.mod_eq_of_lt (by omega)]

/-- After that it is written as zero. -/
theorem not_exact_run (h : sessions.length = 2 ^ 31) : ¬ (run sessions).Exact := by
  rw [exact_iff]
  rintro ⟨-, -, hcount⟩
  rw [sessions_run, h] at hcount
  rcases List.eq_nil_or_concat' sessions with rfl | ⟨sessions, p, rfl⟩
  · cases h
  · rw [List.length_append, List.length_singleton] at h
    have hlen : sessions.length = 2 ^ 31 - 1 := by omega
    have hwritten := (session_spec (balanced_run sessions) p).2.2.2.1
    rw [sessionCount_run (by omega), signExtend_ofNat (by omega), hlen] at hwritten
    rw [run, List.foldl_append] at hcount
    have hread := hcount.symm.trans (congrArg (fun n : BitVec 32 => (n.signExtend 64).toNat) hwritten)
    revert hread
    decide

theorem toNat_eq_iff {bytes : BitVec 64} {n : ℕ} (hn : n < 2 ^ 63) : bytes.toNat = n ↔ bytes = BitVec.ofNat 64 n := by
  rw [← BitVec.toNat_inj, BitVec.toNat_ofNat, Nat.mod_eq_of_lt (by omega)]

/-- A session keeps a total exact just if the removed torrents have transferred what is read back of it. -/
theorem total_iff {total total' : BitVec 64} {ever ever' removed resume : ℕ} (hever : ever < 2 ^ 63)
    (hever' : ever' < 2 ^ 63) (hbalanced : ever' = removed + resume) (htotal : total.toNat = ever)
    (htotal' : total' = AccumStats.restored total + BitVec.ofNat 64 resume) :
    total'.toNat = ever' ↔ (AccumStats.restored (BitVec.ofNat 64 ever)).toNat = removed := by
  rw [toNat_eq_iff hever', toNat_eq_iff (by omega), htotal', (toNat_eq_iff hever).mp htotal, hbalanced,
    BitVec.ofNat_add, add_left_inj]

/-- One more session keeps the statistics exact just if the totals are. -/
theorem exact_succ_iff {k : ℕ} (hk : k < sessions.length)
    (hbound : ∀ k ≤ sessions.length, (run (sessions.take k)).everUp < 2 ^ 63 ∧
      (run (sessions.take k)).everDown < 2 ^ 63)
    (h : (run (sessions.take k)).Exact ∧ k < 2 ^ 31) :
    (run (sessions.take (k + 1))).Exact ∧ k + 1 < 2 ^ 31 ↔
      Counted (run (sessions.take k)) (run (sessions.take (k + 1))) ∧ k + 1 < 2 ^ 31 := by
  obtain ⟨hexact, hlt⟩ := h
  obtain ⟨hup, hdown, -⟩ := exact_iff.mp hexact
  have hlen : (sessions.take (k + 1)).length = k + 1 := List.length_take_of_le hk
  refine and_congr_left fun hlt' => ?_
  have hcount := sessionCount_exact (hlen.trans_lt hlt')
  rw [exact_iff, and_iff_left hcount, Counted]
  obtain ⟨hbalanced, htotalUp, htotalDown, -, -⟩ := session_spec (balanced_run (sessions.take k)) sessions[k]
  rw [← run_take_succ hk] at hbalanced htotalUp htotalDown
  exact and_congr
    (total_iff (hbound k hk.le).1 (hbound (k + 1) hk).1 hbalanced.1 hup htotalUp)
    (total_iff (hbound k hk.le).2 (hbound (k + 1) hk).2 hbalanced.2 hdown htotalDown)

/-- The statistics are exact at every start just if from each session to the next the removed torrents have
transferred what is read back of the total before, and the sessions can be counted. Just the totals below 2^16 are
read back as they were. -/
theorem run_exact_iff (sessions : List ProgramSession)
    (hbound : ∀ k ≤ sessions.length, (run (sessions.take k)).everUp < 2 ^ 63 ∧
      (run (sessions.take k)).everDown < 2 ^ 63) :
    ((∀ k ≤ sessions.length, (run (sessions.take k)).Exact) ↔ sessions.length < 2 ^ 31 ∧
      ∀ k < sessions.length, Counted (run (sessions.take k)) (run (sessions.take (k + 1)))) ∧
    ∀ bytes, AccumStats.restored bytes = bytes ↔ bytes.toNat < 2 ^ 16 := by
  refine ⟨⟨fun h => ?_, fun ⟨hlen, h⟩ => ?_⟩, AccumStats.restored_eq_iff⟩
  · have hlen : sessions.length < 2 ^ 31 := by
      by_contra hge
      have hle := not_lt.mp hge
      exact not_exact_run (List.length_take_of_le hle) (h _ hle)
    refine ⟨hlen, fun k hk => ?_⟩
    exact ((exact_succ_iff hk hbound ⟨h k hk.le, hk.trans hlen⟩).mp ⟨h (k + 1) hk, by omega⟩).1
  · intro k hk
    induction k with
    | zero =>
      rw [List.take_zero]
      exact exact_iff.mpr ⟨rfl, rfl, rfl⟩
    | succ k ih =>
      exact ((exact_succ_iff hk hbound ⟨ih (Nat.le_of_succ_le hk), by omega⟩).mpr ⟨h k hk, by omega⟩).1

/-- A torrent is removed in the session after the one in which it was added and transferred something. -/
theorem run_exact_two : (run [⟨0, [.add, .transfer 0 100 7], 5⟩, ⟨9, [.remove 0], 11⟩]).Exact :=
  (run_exact_iff [⟨0, [.add, .transfer 0 100 7], 5⟩, ⟨9, [.remove 0], 11⟩] (by decide)).1.mpr
    ⟨by decide, by decide⟩ 2 le_rfl

/-- What a torrent has transferred counts twice after two sessions, a torrent that is removed in its first session
does not count at all, and a total of 2^16 is not read back as it was. -/
theorem not_run_exact : ¬ (run [⟨0, [.add, .transfer 0 100 7], 5⟩, ⟨9, [], 11⟩]).Exact ∧
    ¬ (run [⟨0, [.add, .transfer 0 100 7, .remove 0], 5⟩]).Exact ∧
    AccumStats.restored 0x10000 ≠ 0x10000 := by
  refine ⟨fun h => ?_, fun h => ?_, by decide⟩
  · have hup := (h 0 0).1
    revert hup
    decide
  · have hup := (h 0 0).1
    revert hup
    decide

end SavedStats

end Client

end LibtorrentSN
