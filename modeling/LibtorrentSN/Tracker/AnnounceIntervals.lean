import Mathlib.Algebra.Order.Ring.Int
import Mathlib.Data.Int.Order.Basic
import Mathlib.Order.MinMax
import LibtorrentSN.Tracker.AnnounceTrackers

/-!
# The intervals of the announces

A tracker says how long to wait for the next announce, and a torrent waits longer each time a tracker fails
(`src/torrent.cpp`, `src/announce_entry.cpp`). The numbers come from the network (`src/http_tracker_connection.cpp`,
`src/udp_tracker_connection.cpp`). Here times and durations are in the 32 bits that the code has for them.
-/

namespace LibtorrentSN

namespace Tracker

/-- The value of an `int32_t`. -/
def int32 (n : ℤ) : ℤ := (n + 2 ^ 31) % 2 ^ 32 - 2 ^ 31

def IsInt32 (n : ℤ) : Prop := -2 ^ 31 ≤ n ∧ n < 2 ^ 31

/-- The times of `tracker_response`. -/
structure ResponseIntervals where
  interval : ℤ
  minInterval : ℤ
  deriving DecidableEq

/-- `parse_tracker_response`, with the numbers of the bencoded answer. -/
def parseTrackerResponse (interval minInterval : Option ℤ) : ResponseIntervals where
  -- if no interval is specified, default to 30 minutes
  interval := int32 (interval.getD 1800)
  minInterval := int32 (minInterval.getD 30)

/-- `on_announce_response` -/
def onAnnounceResponse (interval : ℤ) : ResponseIntervals where
  interval := int32 interval
  minInterval := 60

/-- The retry interval of an answer that is a failure. -/
def ResponseIntervals.retryInterval (resp : ResponseIntervals) : ℤ :=
  if resp.interval = 0 then resp.minInterval else resp.interval

/-- `announce_infohash`, with its times as the code has them. -/
structure Infohash32 where
  nextAnnounce : ℤ
  minAnnounce : ℤ
  fails : ℕ
  updating : Bool
  completeSent : Bool
  deriving DecidableEq

namespace Infohash32

variable (a : Infohash32)

/-- What a response changes, as an answer to a completed event or to another one. -/
def respond (resp : ResponseIntervals) (completed : Bool) (minAnnounceInterval now : ℤ) : Infohash32 :=
  let interval := max resp.interval minAnnounceInterval
  { nextAnnounce := int32 (now + interval)
    minAnnounce := int32 (now + resp.minInterval)
    fails := 0
    updating := false
    completeSent := a.completeSent || completed }

/-- The delay after a number of failures. -/
def backOff (fails : ℕ) (backoffRatio : ℤ) : ℤ :=
  let failSquare := int32 (fails * fails)
  min (60 * 60) (int32 (5 + (int32 (int32 (failSquare * 5) * backoffRatio)).tdiv 100))

def failed (backoffRatio retryInterval now : ℤ) : Infohash32 :=
  -- fails is only 7 bits
  let fails := if a.fails < 2 ^ 7 - 1 then a.fails + 1 else a.fails
  let delay := max retryInterval (backOff fails backoffRatio)
  { a with
    fails
    nextAnnounce := if fails = 0 then a.nextAnnounce else int32 (now + delay)
    updating := false }

/-- A time in nanoseconds. -/
def nanoseconds (seconds : ℤ) : ℤ := seconds * 10 ^ 9

/-- `can_announce`, at a time in nanoseconds -/
def canAnnounce (now : ℤ) (isSeed : Bool) (failLimit : ℕ) : Bool :=
  let needSendComplete := isSeed && !a.completeSent
  nanoseconds a.nextAnnounce ≤ now + nanoseconds 1 && (nanoseconds a.minAnnounce ≤ now || needSendComplete) &&
    (a.fails < failLimit || failLimit = 0) && !a.updating

/-- It does not announce before so many seconds are over. -/
def Waits (isSeed : Bool) (failLimit : ℕ) (now seconds : ℤ) : Prop :=
  ∀ time, nanoseconds now ≤ time → time < nanoseconds (now + seconds) → a.canAnnounce time isSeed failLimit = false

end Infohash32

/-! ## Sums that leave the 32 bits -/

theorem int32_of_isInt32 {n : ℤ} (h : IsInt32 n) : int32 n = n := by
  obtain ⟨hlow, hhigh⟩ := h
  rw [int32]
  omega

theorem isInt32_int32 (n : ℤ) : IsInt32 (int32 n) := by
  rw [IsInt32, int32]
  omega

variable {now n : ℤ}

/-- A sum with a time after the epoch that leaves the 32 bits is before the epoch. -/
theorem int32_add_of_le (hnow : now < 2 ^ 31) (hn : n < 2 ^ 31) (h : 2 ^ 31 ≤ now + n) :
    int32 (now + n) = now + n - 2 ^ 32 := by
  rw [int32]
  omega

theorem int32_add_of_lt (hnow : 0 ≤ now) (hn : -2 ^ 31 ≤ n) (h : now + n < 2 ^ 31) : int32 (now + n) = now + n :=
  int32_of_isInt32 ⟨by omega, h⟩

/-- A sum is at least so many seconds later if it does not leave the 32 bits. -/
theorem le_int32_add_iff {wait : ℤ} (hnow : 0 ≤ now ∧ now < 2 ^ 31) (hn : IsInt32 n) (hwait : 0 < wait) :
    now + wait ≤ int32 (now + n) ↔ wait ≤ n ∧ now + n < 2 ^ 31 := by
  obtain ⟨hlow, hhigh⟩ := hn
  rcases lt_or_ge (now + n) (2 ^ 31) with hlt | hge
  · rw [int32_add_of_lt hnow.1 hlow hlt]
    omega
  · rw [int32_add_of_le hnow.2 hhigh hge]
    omega

namespace Infohash32

variable {a : Infohash32} {isSeed : Bool} {failLimit : ℕ} {seconds : ℤ}

/-- A completed event is still to be sent. -/
def NeedsComplete (a : Infohash32) (isSeed : Bool) : Prop := isSeed = true ∧ a.completeSent = false

instance : Decidable (a.NeedsComplete isSeed) := inferInstanceAs (Decidable (_ ∧ _))

theorem canAnnounce_eq_true_iff {time : ℤ} : a.canAnnounce time isSeed failLimit = true ↔
    nanoseconds a.nextAnnounce ≤ time + nanoseconds 1 ∧
      (nanoseconds a.minAnnounce ≤ time ∨ a.NeedsComplete isSeed) ∧
      (a.fails < failLimit ∨ failLimit = 0) ∧ a.updating = false := by
  simp only [canAnnounce, Bool.and_eq_true, Bool.or_eq_true, Bool.not_eq_true', decide_eq_true_eq, NeedsComplete,
    and_assoc]

/-- What keeps an endpoint from an announce for so many seconds. -/
theorem waits_iff (hseconds : 0 < seconds) : a.Waits isSeed failLimit now seconds ↔
    now + (seconds + 1) ≤ a.nextAnnounce ∨ (¬ a.NeedsComplete isSeed ∧ now + seconds ≤ a.minAnnounce) ∨
      (failLimit ≠ 0 ∧ failLimit ≤ a.fails) ∨ a.updating = true := by
  constructor
  · intro hwaits
    by_contra hnot
    obtain ⟨hnext, hnot⟩ := not_or.mp hnot
    obtain ⟨hmin, hnot⟩ := not_or.mp hnot
    obtain ⟨hlimit, hupdating⟩ := not_or.mp hnot
    -- the first second at which everything is due
    have hdue : ∃ time, now ≤ time ∧ time < now + seconds ∧ a.nextAnnounce ≤ time + 1 ∧
        (a.minAnnounce ≤ time ∨ a.NeedsComplete isSeed) := by
      by_cases hneeds : a.NeedsComplete isSeed
      · exact ⟨max now (a.nextAnnounce - 1), by omega, by omega, by omega, .inr hneeds⟩
      · have hmin : ¬ now + seconds ≤ a.minAnnounce := fun hle => hmin ⟨hneeds, hle⟩
        exact ⟨max now (max (a.nextAnnounce - 1) a.minAnnounce), by omega, by omega, by omega, .inl (by omega)⟩
    obtain ⟨time, hle, hlt, hnext, hmin⟩ := hdue
    have hcan : a.canAnnounce (nanoseconds time) isSeed failLimit = true := by
      refine canAnnounce_eq_true_iff.mpr ⟨?_, hmin.imp_left fun hmin => ?_, ?_, eq_false_of_ne_true hupdating⟩
      · simp only [nanoseconds]
        omega
      · simp only [nanoseconds]
        omega
      · omega
    rw [hwaits (nanoseconds time) (by simp only [nanoseconds]; omega) (by simp only [nanoseconds]; omega)] at hcan
    cases hcan
  · intro hor time hle hlt
    refine eq_false_of_ne_true fun hcan => ?_
    obtain ⟨hnext, hmin, hlimit, hupdating⟩ := canAnnounce_eq_true_iff.mp hcan
    simp only [nanoseconds] at hle hlt hnext hmin
    rcases hor with hlater | ⟨hneeds, hlater⟩ | hover | hupdating'
    · omega
    · have hmin := hmin.resolve_right hneeds
      omega
    · omega
    · rw [hupdating] at hupdating'
      cases hupdating'

/-- No product of the delay leaves the 32 bits. -/
theorem backOff_eq {fails : ℕ} (hfails : fails ≤ 127) {backoffRatio : ℤ} (hlow : 0 ≤ backoffRatio)
    (hhigh : backoffRatio ≤ 10000) :
    backOff fails backoffRatio = min (60 * 60) (5 + fails * fails * 5 * backoffRatio / 100) ∧
      0 ≤ (fails : ℤ) * fails * 5 * backoffRatio := by
  obtain ⟨hsquare, hsquare'⟩ : 0 ≤ (fails : ℤ) * fails ∧ (fails : ℤ) * fails ≤ 127 * 127 :=
    ⟨mul_nonneg (Int.natCast_nonneg _) (Int.natCast_nonneg _), by exact_mod_cast Nat.mul_le_mul hfails hfails⟩
  rw [backOff]
  generalize (fails : ℤ) * fails = square at hsquare hsquare' ⊢
  have hproduct : 0 ≤ square * 5 * backoffRatio := mul_nonneg (by omega) hlow
  have hproduct' : square * 5 * backoffRatio ≤ 127 * 127 * 5 * 10000 :=
    mul_le_mul (by omega) hhigh hlow (by decide)
  refine ⟨?_, hproduct⟩
  have hquotient : 0 ≤ square * 5 * backoffRatio / 100 ∧ square * 5 * backoffRatio / 100 ≤ 127 * 127 * 5 * 100 := by
    omega
  rw [int32_of_isInt32 (n := square) (by rw [IsInt32]; omega), int32_of_isInt32 (n := square * 5) (by rw [IsInt32]; omega),
    int32_of_isInt32 (n := square * 5 * backoffRatio) (by rw [IsInt32]; omega), Int.tdiv_eq_ediv_of_nonneg hproduct,
    int32_of_isInt32 (by rw [IsInt32]; omega)]

theorem le_backOff {fails : ℕ} (hfails : fails ≤ 127) {backoffRatio : ℤ} (hlow : 0 ≤ backoffRatio)
    (hhigh : backoffRatio ≤ 10000) : 5 ≤ backOff fails backoffRatio ∧ backOff fails backoffRatio ≤ 60 * 60 := by
  obtain ⟨heq, hproduct⟩ := backOff_eq hfails hlow hhigh
  rw [heq]
  omega

/-- The failures after another one. -/
def nextFails (a : Infohash32) : ℕ := min (a.fails + 1) 127

theorem failed_eq (hfails : a.fails ≤ 127) (backoffRatio retryInterval : ℤ) :
    a.failed backoffRatio retryInterval now =
      { a with
        fails := a.nextFails
        nextAnnounce := int32 (now + max retryInterval (backOff a.nextFails backoffRatio))
        updating := false } := by
  have hnext : (if a.fails < 2 ^ 7 - 1 then a.fails + 1 else a.fails) = a.nextFails := by
    rw [nextFails]
    split <;> omega
  have hpos : a.nextFails ≠ 0 := by
    rw [nextFails]
    omega
  rw [failed, hnext, if_neg hpos]

/-- When a tracker that has answered is not asked again too early: after a success for a second less than the least
interval, and after a failure for four seconds. -/
theorem answered_waits_iff (a : Infohash32) (hfails : a.fails ≤ 127) (hnow : 0 ≤ now ∧ now < 2 ^ 31) (isSeed : Bool)
    (failLimit : ℕ) :
    (∀ (resp : ResponseIntervals) (completed : Bool) (minAnnounceInterval : ℤ), IsInt32 resp.interval →
      IsInt32 resp.minInterval → IsInt32 minAnnounceInterval →
      ((a.respond resp completed minAnnounceInterval now).Waits isSeed failLimit now (minAnnounceInterval - 1) ↔
        minAnnounceInterval ≤ 1 ∨ now + max resp.interval minAnnounceInterval < 2 ^ 31 ∨
          (¬ (isSeed = true ∧ a.completeSent = false ∧ completed = false) ∧
            minAnnounceInterval - 1 ≤ resp.minInterval ∧ now + resp.minInterval < 2 ^ 31))) ∧
    ∀ retryInterval backoffRatio : ℤ, IsInt32 retryInterval → 0 ≤ backoffRatio ∧ backoffRatio ≤ 10000 →
      ((a.failed backoffRatio retryInterval now).Waits isSeed failLimit now 4 ↔
        (now + retryInterval < 2 ^ 31 ∧
          now + min (60 * 60) (5 + (a.nextFails : ℤ) * a.nextFails * 5 * backoffRatio / 100) < 2 ^ 31) ∨
        (¬ (isSeed = true ∧ a.completeSent = false) ∧ now + 4 ≤ a.minAnnounce) ∨
          (failLimit ≠ 0 ∧ failLimit ≤ a.nextFails)) := by
  constructor
  · intro resp completed minAnnounceInterval hinterval hmin hleast
    rcases le_or_gt minAnnounceInterval 1 with hle | hgt
    · refine iff_of_true (fun time hbefore hafter => ?_) (.inl hle)
      simp only [nanoseconds] at hbefore hafter
      omega
    · have hmax : IsInt32 (max resp.interval minAnnounceInterval) := by
        rw [IsInt32] at *
        omega
      have hneeds : (a.respond resp completed minAnnounceInterval now).NeedsComplete isSeed ↔
          isSeed = true ∧ a.completeSent = false ∧ completed = false := and_congr_right fun _ => Bool.or_eq_false_iff
      have hlimit : ¬ (failLimit ≠ 0 ∧ failLimit ≤ (a.respond resp completed minAnnounceInterval now).fails) :=
        fun hand => hand.1 (Nat.le_zero.mp hand.2)
      have hupdating : (a.respond resp completed minAnnounceInterval now).updating ≠ true := Bool.false_ne_true
      rw [waits_iff (by omega), hneeds, or_iff_left hupdating, or_iff_left hlimit, or_iff_right hgt.not_ge]
      refine or_congr ?_ (and_congr_right fun _ => ?_)
      · rw [sub_add_cancel]
        refine (le_int32_add_iff hnow hmax (by omega)).trans (and_iff_right (le_max_right _ _))
      · exact le_int32_add_iff hnow hmin (by omega)
  · intro retryInterval backoffRatio hretry hratio
    have hnext : a.nextFails ≤ 127 := min_le_right _ _
    obtain ⟨hlow, hhigh⟩ := le_backOff hnext hratio.1 hratio.2
    have hdelay : IsInt32 (max retryInterval (backOff a.nextFails backoffRatio)) := by
      rw [IsInt32] at *
      omega
    rw [failed_eq hfails, waits_iff (by decide), ← (backOff_eq hnext hratio.1 hratio.2).1]
    dsimp only
    rw [or_iff_left Bool.false_ne_true]
    refine or_congr ?_ Iff.rfl
    rw [le_int32_add_iff hnow hdelay (by decide)]
    omega

/-! ## The numbers that trackers send -/

theorem isInt32_parseTrackerResponse (interval minInterval : Option ℤ) :
    IsInt32 (parseTrackerResponse interval minInterval).interval ∧
      IsInt32 (parseTrackerResponse interval minInterval).minInterval :=
  ⟨isInt32_int32 _, isInt32_int32 _⟩

theorem isInt32_retryInterval {resp : ResponseIntervals} (hinterval : IsInt32 resp.interval)
    (hmin : IsInt32 resp.minInterval) : IsInt32 resp.retryInterval := by
  rw [ResponseIntervals.retryInterval]
  split
  · exact hmin
  · exact hinterval

/-- An endpoint that has a request under way. -/
def asked : Infohash32 where
  nextAnnounce := 1700000000
  minAnnounce := 1700000000
  fails := 0
  updating := true
  completeSent := false

theorem answered_waits_iff_default :
    (asked.respond (parseTrackerResponse none none) false 300 1700000000).Waits false 0 1700000000 299 ∧
      (asked.failed 250 (parseTrackerResponse (some 0) none).retryInterval 1700000000).Waits false 0 1700000000 4 := by
  have hwaits := @answered_waits_iff 1700000000 asked (by decide) (by decide) false 0
  obtain ⟨hinterval, hmin⟩ := isInt32_parseTrackerResponse none none
  refine ⟨(hwaits.1 _ false 300 hinterval hmin ⟨by decide, by decide⟩).mpr (.inr (.inl (by decide))),
    (hwaits.2 _ 250 ?_ (by decide)).mpr (.inl (by decide))⟩
  obtain ⟨hinterval, hmin⟩ := isInt32_parseTrackerResponse (some 0) none
  exact isInt32_retryInterval hinterval hmin

/-- The largest interval makes the next announce due at once, after a success and after a failure. -/
theorem not_answered_waits :
    ¬ (asked.respond (parseTrackerResponse (some (2 ^ 31 - 1)) (some 0)) false 300 1700000000).Waits
        false 0 1700000000 299 ∧
      ¬ (asked.respond (onAnnounceResponse (2 ^ 31 - 1)) false 300 1700000000).Waits false 0 1700000000 299 ∧
      ¬ (asked.failed 250 (parseTrackerResponse (some (2 ^ 31 - 1)) none).retryInterval 1700000000).Waits
        false 0 1700000000 4 := by
  refine ⟨fun h => ?_, fun h => ?_, fun h => ?_⟩
  · exact absurd (h (nanoseconds 1700000000) (by decide) (by decide)) (by decide)
  · exact absurd (h (nanoseconds 1700000060) (by decide) (by decide)) (by decide)
  · exact absurd (h (nanoseconds 1700000000) (by decide) (by decide)) (by decide)

end Infohash32

end Tracker

end LibtorrentSN
