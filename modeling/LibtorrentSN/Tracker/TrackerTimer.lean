import Mathlib.Data.List.Induction
import Mathlib.Data.Nat.Basic
import Mathlib.Order.MinMax
import LibtorrentSN.Tracker.AnnounceTrackers

/-!
# The timer of the trackers

The timer of a torrent is set to the time of its next announce (`src/torrent.cpp`, `update_tracker_timer`). Its loop
over the trackers is written apart from the one of the announce itself.
-/

namespace LibtorrentSN

namespace Tracker

/-- `time_point32::max()` -/
def timePointMax : ℕ := 2 ^ 31 - 1

/-- `timer_state::state_t` -/
structure TimerState where
  tier : ℕ := 2 ^ 31 - 1
  foundWorking : Bool := false
  done : Bool := false
  deriving DecidableEq

/-- The variables of the loop over the trackers. -/
structure TimerLoop where
  nextAnnounce : ℕ := timePointMax
  seen : List ℕ := []
  states : ℕ → TimerState := fun _ => {}

namespace AnnounceInfohash

def underLimit (a : AnnounceInfohash) (failLimit : ℕ) : Bool := a.fails < failLimit || failLimit = 0

/-- The time that the timer takes from an endpoint. -/
def nextTrackerAnnounce (a : AnnounceInfohash) : ℕ := max a.nextAnnounce a.minAnnounce

end AnnounceInfohash

namespace AnnounceEnv

variable (env : AnnounceEnv)

/-- Whether the time of an endpoint is taken, and the state of its socket afterwards. -/
def consider (ae : AnnounceEntry) (a : AnnounceInfohash) (state : TimerState) : Bool × TimerState :=
  if state.done then (false, state)
  else if env.announceToAllTiers ∧ ¬ env.announceToAllTrackers ∧ state.foundWorking ∧ ae.tier ≤ state.tier ∧
      state.tier ≠ 2 ^ 31 - 1 then (false, state)
  else if state.tier < ae.tier ∧ ¬ env.announceToAllTiers then (false, state)
  else
    let foundWorking := if state.tier < ae.tier then false else state.foundWorking
    let state := { state with tier := ae.tier, foundWorking }
    if ae.failLimit ≤ a.fails ∧ ae.failLimit ≠ 0 then (false, state)
    else
      let foundWorking := state.foundWorking || a.updating || a.isWorking
      (!a.updating, { state with
        foundWorking
        done := foundWorking && !env.announceToAllTrackers && !env.announceToAllTiers })

/-- The same, if the endpoint is enabled. -/
def considerEndpoint (ae : AnnounceEntry) (aep : AnnounceEndpoint) (state : TimerState) : Bool × TimerState :=
  if aep.enabled = true ∧ env.hasV1 = true then env.consider ae aep.infoHash state else (false, state)

/-- The body of the loop over the endpoints of a tracker. -/
def timerEndpoint (ae : AnnounceEntry) (loop : TimerLoop) (aep : AnnounceEndpoint) : TimerLoop :=
  let (taken, state) := env.considerEndpoint ae aep (loop.states aep.socket)
  let next := aep.infoHash.nextTrackerAnnounce
  { nextAnnounce := if taken ∧ next < loop.nextAnnounce then next else loop.nextAnnounce
    seen := if aep.socket ∈ loop.seen then loop.seen else loop.seen ++ [aep.socket]
    states := Function.update loop.states aep.socket state }

/-- The loop over the trackers. -/
def timerTrackers : TimerLoop → List AnnounceEntry → TimerLoop
  | loop, [] => loop
  | loop, ae :: trackers =>
    let loop := ae.endpoints.foldl (env.timerEndpoint ae) loop
    if loop.seen.all fun socket => !env.hasV1 || (loop.states socket).done then loop
    else timerTrackers loop trackers

end AnnounceEnv

namespace TorrentTrackers

variable (s : TorrentTrackers) (env : AnnounceEnv)

/-- `next_announce` of `update_tracker_timer` after the loop -/
def nextAnnounce : ℕ := (env.timerTrackers {} s.trackers).nextAnnounce

/-- The time that `update_tracker_timer` sets the timer to, if it does. -/
def updateTrackerTimer : Option ℕ :=
  if ¬ s.announcing then none
  else if s.nextAnnounce env ≤ env.now then some env.now
  -- if no tracker can be announced to, check again in a minute
  else if s.nextAnnounce env = timePointMax then some (env.now + 60)
  else some (s.nextAnnounce env)

end TorrentTrackers

/-! ## What stands in the way of an endpoint -/

namespace AnnounceEnv

variable (env : AnnounceEnv)

/-- An endpoint that works stands in the way of another one of its socket. -/
def InWay (tier' tier : ℕ) : Prop :=
  if env.announceToAllTiers then env.announceToAllTrackers = false ∧ tier' = tier
  else env.announceToAllTrackers = false ∨ tier' < tier

/-- For the timer an endpoint counts that works or has a request under way. -/
def Counts (ae : AnnounceEntry) (a : AnnounceInfohash) : Prop :=
  a.underLimit ae.failLimit = true ∧ (a.updating = true ∨ a.isWorking = true)

/-- For the timer an endpoint stands in the way of another one of its socket. -/
def TimerInWay (ae : AnnounceEntry) (a : AnnounceInfohash) (tier : ℕ) : Prop :=
  if env.announceToAllTiers then env.announceToAllTrackers = false ∧ ae.tier = tier ∧ Counts ae a
  else ae.tier < tier ∨ (env.announceToAllTrackers = false ∧ Counts ae a)

/-- The endpoint is enabled, and there is an info-hash to announce. -/
def TakesPart (aep : AnnounceEndpoint) : Prop := aep.enabled = true ∧ env.hasV1 = true

/-- For the timer a socket has been served once an endpoint in its first tier counts. -/
def TimerDone (trackers : List AnnounceEntry) (socket : ℕ) : Prop :=
  env.announceToAllTrackers = false ∧ env.announceToAllTiers = false ∧
    ∃ ae ∈ trackers, ∃ aep ∈ ae.endpoints, aep.socket = socket ∧ env.TakesPart aep ∧ Counts ae aep.infoHash ∧
      ∀ ae' ∈ trackers, ∀ aep' ∈ ae'.endpoints, aep'.socket = socket → env.TakesPart aep' → ae.tier ≤ ae'.tier

/-- The timer looks at no tracker behind these. -/
def TimerStops (trackers : List AnnounceEntry) : Prop :=
  trackers ≠ [] ∧ ∀ ae ∈ trackers, ∀ aep ∈ ae.endpoints, env.TimerDone trackers aep.socket

/-- The timer takes the time of an endpoint of a tracker that stands behind these. -/
structure LooksAt (front : List AnnounceEntry) (ae : AnnounceEntry) (aep : AnnounceEndpoint) : Prop where
  mem : aep ∈ ae.endpoints
  takesPart : env.TakesPart aep
  underLimit : aep.infoHash.underLimit ae.failLimit = true
  updating : aep.infoHash.updating = false
  inWay : ∀ ae' ∈ front, ∀ aep' ∈ ae'.endpoints, aep'.socket = aep.socket → env.TakesPart aep' →
    ¬ env.TimerInWay ae' aep'.infoHash ae.tier
  stops : ∀ trackers, trackers <+: front → ¬ env.TimerStops trackers

/-- The timer passes over the endpoints of the tier. -/
def TimerBlocked (state : TimerState) (tier : ℕ) : Prop :=
  state.done = true ∨
    (env.announceToAllTiers = true ∧ env.announceToAllTrackers = false ∧ state.foundWorking = true ∧
      tier ≤ state.tier ∧ state.tier ≠ 2 ^ 31 - 1) ∨
    (state.tier < tier ∧ env.announceToAllTiers = false)

/-- A state of the timer that its loop can be in. -/
structure TimerSound (state : TimerState) : Prop where
  tier_ne : state.foundWorking = true → state.tier ≠ 2 ^ 31 - 1
  done : state.done = true ↔
    state.foundWorking = true ∧ env.announceToAllTrackers = false ∧ env.announceToAllTiers = false

variable {env} {ae : AnnounceEntry} {a : AnnounceInfohash} {state : TimerState} {tier : ℕ}

theorem consider_of_blocked (h : env.TimerBlocked state ae.tier) : env.consider ae a state = (false, state) := by
  rw [consider]
  rcases h with h | h | h
  · rw [if_pos h]
  · split
    · rfl
    · rw [if_pos ⟨h.1, by simp [h.2.1], h.2.2⟩]
  · split
    · rfl
    · split
      · rfl
      · rw [if_pos ⟨h.1, by simp [h.2]⟩]

/-- An endpoint that the timer does not pass over. -/
theorem consider_spec (hsound : env.TimerSound state) (h : ¬ env.TimerBlocked state ae.tier) :
    (env.consider ae a state).1 = (a.underLimit ae.failLimit && !a.updating) ∧
      (env.consider ae a state).2.tier = ae.tier ∧
      (env.announceToAllTrackers = false → ((env.consider ae a state).2.foundWorking = true ↔ Counts ae a)) ∧
      ((env.consider ae a state).2.done = true ↔
        Counts ae a ∧ env.announceToAllTrackers = false ∧ env.announceToAllTiers = false) := by
  obtain ⟨hdone, h⟩ := not_or.mp h
  obtain ⟨hsame, hlower⟩ := not_or.mp h
  have hnone : env.announceToAllTrackers = false →
      (if state.tier < ae.tier then false else state.foundWorking) = false := by
    intro htrackers
    split
    · rfl
    · next hle =>
      refine eq_false_of_ne_true fun hfound => ?_
      cases htiers : env.announceToAllTiers with
      | false => exact hdone (hsound.done.mpr ⟨hfound, htrackers, htiers⟩)
      | true => exact hsame ⟨htiers, htrackers, hfound, not_lt.mp hle, hsound.tier_ne hfound⟩
  have hlimit : a.underLimit ae.failLimit = true ↔ ¬ (ae.failLimit ≤ a.fails ∧ ae.failLimit ≠ 0) := by
    rw [AnnounceInfohash.underLimit, Bool.or_eq_true, decide_eq_true_iff, decide_eq_true_iff, not_and_or, not_le,
      not_not]
  rw [consider, if_neg hdone, if_neg fun hand => hsame ⟨hand.1, by simpa using hand.2.1, hand.2.2⟩,
    if_neg fun hand => hlower ⟨hand.1, by simpa using hand.2⟩]
  dsimp only
  by_cases hover : ae.failLimit ≤ a.fails ∧ ae.failLimit ≠ 0
  · have hunder : a.underLimit ae.failLimit = false := eq_false_of_ne_true fun hu => hlimit.mp hu hover
    have hcounts : ¬ Counts ae a := fun hc => hlimit.mp hc.1 hover
    rw [if_pos hover, hunder]
    refine ⟨rfl, rfl, fun htrackers => ?_, iff_of_false hdone fun hand => hcounts hand.1⟩
    dsimp only
    rw [hnone htrackers]
    exact iff_of_false Bool.false_ne_true hcounts
  · have hunder := hlimit.mpr hover
    have hcounts : Counts ae a ↔ (a.updating || a.isWorking) = true := by
      rw [Counts, Bool.or_eq_true]
      exact and_iff_right hunder
    rw [if_neg hover, hunder, hcounts]
    refine ⟨rfl, rfl, fun htrackers => ?_, ?_⟩
    · dsimp only
      rw [hnone htrackers, Bool.false_or]
    · dsimp only
      cases htrackers : env.announceToAllTrackers with
      | true => simp
      | false =>
        rw [hnone htrackers]
        simp

theorem timerSound_consider (hsound : env.TimerSound state) (htier : ae.tier ≠ 2 ^ 31 - 1) :
    env.TimerSound (env.consider ae a state).2 := by
  by_cases h : env.TimerBlocked state ae.tier
  · rw [consider_of_blocked h]
    exact hsound
  · obtain ⟨-, htier', hfound, hdone⟩ := consider_spec hsound h
    refine ⟨fun _ => htier'.symm ▸ htier, hdone.trans (and_congr_left fun hand => (hfound hand.1).symm)⟩

/-- What an endpoint that the timer looks at adds to the tiers it passes over. -/
theorem timerBlocked_consider (hsound : env.TimerSound state) (htier : ae.tier ≠ 2 ^ 31 - 1) (hle : ae.tier ≤ tier) :
    env.TimerBlocked (env.consider ae a state).2 tier ↔
      env.TimerBlocked state tier ∨ env.TimerInWay ae a tier := by
  by_cases h : env.TimerBlocked state ae.tier
  · rw [consider_of_blocked h]
    refine (or_iff_left_of_imp fun hway => ?_).symm
    rcases h with hdone | ⟨htiers, htrackers, hfound, hle', hne⟩ | ⟨hlt, htiers⟩
    · exact .inl hdone
    · rw [TimerInWay, if_pos htiers] at hway
      exact .inr (.inl ⟨htiers, htrackers, hfound, hway.2.1 ▸ hle', hne⟩)
    · exact .inr (.inr ⟨hlt.trans_le hle, htiers⟩)
  · obtain ⟨-, htier', hfound, hdone⟩ := consider_spec (a := a) hsound h
    have hold : env.TimerBlocked state tier → env.TimerInWay ae a tier := by
      rintro (hd | ⟨htiers, htrackers, hf, hle', hne⟩ | ⟨hlt, htiers⟩)
      · exact absurd (.inl hd) h
      · exact absurd (.inr (.inl ⟨htiers, htrackers, hf, hle.trans hle', hne⟩)) h
      · rw [TimerInWay, if_neg (by simp [htiers])]
        refine .inl ((not_lt.mp fun hlt' => h (.inr (.inr ⟨hlt', htiers⟩))).trans_lt hlt)
    rw [or_iff_right_of_imp hold, TimerBlocked, TimerInWay, hdone, htier']
    cases htiers : env.announceToAllTiers with
    | false => simp [and_comm, or_comm]
    | true =>
      have heq : tier ≤ ae.tier ↔ ae.tier = tier := ⟨fun hge => le_antisymm hle hge, fun heq => heq.ge⟩
      cases htrackers : env.announceToAllTrackers with
      | false =>
        rw [heq, hfound htrackers]
        simp only [true_and, Bool.true_eq_false, and_false, or_false, false_or]
        exact ⟨fun hand => ⟨hand.2.1, hand.1⟩, fun hand => ⟨hand.2, hand.1, htier⟩⟩
      | true => simp

/-! ## The loops -/

/-- What a tracker does to the state of a socket. -/
def considerTracker (env : AnnounceEnv) (socket : ℕ) (state : TimerState) (ae : AnnounceEntry) : TimerState :=
  match ae.endpoints.find? (·.socket = socket) with
  | some aep => (env.considerEndpoint ae aep state).2
  | none => state

/-- The state of a socket behind these trackers. -/
def timerState (env : AnnounceEnv) (socket : ℕ) (trackers : List AnnounceEntry) : TimerState :=
  trackers.foldl (env.considerTracker socket) {}

/-- What the loop over the endpoints of a tracker does. -/
structure Considered (env : AnnounceEnv) (ae : AnnounceEntry) (endpoints : List AnnounceEndpoint)
    (loop loop' : TimerLoop) : Prop where
  seen : ∀ k, k ∈ loop'.seen ↔ k ∈ loop.seen ∨ ∃ aep ∈ endpoints, aep.socket = k
  states : ∀ aep ∈ endpoints, loop'.states aep.socket = (env.considerEndpoint ae aep (loop.states aep.socket)).2
  states_other : ∀ k, (∀ aep ∈ endpoints, aep.socket ≠ k) → loop'.states k = loop.states k
  next_le : ∀ v, loop'.nextAnnounce ≤ v ↔ loop.nextAnnounce ≤ v ∨ ∃ aep ∈ endpoints,
    (env.considerEndpoint ae aep (loop.states aep.socket)).1 = true ∧ aep.infoHash.nextTrackerAnnounce ≤ v

theorem considered_timerEndpoint (loop : TimerLoop) {aep : AnnounceEndpoint} :
    Considered env ae [aep] loop (env.timerEndpoint ae loop aep) := by
  refine ⟨fun k => ?_, fun x hx => ?_, fun k hk => ?_, fun v => ?_⟩
  · rw [timerEndpoint]
    dsimp only
    split
    · next hmem =>
      refine (or_iff_left_of_imp ?_).symm
      rintro ⟨x, hx, rfl⟩
      rwa [List.mem_singleton.mp hx]
    · rw [List.mem_append, List.mem_singleton]
      simp [eq_comm]
  · rw [List.mem_singleton.mp hx]
    exact Function.update_self ..
  · exact Function.update_of_ne (hk aep (List.mem_singleton_self aep)).symm _ _
  · simp only [List.mem_singleton, exists_eq_left]
    rw [timerEndpoint]
    dsimp only
    split
    · next hlt =>
      refine ⟨fun hle => .inr ⟨hlt.1, hle⟩, fun hor => ?_⟩
      rcases hor with hle | hle
      · exact hlt.2.le.trans hle
      · exact hle.2
    · next hnot =>
      refine ⟨.inl, fun hor => ?_⟩
      rcases hor with hle | ⟨htaken, hle⟩
      · exact hle
      · exact (not_lt.mp fun hlt => hnot ⟨htaken, hlt⟩).trans hle

variable (env ae) in
theorem considered_foldl (loop : TimerLoop) {endpoints : List AnnounceEndpoint}
    (hnodup : (endpoints.map AnnounceEndpoint.socket).Nodup) :
    Considered env ae endpoints loop (endpoints.foldl (env.timerEndpoint ae) loop) := by
  induction endpoints generalizing loop with
  | nil => exact ⟨fun k => by simp, by simp, fun _ _ => rfl, fun v => by simp⟩
  | cons aep endpoints ih =>
    obtain ⟨hnot, hnodup⟩ := List.nodup_cons.mp hnodup
    have hfirst : Considered env ae [aep] loop (env.timerEndpoint ae loop aep) := considered_timerEndpoint loop
    have hrest := ih (env.timerEndpoint ae loop aep) hnodup
    have hother : ∀ x ∈ endpoints, (env.timerEndpoint ae loop aep).states x.socket = loop.states x.socket :=
      fun x hx => hfirst.states_other _ fun y hy heq => by
        rw [List.mem_singleton.mp hy] at heq
        exact hnot (heq ▸ List.mem_map_of_mem hx)
    rw [List.foldl_cons]
    refine ⟨fun k => ?_, fun x hx => ?_, fun k hk => ?_, fun v => ?_⟩
    · rw [hrest.seen, hfirst.seen, or_assoc]
      simp only [List.mem_cons, List.not_mem_nil, or_false, exists_eq_left, exists_eq_or_imp]
    · rcases List.mem_cons.mp hx with rfl | hx
      · refine (hrest.states_other x.socket fun y hy heq => ?_).trans (hfirst.states x (List.mem_singleton_self x))
        exact hnot (heq ▸ List.mem_map_of_mem hy)
      · rw [hrest.states x hx, hother x hx]
    · rw [hrest.states_other k fun y hy => hk y (List.mem_cons_of_mem _ hy)]
      exact hfirst.states_other k fun y hy => hk y (List.mem_singleton.mp hy ▸ List.mem_cons_self)
    · have hsame : (∃ x ∈ endpoints,
          (env.considerEndpoint ae x ((env.timerEndpoint ae loop aep).states x.socket)).1 = true ∧
            x.infoHash.nextTrackerAnnounce ≤ v) ↔ ∃ x ∈ endpoints,
          (env.considerEndpoint ae x (loop.states x.socket)).1 = true ∧ x.infoHash.nextTrackerAnnounce ≤ v :=
        exists_congr fun x => and_congr_right fun hx => by rw [hother x hx]
      rw [hrest.next_le, hsame, hfirst.next_le, or_assoc]
      simp only [List.mem_cons, List.not_mem_nil, or_false, exists_eq_left, exists_eq_or_imp]

theorem Considered.considerTracker {loop loop' : TimerLoop}
    (h : Considered env ae ae.endpoints loop loop') (k : ℕ) :
    loop'.states k = env.considerTracker k (loop.states k) ae := by
  rw [AnnounceEnv.considerTracker]
  cases hfind : ae.endpoints.find? (·.socket = k) with
  | some aep =>
    obtain rfl : aep.socket = k := of_decide_eq_true (List.find?_some hfind :)
    exact h.states aep (List.mem_of_find?_eq_some hfind)
  | none => exact h.states_other k fun aep hmem => by simpa using List.find?_eq_none.mp hfind aep hmem

/-- The variables of the loop behind these trackers. -/
structure Passed (env : AnnounceEnv) (trackers : List AnnounceEntry) (loop : TimerLoop) : Prop where
  seen : ∀ k, k ∈ loop.seen ↔ ∃ ae ∈ trackers, ∃ aep ∈ ae.endpoints, aep.socket = k
  states : ∀ k, loop.states k = env.timerState k trackers

theorem Passed.append {trackers : List AnnounceEntry} {loop : TimerLoop} (h : Passed env trackers loop)
    (hnodup : (ae.endpoints.map AnnounceEndpoint.socket).Nodup) :
    Passed env (trackers ++ [ae]) (ae.endpoints.foldl (env.timerEndpoint ae) loop) := by
  have hfold := considered_foldl env ae loop hnodup
  refine ⟨fun k => ?_, fun k => ?_⟩
  · rw [hfold.seen, h.seen]
    simp only [List.mem_append, List.mem_singleton, or_and_right, exists_or, exists_eq_left]
  · rw [hfold.considerTracker, h.states, timerState, timerState, List.foldl_append]
    rfl

/-- The loop stops behind these trackers. -/
def AllDone (env : AnnounceEnv) (trackers : List AnnounceEntry) : Prop :=
  ∀ ae ∈ trackers, ∀ aep ∈ ae.endpoints, env.hasV1 = false ∨ (env.timerState aep.socket trackers).done = true

theorem Passed.all_iff {trackers : List AnnounceEntry} {loop : TimerLoop} (h : Passed env trackers loop) :
    (loop.seen.all fun socket => !env.hasV1 || (loop.states socket).done) = true ↔ env.AllDone trackers := by
  simp only [List.all_eq_true, Bool.or_eq_true, Bool.not_eq_true', h.states, h.seen]
  constructor
  · exact fun hall ae hae aep haep => hall aep.socket ⟨ae, hae, aep, haep, rfl⟩
  · rintro hall k ⟨ae, hae, aep, haep, rfl⟩
    exact hall ae hae aep haep

/-- The least of the times that the loop takes. -/
theorem timerTrackers_le_iff {front : List AnnounceEntry} (trackers : List AnnounceEntry) {loop : TimerLoop}
    (h : Passed env front loop) (hnodup : ∀ ae ∈ trackers, (ae.endpoints.map AnnounceEndpoint.socket).Nodup) (v : ℕ) :
    (env.timerTrackers loop trackers).nextAnnounce ≤ v ↔ loop.nextAnnounce ≤ v ∨
      ∃ pre ae post, trackers = pre ++ ae :: post ∧
        (∀ before, before ≠ [] → before <+: pre → ¬ env.AllDone (front ++ before)) ∧
        ∃ aep ∈ ae.endpoints, (env.considerEndpoint ae aep (env.timerState aep.socket (front ++ pre))).1 = true ∧
          aep.infoHash.nextTrackerAnnounce ≤ v := by
  induction trackers generalizing front loop with
  | nil => simp [timerTrackers]
  | cons ae trackers ih =>
    obtain ⟨hnodup, hrest⟩ := List.forall_mem_cons.mp hnodup
    have hpassed := h.append hnodup
    have hfold := considered_foldl env ae loop hnodup
    rw [timerTrackers]
    generalize ae.endpoints.foldl (env.timerEndpoint ae) loop = loop' at hpassed hfold ⊢
    have hfirst : loop'.nextAnnounce ≤ v ↔ loop.nextAnnounce ≤ v ∨ ∃ aep ∈ ae.endpoints,
        (env.considerEndpoint ae aep (env.timerState aep.socket front)).1 = true ∧
          aep.infoHash.nextTrackerAnnounce ≤ v := by
      rw [hfold.next_le]
      simp only [h.states]
    have hshift : ∀ before, front ++ [ae] ++ before = front ++ ae :: before := fun before => by simp
    split
    · next hall =>
      have hstops := hpassed.all_iff.mp hall
      rw [hfirst]
      refine or_congr_right ⟨fun hex => ⟨[], ae, trackers, rfl, fun before hne hpre => ?_, ?_⟩, ?_⟩
      · exact absurd (List.prefix_nil.mp hpre) hne
      · rwa [List.append_nil]
      · rintro ⟨pre, ae', post, heq, hnot, hex⟩
        cases pre with
        | nil =>
          obtain ⟨rfl, -⟩ := List.cons.inj heq
          rwa [List.append_nil] at hex
        | cons t pre =>
          obtain ⟨rfl, -⟩ := List.cons.inj heq
          exact absurd hstops (hnot [ae] (List.cons_ne_nil _ _) (List.prefix_append [ae] pre))
    · next hall =>
      have hstops : ¬ env.AllDone (front ++ [ae]) := fun hdone => hall (hpassed.all_iff.mpr hdone)
      rw [ih hpassed hrest, hfirst, or_assoc]
      refine or_congr_right ⟨?_, ?_⟩
      · rintro (hex | ⟨pre, ae', post, rfl, hnot, hex⟩)
        · refine ⟨[], ae, trackers, rfl, fun before hne hpre => absurd (List.prefix_nil.mp hpre) hne, ?_⟩
          rwa [List.append_nil]
        · refine ⟨ae :: pre, ae', post, rfl, fun before hne hpre => ?_, hshift pre ▸ hex⟩
          cases before with
          | nil => exact absurd rfl hne
          | cons t before =>
            obtain ⟨rfl, hbefore⟩ := List.cons_prefix_cons.mp hpre
            by_cases hnil : before = []
            · rw [hnil]
              exact hstops
            · rw [← hshift before]
              exact hnot before hnil hbefore
      · rintro ⟨pre, ae', post, heq, hnot, hex⟩
        cases pre with
        | nil =>
          obtain ⟨rfl, -⟩ := List.cons.inj heq
          rw [List.append_nil] at hex
          exact .inl hex
        | cons t pre =>
          obtain ⟨rfl, rfl⟩ := List.cons.inj heq
          refine .inr ⟨pre, ae', post, rfl, fun before hne hpre => ?_, (hshift pre).symm ▸ hex⟩
          rw [hshift before]
          exact hnot (ae :: before) (List.cons_ne_nil _ _) (List.cons_prefix_cons.mpr ⟨rfl, hpre⟩)

/-! ## The states of the sockets -/

variable (env) in
theorem considerTracker_cases (k : ℕ) (state : TimerState) (hnodup : (ae.endpoints.map AnnounceEndpoint.socket).Nodup) :
    (∃ aep ∈ ae.endpoints, aep.socket = k ∧ env.TakesPart aep ∧
      (∀ x ∈ ae.endpoints, x.socket = k → x = aep) ∧
      env.considerTracker k state ae = (env.consider ae aep.infoHash state).2) ∨
    ((∀ x ∈ ae.endpoints, x.socket = k → ¬ env.TakesPart x) ∧ env.considerTracker k state ae = state) := by
  rw [considerTracker]
  cases hfind : ae.endpoints.find? (·.socket = k) with
  | none =>
    exact .inr ⟨fun x hx hsocket => absurd hsocket (by simpa using List.find?_eq_none.mp hfind x hx), rfl⟩
  | some aep =>
    have hmem := List.mem_of_find?_eq_some hfind
    obtain rfl : aep.socket = k := of_decide_eq_true (List.find?_some hfind :)
    have hone : ∀ x ∈ ae.endpoints, x.socket = aep.socket → x = aep :=
      fun x hx hsocket => List.inj_on_of_nodup_map hnodup hx hmem hsocket
    dsimp only
    rw [considerEndpoint]
    split
    · next htakes => exact .inl ⟨aep, hmem, rfl, htakes, hone, rfl⟩
    · next htakes => exact .inr ⟨fun x hx hsocket => hone x hx hsocket ▸ htakes, rfl⟩

/-- What the state of a socket says of the trackers that the loop has passed. -/
structure StateSpec (env : AnnounceEnv) (k : ℕ) (trackers : List AnnounceEntry) (state : TimerState) : Prop where
  sound : env.TimerSound state
  blocked : ∀ tier < 2 ^ 31 - 1, (∀ ae ∈ trackers, ae.tier ≤ tier) → (env.TimerBlocked state tier ↔
    ∃ ae ∈ trackers, ∃ aep ∈ ae.endpoints, aep.socket = k ∧ env.TakesPart aep ∧ env.TimerInWay ae aep.infoHash tier)
  done : state.done = true ↔ env.TimerDone trackers k

/-- A tracker whose endpoint with the socket takes part. -/
theorem StateSpec.consider {k : ℕ} {trackers : List AnnounceEntry} {aep : AnnounceEndpoint}
    (h : StateSpec env k trackers state) (htier : ae.tier < 2 ^ 31 - 1) (hsorted : ∀ t ∈ trackers, t.tier ≤ ae.tier)
    (hmem : aep ∈ ae.endpoints) (hsocket : aep.socket = k) (htakes : env.TakesPart aep)
    (hone : ∀ x ∈ ae.endpoints, x.socket = k → x = aep) :
    StateSpec env k (trackers ++ [ae]) (env.consider ae aep.infoHash state).2 := by
  refine ⟨timerSound_consider h.sound htier.ne, fun tier hlt htiers => ?_, ?_⟩
  · obtain ⟨htiers, hle⟩ := List.forall_mem_append.mp htiers
    rw [timerBlocked_consider h.sound htier.ne (hle ae (List.mem_singleton_self ae)), h.blocked tier hlt htiers]
    constructor
    · rintro (⟨t, ht, hex⟩ | hway)
      · exact ⟨t, List.mem_append_left _ ht, hex⟩
      · exact ⟨ae, List.mem_append_right _ (List.mem_singleton_self ae), aep, hmem, hsocket, htakes, hway⟩
    · rintro ⟨t, ht, x, hx, hxk, hxtakes, hway⟩
      rcases List.mem_append.mp ht with ht | ht
      · exact .inl ⟨t, ht, x, hx, hxk, hxtakes, hway⟩
      · obtain rfl := List.mem_singleton.mp ht
        exact .inr (hone x hx hxk ▸ hway)
  · have hblocked := h.blocked ae.tier htier hsorted
    by_cases hfree : env.TimerBlocked state ae.tier
    · rw [consider_of_blocked hfree, h.done]
      constructor
      · rintro ⟨htrackers, htiers, t, ht, x, hx, hxk, hxtakes, hcounts, hfirst⟩
        refine ⟨htrackers, htiers, t, List.mem_append_left _ ht, x, hx, hxk, hxtakes, hcounts, fun t' ht' => ?_⟩
        rcases List.mem_append.mp ht' with ht' | ht'
        · exact hfirst t' ht'
        · rw [List.mem_singleton.mp ht']
          exact fun _ _ _ _ => hsorted t ht
      · rintro ⟨htrackers, htiers, t, ht, x, hx, hxk, hxtakes, hcounts, hfirst⟩
        have hfirst' : ∀ t' ∈ trackers, ∀ x' ∈ t'.endpoints, x'.socket = k → env.TakesPart x' → t.tier ≤ t'.tier :=
          fun t' ht' => hfirst t' (List.mem_append_left _ ht')
        rcases List.mem_append.mp ht with ht | ht
        · exact ⟨htrackers, htiers, t, ht, x, hx, hxk, hxtakes, hcounts, hfirst'⟩
        · -- what stands in the way of the tracker has its tier, and counts
          obtain rfl := List.mem_singleton.mp ht
          obtain ⟨t', ht', x', hx', hxk', hxtakes', hway⟩ := hblocked.mp hfree
          have hle := hfirst' t' ht' x' hx' hxk' hxtakes'
          rw [TimerInWay, if_neg (by simp [htiers])] at hway
          have hcounts' := (hway.resolve_left hle.not_gt).2
          exact ⟨htrackers, htiers, t', ht', x', hx', hxk', hxtakes', hcounts',
            fun t'' ht'' x'' hx'' hk'' htakes'' => (hsorted t' ht').trans (hfirst' t'' ht'' x'' hx'' hk'' htakes'')⟩
    · rw [(consider_spec h.sound hfree).2.2.2]
      have hnot : ∀ t ∈ trackers, ∀ x ∈ t.endpoints, x.socket = k → env.TakesPart x →
          ¬ env.TimerInWay t x.infoHash ae.tier :=
        fun t ht x hx hxk hxtakes hway => hfree (hblocked.mpr ⟨t, ht, x, hx, hxk, hxtakes, hway⟩)
      constructor
      · rintro ⟨hcounts, htrackers, htiers⟩
        refine ⟨htrackers, htiers, ae, List.mem_append_right _ (List.mem_singleton_self ae), aep, hmem, hsocket, htakes,
          hcounts, fun t ht x hx hxk hxtakes => ?_⟩
        rcases List.mem_append.mp ht with ht | ht
        · refine not_lt.mp fun hlt => hnot t ht x hx hxk hxtakes ?_
          rw [TimerInWay, if_neg (by simp [htiers])]
          exact .inl hlt
        · rw [List.mem_singleton.mp ht]
      · rintro ⟨htrackers, htiers, t, ht, x, hx, hxk, hxtakes, hcounts, -⟩
        refine ⟨?_, htrackers, htiers⟩
        rcases List.mem_append.mp ht with ht | ht
        · refine absurd ?_ (hnot t ht x hx hxk hxtakes)
          rw [TimerInWay, if_neg (by simp [htiers])]
          exact .inr ⟨htrackers, hcounts⟩
        · obtain rfl := List.mem_singleton.mp ht
          exact hone x hx hxk ▸ hcounts

/-- A tracker without an endpoint with the socket that takes part. -/
theorem StateSpec.skip {k : ℕ} {trackers : List AnnounceEntry} (h : StateSpec env k trackers state)
    (hsorted : ∀ t ∈ trackers, t.tier ≤ ae.tier)
    (hnot : ∀ x ∈ ae.endpoints, x.socket = k → ¬ env.TakesPart x) : StateSpec env k (trackers ++ [ae]) state := by
  have hmem : ∀ t ∈ trackers ++ [ae], ∀ x ∈ t.endpoints, x.socket = k → env.TakesPart x → t ∈ trackers := by
    intro t ht x hx hxk hxtakes
    refine (List.mem_append.mp ht).resolve_right fun ht => ?_
    obtain rfl := List.mem_singleton.mp ht
    exact hnot x hx hxk hxtakes
  refine ⟨h.sound, fun tier hlt htiers => ?_, h.done.trans ?_⟩
  · rw [h.blocked tier hlt (List.forall_mem_append.mp htiers).1]
    constructor
    · rintro ⟨t, ht, hex⟩
      exact ⟨t, List.mem_append_left _ ht, hex⟩
    · rintro ⟨t, ht, x, hx, hxk, hxtakes, hway⟩
      exact ⟨t, hmem t ht x hx hxk hxtakes, x, hx, hxk, hxtakes, hway⟩
  · refine and_congr_right fun _ => and_congr_right fun _ => ?_
    constructor
    · rintro ⟨t, ht, x, hx, hxk, hxtakes, hcounts, hfirst⟩
      exact ⟨t, List.mem_append_left _ ht, x, hx, hxk, hxtakes, hcounts,
        fun t' ht' x' hx' hk' htakes' => hfirst t' (hmem t' ht' x' hx' hk' htakes') x' hx' hk' htakes'⟩
    · rintro ⟨t, ht, x, hx, hxk, hxtakes, hcounts, hfirst⟩
      exact ⟨t, hmem t ht x hx hxk hxtakes, x, hx, hxk, hxtakes, hcounts,
        fun t' ht' => hfirst t' (List.mem_append_left _ ht')⟩

/-- The trackers of a torrent: they are sorted by tier, and no tracker has two endpoints with a socket. -/
structure Listed (trackers : List AnnounceEntry) : Prop where
  sorted : trackers.Pairwise fun a b => a.tier ≤ b.tier
  -- a tier has eight bits
  tier_lt : ∀ ae ∈ trackers, ae.tier < 2 ^ 8
  nodup : ∀ ae ∈ trackers, (ae.endpoints.map AnnounceEndpoint.socket).Nodup

theorem Listed.of_isPrefix {trackers before : List AnnounceEntry} (h : Listed trackers) (hpre : before <+: trackers) :
    Listed before :=
  ⟨h.sorted.sublist hpre.sublist, fun ae hae => h.tier_lt ae (hpre.subset hae),
    fun ae hae => h.nodup ae (hpre.subset hae)⟩

theorem timerState_spec {trackers : List AnnounceEntry} (h : Listed trackers) (k : ℕ) :
    StateSpec env k trackers (env.timerState k trackers) := by
  induction trackers using List.reverseRecOn with
  | nil =>
    refine ⟨⟨by simp [timerState], by simp [timerState]⟩, fun tier hlt _ => iff_of_false ?_ (by simp), ?_⟩
    · rintro (hdone | ⟨-, -, hfound, -⟩ | ⟨hlt', -⟩)
      · cases hdone
      · cases hfound
      · exact hlt.not_gt hlt'
    · exact iff_of_false Bool.false_ne_true fun hdone => by simpa using hdone.2.2
  | append_singleton trackers ae ih =>
    have hspec := ih (h.of_isPrefix (List.prefix_append trackers [ae]))
    have hmem : ae ∈ trackers ++ [ae] := List.mem_append_right _ (List.mem_singleton_self ae)
    have hsorted : ∀ t ∈ trackers, t.tier ≤ ae.tier :=
      fun t ht => (List.pairwise_append.mp h.sorted).2.2 t ht ae (List.mem_singleton_self ae)
    have htier : ae.tier < 2 ^ 31 - 1 := (h.tier_lt ae hmem).trans (by decide)
    have hstep : env.timerState k (trackers ++ [ae]) = env.considerTracker k (env.timerState k trackers) ae := by
      rw [timerState, timerState, List.foldl_append]
      rfl
    rw [hstep]
    rcases considerTracker_cases env k (env.timerState k trackers) (h.nodup ae hmem) with
      ⟨aep, haep, hsocket, htakes, hone, heq⟩ | ⟨hnot, heq⟩
    · rw [heq]
      exact hspec.consider htier hsorted haep hsocket htakes hone
    · rw [heq]
      exact hspec.skip hsorted hnot

theorem allDone_iff {trackers : List AnnounceEntry} (h : Listed trackers) (hne : trackers ≠ [])
    (hhas : env.hasV1 = true) : env.AllDone trackers ↔ env.TimerStops trackers := by
  rw [TimerStops, and_iff_right hne]
  refine forall₂_congr fun ae _ => forall₂_congr fun aep _ => ?_
  rw [hhas, (timerState_spec h aep.socket).done]
  simp

theorem considerEndpoint_iff {aep : AnnounceEndpoint} (hsound : env.TimerSound state) :
    (env.considerEndpoint ae aep state).1 = true ↔ env.TakesPart aep ∧ ¬ env.TimerBlocked state ae.tier ∧
      aep.infoHash.underLimit ae.failLimit = true ∧ aep.infoHash.updating = false := by
  rw [considerEndpoint]
  split
  · next htakes =>
    refine Iff.trans ?_ (and_iff_right htakes).symm
    by_cases h : env.TimerBlocked state ae.tier
    · rw [consider_of_blocked h]
      exact iff_of_false Bool.false_ne_true fun hand => hand.1 h
    · rw [(consider_spec hsound h).1, and_iff_right h, Bool.and_eq_true, Bool.not_eq_true']
  · next htakes => exact iff_of_false Bool.false_ne_true fun hand => htakes hand.1

/-- The timer takes the times of the endpoints that it looks at. -/
theorem nextAnnounce_le_iff {s : TorrentTrackers} (h : Listed s.trackers) (env : AnnounceEnv) (v : ℕ) :
    s.nextAnnounce env ≤ v ↔ timePointMax ≤ v ∨ ∃ pre ae post aep, s.trackers = pre ++ ae :: post ∧
      env.LooksAt pre ae aep ∧ aep.infoHash.nextTrackerAnnounce ≤ v := by
  have hpassed : Passed env [] {} := ⟨fun k => by simp, fun k => rfl⟩
  rw [TorrentTrackers.nextAnnounce, timerTrackers_le_iff s.trackers hpassed h.nodup]
  refine or_congr_right ?_
  simp only [List.nil_append]
  -- what the state of the socket says of the trackers in front
  have hlist : ∀ {pre ae post}, s.trackers = pre ++ ae :: post → Listed pre := fun heq =>
    h.of_isPrefix (heq ▸ List.prefix_append _ _)
  have hblocked : ∀ {pre ae post} (aep : AnnounceEndpoint), s.trackers = pre ++ ae :: post →
      (env.TimerBlocked (env.timerState aep.socket pre) ae.tier ↔ ∃ t ∈ pre, ∃ x ∈ t.endpoints,
        x.socket = aep.socket ∧ env.TakesPart x ∧ env.TimerInWay t x.infoHash ae.tier) := by
    intro pre ae post aep heq
    have hmem : ae ∈ s.trackers := heq ▸ List.mem_append_right _ List.mem_cons_self
    refine (timerState_spec (hlist heq) aep.socket).blocked _ ((h.tier_lt ae hmem).trans (by decide)) fun t ht => ?_
    exact (List.pairwise_append.mp (heq ▸ h.sorted)).2.2 t ht ae List.mem_cons_self
  constructor
  · rintro ⟨pre, ae, post, heq, hstops, aep, haep, htaken, hle⟩
    obtain ⟨htakes, hfree, hlimit, hupdating⟩ :=
      (considerEndpoint_iff (timerState_spec (hlist heq) aep.socket).sound).mp htaken
    refine ⟨pre, ae, post, aep, heq, ⟨haep, htakes, hlimit, hupdating, fun t ht x hx hxk hxtakes hway => ?_,
      fun before hpre hdone => ?_⟩, hle⟩
    · exact hfree ((hblocked aep heq).mpr ⟨t, ht, x, hx, hxk, hxtakes, hway⟩)
    · exact hstops before hdone.1 hpre ((allDone_iff ((hlist heq).of_isPrefix hpre) hdone.1 htakes.2).mpr hdone)
  · rintro ⟨pre, ae, post, aep, heq, hlooks, hle⟩
    refine ⟨pre, ae, post, heq, fun before hne hpre hdone => ?_, aep, hlooks.mem, ?_, hle⟩
    · exact hlooks.stops before hpre ((allDone_iff ((hlist heq).of_isPrefix hpre) hne hlooks.takesPart.2).mp hdone)
    · refine (considerEndpoint_iff (timerState_spec (hlist heq) aep.socket).sound).mpr
        ⟨hlooks.takesPart, fun hb => ?_, hlooks.underLimit, hlooks.updating⟩
      obtain ⟨t, ht, x, hx, hxk, hxtakes, hway⟩ := (hblocked aep heq).mp hb
      exact hlooks.inWay t ht x hx hxk hxtakes hway

end AnnounceEnv

end Tracker

end LibtorrentSN
