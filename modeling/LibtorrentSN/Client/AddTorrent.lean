import Mathlib

/-!
# Adding torrents

The client asks libtorrent to add a torrent and then leaves a callback for its handle in a queue
(`gtk/Session.cc`, `gtk/OptionsDialog.cc`). The thread that handles the alerts takes one callback from the queue
for each torrent that was added.
-/

namespace LibtorrentSN

namespace Client

/-- The functions that add a torrent, with what their callbacks capture. -/
inductive AddRequest
  | addTorrentNoPrompt (dottorPath magLink : String) (trashOrigin : Bool)
  | addResponse (addFromMagnet : Bool) (torPath magLink : String) (prioVal : ℤ) (trashOrigin : Bool)
  | load (magLink : String) (allUp allDn : ℤ)
  deriving DecidableEq

/-- What a callback does to the torrent it is given, and what it tells its caller. -/
structure Callback where
  addOrLoad : Bool
  magLink : String
  trash : Option String := none
  priority : Option ℤ := none
  totals : Option (ℤ × ℤ) := none

def AddRequest.callback : AddRequest → Callback
  | .addTorrentNoPrompt dottorPath magLink trashOrigin =>
    let addFromMagnet := dottorPath.isEmpty
    if addFromMagnet then { addOrLoad := true, magLink }
    else { addOrLoad := true, magLink, trash := if trashOrigin then some dottorPath else none }
  | .addResponse addFromMagnet torPath magLink prioVal trashOrigin =>
    if addFromMagnet then { addOrLoad := true, magLink, priority := some prioVal }
    else { addOrLoad := true, magLink, priority := some prioVal, trash := if trashOrigin then some torPath else none }
  | .load magLink allUp allDn => { addOrLoad := false, magLink, totals := some (allUp, allDn) }

/-- A call of one of these functions. -/
structure AddCall where
  number : ℕ
  request : AddRequest
  deriving DecidableEq

/-- What an `add_torrent_alert` says. The handle can have become invalid before the alert is handled. -/
inductive AlertOutcome
  | error
  | invalid
  | added
  deriving DecidableEq

/-- The row of the torrent that a call added, and what was set for it. -/
structure AddedTorrent where
  number : ℕ
  -- it was put at the end, not where its number belongs
  appended : Bool
  magnetLink : Option String
  priority : Option ℤ
  totals : ℤ × ℤ

/-- An alert that was handled, and the callback that was run for it. -/
structure HandledAlert where
  call : AddCall
  outcome : AlertOutcome
  -- the call had left its callback in the queue
  queued : Bool
  ran : Option AddCall

structure AddTorrents where
  calls : ℕ := 0
  -- the calls whose alert is still to come
  requests : List AddCall := []
  -- the call that has asked libtorrent and not left its callback yet
  adding : Option AddCall := none
  fetchTorHandleFun : List AddCall := []
  torrents : List AddedTorrent := []
  trashed : List String := []
  handled : List HandledAlert := []

inductive AddEvent
  | asyncAddTorrent (r : AddRequest)
  | fetchTorHandleCB
  | addTorrentAlert (outcome : AlertOutcome)

/-- What the alert thread makes of a torrent, by what `onTorHandleFetched` returns. -/
def addedTorrent (call : AddCall) (ran : Option AddCall) : AddedTorrent :=
  let cb := ran.map (·.request.callback)
  let magLink := (cb.map Callback.magLink).getD ""
  { number := call.number
    appended := ((cb.map Callback.addOrLoad).getD false) = false
    magnetLink := if magLink.isEmpty then none else some magLink
    priority := cb.bind Callback.priority
    totals := (cb.bind Callback.totals).getD (0, 0) }

/-- The `.torrent` file that a callback removes. -/
def AddCall.trash (call : AddCall) : Option String := call.request.callback.trash

namespace AddTorrents

variable (s : AddTorrents)

/-- One event. The functions that add torrents run one after the other; an alert comes for the first call that
has not got one. -/
def step : AddEvent → Option AddTorrents
  | .asyncAddTorrent r =>
    if s.adding.isSome then none
    else
      let call : AddCall := ⟨s.calls, r⟩
      some { s with calls := s.calls + 1, requests := s.requests ++ [call], adding := some call }
  | .fetchTorHandleCB =>
    s.adding.map fun call => { s with adding := none, fetchTorHandleFun := s.fetchTorHandleFun ++ [call] }
  | .addTorrentAlert outcome =>
    match s.requests with
    | [] => none
    | call :: requests =>
      let queued := decide (s.adding ≠ some call)
      if outcome = .added then
        let ran := s.fetchTorHandleFun.head?
        some { s with
          requests
          fetchTorHandleFun := s.fetchTorHandleFun.tail
          torrents := s.torrents ++ [addedTorrent call ran]
          trashed := s.trashed ++ (ran.bind AddCall.trash).toList
          handled := s.handled ++ [⟨call, outcome, queued, ran⟩] }
      else some { s with requests, handled := s.handled ++ [⟨call, outcome, queued, none⟩] }

inductive Reached : AddTorrents → Prop
  | start : Reached {}
  | step {s s' : AddTorrents} {e : AddEvent} (hs : Reached s) (h : s.step e = some s') : Reached s'

/-- Each alert for a torrent that was added has run the callback of its own call, and the others have run none. -/
def OwnCallbacks : Prop := ∀ a ∈ s.handled, a.ran = if a.outcome = .added then some a.call else none

/-- An alert for a torrent that was added comes after its call has left the callback, and after no add that
failed. -/
def InStep : Prop :=
  (∀ a ∈ s.handled, a.outcome = .added → a.queued = true) ∧
    s.handled.Pairwise fun a b => b.outcome = .added → a.outcome = .added

/-- The torrents that were added. -/
def addedCalls : List AddCall := (s.handled.filter (·.outcome = .added)).map HandledAlert.call

/-- What was done for the torrents is what their own callbacks do. -/
def OwnEffects : Prop :=
  s.torrents = s.addedCalls.map (fun call => addedTorrent call (some call)) ∧
    s.trashed = s.addedCalls.filterMap AddCall.trash

/-- The calls that failed, whose callbacks nobody takes. -/
def failedCalls : List AddCall := (s.handled.filter (·.outcome ≠ .added)).map HandledAlert.call

variable {s} {s' : AddTorrents} {e : AddEvent}

/-- The calls are numbered in the order of their alerts. -/
structure Numbered (s : AddTorrents) : Prop where
  lt : ∀ c ∈ s.handled.map HandledAlert.call ++ s.requests, c.number < s.calls
  order : (s.handled.map HandledAlert.call ++ s.requests).Pairwise fun c d => c.number < d.number

theorem Numbered.step (h : s.Numbered) (hs : s.step e = some s') : s'.Numbered := by
  cases e with
  | asyncAddTorrent r =>
    rw [AddTorrents.step] at hs
    split_ifs at hs
    cases hs
    constructor
    · intro c hc
      rw [← List.append_assoc, List.mem_append, List.mem_singleton] at hc
      rcases hc with hc | rfl
      · exact (h.lt c hc).trans (Nat.lt_succ_self _)
      · exact Nat.lt_succ_self _
    · dsimp only
      rw [← List.append_assoc]
      refine List.pairwise_append.mpr ⟨h.order, List.pairwise_singleton _ _, fun c hc d hd => ?_⟩
      rw [List.mem_singleton.mp hd]
      exact h.lt c hc
  | fetchTorHandleCB =>
    rw [AddTorrents.step, Option.map_eq_some_iff] at hs
    obtain ⟨call, -, rfl⟩ := hs
    exact ⟨h.lt, h.order⟩
  | addTorrentAlert outcome =>
    obtain ⟨hlt, horder⟩ := h
    rw [AddTorrents.step] at hs
    rcases hreq : s.requests with - | ⟨call, requests⟩
    · rw [hreq] at hs
      cases hs
    · rw [hreq] at hs hlt horder
      dsimp only at hs
      have hsame : ∀ a : HandledAlert, a.call = call → (s.handled ++ [a]).map HandledAlert.call ++ requests =
          s.handled.map HandledAlert.call ++ call :: requests := by
        rintro a rfl
        simp
      split_ifs at hs
      · cases hs
        exact ⟨by rw [hsame _ rfl]; exact hlt, by rw [hsame _ rfl]; exact horder⟩
      · cases hs
        exact ⟨by rw [hsame _ rfl]; exact hlt, by rw [hsame _ rfl]; exact horder⟩

theorem ownCallbacks_append {a : HandledAlert} : { s with handled := s.handled ++ [a] }.OwnCallbacks ↔
    s.OwnCallbacks ∧ a.ran = if a.outcome = .added then some a.call else none := by
  simp [OwnCallbacks, or_imp, forall_and]

theorem inStep_append {a : HandledAlert} : { s with handled := s.handled ++ [a] }.InStep ↔
    s.InStep ∧ (a.outcome = .added → a.queued = true ∧ s.failedCalls = []) := by
  have hfailed : s.failedCalls = [] ↔ ∀ b ∈ s.handled, b.outcome = .added := by
    simp [failedCalls]
  simp only [InStep, hfailed, List.mem_append, List.mem_singleton, or_imp, forall_and, forall_eq,
    List.pairwise_append, List.pairwise_singleton, true_and]
  constructor
  · rintro ⟨⟨hq, ha⟩, hp, hb⟩
    exact ⟨⟨hq, hp⟩, ha, fun hadded b hb' => hb b hb' hadded⟩
  · rintro ⟨⟨hq, hp⟩, ha, hall⟩
    exact ⟨⟨hq, ha⟩, hp, fun b hb hadded => hall hadded b hb⟩

theorem failedCalls_append {a : HandledAlert} (h : s'.handled = s.handled ++ [a]) :
    s'.failedCalls = s.failedCalls ++ if a.outcome = .added then [] else [a.call] := by
  rw [failedCalls, h, List.filter_append, List.map_append]
  split_ifs with ha
  · simp [failedCalls, ha]
  · simp [failedCalls, ha]

/-- As long as the alerts are in step, the callbacks in the queue are those of the calls that failed and of the
calls whose alert is to come, up to the one that has not left its callback. -/
def Queue (s : AddTorrents) : Prop := s.fetchTorHandleFun ++ s.adding.toList = s.failedCalls ++ s.requests

/-- The callback at the front is that of the next call just if it was left, and no call has failed. -/
theorem Queue.head?_eq (h : s.Queue) (hn : s.Numbered) {call : AddCall} {requests : List AddCall}
    (hreq : s.requests = call :: requests) :
    s.fetchTorHandleFun.head? = some call ↔ s.adding ≠ some call ∧ s.failedCalls = [] := by
  rw [Queue, hreq] at h
  have horder := hn.order
  rw [hreq, List.pairwise_append, List.pairwise_cons] at horder
  constructor
  · intro hhead
    obtain ⟨rest, hrest⟩ := List.head?_eq_some_iff.mp hhead
    rw [hrest, List.cons_append] at h
    have hfailed : s.failedCalls = [] := by
      rcases hf : s.failedCalls with - | ⟨c, failed⟩
      · rfl
      · rw [hf, List.cons_append] at h
        have hc : c ∈ s.failedCalls := by
          rw [hf]
          exact List.mem_cons_self
        obtain ⟨a, ha, rfl⟩ := List.mem_map.mp hc
        have hlt := horder.2.2 a.call (List.mem_map_of_mem (List.mem_filter.mp ha).1) call List.mem_cons_self
        rw [(List.cons.inj h).1] at hlt
        exact absurd hlt (lt_irrefl _)
    refine ⟨fun hadding => ?_, hfailed⟩
    rw [hfailed, hadding] at h
    have hmem : call ∈ requests := (List.cons.inj h).2 ▸ List.mem_append_right _ List.mem_cons_self
    exact absurd (horder.2.1.1 call hmem) (lt_irrefl _)
  · rintro ⟨hadding, hfailed⟩
    rw [hfailed, List.nil_append] at h
    rcases hf : s.fetchTorHandleFun with - | ⟨c, rest⟩
    · rw [hf, List.nil_append] at h
      rcases ha : s.adding with - | c
      · rw [ha] at h
        cases h
      · rw [ha] at h hadding
        cases h
        exact absurd rfl hadding
    · rw [hf, List.cons_append] at h
      rw [List.head?_cons, (List.cons.inj h).1]

/-- What every run keeps. -/
structure Inv (s : AddTorrents) : Prop where
  numbered : s.Numbered
  iff : s.OwnCallbacks ↔ s.InStep
  queue : s.InStep → s.Queue
  torrents : s.torrents = (s.handled.filter (·.outcome = .added)).map fun a => addedTorrent a.call a.ran
  trashed : s.trashed = (s.handled.filter (·.outcome = .added)).filterMap fun a => a.ran.bind AddCall.trash

theorem Inv.addTorrentAlert (h : s.Inv) {outcome : AlertOutcome} (hs : s.step (.addTorrentAlert outcome) = some s') :
    s'.Inv := by
  have hnumbered := h.numbered.step hs
  rw [AddTorrents.step] at hs
  rcases hreq : s.requests with - | ⟨call, requests⟩
  · rw [hreq] at hs
    cases hs
  rw [hreq] at hs
  dsimp only at hs
  split_ifs at hs with hadded
  · cases hs
    subst hadded
    have hrun : s.InStep → (s.fetchTorHandleFun.head? = some call ↔ s.adding ≠ some call ∧ s.failedCalls = []) :=
      fun hstep => (h.queue hstep).head?_eq h.numbered hreq
    refine ⟨hnumbered, ?_, fun hstep => ?_, ?_, ?_⟩
    · refine ownCallbacks_append.trans (Iff.trans ?_ inStep_append.symm)
      rw [h.iff]
      refine and_congr_right fun hstep => ?_
      simp [hrun hstep]
    · obtain ⟨hstep, hlast⟩ := inStep_append.mp hstep
      obtain ⟨hqueued, hfailed⟩ := hlast rfl
      have hhead := (hrun hstep).mpr ⟨by simpa using hqueued, hfailed⟩
      obtain ⟨rest, hrest⟩ := List.head?_eq_some_iff.mp hhead
      have hqueue := h.queue hstep
      rw [Queue, hrest, hreq, hfailed] at hqueue
      rw [Queue, failedCalls_append rfl, hfailed]
      change s.fetchTorHandleFun.tail ++ s.adding.toList = requests
      rw [hrest]
      exact (List.cons.inj hqueue).2
    · simp [h.torrents]
    · rcases hr : s.fetchTorHandleFun.head?.bind AddCall.trash with - | path
      · simp [h.trashed, hr]
      · simp [h.trashed, hr]
  · cases hs
    refine ⟨hnumbered, ?_, fun hstep => ?_, ?_, ?_⟩
    · refine ownCallbacks_append.trans (Iff.trans ?_ inStep_append.symm)
      simp [h.iff, hadded]
    · have hqueue := h.queue (inStep_append.mp hstep).1
      rw [Queue, hreq] at hqueue
      rw [Queue, failedCalls_append rfl, if_neg hadded, List.append_assoc]
      exact hqueue
    · simp [h.torrents, hadded]
    · simp [h.trashed, hadded]

theorem Inv.step (h : s.Inv) (hs : s.step e = some s') : s'.Inv := by
  cases e with
  | asyncAddTorrent r =>
    have hnumbered := h.numbered.step hs
    rw [AddTorrents.step] at hs
    split_ifs at hs with hadding
    cases hs
    refine ⟨hnumbered, h.iff, fun hstep => ?_, h.torrents, h.trashed⟩
    have hqueue := h.queue hstep
    rw [Queue, Option.not_isSome_iff_eq_none.mp hadding, Option.toList_none, List.append_nil] at hqueue
    change s.fetchTorHandleFun ++ [_] = s.failedCalls ++ (s.requests ++ [_])
    rw [hqueue, List.append_assoc]
  | fetchTorHandleCB =>
    have hnumbered := h.numbered.step hs
    rw [AddTorrents.step, Option.map_eq_some_iff] at hs
    obtain ⟨call, hadding, rfl⟩ := hs
    refine ⟨hnumbered, h.iff, fun hstep => ?_, h.torrents, h.trashed⟩
    have hqueue := h.queue hstep
    rw [Queue, hadding] at hqueue
    rw [Queue, Option.toList_none, List.append_nil]
    exact hqueue
  | addTorrentAlert outcome => exact h.addTorrentAlert hs

theorem Reached.inv {s : AddTorrents} (h : Reached s) : s.Inv := by
  induction h with
  | start =>
    constructor
    · exact ⟨by simp, by simp⟩
    · simp [OwnCallbacks, InStep]
    · exact fun _ => rfl
    · rfl
    · rfl
  | step _ hstep ih => exact ih.step hstep

/-- The alerts for the torrents that were added have run their own callbacks just if they came in step, and then
nothing was done for a torrent but what its own callback does. -/
theorem reached_ownCallbacks_iff (h : Reached s) :
    (s.OwnCallbacks ↔ s.InStep) ∧ (s.InStep → s.OwnEffects) := by
  refine ⟨h.inv.iff, fun hstep => ?_⟩
  have hown := h.inv.iff.mpr hstep
  have hran : ∀ a ∈ s.handled.filter (·.outcome = .added), a.ran = some a.call := by
    intro a ha
    obtain ⟨ha, hadded⟩ := List.mem_filter.mp ha
    rw [hown a ha, if_pos (by simpa using hadded)]
  constructor
  · rw [h.inv.torrents, addedCalls, List.map_map]
    exact List.map_congr_left fun a ha => by rw [hran a ha, Function.comp_apply]
  · rw [h.inv.trashed, addedCalls, List.filterMap_map]
    exact List.filterMap_congr fun a ha => by rw [hran a ha, Option.bind_some, Function.comp_apply]

/-- A torrent is loaded and another one is added, and their alerts come in step. -/
theorem reached_ownCallbacks_two : ∃ s, Reached s ∧ s.OwnCallbacks ∧ s.OwnEffects ∧ s.trashed = ["b.torrent"] := by
  have hstart := Reached.start
  have hload := hstart.step (e := .asyncAddTorrent (.load "a" 7 9)) rfl
  have hload' := hload.step (e := .fetchTorHandleCB) rfl
  have hadd := hload'.step (e := .asyncAddTorrent (.addTorrentNoPrompt "b.torrent" "b" true)) rfl
  have hadd' := hadd.step (e := .fetchTorHandleCB) rfl
  have hfirst := hadd'.step (e := .addTorrentAlert .added) rfl
  have hsecond := hfirst.step (e := .addTorrentAlert .added) rfl
  obtain ⟨hiff, heffects⟩ := reached_ownCallbacks_iff hsecond
  exact ⟨_, hsecond, hiff.mpr ⟨by decide, by decide⟩, heffects ⟨by decide, by decide⟩, by decide⟩

/-- An add that fails leaves its callback to the next torrent, whose file is removed though it is not that of the
torrent. An alert that is handled before the callback is left runs none. -/
theorem not_reached_ownCallbacks :
    (∃ s, Reached s ∧ s.trashed = ["a.torrent"] ∧ ¬ s.OwnCallbacks) ∧
      ∃ s, Reached s ∧ (∀ a ∈ s.handled, a.outcome = .added) ∧ ¬ s.OwnCallbacks := by
  have hstart := Reached.start
  have hadd := hstart.step (e := .asyncAddTorrent (.addTorrentNoPrompt "a.torrent" "a" true)) rfl
  constructor
  · have hadd' := hadd.step (e := .fetchTorHandleCB) rfl
    have hfailed := hadd'.step (e := .addTorrentAlert .error) rfl
    have hnext := hfailed.step (e := .asyncAddTorrent (.addTorrentNoPrompt "b.torrent" "b" false)) rfl
    have hnext' := hnext.step (e := .fetchTorHandleCB) rfl
    have hadded := hnext'.step (e := .addTorrentAlert .added) rfl
    exact ⟨_, hadded, by decide, by rw [OwnCallbacks]; decide⟩
  · have hadded := hadd.step (e := .addTorrentAlert .added) rfl
    exact ⟨_, hadded, by decide, by rw [OwnCallbacks]; decide⟩

end AddTorrents

end Client

end LibtorrentSN
