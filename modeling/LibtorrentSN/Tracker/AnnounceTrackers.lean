import Mathlib.Algebra.Group.Nat.Defs
import Mathlib.Logic.Function.Basic
import Mathlib.Data.List.Nodup

/-!
# Announcing a torrent

A torrent announces itself to its trackers from every listen socket (`src/torrent.cpp`, `announce_with_tracker`).
Each tracker keeps for each socket when it may be asked again and which events it has been told
(`src/announce_entry.cpp`). A request that fails has the torrent announce again, with the event of the failed
request.

Times are in seconds, and the least time is 0. Only the fields of the requests that depend on the trackers are
kept; scrapes, alerts and the timer are left out, and so is the version of the info-hash, of which there is one.
A run is one session of announces: `start_announcing`, which begins another one after a pause, and the `reset` of
`announce_infohash` that it calls are left out.
-/

namespace LibtorrentSN

namespace Tracker

/-- `event_t` -/
inductive AnnounceEvent
  | none
  | completed
  | started
  | stopped
  | paused
  deriving DecidableEq

/-- `announce_infohash` -/
structure AnnounceInfohash where
  nextAnnounce : ℕ := 0
  minAnnounce : ℕ := 0
  fails : ℕ := 0
  updating : Bool := false
  startSent : Bool := false
  completeSent : Bool := false
  deriving DecidableEq

namespace AnnounceInfohash

def isWorking (a : AnnounceInfohash) : Bool := a.fails = 0

def retryDelayMin : ℕ := 5

def retryDelayMax : ℕ := 60 * 60

def failed (a : AnnounceInfohash) (backoffRatio retryInterval now : ℕ) : AnnounceInfohash :=
  -- fails is only 7 bits
  let fails := if a.fails < 2 ^ 7 - 1 then a.fails + 1 else a.fails
  let delay :=
    max retryInterval (min retryDelayMax (retryDelayMin + fails * fails * retryDelayMin * backoffRatio / 100))
  { a with
    fails
    nextAnnounce := if fails = 0 then a.nextAnnounce else now + delay
    updating := false }

def canAnnounce (a : AnnounceInfohash) (now : ℕ) (isSeed : Bool) (failLimit : ℕ) : Bool :=
  let needSendComplete := isSeed && !a.completeSent
  a.nextAnnounce ≤ now + 1 && (a.minAnnounce ≤ now || needSendComplete) && (a.fails < failLimit || failLimit = 0) &&
    !a.updating

end AnnounceInfohash

/-- `announce_endpoint` -/
structure AnnounceEndpoint where
  socket : ℕ
  enabled : Bool := true
  infoHash : AnnounceInfohash := {}
  deriving DecidableEq

/-- `announce_entry`. The number says which tracker of the torrent it is. -/
structure AnnounceEntry where
  id : ℕ
  url : List Char
  tier : ℕ
  failLimit : ℕ := 0
  endpoints : List AnnounceEndpoint := []
  deriving DecidableEq

/-- `tracker_request`, and which tracker it is for. -/
structure AnnounceRequest where
  id : ℕ
  url : List Char
  outgoingSocket : ℕ
  event : AnnounceEvent
  deriving DecidableEq

/-- A request that was sent, with the flags it was sent under, and how many responses had come. -/
structure SentRequest extends AnnounceRequest where
  startSent : Bool
  completeSent : Bool
  isSeed : Bool
  responses : ℕ
  deriving DecidableEq

/-- The settings and the state of the torrent that an announce looks at. -/
structure AnnounceEnv where
  now : ℕ
  isSeed : Bool
  isFinished : Bool
  abort : Bool := false
  paused : Bool := false
  sessionPaused : Bool := false
  checkingFiles : Bool := false
  announceToTrackers : Bool := true
  stopTrackerTimeout : ℕ := 5
  announceToAllTrackers : Bool := false
  announceToAllTiers : Bool := false
  trackerBackoff : ℕ := 250
  minAnnounceInterval : ℕ := 300
  hasV1 : Bool := true

/-- `announce_protocol_state` -/
structure AnnounceState where
  -- `INT_MAX` until the first tracker that works is found
  tier : ℕ := 2 ^ 31 - 1
  sentAnnounce : Bool := false
  done : Bool := false
  deriving DecidableEq

/-- The variables of the loop over the trackers. -/
structure AnnounceLoop where
  reqEvent : AnnounceEvent
  -- `listen_socket_states`: the sockets that were seen, and their states
  seen : List ℕ := []
  states : ℕ → AnnounceState := fun _ => {}
  requests : List SentRequest := []

/-- The part of a torrent that has to do with its trackers. -/
structure TorrentTrackers where
  trackers : List AnnounceEntry
  completeSent : Bool := false
  announcing : Bool := true
  outstanding : List AnnounceRequest := []
  sent : List SentRequest := []
  -- the requests that were answered with success
  answered : List AnnounceRequest := []

/-- `refresh_endpoint_list`, for one listen socket -/
def AnnounceEntry.endpoint (ae : AnnounceEntry) (socket : ℕ) : AnnounceEndpoint :=
  (ae.endpoints.find? (·.socket = socket)).getD { socket }

/-- `refresh_endpoint_list` -/
def AnnounceEntry.refresh (ae : AnnounceEntry) (sockets : List ℕ) : List AnnounceEndpoint := sockets.map ae.endpoint

namespace AnnounceEnv

variable (env : AnnounceEnv)

/-- Whether an endpoint is asked, and the state of its socket afterwards. -/
def visit (ae : AnnounceEntry) (a : AnnounceInfohash) (state : AnnounceState) : Bool × AnnounceState :=
  if state.done then (false, state)
  else if env.announceToAllTiers ∧ ¬ env.announceToAllTrackers ∧ state.sentAnnounce ∧ ae.tier ≤ state.tier ∧
      state.tier ≠ 2 ^ 31 - 1 then (false, state)
  else if state.tier < ae.tier ∧ state.sentAnnounce ∧ ¬ env.announceToAllTiers then (false, state)
  else
    let state := if a.isWorking then { state with tier := ae.tier, sentAnnounce := false } else state
    let last := !env.announceToAllTrackers && !env.announceToAllTiers
    if ¬ a.canAnnounce env.now env.isSeed ae.failLimit then
      -- this counts
      (false, if a.isWorking then { state with sentAnnounce := true, done := state.done || last } else state)
    else (true, { state with sentAnnounce := true, done := state.done || (a.isWorking && last) })

/-- The event of a request through one endpoint. -/
def chooseEvent (completeSent : Bool) (e : AnnounceEvent) (a : AnnounceInfohash) : AnnounceEvent :=
  if e = .none then
    if ¬ a.startSent then .started
    else if ¬ completeSent ∧ ¬ a.completeSent ∧ env.isSeed then .completed
    else .none
  else e

/-- The request through an endpoint. -/
def request (completeSent : Bool) (responses : ℕ) (e : AnnounceEvent) (ae : AnnounceEntry) (aep : AnnounceEndpoint) :
    SentRequest where
  id := ae.id
  url := ae.url
  outgoingSocket := aep.socket
  event := env.chooseEvent completeSent e aep.infoHash
  startSent := aep.infoHash.startSent
  completeSent := aep.infoHash.completeSent
  isSeed := env.isSeed
  responses := responses

/-- The body of the loop over the endpoints of a tracker. -/
def announceEndpoint (completeSent : Bool) (responses : ℕ) (e : AnnounceEvent) (ae : AnnounceEntry)
    (loop : AnnounceLoop) (aep : AnnounceEndpoint) : AnnounceEndpoint × AnnounceLoop :=
  -- the state of the socket is there even if the endpoint does not announce
  let loop := { loop with seen := if aep.socket ∈ loop.seen then loop.seen else loop.seen ++ [aep.socket] }
  if ¬ aep.enabled then (aep, loop)
  else if ¬ env.hasV1 then (aep, loop)
  -- there is no point in sending an event=stopped without an event=started
  else if ¬ aep.infoHash.startSent ∧ loop.reqEvent = .stopped then (aep, loop)
  else
    let (asked, state) := env.visit ae aep.infoHash (loop.states aep.socket)
    let loop := { loop with states := Function.update loop.states aep.socket state }
    if ¬ asked then (aep, loop)
    else
      let req := env.request completeSent responses e ae aep
      ({ aep with infoHash := { aep.infoHash with updating := true, nextAnnounce := env.now, minAnnounce := env.now } },
        { loop with reqEvent := req.event, requests := loop.requests ++ [req] })

def announceEndpoints (completeSent : Bool) (responses : ℕ) (e : AnnounceEvent) (ae : AnnounceEntry) :
    AnnounceLoop → List AnnounceEndpoint → List AnnounceEndpoint × AnnounceLoop
  | loop, [] => ([], loop)
  | loop, aep :: endpoints =>
    let first := env.announceEndpoint completeSent responses e ae loop aep
    let rest := announceEndpoints completeSent responses e ae first.2 endpoints
    (first.1 :: rest.1, rest.2)

/-- The loop over the trackers. -/
def announceTrackers (sockets : List ℕ) (completeSent : Bool) (responses : ℕ) (e : AnnounceEvent) :
    AnnounceLoop → List AnnounceEntry → List AnnounceEntry × AnnounceLoop
  | loop, [] => ([], loop)
  | loop, ae :: trackers =>
    let first := env.announceEndpoints completeSent responses e ae loop (ae.refresh sockets)
    let ae := { ae with endpoints := first.1 }
    if first.2.seen.all fun socket => !env.hasV1 || (first.2.states socket).done then (ae :: trackers, first.2)
    else
      let rest := announceTrackers sockets completeSent responses e first.2 trackers
      (ae :: rest.1, rest.2)

/-- What a response changes in an infohash. -/
def respond (r : AnnounceRequest) (interval minInterval : ℕ) (a : AnnounceInfohash) : AnnounceInfohash :=
  { a with
    startSent := a.startSent || r.event = .started
    completeSent := a.completeSent || r.event = .completed
    nextAnnounce := env.now + max interval env.minAnnounceInterval
    minAnnounce := env.now + minInterval
    updating := false
    fails := 0 }

/-- The event that an announce goes out with, if it does. -/
def effectiveEvent (e : AnnounceEvent) : Option AnnounceEvent :=
  let e := if env.abort then .stopped else e
  if e = .stopped ∧ env.stopTrackerTimeout = 0 then .none
  else if e ≠ .stopped ∧ ¬ env.announceToTrackers then .none
  else if e ≠ .stopped ∧ env.paused then .none
  else if e = .none ∧ env.isFinished ∧ ¬ env.isSeed then some .paused
  else some e

end AnnounceEnv

/-- The first element that is looked for is changed. -/
def updateFirst {α : Type*} (p : α → Bool) (f : α → α) : List α → List α
  | [] => []
  | a :: l => if p a then f a :: l else a :: updateFirst p f l

/-- The first endpoint with the socket is changed. -/
def AnnounceEntry.updateEndpoint (ae : AnnounceEntry) (socket : ℕ) (f : AnnounceEndpoint → AnnounceEndpoint) :
    AnnounceEntry :=
  { ae with endpoints := updateFirst (·.socket = socket) f ae.endpoints }

/-- A tracker is moved to the end of its tier. -/
def moveBack (ae : AnnounceEntry) : List AnnounceEntry → List AnnounceEntry
  | [] => [ae]
  | next :: trackers => if ae.tier = next.tier then next :: moveBack ae trackers else ae :: next :: trackers

namespace TorrentTrackers

variable (s : TorrentTrackers)

def findTracker (url : List Char) : Option AnnounceEntry := s.trackers.find? (·.url = url)

def announceWithTracker (sockets : List ℕ) (env : AnnounceEnv) (e : AnnounceEvent) : TorrentTrackers :=
  match env.effectiveEvent e with
  | none => s
  | some e =>
    let r := env.announceTrackers sockets s.completeSent s.answered.length e { reqEvent := e } s.trackers
    { s with
      trackers := r.1
      outstanding := s.outstanding ++ r.2.requests.map (·.toAnnounceRequest)
      sent := s.sent ++ r.2.requests }

/-- The infohash of every endpoint is changed. -/
def mapInfohashes (f : AnnounceEndpoint → AnnounceInfohash) : TorrentTrackers :=
  { s with trackers := s.trackers.map fun ae =>
      { ae with endpoints := ae.endpoints.map fun aep => { aep with infoHash := f aep } } }

/-- The endpoints may announce at once. -/
def makeDue (env : AnnounceEnv) (skips : AnnounceEndpoint → Bool) : TorrentTrackers :=
  s.mapInfohashes fun aep =>
    if skips aep then aep.infoHash else { aep.infoHash with nextAnnounce := env.now, minAnnounce := env.now }

/-- The first tracker with the URL is changed. -/
def updateTracker (url : List Char) (f : AnnounceEntry → AnnounceEntry) : TorrentTrackers :=
  { s with trackers := updateFirst (·.url = url) f s.trackers }

def trackerResponse (env : AnnounceEnv) (r : AnnounceRequest) (interval minInterval : ℕ) : TorrentTrackers :=
  let found := (s.findTracker r.url).bind fun ae => ae.endpoints.find? (·.socket = r.outgoingSocket)
  let completeSent := match found with
    | some aep => s.completeSent || (!aep.infoHash.completeSent && r.event = .completed)
    | none => s.completeSent
  let updated := s.updateTracker r.url fun ae => ae.updateEndpoint r.outgoingSocket fun aep =>
    { aep with infoHash := env.respond r interval minInterval aep.infoHash }
  { updated with completeSent }

/-- `deprioritize_tracker`, for the first tracker with the URL -/
def deprioritizeTracker (url : List Char) : List AnnounceEntry → List AnnounceEntry
  | [] => []
  | ae :: trackers => if ae.url = url then moveBack ae trackers else ae :: deprioritizeTracker url trackers

/-- The errors that matter: the address family is not supported, and the tracker is gone. -/
inductive RequestError
  | addressFamilyNotSupported
  | gone
  | other
  deriving DecidableEq

/-- What an error changes before the torrent announces again. -/
def requestFailed (env : AnnounceEnv) (r : AnnounceRequest) (ec : RequestError) (retryInterval : ℕ) :
    TorrentTrackers :=
  let failed := s.updateTracker r.url fun ae =>
    let ae := ae.updateEndpoint r.outgoingSocket fun aep =>
      { aep with
        infoHash := aep.infoHash.failed env.trackerBackoff retryInterval env.now
        enabled := aep.enabled && ec ≠ .addressFamilyNotSupported }
    { ae with failLimit := if ec = .gone then 1 else ae.failLimit }
  match failed.findTracker r.url with
  | none => failed
  | some ae =>
    -- if all endpoints fail, the next tracker of the tier is tried
    if ae.endpoints.all fun aep => !(env.hasV1 && aep.infoHash.isWorking) then
      { failed with trackers := deprioritizeTracker r.url failed.trackers }
    else failed

/-- After an error the torrent announces again. -/
def AnnounceAgain (env : AnnounceEnv) (r : AnnounceRequest) : Prop :=
  (¬ env.abort ∧ ¬ env.paused ∧ ¬ env.sessionPaused ∧ ¬ env.checkingFiles) ∨ r.event = .stopped

instance (env : AnnounceEnv) (r : AnnounceRequest) : Decidable (AnnounceAgain env r) :=
  inferInstanceAs (Decidable (_ ∨ _))

def trackerRequestError (sockets : List ℕ) (env : AnnounceEnv) (r : AnnounceRequest) (ec : RequestError)
    (retryInterval : ℕ) : TorrentTrackers :=
  let failed := s.requestFailed env r ec retryInterval
  if AnnounceAgain env r then failed.announceWithTracker sockets env r.event else failed

/-- `torrent::completed` -/
def completed (sockets : List ℕ) (env : AnnounceEnv) : TorrentTrackers :=
  if ¬ s.announcing then s
  else
    (s.makeDue env fun aep => !aep.enabled || aep.infoHash.completeSent).announceWithTracker sockets env .none

/-- `files_checked` of a torrent that has all its pieces -/
def filesCheckedSeed : TorrentTrackers :=
  { s.mapInfohashes fun aep => { aep.infoHash with completeSent := true } with completeSent := true }

def stopAnnouncing (sockets : List ℕ) (env : AnnounceEnv) : TorrentTrackers :=
  if ¬ s.announcing then s
  else
    let s := { s with announcing := false }
    (s.makeDue env fun _ => false).announceWithTracker sockets env .stopped

end TorrentTrackers

/-- What can happen to a torrent and its trackers. -/
inductive AnnounceStep
  -- a regular announce, or one that says that the torrent stops
  | announce (stopped : Bool)
  | completed
  | filesChecked
  | stopAnnouncing
  -- the outstanding request with this number is answered
  | trackerResponse (k interval minInterval : ℕ)
  | trackerRequestError (k : ℕ) (ec : TorrentTrackers.RequestError) (retryInterval : ℕ)

/-- The step, where it can happen. -/
def TorrentTrackers.step (sockets : List ℕ) (s : TorrentTrackers) (env : AnnounceEnv) :
    AnnounceStep → Option TorrentTrackers
  | .announce stopped => some (s.announceWithTracker sockets env (if stopped then .stopped else .none))
  | .completed => some (s.completed sockets env)
  | .filesChecked => if env.isSeed then some s.filesCheckedSeed else none
  | .stopAnnouncing => some (s.stopAnnouncing sockets env)
  | .trackerResponse k interval minInterval =>
    match s.outstanding[k]? with
    | none => none
    | some r =>
      some ({ s with outstanding := s.outstanding.eraseIdx k, answered := s.answered ++ [r] }.trackerResponse
        env r interval minInterval)
  | .trackerRequestError k ec retryInterval =>
    match s.outstanding[k]? with
    | none => none
    | some r =>
      some ({ s with outstanding := s.outstanding.eraseIdx k }.trackerRequestError sockets env r ec retryInterval)

end Tracker

end LibtorrentSN
