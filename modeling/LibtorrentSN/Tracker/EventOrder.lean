import LibtorrentSN.Tracker.AnnounceTrackers

/-!
# The events that trackers are told

A tracker is told that the torrent has started before anything else, that it has completed once it is a seed, and
that it has stopped if it was told of the start. The announces that carry no event of their own keep to this. An
announce that repeats the event of a failed request, and one of a torrent that is finished without being a seed,
carry their event to every tracker they reach.
-/

namespace LibtorrentSN

namespace Tracker

/-- A started request through the tracker and the socket was answered with success. -/
def StartAnswered (answered : List AnnounceRequest) (id socket : ℕ) : Prop :=
  ∃ q ∈ answered, q.event = .started ∧ q.id = id ∧ q.outgoingSocket = socket

/-- The event of a request is one that may be sent. -/
structure SentRequest.WellFormed (answered : List AnnounceRequest) (r : SentRequest) : Prop where
  started : r.event = .started → r.startSent = false
  first : ¬ StartAnswered (answered.take r.responses) r.id r.outgoingSocket → r.event = .started ∨ r.event = .stopped
  completed : r.event = .completed → r.isSeed = true ∧ r.startSent = true ∧ r.completeSent = false
  stopped : r.event = .stopped → r.startSent = true

/-- The event of a request goes with the flags that it was sent under. -/
structure SentRequest.Fits (r : SentRequest) : Prop where
  started : r.event = .started → r.startSent = false
  first : r.startSent = false → r.event = .started ∨ r.event = .stopped
  completed : r.event = .completed → r.isSeed = true ∧ r.startSent = true ∧ r.completeSent = false

/-- The tracker was told of the start from the socket. -/
def AnnounceEntry.HasStarted (ae : AnnounceEntry) (socket : ℕ) : Prop :=
  ∃ aep ∈ ae.endpoints, aep.socket = socket ∧ aep.infoHash.startSent = true

/-- A tracker with the number was told of the start from the socket. -/
def HasStarted (trackers : List AnnounceEntry) (id socket : ℕ) : Prop :=
  ∃ ae ∈ trackers, ae.id = id ∧ ae.HasStarted socket

namespace AnnounceEnv

variable (env : AnnounceEnv)

/-- Whether an endpoint is asked, if it is enabled. -/
def visitEndpoint (ae : AnnounceEntry) (aep : AnnounceEndpoint) (state : AnnounceState) : Bool × AnnounceState :=
  if aep.enabled = true ∧ env.hasV1 = true then env.visit ae aep.infoHash state else (false, state)

/-- The endpoints with a socket that an announce reaches, tracker by tracker. -/
def asked (socket : ℕ) : AnnounceState → List AnnounceEntry → List (AnnounceEntry × AnnounceEndpoint)
  | _, [] => []
  | state, ae :: trackers =>
    let visited := env.visitEndpoint ae (ae.endpoint socket) state
    let rest := asked socket visited.2 trackers
    if visited.1 then (ae, ae.endpoint socket) :: rest else rest

/-- The event can be told through the endpoint. -/
def Fits (a : AnnounceInfohash) : AnnounceEvent → Prop
  | .none | .stopped => True
  | .started => a.startSent = false
  | .completed => env.isSeed = true ∧ a.startSent = true ∧ a.completeSent = false
  | .paused => a.startSent = true

end AnnounceEnv

namespace TorrentTrackers

variable (s : TorrentTrackers) (sockets : List ℕ) (env : AnnounceEnv)

/-- The event of an announce can be told through every endpoint that the announce reaches. -/
def AnnounceFits (e : AnnounceEvent) : Prop :=
  ∀ e', env.effectiveEvent e = some e' → ∀ socket ∈ sockets, ∀ p ∈ env.asked socket {} s.trackers,
    env.Fits p.2.infoHash e'

/-- A response to a started request is taken for the tracker that was asked, and not for another one with the same
URL that has not been told of the start. -/
def Credits (r : AnnounceRequest) : Prop :=
  r.event = .started → ∀ ae, s.findTracker r.url = some ae →
    ∀ aep, ae.endpoints.find? (·.socket = r.outgoingSocket) = some aep → ae.id = r.id ∨ aep.infoHash.startSent = true

/-- The condition on a step. -/
def Fits : AnnounceStep → Prop
  | .announce stopped => s.AnnounceFits sockets env (if stopped then .stopped else .none)
  | .completed => s.announcing = true →
    (s.makeDue env fun aep => !aep.enabled || aep.infoHash.completeSent).AnnounceFits sockets env .none
  | .filesChecked | .stopAnnouncing => True
  | .trackerResponse k _ _ => ∀ r, s.outstanding[k]? = some r → s.Credits r
  | .trackerRequestError k ec retryInterval => ∀ r, s.outstanding[k]? = some r → AnnounceAgain env r →
    ({ s with outstanding := s.outstanding.eraseIdx k }.requestFailed env r ec retryInterval).AnnounceFits
      sockets env r.event

end TorrentTrackers

namespace AnnounceEnv

variable {env : AnnounceEnv}

theorem visit_of_done {ae : AnnounceEntry} {a : AnnounceInfohash} {state : AnnounceState} (h : state.done = true) :
    env.visit ae a state = (false, state) := by
  rw [visit, if_pos h]

theorem asked_of_done {socket : ℕ} {state : AnnounceState} (h : env.hasV1 = false ∨ state.done = true)
    (trackers : List AnnounceEntry) : env.asked socket state trackers = [] := by
  induction trackers with
  | nil => rfl
  | cons ae trackers ih =>
    have hvisit : env.visitEndpoint ae (ae.endpoint socket) state = (false, state) := by
      rw [visitEndpoint]
      split
      · rename_i hv
        exact visit_of_done (h.resolve_left (by simp [hv.2]))
      · rfl
    rw [asked, hvisit]
    exact ih

section Loop

theorem chooseEvent_eq_stopped {completeSent : Bool} {e : AnnounceEvent} {a : AnnounceInfohash} :
    env.chooseEvent completeSent e a = .stopped ↔ e = .stopped := by
  rw [chooseEvent]
  split_ifs with he
  · simp [he]
  · simp [he]
  · simp [he]
  · rfl

variable (env : AnnounceEnv) (completeSent : Bool) (responses : ℕ) {e : AnnounceEvent} (ae : AnnounceEntry)
  {loop : AnnounceLoop}

/-- What the body of the loop does unless the torrent stops. -/
theorem announceEndpoint_eq (he : e ≠ .stopped) (hloop : loop.reqEvent ≠ .stopped) (aep : AnnounceEndpoint) :
    ∃ infoHash reqEvent,
      env.announceEndpoint completeSent responses e ae loop aep = ({ aep with infoHash },
        { reqEvent
          seen := if aep.socket ∈ loop.seen then loop.seen else loop.seen ++ [aep.socket]
          states := Function.update loop.states aep.socket (env.visitEndpoint ae aep (loop.states aep.socket)).2
          requests := loop.requests ++
            if (env.visitEndpoint ae aep (loop.states aep.socket)).1 then [env.request completeSent responses e ae aep]
            else [] }) ∧ reqEvent ≠ .stopped := by
  rw [announceEndpoint]
  dsimp only
  by_cases hvisited : aep.enabled = true ∧ env.hasV1 = true
  · have hvisit : env.visitEndpoint ae aep (loop.states aep.socket) =
        env.visit ae aep.infoHash (loop.states aep.socket) := if_pos hvisited
    rw [if_neg (not_not.mpr hvisited.1), if_neg (not_not.mpr hvisited.2), if_neg fun h => hloop h.2, hvisit]
    rcases env.visit ae aep.infoHash (loop.states aep.socket) with ⟨asked, state⟩
    cases asked with
    | false => exact ⟨aep.infoHash, loop.reqEvent, by simp, hloop⟩
    | true =>
      exact ⟨{ aep.infoHash with updating := true, nextAnnounce := env.now, minAnnounce := env.now },
        env.chooseEvent completeSent e aep.infoHash, rfl, fun h => he (chooseEvent_eq_stopped.mp h)⟩
  · have hvisit : env.visitEndpoint ae aep (loop.states aep.socket) = (false, loop.states aep.socket) :=
      if_neg hvisited
    rw [hvisit]
    refine ⟨aep.infoHash, loop.reqEvent, ?_, hloop⟩
    by_cases henabled : aep.enabled = true
    · rw [if_neg (not_not.mpr henabled), if_pos fun h => hvisited ⟨henabled, h⟩]
      simp
    · rw [if_pos henabled]
      simp

/-- What the loop over the endpoints of a tracker does unless the torrent stops. -/
structure Visited (env : AnnounceEnv) (completeSent : Bool) (responses : ℕ) (e : AnnounceEvent) (ae : AnnounceEntry)
    (sockets : List ℕ) (loop loop' : AnnounceLoop) : Prop where
  reqEvent : loop'.reqEvent ≠ .stopped
  seen : ∀ k, k ∈ loop.seen ∨ k ∈ sockets → k ∈ loop'.seen
  states : ∀ k, loop'.states k =
    if k ∈ sockets then (env.visitEndpoint ae (ae.endpoint k) (loop.states k)).2 else loop.states k
  requests : ∀ q, q ∈ loop'.requests ↔ q ∈ loop.requests ∨ ∃ k ∈ sockets,
    (env.visitEndpoint ae (ae.endpoint k) (loop.states k)).1 = true ∧
      q = env.request completeSent responses e ae (ae.endpoint k)

theorem endpoint_socket (k : ℕ) : (ae.endpoint k).socket = k := by
  rw [AnnounceEntry.endpoint]
  cases hfind : ae.endpoints.find? (·.socket = k) with
  | none => rfl
  | some aep => exact of_decide_eq_true (List.find?_some hfind :)

theorem visited_announceEndpoints (he : e ≠ .stopped) {sockets : List ℕ} (hsockets : sockets.Nodup)
    (hloop : loop.reqEvent ≠ .stopped) : Visited env completeSent responses e ae sockets loop
      (env.announceEndpoints completeSent responses e ae loop (sockets.map ae.endpoint)).2 := by
  induction sockets generalizing loop with
  | nil => exact ⟨hloop, fun k hk => hk.resolve_right List.not_mem_nil, fun k => rfl, fun q => by simp; rfl⟩
  | cons k sockets ih =>
    obtain ⟨hk, hsockets⟩ := List.nodup_cons.mp hsockets
    obtain ⟨infoHash, reqEvent, heq, hreq⟩ :=
      announceEndpoint_eq env completeSent responses ae he hloop (ae.endpoint k)
    rw [List.map_cons, announceEndpoints]
    dsimp only
    rw [heq, endpoint_socket]
    dsimp only
    generalize hloop' : AnnounceLoop.mk _ _ _ _ = loop'
    have hrest := @ih loop' hsockets (hloop' ▸ hreq)
    have hstates : ∀ j ≠ k, loop'.states j = loop.states j := fun j hj => by
      rw [← hloop']
      exact Function.update_of_ne hj _ _
    refine ⟨hrest.reqEvent, fun j hj => hrest.seen j ?_, fun j => ?_, fun q => ?_⟩
    · rcases hj with hj | hj
      · left
        rw [← hloop']
        dsimp only
        split_ifs
        · exact hj
        · exact List.mem_append_left _ hj
      · rcases List.mem_cons.mp hj with rfl | hj
        · left
          rw [← hloop']
          dsimp only
          split_ifs with hmem
          · exact hmem
          · exact List.mem_append_right _ (List.mem_singleton_self _)
        · exact .inr hj
    · rw [hrest.states]
      rcases eq_or_ne j k with rfl | hne
      · rw [if_neg hk, if_pos List.mem_cons_self, ← hloop']
        exact Function.update_self ..
      · rw [hstates j hne]
        simp [hne]
    · have hsame : (∃ j ∈ sockets, (env.visitEndpoint ae (ae.endpoint j) (loop'.states j)).1 = true ∧
          q = env.request completeSent responses e ae (ae.endpoint j)) ↔ ∃ j ∈ sockets,
            (env.visitEndpoint ae (ae.endpoint j) (loop.states j)).1 = true ∧
              q = env.request completeSent responses e ae (ae.endpoint j) := by
        refine exists_congr fun j => and_congr_right fun hj => ?_
        rw [hstates j fun hjk => hk (hjk ▸ hj)]
      rw [hrest.requests, hsame, ← hloop', List.exists_mem_cons_iff, ← or_assoc]
      refine or_congr_left ?_
      rw [List.mem_append]
      refine or_congr_right ?_
      split_ifs with hasked
      · simp [hasked]
      · simp [hasked]

theorem announceTrackers_requests (he : e ≠ .stopped) {sockets : List ℕ} (hsockets : sockets.Nodup)
    (trackers : List AnnounceEntry) (hloop : loop.reqEvent ≠ .stopped) (q : SentRequest) :
    q ∈ (env.announceTrackers sockets completeSent responses e loop trackers).2.requests ↔ q ∈ loop.requests ∨
      ∃ k ∈ sockets, ∃ p ∈ env.asked k (loop.states k) trackers, q = env.request completeSent responses e p.1 p.2 := by
  induction trackers generalizing loop with
  | nil => simp [announceTrackers, asked]
  | cons ae trackers ih =>
    have hvisited := visited_announceEndpoints env completeSent responses ae he hsockets hloop
    rw [announceTrackers, AnnounceEntry.refresh]
    dsimp only
    generalize env.announceEndpoints completeSent responses e ae loop (sockets.map ae.endpoint) = first at hvisited ⊢
    have hsplit : (∃ k ∈ sockets, ∃ p ∈ env.asked k (loop.states k) (ae :: trackers),
        q = env.request completeSent responses e p.1 p.2) ↔
        (∃ k ∈ sockets, (env.visitEndpoint ae (ae.endpoint k) (loop.states k)).1 = true ∧
          q = env.request completeSent responses e ae (ae.endpoint k)) ∨
        ∃ k ∈ sockets, ∃ p ∈ env.asked k (first.2.states k) trackers,
          q = env.request completeSent responses e p.1 p.2 := by
      have hasked : ∀ k ∈ sockets, (∃ p ∈ env.asked k (loop.states k) (ae :: trackers),
          q = env.request completeSent responses e p.1 p.2) ↔
          ((env.visitEndpoint ae (ae.endpoint k) (loop.states k)).1 = true ∧
            q = env.request completeSent responses e ae (ae.endpoint k)) ∨
          ∃ p ∈ env.asked k (first.2.states k) trackers, q = env.request completeSent responses e p.1 p.2 := by
        intro k hk
        rw [asked, hvisited.states, if_pos hk]
        split_ifs with hv
        · simp [hv]
        · simp [hv]
      constructor
      · rintro ⟨k, hk, hp⟩
        exact ((hasked k hk).mp hp).imp (fun h => ⟨k, hk, h⟩) fun h => ⟨k, hk, h⟩
      · rintro (⟨k, hk, h⟩ | ⟨k, hk, h⟩)
        · exact ⟨k, hk, (hasked k hk).mpr (.inl h)⟩
        · exact ⟨k, hk, (hasked k hk).mpr (.inr h)⟩
    rw [hsplit, ← or_assoc, ← hvisited.requests]
    split
    · -- no socket has anything left to announce
      rename_i hdone
      refine (or_iff_left ?_).symm
      rintro ⟨k, hk, p, hp, _⟩
      have hk' := List.all_eq_true.mp hdone k (hvisited.seen k (.inr hk))
      rw [Bool.or_eq_true, Bool.not_eq_true'] at hk'
      rw [asked_of_done hk'] at hp
      cases hp
    · exact ih hvisited.reqEvent

/-- Where the torrent stops, only those are told that were told of the start. -/
theorem announceEndpoint_stopped (hloop : loop.reqEvent = .stopped) (aep : AnnounceEndpoint)
    (hrequests : ∀ q ∈ loop.requests, q.event = .stopped ∧ q.startSent = true) :
    (env.announceEndpoint completeSent responses .stopped ae loop aep).2.reqEvent = .stopped ∧
      ∀ q ∈ (env.announceEndpoint completeSent responses .stopped ae loop aep).2.requests,
        q.event = .stopped ∧ q.startSent = true := by
  rw [announceEndpoint]
  dsimp only
  generalize (if aep.socket ∈ loop.seen then loop.seen else loop.seen ++ [aep.socket]) = seen
  split
  · exact ⟨hloop, hrequests⟩
  split
  · exact ⟨hloop, hrequests⟩
  split
  · exact ⟨hloop, hrequests⟩
  rename_i hstart
  split
  · exact ⟨hloop, hrequests⟩
  · have hevent : env.chooseEvent completeSent .stopped aep.infoHash = .stopped := chooseEvent_eq_stopped.mpr rfl
    refine ⟨hevent, fun q hq => ?_⟩
    rcases List.mem_append.mp hq with hq | hq
    · exact hrequests q hq
    · rw [List.mem_singleton.mp hq]
      exact ⟨hevent, by_contra fun h => hstart ⟨h, hloop⟩⟩

theorem announceEndpoints_stopped (endpoints : List AnnounceEndpoint) (hloop : loop.reqEvent = .stopped)
    (hrequests : ∀ q ∈ loop.requests, q.event = .stopped ∧ q.startSent = true) :
    (env.announceEndpoints completeSent responses .stopped ae loop endpoints).2.reqEvent = .stopped ∧
      ∀ q ∈ (env.announceEndpoints completeSent responses .stopped ae loop endpoints).2.requests,
        q.event = .stopped ∧ q.startSent = true := by
  induction endpoints generalizing loop with
  | nil => exact ⟨hloop, hrequests⟩
  | cons aep endpoints ih =>
    obtain ⟨hloop', hrequests'⟩ := announceEndpoint_stopped env completeSent responses ae hloop aep hrequests
    exact ih hloop' hrequests'

theorem announceTrackers_stopped (sockets : List ℕ) (trackers : List AnnounceEntry) (hloop : loop.reqEvent = .stopped)
    (hrequests : ∀ q ∈ loop.requests, q.event = .stopped ∧ q.startSent = true) :
    ∀ q ∈ (env.announceTrackers sockets completeSent responses .stopped loop trackers).2.requests,
      q.event = .stopped ∧ q.startSent = true := by
  induction trackers generalizing loop with
  | nil => exact hrequests
  | cons ae trackers ih =>
    obtain ⟨hloop', hrequests'⟩ :=
      announceEndpoints_stopped env completeSent responses ae (ae.refresh sockets) hloop hrequests
    rw [announceTrackers]
    dsimp only
    split
    · exact hrequests'
    · exact ih hloop' hrequests'

/-- An announce leaves the flags as they are. -/
theorem announceEndpoint_startSent (loop : AnnounceLoop) (aep : AnnounceEndpoint) :
    (env.announceEndpoint completeSent responses e ae loop aep).1.socket = aep.socket ∧
      (env.announceEndpoint completeSent responses e ae loop aep).1.infoHash.startSent = aep.infoHash.startSent := by
  rw [announceEndpoint]
  dsimp only
  split
  · exact ⟨rfl, rfl⟩
  split
  · exact ⟨rfl, rfl⟩
  split
  · exact ⟨rfl, rfl⟩
  split
  · exact ⟨rfl, rfl⟩
  · exact ⟨rfl, rfl⟩

theorem announceEndpoints_hasStarted (endpoints : List AnnounceEndpoint) (socket : ℕ)
    (h : ∃ aep ∈ (env.announceEndpoints completeSent responses e ae loop endpoints).1,
      aep.socket = socket ∧ aep.infoHash.startSent = true) :
    ∃ aep ∈ endpoints, aep.socket = socket ∧ aep.infoHash.startSent = true := by
  induction endpoints generalizing loop with
  | nil => exact h
  | cons aep endpoints ih =>
    rw [announceEndpoints, List.exists_mem_cons_iff] at h
    rw [List.exists_mem_cons_iff]
    obtain ⟨hsocket, hstart⟩ := announceEndpoint_startSent env completeSent responses (e := e) ae loop aep
    rw [hsocket, hstart] at h
    exact h.imp_right ih

theorem hasStarted_of_refresh {sockets : List ℕ} {socket : ℕ}
    (h : ∃ aep ∈ ae.refresh sockets, aep.socket = socket ∧ aep.infoHash.startSent = true) : ae.HasStarted socket := by
  obtain ⟨aep, hmem, hsocket, hstart⟩ := h
  obtain ⟨k, -, rfl⟩ := List.mem_map.mp hmem
  rw [AnnounceEntry.endpoint] at hsocket hstart
  cases hfind : ae.endpoints.find? (·.socket = k) with
  | none =>
    rw [hfind] at hstart
    cases hstart
  | some aep =>
    rw [hfind] at hsocket hstart
    exact ⟨aep, List.mem_of_find?_eq_some hfind, hsocket, hstart⟩

theorem announceTrackers_hasStarted {sockets : List ℕ} {trackers : List AnnounceEntry} {id socket : ℕ}
    (h : HasStarted (env.announceTrackers sockets completeSent responses e loop trackers).1 id socket) :
    HasStarted trackers id socket := by
  induction trackers generalizing loop with
  | nil => exact h
  | cons ae trackers ih =>
    rw [announceTrackers] at h
    dsimp only at h
    have hfirst : ({ ae with endpoints := (env.announceEndpoints completeSent responses e ae loop
        (ae.refresh sockets)).1 } : AnnounceEntry).HasStarted socket → ae.HasStarted socket := fun hs =>
      hasStarted_of_refresh ae (announceEndpoints_hasStarted env completeSent responses ae _ socket hs)
    rw [HasStarted, List.exists_mem_cons_iff]
    split at h
    · rw [HasStarted, List.exists_mem_cons_iff] at h
      exact h.imp_left fun hs => ⟨hs.1, hfirst hs.2⟩
    · rw [HasStarted, List.exists_mem_cons_iff] at h
      exact h.imp (fun hs => ⟨hs.1, hfirst hs.2⟩) ih

end Loop

end AnnounceEnv

theorem mem_updateFirst {α : Type*} {p : α → Bool} {f : α → α} {l : List α} {b : α} (h : b ∈ updateFirst p f l) :
    b ∈ l ∨ ∃ a, l.find? p = some a ∧ b = f a := by
  induction l with
  | nil => exact absurd h List.not_mem_nil
  | cons a l ih =>
    rw [updateFirst] at h
    split at h
    · rename_i hp
      rcases List.mem_cons.mp h with rfl | h
      · exact .inr ⟨a, List.find?_cons_of_pos hp, rfl⟩
      · exact .inl (List.mem_cons_of_mem a h)
    · rename_i hp
      rcases List.mem_cons.mp h with rfl | h
      · exact .inl List.mem_cons_self
      · refine (ih h).imp (List.mem_cons_of_mem a) ?_
        rintro ⟨c, hc, rfl⟩
        exact ⟨c, by rwa [List.find?_cons_of_neg hp], rfl⟩

theorem mem_moveBack {ae b : AnnounceEntry} {trackers : List AnnounceEntry} (h : b ∈ moveBack ae trackers) :
    b ∈ ae :: trackers := by
  induction trackers with
  | nil => exact h
  | cons next trackers ih =>
    rw [moveBack] at h
    split at h
    · rcases List.mem_cons.mp h with rfl | h
      · exact List.mem_cons_of_mem _ List.mem_cons_self
      · exact (List.mem_cons.mp (ih h)).elim (fun h => h ▸ List.mem_cons_self)
          fun h => List.mem_cons_of_mem _ (List.mem_cons_of_mem _ h)
    · exact h

theorem mem_deprioritizeTracker {url : List Char} {b : AnnounceEntry} {trackers : List AnnounceEntry}
    (h : b ∈ TorrentTrackers.deprioritizeTracker url trackers) : b ∈ trackers := by
  induction trackers with
  | nil => exact h
  | cons ae trackers ih =>
    rw [TorrentTrackers.deprioritizeTracker] at h
    split at h
    · exact mem_moveBack h
    · exact (List.mem_cons.mp h).elim (fun h => h ▸ List.mem_cons_self) fun h => List.mem_cons_of_mem _ (ih h)

/-- A change of an endpoint that leaves its socket and its flag as they are. -/
theorem AnnounceEntry.hasStarted_updateEndpoint {ae : AnnounceEntry} {k socket : ℕ}
    {f : AnnounceEndpoint → AnnounceEndpoint} (hsocket : ∀ aep, (f aep).socket = aep.socket)
    (h : (ae.updateEndpoint k f).HasStarted socket) :
    ae.HasStarted socket ∨ ∃ aep, ae.endpoints.find? (·.socket = k) = some aep ∧ aep.socket = socket ∧
      (f aep).infoHash.startSent = true := by
  obtain ⟨aep, hmem, hk, hstart⟩ := h
  rcases mem_updateFirst hmem with hmem | ⟨aep, hfind, rfl⟩
  · exact .inl ⟨aep, hmem, hk, hstart⟩
  · exact .inr ⟨aep, hfind, (hsocket aep).symm.trans hk, hstart⟩

namespace TorrentTrackers

variable {s : TorrentTrackers} {sockets : List ℕ} {env : AnnounceEnv} {id socket : ℕ}

theorem hasStarted_updateTracker {url : List Char} {f : AnnounceEntry → AnnounceEntry} (hid : ∀ ae, (f ae).id = ae.id)
    (h : HasStarted (s.updateTracker url f).trackers id socket) :
    HasStarted s.trackers id socket ∨ ∃ ae, s.findTracker url = some ae ∧ ae.id = id ∧ (f ae).HasStarted socket := by
  obtain ⟨ae, hmem, hae, hstart⟩ := h
  rcases mem_updateFirst hmem with hmem | ⟨ae, hfind, rfl⟩
  · exact .inl ⟨ae, hmem, hae, hstart⟩
  · exact .inr ⟨ae, hfind, (hid ae).symm.trans hae, hstart⟩

theorem hasStarted_requestFailed {r : AnnounceRequest} {ec : RequestError} {retryInterval : ℕ}
    (h : HasStarted (s.requestFailed env r ec retryInterval).trackers id socket) : HasStarted s.trackers id socket := by
  rw [requestFailed] at h
  generalize hf : (fun ae : AnnounceEntry => _ : AnnounceEntry → AnnounceEntry) = f at h
  have hupdated : HasStarted (s.updateTracker r.url f).trackers id socket → HasStarted s.trackers id socket := by
    intro h
    refine (hasStarted_updateTracker (fun ae => hf ▸ rfl) h).elim (fun h => h) ?_
    rintro ⟨ae, hfind, hid, hstart⟩
    refine ⟨ae, List.mem_of_find?_eq_some hfind, hid, ?_⟩
    subst hf
    change (ae.updateEndpoint r.outgoingSocket fun aep =>
      { aep with
        infoHash := aep.infoHash.failed env.trackerBackoff retryInterval env.now
        enabled := aep.enabled && ec ≠ .addressFamilyNotSupported }).HasStarted socket at hstart
    refine (AnnounceEntry.hasStarted_updateEndpoint (by exact fun _ => rfl) hstart).elim (fun h => h) ?_
    rintro ⟨aep, hfind, hk, hstart⟩
    exact ⟨aep, List.mem_of_find?_eq_some hfind, hk, hstart⟩
  split at h
  · exact hupdated h
  · split at h
    · obtain ⟨ae, hmem, hae⟩ := h
      exact hupdated ⟨ae, mem_deprioritizeTracker hmem, hae⟩
    · exact hupdated h

theorem hasStarted_mapInfohashes {f : AnnounceEndpoint → AnnounceInfohash}
    (hf : ∀ aep, (f aep).startSent = aep.infoHash.startSent)
    (h : HasStarted (s.mapInfohashes f).trackers id socket) : HasStarted s.trackers id socket := by
  obtain ⟨ae', hmem, hid, aep', hmem', hsocket, hstart⟩ := h
  obtain ⟨ae, hae, rfl⟩ := List.mem_map.mp hmem
  obtain ⟨aep, haep, rfl⟩ := List.mem_map.mp hmem'
  exact ⟨ae, hae, hid, aep, haep, hsocket, (hf aep).symm.trans hstart⟩

theorem hasStarted_makeDue {skips : AnnounceEndpoint → Bool}
    (h : HasStarted (s.makeDue env skips).trackers id socket) : HasStarted s.trackers id socket := by
  refine hasStarted_mapInfohashes (fun aep => ?_) h
  split_ifs <;> rfl

theorem hasStarted_announceWithTracker {e : AnnounceEvent}
    (h : HasStarted (s.announceWithTracker sockets env e).trackers id socket) : HasStarted s.trackers id socket := by
  rw [announceWithTracker] at h
  split at h
  · exact h
  · exact AnnounceEnv.announceTrackers_hasStarted env _ _ h

/-- A response to a started request may set the flag. -/
theorem hasStarted_trackerResponse {r : AnnounceRequest} {interval minInterval : ℕ} (hr : s.Credits r)
    (h : HasStarted (s.trackerResponse env r interval minInterval).trackers id socket) :
    HasStarted s.trackers id socket ∨ (r.event = .started ∧ r.id = id ∧ r.outgoingSocket = socket) := by
  refine (hasStarted_updateTracker (by exact fun _ => rfl) h).elim .inl ?_
  rintro ⟨ae, hfind, hid, hstart⟩
  refine (AnnounceEntry.hasStarted_updateEndpoint (by exact fun _ => rfl) hstart).elim
    (fun h => .inl ⟨ae, List.mem_of_find?_eq_some hfind, hid, h⟩) ?_
  rintro ⟨aep, hfind', hk, hstart⟩
  have hsocket : aep.socket = r.outgoingSocket := of_decide_eq_true (List.find?_some hfind' :)
  have hold : aep.infoHash.startSent = true → HasStarted s.trackers id socket := fun h =>
    ⟨ae, List.mem_of_find?_eq_some hfind, hid, aep, List.mem_of_find?_eq_some hfind', hk, h⟩
  rcases Bool.or_eq_true_iff.mp hstart with hstart | hevent
  · exact .inl (hold hstart)
  · have hevent := of_decide_eq_true hevent
    rcases hr hevent ae hfind aep hfind' with hown | hstart
    · exact .inr ⟨hevent, hown.symm.trans hid, hsocket.symm.trans hk⟩
    · exact .inl (hold hstart)

end TorrentTrackers

/-- A request that says that the torrent stops, to a tracker that was told of the start. -/
theorem SentRequest.wellFormed_of_stopped {r : SentRequest} (hevent : r.event = .stopped) (hstart : r.startSent = true)
    (answered : List AnnounceRequest) : r.WellFormed answered := by
  refine ⟨fun h => ?_, fun _ => .inr hevent, fun h => ?_, fun _ => hstart⟩
  · rw [hevent] at h
    cases h
  · rw [hevent] at h
    cases h

namespace AnnounceEnv

variable {env : AnnounceEnv} {completeSent : Bool} {e : AnnounceEvent} {ae : AnnounceEntry} {aep : AnnounceEndpoint}

theorem mem_asked {socket : ℕ} {state : AnnounceState} {trackers : List AnnounceEntry}
    {p : AnnounceEntry × AnnounceEndpoint} (h : p ∈ env.asked socket state trackers) :
    p.1 ∈ trackers ∧ p.2 = p.1.endpoint socket := by
  induction trackers generalizing state with
  | nil => exact absurd h List.not_mem_nil
  | cons ae trackers ih =>
    rw [asked] at h
    split at h
    · rcases List.mem_cons.mp h with rfl | h
      · exact ⟨List.mem_cons_self, rfl⟩
      · exact (ih h).imp_left (List.mem_cons_of_mem ae)
    · exact (ih h).imp_left (List.mem_cons_of_mem ae)

theorem chooseEvent_of_ne {a : AnnounceInfohash} (he : e ≠ .none) : env.chooseEvent completeSent e a = e := if_neg he

/-- The event that the code chooses itself can be told through the endpoint. -/
theorem fits_chooseEvent {a : AnnounceInfohash} (hfits : env.Fits a e) :
    env.Fits a (env.chooseEvent completeSent e a) := by
  rw [chooseEvent]
  split_ifs with he hstart hcomplete
  · exact ⟨hcomplete.2.2, hstart, Bool.eq_false_iff.mpr hcomplete.2.1⟩
  · trivial
  · exact Bool.eq_false_iff.mpr hstart
  · exact hfits

theorem first_chooseEvent {a : AnnounceInfohash} (hfits : env.Fits a e) (hstart : a.startSent = false) :
    env.chooseEvent completeSent e a = .started ∨ env.chooseEvent completeSent e a = .stopped := by
  have hne : a.startSent ≠ true := Bool.eq_false_iff.mp hstart
  cases e with
  | none => exact .inl (by rw [chooseEvent, if_pos rfl, if_pos hne])
  | completed => exact absurd hfits.2.1 hne
  | started => exact .inl (chooseEvent_of_ne (by decide))
  | stopped => exact .inr (chooseEvent_of_ne (by decide))
  | paused => exact absurd hfits hne

theorem wellFormed_request {answered : List AnnounceRequest} (he : e ≠ .stopped)
    (hstart : aep.infoHash.startSent = true → StartAnswered answered ae.id aep.socket)
    (hfits : env.Fits aep.infoHash e) (more : List AnnounceRequest) :
    (env.request completeSent answered.length e ae aep).WellFormed (answered ++ more) := by
  have hchosen : env.Fits aep.infoHash (env.chooseEvent completeSent e aep.infoHash) := fits_chooseEvent hfits
  refine ⟨fun h => ?_, fun h => ?_, fun h => ?_, fun h => absurd (chooseEvent_eq_stopped.mp h) he⟩
  · rw [show env.chooseEvent completeSent e aep.infoHash = .started from h] at hchosen
    exact hchosen
  · change ¬ StartAnswered ((answered ++ more).take answered.length) ae.id aep.socket at h
    rw [List.take_left] at h
    exact first_chooseEvent hfits (Bool.eq_false_iff.mpr fun hs => h (hstart hs))
  · rw [show env.chooseEvent completeSent e aep.infoHash = .completed from h] at hchosen
    exact hchosen

/-- A request whose event cannot be told through its endpoint. -/
theorem not_fits_request {responses : ℕ} (hfits : ¬ env.Fits aep.infoHash e) :
    ¬ (env.request completeSent responses e ae aep).Fits := by
  intro h
  have hne : e ≠ .none := by
    rintro rfl
    exact hfits trivial
  have hevent : (env.request completeSent responses e ae aep).event = e := chooseEvent_of_ne hne
  cases e with
  | none => exact hfits trivial
  | completed => exact hfits (h.completed hevent)
  | started => exact hfits (h.started hevent)
  | stopped => exact hfits trivial
  | paused =>
    have hstart : aep.infoHash.startSent = false := Bool.eq_false_iff.mpr hfits
    rcases h.first hstart with hc | hc
    · rw [hevent] at hc
      cases hc
    · rw [hevent] at hc
      cases hc

end AnnounceEnv

/-- The invariant of the runs: a tracker is marked as told of the start once it has said so. -/
structure TorrentTrackers.EventInv (s : TorrentTrackers) : Prop where
  started : ∀ id socket, HasStarted s.trackers id socket → StartAnswered s.answered id socket
  sent : ∀ r ∈ s.sent, ∀ more, r.WellFormed (s.answered ++ more)

namespace TorrentTrackers

variable {s s' : TorrentTrackers} {sockets : List ℕ} {env : AnnounceEnv}

theorem EventInv.announceWithTracker (h : EventInv s) (hsockets : sockets.Nodup) {e : AnnounceEvent}
    (hfits : s.AnnounceFits sockets env e) : EventInv (s.announceWithTracker sockets env e) := by
  refine ⟨fun id socket hs => ?_, fun r hr more => ?_⟩
  · have hold := h.started id socket (hasStarted_announceWithTracker hs)
    rw [TorrentTrackers.announceWithTracker]
    split <;> exact hold
  · rw [TorrentTrackers.announceWithTracker] at hr ⊢
    split at hr
    · exact h.sent r hr more
    · rename_i e' he'
      rcases List.mem_append.mp hr with hr | hr
      · exact h.sent r hr more
      rcases eq_or_ne e' .stopped with rfl | hne
      · have hstopped := env.announceTrackers_stopped s.completeSent s.answered.length sockets s.trackers rfl
          (fun q hq => absurd hq List.not_mem_nil) r hr
        exact SentRequest.wellFormed_of_stopped hstopped.1 hstopped.2 _
      · rw [env.announceTrackers_requests _ _ hne hsockets s.trackers hne] at hr
        obtain ⟨k, hk, p, hp, rfl⟩ := hr.resolve_left List.not_mem_nil
        obtain ⟨hmem, hendpoint⟩ := AnnounceEnv.mem_asked hp
        have hrefresh : p.2 ∈ p.1.refresh sockets := by
          rw [hendpoint]
          exact List.mem_map_of_mem hk
        refine AnnounceEnv.wellFormed_request hne (fun hs => ?_) (hfits e' he' k hk p hp) more
        exact h.started _ _ ⟨p.1, hmem, rfl, AnnounceEnv.hasStarted_of_refresh p.1 ⟨p.2, hrefresh, rfl, hs⟩⟩

/-- An announce whose event does not fit sends a request that breaks the rules. -/
theorem exists_not_fits (hsockets : sockets.Nodup) {e : AnnounceEvent} (hfits : ¬ s.AnnounceFits sockets env e) :
    ∃ r ∈ (s.announceWithTracker sockets env e).sent.drop s.sent.length, ¬ r.Fits := by
  rw [AnnounceFits] at hfits
  push Not at hfits
  obtain ⟨e', he', k, hk, p, hp, hp'⟩ := hfits
  have hne : e' ≠ .stopped := by
    rintro rfl
    exact hp' trivial
  refine ⟨env.request s.completeSent s.answered.length e' p.1 p.2, ?_, AnnounceEnv.not_fits_request hp'⟩
  rw [announceWithTracker, he']
  dsimp only
  rw [List.drop_left, env.announceTrackers_requests _ _ hne hsockets s.trackers hne]
  exact .inr ⟨k, hk, p, hp, rfl⟩

/-- A torrent that stops says nothing else. -/
theorem announceFits_stopped : s.AnnounceFits sockets env .stopped := by
  intro e' he' k _ p _
  have hstopped : e' = .stopped := by
    rw [AnnounceEnv.effectiveEvent, ite_self] at he'
    split at he'
    · cases he'
    · rw [if_neg fun h => h.1 rfl, if_neg fun h => h.1 rfl, if_neg fun h => AnnounceEvent.noConfusion h.1] at he'
      exact (Option.some.inj he').symm
  rw [hstopped]
  trivial

theorem EventInv.of_trackers (h : EventInv s) (hanswered : s'.answered = s.answered) (hsent : s'.sent = s.sent)
    (htrackers : ∀ id socket, HasStarted s'.trackers id socket → HasStarted s.trackers id socket) : EventInv s' := by
  refine ⟨fun id socket hs => ?_, fun r hr more => ?_⟩
  · rw [hanswered]
    exact h.started id socket (htrackers id socket hs)
  · rw [hanswered]
    exact h.sent r (hsent ▸ hr) more

theorem answered_requestFailed {r : AnnounceRequest} {ec : RequestError} {retryInterval : ℕ} :
    (s.requestFailed env r ec retryInterval).answered = s.answered ∧
      (s.requestFailed env r ec retryInterval).sent = s.sent := by
  rw [requestFailed]
  split
  · exact ⟨rfl, rfl⟩
  · split
    · exact ⟨rfl, rfl⟩
    · exact ⟨rfl, rfl⟩

theorem EventInv.step (h : EventInv s) (hsockets : sockets.Nodup) {e : AnnounceStep}
    (hs : s.step sockets env e = some s') (hfits : s.Fits sockets env e) : EventInv s' := by
  have hdue : ∀ {s : TorrentTrackers} skips, EventInv s → EventInv (s.makeDue env skips) := fun skips h =>
    h.of_trackers rfl rfl fun _ _ => hasStarted_makeDue
  cases e with
  | announce stopped =>
    cases hs
    exact h.announceWithTracker hsockets hfits
  | completed =>
    cases hs
    rw [completed]
    split
    · exact h
    · rename_i hannouncing
      exact (hdue _ h).announceWithTracker hsockets (hfits (not_not.mp hannouncing))
  | filesChecked =>
    rw [TorrentTrackers.step] at hs
    split_ifs at hs
    cases hs
    exact h.of_trackers rfl rfl fun _ _ => hasStarted_mapInfohashes (by exact fun _ => rfl)
  | stopAnnouncing =>
    cases hs
    rw [stopAnnouncing]
    split
    · exact h
    · have hstopped : EventInv { s with announcing := false } := ⟨h.started, h.sent⟩
      exact (hdue _ hstopped).announceWithTracker hsockets announceFits_stopped
  | trackerResponse k interval minInterval =>
    rw [TorrentTrackers.step] at hs
    split at hs
    · cases hs
    · rename_i r hk
      cases hs
      refine ⟨fun id socket hstarted => ?_, fun q hq more => ?_⟩
      · rcases hasStarted_trackerResponse (hfits r hk) hstarted with hold | ⟨hevent, hid, hsocket⟩
        · obtain ⟨q, hq, hq'⟩ := h.started id socket hold
          exact ⟨q, List.mem_append_left _ hq, hq'⟩
        · exact ⟨r, List.mem_append_right _ (List.mem_singleton_self r), hevent, hid, hsocket⟩
      · change q.WellFormed ((s.answered ++ [r]) ++ more)
        rw [List.append_assoc]
        exact h.sent q hq ([r] ++ more)
  | trackerRequestError k ec retryInterval =>
    rw [TorrentTrackers.step] at hs
    split at hs
    · cases hs
    · rename_i r hk
      cases hs
      have hfailed : EventInv ({ s with outstanding := s.outstanding.eraseIdx k }.requestFailed env r ec retryInterval) :=
        h.of_trackers answered_requestFailed.1 answered_requestFailed.2 fun _ _ => hasStarted_requestFailed
      rw [trackerRequestError]
      split
      · rename_i hagain
        exact hfailed.announceWithTracker hsockets (hfits r hk hagain)
      · exact hfailed

/-- A torrent with trackers that it has not announced to. -/
def Starts (s : TorrentTrackers) : Prop :=
  ∃ trackers : List AnnounceEntry, s = { trackers } ∧ (trackers.map AnnounceEntry.id).Nodup ∧
    ∀ ae ∈ trackers, ae.endpoints = []

/-- The states of the runs. -/
inductive Reached (sockets : List ℕ) : TorrentTrackers → Prop
  | start {s : TorrentTrackers} (h : s.Starts) : Reached sockets s
  | step {s s' : TorrentTrackers} (env : AnnounceEnv) (e : AnnounceStep) (hs : Reached sockets s)
      (h : s.step sockets env e = some s') : Reached sockets s'

/-- The states of the runs whose events fit. -/
inductive ReachedFitting (sockets : List ℕ) : TorrentTrackers → Prop
  | start {s : TorrentTrackers} (h : s.Starts) : ReachedFitting sockets s
  | step {s s' : TorrentTrackers} (env : AnnounceEnv) (e : AnnounceStep) (hs : ReachedFitting sockets s)
      (h : s.step sockets env e = some s') (hfits : s.Fits sockets env e) : ReachedFitting sockets s'

theorem ReachedFitting.eventInv (hsockets : sockets.Nodup) (h : ReachedFitting sockets s) : EventInv s := by
  induction h with
  | start h =>
    obtain ⟨trackers, rfl, -, hfresh⟩ := h
    refine ⟨fun id socket hs => ?_, fun r hr => absurd hr List.not_mem_nil⟩
    obtain ⟨ae, hae, -, aep, haep, -⟩ := hs
    rw [hfresh ae hae] at haep
    cases haep
  | step env e _ hs hfits ih => exact ih.step hsockets hs hfits

/-- In the runs whose events fit every request is well formed. An announce whose event does not fit sends a request
that is not. -/
theorem reachedFitting_wellFormed (sockets : List ℕ) (hsockets : sockets.Nodup) :
    (∀ s, ReachedFitting sockets s → ∀ r ∈ s.sent, r.WellFormed s.answered) ∧
    ∀ (s : TorrentTrackers) env e s', s.step sockets env e = some s' → ¬ s.Fits sockets env e →
      (∃ r ∈ s'.sent.drop s.sent.length, ¬ r.Fits) ∨
        ∃ k interval minInterval, e = .trackerResponse k interval minInterval := by
  refine ⟨fun s h r hr => ?_, fun s env e s' hs hfits => ?_⟩
  · have hwell := (h.eventInv hsockets).sent r hr []
    rwa [List.append_nil] at hwell
  · cases e with
    | announce stopped =>
      cases hs
      exact .inl (exists_not_fits hsockets hfits)
    | completed =>
      cases hs
      rw [Fits, Classical.not_imp] at hfits
      rw [completed, if_neg (not_not.mpr hfits.1)]
      exact .inl (exists_not_fits hsockets hfits.2)
    | filesChecked => exact absurd trivial hfits
    | stopAnnouncing => exact absurd trivial hfits
    | trackerResponse k interval minInterval => exact .inr ⟨k, interval, minInterval, rfl⟩
    | trackerRequestError k ec retryInterval =>
      rw [Fits] at hfits
      push Not at hfits
      obtain ⟨r, hk, hagain, hfits⟩ := hfits
      rw [TorrentTrackers.step, hk] at hs
      cases hs
      rw [trackerRequestError, if_pos hagain]
      have hsent := exists_not_fits hsockets hfits
      rw [answered_requestFailed.2] at hsent
      exact .inl hsent

/-- Two trackers of one tier. -/
def twoTrackers : TorrentTrackers where
  trackers := [{ id := 0, url := ['a'], tier := 0 }, { id := 1, url := ['b'], tier := 0 }]

theorem starts_twoTrackers : twoTrackers.Starts := by
  refine ⟨_, rfl, by decide, fun ae hae => ?_⟩
  rcases List.mem_cons.mp hae with rfl | hae
  · rfl
  · rw [List.mem_singleton.mp hae]

/-- The torrent as it downloads, and when it is finished without being a seed. All trackers are told. -/
def downloading (now : ℕ) : AnnounceEnv where
  now := now
  isSeed := false
  isFinished := false
  announceToAllTrackers := true
  announceToAllTiers := true

def partialSeed : AnnounceEnv where
  now := 0
  isSeed := false
  isFinished := true

/-- The first announce says that the torrent has started. A partial seed says that it is paused. -/
theorem reachedFitting_wellFormed_start :
    (∃ s, ReachedFitting [0] s ∧ s.sent.map (·.event) = [.started, .started] ∧ ∀ r ∈ s.sent, r.WellFormed s.answered) ∧
    ∃ s', twoTrackers.step [0] partialSeed (.announce false) = some s' ∧
      ((∃ r ∈ s'.sent.drop 0, ¬ r.Fits) ∨
        ∃ k interval minInterval, AnnounceStep.announce false = .trackerResponse k interval minInterval) := by
  obtain ⟨hwell, hbreaks⟩ := reachedFitting_wellFormed [0] (List.nodup_singleton 0)
  constructor
  · have hstart : ReachedFitting [0] _ := .start starts_twoTrackers
    have hannounce := hstart.step (downloading 0) (.announce false) rfl fun e' he' _ _ _ _ => by
      cases he'
      trivial
    exact ⟨_, hannounce, by decide, hwell _ hannounce⟩
  · refine ⟨_, rfl, hbreaks twoTrackers partialSeed (.announce false) _ rfl fun hfits => ?_⟩
    have hpaused := hfits .paused rfl 0 (List.mem_singleton_self 0) ({ id := 0, url := ['a'], tier := 0 }, { socket := 0 })
      (by decide)
    cases hpaused

/-- A partial seed tells its trackers that it is paused before it tells them that it has started. A tracker that was
told of the start is told again when the request to another one fails. -/
theorem not_reached_wellFormed :
    (∃ s, Reached [0] s ∧ ∃ r ∈ s.sent, ¬ r.WellFormed s.answered) ∧
    ∃ s, Reached [0] s ∧ ∃ r ∈ s.sent, r.event = .started ∧ r.startSent = true ∧ ¬ r.WellFormed s.answered := by
  have hstart : Reached [0] _ := .start starts_twoTrackers
  constructor
  · have hannounce := hstart.step partialSeed (.announce false) rfl
    refine ⟨_, hannounce, _, List.mem_cons_self, fun hwell => ?_⟩
    rcases hwell.first (by rintro ⟨q, hq, -⟩; cases hq) with hevent | hevent
    · cases hevent
    · cases hevent
  · have hannounce := hstart.step (downloading 0) (.announce false) rfl
    have hresponse := hannounce.step (downloading 1) (.trackerResponse 0 60 0) rfl
    have herror := hresponse.step (downloading 1000) (.trackerRequestError 0 .other 0) rfl
    refine ⟨_, herror, ⟨⟨0, ['a'], 0, .started⟩, true, false, false, 1⟩, by decide, rfl, rfl, fun hwell => ?_⟩
    exact Bool.noConfusion (hwell.started rfl)

end TorrentTrackers

end Tracker

end LibtorrentSN
