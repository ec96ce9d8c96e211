import LibtorrentSN.Tracker.ConnectionIds

/-!
# Answers

A request is to be answered once. A failure is posted and carried out later, and nothing keeps a request whose
failure has been posted, or which has been answered, from failing or being answered again: it ends once for each
event that ends it.
-/

namespace LibtorrentSN

namespace Tracker

/-- The handler tells the requester of a failure. -/
def Handler.isFailure : Handler → Bool
  | .failImpl _ _ _ => true
  | _ => false

theorem Action.eq_two_of_ofNat? : ∀ {n : ℕ}, Action.ofNat? n = some .scrape → n = 2
  | 0, h | 1, h | 3, h => by cases h
  | 2, _ => rfl
  | _ + 4, h => by cases h

/-- A failure of the target leaves no endpoint to try, or no socket to try it with. -/
def UdpConnection.LastEndpoint (c : UdpConnection) : Prop :=
  c.endpoints.erase c.target = [] ∨ c.outgoingSocket = false

/-- The next packet ends the request: it cannot be sent, and there is no other endpoint. -/
def UdpConnection.SendEnds (c : UdpConnection) (o : Oracle) : Prop := o.sendError.isSome = true ∧ c.LastEndpoint

/-- The outcome of the name lookup ends the request. -/
def UdpConnection.LookupEnds (c : UdpConnection) (error : Option ErrorCode) (addresses : List Address) (port : ℕ)
    (o : Oracle) : Prop :=
  error ≠ some .operationAborted ∧
    if error.isSome ∨ addresses = [] ∨ c.cancelled then c.LastEndpoint
    else c.outgoingSocket = false ∨
      match (c.endpoints ++ (addresses.filter c.req.canRoute).map (Endpoint.mk · port)).filter
        fun ep => ¬ c.req.blocked ep.address with
      | [] => True
      | target :: endpoints => { c with endpoints := target :: endpoints, target }.SendEnds o

/-- The packet is taken for a response to the request. -/
def UdpConnection.Takes (c : UdpConnection) (ep : Endpoint) (buf : List UInt8) : Prop :=
  c.state ≠ .error ∧ (c.target.address.isUnspecified ∨ c.target = ep) ∧ 8 ≤ buf.length ∧
    c.transactionId = Peer.bigEndian ((buf.drop 4).take 4)

/-- A response of the kind that is waited for ends the request: a connect response after which nothing can be sent,
or the answer. A malformed answer ends it if there is no other endpoint. -/
def UdpConnection.ResponseEnds (c : UdpConnection) (buf : List UInt8) (o : Oracle) : Prop :=
  match c.state with
  | .connect => 16 ≤ buf.length ∧ c.SendEnds o
  | .announce => 20 ≤ buf.length ∧
    ((buf.length - 20) % (if c.target.address.v6 then 18 else 6) ≠ 0 → c.LastEndpoint)
  | .scrape => buf.length < 20 → c.LastEndpoint
  | .error => False

/-- The packet ends the request: an error where there is no other endpoint, or a response. -/
def UdpConnection.PacketEnds (c : UdpConnection) (ep : Endpoint) (buf : List UInt8) (o : Oracle) : Prop :=
  c.Takes ep buf ∧
    (Action.ofNat? (Peer.bigEndian (buf.take 4)) = some .error ∧ c.LastEndpoint ∨
      Action.ofNat? (Peer.bigEndian (buf.take 4)) = some c.state ∧ c.ResponseEnds buf o)

namespace TrackerManager

/-- The event ends the request. -/
def Ends (s : TrackerManager) (o : Oracle) (i : ℕ) : TrackerEvent → Prop
  | .queueRequest _ parseError => i = s.queued ∧ parseError.isSome = true
  | .nameLookup j error addresses port => i = j ∧ (s.conns i).LookupEnds error addresses port o
  | .run k =>
    match s.posted[k]? with
    | some (j, .startAnnounce) => i = j ∧ (s.conns i).SendEnds o
    | some (j, .timeoutCallback aborted) =>
      i = j ∧ (s.conns i).cancelled = false ∧ (aborted = true ∨ o.expired = true) ∧ (s.conns i).LastEndpoint
    | _ => False
  | .incomingPacket source buf =>
    (if source.isSome then 8 else 16) ≤ buf.length ∧ Peer.bigEndian (buf.take 4) ≤ 3 ∧
      s.udpConns (Peer.bigEndian ((buf.drop 4).take 4)) = some i ∧
      (s.conns i).PacketEnds (source.getD (s.conns i).target) buf o
  | .timerDue _ | .closeListenSocket _ | .tick _ => False

variable (s : TrackerManager) (i : ℕ)

/-- How often the requester was told. -/
def numAnswers : ℕ := s.answers.countP (·.1 = i)

/-- How often the request has ended: the answers, and the failures that were posted. -/
def outcomes : ℕ := s.numAnswers i + s.posted.countP fun p => p.1 = i ∧ p.2.isFailure

/-- The timer of the request runs, or its handler has been posted. -/
def Armed : Prop := (s.conns i).waiting = true ∨ ∃ aborted, (i, .timeoutCallback aborted) ∈ s.posted

/-- Every request is answered at most once, and exactly once when nothing more is to come for it; it is closed once
it has been answered, and until it has ended its timer runs. -/
structure AnsweredOnce : Prop where
  atMost : ∀ i, s.numAnswers i ≤ 1
  closed : ∀ i, (s.conns i).cancelled = true ↔ s.numAnswers i = 1
  running : ∀ i < s.queued, s.outcomes i = 0 → s.Armed i
  answered : ∀ i < s.queued, (s.conns i).waiting = false → (∀ p ∈ s.posted, p.1 ≠ i) → s.numAnswers i = 1

/-- Nothing is known of the request and nothing is to come for it. -/
structure Untouched : Prop where
  posted : ∀ p ∈ s.posted, p.1 ≠ i
  udpConns : ∀ tid, s.udpConns tid ≠ some i
  answers : ∀ a ∈ s.answers, a.1 ≠ i
  waiting : (s.conns i).waiting = false
  resolving : (s.conns i).resolving = false

open scoped Classical in
/-- One, if the condition holds. -/
noncomputable def once (P : Prop) : ℕ := if P then 1 else 0

theorem once_of {P : Prop} (h : P) : once P = 1 := if_pos h

theorem once_of_not {P : Prop} (h : ¬ P) : once P = 0 := if_neg h

/-- What a function that works on one request does: `n` times it ends it. -/
structure Effect (i n : ℕ) (s s' : TrackerManager) : Prop where
  queued : s'.queued = s.queued
  untouched : ∀ j, j ≠ i → s.Untouched j → s'.Untouched j
  outcomes : ∀ j, s'.outcomes j = s.outcomes j + if j = i then n else 0
  armed : ∀ j, s.Armed j → s'.Armed j
  closed : (∀ j, (s.conns j).cancelled = decide (0 < s.numAnswers j)) →
    ∀ j, (s'.conns j).cancelled = decide (0 < s'.numAnswers j)
  abort : (∀ j, (s.conns j).abort = false) → ∀ j, (s'.conns j).abort = false

namespace Effect

variable {s s' s'' : TrackerManager} {i n m : ℕ}

theorem refl (i : ℕ) (s : TrackerManager) : Effect i 0 s s :=
  ⟨rfl, fun _ _ h => h, fun j => by simp, fun _ h => h, fun h => h, fun h => h⟩

theorem trans (h : Effect i n s s') (h' : Effect i m s' s'') : Effect i (n + m) s s'' := by
  refine ⟨h'.queued.trans h.queued, fun j hj hs => h'.untouched j hj (h.untouched j hj hs), fun j => ?_,
    fun j hj => h'.armed j (h.armed j hj), fun hs => h'.closed (h.closed hs), fun hs => h'.abort (h.abort hs)⟩
  rw [h'.outcomes, h.outcomes]
  split_ifs <;> omega

theorem after (h : Effect i 0 s s') (h' : Effect i n s' s'') : Effect i n s s'' := by
  have htrans := h.trans h'
  rwa [Nat.zero_add] at htrans

/-- A function that does not touch the flags of the timer, the answers and the handlers. -/
theorem of_conns (hqueued : s'.queued = s.queued) (hposted : s'.posted = s.posted)
    (hanswers : s'.answers = s.answers)
    (hudp : ∀ j, j ≠ i → (∀ tid, s.udpConns tid ≠ some j) → ∀ tid, s'.udpConns tid ≠ some j)
    (hconns : ∀ j, (s'.conns j).waiting = (s.conns j).waiting ∧
      (s'.conns j).cancelled = (s.conns j).cancelled ∧ (s'.conns j).abort = (s.conns j).abort)
    (hresolving : ∀ j, j ≠ i → (s'.conns j).resolving = (s.conns j).resolving) :
    Effect i 0 s s' := by
  refine ⟨hqueued, fun j hj hs => ?_, fun j => ?_, fun j hj => ?_, fun hs j => ?_, fun hs j => ?_⟩
  · exact ⟨hposted ▸ hs.posted, hudp j hj hs.udpConns, hanswers ▸ hs.answers, (hconns j).1.trans hs.waiting,
      (hresolving j hj).trans hs.resolving⟩
  · rw [TrackerManager.outcomes, numAnswers, hposted, hanswers]
    simp [TrackerManager.outcomes, numAnswers]
  · rwa [Armed, (hconns j).1, hposted]
  · rw [(hconns j).2.1, numAnswers, hanswers]
    exact hs j
  · rw [(hconns j).2.2]
    exact hs j

theorem modifyConn (s : TrackerManager) (i : ℕ) {f : UdpConnection → UdpConnection}
    (hf : ∀ c, (f c).waiting = c.waiting ∧ (f c).cancelled = c.cancelled ∧ (f c).abort = c.abort) :
    Effect i 0 s (s.modifyConn i f) :=
  of_conns rfl rfl rfl (fun _ _ h => h)
    (fun j => ⟨conns_modifyConn_apply s i UdpConnection.waiting (fun c => (hf c).1) j,
      conns_modifyConn_apply s i UdpConnection.cancelled (fun c => (hf c).2.1) j,
      conns_modifyConn_apply s i UdpConnection.abort (fun c => (hf c).2.2) j⟩)
    fun j hj => by rw [conns_modifyConn_of_ne s hj]

theorem post (s : TrackerManager) (i : ℕ) (h : Handler) :
    Effect i (if h.isFailure then 1 else 0) s (s.post i h) := by
  refine ⟨rfl, fun j hj hs => ?_, fun j => ?_, fun j hj => ?_, fun hs => hs, fun hs => hs⟩
  · refine ⟨fun p hp => ?_, hs.udpConns, hs.answers, hs.waiting, hs.resolving⟩
    rcases List.mem_append.mp hp with hp | hp
    · exact hs.posted p hp
    · rw [List.mem_singleton.mp hp]
      exact hj.symm
  · rw [TrackerManager.outcomes, TrackerManager.outcomes, TrackerManager.post, List.countP_append,
      List.countP_singleton]
    rcases eq_or_ne j i with rfl | hne
    · cases h <;> simp [Handler.isFailure, numAnswers, add_assoc]
    · simp [hne, hne.symm, numAnswers]
  · exact hj.imp_right fun ⟨aborted, hmem⟩ => ⟨aborted, List.mem_append_left _ hmem⟩

/-- The wait becomes a handler. -/
theorem timerPosted (s : TrackerManager) (i : ℕ) (aborted : Bool) :
    Effect i 0 s ((s.modifyConn i ({ · with waiting := false })).post i (.timeoutCallback aborted)) := by
  have hposted := post (s.modifyConn i ({ · with waiting := false })) i (.timeoutCallback aborted)
  refine ⟨rfl, fun j hj hs => ?_, fun j => hposted.outcomes j, fun j hj => ?_, fun hs j => ?_, fun hs j => ?_⟩
  · refine hposted.untouched j hj ⟨hs.posted, hs.udpConns, hs.answers, ?_, ?_⟩
    · rw [conns_modifyConn_of_ne s hj, hs.waiting]
    · rw [conns_modifyConn_of_ne s hj, hs.resolving]
  · rcases eq_or_ne j i with rfl | hne
    · exact .inr ⟨aborted, List.mem_append_right _ (List.mem_singleton_self _)⟩
    · refine hposted.armed j (hj.imp_left fun hw => ?_)
      rwa [conns_modifyConn_of_ne s hne]
  · rw [conns_post]
    exact Eq.trans (conns_modifyConn_apply _ i UdpConnection.cancelled (by exact fun _ => rfl) j) (hs j)
  · rw [conns_post]
    exact Eq.trans (conns_modifyConn_apply _ i UdpConnection.abort (by exact fun _ => rfl) j) (hs j)

theorem cancelTimer (s : TrackerManager) (i : ℕ) : Effect i 0 s (s.cancelTimer i) := by
  rw [TrackerManager.cancelTimer]
  split
  · exact timerPosted s i true
  · exact refl i s

theorem armTimer (s : TrackerManager) (i : ℕ) : Effect i 0 s (s.armTimer i) := by
  refine (cancelTimer s i).after ?_
  rw [TrackerManager.armTimer]
  generalize s.cancelTimer i = s'
  refine ⟨rfl, fun j hj hs => ?_, fun j => ?_, fun j hj => ?_, fun hs j => ?_, fun hs j => ?_⟩
  · refine ⟨hs.posted, hs.udpConns, hs.answers, ?_, ?_⟩
    · rw [conns_modifyConn_of_ne s' hj, hs.waiting]
    · rw [conns_modifyConn_of_ne s' hj, hs.resolving]
  · rw [ite_self, add_zero]
    rfl
  · rcases eq_or_ne j i with rfl | hne
    · exact .inl (by rw [conns_modifyConn_self])
    · exact hj.imp_left fun hw => by rwa [conns_modifyConn_of_ne s' hne]
  · exact Eq.trans (conns_modifyConn_apply _ i UdpConnection.cancelled (by exact fun _ => rfl) j) (hs j)
  · exact Eq.trans (conns_modifyConn_apply _ i UdpConnection.abort (by exact fun _ => rfl) j) (hs j)

theorem setTimeout (s : TrackerManager) (i : ℕ) : Effect i 0 s (s.setTimeout i) := by
  rw [TrackerManager.setTimeout]
  split
  · exact refl i s
  · exact armTimer s i

/-- The requester is told, and the request is closed. -/
theorem answer_close (s : TrackerManager) (i : ℕ) (a : Answer) : Effect i 1 s ((s.answer i a).close i) := by
  have hanswer : Effect i 1 s ((s.answer i a).modifyConn i ({ · with cancelled := true })) := by
    refine ⟨rfl, fun j hj hs => ?_, fun j => ?_, fun j hj => ?_, fun hs j => ?_, fun hs j => ?_⟩
    · refine ⟨hs.posted, hs.udpConns, fun p hp => ?_, ?_, ?_⟩
      · rcases List.mem_append.mp hp with hp | hp
        · exact hs.answers p hp
        · rw [List.mem_singleton.mp hp]
          exact hj.symm
      · exact Eq.trans (conns_modifyConn_apply _ i UdpConnection.waiting (by exact fun _ => rfl) j) hs.waiting
      · exact Eq.trans (conns_modifyConn_apply _ i UdpConnection.resolving (by exact fun _ => rfl) j) hs.resolving
    · rw [TrackerManager.outcomes, TrackerManager.outcomes, numAnswers, numAnswers]
      change (s.answers ++ [(i, a)]).countP _ + s.posted.countP _ = _
      rw [List.countP_append, List.countP_singleton]
      rcases eq_or_ne j i with rfl | hne
      · simp [add_right_comm]
      · simp [hne, hne.symm]
    · refine hj.imp_left fun hw => ?_
      exact Eq.trans (conns_modifyConn_apply _ i UdpConnection.waiting (by exact fun _ => rfl) j) hw
    · rw [numAnswers]
      change _ = decide (0 < (s.answers ++ [(i, a)]).countP _)
      rw [List.countP_append, List.countP_singleton]
      rcases eq_or_ne j i with rfl | hne
      · rw [conns_modifyConn_self]
        simp
      · rw [conns_modifyConn_of_ne _ hne]
        refine (hs j).trans ?_
        rw [if_neg (by simpa using hne.symm)]
        rfl
    · exact Eq.trans (conns_modifyConn_apply _ i UdpConnection.abort (by exact fun _ => rfl) j) (hs j)
  refine hanswer.trans (m := 0) ?_
  exact (cancelTimer _ i).after (of_conns rfl rfl rfl
    (fun j _ hs tid => by
      change Function.update (_ : ℕ → Option ℕ) _ none tid ≠ some j
      rw [Function.update_apply]
      split_ifs
      · exact (Option.some_ne_none j).symm
      · exact hs tid)
    (fun _ => ⟨rfl, rfl, rfl⟩) fun _ _ => rfl)

/-- A failure ends the request if there is no other endpoint. -/
theorem fail (s : TrackerManager) (i : ℕ) (ec : ErrorCode) (op : Operation) (msg : List UInt8) :
    Effect i (once (s.conns i).LastEndpoint) s (s.fail i ec op msg) := by
  have herase : Effect i 0 s (s.modifyConn i ({ · with endpoints := (s.conns i).endpoints.erase (s.conns i).target })) :=
    modifyConn s i fun _ => ⟨rfl, rfl, rfl⟩
  by_cases hlast : (s.conns i).LastEndpoint
  · rw [once_of hlast, TrackerManager.fail]
    split
    · exact herase.after (post _ i (.failImpl ec op msg))
    · rename_i target rest hcons
      rcases hlast with hnil | hsocket
      · rw [hnil] at hcons
        cases hcons
      · rw [hsocket, if_neg Bool.false_ne_true]
        exact herase.after (post _ i (.failImpl ec op msg))
  · rw [once_of_not hlast, TrackerManager.fail]
    obtain ⟨hnil, hsocket⟩ := not_or.mp hlast
    split
    · rename_i hnil'
      exact absurd hnil' hnil
    · rename_i target rest hcons
      rw [if_pos (Bool.not_eq_false _ ▸ hsocket)]
      refine herase.after ((modifyConn _ i ?_).after ((post _ i .startAnnounce).after (setTimeout _ i)))
      exact fun _ => ⟨rfl, rfl, rfl⟩

theorem of_iff {P Q : Prop} (hPQ : P ↔ Q) (h : Effect i (once P) s s') : Effect i (once Q) s s' := propext hPQ ▸ h

theorem outcomes_once {P : Prop} {Q : ℕ → Prop} (h : Effect i (once P) s s') (hQ : ∀ j, Q j ↔ j = i ∧ P) (j : ℕ) :
    s'.outcomes j = s.outcomes j + once (Q j) := by
  rw [h.outcomes]
  split_ifs with hj
  · rw [propext ((hQ j).trans (and_iff_right hj))]
  · rw [once_of_not fun hq => hj ((hQ j).mp hq).1]

/-- A packet was handed to the socket, which may have failed. -/
theorem sent {o : Oracle} {conn : UdpConnection} (h : Effect i 0 s s')
    (hlast : (s'.conns i).LastEndpoint ↔ conn.LastEndpoint) (hdone : Effect i 0 s' s'') :
    Effect i (once (conn.SendEnds o)) s
      (match o.sendError with
        | some ec => s'.fail i ec .sockWrite []
        | none => s'') := by
  rcases herror : o.sendError with - | ec
  · rw [once_of_not (by simp [UdpConnection.SendEnds, herror])]
    exact h.after hdone
  · refine of_iff (P := (s'.conns i).LastEndpoint) ?_ (h.after (fail s' i ec .sockWrite []))
    rw [hlast, UdpConnection.SendEnds, herror, Option.isSome_some, eq_self_iff_true, true_and]

theorem sendUdpConnect {o : Oracle} {c : UdpConnection} (h : Effect i 0 s s') (hconn : s'.conns i = c)
    (habort : c.abort = false) : Effect i (once (c.SendEnds o)) s (s'.sendUdpConnect i o) := by
  subst hconn
  have hsend : Effect i 0 s' (s'.send i .connect 0x41727101980 false) :=
    of_conns rfl rfl rfl (fun _ _ h => h) (fun _ => ⟨rfl, rfl, rfl⟩) fun _ _ => rfl
  rw [TrackerManager.sendUdpConnect, habort, if_neg Bool.false_ne_true]
  exact (h.after hsend).sent Iff.rfl (modifyConn _ i fun _ => ⟨rfl, rfl, rfl⟩)

theorem sendUdp {o : Oracle} {c : UdpConnection} {action : Action} {cached : Bool} (h : Effect i 0 s s')
    (hconn : s'.conns i = c) (habort : c.abort = false) (hcache : s'.connectionCache c.target.address ≠ none) :
    Effect i (once (c.SendEnds o)) s (s'.sendUdp i action cached o) := by
  subst hconn
  rw [TrackerManager.sendUdp, habort, if_neg Bool.false_ne_true]
  split
  · rename_i hnone
    exact absurd hnone hcache
  · rename_i entry hentry
    have hsend : Effect i 0 s' (s'.send i action entry.connectionId cached) :=
      of_conns rfl rfl rfl (fun _ _ h => h) (fun _ => ⟨rfl, rfl, rfl⟩) fun _ _ => rfl
    have hstate := hsend.after (modifyConn _ i (f := ({ · with state := action })) fun _ => ⟨rfl, rfl, rfl⟩)
    refine (h.after hstate).sent ?_ (refl i _)
    rw [conns_modifyConn_self]
    rfl

/-- The cache and the connect responses are the only things that change. -/
theorem noted (s : TrackerManager) (i : ℕ) (connectionCache : Address → Option CacheEntry)
    (connects : List ConnectResponse) : Effect i 0 s { s with connectionCache, connects } :=
  of_conns rfl rfl rfl (fun _ _ h => h) (fun _ => ⟨rfl, rfl, rfl⟩) fun _ _ => rfl

theorem startAnnounce {o : Oracle} (habort : (s.conns i).abort = false) :
    Effect i (once ((s.conns i).SendEnds o)) s (s.startAnnounce i o) := by
  rw [TrackerManager.startAnnounce]
  split
  · rename_i entry hentry
    have hcache : s.connectionCache (s.conns i).target.address ≠ none := by
      rw [hentry]
      exact Option.some_ne_none entry
    split_ifs
    · exact sendUdp (refl i s) rfl habort hcache
    · exact sendUdp (refl i s) rfl habort hcache
    · -- the id has expired
      exact sendUdpConnect (noted s i _ s.connects) rfl habort
  · exact sendUdpConnect (refl i s) rfl habort

theorem updateTransactionId (s : TrackerManager) (i newTid : ℕ) : Effect i 0 s (s.updateTransactionId i newTid) := by
  refine of_conns rfl rfl rfl (fun j hj hs tid => ?_) (fun j => ?_) fun j hj => ?_
  · change Function.update (Function.update (_ : ℕ → Option ℕ) _ none) _ _ tid ≠ some j
    rw [Function.update_apply, Function.update_apply]
    split_ifs
    · exact fun h => hj (Option.some_injective _ h).symm
    · exact (Option.some_ne_none j).symm
    · exact hs tid
  · exact ⟨conns_modifyConn_apply _ i UdpConnection.waiting (by exact fun _ => rfl) j,
      conns_modifyConn_apply _ i UdpConnection.cancelled (by exact fun _ => rfl) j,
      conns_modifyConn_apply _ i UdpConnection.abort (by exact fun _ => rfl) j⟩
  · exact congrArg UdpConnection.resolving (conns_modifyConn_of_ne _ hj _)

theorem onConnectResponse {o : Oracle} {tokenExpiry : ℕ} {source : Endpoint} {byName : Bool} {buf : List UInt8}
    (habort : (s.conns i).abort = false) :
    Effect i (once (16 ≤ buf.length ∧ (s.conns i).SendEnds o)) s
      (s.onConnectResponse i tokenExpiry source byName buf o) := by
  rw [TrackerManager.onConnectResponse]
  split
  · rename_i hlt
    rw [once_of_not fun h => hlt.not_ge h.1]
    exact refl i s
  · rename_i hge
    have hupdate := updateTransactionId s i o.newTid
    have hconn : (s.updateTransactionId i o.newTid).conns i = { s.conns i with transactionId := o.newTid } := by
      rw [TrackerManager.updateTransactionId, conns_modifyConn_self]
    generalize s.updateTransactionId i o.newTid = s' at hupdate hconn ⊢
    refine of_iff (P := { s.conns i with transactionId := o.newTid }.SendEnds o) ?_ ?_
    · rw [and_iff_right (not_lt.mp hge)]
      rfl
    dsimp only
    split
    all_goals
      refine sendUdp (hupdate.after (noted s' i _ _)) hconn habort ?_
      rw [hconn]
      dsimp only
      rw [Function.update_self]
      exact Option.some_ne_none _

theorem onAnnounceResponse (s : TrackerManager) (i : ℕ) (buf : List UInt8) :
    Effect i (once (20 ≤ buf.length ∧ ((buf.length - 20) % (if (s.conns i).target.address.v6 then 18 else 6) ≠ 0 →
      (s.conns i).LastEndpoint))) s (s.onAnnounceResponse i buf) := by
  have hstride : (if (s.conns i).target.address.v6 then 16 else 4) + 2 =
      if (s.conns i).target.address.v6 then 18 else 6 := by split_ifs <;> rfl
  rw [TrackerManager.onAnnounceResponse]
  dsimp only
  rw [hstride, List.length_drop]
  generalize (if (s.conns i).target.address.v6 = true then 18 else 6) = ipStride
  split
  · rename_i hlt
    rw [once_of_not fun h => hlt.not_ge h.1]
    exact refl i s
  rename_i hge
  split
  · rename_i hmod
    refine of_iff ?_ (fail s i _ _ _)
    rw [and_iff_right (not_lt.mp hge)]
    exact ⟨fun h _ => h, fun h => h hmod⟩
  · rename_i hmod
    rw [once_of ⟨not_lt.mp hge, fun h => absurd h hmod⟩]
    exact answer_close s i _

theorem onScrapeResponse (s : TrackerManager) (i : ℕ) {buf : List UInt8} (hlen : 8 ≤ buf.length)
    (htid : (s.conns i).transactionId = Peer.bigEndian ((buf.drop 4).take 4))
    (haction : Peer.bigEndian (buf.take 4) = 2) :
    Effect i (once (buf.length < 20 → (s.conns i).LastEndpoint)) s (s.onScrapeResponse i buf) := by
  have hint : Peer.readInt32 buf = 2 := by
    rw [Peer.readInt32, haction]
    rfl
  rw [TrackerManager.onScrapeResponse, hint, ← htid, if_neg (not_not.mpr rfl), if_neg (by decide),
    if_neg (not_not.mpr rfl), List.length_drop]
  split
  · rename_i hlt
    refine of_iff ?_ (fail s i _ _ _)
    exact ⟨fun h _ => h, fun h => h (by omega)⟩
  · rename_i hge
    rw [once_of fun h => absurd h (by omega)]
    exact answer_close s i _

theorem onReceive {o : Oracle} {tokenExpiry : ℕ} {ep : Endpoint} {byName : Bool} {buf : List UInt8}
    (habort : (s.conns i).abort = false) :
    Effect i (once ((s.conns i).PacketEnds ep buf o)) s (s.onReceive i tokenExpiry ep byName buf o) := by
  by_cases htakes : (s.conns i).Takes ep buf
  · obtain ⟨hstate, hsource, hlen, htid⟩ := id htakes
    have htarget : ¬ (¬ (s.conns i).target.address.isUnspecified ∧ (s.conns i).target ≠ ep) := by
      rw [not_and_or, not_not, not_not]
      exact hsource
    rw [TrackerManager.onReceive]
    dsimp only
    rw [if_neg hstate, habort, if_neg Bool.false_ne_true, if_neg htarget, if_neg hlen.not_gt,
      if_neg (not_not.mpr htid), UdpConnection.PacketEnds, and_iff_right htakes]
    rcases eq_or_ne (Action.ofNat? (Peer.bigEndian (buf.take 4))) (some .error) with herror | herror
    · have hother : ¬ some Action.error = some (s.conns i).state := fun h => hstate (Option.some_injective _ h).symm
      rw [if_pos herror]
      refine of_iff ?_ (fail s i _ _ _)
      rw [herror, and_iff_right rfl]
      exact ⟨.inl, fun h => h.resolve_right fun hr => hother hr.1⟩
    rw [if_neg herror]
    have hends : (Action.ofNat? (Peer.bigEndian (buf.take 4)) = some (s.conns i).state ∧
        (s.conns i).ResponseEnds buf o) ↔
        (Action.ofNat? (Peer.bigEndian (buf.take 4)) = some .error ∧ (s.conns i).LastEndpoint ∨
          Action.ofNat? (Peer.bigEndian (buf.take 4)) = some (s.conns i).state ∧ (s.conns i).ResponseEnds buf o) :=
      ⟨.inr, fun h => h.resolve_left fun hl => herror hl.1⟩
    refine of_iff hends ?_
    split
    · rename_i hother
      rw [once_of_not fun h => hother h.1]
      exact refl i s
    rename_i hsame
    refine of_iff (and_iff_right (not_not.mp hsame)).symm ?_
    rw [UdpConnection.ResponseEnds]
    rcases haction : (s.conns i).state
    · exact onConnectResponse habort
    · exact onAnnounceResponse s i buf
    · refine onScrapeResponse s i hlen htid ?_
      rw [haction] at hsame
      exact Action.eq_two_of_ofNat? (not_not.mp hsame)
    · exact absurd haction hstate
  · rw [once_of_not fun h => htakes h.1, TrackerManager.onReceive]
    dsimp only
    split
    · exact refl i s
    split
    · exact refl i s
    split
    · exact refl i s
    split
    · exact refl i s
    split
    · exact refl i s
    rename_i hstate _ hsource hlen htid
    rw [not_and_or, not_not, not_not] at hsource
    exact absurd ⟨hstate, hsource, not_lt.mp hlen, not_not.mp htid⟩ htakes

theorem nameLookup {o : Oracle} {error : Option ErrorCode} {addresses : List Address} {port : ℕ}
    (habort : (s.conns i).abort = false) :
    Effect i (once ((s.conns i).LookupEnds error addresses port o)) s (s.nameLookup i error addresses port o) := by
  have hresolved : Effect i 0 s (s.modifyConn i ({ · with resolving := false })) :=
    modifyConn s i fun _ => ⟨rfl, rfl, rfl⟩
  have hconn : (s.modifyConn i ({ · with resolving := false })).conns i = { s.conns i with resolving := false } :=
    conns_modifyConn_self s i _
  rw [TrackerManager.nameLookup]
  dsimp only
  rw [habort, if_neg Bool.false_ne_true, UdpConnection.LookupEnds]
  generalize s.modifyConn i ({ · with resolving := false }) = s' at hresolved hconn ⊢
  by_cases haborted : error = some .operationAborted
  · rw [if_pos haborted, once_of_not fun h => h.1 haborted]
    exact hresolved
  rw [if_neg haborted]
  refine of_iff (and_iff_right haborted).symm ?_
  have hfail : ∀ ec op, Effect i (once (s.conns i).LastEndpoint) s (s'.fail i ec op []) := by
    intro ec op
    refine of_iff ?_ (hresolved.after (fail s' i ec op []))
    rw [hconn]
    rfl
  by_cases herror : error.isSome ∨ addresses = []
  · rw [if_pos herror, if_pos (by tauto)]
    exact hfail _ _
  rw [if_neg herror]
  by_cases hcancelled : (s.conns i).cancelled
  · rw [if_pos hcancelled, if_pos (by tauto)]
    exact hfail _ _
  rw [if_neg hcancelled, if_neg (by tauto)]
  by_cases hsocket : (s.conns i).outgoingSocket = false
  · rw [hsocket, if_pos Bool.false_ne_true]
    refine of_iff ?_ (hfail _ _)
    exact ⟨fun _ => .inl rfl, fun _ => .inr hsocket⟩
  rw [if_neg (by simpa using hsocket)]
  refine of_iff (or_iff_right hsocket).symm ?_
  have hset : ∀ f : UdpConnection → UdpConnection, (∀ c, (f c).waiting = c.waiting ∧ (f c).cancelled = c.cancelled ∧
      (f c).abort = c.abort) → Effect i 0 s (s'.modifyConn i f) := fun f hf => hresolved.after (modifyConn s' i hf)
  generalize (s.conns i).endpoints ++ (addresses.filter (s.conns i).req.canRoute).map (Endpoint.mk · port) = reachable
  by_cases hnil : reachable = []
  · subst hnil
    rw [if_pos rfl, List.filter_nil]
    refine of_iff ?_ ((hset _ ?_).after (fail _ i _ _ _))
    · rw [conns_modifyConn_self]
      exact iff_of_true (.inl rfl) trivial
    · exact fun _ => ⟨rfl, rfl, rfl⟩
  rw [if_neg hnil]
  generalize reachable.filter (fun ep => decide ¬(s.conns i).req.blocked ep.address = true) = endpoints
  rcases endpoints with - | ⟨target, endpoints⟩
  · refine of_iff ?_ (((hset _ ?_).after (modifyConn _ i ?_)).after (fail _ i _ _ _))
    · rw [conns_modifyConn_self]
      exact iff_of_true (.inl rfl) trivial
    · exact fun _ => ⟨rfl, rfl, rfl⟩
    · exact fun _ => ⟨rfl, rfl, rfl⟩
  · refine of_iff ?_ (((hset _ ?_).after ((modifyConn _ i ?_).after (modifyConn _ i ?_))).after (startAnnounce ?_))
    · rw [conns_modifyConn_self, conns_modifyConn_self, conns_modifyConn_self, hconn]
      rfl
    · exact fun _ => ⟨rfl, rfl, rfl⟩
    · exact fun _ => ⟨rfl, rfl, rfl⟩
    · exact fun _ => ⟨rfl, rfl, rfl⟩
    · rw [conns_modifyConn_self, conns_modifyConn_self, conns_modifyConn_self, hconn]
      exact habort

end Effect

variable {s s' : TrackerManager} {i n : ℕ} {o : Oracle}

theorem armed_armTimer : (s.armTimer i).Armed i := .inl (by rw [TrackerManager.armTimer, conns_modifyConn_self])

theorem armed_setTimeout (hcancelled : (s.conns i).cancelled = false) : (s.setTimeout i).Armed i := by
  rw [TrackerManager.setTimeout, hcancelled, if_neg Bool.false_ne_true]
  exact armed_armTimer

/-- A request that has not ended is tried again later. -/
theorem armed_fail {ec : ErrorCode} {op : Operation} {msg : List UInt8} (hcancelled : (s.conns i).cancelled = false)
    (hlast : ¬ (s.conns i).LastEndpoint) : (s.fail i ec op msg).Armed i := by
  rw [TrackerManager.fail]
  obtain ⟨hnil, hsocket⟩ := not_or.mp hlast
  split
  · rename_i hnil'
    exact absurd hnil' hnil
  · rename_i target rest hcons
    rw [if_pos (Bool.not_eq_false _ ▸ hsocket)]
    refine armed_setTimeout ?_
    rw [conns_post, conns_modifyConn_self, conns_modifyConn_self]
    exact hcancelled

/-- The invariant of every run, but for the timer of one request. -/
structure InvBut (i : ℕ) (s : TrackerManager) : Prop where
  closed : ∀ j, (s.conns j).cancelled = decide (0 < s.numAnswers j)
  abort : ∀ j, (s.conns j).abort = false
  untouched : ∀ j, s.queued ≤ j → s.Untouched j
  armed : ∀ j < s.queued, j ≠ i → s.outcomes j = 0 → s.Armed j
  lt : i < s.queued

/-- The invariant of every run. -/
structure AnswerInv (s : TrackerManager) : Prop where
  closed : ∀ i, (s.conns i).cancelled = decide (0 < s.numAnswers i)
  abort : ∀ i, (s.conns i).abort = false
  untouched : ∀ i, s.queued ≤ i → s.Untouched i
  armed : ∀ i < s.queued, s.outcomes i = 0 → s.Armed i

theorem InvBut.of_effect (h : InvBut i s) (he : Effect i n s s') (hi : n = 0 → s.outcomes i = 0 → s'.Armed i) :
    AnswerInv s' := by
  refine ⟨he.closed h.closed, he.abort h.abort, fun j hj => ?_, fun j hj hzero => ?_⟩
  · rw [he.queued] at hj
    exact he.untouched j (h.lt.trans_le hj).ne' (h.untouched j hj)
  · have houtcomes := he.outcomes j
    rcases eq_or_ne j i with rfl | hne
    · rw [if_pos rfl] at houtcomes
      exact hi (by omega) (by omega)
    · rw [he.queued] at hj
      exact he.armed j (h.armed j hj hne (by omega))

namespace AnswerInv

theorem but (h : AnswerInv s) (hi : i < s.queued) : InvBut i s :=
  ⟨h.closed, h.abort, h.untouched, fun j hj _ => h.armed j hj, hi⟩

theorem of_effect (h : AnswerInv s) (hi : i < s.queued) (he : Effect i n s s') : AnswerInv s' :=
  (h.but hi).of_effect he fun _ hzero => he.armed i (h.armed i hi hzero)

/-- A request that something is to come for has been queued. -/
theorem lt_of_not_untouched (h : AnswerInv s) (hi : ¬ s.Untouched i) : i < s.queued :=
  not_le.mp fun hle => hi (h.untouched i hle)

/-- A connection is made for a request. -/
theorem butQueued (h : AnswerInv s) (req : TrackerRequest) (newTid : ℕ) : InvBut s.queued { s with
    queued := s.queued + 1
    conns := Function.update s.conns s.queued { req, transactionId := newTid }
    udpConns := Function.update s.udpConns newTid (some s.queued) } := by
  have hnone : s.numAnswers s.queued = 0 :=
    List.countP_eq_zero.mpr fun a ha => by simpa using (h.untouched s.queued le_rfl).answers a ha
  refine ⟨fun j => ?_, fun j => ?_, fun j hj => ?_, fun j hj hne hzero => ?_, Nat.lt_succ_self _⟩
  · change (Function.update s.conns s.queued _ j).cancelled = decide (0 < s.numAnswers j)
    rcases eq_or_ne j s.queued with rfl | hne
    · rw [Function.update_self, hnone]
      rfl
    · rw [Function.update_of_ne hne, h.closed]
  · change (Function.update s.conns s.queued _ j).abort = false
    rcases eq_or_ne j s.queued with rfl | hne
    · rw [Function.update_self]
    · rw [Function.update_of_ne hne, h.abort]
  · have hne : j ≠ s.queued := (Nat.lt_of_succ_le hj).ne'
    have hold := h.untouched j (Nat.le_of_succ_le hj)
    refine ⟨hold.posted, fun tid => ?_, hold.answers, ?_, ?_⟩
    · change Function.update s.udpConns newTid _ tid ≠ some j
      rw [Function.update_apply]
      split_ifs
      · exact fun heq => hne (Option.some_injective _ heq).symm
      · exact hold.udpConns tid
    · change (Function.update s.conns s.queued _ j).waiting = false
      rw [Function.update_of_ne hne, hold.waiting]
    · change (Function.update s.conns s.queued _ j).resolving = false
      rw [Function.update_of_ne hne, hold.resolving]
  · refine (h.armed j (lt_of_le_of_ne (Nat.lt_succ_iff.mp hj) hne) hzero).imp_left fun hw => ?_
    change (Function.update s.conns s.queued _ j).waiting = true
    rwa [Function.update_of_ne hne]

theorem queueRequest (h : AnswerInv s) {req : TrackerRequest} {parseError : Option ErrorCode} :
    AnswerInv (s.queueRequest req parseError o) ∧ ∀ i, (s.queueRequest req parseError o).outcomes i =
      s.outcomes i + once (i = s.queued ∧ parseError.isSome = true) := by
  have hbut := h.butQueued req o.newTid
  rcases parseError with - | ec
  · have hstart : Effect s.queued 0 _ (s.queueRequest req none o) :=
      (Effect.modifyConn _ s.queued (f := ({ · with resolving := true })) fun _ => ⟨rfl, rfl, rfl⟩).after
        (Effect.setTimeout _ s.queued)
    refine ⟨hbut.of_effect hstart fun _ _ => armed_setTimeout ?_, fun i => ?_⟩
    · rw [conns_modifyConn_self]
      change (Function.update s.conns s.queued _ s.queued).cancelled = false
      rw [Function.update_self]
    · rw [once_of_not fun h => Bool.false_ne_true h.2]
      exact (hstart.outcomes i).trans (by rw [ite_self]; rfl)
  · have hpost : Effect s.queued 1 _ (s.queueRequest req (some ec) o) := Effect.post _ s.queued (.failImpl ec .parseAddress [])
    refine ⟨hbut.of_effect hpost ?_, fun i => (hpost.outcomes i).trans ?_⟩
    · exact fun hone => absurd hone Nat.one_ne_zero
    rcases eq_or_ne i s.queued with rfl | hne
    · rw [once_of ⟨rfl, rfl⟩, if_pos rfl]
      rfl
    · rw [once_of_not fun h => hne h.1, if_neg hne]
      rfl

/-- A handler is taken to run. -/
theorem taken (h : AnswerInv s) {k j : ℕ} {handler : Handler} (hk : s.posted[k]? = some (j, handler)) :
    InvBut j { s with posted := s.posted.eraseIdx k } ∧
      (∀ i, s.outcomes i = { s with posted := s.posted.eraseIdx k }.outcomes i +
        once (i = j ∧ handler.isFailure = true)) ∧
      ∀ i, (i = j → ∀ aborted, handler ≠ .timeoutCallback aborted) → s.Armed i →
        { s with posted := s.posted.eraseIdx k }.Armed i := by
  obtain ⟨hlt, hget⟩ := List.getElem?_eq_some_iff.mp hk
  have hperm : ((j, handler) :: s.posted.eraseIdx k).Perm s.posted := hget ▸ List.getElem_cons_eraseIdx_perm hlt
  have hj : j < s.queued := h.lt_of_not_untouched fun hun => hun.posted _ (List.mem_of_getElem? hk) rfl
  have houtcomes : ∀ i, s.outcomes i = { s with posted := s.posted.eraseIdx k }.outcomes i +
      once (i = j ∧ handler.isFailure = true) := by
    intro i
    rw [outcomes, outcomes, ← hperm.countP_eq, List.countP_cons, ← add_assoc]
    congr 1
    rcases eq_or_ne i j with rfl | hne
    · cases handler <;> simp [once, Handler.isFailure]
    · simp [once, hne, hne.symm]
  have harmed : ∀ i, (i = j → ∀ aborted, handler ≠ .timeoutCallback aborted) → s.Armed i →
      { s with posted := s.posted.eraseIdx k }.Armed i := by
    intro i hi harmed
    refine harmed.imp_right fun ⟨aborted, hmem⟩ => ⟨aborted, ?_⟩
    rcases List.mem_cons.mp (hperm.mem_iff.mpr hmem) with heq | hmem
    · cases heq
      exact absurd rfl (hi rfl aborted)
    · exact hmem
  refine ⟨⟨h.closed, h.abort, fun i hi => ?_, fun i hi hne hzero => ?_, hj⟩, houtcomes, harmed⟩
  · have hold := h.untouched i hi
    exact ⟨fun p hp => hold.posted p (List.mem_of_mem_eraseIdx hp), hold.udpConns, hold.answers, hold.waiting,
      hold.resolving⟩
  · refine harmed i (fun heq => absurd heq hne) (h.armed i hi ?_)
    rw [houtcomes, hzero, once_of_not fun hc => hne hc.1]

/-- A posted handler runs. -/
theorem runHandler (h : AnswerInv s) {k j : ℕ} {handler : Handler} (hk : s.posted[k]? = some (j, handler))
    {s₀ : TrackerManager} (hs₀ : { s with posted := s.posted.eraseIdx k } = s₀) :
    AnswerInv (s₀.runHandler j o handler) ∧
      ∀ i, (s₀.runHandler j o handler).outcomes i = s.outcomes i + once (s.Ends o i (.run k)) := by
  obtain ⟨hbut, houtcomes, harmed⟩ := h.taken hk
  have hconns : s₀.conns = s.conns := hs₀ ▸ rfl
  have hj : j < s.queued := hbut.lt
  rw [hs₀] at hbut houtcomes harmed
  have habort := hbut.abort j
  cases handler with
  | startAnnounce =>
    have hsame : ∀ i, s.outcomes i = s₀.outcomes i := fun i => (houtcomes i).trans (by
      rw [once_of_not fun hc => Bool.false_ne_true hc.2, add_zero])
    have he : Effect j _ s₀ (s₀.runHandler j o .startAnnounce) := Effect.startAnnounce habort
    refine ⟨hbut.of_effect he fun _ hzero => he.armed j ?_, fun i => ?_⟩
    · exact harmed j (fun _ _ hc => Handler.noConfusion hc) (h.armed j hj ((hsame j).trans hzero))
    · rw [hsame]
      refine he.outcomes_once (Q := fun i => s.Ends o i (.run k)) (fun i => ?_) i
      rw [Ends, hk, hconns, and_congr_right_iff]
      rintro rfl
      rfl
  | failImpl ec op msg =>
    have he : Effect j 1 s₀ (s₀.runHandler j o (.failImpl ec op msg)) := Effect.answer_close s₀ j (.error ec op msg)
    have hends : ∀ i, ¬ s.Ends o i (.run k) := fun i => by
      rw [Ends, hk]
      exact id
    refine ⟨hbut.of_effect he fun hone => absurd hone Nat.one_ne_zero, fun i => ?_⟩
    rw [he.outcomes, houtcomes, once_of_not (hends i), add_zero, once, Handler.isFailure, eq_self_iff_true, and_true]
    congr
  | timeoutCallback aborted =>
    have hsame : ∀ i, s.outcomes i = s₀.outcomes i := fun i => (houtcomes i).trans (by
      rw [once_of_not fun hc => Bool.false_ne_true hc.2, add_zero])
    have hends : ∀ i, s.Ends o i (.run k) ↔ i = j ∧ (s₀.conns j).cancelled = false ∧
        (aborted = true ∨ o.expired = true) ∧ (s₀.conns j).LastEndpoint := by
      intro i
      rw [Ends, hk, hconns, and_congr_right_iff]
      rintro rfl
      rfl
    rw [TrackerManager.runHandler, timeoutCallback]
    split
    · -- the request has been answered
      rename_i hcancelled
      have hanswered : 0 < s₀.numAnswers j := of_decide_eq_true ((hbut.closed j).symm.trans hcancelled)
      refine ⟨hbut.of_effect (Effect.refl j s₀) fun _ hzero => ?_, fun i => ?_⟩
      · rw [outcomes] at hzero
        omega
      · rw [hsame, once_of_not fun hc => ?_, add_zero]
        exact Bool.false_ne_true (((hends i).mp hc).2.1.symm.trans hcancelled)
    rename_i hcancelled
    split
    · rename_i hdue
      have he : Effect j (once (s₀.conns j).LastEndpoint) s₀ (s₀.onTimeout j aborted) := by
        rw [onTimeout]
        split <;> exact Effect.fail s₀ j _ _ _
      refine ⟨hbut.of_effect he fun hnot _ => ?_, fun i => ?_⟩
      · have hlast : ¬ (s₀.conns j).LastEndpoint := fun hl => by
          rw [once_of hl] at hnot
          cases hnot
        rw [onTimeout]
        split <;> exact armed_fail (Bool.eq_false_iff.mpr hcancelled) hlast
      · rw [hsame]
        refine he.outcomes_once (Q := fun i => s.Ends o i (.run k)) (fun i => ?_) i
        rw [hends, and_iff_right (Bool.eq_false_iff.mpr hcancelled), and_iff_right hdue]
    · rename_i hdue
      have he := Effect.armTimer s₀ j
      refine ⟨hbut.of_effect he fun _ _ => armed_armTimer, fun i => ?_⟩
      rw [he.outcomes, ite_self, hsame, once_of_not fun hc => hdue ((hends i).mp hc).2.2.1]

theorem step (h : AnswerInv s) {tokenExpiry : ℕ} {e : TrackerEvent} (hs : s.step tokenExpiry o e = some s') :
    AnswerInv s' ∧ ∀ i, s'.outcomes i = s.outcomes i + once (s.Ends o i e) := by
  have hnone : ∀ {P : ℕ → Prop}, (∀ i, ¬ P i) → ∀ i, s.outcomes i = s.outcomes i + once (P i) :=
    fun hP i => (add_zero (s.outcomes i)).symm.trans (by rw [once_of_not (hP i)])
  cases e with
  | queueRequest req parseError =>
    cases hs
    exact h.queueRequest
  | nameLookup j error addresses port =>
    rw [TrackerManager.step] at hs
    split_ifs at hs with hresolving
    cases hs
    have hj : j < s.queued := h.lt_of_not_untouched fun hun => by simp [hun.resolving] at hresolving
    have he := @Effect.nameLookup s j o error addresses port (h.abort j)
    refine ⟨h.of_effect hj he, he.outcomes_once fun i => ?_⟩
    rw [Ends, and_congr_right_iff]
    rintro rfl
    rfl
  | timerDue j =>
    rw [TrackerManager.step] at hs
    split_ifs at hs with hwaiting
    cases hs
    have hj : j < s.queued := h.lt_of_not_untouched fun hun => by simp [hun.waiting] at hwaiting
    have he := Effect.timerPosted s j false
    refine ⟨h.of_effect hj he, fun i => ?_⟩
    rw [he.outcomes, ite_self]
    exact hnone (P := fun _ => False) (fun _ => id) i
  | run k =>
    rw [TrackerManager.step] at hs
    split at hs
    · cases hs
    · rename_i j handler hk
      cases hs
      exact h.runHandler hk rfl
  | incomingPacket source buf =>
    cases hs
    rw [incomingPacket]
    generalize hsize : (if source.isSome then 8 else 16) = size
    split
    · rename_i hlt
      exact ⟨h, hnone fun i hi => hlt.not_ge (hsize ▸ hi.1)⟩
    rename_i hge
    split
    · rename_i hlt
      exact ⟨h, hnone fun i hi => hlt.not_ge hi.2.1⟩
    rename_i hle
    split
    · rename_i hunknown
      refine ⟨h, hnone fun i hi => ?_⟩
      have hfound := hi.2.2.1
      rw [hunknown] at hfound
      cases hfound
    · rename_i j hj
      have he := @Effect.onReceive s j o tokenExpiry (source.getD (s.conns j).target) source.isNone buf (h.abort j)
      have hlt : j < s.queued := h.lt_of_not_untouched fun hun => hun.udpConns _ hj
      refine ⟨h.of_effect hlt he, he.outcomes_once fun i => ?_⟩
      rw [Ends, hsize, and_iff_right (not_lt.mp hge), and_iff_right (not_lt.mp hle), hj]
      constructor
      · rintro ⟨heq, hends⟩
        cases heq
        exact ⟨rfl, hends⟩
      · rintro ⟨rfl, hends⟩
        exact ⟨rfl, hends⟩
  | closeListenSocket j =>
    cases hs
    have he : Effect j 0 s (s.modifyConn j ({ · with outgoingSocket := false })) :=
      Effect.modifyConn s j fun _ => ⟨rfl, rfl, rfl⟩
    refine ⟨⟨he.closed h.closed, he.abort h.abort, fun i hi => ?_, fun i hi hzero => he.armed i (h.armed i hi hzero)⟩,
      hnone fun _ => id⟩
    have hold := h.untouched i hi
    refine ⟨hold.posted, hold.udpConns, hold.answers, ?_, ?_⟩
    · exact Eq.trans (conns_modifyConn_apply s j UdpConnection.waiting (by exact fun _ => rfl) i) hold.waiting
    · exact Eq.trans (conns_modifyConn_apply s j UdpConnection.resolving (by exact fun _ => rfl) i) hold.resolving
  | tick d =>
    cases hs
    refine ⟨⟨h.closed, h.abort, fun i hi => ?_, h.armed⟩, hnone fun _ => id⟩
    have hold := h.untouched i hi
    exact ⟨hold.posted, hold.udpConns, hold.answers, hold.waiting, hold.resolving⟩

end AnswerInv

theorem Reached.answerInv {tokenExpiry : ℕ} (h : Reached tokenExpiry s) : AnswerInv s := by
  induction h with
  | start =>
    refine ⟨fun _ => rfl, fun _ => rfl, fun _ _ => ⟨?_, ?_, ?_, rfl, rfl⟩, fun i hi => absurd hi (Nat.not_lt_zero i)⟩
    · exact fun p hp => absurd hp List.not_mem_nil
    · exact fun _ hc => Option.some_ne_none _ hc.symm
    · exact fun a ha => absurd ha List.not_mem_nil
  | step o e _ hs ih => exact (ih.step hs).1

/-- The request has been answered, or its failure has been posted. -/
def Ended (s : TrackerManager) (i : ℕ) : Prop :=
  (s.conns i).cancelled = true ∨ ∃ p ∈ s.posted, p.1 = i ∧ p.2.isFailure = true

theorem AnswerInv.ended_iff (h : AnswerInv s) (i : ℕ) : s.Ended i ↔ 0 < s.outcomes i := by
  rw [Ended, h.closed, decide_eq_true_iff, outcomes, Nat.add_pos_iff_pos_or_pos, List.countP_pos_iff]
  simp

/-- The runs in which no event ends a request that has ended. -/
inductive ReachedOnce (tokenExpiry : ℕ) : TrackerManager → Prop
  | start : ReachedOnce tokenExpiry {}
  | step {s s' : TrackerManager} (o : Oracle) (e : TrackerEvent) (h : ReachedOnce tokenExpiry s)
    (hs : s.step tokenExpiry o e = some s') (hends : ∀ i, s.Ended i → ¬ s.Ends o i e) : ReachedOnce tokenExpiry s'

theorem ReachedOnce.reached {tokenExpiry : ℕ} (h : ReachedOnce tokenExpiry s) : Reached tokenExpiry s := by
  induction h with
  | start => exact .start
  | step o e _ hs _ ih => exact ih.step o e hs

theorem ReachedOnce.outcomes_le {tokenExpiry : ℕ} (h : ReachedOnce tokenExpiry s) (i : ℕ) : s.outcomes i ≤ 1 := by
  induction h with
  | start => exact Nat.zero_le 1
  | @step s s' o e h hs hends ih =>
    have hinv := h.reached.answerInv
    rw [(hinv.step hs).2]
    by_cases he : s.Ends o i e
    · have hzero : s.outcomes i = 0 := Nat.eq_zero_of_not_pos fun hpos => hends i ((hinv.ended_iff i).mpr hpos) he
      rw [hzero, once_of he]
    · rwa [once_of_not he, add_zero]

theorem ReachedOnce.answeredOnce {tokenExpiry : ℕ} (h : ReachedOnce tokenExpiry s) : AnsweredOnce s := by
  have hinv := h.reached.answerInv
  have hle : ∀ i, s.numAnswers i ≤ 1 := fun i => (Nat.le_add_right _ _).trans (h.outcomes_le i)
  refine ⟨hle, fun i => ?_, hinv.armed, fun i hi hwaiting hposted => ?_⟩
  · rw [hinv.closed, decide_eq_true_iff]
    exact ⟨fun hpos => le_antisymm (hle i) hpos, fun hone => hone ▸ Nat.one_pos⟩
  · have hfailures : s.outcomes i = s.numAnswers i := by
      rw [outcomes, List.countP_eq_zero.mpr, add_zero]
      exact fun p hp => by simp [hposted p hp]
    refine le_antisymm (hle i) (Nat.pos_of_ne_zero fun hzero => ?_)
    rcases hinv.armed i hi (hfailures.trans hzero) with harmed | ⟨aborted, hmem⟩
    · exact Bool.false_ne_true (hwaiting.symm.trans harmed)
    · exact hposted _ hmem rfl

end TrackerManager

/-- The requests to HTTP trackers: those that were started, and those that wait. -/
structure HttpRequests where
  httpConns : List ℕ := []
  queued : List ℕ := []

namespace HttpRequests

/-- `queue_request` -/
def queueRequest (maxAnnounces : ℕ) (s : HttpRequests) (con : ℕ) : HttpRequests :=
  if s.httpConns.length < maxAnnounces then { s with httpConns := s.httpConns ++ [con] }
  else { s with queued := s.queued ++ [con] }

/-- `remove_request`, which `close` calls. -/
def removeRequest (s : HttpRequests) (c : ℕ) : HttpRequests :=
  if c ∈ s.httpConns then
    match s.queued with
    | [] => { s with httpConns := s.httpConns.erase c }
    | conn :: queued => { httpConns := s.httpConns.erase c ++ [conn], queued }
  else { s with queued := s.queued.erase c }

/-- The states that are reached when no more than `maxAnnounces` requests may run. -/
inductive Reached (maxAnnounces : ℕ) : HttpRequests → Prop
  | start : Reached maxAnnounces {}
  | queueRequest {s : HttpRequests} (con : ℕ) (h : Reached maxAnnounces s) :
    Reached maxAnnounces (s.queueRequest maxAnnounces con)
  | removeRequest {s : HttpRequests} (c : ℕ) (h : Reached maxAnnounces s) : Reached maxAnnounces (s.removeRequest c)

variable {maxAnnounces : ℕ} {s : HttpRequests}

/-- As many requests as may run do run while others wait. -/
theorem Reached.running (h : Reached maxAnnounces s) :
    s.httpConns.length ≤ maxAnnounces ∧ (s.queued ≠ [] → s.httpConns.length = maxAnnounces) := by
  induction h with
  | start => exact ⟨Nat.zero_le _, fun h => absurd rfl h⟩
  | @queueRequest s con h ih =>
    obtain ⟨hle, hfull⟩ := ih
    rw [HttpRequests.queueRequest]
    split
    · rename_i hlt
      rw [List.length_append, List.length_singleton]
      exact ⟨hlt, fun hqueued => absurd (hfull hqueued) hlt.ne⟩
    · rename_i hge
      exact ⟨hle, fun _ => le_antisymm hle (not_lt.mp hge)⟩
  | @removeRequest s c h ih =>
    obtain ⟨hle, hfull⟩ := ih
    rw [HttpRequests.removeRequest]
    split
    · rename_i hmem
      have hlength := List.length_erase_add_one hmem
      split
      · exact ⟨(Nat.le_succ _).trans (hlength.trans_le hle), fun h => absurd ‹_› h⟩
      · rename_i conn queued hqueued
        have hmax := hfull (hqueued ▸ List.cons_ne_nil _ _)
        rw [List.length_append, List.length_singleton, hlength]
        exact ⟨hle, fun _ => hmax⟩
    · exact ⟨hle, fun hne => hfull fun hnil => hne (by rw [hnil, List.erase_nil])⟩

end HttpRequests

namespace TrackerManager

/-- An error packet with the transaction id 1. -/
def errorPacket : List UInt8 := [0, 0, 0, 3, 0, 0, 0, 1]

/-- While no event ends a request that has ended, every request is answered once; an event that does end such a
request gives it a second outcome. No more HTTP requests run than may, and while one waits another one runs. -/
theorem reachedOnce_answeredOnce (tokenExpiry : ℕ) :
    (∀ s, ReachedOnce tokenExpiry s → AnsweredOnce s) ∧
    (∀ s s' o e i, Reached tokenExpiry s → s.step tokenExpiry o e = some s' → s.Ended i → s.Ends o i e →
      2 ≤ s'.outcomes i) ∧
    ∀ maxAnnounces, 0 < maxAnnounces → ∀ q, HttpRequests.Reached maxAnnounces q →
      q.httpConns.length ≤ maxAnnounces ∧ (q.queued ≠ [] → q.httpConns ≠ []) := by
  refine ⟨fun s h => h.answeredOnce, fun s s' o e i h hs hended hends => ?_, fun maxAnnounces hpos q hq => ?_⟩
  · have hone := (h.answerInv.ended_iff i).mp hended
    rw [(h.answerInv.step hs).2, once_of hends]
    omega
  · obtain ⟨hle, hfull⟩ := hq.running
    refine ⟨hle, fun hqueued hnil => hpos.ne ?_⟩
    rw [← hfull hqueued, hnil, List.length_nil]

set_option maxRecDepth 4096 in
/-- A request whose URL is no good is told so once. Of two requests to HTTP trackers one runs. -/
theorem reachedOnce_answeredOnce_badUrl :
    (∃ s, ReachedOnce 60 s ∧ s.answers = [(0, .error (.parse 0) .parseAddress [])] ∧ AnsweredOnce s) ∧
    (∃ s, Reached 60 s ∧ 2 ≤ s.outcomes 0) ∧
    ∃ q, HttpRequests.Reached 1 q ∧ q.queued = [1] ∧ q.httpConns ≠ [] := by
  obtain ⟨hanswered, htwice, hhttp⟩ := reachedOnce_answeredOnce 60
  refine ⟨?_, ?_, ?_⟩
  · have hstart : ReachedOnce 60 {} := .start
    have hqueue := hstart.step {} (.queueRequest anyRequest (some (.parse 0))) rfl fun i hended => by
      rcases hended with hended | ⟨p, hp, _⟩
      · cases hended
      · cases hp
    have hrun := hqueue.step {} (.run 0) rfl fun _ _ => id
    exact ⟨_, hrun, rfl, hanswered _ hrun⟩
  · have hstart : Reached 60 {} := .start
    have hqueue := hstart.step {} (.queueRequest anyRequest none) rfl
    have hlookup := hqueue.step {} (.nameLookup 0 none [⟨false, 9⟩] 80) rfl
    have herror := hlookup.step {} (.incomingPacket (some ⟨⟨false, 9⟩, 80⟩) errorPacket) rfl
    refine ⟨_, herror.step {} (.incomingPacket (some ⟨⟨false, 9⟩, 80⟩) errorPacket) rfl, ?_⟩
    refine htwice _ _ {} (.incomingPacket (some ⟨⟨false, 9⟩, 80⟩) errorPacket) 0 herror rfl (.inr ⟨_, List.mem_singleton_self _, rfl, rfl⟩) ?_
    exact ⟨by decide, by decide, rfl, ⟨by decide, by decide, by decide, by decide⟩, .inl ⟨rfl, .inl rfl⟩⟩
  · have hq : HttpRequests.Reached 1 _ := .queueRequest 1 (.queueRequest 0 .start)
    exact ⟨_, hq, rfl, (hhttp 1 Nat.one_pos _ hq).2 (List.cons_ne_nil _ _)⟩

set_option maxRecDepth 4096 in
/-- Two errors that come before the first failure is carried out are two answers. A request that ran out of time
during the name lookup is told of its failure too, after it was closed. -/
theorem not_reached_answeredOnce :
    (∃ s, Reached 60 s ∧ s.numAnswers 0 = 2) ∧
    ∃ s s' o e, Reached 60 s ∧ s.numAnswers 0 = 1 ∧ (s.conns 0).cancelled = true ∧ s.step 60 o e = some s' ∧
      s'.numAnswers 0 = 2 := by
  have hstart : Reached 60 {} := .start
  have hqueue := hstart.step {} (.queueRequest anyRequest none) rfl
  constructor
  · have hlookup := hqueue.step {} (.nameLookup 0 none [⟨false, 9⟩] 80) rfl
    have herror := hlookup.step {} (.incomingPacket (some ⟨⟨false, 9⟩, 80⟩) errorPacket) rfl
    have herror' := herror.step {} (.incomingPacket (some ⟨⟨false, 9⟩, 80⟩) errorPacket) rfl
    have hfail := herror'.step {} (.run 0) rfl
    exact ⟨_, hfail.step {} (.run 0) rfl, by decide⟩
  · have hdue := hqueue.step {} (.timerDue 0) rfl
    have htimeout := hdue.step {} (.run 0) rfl
    have hfail := htimeout.step {} (.run 0) rfl
    have hlookup := hfail.step {} (.nameLookup 0 (some (.system 1)) [] 80) rfl
    exact ⟨_, _, {}, .run 0, hlookup, by decide, by decide, rfl, by decide⟩

end TrackerManager

end Tracker

end LibtorrentSN
