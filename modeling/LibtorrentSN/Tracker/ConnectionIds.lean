import LibtorrentSN.Tracker.UdpTracker

/-!
# Connection ids

The cache of connection ids is looked up by the address of a tracker, without its port. So a packet carries the
latest id that came from that address, and where two trackers share one, it may be the id of the other one.
-/

namespace LibtorrentSN

namespace Tracker

namespace TrackerManager

/-- The states of the runs of requests that share the cache. -/
inductive Reached (tokenExpiry : ℕ) : TrackerManager → Prop
  | start : Reached tokenExpiry {}
  | step {s s' : TrackerManager} (o : Oracle) (e : TrackerEvent) (hs : Reached tokenExpiry s)
      (h : s.step tokenExpiry o e = some s') : Reached tokenExpiry s'

/-- The latest response from an address. -/
def latest (connects : List ConnectResponse) (a : Address) : Option ConnectResponse :=
  (connects.filter (·.target.address = a)).getLast?

/-- An announce or a scrape carries the id of the latest connect response that had come for the address it is
sent to, and one that was taken from the cache had not expired. -/
def SentPacket.Right (connects : List ConnectResponse) (tokenExpiry : ℕ) (p : SentPacket) : Prop :=
  p.action = .announce ∨ p.action = .scrape →
    ∃ r, latest (connects.take p.responses) p.target.address = some r ∧ r.connectionId = p.connectionId ∧
      (p.cached = true → p.time < r.time + tokenExpiry)

/-- A connect response came from the target of its request, unless that has no address. -/
def ConnectResponse.FromTarget (r : ConnectResponse) : Prop :=
  r.target.address.isUnspecified = true ∨ r.source = r.target

/-- The state does not differ in what has to do with connection ids. -/
structure SameIds (s s' : TrackerManager) : Prop where
  now : s'.now = s.now
  connectionCache : s'.connectionCache = s.connectionCache
  connects : s'.connects = s.connects
  sent : s'.sent = s.sent

namespace SameIds

variable {s s' s'' : TrackerManager}

theorem refl (s : TrackerManager) : SameIds s s := ⟨rfl, rfl, rfl, rfl⟩

theorem trans (h : SameIds s s') (h' : SameIds s' s'') : SameIds s s'' :=
  ⟨h'.now.trans h.now, h'.connectionCache.trans h.connectionCache, h'.connects.trans h.connects,
    h'.sent.trans h.sent⟩

theorem modifyConn (s : TrackerManager) (i : ℕ) (f : UdpConnection → UdpConnection) :
    SameIds s (s.modifyConn i f) := ⟨rfl, rfl, rfl, rfl⟩

theorem post (s : TrackerManager) (i : ℕ) (h : Handler) : SameIds s (s.post i h) := ⟨rfl, rfl, rfl, rfl⟩

theorem cancelTimer (s : TrackerManager) (i : ℕ) : SameIds s (s.cancelTimer i) := by
  rw [TrackerManager.cancelTimer]
  split
  · exact ⟨rfl, rfl, rfl, rfl⟩
  · exact refl s

theorem armTimer (s : TrackerManager) (i : ℕ) : SameIds s (s.armTimer i) :=
  (cancelTimer s i).trans (modifyConn _ _ _)

theorem setTimeout (s : TrackerManager) (i : ℕ) : SameIds s (s.setTimeout i) := by
  rw [TrackerManager.setTimeout]
  split
  · exact refl s
  · exact armTimer s i

theorem answer_close (s : TrackerManager) (i : ℕ) (a : Answer) : SameIds s ((s.answer i a).close i) := by
  have hcancel := cancelTimer ((s.answer i a).modifyConn i ({ · with cancelled := true })) i
  exact ⟨hcancel.now, hcancel.connectionCache, hcancel.connects, hcancel.sent⟩

theorem fail (s : TrackerManager) (i : ℕ) (ec : ErrorCode) (op : Operation) (msg : List UInt8) :
    SameIds s (s.fail i ec op msg) := by
  rw [TrackerManager.fail]
  split
  · exact ⟨rfl, rfl, rfl, rfl⟩
  · split
    · refine trans ?_ (setTimeout _ _)
      exact ⟨rfl, rfl, rfl, rfl⟩
    · exact ⟨rfl, rfl, rfl, rfl⟩

theorem timeoutCallback (s : TrackerManager) (i : ℕ) (aborted : Bool) (o : Oracle) :
    SameIds s (s.timeoutCallback i aborted o) := by
  rw [TrackerManager.timeoutCallback, onTimeout]
  split_ifs
  · exact refl s
  · exact fail _ _ _ _ _
  · exact fail _ _ _ _ _
  · exact armTimer s i

theorem onAnnounceResponse (s : TrackerManager) (i : ℕ) (buf : List UInt8) :
    SameIds s (s.onAnnounceResponse i buf) := by
  rw [TrackerManager.onAnnounceResponse]
  dsimp only
  split_ifs
  · exact refl s
  · exact fail _ _ _ _ _
  · exact answer_close _ _ _
  · exact fail _ _ _ _ _
  · exact answer_close _ _ _

theorem onScrapeResponse (s : TrackerManager) (i : ℕ) (buf : List UInt8) :
    SameIds s (s.onScrapeResponse i buf) := by
  rw [TrackerManager.onScrapeResponse]
  dsimp only
  split_ifs
  · exact fail _ _ _ _ _
  · exact fail _ _ _ _ _
  · exact fail _ _ _ _ _
  · exact fail _ _ _ _ _
  · exact answer_close _ _ _

end SameIds

variable {tokenExpiry : ℕ} {s s' : TrackerManager} {i : ℕ} {o : Oracle}

/-- What the steps keep: each entry of the cache is of the latest response from its address. -/
structure IdInv (tokenExpiry : ℕ) (s : TrackerManager) : Prop where
  cache : ∀ a entry, s.connectionCache a = some entry → ∃ r, latest s.connects a = some r ∧
    r.connectionId = entry.connectionId ∧ entry.expires = r.time + tokenExpiry
  sent : ∀ p ∈ s.sent, p.responses ≤ s.connects.length ∧ SentPacket.Right s.connects tokenExpiry p
  connects : ∀ r ∈ s.connects, ConnectResponse.FromTarget r

namespace IdInv

theorem of_same (h : IdInv tokenExpiry s) (hs : SameIds s s') : IdInv tokenExpiry s' := by
  obtain ⟨hcache, hsent, hconnects⟩ := h
  constructor
  · rw [hs.connectionCache, hs.connects]
    exact hcache
  · rw [hs.sent, hs.connects]
    exact hsent
  · rw [hs.connects]
    exact hconnects

/-- A packet is sent. -/
theorem send (h : IdInv tokenExpiry s) {action : Action} {connectionId : ℕ} {cached : Bool}
    (hright : action = .announce ∨ action = .scrape →
      ∃ r, latest s.connects (s.conns i).target.address = some r ∧ r.connectionId = connectionId ∧
        (cached = true → s.now < r.time + tokenExpiry)) :
    IdInv tokenExpiry (s.send i action connectionId cached) := by
  refine ⟨h.cache, fun p hp => ?_, h.connects⟩
  rcases List.mem_append.mp hp with hp | hp
  · exact h.sent p hp
  · rw [List.mem_singleton.mp hp]
    refine ⟨le_rfl, fun haction => ?_⟩
    change ∃ r, latest (s.connects.take s.connects.length) _ = some r ∧ _
    rw [List.take_length]
    exact hright haction

theorem sendUdpConnect (h : IdInv tokenExpiry s) : IdInv tokenExpiry (s.sendUdpConnect i o) := by
  have hsend : IdInv tokenExpiry (s.send i .connect 0x41727101980 false) :=
    h.send fun hc => by rcases hc with hc | hc <;> cases hc
  rw [TrackerManager.sendUdpConnect]
  split
  · exact h
  · dsimp only
    split
    · exact hsend.of_same (SameIds.fail _ _ _ _ _)
    · exact hsend.of_same (SameIds.modifyConn _ _ _)

theorem sendUdp (h : IdInv tokenExpiry s) {action : Action} {cached : Bool}
    (hfresh : cached = true → ∀ entry, s.connectionCache (s.conns i).target.address = some entry →
      s.now < entry.expires) : IdInv tokenExpiry (s.sendUdp i action cached o) := by
  rw [TrackerManager.sendUdp]
  split
  · exact h
  · split
    · exact h
    · rename_i entry hentry
      have hsend : IdInv tokenExpiry (s.send i action entry.connectionId cached) := by
        refine h.send fun _ => ?_
        obtain ⟨r, hr, hid, hexpires⟩ := h.cache _ _ hentry
        exact ⟨r, hr, hid, fun hcached => hexpires ▸ hfresh hcached entry hentry⟩
      dsimp only
      have hmodified := hsend.of_same (SameIds.modifyConn _ i ({ · with state := action }))
      split
      · exact hmodified.of_same (SameIds.fail _ _ _ _ _)
      · exact hmodified

theorem startAnnounce (h : IdInv tokenExpiry s) : IdInv tokenExpiry (s.startAnnounce i o) := by
  rw [TrackerManager.startAnnounce]
  split
  · rename_i entry hentry
    have hfresh : s.now < entry.expires → ∀ entry', s.connectionCache (s.conns i).target.address = some entry' →
        s.now < entry'.expires := by
      intro hlt entry' hentry'
      rw [hentry] at hentry'
      cases hentry'
      exact hlt
    split_ifs with hlt
    · exact h.sendUdp fun _ => hfresh hlt
    · exact h.sendUdp fun _ => hfresh hlt
    · refine sendUdpConnect ⟨fun a entry' ha => ?_, h.sent, h.connects⟩
      change Function.update s.connectionCache _ none a = some entry' at ha
      rcases eq_or_ne a (s.conns i).target.address with rfl | hne
      · rw [Function.update_self] at ha
        cases ha
      · rw [Function.update_of_ne hne] at ha
        exact h.cache a entry' ha
  · exact h.sendUdpConnect

theorem latest_append_of_eq {connects : List ConnectResponse} {r : ConnectResponse} {a : Address}
    (h : r.target.address = a) : latest (connects ++ [r]) a = some r := by
  rw [latest, List.filter_append, List.filter_singleton]
  simp [h]

theorem latest_append_of_ne {connects : List ConnectResponse} {r : ConnectResponse} {a : Address}
    (h : r.target.address ≠ a) : latest (connects ++ [r]) a = latest connects a := by
  rw [latest, List.filter_append, List.filter_singleton]
  simp [h, latest]

/-- A connect response is noted. -/
theorem connect (h : IdInv tokenExpiry s) {r : ConnectResponse} (hr : ConnectResponse.FromTarget r)
    (htime : r.time = s.now) : IdInv tokenExpiry { s with
      connectionCache := Function.update s.connectionCache r.target.address
        (some ⟨r.connectionId, s.now + tokenExpiry⟩)
      connects := s.connects ++ [r] } := by
  refine ⟨fun a entry ha => ?_, fun p hp => ?_, fun r' hr' => ?_⟩
  · change Function.update s.connectionCache _ _ a = some entry at ha
    change ∃ r', latest (s.connects ++ [r]) a = some r' ∧ _
    rcases eq_or_ne a r.target.address with rfl | hne
    · rw [Function.update_self] at ha
      cases ha
      exact ⟨r, latest_append_of_eq rfl, rfl, by rw [htime]⟩
    · rw [Function.update_of_ne hne] at ha
      rw [latest_append_of_ne hne.symm]
      exact h.cache a entry ha
  · obtain ⟨hle, hright⟩ := h.sent p hp
    refine ⟨hle.trans (by simp), fun haction => ?_⟩
    rw [List.take_append_of_le_length hle]
    exact hright haction
  · rcases List.mem_append.mp hr' with hr' | hr'
    · exact h.connects r' hr'
    · rwa [List.mem_singleton.mp hr']

theorem onConnectResponse (h : IdInv tokenExpiry s) {source : Endpoint} {byName : Bool} {buf : List UInt8}
    (hsource : (s.conns i).target.address.isUnspecified = true ∨ source = (s.conns i).target) :
    IdInv tokenExpiry (s.onConnectResponse i tokenExpiry source byName buf o) := by
  rw [TrackerManager.onConnectResponse]
  split
  · exact h
  · have htarget : ((s.updateTransactionId i o.newTid).conns i).target = (s.conns i).target := by
      rw [updateTransactionId, conns_modifyConn_self]
    have hupdated : IdInv tokenExpiry (s.updateTransactionId i o.newTid) := ⟨h.cache, h.sent, h.connects⟩
    have hconnect := @connect _ _ hupdated ⟨source, byName, ((s.updateTransactionId i o.newTid).conns i).target,
      Peer.bigEndian ((buf.drop 8).take 8), s.now⟩ (by rwa [ConnectResponse.FromTarget, htarget]) rfl
    dsimp only
    split
    · exact hconnect.sendUdp fun hc => by cases hc
    · exact hconnect.sendUdp fun hc => by cases hc

theorem onReceive (h : IdInv tokenExpiry s) {ep : Endpoint} {byName : Bool} {buf : List UInt8} :
    IdInv tokenExpiry (s.onReceive i tokenExpiry ep byName buf o) := by
  rw [TrackerManager.onReceive]
  dsimp only
  split
  · exact h
  split
  · exact h
  split
  · exact h
  rename_i hsource
  split
  · exact h
  split
  · exact h
  split
  · exact h.of_same (SameIds.fail _ _ _ _ _)
  split
  · exact h
  split
  · refine h.onConnectResponse ?_
    rw [not_and_or, not_not, not_not] at hsource
    exact hsource.imp_right Eq.symm
  · exact h.of_same (SameIds.onAnnounceResponse _ _ _)
  · exact h.of_same (SameIds.onScrapeResponse _ _ _)
  · exact h

theorem nameLookup (h : IdInv tokenExpiry s) {error : Option ErrorCode} {addresses : List Address} {port : ℕ} :
    IdInv tokenExpiry (s.nameLookup i error addresses port o) := by
  have hmodify : ∀ {s : TrackerManager}, IdInv tokenExpiry s → ∀ f, IdInv tokenExpiry (s.modifyConn i f) :=
    fun h f => h.of_same (SameIds.modifyConn _ i f)
  have hfail : ∀ {s : TrackerManager} {ec op msg}, IdInv tokenExpiry s → IdInv tokenExpiry (s.fail i ec op msg) :=
    fun h => h.of_same (SameIds.fail _ _ _ _ _)
  have hresolved := hmodify h ({ · with resolving := false })
  rw [TrackerManager.nameLookup]
  dsimp only
  split
  · exact hresolved
  split
  · exact hresolved
  split
  · exact hfail hresolved
  split
  · exact hfail hresolved
  split
  · exact hfail hresolved
  split
  · exact hfail (hmodify hresolved _)
  split
  · exact hfail (hmodify (hmodify hresolved _) _)
  · exact (hmodify (hmodify (hmodify hresolved _) _) _).startAnnounce

theorem step (h : IdInv tokenExpiry s) {e : TrackerEvent} (hs : s.step tokenExpiry o e = some s') :
    IdInv tokenExpiry s' := by
  cases e with
  | queueRequest req parseError =>
    cases hs
    have hqueued : IdInv tokenExpiry { s with
        queued := s.queued + 1
        conns := Function.update s.conns s.queued { req, transactionId := o.newTid }
        udpConns := Function.update s.udpConns o.newTid (some s.queued) } := ⟨h.cache, h.sent, h.connects⟩
    rcases parseError with - | ec
    · exact (hqueued.of_same (SameIds.modifyConn _ _ _)).of_same (SameIds.setTimeout _ _)
    · exact hqueued.of_same (SameIds.post _ _ _)
  | nameLookup i error addresses port =>
    rw [TrackerManager.step] at hs
    split_ifs at hs
    cases hs
    exact h.nameLookup
  | timerDue i =>
    rw [TrackerManager.step] at hs
    split_ifs at hs
    cases hs
    exact ⟨h.cache, h.sent, h.connects⟩
  | run k =>
    rw [TrackerManager.step] at hs
    split at hs
    · cases hs
    · rename_i i handler _
      cases hs
      have htaken : IdInv tokenExpiry { s with posted := s.posted.eraseIdx k } := ⟨h.cache, h.sent, h.connects⟩
      cases handler with
      | startAnnounce => exact htaken.startAnnounce
      | failImpl ec op msg => exact htaken.of_same (SameIds.answer_close _ _ _)
      | timeoutCallback aborted => exact htaken.of_same (SameIds.timeoutCallback _ _ _ _)
  | incomingPacket source buf =>
    cases hs
    rw [incomingPacket]
    generalize (if source.isSome then 8 else 16) = size
    split
    · exact h
    split
    · exact h
    split
    · exact h
    · exact h.onReceive
  | closeListenSocket i =>
    cases hs
    exact ⟨h.cache, h.sent, h.connects⟩
  | tick d =>
    cases hs
    exact ⟨h.cache, h.sent, h.connects⟩

end IdInv

theorem Reached.idInv (h : Reached tokenExpiry s) : IdInv tokenExpiry s := by
  induction h with
  | start => exact ⟨by simp, by simp, by simp⟩
  | step o e _ hs ih => exact ih.step hs

/-- Every announce and every scrape carries the id of the latest connect response for its address, and no id was
taken from the cache after it had expired. -/
theorem reached_right (h : Reached tokenExpiry s) :
    (∀ p ∈ s.sent, SentPacket.Right s.connects tokenExpiry p) ∧ ∀ r ∈ s.connects, ConnectResponse.FromTarget r :=
  ⟨fun p hp => (h.idInv.sent p hp).2, h.idInv.connects⟩

/-- A request that may use every address. -/
def anyRequest : TrackerRequest := ⟨false, fun _ => true, fun _ => false⟩

/-- A connect response with the transaction id 1 and the connection id 7. -/
def connectPacket : List UInt8 := [0, 0, 0, 0, 0, 0, 0, 1, 0, 0, 0, 0, 0, 0, 0, 7]

/-- A request announces to a tracker, and another one to the same tracker with the id that is cached. -/
theorem reached_right_cached : ∃ s, Reached 60 s ∧ (s.sent.map fun p => (p.action, p.connectionId, p.cached)) =
    [(.connect, 0x41727101980, false), (.announce, 7, false), (.announce, 7, true)] ∧
    ∀ p ∈ s.sent, SentPacket.Right s.connects 60 p := by
  have hstart : Reached 60 {} := .start
  have hqueue := hstart.step { newTid := 1 } (.queueRequest anyRequest none) rfl
  have hconnect := hqueue.step {} (.nameLookup 0 none [⟨false, 9⟩] 80) rfl
  have hannounce := hconnect.step { newTid := 2 } (.incomingPacket (some ⟨⟨false, 9⟩, 80⟩) connectPacket) rfl
  have hqueue' := hannounce.step { newTid := 3 } (.queueRequest anyRequest none) rfl
  have hcached := hqueue'.step {} (.nameLookup 1 none [⟨false, 9⟩] 80) rfl
  exact ⟨_, hcached, by decide, (reached_right hcached).1⟩

/-- A tracker is sent an id that came from another port of its address. Where the address is unspecified, an id
that came from anywhere is sent. -/
theorem not_reached_right :
    (∃ s, Reached 60 s ∧ ∃ p ∈ s.sent, p.action = .announce ∧ p.connectionId = 7 ∧ p.target = ⟨⟨false, 9⟩, 81⟩ ∧
      ∀ r ∈ s.connects, r.source ≠ p.target) ∧
    ∃ s, Reached 60 s ∧ ∃ p ∈ s.sent, p.action = .announce ∧ p.connectionId = 7 ∧ p.target = ⟨⟨false, 0⟩, 80⟩ ∧
      ∀ r ∈ s.connects, r.source ≠ p.target := by
  have hstart : Reached 60 {} := .start
  have hqueue := hstart.step { newTid := 1 } (.queueRequest anyRequest none) rfl
  constructor
  · have hconnect := hqueue.step {} (.nameLookup 0 none [⟨false, 9⟩] 80) rfl
    have hannounce := hconnect.step { newTid := 2 } (.incomingPacket (some ⟨⟨false, 9⟩, 80⟩) connectPacket) rfl
    have hqueue' := hannounce.step { newTid := 3 } (.queueRequest anyRequest none) rfl
    have hcached := hqueue'.step {} (.nameLookup 1 none [⟨false, 9⟩] 81) rfl
    exact ⟨_, hcached, by decide⟩
  · have hconnect := hqueue.step {} (.nameLookup 0 none [⟨false, 0⟩] 80) rfl
    have hannounce := hconnect.step { newTid := 2 } (.incomingPacket (some ⟨⟨false, 9⟩, 99⟩) connectPacket) rfl
    exact ⟨_, hannounce, by decide⟩

end TrackerManager

end Tracker

end LibtorrentSN
