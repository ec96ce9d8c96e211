import LibtorrentSN.Peer.Framing

/-!
# UDP trackers

A request to a UDP tracker (`src/udp_tracker_connection.cpp`) looks up the name of the tracker, asks it for a
connection id, and announces or scrapes with it. An endpoint that fails is replaced by the next one the name has.
Failures are posted (`src/tracker_manager.cpp`) and carried out later. The connection ids are kept in a cache that
all requests share.

Whether a packet could be sent, whether a timer had expired when its handler ran, and the transaction ids that are
drawn are inputs of the steps. Logging is left out, and so is the branch for names that are not looked up, which
nothing takes.
-/

namespace LibtorrentSN

namespace Tracker

structure Address where
  v6 : Bool
  bits : ℕ
  deriving DecidableEq

def Address.isUnspecified (a : Address) : Bool := a.bits = 0

structure Endpoint where
  address : Address
  port : ℕ
  deriving DecidableEq

/-- `action_t`. Until a packet was sent it is `error`. -/
inductive Action
  | connect
  | announce
  | scrape
  | error
  deriving DecidableEq

def Action.ofNat? : ℕ → Option Action
  | 0 => some .connect
  | 1 => some .announce
  | 2 => some .scrape
  | 3 => some .error
  | _ => none

inductive ErrorCode
  | system (n : ℕ)
  | parse (n : ℕ)
  | operationAborted
  | torrentAborted
  | invalidListenSocket
  | announceSkipped
  | bannedByIpFilter
  | timedOut
  | trackerFailure
  | invalidTrackerResponseLength
  | invalidTrackerTransactionId
  | invalidTrackerAction
  deriving DecidableEq

/-- `operation_t` -/
inductive Operation
  | parseAddress
  | hostnameLookup
  | timer
  | sockWrite
  | bittorrent
  deriving DecidableEq

structure TrackerResponse where
  interval : ℤ
  incomplete : ℤ
  complete : ℤ
  peers6 : List (List UInt8 × ℕ) := []
  peers4 : List (List UInt8 × ℕ) := []
  deriving DecidableEq

/-- What the requester is told. -/
inductive Answer
  | response (trackerIp : Address) (ipList : List Address) (response : TrackerResponse)
  | scrape (complete incomplete downloaded : ℤ)
  | error (ec : ErrorCode) (op : Operation) (msg : List UInt8)
  deriving DecidableEq

structure TrackerRequest where
  scrape : Bool
  -- what the listen socket of the request can reach, and the ip filter
  canRoute : Address → Bool
  blocked : Address → Bool

structure UdpConnection where
  req : TrackerRequest
  -- the listen socket is there
  outgoingSocket : Bool := true
  endpoints : List Endpoint := []
  target : Endpoint := ⟨⟨false, 0⟩, 0⟩
  transactionId : ℕ
  state : Action := .error
  abort : Bool := false
  -- of the `timeout_handler`: its own flag, and whether the timer is waited for
  cancelled : Bool := false
  waiting : Bool := false
  -- the name is being looked up
  resolving : Bool := false

/-- What stands for a connection that is not there yet. -/
def UdpConnection.unused : UdpConnection where
  req := ⟨false, fun _ => false, fun _ => false⟩
  transactionId := 0

/-- A handler that was posted to the executor. -/
inductive Handler
  | startAnnounce
  | failImpl (ec : ErrorCode) (op : Operation) (msg : List UInt8)
  | timeoutCallback (aborted : Bool)

structure CacheEntry where
  connectionId : ℕ
  expires : ℕ

/-- A packet that was handed to the socket. -/
structure SentPacket where
  target : Endpoint
  action : Action
  connectionId : ℕ
  time : ℕ
  -- `start_announce` took the id from the cache
  cached : Bool
  -- how many connect responses had come
  responses : ℕ

/-- A connect response that was taken. -/
structure ConnectResponse where
  source : Endpoint
  -- the packet came with a name in place of its endpoint, and counts as coming from the target
  byName : Bool
  target : Endpoint
  connectionId : ℕ
  time : ℕ

structure TrackerManager where
  now : ℕ := 0
  -- how many connections there are, and the connections by their number
  queued : ℕ := 0
  conns : ℕ → UdpConnection := fun _ => .unused
  udpConns : ℕ → Option ℕ := fun _ => none
  connectionCache : Address → Option CacheEntry := fun _ => none
  posted : List (ℕ × Handler) := []
  answers : List (ℕ × Answer) := []
  sent : List SentPacket := []
  connects : List ConnectResponse := []

/-- The inputs of a step: how a send fails, the transaction id that is drawn, and whether the timer had expired. -/
structure Oracle where
  sendError : Option ErrorCode := none
  newTid : ℕ := 1
  expired : Bool := true

namespace TrackerManager

variable (s : TrackerManager) (i : ℕ)

def modifyConn (f : UdpConnection → UdpConnection) : TrackerManager :=
  { s with conns := Function.update s.conns i (f (s.conns i)) }

@[simp]
theorem conns_modifyConn_self (f : UdpConnection → UdpConnection) :
    (s.modifyConn i f).conns i = f (s.conns i) := Function.update_self ..

theorem conns_modifyConn_of_ne {i j : ℕ} (h : j ≠ i) (f : UdpConnection → UdpConnection) :
    (s.modifyConn i f).conns j = s.conns j := Function.update_of_ne h ..

/-- What the change leaves as it is, for any connection. -/
theorem conns_modifyConn_apply {α : Type*} (g : UdpConnection → α) {f : UdpConnection → UdpConnection}
    (hf : ∀ c, g (f c) = g c) (j : ℕ) : g ((s.modifyConn i f).conns j) = g (s.conns j) := by
  rcases eq_or_ne j i with rfl | hne
  · rw [conns_modifyConn_self, hf]
  · rw [conns_modifyConn_of_ne s hne]

def post (h : Handler) : TrackerManager := { s with posted := s.posted ++ [(i, h)] }

@[simp]
theorem conns_post (h : Handler) : (s.post i h).conns = s.conns := rfl

/-- `m_timeout.cancel`, which `expires_at` does as well. -/
def cancelTimer : TrackerManager :=
  if (s.conns i).waiting then (s.modifyConn i ({ · with waiting := false })).post i (.timeoutCallback true) else s

/-- `expires_at` and `async_wait` -/
def armTimer : TrackerManager := (s.cancelTimer i).modifyConn i ({ · with waiting := true })

/-- `timeout_handler::set_timeout` -/
def setTimeout : TrackerManager := if (s.conns i).cancelled then s else s.armTimer i

/-- `timeout_handler::cancel` -/
def cancel : TrackerManager := (s.modifyConn i ({ · with cancelled := true })).cancelTimer i

def removeRequest : TrackerManager :=
  { s with udpConns := Function.update s.udpConns (s.conns i).transactionId none }

/-- `udp_tracker_connection::close` -/
def close : TrackerManager := (s.cancel i).removeRequest i

/-- `tracker_connection::fail` -/
def trackerFail (ec : ErrorCode) (op : Operation) (msg : List UInt8) : TrackerManager :=
  s.post i (.failImpl ec op msg)

/-- The requester is told. -/
def answer (a : Answer) : TrackerManager := { s with answers := s.answers ++ [(i, a)] }

def failImpl (ec : ErrorCode) (op : Operation) (msg : List UInt8) : TrackerManager :=
  (s.answer i (.error ec op msg)).close i

/-- `udp_tracker_connection::fail` -/
def fail (ec : ErrorCode) (op : Operation) (msg : List UInt8) : TrackerManager :=
  let c := s.conns i
  let endpoints := c.endpoints.erase c.target
  let s := s.modifyConn i ({ · with endpoints })
  match endpoints with
  | [] => s.trackerFail i ec op msg
  | target :: _ =>
    if c.outgoingSocket then
      ((s.modifyConn i ({ · with target })).post i .startAnnounce).setTimeout i
    else s.trackerFail i ec op msg

/-- A packet is handed to the socket. -/
def send (action : Action) (connectionId : ℕ) (cached : Bool) : TrackerManager :=
  { s with sent := s.sent ++
      [⟨(s.conns i).target, action, connectionId, s.now, cached, s.connects.length⟩] }

def sendUdpConnect (o : Oracle) : TrackerManager :=
  if (s.conns i).abort then s
  else
    let s := s.send i .connect 0x41727101980 false
    match o.sendError with
    | some ec => s.fail i ec .sockWrite []
    | none => s.modifyConn i ({ · with state := .connect })

/-- `send_udp_announce` and `send_udp_scrape` -/
def sendUdp (action : Action) (cached : Bool) (o : Oracle) : TrackerManager :=
  if (s.conns i).abort then s
  else
    match s.connectionCache (s.conns i).target.address with
    | none => s
    | some entry =>
      let s := (s.send i action entry.connectionId cached).modifyConn i ({ · with state := action })
      match o.sendError with
      | some ec => s.fail i ec .sockWrite []
      | none => s

def sendUdpAnnounce (cached : Bool) (o : Oracle) : TrackerManager := s.sendUdp i .announce cached o

def sendUdpScrape (cached : Bool) (o : Oracle) : TrackerManager := s.sendUdp i .scrape cached o

def startAnnounce (o : Oracle) : TrackerManager :=
  let address := (s.conns i).target.address
  match s.connectionCache address with
  | some entry =>
    if s.now < entry.expires then
      if (s.conns i).req.scrape then s.sendUdpScrape i true o else s.sendUdpAnnounce i true o
    else { s with connectionCache := Function.update s.connectionCache address none }.sendUdpConnect i o
  | none => s.sendUdpConnect i o

/-- `name_lookup` -/
def nameLookup (error : Option ErrorCode) (addresses : List Address) (port : ℕ) (o : Oracle) : TrackerManager :=
  let c := s.conns i
  let s := s.modifyConn i ({ · with resolving := false })
  if c.abort then s
  else if error = some .operationAborted then s
  else if error.isSome ∨ addresses = [] then
    s.fail i (error.getD (.system 0)) .hostnameLookup []
  else if c.cancelled then s.fail i .torrentAborted .hostnameLookup []
  else if ¬ c.outgoingSocket then s.fail i .invalidListenSocket .hostnameLookup []
  else
    let reachable := c.endpoints ++ (addresses.filter c.req.canRoute).map (⟨·, port⟩)
    let s := s.modifyConn i ({ · with endpoints := reachable })
    if reachable = [] then s.fail i .announceSkipped .hostnameLookup []
    else
      let endpoints := reachable.filter fun ep => ¬ c.req.blocked ep.address
      let s := s.modifyConn i ({ · with endpoints })
      match endpoints with
      | [] => s.fail i .bannedByIpFilter .hostnameLookup []
      | target :: _ => (s.modifyConn i ({ · with target })).startAnnounce i o

def onTimeout (aborted : Bool) : TrackerManager :=
  if aborted then s.fail i .operationAborted .timer [] else s.fail i .timedOut .timer []

def timeoutCallback (aborted : Bool) (o : Oracle) : TrackerManager :=
  if (s.conns i).cancelled then s
  else if aborted ∨ o.expired then s.onTimeout i aborted
  else s.armTimer i

def updateTransactionId (newTid : ℕ) : TrackerManager :=
  { s with udpConns :=
      Function.update (Function.update s.udpConns (s.conns i).transactionId none) newTid (some i) }.modifyConn i
    ({ · with transactionId := newTid })

def onConnectResponse (tokenExpiry : ℕ) (source : Endpoint) (byName : Bool) (buf : List UInt8) (o : Oracle) :
    TrackerManager :=
  if buf.length < 16 then s
  else
    let s := s.updateTransactionId i o.newTid
    let connectionId := Peer.bigEndian ((buf.drop 8).take 8)
    let target := (s.conns i).target
    let s : TrackerManager := { s with
      connectionCache := Function.update s.connectionCache target.address (some ⟨connectionId, s.now + tokenExpiry⟩)
      connects := s.connects ++ [⟨source, byName, target, connectionId, s.now⟩] }
    if (s.conns i).req.scrape then s.sendUdpScrape i false o else s.sendUdpAnnounce i false o

/-- The peers of a response: their addresses and ports. -/
def readPeers (ipSize : ℕ) : (numPeers : ℕ) → List UInt8 → List (List UInt8 × ℕ)
  | 0, _ => []
  | numPeers + 1, buf =>
    (buf.take ipSize, Peer.bigEndian ((buf.drop ipSize).take 2)) ::
      readPeers ipSize numPeers (buf.drop (ipSize + 2))

def onAnnounceResponse (buf : List UInt8) : TrackerManager :=
  if buf.length < 20 then s
  else
    let c := s.conns i
    let peers := buf.drop 20
    let ipSize := if c.target.address.v6 then 16 else 4
    let ipStride := ipSize + 2
    if peers.length % ipStride ≠ 0 then s.fail i .invalidTrackerResponseLength .bittorrent []
    else
      let read := readPeers ipSize (peers.length / ipStride) peers
      let response : TrackerResponse :=
        { interval := Peer.readInt32 (buf.drop 8)
          incomplete := Peer.readInt32 (buf.drop 12)
          complete := Peer.readInt32 (buf.drop 16)
          peers6 := if c.target.address.v6 then read else []
          peers4 := if c.target.address.v6 then [] else read }
      (s.answer i (.response c.target.address (c.endpoints.map Endpoint.address) response)).close i

def onScrapeResponse (buf : List UInt8) : TrackerManager :=
  let c := s.conns i
  let action := Peer.readInt32 buf
  let transaction := Peer.bigEndian ((buf.drop 4).take 4)
  if transaction ≠ c.transactionId then s.fail i .invalidTrackerTransactionId .bittorrent []
  else if action = 3 then s.fail i .trackerFailure .bittorrent (buf.drop 8)
  else if action ≠ 2 then s.fail i .invalidTrackerAction .bittorrent []
  else if (buf.drop 8).length < 12 then s.fail i .invalidTrackerResponseLength .bittorrent []
  else
    let complete := Peer.readInt32 (buf.drop 8)
    let downloaded := Peer.readInt32 (buf.drop 12)
    let incomplete := Peer.readInt32 (buf.drop 16)
    (s.answer i (.scrape complete incomplete downloaded)).close i

def onReceive (tokenExpiry : ℕ) (ep : Endpoint) (byName : Bool) (buf : List UInt8) (o : Oracle) : TrackerManager :=
  let c := s.conns i
  if c.state = .error then s
  else if c.abort then s
  else if ¬ c.target.address.isUnspecified ∧ c.target ≠ ep then s
  else if buf.length < 8 then s
  else
    let action := Action.ofNat? (Peer.bigEndian (buf.take 4))
    let transaction := Peer.bigEndian ((buf.drop 4).take 4)
    if c.transactionId ≠ transaction then s
    else if action = some .error then s.fail i .trackerFailure .bittorrent buf
    else if action ≠ some c.state then s
    else
      match c.state with
      | .connect => s.onConnectResponse i tokenExpiry ep byName buf o
      | .announce => s.onAnnounceResponse i buf
      | .scrape => s.onScrapeResponse i buf
      | .error => s

/-- Both functions `incoming_packet`. The source of a packet is an endpoint, or a name that is taken for the
target. -/
def incomingPacket (tokenExpiry : ℕ) (source : Option Endpoint) (buf : List UInt8) (o : Oracle) : TrackerManager :=
  if buf.length < (if source.isSome then 8 else 16) then s
  else if 3 < Peer.bigEndian (buf.take 4) then s
  else
    match s.udpConns (Peer.bigEndian ((buf.drop 4).take 4)) with
    | none => s
    | some i => s.onReceive i tokenExpiry (source.getD (s.conns i).target) source.isNone buf o

/-- `queue_request` and `start`. The URL of the tracker may be no good. -/
def queueRequest (req : TrackerRequest) (parseError : Option ErrorCode) (o : Oracle) : TrackerManager :=
  let i := s.queued
  let s := { s with
    queued := i + 1
    conns := Function.update s.conns i { req, transactionId := o.newTid }
    udpConns := Function.update s.udpConns o.newTid (some i) }
  match parseError with
  | some ec => s.trackerFail i ec .parseAddress []
  | none => (s.modifyConn i ({ · with resolving := true })).setTimeout i

end TrackerManager

/-- What can happen to the requests. -/
inductive TrackerEvent
  | queueRequest (req : TrackerRequest) (parseError : Option ErrorCode)
  | nameLookup (i : ℕ) (error : Option ErrorCode) (addresses : List Address) (port : ℕ)
  -- the timer that is waited for has run out: its handler is posted
  | timerDue (i : ℕ)
  -- one of the posted handlers runs
  | run (k : ℕ)
  | incomingPacket (source : Option Endpoint) (buf : List UInt8)
  | closeListenSocket (i : ℕ)
  | tick (d : ℕ)

namespace TrackerManager

/-- A posted handler runs. -/
def runHandler (s : TrackerManager) (i : ℕ) (o : Oracle) : Handler → TrackerManager
  | .startAnnounce => s.startAnnounce i o
  | .failImpl ec op msg => s.failImpl i ec op msg
  | .timeoutCallback aborted => s.timeoutCallback i aborted o

/-- One event, where it can happen. -/
def step (tokenExpiry : ℕ) (s : TrackerManager) (o : Oracle) : TrackerEvent → Option TrackerManager
  | .queueRequest req parseError => some (s.queueRequest req parseError o)
  | .nameLookup i error addresses port =>
    if (s.conns i).resolving then some (s.nameLookup i error addresses port o) else none
  | .timerDue i =>
    if (s.conns i).waiting then
      some ((s.modifyConn i ({ · with waiting := false })).post i (.timeoutCallback false))
    else none
  | .run k =>
    match s.posted[k]? with
    | none => none
    | some (i, h) => some ({ s with posted := s.posted.eraseIdx k }.runHandler i o h)
  | .incomingPacket source buf => some (s.incomingPacket tokenExpiry source buf o)
  | .closeListenSocket i => some (s.modifyConn i ({ · with outgoingSocket := false }))
  | .tick d => some { s with now := s.now + d }

end TrackerManager

end Tracker

end LibtorrentSN
