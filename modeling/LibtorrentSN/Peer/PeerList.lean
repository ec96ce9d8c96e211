import Mathlib

/-!
# The peer list

`peer_list` keeps what a torrent knows of the peers it could connect to, sorted by address, together with
the number of those worth connecting to, the number of seeds, a cache of good candidates and the place
where the next scan of the list starts.

The entries are named by numbers for the pointers to them, and so are the connections. What the list asks
of the world around it (its connections, the ranks of its peers, random numbers, memory) comes with
each call.
-/

namespace LibtorrentSN

/-! ## Peers and connections -/

/-- `tcp::endpoint`. -/
structure Endpoint (α : Type) where
  address : α
  port : ℕ
  deriving DecidableEq, Repr

/-- What the list asks of a `peer_connection_interface`. -/
structure PeerConnection (α : Type) where
  remote : Endpoint α
  localEndpoint : Endpoint α
  isOutgoing : Bool
  failed : Bool
  fastReconnect : Bool
  deriving DecidableEq, Repr

namespace PeerSource

def resumeData : ℕ := 2 ^ 4
def incoming : ℕ := 2 ^ 5

end PeerSource

/-- `torrent_peer`. -/
structure TorrentPeer (α : Type) where
  address : α
  port : ℕ
  connectable : Bool
  /-- a set of `PeerSource` bits -/
  source : ℕ
  connection : Option ℕ := none
  lastConnected : ℕ := 0
  /-- has 5 bits -/
  failcount : ℕ := 0
  seed : Bool := false
  maybeUploadOnly : Bool := false
  trustPoints : ℤ := 0
  banned : Bool := false
  supportsUtp : Bool := true
  supportsHolepunch : Bool := false
  deriving DecidableEq, Repr

/-- `torrent_state`. -/
structure TorrentState where
  isFinished : Bool := false
  allowMultipleConnectionsPerIp : Bool := false
  maxPeerlistSize : ℕ := 1000
  minReconnectTime : ℕ := 60
  maxFailcount : ℕ := 3
  deriving DecidableEq, Repr

/-- What a call finds outside the list. -/
structure PeerEnv (α : Type) where
  conn : ℕ → PeerConnection α
  sessionTime : ℕ := 0
  /-- `torrent_peer::rank` of an entry, with our external address and port -/
  rank : ℕ → ℕ := fun _ => 0
  /-- `aux::is_local` -/
  isLocal : α → Bool := fun _ => false
  /-- the unspecified address, and link-local ones -/
  unusable : α → Bool := fun _ => false
  /-- a raw random number -/
  draw : ℕ := 0
  /-- the allocator has room for another entry -/
  allocates : Bool := true

/-- `random(n)`. -/
def PeerEnv.random {α : Type} (env : PeerEnv α) (n : ℕ) : ℕ := env.draw % (n + 1)

/-- `compare_peer_erase(lhs, rhs)`: `lhs` is a better erase candidate. -/
def comparePeerErase {α : Type} (lhs rhs : TorrentPeer α) : Bool :=
  if lhs.failcount ≠ rhs.failcount then rhs.failcount < lhs.failcount
  else if decide (lhs.source = PeerSource.resumeData) ≠ decide (rhs.source = PeerSource.resumeData) then
    lhs.source = PeerSource.resumeData
  else if lhs.connectable ≠ rhs.connectable then !lhs.connectable
  else lhs.trustPoints < rhs.trustPoints

/-- `peer_list`. -/
structure PeerList (α : Type) where
  peers : List ℕ
  entry : ℕ → TorrentPeer α
  lockedPeer : Option ℕ := none
  numSeeds : ℤ := 0
  finished : Bool := false
  roundRobin : ℕ := 0
  candidateCache : List ℕ := []
  numConnectCandidates : ℤ := 0
  maxFailcount : ℕ := 3

namespace PeerList

variable {α : Type} [LinearOrder α] (s : PeerList α) (st : TorrentState) (env : PeerEnv α)

/-! ## Candidates -/

/-- `is_connect_candidate` of the data of an entry. -/
def candidate (p : TorrentPeer α) : Prop :=
  p.connection = none ∧ p.banned = false ∧ p.connectable = true ∧ ¬ (p.seed = true ∧ s.finished = true) ∧
    p.failcount < s.maxFailcount

instance (p : TorrentPeer α) : Decidable (s.candidate p) := inferInstanceAs (Decidable (_ ∧ _ ∧ _ ∧ _ ∧ _))

def isConnectCandidate (i : ℕ) : Prop := s.candidate (s.entry i)

instance (i : ℕ) : Decidable (s.isConnectCandidate i) := inferInstanceAs (Decidable (s.candidate _))

/-- `is_erase_candidate`. -/
def isEraseCandidate (i : ℕ) : Prop :=
  s.lockedPeer ≠ some i ∧ (s.entry i).connection = none ∧ ¬ s.isConnectCandidate i ∧
    (0 < (s.entry i).failcount ∨ (s.entry i).source = PeerSource.resumeData)

instance (i : ℕ) : Decidable (s.isEraseCandidate i) := inferInstanceAs (Decidable (_ ∧ _ ∧ _ ∧ _))

def isForceEraseCandidate (i : ℕ) : Prop := s.lockedPeer ≠ some i ∧ (s.entry i).connection = none

instance (i : ℕ) : Decidable (s.isForceEraseCandidate i) := inferInstanceAs (Decidable (_ ∧ _))

def shouldEraseImmediately (i : ℕ) : Prop := s.lockedPeer ≠ some i ∧ (s.entry i).source = PeerSource.resumeData

instance (i : ℕ) : Decidable (s.shouldEraseImmediately i) := inferInstanceAs (Decidable (_ ∧ _))

/-- `update_connect_candidates`. -/
def updateConnectCandidates (delta : ℤ) : PeerList α :=
  if delta = 0 then s
  else
    let n := s.numConnectCandidates + delta
    { s with numConnectCandidates := if delta < 0 ∧ n < 0 then 0 else n }

/-- `recalculate_connect_candidates`. -/
def recalculateConnectCandidates : PeerList α :=
  let s := { s with finished := st.isFinished, maxFailcount := st.maxFailcount }
  { s with numConnectCandidates := s.peers.countP (s.isConnectCandidate ·) }

/-- `if (bool(m_finished) != state->is_finished) recalculate_connect_candidates(state)`. -/
def refresh : PeerList α := if s.finished ≠ st.isFinished then s.recalculateConnectCandidates st else s

/-- The entry `i` is about to be no candidate any more. -/
def uncount (i : ℕ) : PeerList α := if s.isConnectCandidate i then s.updateConnectCandidates (-1) else s

/-- The entry `i` has become a candidate, if it is one. -/
def count (i : ℕ) : PeerList α := if s.isConnectCandidate i then s.updateConnectCandidates 1 else s

/-- `state->max_peerlist_size && int(m_peers.size()) >= state->max_peerlist_size`. -/
def full : Prop := st.maxPeerlistSize ≠ 0 ∧ st.maxPeerlistSize ≤ s.peers.length

instance : Decidable (s.full st) := inferInstanceAs (Decidable (_ ∧ _))

/-- Change the data of an entry. -/
def modify (i : ℕ) (f : TorrentPeer α → TorrentPeer α) : PeerList α :=
  { s with entry := Function.update s.entry i (f (s.entry i)) }

omit [LinearOrder α] in
theorem modify_entry (i j : ℕ) (f : TorrentPeer α → TorrentPeer α) :
    (s.modify i f).entry j = if j = i then f (s.entry i) else s.entry j :=
  Function.update_apply _ _ _ _

/-! ## Searching -/

/-- `std::lower_bound`: the place of the first entry that is not before an address. -/
def lowerBound (a : α) : ℕ := (s.peers.takeWhile fun i => (s.entry i).address < a).length

/-- The end of `find_peers(a)`: the place of the first entry after an address. -/
def upperBound (a : α) : ℕ := (s.peers.takeWhile fun i => (s.entry i).address ≤ a).length

/-- The place of the entry with an endpoint, in the range `find_peers` gives for its address. -/
def findEndpoint (e : Endpoint α) : Option ℕ :=
  s.peers.findIdx? fun i => (s.entry i).address = e.address ∧ (s.entry i).port = e.port

/-- The place of the entry a connection from `e` belongs to, or the place where it is to be inserted. -/
def findPeer (e : Endpoint α) : Option ℕ × ℕ :=
  if st.allowMultipleConnectionsPerIp then (s.findEndpoint e, s.upperBound e.address)
  else
    let k := s.lowerBound e.address
    (match s.peers[k]? with
      | none => none
      | some i => if (s.entry i).address = e.address then some k else none, k)

/-! ## Inserting and erasing -/

/-- A name for a new entry. -/
def fresh : ℕ := s.peers.foldr max 0 + 1

/-- Insert an entry at the place `k`, and keep the round robin where it was. -/
def insertAt (k i : ℕ) : PeerList α :=
  { s with
    peers := s.peers.insertIdx k i
    roundRobin := if k ≤ s.roundRobin then s.roundRobin + 1 else s.roundRobin }

/-- `erase_peer(iterator)`. -/
def eraseAt (k : ℕ) : PeerList α :=
  match s.peers[k]? with
  | none => s
  | some i =>
    let s := if (s.entry i).seed then { s with numSeeds := s.numSeeds - 1 } else s
    let s := s.uncount i
    let rr := if k < s.roundRobin then s.roundRobin - 1 else s.roundRobin
    { s with
      roundRobin := if s.peers.length ≤ rr then 0 else rr
      candidateCache := s.candidateCache.erase i
      peers := s.peers.eraseIdx k }

/-- `erase_peer(torrent_peer*)`. -/
def erasePeer (i : ℕ) : PeerList α :=
  match s.findEndpoint ⟨(s.entry i).address, (s.entry i).port⟩ with
  | none => s
  | some k => s.eraseAt k

/-- The place `c` once the entry at `current` is gone. -/
def shift (current : ℕ) (c : Option ℕ) : Option ℕ := c.map fun e => if current < e then e - 1 else e

/-- A better erase candidate than the one at the place `c`. -/
def improves (c : Option ℕ) (i : ℕ) : Prop :=
  match c with
  | none => True
  | some e => comparePeerErase (s.entry (s.peers.getD e 0)) (s.entry i) = false

instance (c : Option ℕ) (i : ℕ) : Decidable (s.improves c i) := by
  unfold improves
  split <;> infer_instance

/-- The loop of `erase_peers`: `rr` is its round robin, `erase` and `force` are the places of the best
candidates so far. -/
def erasePeersLoop (lowWatermark : ℕ) : ℕ → PeerList α → ℕ → Option ℕ → Option ℕ →
    PeerList α × Option ℕ × Option ℕ
  | 0, s, _, erase, force => (s, erase, force)
  | n + 1, s, rr, erase, force =>
    if s.peers.length < lowWatermark then (s, erase, force)
    else
      let rr := if rr = s.peers.length then 0 else rr
      let pe := s.peers.getD rr 0
      let better := s.isEraseCandidate pe ∧ s.improves erase pe
      if better ∧ s.shouldEraseImmediately pe then
        erasePeersLoop lowWatermark n (s.eraseAt rr) rr (shift rr erase) (shift rr force)
      else
        let erase := if better then some rr else erase
        let force := if s.isForceEraseCandidate pe ∧ s.improves force pe then some rr else force
        erasePeersLoop lowWatermark n s (rr + 1) erase force

/-- `erase_peers(state, flags)`. -/
def erasePeers (forceErase : Bool) : PeerList α :=
  if st.maxPeerlistSize = 0 ∨ s.peers = [] then s
  else
    let s := s.refresh st
    let low := st.maxPeerlistSize * 95 / 100
    let low := if low = st.maxPeerlistSize then low - 1 else low
    let r := erasePeersLoop low (min s.peers.length 300) s (env.random (s.peers.length - 1)) none none
    match r.2.1, r.2.2 with
    | some k, _ => r.1.eraseAt k
    | none, some k => if forceErase then r.1.eraseAt k else r.1
    | none, none => r.1

/-! ## Connections -/

/-- `connection_closed` for the connection `c` of the entry `i`. -/
def connectionClosed (i : ℕ) (failed fastReconnect : Bool) : PeerList α :=
  let s := s.modify i fun p => { p with
    connection := none
    lastConnected := if fastReconnect then p.lastConnected else env.sessionTime % 2 ^ 16
    failcount := if failed ∧ p.failcount < 31 then p.failcount + 1 else p.failcount }
  let s := s.count i
  if st.allowMultipleConnectionsPerIp ∧ (s.entry i).connectable = false ∧ s.lockedPeer ≠ some i then
    s.erasePeer i
  else s

/-- Disconnect the connection of an entry. The torrent tells the list about it at once. -/
def disconnect (i : ℕ) (failure : Bool) : PeerList α :=
  match (s.entry i).connection with
  | none => s
  | some c => s.connectionClosed st env i ((env.conn c).failed || failure) (env.conn c).fastReconnect

/-- The end of `new_connection`: `c` is now the connection of the entry `i`. -/
def attach (i c : ℕ) : PeerList α :=
  s.modify i fun p => { p with
    connection := some c
    lastConnected := if (env.conn c).fastReconnect then p.lastConnected else env.sessionTime % 2 ^ 16 }

/-- The known entry `i` gets the connection `c`. -/
def accept (i c : ℕ) : PeerList α := (s.uncount i).attach env i c

/-- The entry `i` gets the connection `c` instead of the one it has. It is locked while that is
disconnected. -/
def replace (i c : ℕ) : PeerList α :=
  let s := ({ s with lockedPeer := some i } : PeerList α).disconnect st env i false
  ({ s with lockedPeer := none } : PeerList α).accept env i c

/-- A new entry at the place `k` for the connection `c`. -/
def enroll (k c : ℕ) : PeerList α :=
  let remote := (env.conn c).remote
  let p : TorrentPeer α :=
    { address := remote.address, port := remote.port, connectable := false, source := PeerSource.incoming }
  (({ s with entry := Function.update s.entry s.fresh p } : PeerList α).insertAt k s.fresh).attach env s.fresh c

/-- The connection `c` is to be dropped for the connection `old` of the same peer: whoever has the lower
port keeps its outgoing connection. -/
def disconnect1 (old c : ℕ) : Bool :=
  let outgoing1 := (env.conn c).isOutgoing
  let ourPort := if outgoing1 then (env.conn old).localEndpoint.port else (env.conn c).localEndpoint.port
  let otherPort := if outgoing1 then (env.conn c).remote.port else (env.conn old).remote.port
  ((decide (ourPort < otherPort) && !outgoing1) || (decide (otherPort < ourPort) && outgoing1) ||
    (decide (ourPort = otherPort) && decide (env.random 1 ≠ 0))) && !(env.conn old).failed

/-- `new_connection(c)`: whether `c` is accepted, and the connections that are disconnected. -/
def newConnection (c : ℕ) : Bool × List ℕ × PeerList α :=
  let remote := (env.conn c).remote
  match s.findPeer st remote with
  | (some k, _) =>
    let i := s.peers.getD k 0
    if (s.entry i).banned then (false, [c], s)
    else
      match (s.entry i).connection with
      | none => (true, [], s.accept env i c)
      | some old =>
        -- a connection to ourselves
        if (env.conn old).remote = (env.conn c).localEndpoint ∨ (env.conn old).localEndpoint = remote then
          (false, [c, old], s.disconnect st env i true)
        else if (env.conn old).isOutgoing = (env.conn c).isOutgoing then (false, [c], s)
        else if disconnect1 env old c then (false, [c], s)
        else (true, [old], s.replace st env i c)
  | (none, k) =>
    if s.full st then
      let s := s.erasePeers st env true
      if s.full st then (false, [c], s)
      else if env.allocates = false then (false, [], s)
      else (true, [], s.enroll env (s.lowerBound remote.address) c)
    else if env.allocates = false then (false, [], s)
    else (true, [], s.enroll env k c)

end PeerList

end LibtorrentSN
