import LibtorrentSN.Peer.PeerList

/-!
# Connections that cross

Two clients that connect to each other at the same time both see two connections, and each of them drops
one when its peer list gets to know the second. The rule they decide by compares the ports both listen
on, so that they drop the same one, in whichever order each of them comes to know the connections.
-/

namespace LibtorrentSN

namespace PeerList

variable {α : Type} [LinearOrder α] {s s' : PeerList α} {st : TorrentState} {env : PeerEnv α} {c c₁ c₂ : ℕ}

/-! ## Finding an entry again -/

omit [LinearOrder α] in
theorem lt_fresh {i : ℕ} (h : i ∈ s.peers) : i < s.fresh := by
  have hle : ∀ l : List ℕ, i ∈ l → i ≤ l.foldr max 0 := by
    intro l
    induction l with
    | nil => exact fun h => by cases h
    | cons x l ih =>
      intro h
      rcases List.mem_cons.mp h with rfl | h
      · exact Nat.le_max_left _ _
      · exact (ih h).trans (Nat.le_max_right _ _)
  exact Nat.lt_succ_of_le (hle _ h)

theorem insertIdx_length_append {β : Type} (l l' : List β) (x : β) :
    (l ++ l').insertIdx l.length x = l ++ x :: l' := by
  induction l with
  | nil => exact List.insertIdx_zero
  | cons y l ih => rw [List.cons_append, List.length_cons, List.insertIdx_succ_cons, ih, List.cons_append]

/-- The entry that connections from the address `a` belong to. -/
def Finds (s : PeerList α) (a : α) (i : ℕ) : Prop :=
  s.peers[s.lowerBound a]? = some i ∧ (s.entry i).address = a

theorem findPeer_of_finds (hm : st.allowMultipleConnectionsPerIp = false) {e : Endpoint α} {i : ℕ}
    (h : s.Finds e.address i) : s.findPeer st e = (some (s.lowerBound e.address), s.lowerBound e.address) ∧
      s.peers.getD (s.lowerBound e.address) 0 = i := by
  rw [findPeer, hm, if_neg Bool.false_ne_true, List.getD_eq_getElem?_getD]
  dsimp only
  rw [h.1]
  dsimp only
  rw [if_pos h.2]
  exact ⟨rfl, rfl⟩

theorem finds_of_findPeer (hm : st.allowMultipleConnectionsPerIp = false) {e : Endpoint α} {k k' : ℕ}
    (h : s.findPeer st e = (some k, k')) : s.Finds e.address (s.peers.getD k 0) := by
  rw [findPeer, hm, if_neg Bool.false_ne_true] at h
  dsimp only at h
  rw [Finds]
  rcases hk : s.peers[s.lowerBound e.address]? with - | i <;> rw [hk] at h
  · cases h
  · dsimp only at h
    split_ifs at h with ha
    · obtain rfl := Option.some.inj (Prod.mk.inj h).1
      rw [List.getD_eq_getElem?_getD, hk]
      exact ⟨rfl, ha⟩
    · cases h

theorem findPeer_none (hm : st.allowMultipleConnectionsPerIp = false) {e : Endpoint α} {k : ℕ}
    (h : s.findPeer st e = (none, k)) : k = s.lowerBound e.address := by
  rw [findPeer, hm, if_neg Bool.false_ne_true] at h
  exact (Prod.mk.inj h).2.symm

/-- A connection is attached to its entry, wherever that is found. -/
theorem Finds.attach {a : α} {i : ℕ} (h : s.Finds a i) : (s.attach env i c).Finds a i := by
  have haddr : ∀ j, ((s.attach env i c).entry j).address = (s.entry j).address := by
    intro j
    rw [PeerList.attach, modify_entry]
    by_cases hj : j = i
    · rw [if_pos hj, hj]
    · rw [if_neg hj]
  have hbound : (s.attach env i c).lowerBound a = s.lowerBound a := by
    rw [lowerBound, lowerBound]
    simp only [haddr]
    rfl
  exact ⟨by rw [hbound]; exact h.1, by rw [haddr]; exact h.2⟩

omit [LinearOrder α] in
theorem attach_connection (i : ℕ) : ((s.attach env i c).entry i).connection = some c ∧
    ((s.attach env i c).entry i).banned = (s.entry i).banned := by
  rw [attach, modify_entry, if_pos rfl]
  exact ⟨rfl, rfl⟩

/-- A new entry is found where it has been inserted. -/
theorem finds_insertAt {a : α} {p : TorrentPeer α} (hp : p.address = a) :
    (({ s with entry := Function.update s.entry s.fresh p } : PeerList α).insertAt (s.lowerBound a)
      s.fresh).Finds a s.fresh := by
  set before := s.peers.takeWhile fun i => (s.entry i).address < a with hbefore
  have hsplit : s.peers = before ++ s.peers.dropWhile fun i => (s.entry i).address < a :=
    (List.takeWhile_append_dropWhile).symm
  have hpeers : s.peers.insertIdx (s.lowerBound a) s.fresh =
      before ++ s.fresh :: s.peers.dropWhile fun i => (s.entry i).address < a := by
    have hlen : s.lowerBound a = before.length := rfl
    rw [hlen]
    conv_lhs => rw [hsplit]
    exact insertIdx_length_append _ _ _
  have hold : ∀ i ∈ before, decide ((Function.update s.entry s.fresh p i).address < a) = true := by
    intro i hi
    have hmem : i ∈ s.peers := (List.takeWhile_prefix _).subset hi
    rw [Function.update_of_ne (lt_fresh hmem).ne]
    exact List.mem_takeWhile_imp (p := fun i => decide ((s.entry i).address < a)) hi
  have hnew : (Function.update s.entry s.fresh p s.fresh).address = a := by
    rw [Function.update_self, hp]
  have hbound : (({ s with entry := Function.update s.entry s.fresh p } : PeerList α).insertAt (s.lowerBound a)
      s.fresh).lowerBound a = before.length := by
    rw [lowerBound, insertAt]
    dsimp only
    rw [hpeers, List.takeWhile_append_of_pos hold, List.takeWhile_cons_of_neg, List.append_nil]
    rw [hnew]
    exact fun hc => lt_irrefl a (of_decide_eq_true hc)
  refine ⟨?_, hnew⟩
  rw [hbound, insertAt]
  dsimp only
  rw [hpeers, List.getElem?_append_right (Nat.le_refl _), Nat.sub_self]
  rfl

/-! ## The first connection and the second -/

/-- A connection that is accepted in place of no other is the connection of its entry. -/
theorem newConnection_first (hm : st.allowMultipleConnectionsPerIp = false)
    (h : s.newConnection st env c = (true, [], s')) : ∃ i, s'.Finds (env.conn c).remote.address i ∧
      (s'.entry i).connection = some c ∧ (s'.entry i).banned = false := by
  rw [newConnection] at h
  dsimp only at h
  have henroll : ∀ t : PeerList α, s' = t.enroll env (t.lowerBound (env.conn c).remote.address) c →
      ∃ i, s'.Finds (env.conn c).remote.address i ∧ (s'.entry i).connection = some c ∧
        (s'.entry i).banned = false := by
    rintro t rfl
    refine ⟨t.fresh, Finds.attach (finds_insertAt rfl), (attach_connection _).1, ?_⟩
    refine (attach_connection _).2.trans ?_
    rw [insertAt]
    dsimp only
    rw [Function.update_self]
  split at h
  · next k k' hfind =>
    have hf := finds_of_findPeer hm hfind
    set i := s.peers.getD k 0
    by_cases hb : (s.entry i).banned = true
    · rw [if_pos hb] at h
      cases h
    rw [if_neg hb] at h
    rw [Bool.not_eq_true] at hb
    rcases hconn : (s.entry i).connection with - | old <;> rw [hconn] at h
    · obtain rfl := (Prod.mk.inj (Prod.mk.inj h).2).2
      have hf' : (s.uncount i).Finds (env.conn c).remote.address i := by
        rw [uncount, updateConnectCandidates]
        split_ifs <;> exact hf
      have hb' : ((s.uncount i).entry i).banned = false := by
        rw [uncount, updateConnectCandidates]
        split_ifs <;> exact hb
      exact ⟨i, Finds.attach hf', (attach_connection i).1, (attach_connection i).2.trans hb'⟩
    · dsimp only at h
      split_ifs at h <;> cases h
  · next k hfind =>
    obtain rfl := findPeer_none hm hfind
    split_ifs at h
    · cases h
    · cases h
    · exact henroll _ (Prod.mk.inj (Prod.mk.inj h).2).2.symm
    · cases h
    · exact henroll _ (Prod.mk.inj (Prod.mk.inj h).2).2.symm

/-- The second connection of a peer: one of the two is dropped. -/
theorem newConnection_second (hm : st.allowMultipleConnectionsPerIp = false) {i : ℕ}
    (hf : s.Finds (env.conn c₂).remote.address i) (hconn : (s.entry i).connection = some c₁)
    (hb : (s.entry i).banned = false) (hself₁ : (env.conn c₁).remote ≠ (env.conn c₂).localEndpoint)
    (hself₂ : (env.conn c₁).localEndpoint ≠ (env.conn c₂).remote)
    (hdir : (env.conn c₁).isOutgoing ≠ (env.conn c₂).isOutgoing) :
    (s.newConnection st env c₂).2.1 = [if disconnect1 env c₁ c₂ then c₂ else c₁] := by
  obtain ⟨hfind, hget⟩ := findPeer_of_finds hm hf
  rw [newConnection]
  dsimp only
  rw [hfind]
  dsimp only
  rw [hget, if_neg (by rw [hb]; exact Bool.false_ne_true), hconn]
  dsimp only
  rw [if_neg (not_or.mpr ⟨hself₁, hself₂⟩), if_neg hdir]
  split_ifs <;> rfl

/-! ## Both ends -/

/-- The connections `ab`, made by the client A, and `ba`, made by the client B, as one of the two ends sees
them: `own` is the connection it made and `other` the one it accepted. It listens on the port `ours`, and
the other end on `theirs`. -/
structure Crossing (conn : ℕ → PeerConnection α) (own other ours theirs : ℕ) : Prop where
  address : (conn own).remote.address = (conn other).remote.address
  outgoing : (conn own).isOutgoing = true
  incoming : (conn other).isOutgoing = false
  ours : (conn other).localEndpoint.port = ours
  theirs : (conn own).remote.port = theirs
  ownGood : (conn own).failed = false
  otherGood : (conn other).failed = false

/-- The connections that are dropped when a list gets to know `c₁` and then `c₂`. -/
def dropped (s : PeerList α) (st : TorrentState) (env : PeerEnv α) (c₁ c₂ : ℕ) : List ℕ :=
  (s.newConnection st env c₁).2.1 ++ ((s.newConnection st env c₁).2.2.newConnection st env c₂).2.1

omit [LinearOrder α] in
/-- The accepted connection is the second: it is dropped by the end with the lower port. -/
theorem disconnect1_incoming {own other ours theirs : ℕ} (h : Crossing env.conn own other ours theirs)
    (hne : ours ≠ theirs) : disconnect1 env own other = decide (ours < theirs) := by
  rw [disconnect1, h.incoming, h.ownGood]
  simp [h.ours, h.theirs, hne]

omit [LinearOrder α] in
/-- The connection it made is the second: it is dropped by the end with the higher port. -/
theorem disconnect1_outgoing {own other ours theirs : ℕ} (h : Crossing env.conn own other ours theirs)
    (hne : ours ≠ theirs) : disconnect1 env other own = decide (theirs < ours) := by
  rw [disconnect1, h.outgoing, h.otherGood]
  simp [h.ours, h.theirs, hne]

/-- One end. The connection it made survives if its port is the lower one. -/
theorem dropped_eq {own other ours theirs : ℕ} (h : Crossing env.conn own other ours theirs)
    (hne : ours ≠ theirs) (hm : st.allowMultipleConnectionsPerIp = false)
    (hself : (env.conn own).localEndpoint ≠ (env.conn other).remote)
    (hc : c₁ = own ∧ c₂ = other ∨ c₁ = other ∧ c₂ = own)
    (hfirst : (s.newConnection st env c₁).1 = true ∧ (s.newConnection st env c₁).2.1 = []) :
    s.dropped st env c₁ c₂ = [if ours < theirs then other else own] := by
  obtain ⟨h₁, h₂⟩ := hfirst
  have hone : s.newConnection st env c₁ = (true, [], (s.newConnection st env c₁).2.2) :=
    Prod.ext h₁ (Prod.ext h₂ rfl)
  obtain ⟨i, hf, hconn, hb⟩ := newConnection_first hm hone
  have hports : (env.conn other).localEndpoint ≠ (env.conn own).remote := by
    intro hc
    rw [← h.ours, ← h.theirs, hc] at hne
    exact hne rfl
  rw [dropped, h₂, List.nil_append]
  rcases hc with ⟨rfl, rfl⟩ | ⟨rfl, rfl⟩
  · -- the second connection is the one that was accepted
    rw [h.address] at hf
    rw [newConnection_second hm hf hconn hb (Ne.symm hports) hself (by rw [h.outgoing, h.incoming]; decide),
      disconnect1_incoming h hne]
    simp only [decide_eq_true_eq]
  · rw [← h.address] at hf
    rw [newConnection_second hm hf hconn hb (Ne.symm hself) hports (by rw [h.outgoing, h.incoming]; decide),
      disconnect1_outgoing h hne]
    rcases Nat.lt_or_gt_of_ne hne with hlt | hlt
    · rw [if_pos hlt, if_neg (by simpa using hlt.le)]
    · rw [if_neg (Nat.lt_asymm hlt), if_pos (by simpa using hlt)]

end PeerList

open PeerList in
/-- Two clients whose connections cross drop the same one of them, the one that was made by the client with the
higher port, in whichever order each gets to know them, if neither allows several connections of an address and the
two connections were not made from equal endpoints. -/
theorem duplicates_agree {α : Type} [LinearOrder α] {sA sB : PeerList α} {stA stB : TorrentState}
    {envA envB : PeerEnv α} {ab ba portA portB a₁ a₂ b₁ b₂ : ℕ} (hA : Crossing envA.conn ab ba portA portB)
    (hB : Crossing envB.conn ba ab portB portA) (hne : portA ≠ portB)
    (horderA : a₁ = ab ∧ a₂ = ba ∨ a₁ = ba ∧ a₂ = ab) (horderB : b₁ = ba ∧ b₂ = ab ∨ b₁ = ab ∧ b₂ = ba)
    (hmA : stA.allowMultipleConnectionsPerIp = false) (hmB : stB.allowMultipleConnectionsPerIp = false)
    (hselfA : (envA.conn ab).localEndpoint ≠ (envA.conn ba).remote)
    (hselfB : (envB.conn ba).localEndpoint ≠ (envB.conn ab).remote)
    (hfirstA : (sA.newConnection stA envA a₁).1 = true ∧ (sA.newConnection stA envA a₁).2.1 = [])
    (hfirstB : (sB.newConnection stB envB b₁).1 = true ∧ (sB.newConnection stB envB b₁).2.1 = []) :
    sA.dropped stA envA a₁ a₂ = [if portA < portB then ba else ab] ∧
      sB.dropped stB envB b₁ b₂ = [if portA < portB then ba else ab] := by
  have hdropA := dropped_eq hA hne hmA hselfA horderA hfirstA
  have hdropB := dropped_eq hB hne.symm hmB hselfB horderB hfirstB
  rcases Nat.lt_or_gt_of_ne hne with hlt | hlt
  · rw [if_neg (Nat.lt_asymm hlt)] at hdropB
    rw [if_pos hlt] at hdropA ⊢
    exact ⟨hdropA, hdropB⟩
  · rw [if_pos hlt] at hdropB
    rw [if_neg (Nat.lt_asymm hlt)] at hdropA ⊢
    exact ⟨hdropA, hdropB⟩

section Examples

open PeerList

/-- A client that listens at `ours` and has connected to the one at `theirs` from the port `ownFrom`;
the other client has connected from the port `theirFrom`. -/
def crossingConn (own : ℕ) (ours theirs : Endpoint ℕ) (ownFrom theirFrom : ℕ) : ℕ → PeerConnection ℕ := fun c =>
  if c = own then ⟨theirs, ⟨ours.address, ownFrom⟩, true, false, false⟩
  else ⟨⟨theirs.address, theirFrom⟩, ours, false, false, false⟩

theorem crossingConn_crossing {own other : ℕ} (h : other ≠ own) (ours theirs : Endpoint ℕ) (ownFrom theirFrom : ℕ) :
    Crossing (crossingConn own ours theirs ownFrom theirFrom) own other ours.port theirs.port := by
  refine ⟨?_, ?_, ?_, ?_, ?_, ?_, ?_⟩ <;> simp [crossingConn, h]

/-- A list without entries. -/
def noPeers : PeerList ℕ := { peers := [], entry := fun _ => { address := 0, port := 0, connectable := false, source := 0 } }

/-- Two hosts. The connection of the second one, with the higher port, is dropped. -/
theorem duplicates_agree_hosts :
    noPeers.dropped {} { conn := crossingConn 0 ⟨1, 6881⟩ ⟨2, 6882⟩ 50001 50002 } 0 1 = [1] ∧
      noPeers.dropped {} { conn := crossingConn 1 ⟨2, 6882⟩ ⟨1, 6881⟩ 50002 50001 } 0 1 = [1] := by
  have hdrop : noPeers.dropped {} { conn := crossingConn 0 ⟨1, 6881⟩ ⟨2, 6882⟩ 50001 50002 } 0 1 =
        [if 6881 < 6882 then 1 else 0] ∧
      noPeers.dropped {} { conn := crossingConn 1 ⟨2, 6882⟩ ⟨1, 6881⟩ 50002 50001 } 0 1 =
        [if 6881 < 6882 then 1 else 0] :=
    duplicates_agree
      (crossingConn_crossing (by decide) ⟨1, 6881⟩ ⟨2, 6882⟩ 50001 50002)
      (crossingConn_crossing (by decide) ⟨2, 6882⟩ ⟨1, 6881⟩ 50002 50001) (by decide)
      (.inl ⟨rfl, rfl⟩) (.inr ⟨rfl, rfl⟩) rfl rfl (by decide) (by decide) (by decide) (by decide)
  exact hdrop

/-- Where several connections of an address are allowed, no duplicate is seen. Two clients on one host whose
connections were made from the same port both take them for connections to themselves, and drop both. -/
theorem duplicates_not_agree :
    (¬ ∀ (stA stB : TorrentState) (envA envB : PeerEnv ℕ) (ab ba portA portB : ℕ),
      Crossing envA.conn ab ba portA portB → Crossing envB.conn ba ab portB portA → portA ≠ portB →
        (envA.conn ab).localEndpoint ≠ (envA.conn ba).remote →
          (envB.conn ba).localEndpoint ≠ (envB.conn ab).remote →
            ∃ c, noPeers.dropped stA envA ab ba = [c] ∧ noPeers.dropped stB envB ba ab = [c]) ∧
      ¬ ∀ (envA envB : PeerEnv ℕ) (ab ba portA portB : ℕ),
        Crossing envA.conn ab ba portA portB → Crossing envB.conn ba ab portB portA → portA ≠ portB →
          ∃ c, noPeers.dropped {} envA ab ba = [c] ∧ noPeers.dropped {} envB ba ab = [c] := by
  constructor
  · intro h
    obtain ⟨c, hc, -⟩ := h { allowMultipleConnectionsPerIp := true } { allowMultipleConnectionsPerIp := true }
      { conn := crossingConn 0 ⟨1, 6881⟩ ⟨2, 6882⟩ 50001 50002 }
      { conn := crossingConn 1 ⟨2, 6882⟩ ⟨1, 6881⟩ 50002 50001 } 0 1 6881 6882
      (crossingConn_crossing (by decide) ⟨1, 6881⟩ ⟨2, 6882⟩ 50001 50002)
      (crossingConn_crossing (by decide) ⟨2, 6882⟩ ⟨1, 6881⟩ 50002 50001) (by decide) (by decide) (by decide)
    have hnone : noPeers.dropped { allowMultipleConnectionsPerIp := true }
        { conn := crossingConn 0 ⟨1, 6881⟩ ⟨2, 6882⟩ 50001 50002 } 0 1 = [] := by decide
    rw [hnone] at hc
    cases hc
  · intro h
    obtain ⟨c, hc, -⟩ := h { conn := crossingConn 0 ⟨1, 6881⟩ ⟨1, 6882⟩ 50001 50001 }
      { conn := crossingConn 1 ⟨1, 6882⟩ ⟨1, 6881⟩ 50001 50001 } 0 1 6881 6882
      (crossingConn_crossing (by decide) ⟨1, 6881⟩ ⟨1, 6882⟩ 50001 50001)
      (crossingConn_crossing (by decide) ⟨1, 6882⟩ ⟨1, 6881⟩ 50001 50001) (by decide)
    have hboth : noPeers.dropped {} { conn := crossingConn 0 ⟨1, 6881⟩ ⟨1, 6882⟩ 50001 50001 } 0 1 = [1, 0] := by
      decide
    rw [hboth] at hc
    cases hc

end Examples

end LibtorrentSN
