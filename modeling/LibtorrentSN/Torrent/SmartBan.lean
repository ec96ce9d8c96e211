import Mathlib

/-!
# Smart ban

When a piece fails its hash check, the blocks are read back and their digests are kept with the peers that
sent them; when the piece passes, the peers whose blocks differ are banned (`src/smart_ban.cpp`). A peer is
looked up by address when a read completes. A `torrent_peer` is a pointer in the source, and its memory is
used again; here a peer also has an identity, which the code does not see.
-/

namespace LibtorrentSN

namespace Torrent

structure PieceBlock where
  pieceIndex : ℕ
  blockIndex : ℕ
  deriving DecidableEq

structure TorrentPeer (Address : Type) where
  id : ℕ
  ptr : ℕ
  address : Address
  banned : Bool := false

/-- `owner` is the peer that the entry is about. -/
structure BlockEntry (Digest : Type) where
  peer : ℕ
  digest : Digest
  owner : ℕ

/-- A read of a block that failed. It returns what the block was when it was issued. -/
structure FailedRead (Address Content : Type) where
  block : PieceBlock
  address : Address
  content : Content
  sender : ℕ

structure OkRead (Address Content Digest : Type) where
  block : PieceBlock
  entry : BlockEntry Digest
  address : Address
  content : Content

/-- A call of `ban_peer`. The content is that of the piece that passes. -/
structure Ban (Content : Type) where
  peer : ℕ
  block : PieceBlock
  passed : Option Content

structure SmartBan (Address Content Digest : Type) where
  peers : List (TorrentPeer Address) := []
  nextId : ℕ := 0
  -- the blocks on disk, and the downloaders of the picker
  content : PieceBlock → Content
  downloader : PieceBlock → Option ℕ := fun _ => none
  blockHashes : PieceBlock → Option (BlockEntry Digest) := fun _ => none
  failedReads : List (FailedRead Address Content) := []
  okReads : List (OkRead Address Content Digest) := []
  -- what the peers have sent
  sent : List (ℕ × PieceBlock × Content) := []
  bans : List (Ban Content) := []

inductive SmartBanEvent (Address Content : Type)
  | join (ptr : ℕ) (address : Address)
  | leave (id : ℕ)
  | receive (id : ℕ) (block : PieceBlock) (content : Content)
  -- a block that does not come from a peer
  | store (block : PieceBlock) (content : Content)
  | pieceFailed (piece : ℕ)
  -- `dangling` is what the address of a peer that is gone is read as
  | piecePassed (piece : ℕ) (seed : Bool) (dangling : ℕ → Address)
  | failedRead (k : ℕ) (error : Bool)
  | okRead (k : ℕ) (error : Bool)

namespace SmartBan

variable {Address Content Digest : Type} [DecidableEq Address] [DecidableEq Digest]

section Model

variable (numBlocks : ℕ → ℕ) (sha : Content → Digest) (s : SmartBan Address Content Digest)

/-- Peers of one address are in the order in which they came. -/
def findPeers (a : Address) : List (TorrentPeer Address) := s.peers.filter fun p => p.address = a

/-- A new entry in the peer list. -/
def join (ptr : ℕ) (address : Address) : SmartBan Address Content Digest :=
  { s with peers := s.peers ++ [{ id := s.nextId, ptr, address }], nextId := s.nextId + 1 }

/-- `erase_peer`, and `clear_peer` for the picker. -/
def leave (id : ℕ) : SmartBan Address Content Digest :=
  { s with
    peers := s.peers.filter fun p => p.id ≠ id
    downloader := fun b => if s.downloader b = some id then none else s.downloader b }

def receive (id : ℕ) (block : PieceBlock) (content : Content) : SmartBan Address Content Digest :=
  { s with
    content := Function.update s.content block content
    downloader := Function.update s.downloader block (some id)
    sent := s.sent ++ [(id, block, content)] }

def store (block : PieceBlock) (content : Content) : SmartBan Address Content Digest :=
  { s with
    content := Function.update s.content block content
    downloader := Function.update s.downloader block none }

def banPeer (id : ℕ) (block : PieceBlock) (passed : Option Content) : SmartBan Address Content Digest :=
  { s with
    peers := s.peers.map fun p => if p.id = id then { p with banned := true } else p
    bans := s.bans ++ [⟨id, block, passed⟩] }

/-- The read of a block that is issued when its piece fails. -/
def failedReadOf (block : PieceBlock) : Option (FailedRead Address Content) :=
  (s.downloader block).bind fun id =>
    (s.peers.find? fun p => p.id = id).map fun p => ⟨block, p.address, s.content block, id⟩

def onPieceFailed (piece : ℕ) : SmartBan Address Content Digest :=
  { s with failedReads :=
      s.failedReads ++ (List.range (numBlocks piece)).filterMap fun b => s.failedReadOf ⟨piece, b⟩ }

/-- The read of a block that is issued when its piece passes. -/
def okReadOf (dangling : ℕ → Address) (block : PieceBlock) : Option (OkRead Address Content Digest) :=
  (s.blockHashes block).map fun e =>
    ⟨block, e, ((s.peers.find? fun p => p.ptr = e.peer).map TorrentPeer.address).getD (dangling e.peer),
      s.content block⟩

def onPiecePass (piece : ℕ) (seed : Bool) (dangling : ℕ → Address) : SmartBan Address Content Digest :=
  let reads := (List.range (numBlocks piece)).filterMap fun b => s.okReadOf dangling ⟨piece, b⟩
  if reads.isEmpty then s
  else
    { s with
      okReads := s.okReads ++ reads
      blockHashes := fun b =>
        if seed ∨ (b.pieceIndex = piece ∧ b.blockIndex < numBlocks piece) then none else s.blockHashes b }

def onReadFailedBlock (r : FailedRead Address Content) : SmartBan Address Content Digest :=
  match s.findPeers r.address with
  | [] => s
  | p :: _ =>
    match s.blockHashes r.block with
    | some e =>
      if e.peer = p.ptr then
        if p.banned = false ∧ e.digest ≠ sha r.content then s.banPeer p.id r.block none else s
      -- `insert` leaves the entry of another peer as it is
      else s
    | none => { s with blockHashes := Function.update s.blockHashes r.block (some ⟨p.ptr, sha r.content, p.id⟩) }

def onReadOkBlock (r : OkRead Address Content Digest) : SmartBan Address Content Digest :=
  if r.entry.digest = sha r.content then s
  else
    match ((s.findPeers r.address).filter fun p => p.ptr = r.entry.peer).getLast? with
    | none => s
    | some p => s.banPeer p.id r.block (some r.content)

def step (allowMultiple : Bool) : SmartBanEvent Address Content → Option (SmartBan Address Content Digest)
  | .join ptr address =>
    if (∀ p ∈ s.peers, p.ptr ≠ ptr) ∧ (allowMultiple ∨ ∀ p ∈ s.peers, p.address ≠ address) then
      some (s.join ptr address)
    else none
  | .leave id => some (s.leave id)
  | .receive id block content => if ∃ p ∈ s.peers, p.id = id then some (s.receive id block content) else none
  | .store block content => some (s.store block content)
  | .pieceFailed piece => some (s.onPieceFailed numBlocks piece)
  | .piecePassed piece seed dangling => some (s.onPiecePass numBlocks piece seed dangling)
  | .failedRead k error => s.failedReads[k]?.map fun r =>
      let s := { s with failedReads := s.failedReads.eraseIdx k }
      if error then s else s.onReadFailedBlock sha r
  | .okRead k error => s.okReads[k]?.map fun r =>
      let s := { s with okReads := s.okReads.eraseIdx k }
      if error then s else s.onReadOkBlock sha r

/-- The states of the runs whose steps all meet a condition. -/
inductive Reached (allowMultiple : Bool)
    (permitted : SmartBan Address Content Digest → SmartBanEvent Address Content → Prop) :
    SmartBan Address Content Digest → Prop
  | init (content : PieceBlock → Content) : Reached allowMultiple permitted { content }
  | step {s s' : SmartBan Address Content Digest} {e : SmartBanEvent Address Content}
      (hs : Reached allowMultiple permitted s) (hp : permitted s e)
      (h : s.step numBlocks sha allowMultiple e = some s') : Reached allowMultiple permitted s'

/-- The peer that is blamed for a block is the one that sent it, and the memory of a peer is not used again
while an entry points to it. -/
def Attributed : SmartBanEvent Address Content → Prop
  | .join ptr _ => (∀ b e, s.blockHashes b = some e → e.peer ≠ ptr) ∧ ∀ r ∈ s.okReads, r.entry.peer ≠ ptr
  | .failedRead k false => ∀ r ∈ s.failedReads[k]?, ∀ p ∈ (s.findPeers r.address).head?,
      (∀ e ∈ s.blockHashes r.block, e.peer = p.ptr) → p.id = r.sender
  | _ => True

/-- The peer has sent a block that differs from that of the piece that passed, or a block in two ways. -/
def Guilty (b : Ban Content) : Prop :=
  (∃ v ∈ b.passed, ∃ u, (b.peer, b.block, u) ∈ s.sent ∧ u ≠ v) ∨
  ∃ u u', (b.peer, b.block, u) ∈ s.sent ∧ (b.peer, b.block, u') ∈ s.sent ∧ u ≠ u'

end Model

set_option linter.unusedSectionVars false

/-- The entry is about a block that its owner has sent. -/
structure EntryOk (sha : Content → Digest) (s : SmartBan Address Content Digest) (block : PieceBlock)
    (e : BlockEntry Digest) : Prop where
  sent : ∃ u, sha u = e.digest ∧ (e.owner, block, u) ∈ s.sent
  owner : ∀ p ∈ s.peers, p.ptr = e.peer → p.id = e.owner

structure Inv (sha : Content → Digest) (s : SmartBan Address Content Digest) : Prop where
  ptr_inj : ∀ p ∈ s.peers, ∀ q ∈ s.peers, p.ptr = q.ptr → p.id = q.id
  downloader : ∀ b, ∀ id ∈ s.downloader b, (id, b, s.content b) ∈ s.sent
  failedReads : ∀ r ∈ s.failedReads, (r.sender, r.block, r.content) ∈ s.sent
  blockHashes : ∀ b, ∀ e ∈ s.blockHashes b, EntryOk sha s b e
  okReads : ∀ r ∈ s.okReads, EntryOk sha s r.block r.entry
  bans : ∀ b ∈ s.bans, s.Guilty b

variable {numBlocks : ℕ → ℕ} {sha : Content → Digest} {s s' : SmartBan Address Content Digest}

/-- What a peer has sent stays on record. -/
theorem Guilty.mono {b : Ban Content} (h : s.Guilty b) (hs : s.sent ⊆ s'.sent) : s'.Guilty b := by
  obtain ⟨v, hv, u, hu, hne⟩ | ⟨u, u', hu, hu', hne⟩ := h
  · exact .inl ⟨v, hv, u, hs hu, hne⟩
  · exact .inr ⟨u, u', hs hu, hs hu', hne⟩

/-- An entry is kept by what records more and brings no other peer to its pointer. -/
theorem EntryOk.mono {block : PieceBlock} {e : BlockEntry Digest} (h : EntryOk sha s block e)
    (hs : s.sent ⊆ s'.sent)
    (hp : ∀ p ∈ s'.peers, p.ptr = e.peer → ∃ q ∈ s.peers, q.ptr = p.ptr ∧ q.id = p.id) :
    EntryOk sha s' block e where
  sent := by
    obtain ⟨u, hu, hmem⟩ := h.sent
    exact ⟨u, hu, hs hmem⟩
  owner := by
    intro p hmem he
    obtain ⟨q, hq, hptr, hid⟩ := hp p hmem he
    exact hid ▸ h.owner q hq (hptr.trans he)

theorem Inv.join (h : Inv sha s) {ptr : ℕ} {address : Address} (hptr : ∀ p ∈ s.peers, p.ptr ≠ ptr)
    (ha : s.Attributed (.join ptr address)) : Inv sha (s.join ptr address) := by
  have hpeers : ∀ {p}, p ∈ (s.join ptr address).peers → p ∈ s.peers ∨ p.ptr = ptr ∧ p.id = s.nextId := by
    intro p hp
    obtain hp | rfl : p ∈ s.peers ∨ p = _ := by simpa [SmartBan.join] using hp
    · exact .inl hp
    · exact .inr ⟨rfl, rfl⟩
  have hentry : ∀ {b e}, EntryOk sha s b e → e.peer ≠ ptr → EntryOk sha (s.join ptr address) b e := by
    refine fun he hne => he.mono (List.Subset.refl _) fun p hp hpe => ?_
    obtain hp | ⟨hp, -⟩ := hpeers hp
    · exact ⟨p, hp, rfl, rfl⟩
    · exact absurd (hpe.symm.trans hp) hne
  exact {
    ptr_inj := by
      intro p hp q hq he
      obtain hp | ⟨hp, hpid⟩ := hpeers hp <;> obtain hq | ⟨hq, hqid⟩ := hpeers hq
      · exact h.ptr_inj p hp q hq he
      · exact absurd (he.trans hq) (hptr p hp)
      · exact absurd (he.symm.trans hp) (hptr q hq)
      · exact hpid.trans hqid.symm
    downloader := h.downloader
    failedReads := h.failedReads
    blockHashes := fun b e he => hentry (h.blockHashes b e he) (ha.1 b e he)
    okReads := fun r hr => hentry (h.okReads r hr) (ha.2 r hr)
    bans := fun b hb => (h.bans b hb).mono (List.Subset.refl _) }

theorem Inv.leave (h : Inv sha s) (id : ℕ) : Inv sha (s.leave id) := by
  have hpeers : ∀ {p}, p ∈ (s.leave id).peers → p ∈ s.peers := List.mem_of_mem_filter
  have hentry : ∀ {b e}, EntryOk sha s b e → EntryOk sha (s.leave id) b e := fun he =>
    he.mono (List.Subset.refl _) fun p hp _ => ⟨p, hpeers hp, rfl, rfl⟩
  exact {
    ptr_inj := fun p hp q hq => h.ptr_inj p (hpeers hp) q (hpeers hq)
    downloader := by
      intro b i hi
      simp only [SmartBan.leave] at hi ⊢
      split at hi
      · cases hi
      · exact h.downloader b i hi
    failedReads := h.failedReads
    blockHashes := fun b e he => hentry (h.blockHashes b e he)
    okReads := fun r hr => hentry (h.okReads r hr)
    bans := fun b hb => (h.bans b hb).mono (List.Subset.refl _) }

theorem Inv.receive (h : Inv sha s) (id : ℕ) (block : PieceBlock) (content : Content) :
    Inv sha (s.receive id block content) := by
  have hsent : s.sent ⊆ (s.receive id block content).sent := List.subset_append_left ..
  have hentry : ∀ {b e}, EntryOk sha s b e → EntryOk sha (s.receive id block content) b e := fun he =>
    he.mono hsent fun p hp _ => ⟨p, hp, rfl, rfl⟩
  exact {
    ptr_inj := h.ptr_inj
    downloader := by
      intro b i hi
      by_cases hb : b = block
      · subst hb
        obtain rfl : id = i := by simpa [SmartBan.receive] using hi
        simp [SmartBan.receive]
      · simp only [SmartBan.receive, Function.update_of_ne hb] at hi ⊢
        exact hsent (h.downloader b i hi)
    failedReads := fun r hr => hsent (h.failedReads r hr)
    blockHashes := fun b e he => hentry (h.blockHashes b e he)
    okReads := fun r hr => hentry (h.okReads r hr)
    bans := fun b hb => (h.bans b hb).mono hsent }

theorem Inv.store (h : Inv sha s) (block : PieceBlock) (content : Content) :
    Inv sha (s.store block content) :=
  { h with
    downloader := by
      intro b i hi
      by_cases hb : b = block
      · subst hb
        simp [SmartBan.store] at hi
      · simp only [SmartBan.store, Function.update_of_ne hb] at hi ⊢
        exact h.downloader b i hi
    blockHashes := fun b e he => (h.blockHashes b e he).mono (List.Subset.refl _) fun p hp _ => ⟨p, hp, rfl, rfl⟩
    okReads := fun r hr => (h.okReads r hr).mono (List.Subset.refl _) fun p hp _ => ⟨p, hp, rfl, rfl⟩
    bans := fun b hb => (h.bans b hb).mono (List.Subset.refl _) }

theorem Inv.onPieceFailed (h : Inv sha s) (piece : ℕ) : Inv sha (s.onPieceFailed numBlocks piece) :=
  { h with
    failedReads := by
      intro r hr
      obtain hr | hr := List.mem_append.mp hr
      · exact h.failedReads r hr
      · obtain ⟨b, -, hb⟩ := List.mem_filterMap.mp hr
        obtain ⟨id, hid, hfind⟩ := Option.bind_eq_some_iff.mp hb
        obtain ⟨p, -, rfl⟩ := Option.map_eq_some_iff.mp hfind
        exact h.downloader _ id hid
    blockHashes := fun b e he => (h.blockHashes b e he).mono (List.Subset.refl _) fun p hp _ => ⟨p, hp, rfl, rfl⟩
    okReads := fun r hr => (h.okReads r hr).mono (List.Subset.refl _) fun p hp _ => ⟨p, hp, rfl, rfl⟩
    bans := fun b hb => (h.bans b hb).mono (List.Subset.refl _) }

theorem Inv.onPiecePass (h : Inv sha s) (piece : ℕ) (seed : Bool) (dangling : ℕ → Address) :
    Inv sha (s.onPiecePass numBlocks piece seed dangling) := by
  unfold SmartBan.onPiecePass
  dsimp only
  split
  · exact h
  · exact { h with
      blockHashes := by
        intro b e he
        simp only [Option.mem_def] at he
        split at he
        · cases he
        · exact (h.blockHashes b e he).mono (List.Subset.refl _) fun p hp _ => ⟨p, hp, rfl, rfl⟩
      okReads := by
        intro r hr
        obtain hr | hr := List.mem_append.mp hr
        · exact (h.okReads r hr).mono (List.Subset.refl _) fun p hp _ => ⟨p, hp, rfl, rfl⟩
        · obtain ⟨b, -, hb⟩ := List.mem_filterMap.mp hr
          obtain ⟨e, he, rfl⟩ := Option.map_eq_some_iff.mp hb
          exact (h.blockHashes _ e he).mono (List.Subset.refl _) fun p hp _ => ⟨p, hp, rfl, rfl⟩
      bans := fun b hb => (h.bans b hb).mono (List.Subset.refl _) }

theorem Inv.banPeer (h : Inv sha s) {id : ℕ} {block : PieceBlock} {passed : Option Content}
    (hg : s.Guilty ⟨id, block, passed⟩) : Inv sha (s.banPeer id block passed) := by
  have hpeers : ∀ {p}, p ∈ (s.banPeer id block passed).peers → ∃ q ∈ s.peers, q.ptr = p.ptr ∧ q.id = p.id := by
    intro p hp
    obtain ⟨q, hq, rfl⟩ := List.mem_map.mp hp
    refine ⟨q, hq, ?_⟩
    split <;> exact ⟨rfl, rfl⟩
  have hentry : ∀ {b e}, EntryOk sha s b e → EntryOk sha (s.banPeer id block passed) b e := fun he =>
    he.mono (List.Subset.refl _) fun p hp _ => hpeers hp
  exact {
    ptr_inj := by
      intro p hp q hq he
      obtain ⟨p', hp', hptr, hid⟩ := hpeers hp
      obtain ⟨q', hq', hqptr, hqid⟩ := hpeers hq
      exact hid ▸ hqid ▸ h.ptr_inj p' hp' q' hq' (hptr.trans (he.trans hqptr.symm))
    downloader := h.downloader
    failedReads := h.failedReads
    blockHashes := fun b e he => hentry (h.blockHashes b e he)
    okReads := fun r hr => hentry (h.okReads r hr)
    bans := by
      intro b hb
      obtain hb | rfl : b ∈ s.bans ∨ b = _ := by simpa [SmartBan.banPeer] using hb
      · exact (h.bans b hb).mono (List.Subset.refl _)
      · exact hg.mono (List.Subset.refl _) }

theorem Inv.onReadOkBlock (h : Inv sha s) {r : OkRead Address Content Digest}
    (hr : EntryOk sha s r.block r.entry) : Inv sha (s.onReadOkBlock sha r) := by
  unfold SmartBan.onReadOkBlock
  split
  · exact h
  next hne =>
    split
    · exact h
    next p hp =>
      obtain ⟨hmem, hptr⟩ := List.mem_filter.mp (List.mem_of_getLast? hp)
      refine h.banPeer (.inl ⟨r.content, rfl, ?_⟩)
      obtain ⟨u, hu, hsent⟩ := hr.sent
      have hid : p.id = r.entry.owner :=
        hr.owner p (List.mem_of_mem_filter hmem) (decide_eq_true_eq.mp hptr)
      refine ⟨u, hid ▸ hsent, ?_⟩
      rintro rfl
      exact hne hu.symm

theorem Inv.onReadFailedBlock (h : Inv sha s) {r : FailedRead Address Content}
    (hr : (r.sender, r.block, r.content) ∈ s.sent)
    (ha : ∀ p ∈ (s.findPeers r.address).head?, (∀ e ∈ s.blockHashes r.block, e.peer = p.ptr) →
      p.id = r.sender) : Inv sha (s.onReadFailedBlock sha r) := by
  unfold SmartBan.onReadFailedBlock
  split
  · exact h
  next p _ hfind =>
    have hp : p ∈ s.peers := by
      refine List.mem_of_mem_filter (p := fun q => q.address = r.address) ?_
      exact (hfind ▸ List.mem_cons_self : p ∈ s.findPeers r.address)
    have hsender := ha p (by rw [hfind]; rfl)
    split
    next e he =>
      have hentry := h.blockHashes r.block e he
      split
      next heq =>
        split
        next hban =>
          have hid : p.id = r.sender := hsender fun e' he' => by
            obtain rfl : e = e' := Option.some.inj (he.symm.trans he')
            exact heq
          obtain ⟨u, hu, hsent⟩ := hentry.sent
          refine h.banPeer (.inr ⟨u, r.content, hentry.owner p hp heq.symm ▸ hsent, hid ▸ hr, ?_⟩)
          rintro rfl
          exact hban.2 hu.symm
        next => exact h
      next => exact h
    next hnone =>
      have hid : p.id = r.sender := hsender fun e' he' => by cases hnone.symm.trans he'
      exact { h with
        blockHashes := by
          intro b e he
          by_cases hb : b = r.block
          · subst hb
            obtain rfl : _ = e := by simpa using he
            exact ⟨⟨r.content, rfl, hid ▸ hr⟩, fun q hq hqp => h.ptr_inj q hq p hp hqp⟩
          · simp only [Option.mem_def, Function.update_of_ne hb] at he
            exact (h.blockHashes b e he).mono (List.Subset.refl _) fun p hp _ => ⟨p, hp, rfl, rfl⟩
        okReads := fun r hr => (h.okReads r hr).mono (List.Subset.refl _) fun p hp _ => ⟨p, hp, rfl, rfl⟩
        bans := fun b hb => (h.bans b hb).mono (List.Subset.refl _) }

theorem Inv.step (h : Inv sha s) {allowMultiple : Bool} {e : SmartBanEvent Address Content}
    (ha : s.Attributed e) (hstep : s.step numBlocks sha allowMultiple e = some s') : Inv sha s' := by
  cases e with
  | join ptr address =>
    obtain ⟨⟨hptr, -⟩, hs⟩ := Option.ite_none_right_eq_some.mp hstep
    obtain rfl := Option.some.inj hs
    exact h.join hptr ha
  | leave id =>
    obtain rfl := Option.some.inj hstep
    exact h.leave id
  | receive id block content =>
    obtain ⟨-, hs⟩ := Option.ite_none_right_eq_some.mp hstep
    obtain rfl := Option.some.inj hs
    exact h.receive id block content
  | store block content =>
    obtain rfl := Option.some.inj hstep
    exact h.store block content
  | pieceFailed piece =>
    obtain rfl := Option.some.inj hstep
    exact h.onPieceFailed piece
  | piecePassed piece seed dangling =>
    obtain rfl := Option.some.inj hstep
    exact h.onPiecePass piece seed dangling
  | failedRead k error =>
    obtain ⟨r, hr, rfl⟩ := Option.map_eq_some_iff.mp hstep
    have hmem : r ∈ s.failedReads := List.mem_of_getElem? hr
    have h' : Inv sha { s with failedReads := s.failedReads.eraseIdx k } := { h with
      failedReads := fun r hr => h.failedReads r (List.mem_of_mem_eraseIdx hr)
      blockHashes := fun b e he =>
        (h.blockHashes b e he).mono (List.Subset.refl _) fun p hp _ => ⟨p, hp, rfl, rfl⟩
      okReads := fun r hr => (h.okReads r hr).mono (List.Subset.refl _) fun p hp _ => ⟨p, hp, rfl, rfl⟩
      bans := fun b hb => (h.bans b hb).mono (List.Subset.refl _) }
    cases error with
    | true => exact h'
    | false => exact h'.onReadFailedBlock (h.failedReads r hmem) (ha r hr)
  | okRead k error =>
    obtain ⟨r, hr, rfl⟩ := Option.map_eq_some_iff.mp hstep
    have hmem : r ∈ s.okReads := List.mem_of_getElem? hr
    have hcarry : ∀ {b e}, EntryOk sha s b e → EntryOk sha { s with okReads := s.okReads.eraseIdx k } b e :=
      fun he => he.mono (List.Subset.refl _) fun p hp _ => ⟨p, hp, rfl, rfl⟩
    have h' : Inv sha { s with okReads := s.okReads.eraseIdx k } := { h with
      blockHashes := fun b e he => hcarry (h.blockHashes b e he)
      okReads := fun r hr => hcarry (h.okReads r (List.mem_of_mem_eraseIdx hr))
      bans := fun b hb => (h.bans b hb).mono (List.Subset.refl _) }
    cases error with
    | true => exact h'
    | false => exact h'.onReadOkBlock (hcarry (h.okReads r hmem))

theorem Inv.reached {allowMultiple : Bool} (h : Reached numBlocks sha allowMultiple Attributed s) :
    Inv sha s := by
  induction h with
  | init content => exact ⟨by simp, by simp, by simp, by simp, by simp, by simp⟩
  | step _ ha hstep ih => exact ih.step ha hstep

/-- Who is banned has sent a bad block. -/
theorem reached_guilty {allowMultiple : Bool} (h : Reached numBlocks sha allowMultiple Attributed s) :
    ∀ b ∈ s.bans, s.Guilty b :=
  (Inv.reached h).bans

/-- One peer sends a bad block, another one the good block. The first one is banned. -/
theorem reached_guilty_oneBad : ∃ s : SmartBan ℕ ℕ ℕ, Reached (fun _ => 1) (id : ℕ → ℕ) false Attributed s ∧
    (s.bans.map fun b => (b.peer, b.passed)) = [(0, some 6)] ∧ ∀ b ∈ s.bans, s.Guilty b := by
  have hinit := @Reached.init ℕ ℕ ℕ _ _ (fun _ => 1) id false Attributed fun _ => 0
  have hjoin := (hinit.step (e := .join 0 7) ⟨by simp, by simp⟩ rfl).step (e := .join 1 8)
    ⟨by simp [SmartBan.join], by simp [SmartBan.join]⟩ rfl
  have hfail := (hjoin.step (e := .receive 0 ⟨0, 0⟩ 5) trivial rfl).step (e := .pieceFailed 0) trivial rfl
  have hread := hfail.step (e := .failedRead 0 false) (fun r hr p hp _ => by
    obtain rfl : (⟨⟨0, 0⟩, 7, 5, 0⟩ : FailedRead ℕ ℕ) = r := Option.some.inj hr
    obtain rfl : (⟨0, 0, 7, false⟩ : TorrentPeer ℕ) = p := Option.some.inj hp
    rfl) rfl
  have hpass := (hread.step (e := .receive 1 ⟨0, 0⟩ 6) trivial rfl).step
    (e := .piecePassed 0 true fun _ => 0) trivial rfl
  have hban := hpass.step (e := .okRead 0 false) trivial rfl
  exact ⟨_, hban, rfl, reached_guilty hban⟩

theorem not_guilty_of_silent {b : Ban Content} (h : ∀ x ∈ s.sent, x.1 ≠ b.peer) : ¬ s.Guilty b := by
  rintro (⟨-, -, u, hu, -⟩ | ⟨u, -, hu, -⟩)
  · exact h _ hu rfl
  · exact h _ hu rfl

/-- Peers that have sent nothing are banned: one that shares its address with the peer that sent the bad
block, one that came to the address while the read was in flight, and one that came to the address and the
memory of the peer. -/
theorem reached_not_guilty :
    (∃ s : SmartBan ℕ ℕ ℕ, Reached (fun _ => 1) (id : ℕ → ℕ) true (fun _ _ => True) s ∧
      ∃ b ∈ s.bans, ¬ s.Guilty b) ∧
    (∃ s : SmartBan ℕ ℕ ℕ, Reached (fun _ => 1) (id : ℕ → ℕ) false (fun _ _ => True) s ∧
      ∃ b ∈ s.bans, ¬ s.Guilty b) ∧
    ∃ s : SmartBan ℕ ℕ ℕ, Reached (fun _ => 1) (id : ℕ → ℕ) false (fun _ _ => True) s ∧
      ∃ b ∈ s.bans, ¬ s.Guilty b := by
  refine ⟨?_, ?_, ?_⟩
  · have hinit := @Reached.init ℕ ℕ ℕ _ _ (fun _ => 1) id true (fun _ _ => True) fun _ => 0
    have hjoin := (hinit.step (e := .join 0 7) trivial rfl).step (e := .join 1 7) trivial rfl
    have hfail := (hjoin.step (e := .receive 1 ⟨0, 0⟩ 5) trivial rfl).step (e := .pieceFailed 0) trivial rfl
    have hread := hfail.step (e := .failedRead 0 false) trivial rfl
    have hpass := (hread.step (e := .receive 1 ⟨0, 0⟩ 6) trivial rfl).step
      (e := .piecePassed 0 true fun _ => 0) trivial rfl
    have hban := hpass.step (e := .okRead 0 false) trivial rfl
    exact ⟨_, hban, ⟨0, ⟨0, 0⟩, some 6⟩, List.mem_singleton_self _, not_guilty_of_silent (by decide +kernel)⟩
  · have hinit := @Reached.init ℕ ℕ ℕ _ _ (fun _ => 1) id false (fun _ _ => True) fun _ => 0
    have hfail := ((hinit.step (e := .join 0 7) trivial rfl).step (e := .receive 0 ⟨0, 0⟩ 5) trivial rfl).step
      (e := .pieceFailed 0) trivial rfl
    have hother := (hfail.step (e := .leave 0) trivial rfl).step (e := .join 1 7) trivial rfl
    have hread := hother.step (e := .failedRead 0 false) trivial rfl
    have hpass := (hread.step (e := .store ⟨0, 0⟩ 6) trivial rfl).step
      (e := .piecePassed 0 true fun _ => 0) trivial rfl
    have hban := hpass.step (e := .okRead 0 false) trivial rfl
    exact ⟨_, hban, ⟨1, ⟨0, 0⟩, some 6⟩, List.mem_singleton_self _, not_guilty_of_silent (by decide +kernel)⟩
  · have hinit := @Reached.init ℕ ℕ ℕ _ _ (fun _ => 1) id false (fun _ _ => True) fun _ => 0
    have hfail := ((hinit.step (e := .join 0 7) trivial rfl).step (e := .receive 0 ⟨0, 0⟩ 5) trivial rfl).step
      (e := .pieceFailed 0) trivial rfl
    have hread := hfail.step (e := .failedRead 0 false) trivial rfl
    have hother := (hread.step (e := .leave 0) trivial rfl).step (e := .join 0 7) trivial rfl
    have hpass := (hother.step (e := .store ⟨0, 0⟩ 6) trivial rfl).step
      (e := .piecePassed 0 true fun _ => 0) trivial rfl
    have hban := hpass.step (e := .okRead 0 false) trivial rfl
    exact ⟨_, hban, ⟨1, ⟨0, 0⟩, some 6⟩, List.mem_singleton_self _, not_guilty_of_silent (by decide +kernel)⟩

end SmartBan

end Torrent

end LibtorrentSN
