import Mathlib

/-!
# The vote on our external address

Peers, trackers and DHT nodes tell us which address they see us under. `ip_voter` counts one vote of each
source for each candidate, by bloom filters, and settles for a candidate that is far enough ahead. The model
keeps, besides the source's variables, who voted for a candidate, who added a candidate since the last
rotation, and what there was to choose from at each change of the address.
-/

namespace LibtorrentSN

namespace Session

/-! ## Addresses -/

/-- `boost::asio::ip::address`: four bytes, or sixteen and a scope. -/
inductive IpAddress
  | v4 (bytes : BitVec 32)
  | v6 (bytes : BitVec 128) (scope : ℕ)
  deriving DecidableEq

namespace IpAddress

/-- `address()` -/
def any : IpAddress := .v4 0

def isV4 : IpAddress → Bool
  | .v4 _ => true
  | .v6 _ _ => false

def isUnspecified : IpAddress → Bool
  | .v4 ip => ip = 0
  | .v6 ip _ => ip = 0

def isLoopback : IpAddress → Bool
  | .v4 ip => ip &&& 0xff000000 = 0x7f000000
  | .v6 ip _ => ip = 1

/-- The first two bytes of an address of sixteen. -/
def leading (ip : BitVec 128) : BitVec 16 := ip.extractLsb' 112 16

/-- `is_local`: loopback, link local, site local, the multicast addresses of these two, unique local, and the
private ranges of four bytes. -/
def isLocal : IpAddress → Bool
  | .v6 ip _ =>
    ip = 1 || leading ip &&& 0xffc0 = 0xfe80 || leading ip &&& 0xffc0 = 0xfec0 ||
      leading ip &&& 0xff0f = 0xff02 || leading ip &&& 0xff0f = 0xff05 || leading ip &&& 0xfe00 = 0xfc00
  | .v4 ip =>
    ip &&& 0xff000000 = 0x0a000000 || ip &&& 0xfff00000 = 0xac100000 || ip &&& 0xffff0000 = 0xc0a80000 ||
      ip &&& 0xffff0000 = 0xa9fe0000 || ip &&& 0xff000000 = 0x7f000000 || ip &&& 0xffc00000 = 0x64400000

end IpAddress

/-! ## Bloom filters -/

/-- `bloom_filter<N>`: the bits that are set, of `N` bytes. -/
structure BloomFilter (N : ℕ) where
  bits : Finset ℕ := ∅
  deriving DecidableEq

namespace BloomFilter

variable {N : ℕ}

/-- The indices of the two bits of a hash, which are its first four bytes. -/
def idx1 (N : ℕ) (k : Fin 4 → UInt8) : ℕ := ((k 0).toNat + (k 1).toNat * 256) % (N * 8)

def idx2 (N : ℕ) (k : Fin 4 → UInt8) : ℕ := ((k 2).toNat + (k 3).toNat * 256) % (N * 8)

/-- `has_bits` -/
def find (b : BloomFilter N) (k : Fin 4 → UInt8) : Bool := idx1 N k ∈ b.bits && idx2 N k ∈ b.bits

/-- `set_bits` -/
def set (b : BloomFilter N) (k : Fin 4 → UInt8) : BloomFilter N := ⟨insert (idx1 N k) (insert (idx2 N k) b.bits)⟩

theorem find_iff (b : BloomFilter N) (k : Fin 4 → UInt8) :
    b.find k = true ↔ idx1 N k ∈ b.bits ∧ idx2 N k ∈ b.bits := by
  simp [find]

/-- What was set is found. -/
theorem find_set_self (b : BloomFilter N) (k : Fin 4 → UInt8) : (b.set k).find k = true := by
  simp [find, set]

/-- What was found is found later. -/
theorem find_set_of_find {b : BloomFilter N} {k : Fin 4 → UInt8} (h : b.find k = true) (k' : Fin 4 → UInt8) :
    (b.set k').find k = true := by
  obtain ⟨h₁, h₂⟩ := (b.find_iff k).mp h
  exact ((b.set k').find_iff k).mpr
    ⟨Finset.mem_insert_of_mem (Finset.mem_insert_of_mem h₁), Finset.mem_insert_of_mem (Finset.mem_insert_of_mem h₂)⟩

theorem bits_subset_set (b : BloomFilter N) (k : Fin 4 → UInt8) : b.bits ⊆ (b.set k).bits :=
  fun _ hi => Finset.mem_insert_of_mem (Finset.mem_insert_of_mem hi)

/-- A hash that is not found sets another bit. -/
theorem card_lt_card_set {b : BloomFilter N} {k : Fin 4 → UInt8} (h : b.find k = false) :
    b.bits.card < (b.set k).bits.card := by
  refine Finset.card_lt_card (Finset.ssubset_iff_subset_ne.mpr ⟨b.bits_subset_set k, fun heq => ?_⟩)
  have hfound : b.find k = true := by
    rw [find, heq]
    exact find_set_self b k
  rw [h] at hfound
  cases hfound

theorem lt_of_mem_set [NeZero N] {b : BloomFilter N} {k : Fin 4 → UInt8} (h : ∀ i ∈ b.bits, i < N * 8) :
    ∀ i ∈ (b.set k).bits, i < N * 8 := by
  have hpos : 0 < N * 8 := Nat.mul_pos (Nat.pos_of_ne_zero (NeZero.ne N)) (by decide)
  intro i hi
  rcases Finset.mem_insert.mp hi with rfl | hi
  · exact Nat.mod_lt _ hpos
  · rcases Finset.mem_insert.mp hi with rfl | hi
    · exact Nat.mod_lt _ hpos
    · exact h i hi

end BloomFilter

/-! ## The voter -/

/-- `external_ip_t` -/
structure ExternalIp where
  voters : BloomFilter 16 := {}
  addr : IpAddress := .any
  sources : UInt8 := 0
  numVotes : ℕ := 0
  -- who voted for this candidate
  voted : List IpAddress := []
  deriving DecidableEq

namespace ExternalIp

/-- `operator<`: candidates with more votes come first, and of these the ones with more kinds of sources. -/
def before (a b : ExternalIp) : Bool :=
  b.numVotes < a.numVotes || (a.numVotes = b.numVotes && b.sources < a.sources)

/-- `add_vote` of a source with this hash. The counter has 16 bits. -/
def addVote (c : ExternalIp) (source : IpAddress) (k : Fin 4 → UInt8) (type : UInt8) : Bool × ExternalIp :=
  let c := { c with sources := c.sources ||| type, voted := c.voted ++ [source] }
  if c.voters.find k then (false, c)
  else (true, { c with voters := c.voters.set k, numVotes := (c.numVotes + 1) % 2 ^ 16 })

/-- `add_vote` of the first entry for an address. -/
def addVoteTo (ip source : IpAddress) (k : Fin 4 → UInt8) (type : UInt8) : List ExternalIp → Bool × List ExternalIp
  | [] => (false, [])
  | c :: candidates =>
    if c.addr = ip then ((c.addVote source k type).1, (c.addVote source k type).2 :: candidates)
    else ((addVoteTo ip source k type candidates).1, c :: (addVoteTo ip source k type candidates).2)

/-- `std::min_element` -/
def minElement : List ExternalIp → Option ExternalIp
  | [] => none
  | c :: candidates => some (candidates.foldl (fun best d => if d.before best then d else best) c)

/-- `std::stable_sort` -/
def stableSort (candidates : List ExternalIp) : List ExternalIp :=
  candidates.insertionSort fun a b => b.before a = false

end ExternalIp

/-- What the address is changed to, what there was to choose from, and whether an address was settled before. -/
structure Change where
  valid : Bool
  addr : IpAddress
  candidates : List ExternalIp

/-- A call of `cast_vote`, with what `random` and the clock say, in nanoseconds, and what `std::partial_sort`
makes of the candidates. -/
structure Vote where
  ip : IpAddress
  sourceType : UInt8
  source : IpAddress
  random : Bool
  now : ℤ
  partialSort : List ExternalIp → List ExternalIp

structure IpVoter where
  externalAddressVoters : BloomFilter 32 := {}
  externalAddresses : List ExternalIp := []
  externalAddress : IpAddress := .any
  totalVotes : ℕ := 0
  validExternal : Bool := false
  lastRotate : ℤ
  -- who added a candidate since the last rotation
  adders : List IpAddress := []
  changes : List Change := []

namespace IpVoter

variable (hashAddress : IpAddress → Fin 4 → UInt8) (s : IpVoter) (v : Vote)

/-- Five minutes. -/
def rotateInterval : ℤ := 300 * 10 ^ 9

/-- The address is set to a candidate. -/
def setExternal (first : ExternalIp) : IpVoter :=
  { s with
    externalAddress := first.addr
    changes := s.changes ++ [⟨s.validExternal, first.addr, s.externalAddresses⟩] }

/-- The end of `maybe_rotate`: the first candidate wins. -/
def rotate (first : ExternalIp) : Bool × IpVoter :=
  (s.externalAddress ≠ first.addr,
    { s.setExternal first with
      externalAddressVoters := {}
      totalVotes := 0
      externalAddresses := []
      lastRotate := v.now
      validExternal := true
      adders := [] })

/-- `maybe_rotate` -/
def maybeRotate : Bool × IpVoter :=
  if s.totalVotes < 50 ∧ (v.now - s.lastRotate < rotateInterval ∨ s.totalVotes = 0) ∧ s.validExternal = true then
    (false, s)
  else
    match s.externalAddresses with
    | [] => (false, s)
    | [only] => if only.numVotes < 2 then (false, s) else s.rotate v only
    | c₁ :: c₂ :: candidates =>
      let s := { s with externalAddresses := v.partialSort (c₁ :: c₂ :: candidates) }
      match s.externalAddresses with
      | first :: second :: _ =>
        if first.numVotes * 2 / 3 ≤ second.numVotes then (false, s) else s.rotate v first
      | _ => (false, s)

/-- The end of `cast_vote` before an address is settled: a new vote has been counted. -/
def provisional : Bool × IpVoter :=
  match ExternalIp.minElement s.externalAddresses with
  | none => (false, s)
  | some i =>
    if i.addr = s.externalAddress then s.maybeRotate v
    else if s.externalAddress ≠ .any then
      if 25 ≤ s.totalVotes then s.maybeRotate v else (false, s)
    else (true, s.setExternal i)

/-- The part of `cast_vote` in which the address is a candidate. -/
def countVote : Bool × IpVoter :=
  let added := ExternalIp.addVoteTo v.ip v.source (hashAddress v.source) v.sourceType s.externalAddresses
  let s := { s with externalAddresses := added.2 }
  if added.1 then
    let s := { s with totalVotes := s.totalVotes + 1 }
    if s.validExternal then s.maybeRotate v else s.provisional v
  else s.maybeRotate v

/-- The candidate with the fewest votes is dropped. -/
def evict : IpVoter := { s with externalAddresses := (ExternalIp.stableSort s.externalAddresses).dropLast }

/-- The address becomes a candidate. -/
def addCandidate : IpVoter :=
  { s with
    externalAddresses := s.externalAddresses ++ [{ addr := v.ip }]
    adders := s.adders ++ [v.source] }

/-- `cast_vote` -/
def castVote : Bool × IpVoter :=
  if v.ip.isUnspecified || v.ip.isLocal || v.ip.isLoopback || v.ip.isV4 != v.source.isV4 then (false, s)
  else if s.externalAddresses.any fun e => e.addr = v.ip then s.countVote hashAddress v
  else if s.externalAddressVoters.find (hashAddress v.source) then s.maybeRotate v
  else if 40 < s.externalAddresses.length then
    if v.random then s.maybeRotate v else (s.evict.addCandidate v).countVote hashAddress v
  else (s.addCandidate v).countVote hashAddress v

/-! ## What holds of the votes -/

/-- Two candidates come first in the order of the candidates. -/
def PartialSorts (partialSort : List ExternalIp → List ExternalIp) : Prop :=
  ∀ candidates, (partialSort candidates).Perm candidates ∧
    ∀ first second rest, partialSort candidates = first :: second :: rest →
      second.before first = false ∧ ∀ c ∈ rest, c.before second = false

/-- The states of the runs whose votes all meet a condition. -/
inductive Reached (hashAddress : IpAddress → Fin 4 → UInt8) (quiet : IpVoter → Vote → Prop) : IpVoter → Prop
  | init (now : ℤ) : Reached hashAddress quiet { lastRotate := now }
  | step {s : IpVoter} {v : Vote} (hs : Reached hashAddress quiet s) (hsort : PartialSorts v.partialSort)
      (hq : quiet s v) : Reached hashAddress quiet (s.castVote hashAddress v).2

/-- Two sources at least voted for the candidate that the address is changed to, and it has more than one
and a half times the votes of each other candidate. -/
def Change.Supported (change : Change) : Prop :=
  ∃ c rest, change.candidates.Perm (c :: rest) ∧ c.addr = change.addr ∧ 2 ≤ c.voted.toFinset.card ∧
    ∀ d ∈ rest, 3 * d.numVotes < 2 * c.numVotes

/-- What single voters are kept from. -/
structure Resists (s : IpVoter) : Prop where
  adds_once : s.adders.Nodup
  votes_le : ∀ c ∈ s.externalAddresses, c.numVotes ≤ c.voted.toFinset.card
  total_eq : s.totalVotes = (s.externalAddresses.map ExternalIp.numVotes).sum
  changes : ∀ change ∈ s.changes, change.valid = true → Change.Supported change

/-! ## One candidate -/

variable {hashAddress : IpAddress → Fin 4 → UInt8} {s : IpVoter} {v : Vote}

/-- The filter holds those who voted, each counted vote set a bit, and each was of another source. -/
structure Counts (hashAddress : IpAddress → Fin 4 → UInt8) (c : ExternalIp) : Prop where
  le_card : c.numVotes ≤ c.voted.toFinset.card
  le_bits : c.numVotes ≤ c.voters.bits.card
  bits_lt : ∀ i ∈ c.voters.bits, i < 16 * 8
  found : ∀ source ∈ c.voted, c.voters.find (hashAddress source) = true

theorem counts_new (hashAddress : IpAddress → Fin 4 → UInt8) (ip : IpAddress) :
    Counts hashAddress { addr := ip } where
  le_card := Nat.zero_le _
  le_bits := Nat.zero_le _
  bits_lt := by simp
  found := by simp

/-- The counter does not wrap, as there are not that many bits. -/
theorem Counts.numVotes_le {c : ExternalIp} (h : Counts hashAddress c) : c.numVotes ≤ 128 := by
  have hsub : c.voters.bits ⊆ Finset.range 128 := fun i hi => Finset.mem_range.mpr (h.bits_lt i hi)
  exact h.le_bits.trans ((Finset.card_le_card hsub).trans_eq (Finset.card_range 128))

theorem Counts.addVote {c : ExternalIp} (h : Counts hashAddress c) (source : IpAddress) (type : UInt8) :
    Counts hashAddress (c.addVote source (hashAddress source) type).2 ∧
      (c.addVote source (hashAddress source) type).2.addr = c.addr ∧
      (c.addVote source (hashAddress source) type).2.numVotes =
        c.numVotes + if (c.addVote source (hashAddress source) type).1 then 1 else 0 := by
  have hcard : c.voted.toFinset ⊆ (c.voted ++ [source]).toFinset := by
    rw [List.toFinset_append]
    exact Finset.subset_union_left
  rw [ExternalIp.addVote]
  dsimp only
  split
  · next hfind =>
    refine ⟨⟨h.le_card.trans (Finset.card_le_card hcard), h.le_bits, h.bits_lt, ?_⟩, rfl, rfl⟩
    intro source' hsource
    rcases List.mem_append.mp hsource with hsource | hsource
    · exact h.found source' hsource
    · rw [List.mem_singleton.mp hsource]
      exact hfind
  · next hfind =>
    have hnew : c.voters.find (hashAddress source) = false := eq_false_of_ne_true hfind
    have hle := h.numVotes_le
    have hmod : (c.numVotes + 1) % 2 ^ 16 = c.numVotes + 1 := Nat.mod_eq_of_lt (by omega)
    -- whoever voted before is found by the filter
    have hsource : source ∉ c.voted.toFinset := fun hmem =>
      hfind (h.found source (List.mem_toFinset.mp hmem))
    refine ⟨⟨?_, ?_, BloomFilter.lt_of_mem_set h.bits_lt, ?_⟩, rfl, hmod⟩
    · dsimp only
      rw [hmod, List.toFinset_append, List.toFinset_cons, List.toFinset_nil, insert_empty_eq,
        Finset.card_union_of_disjoint (Finset.disjoint_singleton_right.mpr hsource), Finset.card_singleton]
      exact Nat.succ_le_succ h.le_card
    · dsimp only
      rw [hmod]
      exact (Nat.succ_le_succ h.le_bits).trans (BloomFilter.card_lt_card_set hnew)
    · intro source' hsource'
      rcases List.mem_append.mp hsource' with hold | hlast
      · exact BloomFilter.find_set_of_find (h.found source' hold) _
      · rw [List.mem_singleton.mp hlast]
        exact BloomFilter.find_set_self _ _

/-- A candidate that was voted for. -/
structure Candidate (hashAddress : IpAddress → Fin 4 → UInt8) (c : ExternalIp) : Prop extends
    Counts hashAddress c where
  pos : 1 ≤ c.numVotes

/-! ## The candidates -/

theorem addVoteTo_candidates (ip source : IpAddress) (type : UInt8) {candidates : List ExternalIp}
    (h : ∀ c ∈ candidates, Candidate hashAddress c) :
    (∀ c ∈ (ExternalIp.addVoteTo ip source (hashAddress source) type candidates).2, Candidate hashAddress c) ∧
      ((ExternalIp.addVoteTo ip source (hashAddress source) type candidates).2.map ExternalIp.numVotes).sum =
        (candidates.map ExternalIp.numVotes).sum +
          if (ExternalIp.addVoteTo ip source (hashAddress source) type candidates).1 then 1 else 0 := by
  induction candidates with
  | nil => exact ⟨h, rfl⟩
  | cons c candidates ih =>
    obtain ⟨hc, hrest⟩ := List.forall_mem_cons.mp h
    obtain ⟨hih, hsum⟩ := ih hrest
    rw [ExternalIp.addVoteTo]
    split
    · obtain ⟨hcounts, -, hvotes⟩ := hc.toCounts.addVote source type
      refine ⟨List.forall_mem_cons.mpr ⟨⟨hcounts, ?_⟩, hrest⟩, ?_⟩
      · rw [hvotes]
        exact hc.pos.trans (Nat.le_add_right _ _)
      · simp only [List.map_cons, List.sum_cons]
        rw [hvotes]
        omega
    · refine ⟨List.forall_mem_cons.mpr ⟨hc, hih⟩, ?_⟩
      simp only [List.map_cons, List.sum_cons]
      rw [hsum]
      omega

/-- The vote goes to the last entry where no other is for the address. -/
theorem addVoteTo_append {ip : IpAddress} {d : ExternalIp} (hd : d.addr = ip) (source : IpAddress)
    (k : Fin 4 → UInt8) (type : UInt8) {candidates : List ExternalIp} (h : ∀ c ∈ candidates, c.addr ≠ ip) :
    ExternalIp.addVoteTo ip source k type (candidates ++ [d]) =
      ((d.addVote source k type).1, candidates ++ [(d.addVote source k type).2]) := by
  induction candidates with
  | nil => exact if_pos hd
  | cons c candidates ih =>
    obtain ⟨hc, hrest⟩ := List.forall_mem_cons.mp h
    rw [List.cons_append, ExternalIp.addVoteTo, if_neg hc, ih hrest, List.cons_append]

/-- The first vote for an address is counted. -/
theorem addVote_new (hashAddress : IpAddress → Fin 4 → UInt8) (ip source : IpAddress) (type : UInt8) :
    (ExternalIp.addVote { addr := ip } source (hashAddress source) type).1 = true ∧
      Candidate hashAddress (ExternalIp.addVote { addr := ip } source (hashAddress source) type).2 ∧
      (ExternalIp.addVote { addr := ip } source (hashAddress source) type).2.numVotes = 1 := by
  have hnew : (ExternalIp.addVote { addr := ip } source (hashAddress source) type).1 = true := rfl
  obtain ⟨hcounts, -, hvotes⟩ := (counts_new hashAddress ip).addVote source type
  have hone : (ExternalIp.addVote { addr := ip } source (hashAddress source) type).2.numVotes = 1 := by
    rw [hvotes, hnew]
    rfl
  exact ⟨hnew, ⟨hcounts, hone.ge⟩, hone⟩

/-! ## Rotations -/

/-- What holds of every run: the candidates have their votes of distinct sources, and the address is changed
with enough of them. -/
structure Inv (hashAddress : IpAddress → Fin 4 → UInt8) (s : IpVoter) : Prop where
  candidates : ∀ c ∈ s.externalAddresses, Candidate hashAddress c
  changes : ∀ change ∈ s.changes, change.valid = true → Change.Supported change

/-- What holds while no source adds two candidates and none is dropped. -/
structure Tallied (s : IpVoter) : Prop where
  adders_nodup : s.adders.Nodup
  total_eq : s.totalVotes = (s.externalAddresses.map ExternalIp.numVotes).sum

/-- The first of the candidates is far enough ahead of the rest. -/
def Wins (first : ExternalIp) (rest : List ExternalIp) : Prop :=
  (rest = [] → 2 ≤ first.numVotes) ∧ ∀ d ∈ rest, d.numVotes < first.numVotes * 2 / 3

/-- A call of `maybe_rotate` rearranges the candidates, and settles for the first at most if it wins. -/
theorem maybeRotate_cases (hsort : PartialSorts v.partialSort) :
    (∃ candidates, candidates.Perm s.externalAddresses ∧
      (s.maybeRotate v).2 = { s with externalAddresses := candidates }) ∨
    ∃ first rest, (first :: rest).Perm s.externalAddresses ∧ Wins first rest ∧
      (s.maybeRotate v).2 = ({ s with externalAddresses := first :: rest }.rotate v first).2 := by
  rw [maybeRotate]
  split
  · exact .inl ⟨_, .refl _, rfl⟩
  · cases haddresses : s.externalAddresses with
    | nil => exact .inl ⟨s.externalAddresses, .of_eq haddresses, rfl⟩
    | cons c₁ candidates =>
      cases candidates with
      | nil =>
        dsimp only
        split
        · exact .inl ⟨s.externalAddresses, .of_eq haddresses, rfl⟩
        · next hvotes =>
          refine .inr ⟨c₁, [], .refl _, ⟨fun _ => not_lt.mp hvotes, by simp⟩, ?_⟩
          rw [← haddresses]
      | cons c₂ candidates =>
        obtain ⟨hperm, horder⟩ := hsort (c₁ :: c₂ :: candidates)
        dsimp only
        split
        · next first second rest heq =>
          obtain ⟨-, hrest⟩ := horder first second rest heq
          rw [heq] at hperm ⊢
          split
          · exact .inl ⟨_, hperm, rfl⟩
          · next hahead =>
            refine .inr ⟨first, second :: rest, hperm, ⟨by simp, ?_⟩, rfl⟩
            refine List.forall_mem_cons.mpr ⟨not_le.mp hahead, fun d hd => ?_⟩
            have hle : d.numVotes ≤ second.numVotes := by
              have hbefore := hrest d hd
              rw [ExternalIp.before, Bool.or_eq_false_iff] at hbefore
              exact not_lt.mp (of_decide_eq_false hbefore.1)
            exact hle.trans_lt (not_le.mp hahead)
        · exact .inl ⟨_, hperm, rfl⟩

theorem Inv.supported {first : ExternalIp} {rest : List ExternalIp} (h : Inv hashAddress s)
    (hperm : (first :: rest).Perm s.externalAddresses) (hwins : Wins first rest) (valid : Bool) :
    Change.Supported ⟨valid, first.addr, first :: rest⟩ := by
  have hall : ∀ c ∈ first :: rest, Candidate hashAddress c := fun c hc => h.candidates c (hperm.subset hc)
  obtain ⟨hfirst, hrest⟩ := List.forall_mem_cons.mp hall
  refine ⟨first, rest, .refl _, rfl, le_trans ?_ hfirst.le_card, fun d hd => ?_⟩
  · rcases rest with - | ⟨d, rest⟩
    · exact hwins.1 rfl
    · have hpos := (hrest d List.mem_cons_self).pos
      have hahead := hwins.2 d List.mem_cons_self
      omega
  · have hahead := hwins.2 d hd
    omega

theorem Inv.maybeRotate (h : Inv hashAddress s) (hsort : PartialSorts v.partialSort) :
    Inv hashAddress (s.maybeRotate v).2 := by
  rcases maybeRotate_cases (s := s) hsort with ⟨candidates, hperm, heq⟩ | ⟨first, rest, hperm, hwins, heq⟩
  · rw [heq]
    exact ⟨fun c hc => h.candidates c (hperm.subset hc), h.changes⟩
  · rw [heq]
    refine ⟨by simp [rotate], List.forall_mem_append.mpr ⟨h.changes, List.forall_mem_singleton.mpr fun _ => ?_⟩⟩
    exact h.supported hperm hwins s.validExternal

theorem Tallied.maybeRotate (h : Tallied s) (hsort : PartialSorts v.partialSort) :
    Tallied (s.maybeRotate v).2 := by
  rcases maybeRotate_cases (s := s) hsort with ⟨candidates, hperm, heq⟩ | ⟨first, rest, hperm, hwins, heq⟩
  · rw [heq]
    exact ⟨h.adders_nodup, h.total_eq.trans (hperm.map _).sum_eq.symm⟩
  · rw [heq]
    exact ⟨List.nodup_nil, rfl⟩

theorem Inv.provisional (h : Inv hashAddress s) (hsort : PartialSorts v.partialSort)
    (hvalid : s.validExternal = false) : Inv hashAddress (s.provisional v).2 := by
  rw [IpVoter.provisional]
  split
  · exact h
  · split
    · exact h.maybeRotate hsort
    · split
      · split
        · exact h.maybeRotate hsort
        · exact h
      · refine ⟨h.candidates, List.forall_mem_append.mpr ⟨h.changes, List.forall_mem_singleton.mpr fun hset => ?_⟩⟩
        rw [hvalid] at hset
        cases hset

theorem Tallied.provisional (h : Tallied s) (hsort : PartialSorts v.partialSort) :
    Tallied (s.provisional v).2 := by
  rw [IpVoter.provisional]
  split
  · exact h
  · split
    · exact h.maybeRotate hsort
    · split
      · split
        · exact h.maybeRotate hsort
        · exact h
      · exact ⟨h.adders_nodup, h.total_eq⟩

/-! ## Votes -/

/-- The end of `cast_vote`, by what `add_vote` makes of the candidates. -/
theorem Inv.countVote {candidates : List ExternalIp} {counted : Bool}
    (hadd : ExternalIp.addVoteTo v.ip v.source (hashAddress v.source) v.sourceType s.externalAddresses =
      (counted, candidates)) (h : Inv hashAddress { s with externalAddresses := candidates })
    (hsort : PartialSorts v.partialSort) : Inv hashAddress (s.countVote hashAddress v).2 := by
  have hcount : Inv hashAddress
      { s with externalAddresses := candidates, totalVotes := s.totalVotes + 1 } := ⟨h.candidates, h.changes⟩
  rw [IpVoter.countVote, hadd]
  dsimp only
  split
  · split
    · exact hcount.maybeRotate hsort
    · next hvalid => exact hcount.provisional hsort (eq_false_of_ne_true hvalid)
  · exact h.maybeRotate hsort

theorem Tallied.countVote {candidates : List ExternalIp} {counted : Bool}
    (hadd : ExternalIp.addVoteTo v.ip v.source (hashAddress v.source) v.sourceType s.externalAddresses =
      (counted, candidates)) (hnodup : s.adders.Nodup)
    (hsum : s.totalVotes + (if counted then 1 else 0) = (candidates.map ExternalIp.numVotes).sum)
    (hsort : PartialSorts v.partialSort) : Tallied (s.countVote hashAddress v).2 := by
  rw [IpVoter.countVote, hadd]
  dsimp only
  split
  · next hcounted =>
    rw [if_pos hcounted] at hsum
    have hcount : Tallied { s with externalAddresses := candidates, totalVotes := s.totalVotes + 1 } :=
      ⟨hnodup, hsum⟩
    split
    · exact hcount.maybeRotate hsort
    · exact hcount.provisional hsort
  · next hcounted =>
    rw [if_neg hcounted] at hsum
    have hcount : Tallied { s with externalAddresses := candidates } := ⟨hnodup, hsum⟩
    exact hcount.maybeRotate hsort

theorem addVoteTo_addCandidate (hnew : ∀ c ∈ s.externalAddresses, c.addr ≠ v.ip) :
    ExternalIp.addVoteTo v.ip v.source (hashAddress v.source) v.sourceType (s.addCandidate v).externalAddresses =
      ((ExternalIp.addVote { addr := v.ip } v.source (hashAddress v.source) v.sourceType).1,
        s.externalAddresses ++ [(ExternalIp.addVote { addr := v.ip } v.source (hashAddress v.source) v.sourceType).2]) :=
  @addVoteTo_append v.ip { addr := v.ip } rfl _ _ _ _ hnew

theorem Inv.vote_new (h : Inv hashAddress s) (hnew : ∀ c ∈ s.externalAddresses, c.addr ≠ v.ip)
    (hsort : PartialSorts v.partialSort) : Inv hashAddress ((s.addCandidate v).countVote hashAddress v).2 := by
  obtain ⟨-, hcandidate, -⟩ := addVote_new hashAddress v.ip v.source v.sourceType
  refine Inv.countVote (addVoteTo_addCandidate hnew) ⟨fun c hc => ?_, h.changes⟩ hsort
  rcases List.mem_append.mp hc with hc | hc
  · exact h.candidates c hc
  · rw [List.mem_singleton.mp hc]
    exact hcandidate

theorem Tallied.vote_new (h : Tallied s) (hnew : ∀ c ∈ s.externalAddresses, c.addr ≠ v.ip)
    (hadder : v.source ∉ s.adders) (hsort : PartialSorts v.partialSort) :
    Tallied ((s.addCandidate v).countVote hashAddress v).2 := by
  obtain ⟨hcounted, -, hone⟩ := addVote_new hashAddress v.ip v.source v.sourceType
  refine Tallied.countVote (addVoteTo_addCandidate hnew) ?_ ?_ hsort
  · refine List.nodup_append.mpr ⟨h.adders_nodup, List.nodup_singleton _, fun source hsource other hother heq => ?_⟩
    rw [heq, List.mem_singleton.mp hother] at hsource
    exact hadder hsource
  · rw [if_pos hcounted, List.map_append, List.sum_append, List.map_singleton, List.sum_singleton, hone]
    exact congrArg (· + 1) h.total_eq

theorem Inv.castVote (h : Inv hashAddress s) (hsort : PartialSorts v.partialSort) :
    Inv hashAddress (s.castVote hashAddress v).2 := by
  rw [IpVoter.castVote]
  split
  · exact h
  · split
    · exact Inv.countVote rfl ⟨(addVoteTo_candidates _ _ _ h.candidates).1, h.changes⟩ hsort
    · next hnone =>
      have hnew : ∀ c ∈ s.externalAddresses, c.addr ≠ v.ip := by simpa using hnone
      split
      · exact h.maybeRotate hsort
      · split
        · split
          · exact h.maybeRotate hsort
          · -- a candidate is dropped, and the others stay
            have hevict : ∀ c ∈ s.evict.externalAddresses, c ∈ s.externalAddresses := fun c hc =>
              (List.perm_insertionSort _ _).subset (List.mem_of_mem_dropLast hc)
            have hdropped : Inv hashAddress s.evict := ⟨fun c hc => h.candidates c (hevict c hc), h.changes⟩
            exact hdropped.vote_new (fun c hc => hnew c (hevict c hc)) hsort
        · exact h.vote_new hnew hsort

/-- A vote that is looked at is for a candidate, or it is of a source that has added none since the last
rotation and there is room for another one, or there is no room and it is declined at random. -/
def AddsOnce (s : IpVoter) (v : Vote) : Prop :=
  (v.ip.isUnspecified || v.ip.isLocal || v.ip.isLoopback || v.ip.isV4 != v.source.isV4) = false →
    (∃ c ∈ s.externalAddresses, c.addr = v.ip) ∨
    (s.externalAddresses.length ≤ 40 ∧ v.source ∉ s.adders) ∨
    (40 < s.externalAddresses.length ∧ v.random = true)

theorem Tallied.castVote (h : Tallied s) (hinv : Inv hashAddress s) (hadds : AddsOnce s v)
    (hsort : PartialSorts v.partialSort) : Tallied (s.castVote hashAddress v).2 := by
  rw [IpVoter.castVote]
  split
  · exact h
  · next hlooked =>
    have hcases := hadds (eq_false_of_ne_true hlooked)
    split
    · refine Tallied.countVote rfl h.adders_nodup ?_ hsort
      rw [(addVoteTo_candidates _ _ _ hinv.candidates).2, h.total_eq]
    · next hnone =>
      have hnew : ∀ c ∈ s.externalAddresses, c.addr ≠ v.ip := by simpa using hnone
      have hcases := hcases.resolve_left fun ⟨c, hc, haddr⟩ => hnew c hc haddr
      split
      · exact h.maybeRotate hsort
      · split
        · next hfull =>
          obtain ⟨-, hrandom⟩ := hcases.resolve_left fun hroom => absurd hroom.1 (not_le.mpr hfull)
          rw [if_pos hrandom]
          exact h.maybeRotate hsort
        · next hroom =>
          obtain ⟨-, hadder⟩ := hcases.resolve_right fun hfull => hroom hfull.1
          exact h.vote_new hnew hadder hsort

/-- In every run, votes are of distinct sources and the address is changed with enough of them. -/
theorem reached_inv {quiet : IpVoter → Vote → Prop} (h : Reached hashAddress quiet s) : Inv hashAddress s := by
  induction h with
  | init now => exact ⟨by simp, by simp⟩
  | step _ hsort _ ih => exact ih.castVote hsort

/-- Single voters are resisted in every run in which no source adds a second candidate between rotations and
no candidate is dropped. -/
theorem reached_resists (hashAddress : IpAddress → Fin 4 → UInt8) {s : IpVoter}
    (h : Reached hashAddress AddsOnce s) : Resists s := by
  have htallied : Tallied s := by
    induction h with
    | init now => exact ⟨List.nodup_nil, rfl⟩
    | step hs hsort hadds ih => exact ih.castVote (reached_inv hs) hadds hsort
  have hinv := reached_inv h
  exact ⟨htallied.adders_nodup, fun c hc => (hinv.candidates c hc).le_card, htallied.total_eq, hinv.changes⟩

/-! ## Runs -/

theorem before_eq_false_iff (a b : ExternalIp) : b.before a = false ↔
    b.numVotes < a.numVotes ∨ (b.numVotes = a.numVotes ∧ b.sources ≤ a.sources) := by
  rw [ExternalIp.before, Bool.or_eq_false_iff, Bool.and_eq_false_iff, decide_eq_false_iff_not,
    decide_eq_false_iff_not, decide_eq_false_iff_not, UInt8.lt_iff_toNat_lt, UInt8.le_iff_toNat_le]
  omega

/-- Sorting all candidates puts the first two in order. -/
theorem partialSorts_stableSort : PartialSorts ExternalIp.stableSort := by
  have htotal : Std.Total fun a b : ExternalIp => b.before a = false := ⟨fun a b => by
    rw [before_eq_false_iff, before_eq_false_iff, UInt8.le_iff_toNat_le, UInt8.le_iff_toNat_le]
    omega⟩
  have htrans : IsTrans ExternalIp fun a b => b.before a = false := ⟨fun a b c hab hbc => by
    rw [before_eq_false_iff, UInt8.le_iff_toNat_le] at hab hbc ⊢
    omega⟩
  intro candidates
  refine ⟨List.perm_insertionSort _ _, fun first second rest heq => ?_⟩
  have hsorted := List.pairwise_insertionSort (fun a b : ExternalIp => b.before a = false) candidates
  rw [ExternalIp.stableSort] at heq
  rw [heq] at hsorted
  obtain ⟨hfirst, hsorted⟩ := List.pairwise_cons.mp hsorted
  exact ⟨hfirst second List.mem_cons_self, (List.pairwise_cons.mp hsorted).1⟩

/-- The address that two peers are at. -/
def firstPeer : IpAddress := .v4 0x01020304

def secondPeer : IpAddress := .v4 0x09080706

/-- The first bytes of the hashes of the two. -/
def peerHash (ip : IpAddress) (i : Fin 4) : UInt8 :=
  if ip = firstPeer then [18, 218, 218, 31].getD i 0 else [173, 133, 37, 103].getD i 0

def voteOf (source : IpAddress) (ip : BitVec 32) : Vote :=
  { ip := .v4 ip, sourceType := 1, source, random := false, now := 0, partialSort := ExternalIp.stableSort }

/-- Two peers agree, and the address that they see is settled. -/
theorem reached_resists_agree : ∃ s, Reached peerHash AddsOnce s ∧
    s.validExternal = true ∧ s.externalAddress = .v4 0x05060708 ∧ Resists s := by
  have hinit := @Reached.init peerHash AddsOnce 0
  have hfirst := hinit.step (v := voteOf firstPeer 0x05060708) partialSorts_stableSort
    (fun _ => .inr (.inl ⟨by decide, by simp⟩))
  have hsecond := hfirst.step (v := voteOf secondPeer 0x05060708) partialSorts_stableSort
    (fun _ => .inl ⟨_, List.mem_singleton_self _, rfl⟩)
  exact ⟨_, hsecond, by decide +kernel, by decide +kernel, reached_resists peerHash hsecond⟩

/-- One peer adds two candidates. -/
theorem reached_not_resists : ∃ s, Reached peerHash (fun _ _ => True) s ∧
    s.adders = [firstPeer, firstPeer] ∧ ¬ Resists s := by
  have hinit := @Reached.init peerHash (fun _ _ => True) 0
  have hfirst := hinit.step (v := voteOf firstPeer 0x05060708) partialSorts_stableSort trivial
  have hsecond := hfirst.step (v := voteOf firstPeer 0x05060709) partialSorts_stableSort trivial
  have hadders : ((({ lastRotate := 0 : IpVoter }.castVote peerHash (voteOf firstPeer 0x05060708)).2.castVote peerHash
      (voteOf firstPeer 0x05060709)).2).adders = [firstPeer, firstPeer] := by decide +kernel
  refine ⟨_, hsecond, hadders, fun h => ?_⟩
  have hnodup := h.adds_once
  rw [hadders] at hnodup
  exact absurd hnodup (by decide)

end IpVoter

end Session

end LibtorrentSN
