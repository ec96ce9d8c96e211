import LibtorrentSN.Torrent.ResumeRoundTrip

/-!
# Resume data: the peers

The endpoints of peers are written one after the other, those of IPv4 and those of IPv6 under keys of their own
(`src/write_resume_data.cpp`), and read back by four loops (`src/read_resume_data.cpp`). One of the loops begins at
an index too high by one, and loses the last endpoint.
-/

namespace LibtorrentSN

namespace Torrent

namespace ResumeData

open Bencode (Value bencode)
open Info (key)

/-- Where the pointer stands in each round of `for (int i = first; i < length; i += size)`. A round reads one
endpoint, which moves the pointer by its size. -/
def readPointers (size length : ℕ) : (rounds i ptr : ℕ) → List ℕ
  | 0, _, _ => []
  | rounds + 1, i, ptr =>
    if i < length then ptr :: readPointers size length rounds (i + size) (ptr + size) else []

/-- The size of an endpoint and the first index, in the loops over `peers`, `peers6`, `banned_peers` and
`banned_peers6`. -/
def endpointLoops : List (ℕ × ℕ) := [(6, 5), (18, 17), (6, 6), (18, 17)]

/-- No round of a loop reads past the end of the string. -/
def ReadsWithin (bytes : List UInt8) : Prop :=
  ∀ loop ∈ endpointLoops, ∀ ptr ∈ readPointers loop.1 bytes.length (bytes.length + 1) loop.2 0,
    ptr + loop.1 ≤ bytes.length

/-! ## The loops -/

section Loops
variable {size length i ptr rounds first n : ℕ} {bytes : List UInt8} {es : List Endpoint}

/-- The pointer stays behind the index. -/
theorem readPointers_within (h : ptr + size ≤ i + 1) : ∀ x ∈ readPointers size length rounds i ptr,
    x + size ≤ length := by
  induction rounds generalizing i ptr with
  | zero => simp [readPointers]
  | succ rounds ih =>
    rw [readPointers]
    split
    next hlt =>
      refine List.forall_mem_cons.mpr ⟨by omega, ih (by omega)⟩
    next hend => simp

theorem readsWithin (bytes : List UInt8) : ReadsWithin bytes := by
  intro loop hloop
  refine readPointers_within ?_
  simp only [endpointLoops, List.mem_cons, List.not_mem_nil, or_false] at hloop
  rcases hloop with rfl | rfl | rfl | rfl <;> decide

/-- The rounds are counted by the number of endpoints. -/
theorem readPointers_eq (hsize : 0 < size) (hrounds : length < rounds + i) :
    readPointers size length rounds i ptr =
      (List.range ((length + size - 1 - i) / size)).map fun j => ptr + j * size := by
  induction rounds generalizing i ptr with
  | zero =>
    have hnone : (length + size - 1 - i) / size = 0 := Nat.div_eq_of_lt (by omega)
    rw [hnone]
    rfl
  | succ rounds ih =>
    rw [readPointers]
    split
    next hlt =>
      have hcount : (length + size - 1 - i) / size = (length + size - 1 - (i + size)) / size + 1 := by
        have hsub : length + size - 1 - i = length + size - 1 - (i + size) + size := by omega
        rw [hsub, Nat.add_div_right _ hsize]
      rw [ih (by omega), hcount, List.range_succ_eq_map, List.map_cons, List.map_map, Nat.zero_mul, Nat.add_zero]
      refine congrArg _ (List.map_congr_left fun j _ => ?_)
      rw [Function.comp_apply, Nat.succ_mul]
      omega
    next hend =>
      have hnone : (length + size - 1 - i) / size = 0 := Nat.div_eq_of_lt (by omega)
      rw [hnone]
      rfl

/-- The endpoint the bytes begin with. -/
def endpointAt (haddr : n = 4 ∨ n = 16) (bytes : List UInt8) : Option Endpoint :=
  if h : (bytes.take n).length = n then
    some ⟨bytes.take n, UInt16.ofNat (256 * (bytes.getD n 0).toNat + (bytes.getD (n + 1) 0).toNat), by
      rw [h]
      exact haddr⟩
  else none

/-- The loop of the reader reads an endpoint wherever the pointer stands. -/
theorem readEndpoints_eq (haddr : n = 4 ∨ n = 16) (first : ℕ) (bytes : List UInt8) :
    readEndpoints n first haddr bytes =
      (readPointers (n + 2) bytes.length (bytes.length + 1) first 0).filterMap fun ptr =>
        endpointAt haddr (bytes.drop ptr) := by
  rw [readPointers_eq (by omega) (by omega), List.filterMap_map]
  simp only [readEndpoints, endpointAt, Function.comp_def, Nat.zero_add]

theorem drop_flatMap_writeEndpoint (hes : ∀ e ∈ es, e.addr.length = n) (j : ℕ) :
    (es.flatMap writeEndpoint).drop (j * (n + 2)) = (es.drop j).flatMap writeEndpoint := by
  induction j generalizing es with
  | zero => rw [Nat.zero_mul]; rfl
  | succ j ih =>
    cases es with
    | nil => rw [List.drop_nil, List.flatMap_nil, List.drop_nil]
    | cons e es =>
      obtain ⟨he, hes⟩ := List.forall_mem_cons.mp hes
      have hlen : (writeEndpoint e).length = n + 2 := by
        rw [writeEndpoint, List.length_append, he]
        rfl
      rw [List.flatMap_cons, List.drop_succ_cons, ← ih hes, Nat.succ_mul, Nat.add_comm, ← List.drop_drop,
        List.drop_left' hlen]

theorem length_flatMap_writeEndpoint (hes : ∀ e ∈ es, e.addr.length = n) :
    (es.flatMap writeEndpoint).length = es.length * (n + 2) := by
  rw [List.length_flatMap]
  have hmap : es.map (fun e => (writeEndpoint e).length) = List.replicate es.length (n + 2) := by
    refine List.eq_replicate_iff.mpr ⟨List.length_map _, fun x hx => ?_⟩
    obtain ⟨e, he, rfl⟩ := List.mem_map.mp hx
    rw [writeEndpoint, List.length_append, hes e he]
    rfl
  rw [hmap, List.sum_replicate, smul_eq_mul]

/-- The two bytes of a port. -/
theorem port_bytes (port : UInt16) :
    UInt16.ofNat (256 * (UInt8.ofNat (port.toNat / 256)).toNat + (UInt8.ofNat (port.toNat % 256)).toNat) = port := by
  have hlt := port.toNat_lt
  have hhigh : (UInt8.ofNat (port.toNat / 256)).toNat = port.toNat / 256 := by
    rw [UInt8.toNat_ofNat']
    omega
  have hlow : (UInt8.ofNat (port.toNat % 256)).toNat = port.toNat % 256 := by
    rw [UInt8.toNat_ofNat']
    omega
  rw [hhigh, hlow, Nat.div_add_mod, UInt16.ofNat_toNat]

theorem endpointAt_write (haddr : n = 4 ∨ n = 16) {e : Endpoint} (he : e.addr.length = n) (rest : List UInt8) :
    endpointAt haddr (writeEndpoint e ++ rest) = some e := by
  have htake : (writeEndpoint e ++ rest).take n = e.addr := by
    rw [writeEndpoint, List.append_assoc, List.take_left' he]
  have hget : ∀ d, (writeEndpoint e ++ rest).getD (n + d) 0 =
      ([UInt8.ofNat (e.port.toNat / 256), UInt8.ofNat (e.port.toNat % 256)] ++ rest).getD d 0 := by
    intro d
    rw [writeEndpoint, List.append_assoc, List.getD_append_right _ _ _ _ (by omega), he, Nat.add_sub_cancel_left]
  have hhigh := hget 0
  have hlow := hget 1
  rw [Nat.add_zero] at hhigh
  simp only [endpointAt, htake, hhigh, hlow, he]
  exact congrArg some (congrArg (Endpoint.mk e.addr · _) (port_bytes e.port))

theorem filterMap_range_getElem? {α : Type*} (l : List α) (k : ℕ) :
    (List.range k).filterMap (l[·]?) = l.take k := by
  induction k with
  | zero => rfl
  | succ k ih =>
    rw [List.range_succ, List.filterMap_append, ih, List.take_add_one]
    cases h : l[k]? <;> simp [h]

/-- As many endpoints are read back as the loop has rounds. -/
theorem readEndpoints_write (haddr : n = 4 ∨ n = 16) (hes : ∀ e ∈ es, e.addr.length = n) {first : ℕ}
    (hfirst : n + 1 ≤ first) : readEndpoints n first haddr (es.flatMap writeEndpoint) =
      es.take ((es.length * (n + 2) + (n + 2) - 1 - first) / (n + 2)) := by
  have hcount : (es.length * (n + 2) + (n + 2) - 1 - first) / (n + 2) ≤ es.length :=
    Nat.div_le_of_le_mul (by rw [Nat.mul_comm (n + 2)]; omega)
  rw [readEndpoints_eq, readPointers_eq (by omega) (by omega), List.filterMap_map,
    length_flatMap_writeEndpoint hes, ← filterMap_range_getElem?]
  refine List.filterMap_congr fun j hj => ?_
  have hj : j < es.length := (List.mem_range.mp hj).trans_le hcount
  rw [Function.comp_apply, Nat.zero_add, drop_flatMap_writeEndpoint hes, List.drop_eq_getElem_cons hj,
    List.flatMap_cons, endpointAt_write haddr (hes _ (List.getElem_mem hj)), List.getElem?_eq_getElem hj]

/-- The loops that begin one below the size read all endpoints. -/
theorem readEndpoints_all (haddr : n = 4 ∨ n = 16) (hes : ∀ e ∈ es, e.addr.length = n) :
    readEndpoints n (n + 1) haddr (es.flatMap writeEndpoint) = es := by
  have hcount : (es.length * (n + 2) + (n + 2) - 1 - (n + 1)) / (n + 2) = es.length := by
    have hsub : es.length * (n + 2) + (n + 2) - 1 - (n + 1) = es.length * (n + 2) := by omega
    rw [hsub, Nat.mul_div_cancel _ (by omega)]
  rw [readEndpoints_write haddr hes le_rfl, hcount, List.take_length]

/-- The loop that begins at the size loses the last one. -/
theorem readEndpoints_dropLast (haddr : n = 4 ∨ n = 16) (hes : ∀ e ∈ es, e.addr.length = n) :
    readEndpoints n (n + 2) haddr (es.flatMap writeEndpoint) = es.dropLast := by
  have hcount : (es.length * (n + 2) + (n + 2) - 1 - (n + 2)) / (n + 2) = es.length - 1 := by
    cases hlen : es.length with
    | zero => exact Nat.div_eq_of_lt (by omega)
    | succ k =>
      have hsub : (k + 1) * (n + 2) + (n + 2) - 1 - (n + 2) = n + 1 + k * (n + 2) := by
        rw [Nat.succ_mul]
        omega
      rw [hsub, Nat.add_mul_div_right _ _ (by omega), Nat.div_eq_of_lt (by omega)]
      omega
  rw [readEndpoints_write haddr hes (Nat.le_succ _), hcount, List.dropLast_eq_take]

end Loops

/-! ## The peers come back -/

/-- The peers and the banned peers are there, those of IPv4 before those of IPv6. -/
def RestoresPeers (p q : AddTorrentParams) : Prop :=
  q.peers = p.peers.filter (·.isV6 = false) ++ p.peers.filter (·.isV6 = true) ∧
    q.bannedPeers = p.bannedPeers.filter (·.isV6 = false) ++ p.bannedPeers.filter (·.isV6 = true)

section Peers
variable {sha1 : List UInt8 → List UInt8} {cfg : LoadTorrentLimits} {info : Value} {p : AddTorrentParams}

theorem length_addr_of_v4 (es : List Endpoint) : ∀ e ∈ es.filter (·.isV6 = false), e.addr.length = 4 := by
  intro e he
  have hv4 : e.isV6 = false := by simpa using (List.mem_filter.mp he).2
  rcases e.isAddress with h | h
  · exact h
  · rw [Endpoint.isV6, decide_eq_false_iff_not] at hv4
    exact absurd h hv4

theorem length_addr_of_v6 (es : List Endpoint) : ∀ e ∈ es.filter (·.isV6 = true), e.addr.length = 16 := by
  intro e he
  have hv6 : e.isV6 = true := by simpa using (List.mem_filter.mp he).2
  exact of_decide_eq_true hv6

/-- The string under a key that is left out for an empty list. -/
theorem stringValue_endpoints {s : String} {es : List Endpoint} {v6 : Bool}
    (h : (s, if es = [] then none else some (.string (writeEndpoints v6 es))) ∈ resumeFields p) :
    dictFindStringValue (resumeValue info p) (key s) = writeEndpoints v6 es := by
  split at h
  next hes =>
    rw [dictFindStringValue, Info.dictFindString, dictFind_none h, hes]
    rfl
  next hes => exact stringValue_field h

/-- What the four loops read. -/
theorem readFields_peers (sha1 : List UInt8 → List UInt8) (info : Value) (p : AddTorrentParams) (pieceLimit : ℤ) :
    (readFields sha1 (resumeValue info p) 1 p.infoHash pieceLimit).2.peers =
      p.peers.filter (·.isV6 = false) ++ p.peers.filter (·.isV6 = true) ∧
    (readFields sha1 (resumeValue info p) 1 p.infoHash pieceLimit).2.bannedPeers =
      (p.bannedPeers.filter (·.isV6 = false)).dropLast ++ p.bannedPeers.filter (·.isV6 = true) := by
  have hpeers : dictFindStringValue (resumeValue info p) (key "peers") = writeEndpoints false p.peers :=
    stringValue_endpoints (field_mem 38 rfl)
  have hpeers6 : dictFindStringValue (resumeValue info p) (key "peers6") = writeEndpoints true p.peers :=
    stringValue_endpoints (field_mem 39 rfl)
  have hbanned : dictFindStringValue (resumeValue info p) (key "banned_peers") =
      writeEndpoints false p.bannedPeers := stringValue_endpoints (field_mem 40 rfl)
  have hbanned6 : dictFindStringValue (resumeValue info p) (key "banned_peers6") =
      writeEndpoints true p.bannedPeers := stringValue_endpoints (field_mem 41 rfl)
  rw [readFields]
  dsimp only
  rw [hpeers, hpeers6, hbanned, hbanned6, writeEndpoints, writeEndpoints, writeEndpoints, writeEndpoints,
    readEndpoints_all _ (length_addr_of_v4 _), readEndpoints_all _ (length_addr_of_v6 _),
    readEndpoints_dropLast _ (length_addr_of_v4 _), readEndpoints_all _ (length_addr_of_v6 _)]
  exact ⟨rfl, rfl⟩

theorem dropLast_eq_self_iff {α : Type*} {l : List α} : l.dropLast = l ↔ l = [] := by
  refine ⟨fun h => ?_, fun h => by rw [h]; rfl⟩
  have hlen := congrArg List.length h
  rw [List.length_dropLast] at hlen
  exact List.length_eq_zero_iff.mp (by omega)

theorem no_v4_iff {es : List Endpoint} : es.filter (·.isV6 = false) = [] ↔ ∀ e ∈ es, e.isV6 = true := by
  rw [List.filter_eq_nil_iff]
  simp

theorem eq_nil_of_parts {es : List Endpoint}
    (h : es.filter (·.isV6 = false) ++ es.filter (·.isV6 = true) = []) : es = [] := by
  obtain ⟨hv4, hv6⟩ := List.append_eq_nil_iff.mp h
  have hall := no_v4_iff.mp hv4
  rw [List.filter_eq_self.mpr fun e he => decide_eq_true (hall e he)] at hv6
  exact hv6

theorem readResumeBuffer_of_not_within (hp : p.WellFormed)
    (hti : ∀ ti ∈ p.ti, ti.infoSection = info.encode ∧ info.Valid)
    (hfit : ¬ WithinLimits cfg (resumeValue info p)) :
    (readResumeBuffer sha1 (bencode (writeResumeData p)).1 cfg).2 = {} := by
  rw [readResumeBuffer]
  exact congrArg Prod.snd (if_neg fun h => hfit (withinLimits_of_decoded hp hti h))

/-- Peers and banned peers survive just if no banned peer has an IPv4 address, and the resume data can be decoded
at all. The loops never read past the end of their strings. -/
theorem restoresPeers_iff (sha1 : List UInt8 → List UInt8) (cfg : LoadTorrentLimits) (p : AddTorrentParams)
    (info : Value) (hp : p.WellFormed) (hti : ∀ ti ∈ p.ti, ti.infoSection = info.encode ∧ info.Valid) :
    (∀ bytes, ReadsWithin bytes) ∧
        RestoresPeers p (readResumeBuffer sha1 (bencode (writeResumeData p)).1 cfg).2 ↔
      (∀ e ∈ p.bannedPeers, e.isV6 = true) ∧
        (WithinLimits cfg (resumeValue info p) ∨ p.peers = [] ∧ p.bannedPeers = []) := by
  rw [and_iff_right readsWithin]
  by_cases hfit : WithinLimits cfg (resumeValue info p)
  · obtain ⟨hpeers, hbanned⟩ := readFields_peers sha1 info p cfg.maxPieces
    rw [readResumeBuffer_eq hp hti hfit, readResumeData_eq_readFields, RestoresPeers, hpeers, hbanned,
      and_iff_right rfl, List.append_left_inj, dropLast_eq_self_iff, no_v4_iff]
    exact ⟨fun h => ⟨h, .inl hfit⟩, fun h => h.1⟩
  · -- nothing is read, which is right if there was nothing
    rw [readResumeBuffer_of_not_within hp hti hfit, RestoresPeers, or_iff_right hfit]
    constructor
    · rintro ⟨hpeers, hbanned⟩
      have hpeers := eq_nil_of_parts hpeers.symm
      have hbanned := eq_nil_of_parts hbanned.symm
      exact ⟨by simp [hbanned], hpeers, hbanned⟩
    · rintro ⟨-, hpeers, hbanned⟩
      rw [hpeers, hbanned]
      exact ⟨rfl, rfl⟩

/-- One banned peer of each kind, and a peer. -/
def someBanned (banned : List Endpoint) : AddTorrentParams where
  infoHash := ⟨List.replicate 20 1, length_ones⟩
  peers := [localPeer]
  bannedPeers := banned

theorem someBanned_wellFormed (banned : List Endpoint) : (someBanned banned).WellFormed where
  tiers := rfl
  tier := by simp [someBanned]
  filePriorities := by simp [someBanned]
  piecePriorities := by simp [someBanned]
  renamedFiles := fun i name hname => by
    rw [someBanned, Std.TreeMap.getElem?_emptyc] at hname
    cases hname
  unfinishedPieces := fun i hi => absurd hi Std.TreeMap.not_mem_emptyc

theorem restoresPeers_iff_v6 :
    RestoresPeers (someBanned [⟨List.replicate 16 1, 6881, .inr rfl⟩]) (readResumeBuffer (fun _ => [])
      (bencode (writeResumeData (someBanned [⟨List.replicate 16 1, 6881, .inr rfl⟩]))).1 {}).2 :=
  ((restoresPeers_iff (fun _ => []) {} (someBanned [⟨List.replicate 16 1, 6881, .inr rfl⟩]) (.list [])
    (someBanned_wellFormed _) (fun _ h => by cases h)).mpr
      ⟨by decide, .inl (by decide +kernel)⟩).2

/-- A banned peer with an IPv4 address is forgotten. -/
theorem restoresPeers_not :
    ¬ RestoresPeers (someBanned [⟨[10, 0, 0, 2], 6881, .inl rfl⟩]) (readResumeBuffer (fun _ => [])
      (bencode (writeResumeData (someBanned [⟨[10, 0, 0, 2], 6881, .inl rfl⟩]))).1 {}).2 := by
  rintro ⟨-, h⟩
  have hti : ∀ ti ∈ (someBanned [⟨[10, 0, 0, 2], 6881, .inl rfl⟩]).ti,
      ti.infoSection = (Value.list []).encode ∧ (Value.list []).Valid := fun _ h => by cases h
  have hnone : (readResumeBuffer (fun _ => [])
      (bencode (writeResumeData (someBanned [⟨[10, 0, 0, 2], 6881, .inl rfl⟩]))).1 {}).2.bannedPeers = [] := by
    by_cases hfit : WithinLimits {} (resumeValue (.list []) (someBanned [⟨[10, 0, 0, 2], 6881, .inl rfl⟩]))
    · rw [readResumeBuffer_eq (someBanned_wellFormed _) hti hfit, readResumeData_eq_readFields,
        (readFields_peers _ _ _ _).2]
      rfl
    · rw [readResumeBuffer_of_not_within (someBanned_wellFormed _) hti hfit]
  rw [hnone] at h
  exact absurd (eq_nil_of_parts h.symm) (List.cons_ne_nil _ _)

end Peers

end ResumeData

end Torrent

end LibtorrentSN
