import Mathlib.Data.Int.Order.Basic
import Mathlib.Data.List.Infix
import Mathlib.Data.List.Nodup
import Mathlib.Data.List.Pairwise
import Mathlib.Data.List.TakeWhile
import Mathlib.Order.Basic

/-!
# The list of trackers

`m_trackers` is sorted by tier, and `m_last_working_tracker`, an index of eight bits, is to follow the tracker
that answered last while others are added, moved and swapped (`src/torrent.cpp`). Each tracker in the model
has a number that says which one it is, whatever its place and its url.
-/

namespace LibtorrentSN

namespace Tracker

/-- `announce_entry`, so far as the list depends on it. -/
structure TrackerEntry where
  url : List Char
  trackerid : List Char := []
  tier : ℕ := 0
  failLimit : ℕ := 0
  source : ℕ := 0
  -- which tracker it is, and whether `add_tracker` put it in the list
  id : ℕ := 0
  added : Bool := false
  deriving DecidableEq

namespace TrackerEntry

/-- The part of a url before the first of these characters. -/
def upTo (stop : Char → Bool) (s : List Char) : List Char := s.takeWhile fun c => !stop c

/-- The host name of `parse_url_components`. It is empty where the url does not parse so far. -/
def hostName (url : List Char) : List Char :=
  -- from the colon on
  match url.dropWhile (· ≠ ':') with
  | ':' :: '/' :: '/' :: start =>
    let authority := upTo (fun c => c = '/' || c = '?' || c = '#') start
    let user := upTo (· = '@') start
    -- the user and the password end at an `@`, with a colon before it
    let start := if user.length < authority.length ∧ ':' ∈ user then start.drop (user.length + 1) else start
    let authority := upTo (fun c => c = '/' || c = '?' || c = '#') start
    match start with
    | '[' :: address => if ']' ∈ address then upTo (· = ']') address else []
    | _ => upTo (· = ':') authority
  | _ => []

def isUdp (url : List Char) : Bool := url.take 6 = "udp://".toList

end TrackerEntry

/-- The trackers of a torrent. -/
structure TrackerList where
  trackers : List TrackerEntry := []
  lastWorking : ℤ := -1
  -- the number of the next tracker, the one that answered last, and what `replace_trackers` made where udp
  -- trackers are preferred
  nextId : ℕ := 0
  lastAnswered : Option ℕ := none
  preferred : List (List TrackerEntry) := []

namespace TrackerList

/-- The value of an `int8_t`. -/
def int8 (n : ℤ) : ℤ := (n + 128) % 256 - 128

variable (s : TrackerList)

/-! ## Replacing the trackers -/

/-- New trackers for these entries. Entries without a url are left out. -/
def fresh : (id : ℕ) → List TrackerEntry → List TrackerEntry
  | _, [] => []
  | id, t :: urls => if t.url = [] then fresh id urls else { t with id, added := false } :: fresh (id + 1) urls

/-- The inner loop of `prioritize_udp_trackers`: the udp tracker changes places with the first other tracker of
its host, and they keep the tiers of the places. -/
def exchange (u : TrackerEntry) : List TrackerEntry → List TrackerEntry × TrackerEntry
  | [] => ([], u)
  | t :: front =>
    if TrackerEntry.hostName t.url = TrackerEntry.hostName u.url ∧ TrackerEntry.isUdp t.url = false then
      ({ u with tier := t.tier } :: front, { t with tier := u.tier })
    else (t :: (exchange u front).1, (exchange u front).2)

/-- The outer loop of `prioritize_udp_trackers`, at the first tracker of the rest. -/
def prioritizeLoop : (front rest : List TrackerEntry) → List TrackerEntry
  | front, [] => front
  | front, u :: rest =>
    if TrackerEntry.isUdp u.url then
      prioritizeLoop ((exchange u front).1 ++ [(exchange u front).2]) rest
    else prioritizeLoop (front ++ [u]) rest

def prioritizeUdpTrackers (trackers : List TrackerEntry) : List TrackerEntry := prioritizeLoop [] trackers

/-- `replace_trackers`, with what `std::sort` makes of the new trackers. -/
def replaceTrackers (sorted : List TrackerEntry) (preferUdp : Bool) : TrackerList :=
  let trackers := if preferUdp then prioritizeUdpTrackers sorted else sorted
  { s with
    trackers
    lastWorking := -1
    nextId := s.nextId + sorted.length
    preferred := if preferUdp then s.preferred ++ [trackers] else s.preferred }

/-! ## Adding a tracker -/

/-- `find_tracker` -/
def findTracker (url : List Char) : Option ℕ := s.trackers.findIdx? fun t => t.url = url

/-- `std::upper_bound` for a tier. -/
def upperBound (tier : ℕ) : ℕ := (s.trackers.takeWhile fun t => t.tier ≤ tier).length

def sourceClient : ℕ := 2

/-- `add_tracker` -/
def addTracker (url : TrackerEntry) : Bool × TrackerList :=
  if url.url = [] then (false, s)
  else
    match s.findTracker url.url with
    | some i =>
      (false, { s with trackers := s.trackers.modify i fun t => { t with source := t.source ||| url.source } })
    | none =>
      let k := s.upperBound url.tier
      let lastWorking := if (k : ℤ) < s.lastWorking then int8 (s.lastWorking + 1) else s.lastWorking
      let source := if url.source = 0 then sourceClient else url.source
      (true, { s with
        trackers := s.trackers.insertIdx k { url with source, id := s.nextId, added := true }
        lastWorking
        nextId := s.nextId + 1 })

/-! ## Moving a tracker -/

/-- One turn of the loop of `deprioritize_tracker`: the tracker changes places with the next one. -/
def swapNext (index : ℕ) (a b : TrackerEntry) : TrackerList :=
  { s with
    trackers := (s.trackers.set index b).set (index + 1) a
    lastWorking :=
      if s.lastWorking = index then int8 (s.lastWorking + 1)
      else if s.lastWorking = index + 1 then int8 (s.lastWorking - 1)
      else s.lastWorking }

def deprioritizeLoop : ℕ → TrackerList → (index : ℕ) → ℤ × TrackerList
  | 0, s, index => (index, s)
  | fuel + 1, s, index =>
    match s.trackers[index]?, s.trackers[index + 1]? with
    | some a, some b => if a.tier = b.tier then deprioritizeLoop fuel (s.swapNext index a b) (index + 1) else (index, s)
    | _, _ => (index, s)

/-- `deprioritize_tracker` -/
def deprioritizeTracker (index : ℕ) : ℤ × TrackerList :=
  if s.trackers.length ≤ index then (-1, s) else deprioritizeLoop s.trackers.length s index

/-! ## Answers -/

/-- The part of `tracker_response` that has to do with the list, for a tracker with an endpoint for the socket of
the request or without one. -/
def trackerResponse (url : List Char) (hasEndpoint : Bool) : TrackerList :=
  match s.findTracker url with
  | some i =>
    if hasEndpoint then
      { s with lastWorking := int8 i, lastAnswered := s.trackers[i]?.map TrackerEntry.id }
    else s
  | none => s

/-! ## Runs -/

inductive Event
  | replaceTrackers (urls sorted : List TrackerEntry) (preferUdp : Bool)
  | addTracker (url : TrackerEntry)
  | deprioritizeTracker (index : ℕ)
  | trackerResponse (url : List Char) (hasEndpoint : Bool)

def SortedByTier (trackers : List TrackerEntry) : Prop := trackers.Pairwise fun a b => a.tier ≤ b.tier

/-- No udp tracker stands behind another tracker of its host. -/
def UdpFirst (trackers : List TrackerEntry) : Prop :=
  trackers.Pairwise fun a b => TrackerEntry.isUdp b.url = true → TrackerEntry.isUdp a.url = false →
    TrackerEntry.hostName a.url ≠ TrackerEntry.hostName b.url

inductive Step (s : TrackerList) : Event → TrackerList → Prop
  | replaceTrackers (urls sorted : List TrackerEntry) (preferUdp : Bool)
      (hperm : sorted.Perm (fresh s.nextId urls)) (hsorted : SortedByTier sorted) :
      Step s (.replaceTrackers urls sorted preferUdp) (s.replaceTrackers sorted preferUdp)
  | addTracker (url : TrackerEntry) : Step s (.addTracker url) (s.addTracker url).2
  | deprioritizeTracker (index : ℕ) : Step s (.deprioritizeTracker index) (s.deprioritizeTracker index).2
  | trackerResponse (url : List Char) (hasEndpoint : Bool) :
      Step s (.trackerResponse url hasEndpoint) (s.trackerResponse url hasEndpoint)

/-- The states of the runs whose steps all meet a condition, from any sorted list. -/
inductive Reached (quiet : TrackerList → Event → Prop) : TrackerList → Prop
  | init (trackers : List TrackerEntry) (nextId : ℕ) (hsorted : SortedByTier trackers)
      (hids : (trackers.map TrackerEntry.id).Nodup) (hlt : ∀ t ∈ trackers, t.id < nextId)
      (hadded : ∀ t ∈ trackers, t.added = false) : Reached quiet { trackers, nextId }
  | step {s s' : TrackerList} {e : Event} (hs : Reached quiet s) (hq : quiet s e) (h : Step s e s') :
      Reached quiet s'

/-- The list is sorted, what `add_tracker` added is there once, and the index is that of the tracker that answered
last. -/
structure Kept (s : TrackerList) : Prop where
  sorted : SortedByTier s.trackers
  ids_nodup : (s.trackers.map TrackerEntry.id).Nodup
  added_once : s.trackers.Pairwise fun a b => a.url = b.url → a.added = false ∧ b.added = false
  last_working : s.lastWorking = -1 ∨ ∃ (i : ℕ) (t : TrackerEntry), s.lastWorking = i ∧
    s.trackers[i]? = some t ∧ s.lastAnswered = some t.id
  udp_first : ∀ trackers ∈ s.preferred, UdpFirst trackers

/-- The new tracker does not take the place of the one that answered last, and no index leaves its eight bits. -/
def Follows (s : TrackerList) : Event → Prop
  | .replaceTrackers _ _ _ => True
  | .addTracker url => url.url ≠ [] → s.findTracker url.url = none →
      (s.upperBound url.tier : ℤ) ≠ s.lastWorking ∧
        ((s.upperBound url.tier : ℤ) < s.lastWorking → s.lastWorking < 127)
  | .deprioritizeTracker index => s.lastWorking = index →
      ∀ j t t', s.trackers[index]? = some t → s.trackers[j]? = some t' → t'.tier = t.tier → j ≤ 127
  | .trackerResponse url hasEndpoint => hasEndpoint = true → ∀ i, s.findTracker url = some i → i ≤ 127

/-! ## Preferring udp trackers -/

/-- What does not change when trackers change places. -/
def key (t : TrackerEntry) : ℕ × List Char × Bool := (t.id, t.url, t.added)

variable {s} {t u : TrackerEntry} {front rest trackers : List TrackerEntry}

theorem exchange_tier (u : TrackerEntry) (front : List TrackerEntry) :
    (exchange u front).1.map TrackerEntry.tier = front.map TrackerEntry.tier ∧ (exchange u front).2.tier = u.tier := by
  induction front with
  | nil => exact ⟨rfl, rfl⟩
  | cons t front ih =>
    rw [exchange]
    split
    · exact ⟨rfl, rfl⟩
    · exact ⟨congrArg (t.tier :: ·) ih.1, ih.2⟩

theorem exchange_key (u : TrackerEntry) (front : List TrackerEntry) :
    (((exchange u front).1 ++ [(exchange u front).2]).map key).Perm ((front ++ [u]).map key) := by
  induction front with
  | nil => exact .refl _
  | cons t front ih =>
    rw [exchange]
    split
    · -- the two ends change places
      simp only [List.cons_append, List.map_cons, List.map_append, List.map_nil]
      exact (List.perm_append_singleton _ _).cons _ |>.trans
        ((List.Perm.swap _ _ _).trans ((List.perm_append_singleton _ _).symm.cons _))
    · exact ih.cons _

theorem prioritizeLoop_tier (front rest : List TrackerEntry) :
    (prioritizeLoop front rest).map TrackerEntry.tier = (front ++ rest).map TrackerEntry.tier := by
  induction rest generalizing front with
  | nil => rw [List.append_nil]; rfl
  | cons u rest ih =>
    rw [prioritizeLoop]
    split
    · obtain ⟨hfront, hu⟩ := exchange_tier u front
      rw [ih, List.map_append, List.map_append, hfront, List.map_singleton, hu, List.map_append, List.map_cons,
        List.append_assoc, List.singleton_append]
    · rw [ih, List.append_assoc, List.singleton_append]

theorem prioritizeLoop_key (front rest : List TrackerEntry) :
    ((prioritizeLoop front rest).map key).Perm ((front ++ rest).map key) := by
  induction rest generalizing front with
  | nil => rw [List.append_nil]; exact .refl _
  | cons u rest ih =>
    have hcons : front ++ u :: rest = front ++ [u] ++ rest := by simp
    rw [prioritizeLoop, hcons]
    split
    · refine (ih _).trans ?_
      rw [List.map_append]
      refine ((exchange_key u front).append_right (rest.map key)).trans ?_
      rw [← List.map_append]
    · exact ih _

theorem udpFirst_exchange (hu : TrackerEntry.isUdp u.url = true) (h : UdpFirst front) :
    UdpFirst ((exchange u front).1 ++ [(exchange u front).2]) := by
  induction front with
  | nil => exact List.pairwise_singleton _ _
  | cons t front ih =>
    obtain ⟨ht, hfront⟩ := List.pairwise_cons.mp h
    rw [exchange]
    split
    · next hmatch =>
      refine List.pairwise_cons.mpr ⟨fun b _ _ hnot => ?_, ?_⟩
      · rw [hu] at hnot
        cases hnot
      · refine List.pairwise_append.mpr ⟨hfront, List.pairwise_singleton _ _, fun a _ b hb hudp => ?_⟩
        rw [List.mem_singleton.mp hb, hmatch.2] at hudp
        cases hudp
    · next hmatch =>
      refine List.pairwise_cons.mpr ⟨fun y hy hudp hnot => ?_, ih hfront⟩
      -- each tracker behind has the url of one that was behind, or of the udp tracker
      obtain ⟨z, hz, hkey⟩ := List.mem_map.mp ((exchange_key u front).subset (List.mem_map_of_mem hy))
      have hurl : z.url = y.url := congrArg (fun k => k.2.1) hkey
      rw [← hurl] at hudp ⊢
      rcases List.mem_append.mp hz with hz | hz
      · exact ht z hz hudp hnot
      · rw [List.mem_singleton.mp hz]
        exact fun hhost => hmatch ⟨hhost, hnot⟩

theorem udpFirst_prioritizeLoop (h : UdpFirst front) (rest : List TrackerEntry) :
    UdpFirst (prioritizeLoop front rest) := by
  induction rest generalizing front with
  | nil => exact h
  | cons u rest ih =>
    rw [prioritizeLoop]
    split
    · next hu => exact ih (udpFirst_exchange hu h)
    · next hu =>
      refine ih (List.pairwise_append.mpr ⟨h, List.pairwise_singleton _ _, fun a _ b hb hudp => ?_⟩)
      rw [List.mem_singleton.mp hb] at hudp
      exact absurd hudp hu

theorem sortedByTier_iff : SortedByTier trackers ↔ (trackers.map TrackerEntry.tier).Pairwise (· ≤ ·) :=
  List.pairwise_map.symm

/-! ## New trackers -/

theorem fresh_spec (id : ℕ) (urls : List TrackerEntry) :
    ((fresh id urls).map TrackerEntry.id) = List.range' id (fresh id urls).length ∧
      ∀ t ∈ fresh id urls, t.added = false := by
  induction urls generalizing id with
  | nil => exact ⟨rfl, by simp [fresh]⟩
  | cons t urls ih =>
    rw [fresh]
    split
    · exact ih id
    · obtain ⟨hids, hadded⟩ := ih (id + 1)
      refine ⟨?_, List.forall_mem_cons.mpr ⟨rfl, hadded⟩⟩
      rw [List.map_cons, hids, List.length_cons, List.range'_succ]

/-! ## What holds of the list -/

/-- The invariant: what is kept, the numbers are below the next one, and the index has its eight bits. -/
structure Inv (s : TrackerList) : Prop extends Kept s where
  id_lt : ∀ t ∈ s.trackers, t.id < s.nextId
  last_le : s.lastWorking ≤ 127

theorem Inv.replaceTrackers (h : Inv s) {urls sorted : List TrackerEntry} (hperm : sorted.Perm (fresh s.nextId urls))
    (hsorted : SortedByTier sorted) (preferUdp : Bool) : Inv (s.replaceTrackers sorted preferUdp) := by
  obtain ⟨hids, hadded⟩ := fresh_spec s.nextId urls
  have htier : (s.replaceTrackers sorted preferUdp).trackers.map TrackerEntry.tier =
      sorted.map TrackerEntry.tier := by
    rw [TrackerList.replaceTrackers]
    dsimp only
    split
    · exact prioritizeLoop_tier [] sorted
    · rfl
  have hkey : ((s.replaceTrackers sorted preferUdp).trackers.map key).Perm ((fresh s.nextId urls).map key) := by
    rw [TrackerList.replaceTrackers]
    dsimp only
    split
    · exact (prioritizeLoop_key [] sorted).trans (hperm.map _)
    · exact hperm.map _
  have hid : ((s.replaceTrackers sorted preferUdp).trackers.map TrackerEntry.id).Perm
      (List.range' s.nextId sorted.length) := by
    have hmap := hkey.map Prod.fst
    rw [List.map_map, List.map_map] at hmap
    rw [hperm.length_eq, ← hids]
    exact hmap
  have hnone : ∀ t ∈ (s.replaceTrackers sorted preferUdp).trackers, t.added = false := by
    intro t ht
    obtain ⟨z, hz, heq⟩ := List.mem_map.mp (hkey.subset (List.mem_map_of_mem ht))
    exact (congrArg (fun k => k.2.2) heq).symm.trans (hadded z hz)
  refine ⟨⟨?_, hid.nodup_iff.mpr List.nodup_range', ?_, .inl rfl, ?_⟩, fun t ht => ?_,
    (by decide : (-1 : ℤ) ≤ 127)⟩
  · rw [sortedByTier_iff, htier]
    exact sortedByTier_iff.mp hsorted
  · exact (List.pairwise_of_forall_mem_list fun a ha b hb _ => ⟨hnone a ha, hnone b hb⟩)
  · rw [TrackerList.replaceTrackers]
    dsimp only
    cases preferUdp with
    | true =>
      exact List.forall_mem_append.mpr ⟨h.udp_first,
        List.forall_mem_singleton.mpr (udpFirst_prioritizeLoop List.Pairwise.nil sorted)⟩
    | false => exact h.udp_first
  · exact (List.mem_range'_1.mp (hid.subset (List.mem_map_of_mem ht))).2

/-! ## A tracker that is added -/

theorem insertIdx_takeWhile (p : TrackerEntry → Bool) (x : TrackerEntry) (trackers : List TrackerEntry) :
    trackers.insertIdx (trackers.takeWhile p).length x = trackers.takeWhile p ++ x :: trackers.dropWhile p := by
  induction trackers with
  | nil => rfl
  | cons t trackers ih =>
    by_cases ht : p t = true
    · rw [List.takeWhile_cons_of_pos ht, List.dropWhile_cons_of_pos ht, List.length_cons, List.insertIdx_succ_cons, ih]
      rfl
    · rw [List.takeWhile_cons_of_neg ht, List.dropWhile_cons_of_neg ht]
      rfl

theorem lt_of_mem_dropWhile {tier : ℕ} (h : SortedByTier trackers)
    (ht : t ∈ trackers.dropWhile fun t => t.tier ≤ tier) : tier < t.tier := by
  induction trackers with
  | nil => cases ht
  | cons a trackers ih =>
    obtain ⟨ha, hrest⟩ := List.pairwise_cons.mp h
    by_cases hle : a.tier ≤ tier
    · rw [List.dropWhile_cons_of_pos (by simpa using hle)] at ht
      exact ih hrest ht
    · rw [List.dropWhile_cons_of_neg (by simpa using hle)] at ht
      rcases List.mem_cons.mp ht with rfl | ht
      · exact not_le.mp hle
      · exact (not_le.mp hle).trans_le (ha t ht)

theorem int8_of_le {n : ℤ} (hlow : -128 ≤ n) (hhigh : n ≤ 127) : int8 n = n := by
  rw [int8]
  omega

theorem Inv.insert (h : Inv s) {url : TrackerEntry} (hnone : s.findTracker url.url = none) (source : ℕ)
    {lastWorking : ℤ} (hle : lastWorking ≤ 127)
    (hlast : lastWorking = -1 ∨ ∃ (i : ℕ) (t : TrackerEntry), lastWorking = i ∧
      (s.trackers.insertIdx (s.upperBound url.tier) { url with source, id := s.nextId, added := true })[i]? = some t ∧
      s.lastAnswered = some t.id) :
    Inv { s with
      trackers := s.trackers.insertIdx (s.upperBound url.tier) { url with source, id := s.nextId, added := true }
      lastWorking
      nextId := s.nextId + 1 } := by
  have hnot : ∀ t ∈ s.trackers, t.url ≠ url.url := fun t ht => by
    simpa using List.findIdx?_eq_none_iff.mp hnone t ht
  have hinsert := insertIdx_takeWhile (fun t => t.tier ≤ url.tier)
    { url with source, id := s.nextId, added := true } s.trackers
  have hperm := List.perm_insertIdx ({ url with source, id := s.nextId, added := true } : TrackerEntry) s.trackers
    (i := s.upperBound url.tier) (List.takeWhile_prefix _).length_le
  refine ⟨⟨?_, ?_, ?_, hlast, h.udp_first⟩, fun t ht => ?_, hle⟩
  · have hsplit := h.sorted
    rw [← List.takeWhile_append_dropWhile (p := fun t : TrackerEntry => t.tier ≤ url.tier) (l := s.trackers)] at hsplit
    obtain ⟨hlow, hhigh, hcross⟩ := List.pairwise_append.mp hsplit
    change SortedByTier (s.trackers.insertIdx _ _)
    rw [upperBound, hinsert]
    refine List.pairwise_append.mpr ⟨hlow, List.pairwise_cons.mpr ⟨fun b hb => ?_, hhigh⟩, fun a ha b hb => ?_⟩
    · exact (lt_of_mem_dropWhile h.sorted hb).le
    · rcases List.mem_cons.mp hb with rfl | hb
      · have hle := List.mem_takeWhile_imp ha
        exact of_decide_eq_true hle
      · exact hcross a ha b hb
  · refine (hperm.map TrackerEntry.id).nodup_iff.mpr (List.nodup_cons.mpr ⟨fun hmem => ?_, h.ids_nodup⟩)
    obtain ⟨t, ht, hid⟩ := List.mem_map.mp hmem
    exact absurd (h.id_lt t ht) (by rw [hid]; exact lt_irrefl _)
  · refine (hperm.pairwise_iff fun {a b} hab heq => (hab heq.symm).symm).mpr
      (List.pairwise_cons.mpr ⟨fun b hb heq => absurd heq.symm (hnot b hb), h.added_once⟩)
  · rcases List.mem_cons.mp (hperm.subset ht) with rfl | ht
    · exact Nat.lt_succ_self _
    · exact (h.id_lt t ht).trans (Nat.lt_succ_self _)

theorem modify_source_key (i source : ℕ) (trackers : List TrackerEntry) :
    (trackers.modify i fun t => { t with source := t.source ||| source }).map
        (fun t => (key t, t.tier)) = trackers.map fun t => (key t, t.tier) := by
  induction trackers generalizing i with
  | nil => cases i <;> rfl
  | cons t trackers ih =>
    cases i with
    | zero => rfl
    | succ i => exact congrArg ((key t, t.tier) :: ·) (ih i)

/-- The invariant looks at nothing else of the trackers. -/
theorem Inv.congr (h : Inv s) {trackers : List TrackerEntry}
    (hkey : trackers.map (fun t => (key t, t.tier)) = s.trackers.map fun t => (key t, t.tier)) :
    Inv { s with trackers } := by
  have hget : ∀ {i : ℕ} {t : TrackerEntry}, s.trackers[i]? = some t → ∃ t', trackers[i]? = some t' ∧ t'.id = t.id := by
    intro i t ht
    have heq := congrArg (fun l => l[i]?) hkey
    simp only [List.getElem?_map, ht, Option.map_some] at heq
    obtain ⟨t', ht', hkey'⟩ := Option.map_eq_some_iff.mp heq
    exact ⟨t', ht', congrArg (fun k => k.1.1) hkey'⟩
  have hof : ∀ f : (ℕ × List Char × Bool) × ℕ → Prop, (∀ t ∈ s.trackers, f (key t, t.tier)) →
      ∀ t ∈ trackers, f (key t, t.tier) := by
    intro f hf t ht
    obtain ⟨z, hz, heq⟩ := List.mem_map.mp (hkey ▸ List.mem_map_of_mem ht :
      (key t, t.tier) ∈ s.trackers.map fun t => (key t, t.tier))
    exact heq ▸ hf z hz
  have hpair : ∀ r : (ℕ × List Char × Bool) × ℕ → (ℕ × List Char × Bool) × ℕ → Prop,
      (s.trackers.Pairwise fun a b => r (key a, a.tier) (key b, b.tier)) →
      trackers.Pairwise fun a b => r (key a, a.tier) (key b, b.tier) := by
    intro r hr
    exact List.pairwise_map.mp (hkey ▸ List.pairwise_map.mpr hr)
  refine ⟨⟨hpair (fun a b => a.2 ≤ b.2) h.sorted, ?_,
    hpair (fun a b => a.1.2.1 = b.1.2.1 → a.1.2.2 = false ∧ b.1.2.2 = false) h.added_once, ?_, h.udp_first⟩,
    hof (fun k => k.1.1 < s.nextId) h.id_lt, h.last_le⟩
  · have hids := congrArg (fun l => l.map fun k => k.1.1) hkey
    simp only [List.map_map] at hids
    exact (congrArg List.Nodup hids).mpr h.ids_nodup
  · refine h.last_working.imp_right fun ⟨i, t, hi, ht, hanswered⟩ => ?_
    obtain ⟨t', ht', hid⟩ := hget ht
    exact ⟨i, t', hi, ht', by rw [hid]; exact hanswered⟩

theorem Inv.addTracker (h : Inv s) {url : TrackerEntry} (hfollows : Follows s (.addTracker url)) :
    Inv (s.addTracker url).2 := by
  rw [TrackerList.addTracker]
  split
  · exact h
  · next hurl =>
    split
    · exact h.congr (modify_source_key _ _ _)
    · next hnone =>
      obtain ⟨hne, hroom⟩ := hfollows hurl hnone
      have hlow : -1 ≤ s.lastWorking := by
        rcases h.last_working with heq | ⟨i, -, heq, -⟩ <;> omega
      dsimp only
      by_cases hlt : (s.upperBound url.tier : ℤ) < s.lastWorking
      · have hroom := hroom hlt
        rw [if_pos hlt, int8_of_le (by omega) (by omega)]
        refine h.insert hnone _ (by omega) (.inr ?_)
        rcases h.last_working with heq | ⟨i, t, heq, ht, hanswered⟩
        · omega
        · refine ⟨i + 1, t, by rw [heq]; rfl, ?_, hanswered⟩
          rw [List.getElem?_insertIdx_of_gt (by omega)]
          exact ht
      · rw [if_neg hlt]
        refine h.insert hnone _ h.last_le (h.last_working.imp_right fun ⟨i, t, heq, ht, hanswered⟩ => ?_)
        refine ⟨i, t, heq, ?_, hanswered⟩
        rw [List.getElem?_insertIdx_of_lt (by omega)]
        exact ht

/-! ## A tracker that is moved -/

/-- Two trackers that follow each other. -/
theorem exists_split {index : ℕ} {a b : TrackerEntry} (ha : trackers[index]? = some a)
    (hb : trackers[index + 1]? = some b) : ∃ pre post, trackers = pre ++ a :: b :: post ∧ pre.length = index := by
  induction trackers generalizing index with
  | nil => cases ha
  | cons t trackers ih =>
    cases index with
    | zero =>
      cases trackers with
      | nil => cases hb
      | cons t' trackers =>
        obtain rfl := Option.some.inj ha
        obtain rfl := Option.some.inj hb
        exact ⟨[], trackers, rfl, rfl⟩
    | succ index =>
      obtain ⟨pre, post, heq, hlen⟩ := ih ha hb
      exact ⟨t :: pre, post, by rw [heq]; rfl, congrArg (· + 1) hlen⟩

theorem set_set_split (pre post : List TrackerEntry) (a b : TrackerEntry) :
    ((pre ++ a :: b :: post).set pre.length b).set (pre.length + 1) a = pre ++ b :: a :: post := by
  induction pre with
  | nil => rfl
  | cons t pre ih => exact congrArg (t :: ·) ih

/-- No index of the tier leaves its eight bits when the tracker is the one that answered last. -/
def Fits (s : TrackerList) (index : ℕ) : Prop :=
  s.lastWorking = index → ∀ j tier, (s.trackers.map TrackerEntry.tier)[index]? = some tier →
    (s.trackers.map TrackerEntry.tier)[j]? = some tier → j ≤ 127

theorem Inv.swapNext (h : Inv s) {index : ℕ} {a b : TrackerEntry} (ha : s.trackers[index]? = some a)
    (hb : s.trackers[index + 1]? = some b) (htier : a.tier = b.tier) (hfits : Fits s index) :
    Inv (s.swapNext index a b) ∧ Fits (s.swapNext index a b) (index + 1) := by
  obtain ⟨pre, post, hsplit, hlen⟩ := exists_split ha hb
  have hset : (s.swapNext index a b).trackers = pre ++ b :: a :: post := by
    rw [TrackerList.swapNext, hsplit, ← hlen]
    exact set_set_split pre post a b
  have hmap : (s.swapNext index a b).trackers.map TrackerEntry.tier = s.trackers.map TrackerEntry.tier := by
    rw [hset, hsplit]
    simp [htier]
  have hperm : (s.swapNext index a b).trackers.Perm s.trackers := by
    rw [hset, hsplit]
    exact (List.Perm.swap a b post).append_left pre
  have hgeta : (s.swapNext index a b).trackers[index + 1]? = some a := by
    rw [hset, ← hlen, List.getElem?_append_right (Nat.le_succ _)]
    simp
  have hgetb : (s.swapNext index a b).trackers[index]? = some b := by
    rw [hset, ← hlen, List.getElem?_append_right le_rfl]
    simp
  have hother : ∀ i, i ≠ index → i ≠ index + 1 → (s.swapNext index a b).trackers[i]? = s.trackers[i]? := by
    intro i hi hi'
    exact (List.getElem?_set_ne (fun heq => hi' heq.symm)).trans (List.getElem?_set_ne fun heq => hi heq.symm)
  have hfit : s.lastWorking = index → index + 1 ≤ 127 := fun heq => by
    refine hfits heq (index + 1) a.tier ?_ ?_
    · rw [List.getElem?_map, ha]
      rfl
    · rw [List.getElem?_map, hb, htier]
      rfl
  have hle := h.last_le
  have hlow : -1 ≤ s.lastWorking := by
    rcases h.last_working with heq | ⟨i, -, heq, -⟩ <;> omega
  have hlast : (s.swapNext index a b).lastWorking = if s.lastWorking = index then (index : ℤ) + 1
      else if s.lastWorking = index + 1 then (index : ℤ) else s.lastWorking := by
    rw [TrackerList.swapNext]
    dsimp only
    split
    · next heq =>
      have hroom := hfit heq
      rw [int8_of_le (by omega) (by omega), heq]
    · split
      · rw [int8_of_le (by omega) (by omega)]
        omega
      · rfl
  refine ⟨⟨⟨?_, ?_, ?_, ?_, h.udp_first⟩, fun t ht => h.id_lt t (hperm.subset ht), ?_⟩, ?_⟩
  · rw [sortedByTier_iff, hmap]
    exact sortedByTier_iff.mp h.sorted
  · exact (hperm.map _).nodup_iff.mpr h.ids_nodup
  · exact (hperm.pairwise_iff fun {a b} hab heq => (hab heq.symm).symm).mpr h.added_once
  · rw [hlast]
    rcases h.last_working with heq | ⟨i, t, heq, ht, hanswered⟩
    · rw [if_neg (by omega), if_neg (by omega)]
      exact .inl heq
    · refine .inr ?_
      by_cases hi : i = index
      · rw [hi, ha] at ht
        rw [if_pos (by omega)]
        exact ⟨index + 1, t, by push_cast; rfl, hgeta.trans ht, hanswered⟩
      · by_cases hi' : i = index + 1
        · rw [hi', hb] at ht
          rw [if_neg (by omega), if_pos (by omega)]
          exact ⟨index, t, rfl, hgetb.trans ht, hanswered⟩
        · rw [if_neg (by omega), if_neg (by omega)]
          exact ⟨i, t, heq, (hother i hi hi').trans ht, hanswered⟩
  · rw [hlast]
    split
    · next heq =>
      have hroom := hfit heq
      omega
    · split <;> omega
  · -- the tracker that is moved has the tier that it had
    intro heq j tier hindex hj
    rw [hmap] at hindex hj
    have hwas : s.lastWorking = index := by
      rw [hlast] at heq
      split at heq
      · assumption
      · split at heq
        · push_cast at heq
          omega
        · next hnot => exact absurd heq (by push_cast; exact hnot)
    have htierb : tier = b.tier := by
      rw [List.getElem?_map, hb] at hindex
      exact (Option.some.inj hindex).symm
    refine hfits hwas j tier ?_ hj
    rw [List.getElem?_map, ha, htierb, ← htier]
    rfl

theorem Inv.deprioritizeLoop (h : Inv s) (fuel : ℕ) {index : ℕ} (hfits : Fits s index) :
    Inv (deprioritizeLoop fuel s index).2 := by
  induction fuel generalizing s index with
  | zero => exact h
  | succ fuel ih =>
    rw [TrackerList.deprioritizeLoop]
    split
    · next a b ha hb =>
      split
      · next htier =>
        obtain ⟨hinv, hnext⟩ := h.swapNext ha hb htier hfits
        exact ih hinv hnext
      · exact h
    · exact h

theorem Inv.deprioritizeTracker (h : Inv s) {index : ℕ} (hfollows : Follows s (.deprioritizeTracker index)) :
    Inv (s.deprioritizeTracker index).2 := by
  rw [TrackerList.deprioritizeTracker]
  split
  · exact h
  · refine h.deprioritizeLoop _ fun heq j tier hindex hj => ?_
    rw [List.getElem?_map] at hindex hj
    obtain ⟨t, ht, rfl⟩ := Option.map_eq_some_iff.mp hindex
    obtain ⟨t', ht', htier⟩ := Option.map_eq_some_iff.mp hj
    exact hfollows heq j t t' ht ht' htier

theorem Inv.trackerResponse (h : Inv s) {url : List Char} {hasEndpoint : Bool}
    (hfollows : Follows s (.trackerResponse url hasEndpoint)) : Inv (s.trackerResponse url hasEndpoint) := by
  rw [TrackerList.trackerResponse]
  split
  · next i hi =>
    split
    · next hendpoint =>
      have hle := hfollows hendpoint i hi
      have hlt : i < s.trackers.length := (List.findIdx?_eq_some_iff_getElem.mp hi).1
      rw [int8_of_le (by omega) (by omega)]
      refine ⟨⟨h.sorted, h.ids_nodup, h.added_once, .inr ⟨i, s.trackers[i], rfl, List.getElem?_eq_getElem hlt, ?_⟩,
        h.udp_first⟩, h.id_lt, ?_⟩
      · dsimp only
        rw [List.getElem?_eq_getElem hlt]
        rfl
      · dsimp only
        omega
    · exact h
  · exact h

theorem Inv.step {s' : TrackerList} {e : Event} (h : Inv s) (hfollows : Follows s e) (hstep : Step s e s') :
    Inv s' := by
  cases hstep with
  | replaceTrackers urls sorted preferUdp hperm hsorted => exact h.replaceTrackers hperm hsorted preferUdp
  | addTracker url => exact h.addTracker hfollows
  | deprioritizeTracker index => exact h.deprioritizeTracker hfollows
  | trackerResponse url hasEndpoint => exact h.trackerResponse hfollows

/-- The list is kept in every run in which no tracker is added in the place of the one that answered last and no
index leaves its eight bits. -/
theorem reached_kept {s : TrackerList} (h : Reached Follows s) : Kept s := by
  suffices hinv : Inv s from hinv.toKept
  induction h with
  | init trackers nextId hsorted hids hlt hadded =>
    refine ⟨⟨hsorted, hids, ?_, .inl rfl, by simp⟩, hlt, (by decide : (-1 : ℤ) ≤ 127)⟩
    exact List.pairwise_of_forall_mem_list fun a ha b hb _ => ⟨hadded a ha, hadded b hb⟩
  | step _ hq hstep ih => exact ih.step hq hstep

/-! ## Two trackers -/

/-- Trackers of the tiers 0 and 1. -/
def twoTrackers : List TrackerEntry :=
  [{ url := "http://a/".toList, id := 0 }, { url := "http://b/".toList, tier := 1, id := 1 }]

theorem reached_twoTrackers (quiet : TrackerList → Event → Prop) :
    Reached quiet { trackers := twoTrackers, nextId := 2 } :=
  .init twoTrackers 2 (sortedByTier_iff.mpr (by decide)) (by decide) (by decide) (by decide)

/-- The first tracker answers, and a tracker is added behind it. -/
theorem reached_kept_behind : ∃ s, Reached Follows s ∧ s.lastWorking = 0 ∧
    s.trackers.map TrackerEntry.id = [0, 2, 1] ∧ Kept s := by
  have hanswer := (reached_twoTrackers Follows).step
    (e := .trackerResponse "http://a/".toList true)
    (fun _ i hi => by obtain rfl : i = 0 := (Option.some.inj hi).symm; decide) (.trackerResponse _ _)
  have hadd := hanswer.step (e := .addTracker { url := "http://c/".toList })
    (fun _ _ => ⟨by decide, by decide⟩) (.addTracker _)
  exact ⟨_, hadd, by decide, by decide, reached_kept hadd⟩

/-- The second tracker answers, and a tracker is added in its place: the index is that of the new one. -/
theorem reached_not_kept : ∃ s, Reached (fun _ _ => True) s ∧ s.lastWorking = 1 ∧
    s.trackers.map TrackerEntry.id = [0, 2, 1] ∧ s.lastAnswered = some 1 ∧ ¬ Kept s := by
  have hanswer := (reached_twoTrackers fun _ _ => True).step
    (e := .trackerResponse "http://b/".toList true) trivial (.trackerResponse _ _)
  have hadd := hanswer.step (e := .addTracker { url := "http://c/".toList }) trivial (.addTracker _)
  refine ⟨_, hadd, by decide, by decide, by decide, fun h => ?_⟩
  rcases h.last_working with heq | ⟨i, t, heq, ht, hanswered⟩
  · exact absurd heq (by decide)
  · obtain rfl : i = 1 := Int.ofNat_inj.mp (heq.symm.trans (by decide))
    exact absurd hanswered (by rw [← Option.some.inj ht]; decide)

end TrackerList

end Tracker

end LibtorrentSN
