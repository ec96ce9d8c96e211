import LibtorrentSN.Magnet.Codec
import LibtorrentSN.Torrent.ResumeData

/-!
# Magnet links

`make_magnet_uri` and `parse_magnet_uri` (`src/magnet_uri.cpp`). A link that is made of the parameters of a torrent
is parsed into the same hash, name and trackers, as long as no string is too long for an `int`.
-/

namespace LibtorrentSN

namespace Magnet

open Bencode (ascii)
open Torrent.Info (key hasV1 toHex)
open Torrent.ResumeData (AddTorrentParams Sha1Hash)

/-- `add_torrent_params`, with the info-hash it had before `info_hashes`. -/
structure MagnetParams extends AddTorrentParams where
  deprecatedInfoHash : Sha1Hash := ⟨List.replicate 20 0, Torrent.ResumeData.length_zeros⟩

/-! ## Making a link -/

section Make
-- what the address is printed as
variable (addressText : List UInt8 → List UInt8)

/-- `print_endpoint` -/
def printEndpoint (e : Torrent.ResumeData.Endpoint) : List UInt8 :=
  if e.isV6 then key "[" ++ addressText e.addr ++ key "]:" ++ toString e.port.toNat
  else addressText e.addr ++ key ":" ++ toString e.port.toNat

/-- A range of files that are selected, of which `idx` is the first one not in it. -/
def fileRange (needComma : Bool) (rangeStart idx : ℕ) : List UInt8 :=
  (if needComma then key "," else []) ++ toString rangeStart ++
    if rangeStart = idx - 1 then [] else key "-" ++ toString (idx - 1)

/-- The loop over the priorities, and the range that is left at its end. -/
def selectOnly : List UInt8 → (idx : ℕ) → (needComma : Bool) → (rangeStart : Option ℕ) → List UInt8
  | [], idx, needComma, rangeStart => (rangeStart.map fun start => fileRange needComma start idx).getD []
  | prio :: prios, idx, needComma, rangeStart =>
    if prio ≠ 0 then selectOnly prios (idx + 1) needComma (rangeStart.or (some idx))
    else
      match rangeStart with
      | some start => fileRange needComma start idx ++ selectOnly prios (idx + 1) true none
      | none => selectOnly prios (idx + 1) needComma none

/-- The info-hash of the link: the first one there is. -/
def linkHash (p : MagnetParams) : Option (List UInt8) :=
  if hasV1 p.infoHash.1 then some p.infoHash.1
  else
    match p.ti.filter fun ti => hasV1 ti.infoHash with
    | some ti => some ti.infoHash
    | none => if hasV1 p.deprecatedInfoHash.1 then some p.deprecatedInfoHash.1 else none

/-- `make_magnet_uri` -/
def makeMagnetUri (p : MagnetParams) : List UInt8 :=
  match linkHash p with
  -- if we couldn't find any info-hashes, we can't make a magnet link
  | none => []
  | some hash =>
    key "magnet:?" ++ (key "xt=urn:btih:" ++ toHex hash) ++
      (if p.name = [] then [] else key "&dn=" ++ escapeString p.name) ++
      p.trackers.flatMap (fun tr => key "&tr=" ++ escapeString tr) ++
      p.peers.flatMap (fun e => key "&x.pe=" ++ printEndpoint addressText e) ++
      if 0 ∈ p.filePriorities then key "&so=" ++ selectOnly p.filePriorities 0 false none else []

end Make

/-! ## Parsing a link -/

/-- The parameters of a link: the loop `while (!sv.empty())`, each round of which consumes something. -/
def linkParams : ℕ → List UInt8 → List (List UInt8 × List UInt8)
  | 0, _ => []
  | fuel + 1, sv =>
    if sv = [] then []
    else
      let (name, sv) := splitString sv (ascii '=')
      let (value, sv) := splitString sv (ascii '&')
      (name, value) :: linkParams fuel sv

/-- A suffix of digits is stripped from the name of a parameter. -/
def stripNumber (name : List UInt8) : List UInt8 :=
  let (strippedName, number) := splitString name (ascii '.')
  if number.all isDigit then strippedName else name

/-- What the loop works on. -/
structure LinkState where
  ec : ErrorCode := .noError
  p : MagnetParams
  displayName : List UInt8 := []
  tier : ℕ := 0
  hasIh : Bool := false

theorem length_fromHex (chars out : List UInt8) : (fromHex chars out).2.length = out.length := by
  induction out generalizing chars with
  | nil => rcases chars with - | ⟨c₁, - | ⟨c₂, chars⟩⟩ <;> rfl
  | cons o out ih =>
    rcases chars with - | ⟨c₁, - | ⟨c₂, chars⟩⟩
    · rfl
    · rfl
    · rw [fromHex]
      split
      next h₁ => rfl
      next t₁ h₁ =>
        split
        next h₂ => rfl
        next t₂ h₂ => exact congrArg Nat.succ (ih chars)

/-- The hash that 40 digits are read as. Whether all of them are digits is not looked at. -/
def hexHash (value : List UInt8) : Sha1Hash :=
  ⟨(fromHex value (List.replicate 20 0)).2, by rw [length_fromHex, List.length_replicate]⟩

/-- `tr` -/
def readTracker (s : LinkState) (value : List UInt8) : LinkState :=
  -- make sure the two vectors are aligned
  let tiers := if s.p.trackerTiers.length ≠ s.p.trackers.length then
      s.p.trackerTiers.take s.p.trackers.length ++
        List.replicate (s.p.trackers.length - s.p.trackerTiers.length) 0
    else s.p.trackerTiers
  let (e, tracker) := unescapeString value
  if e = .noError ∧ tracker ≠ [] then
    { s with
      p := { s.p with trackers := s.p.trackers ++ [tracker], trackerTiers := tiers ++ [toInt s.tier] }
      tier := s.tier + 1 }
  else { s with p := { s.p with trackerTiers := tiers } }

/-- `xt` -/
def readTopic (s : LinkState) (value : List UInt8) : LinkState :=
  let (ec, value) := if ascii '%' ∈ value then unescapeString value else (.noError, value)
  if ec ≠ .noError then { s with ec := ec }
  else if value.take 9 = key "urn:btih:" then
    let value := value.drop 9
    if value.length = 40 then { s with p := { s.p with infoHash := hexHash value }, hasIh := true }
    else if value.length = 32 then
      if h : (base32decode value).length = 20 then
        { s with p := { s.p with infoHash := ⟨base32decode value, h⟩ }, hasIh := true }
      else { s with ec := .invalidInfoHash }
    else { s with ec := .invalidInfoHash }
  else s

/-- One round of the loop. After an error there are no more. -/
def readParam (s : LinkState) (param : List UInt8 × List UInt8) : LinkState :=
  if s.ec ≠ .noError then s
  else
    let name := stripNumber param.1
    if stringEqualNoCase name (key "dn") then { s with displayName := (unescapeString param.2).2 }
    else if stringEqualNoCase name (key "tr") then readTracker s param.2
    else if stringEqualNoCase name (key "xt") then readTopic s param.2
    else s

/-- `parse_magnet_uri` -/
def parseMagnetUri (uri : List UInt8) (p : MagnetParams) : ErrorCode × MagnetParams :=
  if uri.take 8 ≠ key "magnet:?" then (.unsupportedUrlProtocol, p)
  else
    let sv := uri.drop 8
    let s := (linkParams sv.length sv).foldl readParam { p := p }
    if s.ec ≠ .noError then (s.ec, s.p)
    else if s.hasIh = false then (.missingInfoHashInUri, s.p)
    else
      let p := { s.p with deprecatedInfoHash := s.p.infoHash }
      (.noError, if s.displayName ≠ [] then { p with name := s.displayName } else p)

/-! ## The parameters of a link that is made -/

section Text
variable {addressText : List UInt8 → List UInt8} {hash : List UInt8} {p : MagnetParams}

def paramText (param : List UInt8 × List UInt8) : List UInt8 := param.1 ++ ascii '=' :: param.2

/-- The parameters after the first one. -/
def otherParams (addressText : List UInt8 → List UInt8) (p : MagnetParams) : List (List UInt8 × List UInt8) :=
  (if p.name = [] then [] else [(key "dn", escapeString p.name)]) ++
    p.trackers.map (fun tr => (key "tr", escapeString tr)) ++
    p.peers.map (fun e => (key "x.pe", printEndpoint addressText e)) ++
    if 0 ∈ p.filePriorities then [(key "so", selectOnly p.filePriorities 0 false none)] else []

theorem makeMagnetUri_eq (addressText : List UInt8 → List UInt8) (h : linkHash p = some hash) :
    makeMagnetUri addressText p = key "magnet:?" ++ (paramText (key "xt", key "urn:btih:" ++ toHex hash) ++
      (otherParams addressText p).flatMap fun param => ascii '&' :: paramText param) := by
  have hxt : key "xt=urn:btih:" = key "xt" ++ ascii '=' :: key "urn:btih:" := by decide
  have hdn : key "&dn=" = ascii '&' :: (key "dn" ++ [ascii '=']) := by decide
  have htr : key "&tr=" = ascii '&' :: (key "tr" ++ [ascii '=']) := by decide
  have hpe : key "&x.pe=" = ascii '&' :: (key "x.pe" ++ [ascii '=']) := by decide
  have hso : key "&so=" = ascii '&' :: (key "so" ++ [ascii '=']) := by decide
  have hname : (if p.name = [] then [] else key "&dn=" ++ escapeString p.name) =
      (if p.name = [] then [] else [(key "dn", escapeString p.name)]).flatMap
        fun param => ascii '&' :: paramText param := by
    split
    next => rfl
    next => simp [hdn, paramText]
  have hselect : (if 0 ∈ p.filePriorities then key "&so=" ++ selectOnly p.filePriorities 0 false none else []) =
      (if 0 ∈ p.filePriorities then [(key "so", selectOnly p.filePriorities 0 false none)] else []).flatMap
        fun param => ascii '&' :: paramText param := by
    split
    next => simp [hso, paramText]
    next => rfl
  rw [makeMagnetUri, h]
  dsimp only
  rw [hname, hselect, hxt, htr, hpe, otherParams]
  simp [paramText, List.flatMap_map]

/-- A link is taken apart into its parameters. -/
theorem linkParams_link (param : List UInt8 × List UInt8) (params : List (List UInt8 × List UInt8))
    (h : ∀ q ∈ param :: params, ascii '=' ∉ q.1 ∧ ascii '&' ∉ q.2) {fuel : ℕ}
    (hfuel : (paramText param ++ params.flatMap fun q => ascii '&' :: paramText q).length ≤ fuel) :
    linkParams fuel (paramText param ++ params.flatMap fun q => ascii '&' :: paramText q) = param :: params := by
  induction params generalizing param fuel with
  | nil =>
    obtain ⟨⟨hname, hvalue⟩, -⟩ := List.forall_mem_cons.mp h
    rw [List.flatMap_nil, List.append_nil] at hfuel ⊢
    have hpos : 0 < (paramText param).length := by simp [paramText]
    obtain ⟨fuel, rfl⟩ : ∃ n, fuel = n + 1 := ⟨fuel - 1, by omega⟩
    rw [linkParams, if_neg (List.ne_nil_of_length_pos hpos), paramText, splitString_append hname]
    dsimp only
    rw [splitString_of_notMem hvalue]
    dsimp only
    cases fuel <;> rfl
  | cons q params ih =>
    obtain ⟨⟨hname, hvalue⟩, hrest⟩ := List.forall_mem_cons.mp h
    rw [List.flatMap_cons, List.cons_append] at hfuel ⊢
    rw [paramText, List.append_assoc, List.cons_append] at hfuel ⊢
    obtain ⟨fuel, rfl⟩ : ∃ n, fuel = n + 1 := ⟨fuel - 1, by simp at hfuel; omega⟩
    rw [linkParams, if_neg (by simp), splitString_append hname]
    dsimp only
    rw [splitString_append hvalue]
    dsimp only
    rw [ih q hrest]
    simp at hfuel ⊢
    omega

/-! No value of a link has a separator in it. -/

theorem not_mem_toHex (bytes : List UInt8) : ascii '&' ∉ toHex bytes ∧ ascii '%' ∉ toHex bytes := by
  have hdigits : ∀ c : UInt8, ascii '&' ∉ [Torrent.Info.hexDigit (c.toNat / 16), Torrent.Info.hexDigit (c.toNat % 16)] ∧
      ascii '%' ∉ [Torrent.Info.hexDigit (c.toNat / 16), Torrent.Info.hexDigit (c.toNat % 16)] :=
    forall_byte (by decide +kernel)
  constructor
  · intro h
    obtain ⟨c, -, hc⟩ := List.mem_flatMap.mp h
    exact (hdigits c).1 hc
  · intro h
    obtain ⟨c, -, hc⟩ := List.mem_flatMap.mp h
    exact (hdigits c).2 hc

theorem not_mem_fileRange (needComma : Bool) (rangeStart idx : ℕ) :
    ascii '&' ∉ fileRange needComma rangeStart idx := by
  have hcomma : ascii '&' ∉ key "," := by decide
  have hdash : ascii '&' ∉ key "-" := by decide
  unfold fileRange
  rw [List.mem_append, List.mem_append, not_or, not_or]
  refine ⟨⟨?_, not_mem_toString _⟩, ?_⟩
  · split
    · exact hcomma
    · exact List.not_mem_nil
  · split
    · exact List.not_mem_nil
    · rw [List.mem_append, not_or]
      exact ⟨hdash, not_mem_toString _⟩

theorem not_mem_selectOnly (prios : List UInt8) (idx : ℕ) (needComma : Bool) (rangeStart : Option ℕ) :
    ascii '&' ∉ selectOnly prios idx needComma rangeStart := by
  induction prios generalizing idx needComma rangeStart with
  | nil =>
    cases rangeStart with
    | none => exact List.not_mem_nil
    | some start => exact not_mem_fileRange _ _ _
  | cons prio prios ih =>
    rw [selectOnly.eq_def]
    dsimp only
    split
    next hselected => exact ih _ _ _
    next hnot =>
      cases rangeStart with
      | none => exact ih _ _ _
      | some start =>
        rw [List.mem_append, not_or]
        exact ⟨not_mem_fileRange _ _ _, ih _ _ _⟩

theorem not_mem_printEndpoint (htext : ∀ addr, ascii '&' ∉ addressText addr) (e : Torrent.ResumeData.Endpoint) :
    ascii '&' ∉ printEndpoint addressText e := by
  have hopen : ascii '&' ∉ key "[" := by decide
  have hclose : ascii '&' ∉ key "]:" := by decide
  have hcolon : ascii '&' ∉ key ":" := by decide
  unfold printEndpoint
  split
  · simp only [List.mem_append, not_or]
    exact ⟨⟨⟨hopen, htext _⟩, hclose⟩, not_mem_toString _⟩
  · simp only [List.mem_append, not_or]
    exact ⟨⟨htext _, hcolon⟩, not_mem_toString _⟩

theorem linkParams_makeMagnetUri (htext : ∀ addr, ascii '&' ∉ addressText addr) (hash : List UInt8)
    (p : MagnetParams) {sv : List UInt8}
    (hsv : sv = paramText (key "xt", key "urn:btih:" ++ toHex hash) ++
      (otherParams addressText p).flatMap fun param => ascii '&' :: paramText param) :
    linkParams sv.length sv =
      (key "xt", key "urn:btih:" ++ toHex hash) :: otherParams addressText p := by
  have hurn : ascii '&' ∉ key "urn:btih:" := by decide
  have hxt : ascii '=' ∉ key "xt" := by decide
  have hdn : ascii '=' ∉ key "dn" := by decide
  have htr : ascii '=' ∉ key "tr" := by decide
  have hpe : ascii '=' ∉ key "x.pe" := by decide
  have hso : ascii '=' ∉ key "so" := by decide
  rw [hsv]
  refine linkParams_link _ _ (List.forall_mem_cons.mpr ⟨⟨hxt, ?_⟩, ?_⟩) le_rfl
  · rw [List.mem_append, not_or]
    exact ⟨hurn, (not_mem_toHex hash).1⟩
  · intro q hq
    simp only [otherParams, List.mem_append] at hq
    rcases hq with ((hq | hq) | hq) | hq
    · split at hq
      · cases hq
      · rw [List.mem_singleton.mp hq]
        dsimp only
        exact ⟨hdn, not_mem_escapeString p.name⟩
    · obtain ⟨tr, -, rfl⟩ := List.mem_map.mp hq
      dsimp only
      exact ⟨htr, not_mem_escapeString tr⟩
    · obtain ⟨e, -, rfl⟩ := List.mem_map.mp hq
      exact ⟨hpe, not_mem_printEndpoint htext e⟩
    · split at hq
      · rw [List.mem_singleton.mp hq]
        exact ⟨hso, not_mem_selectOnly _ _ _ _⟩
      · cases hq

end Text

/-! ## What the parser makes of them -/

section Read
variable {addressText : List UInt8 → List UInt8} {s : LinkState} {p : MagnetParams}

theorem fromHex_toHex (bytes out : List UInt8) (h : out.length = bytes.length) :
    fromHex (toHex bytes) out = (true, bytes) := by
  have hbyte : ∀ c : UInt8, (c >>> 4) <<< 4 ||| (c &&& 15) &&& 15 = c := forall_byte (by decide +kernel)
  induction bytes generalizing out with
  | nil => rw [List.length_eq_zero_iff.mp h]; rfl
  | cons c bytes ih =>
    obtain ⟨o, out, rfl⟩ := List.exists_cons_of_length_eq_add_one h
    obtain ⟨hhigh, hlow⟩ := hexToInt_hexDigit c
    rw [toHex, List.flatMap_cons, List.cons_append, List.cons_append, List.nil_append, ← toHex, fromHex, hhigh]
    dsimp only
    rw [hlow]
    dsimp only
    rw [ih out (Nat.succ.inj h), hbyte]

theorem length_toHex (bytes : List UInt8) : (toHex bytes).length = 2 * bytes.length := by
  induction bytes with
  | nil => rfl
  | cons c bytes ih =>
    rw [toHex, List.flatMap_cons, List.length_append, ← toHex, ih, List.length_cons, List.length_cons,
      List.length_cons, List.length_nil]
    omega

theorem hexHash_toHex (hash : Sha1Hash) : hexHash (toHex hash.1) = hash :=
  Subtype.ext (congrArg Prod.snd (fromHex_toHex hash.1 _ (by rw [List.length_replicate, hash.2])))

/-- The names of the parameters are told apart. -/
theorem readParam_topic (h : s.ec = .noError) (value : List UInt8) :
    readParam s (key "xt", value) = readTopic s value := by
  have hstrip : stripNumber (key "xt") = key "xt" := by decide
  have hdn : stringEqualNoCase (key "xt") (key "dn") = false := by decide
  have htr : stringEqualNoCase (key "xt") (key "tr") = false := by decide
  have hxt : stringEqualNoCase (key "xt") (key "xt") = true := by decide
  rw [readParam, if_neg (not_not.mpr h)]
  dsimp only
  rw [hstrip, hdn, htr, hxt]
  rfl

theorem readParam_name (h : s.ec = .noError) (value : List UInt8) :
    readParam s (key "dn", value) = { s with displayName := (unescapeString value).2 } := by
  have hstrip : stripNumber (key "dn") = key "dn" := by decide
  have hdn : stringEqualNoCase (key "dn") (key "dn") = true := by decide
  rw [readParam, if_neg (not_not.mpr h)]
  dsimp only
  rw [hstrip, hdn]
  rfl

theorem readParam_tracker (h : s.ec = .noError) (value : List UInt8) :
    readParam s (key "tr", value) = readTracker s value := by
  have hstrip : stripNumber (key "tr") = key "tr" := by decide
  have hdn : stringEqualNoCase (key "tr") (key "dn") = false := by decide
  have htr : stringEqualNoCase (key "tr") (key "tr") = true := by decide
  rw [readParam, if_neg (not_not.mpr h)]
  dsimp only
  rw [hstrip, hdn, htr]
  rfl

/-- The peers and the selected files are not looked at. -/
theorem readParam_other {name : List UInt8} (hname : name = key "x.pe" ∨ name = key "so") (value : List UInt8) :
    readParam s (name, value) = s := by
  have hdn : stringEqualNoCase (stripNumber name) (key "dn") = false := by
    rcases hname with rfl | rfl <;> decide
  have htr : stringEqualNoCase (stripNumber name) (key "tr") = false := by
    rcases hname with rfl | rfl <;> decide
  have hxt : stringEqualNoCase (stripNumber name) (key "xt") = false := by
    rcases hname with rfl | rfl <;> decide
  rw [readParam]
  dsimp only
  rw [hdn, htr, hxt]
  split <;> rfl

theorem foldl_readParam_other (params : List (List UInt8 × List UInt8))
    (h : ∀ q ∈ params, q.1 = key "x.pe" ∨ q.1 = key "so") : params.foldl readParam s = s := by
  induction params with
  | nil => rfl
  | cons q params ih =>
    obtain ⟨hq, hrest⟩ := List.forall_mem_cons.mp h
    rw [List.foldl_cons, readParam_other hq, ih hrest]

/-- The hash is read. -/
theorem readTopic_hash (s : LinkState) (hash : Sha1Hash) :
    readTopic s (key "urn:btih:" ++ toHex hash.1) = { s with p := { s.p with infoHash := hash }, hasIh := true } := by
  have hurn : ascii '%' ∉ key "urn:btih:" := by decide
  have hplain : ascii '%' ∉ key "urn:btih:" ++ toHex hash.1 := by
    rw [List.mem_append, not_or]
    exact ⟨hurn, (not_mem_toHex hash.1).2⟩
  have hlen : (key "urn:btih:").length = 9 := by decide
  have hhex : (toHex hash.1).length = 40 := by rw [length_toHex, hash.2]
  rw [readTopic, if_neg hplain]
  dsimp only
  rw [if_neg (not_not.mpr rfl), List.take_left' hlen, if_pos rfl, List.drop_left' hlen, if_pos hhex, hexHash_toHex]

/-- The trackers of a link are those that are not empty when they are read. -/
def readTrackers (trackers : List (List UInt8)) : List (List UInt8) := (trackers.map cut).filter (· ≠ [])

/-- The trackers are added in order, on tiers of their own. -/
theorem foldl_readParam_trackers (trackers : List (List UInt8)) (hec : s.ec = .noError)
    (h : s.p.trackerTiers.length = s.p.trackers.length) :
    (trackers.map fun tr => (key "tr", escapeString tr)).foldl readParam s =
      { s with
        p := { s.p with
          trackers := s.p.trackers ++ readTrackers trackers
          trackerTiers := s.p.trackerTiers ++
            (List.range (readTrackers trackers).length).map fun i => toInt (s.tier + i) }
        tier := s.tier + (readTrackers trackers).length } := by
  induction trackers generalizing s with
  | nil =>
    simp only [readTrackers, List.map_nil, List.foldl_nil, List.filter_nil, List.length_nil, List.range_zero,
      List.append_nil, Nat.add_zero]
  | cons tr trackers ih =>
    rw [List.map_cons, List.foldl_cons, readParam_tracker hec, readTracker, if_neg (not_not.mpr h),
      unescapeString_escapeString]
    dsimp only
    by_cases hempty : cut tr = []
    · have hskip : readTrackers (tr :: trackers) = readTrackers trackers := by
        rw [readTrackers, List.map_cons, List.filter_cons_of_neg (by simpa using hempty)]
        rfl
      rw [if_neg (fun hc => hc.2 hempty), hskip]
      exact ih hec h
    · have hadd : readTrackers (tr :: trackers) = cut tr :: readTrackers trackers := by
        rw [readTrackers, List.map_cons, List.filter_cons_of_pos (by simpa using hempty)]
        rfl
      rw [if_pos ⟨rfl, hempty⟩, hadd]
      refine (ih ?_ ?_).trans ?_
      · exact hec
      · simp [h]
      · simp only [List.append_assoc, List.cons_append, List.nil_append, List.length_cons, List.range_succ_eq_map,
          List.map_cons, List.map_map, Function.comp_def, Nat.succ_eq_add_one, Nat.add_zero]
        simp only [Nat.add_assoc, Nat.add_comm 1]

end Read

/-! ## The round trip -/

/-- The parameters of a torrent come back from its link. -/
def RoundTrips (addressText : List UInt8 → List UInt8) (p : MagnetParams) : Prop :=
  (parseMagnetUri (makeMagnetUri addressText p) {}).1 = .noError ∧
    (parseMagnetUri (makeMagnetUri addressText p) {}).2.infoHash = p.infoHash ∧
    (parseMagnetUri (makeMagnetUri addressText p) {}).2.name = p.name ∧
    (parseMagnetUri (makeMagnetUri addressText p) {}).2.trackers = p.trackers ∧
    (parseMagnetUri (makeMagnetUri addressText p) {}).2.trackerTiers =
      (List.range p.trackers.length).map fun i : ℕ => (i : ℤ)

section RoundTrip
variable {addressText : List UInt8 → List UInt8} {p : MagnetParams}

/-- The loop over the parameters of a link that was made. -/
theorem foldl_readParam_link (addressText : List UInt8 → List UInt8) (p : MagnetParams) :
    ((key "xt", key "urn:btih:" ++ toHex p.infoHash.1) :: otherParams addressText p).foldl readParam { p := {} } =
      { p := {
          infoHash := p.infoHash
          trackers := readTrackers p.trackers
          trackerTiers := (List.range (readTrackers p.trackers).length).map toInt }
        displayName := cut p.name
        tier := (readTrackers p.trackers).length
        hasIh := true } := by
  have hname : ∀ s : LinkState, s.ec = .noError → s.displayName = [] →
      (if p.name = [] then [] else [(key "dn", escapeString p.name)]).foldl readParam s =
        { s with displayName := cut p.name } := by
    intro s hec hdisplay
    split
    next hempty =>
      rw [hempty, cut_nil, ← hdisplay]
      rfl
    next hnot => rw [List.foldl_cons, List.foldl_nil, readParam_name hec, unescapeString_escapeString]
  have hpeers : ∀ q ∈ p.peers.map (fun e => (key "x.pe", printEndpoint addressText e)),
      q.1 = key "x.pe" ∨ q.1 = key "so" := by
    intro q hq
    obtain ⟨e, -, rfl⟩ := List.mem_map.mp hq
    exact .inl rfl
  have hselect : ∀ q ∈ if 0 ∈ p.filePriorities then [(key "so", selectOnly p.filePriorities 0 false none)] else [],
      q.1 = key "x.pe" ∨ q.1 = key "so" := by
    intro q hq
    split at hq
    · rw [List.mem_singleton.mp hq]
      exact .inr rfl
    · cases hq
  rw [List.foldl_cons, readParam_topic rfl, readTopic_hash, otherParams, List.foldl_append, List.foldl_append,
    List.foldl_append, foldl_readParam_other _ hselect, foldl_readParam_other _ hpeers, hname _ rfl rfl,
    foldl_readParam_trackers p.trackers rfl rfl]
  simp only [List.nil_append, Nat.zero_add]

/-- What the parser makes of a link that was made: every string is cut to the size that an `int` holds. -/
theorem parseMagnetUri_make (htext : ∀ addr, ascii '&' ∉ addressText addr) (hhash : hasV1 p.infoHash.1 = true) :
    (parseMagnetUri (makeMagnetUri addressText p) {}).1 = .noError ∧
      (parseMagnetUri (makeMagnetUri addressText p) {}).2.infoHash = p.infoHash ∧
      (parseMagnetUri (makeMagnetUri addressText p) {}).2.name = cut p.name ∧
      (parseMagnetUri (makeMagnetUri addressText p) {}).2.trackers = readTrackers p.trackers ∧
      (parseMagnetUri (makeMagnetUri addressText p) {}).2.trackerTiers =
        (List.range (readTrackers p.trackers).length).map toInt := by
  have hlink : linkHash p = some p.infoHash.1 := if_pos hhash
  have hlen : (key "magnet:?").length = 8 := by decide
  rw [makeMagnetUri_eq addressText hlink, parseMagnetUri, List.take_left' hlen, if_neg (not_not.mpr rfl),
    List.drop_left' hlen]
  dsimp only
  rw [linkParams_makeMagnetUri htext p.infoHash.1 p rfl, foldl_readParam_link]
  by_cases hempty : cut p.name = []
  · simp [hempty]
  · simp [hempty]

/-- No tracker is cut or lost just when all sizes are of an `int`. -/
theorem readTrackers_eq_iff {trackers : List (List UInt8)} (hne : ∀ tr ∈ trackers, tr ≠ []) :
    readTrackers trackers = trackers ↔ ∀ tr ∈ trackers, tr.length < 2 ^ 31 := by
  constructor
  · intro h
    have hlen := congrArg List.length h
    rw [readTrackers] at h hlen
    have hall : (trackers.map cut).filter (· ≠ []) = trackers.map cut := by
      refine List.filter_eq_self.mpr (List.length_filter_eq_length_iff.mp ?_)
      rw [hlen, List.length_map]
    rw [hall] at h
    intro tr htr
    exact cut_eq_iff.mp (List.map_inj_left.mp (h.trans (List.map_id trackers).symm) tr htr)
  · intro h
    have hcut : trackers.map cut = trackers :=
      (List.map_congr_left fun tr htr => cut_eq_iff.mpr (h tr htr)).trans (List.map_id trackers)
    rw [readTrackers, hcut]
    exact List.filter_eq_self.mpr fun tr htr => decide_eq_true (hne tr htr)

theorem tiers_eq_iff {n : ℕ} :
    (List.range n).map toInt = (List.range n).map (fun i : ℕ => (i : ℤ)) ↔ n ≤ 2 ^ 31 := by
  rw [List.map_inj_left]
  constructor
  · intro h
    by_contra hn
    exact absurd (toInt_eq_iff.mp (h (2 ^ 31) (List.mem_range.mpr (not_le.mp hn)))) (lt_irrefl _)
  · exact fun h i hi => toInt_of_lt ((List.mem_range.mp hi).trans_le h)

/-- A link gives back the parameters it was made of just when the sizes of the name and of the trackers, and the
tiers, are numbers that an `int` holds. -/
theorem roundTrips_iff (addressText : List UInt8 → List UInt8) (p : MagnetParams)
    (htext : ∀ addr, ascii '&' ∉ addressText addr) (hhash : hasV1 p.infoHash.1 = true)
    (hne : ∀ tr ∈ p.trackers, tr ≠ []) :
    RoundTrips addressText p ↔
      p.name.length < 2 ^ 31 ∧ (∀ tr ∈ p.trackers, tr.length < 2 ^ 31) ∧ p.trackers.length ≤ 2 ^ 31 := by
  obtain ⟨hec, hih, hname, htrackers, htiers⟩ := parseMagnetUri_make htext hhash
  rw [RoundTrips, hec, hih, hname, htrackers, htiers, and_iff_right rfl, and_iff_right rfl, cut_eq_iff,
    readTrackers_eq_iff hne]
  constructor
  · rintro ⟨hshort, hall, htiers⟩
    rw [(readTrackers_eq_iff hne).mpr hall] at htiers
    exact ⟨hshort, hall, tiers_eq_iff.mp htiers⟩
  · rintro ⟨hshort, hall, hcount⟩
    rw [(readTrackers_eq_iff hne).mpr hall]
    exact ⟨hshort, hall, tiers_eq_iff.mpr hcount⟩

theorem RoundTrips.name_lt (htext : ∀ addr, ascii '&' ∉ addressText addr) (hhash : hasV1 p.infoHash.1 = true)
    (h : RoundTrips addressText p) : p.name.length < 2 ^ 31 := by
  obtain ⟨-, -, hname, -⟩ := h
  exact cut_eq_iff.mp ((parseMagnetUri_make htext hhash).2.2.1.symm.trans hname)

/-- A name and a tracker with separators in them, and a peer. -/
def linkOf (name : List UInt8) : MagnetParams where
  infoHash := ⟨List.replicate 20 0xAB, rfl⟩
  name := name
  trackers := [key "http://t/?a=1&b=%41+c", [0, 255]]
  peers := [Torrent.ResumeData.localPeer]
  filePriorities := [4, 4, 0, 1]

theorem hasV1_linkOf (name : List UInt8) : hasV1 (linkOf name).infoHash.1 = true := by
  change hasV1 (List.replicate 20 0xAB) = true
  decide

/-- The numbers of an address with points between them. -/
def dotted (addr : List UInt8) : List UInt8 := (addr.flatMap fun b => key "." ++ toString b.toNat).tail

theorem not_mem_dotted (addr : List UInt8) : ascii '&' ∉ dotted addr := by
  have hdot : ascii '&' ∉ key "." := by decide
  intro h
  obtain ⟨b, -, hb⟩ := List.mem_flatMap.mp (List.mem_of_mem_tail h)
  rcases List.mem_append.mp hb with hb | hb
  · exact hdot hb
  · exact not_mem_toString _ hb

theorem roundTrips_iff_special : RoundTrips dotted (linkOf (key "a&tr=b%+\x00")) :=
  (roundTrips_iff dotted (linkOf (key "a&tr=b%+\x00")) not_mem_dotted (hasV1_linkOf _) (by decide)).mpr
    ⟨by decide, by decide, by decide⟩

theorem name_lost {name : List UInt8} (h : ¬ name.length < 2 ^ 31) : ¬ RoundTrips dotted (linkOf name) := by
  intro hround
  exact h (hround.name_lt not_mem_dotted (hasV1_linkOf name))

/-- A name of 2 GiB does not come back. -/
theorem roundTrips_not : ¬ RoundTrips dotted (linkOf (List.replicate (2 ^ 31) (ascii 'a'))) :=
  name_lost (by rw [List.length_replicate]; exact lt_irrefl _)

end RoundTrip

end Magnet

end LibtorrentSN
