import LibtorrentSN.Bencode.Tree
import LibtorrentSN.Torrent.InfoSection

/-!
# Resume data

`write_resume_data` (`src/write_resume_data.cpp`) makes a dictionary of the parameters a torrent is added
with, and `read_resume_data` (`src/read_resume_data.cpp`) makes parameters of such a dictionary. A
bitfield is the list of its bits, and the indices of pieces and files are natural numbers. The SHA-1
hash of the bytes of an info dictionary is a parameter.
-/

namespace LibtorrentSN

namespace Torrent

namespace ResumeData

open Bencode (ascii Value Entry assign bencode bdecode)
open Info (key dictFind dictFindString dictFindList dictFindIntValue intValue)

/-! ## `bitfield` -/

/-- The byte `j` of the bits, the first bit being the highest. -/
def byteAt (bits : List Bool) (j : ℕ) : UInt8 :=
  (List.range 8).foldl (fun b k => 2 * b + if bits.getD (8 * j + k) false then 1 else 0) 0

/-- `data`: the bits after the last one are zero. -/
def Bitfield.data (bits : List Bool) : List UInt8 :=
  (List.range ((bits.length + 7) / 8)).map (byteAt bits)

/-- `assign`, with a multiple of 8 bits. -/
def Bitfield.assign (bytes : List UInt8) : List Bool :=
  (List.range (bytes.length * 8)).map fun i =>
    (bytes.getD (i / 8) 0) &&& (0x80 >>> UInt8.ofNat (i % 8)) ≠ 0

/-- The indices of the set bits. -/
def setBits (bits : List Bool) : Set ℕ := {i | bits[i]? = some true}

/-! ## `add_torrent_params` -/

/-- `storage_mode_t` -/
inductive StorageMode
  | allocate
  | sparse
  deriving DecidableEq, Repr

/-- `sha1_hash` -/
abbrev Sha1Hash := { bytes : List UInt8 // bytes.length = 20 }

theorem length_zeros : (List.replicate 20 (0 : UInt8)).length = 20 := rfl

/-- `tcp::endpoint`: the bytes of an address of version 4 or 6, and a port. The scope of an address of version 6 is left
out, since `write_address` does not write it. -/
structure Endpoint where
  addr : List UInt8
  port : UInt16
  isAddress : addr.length = 4 ∨ addr.length = 16

def Endpoint.isV6 (e : Endpoint) : Bool := e.addr.length = 16

/-- A peer of a local network, for the tests. -/
def localPeer : Endpoint := ⟨[10, 0, 0, 1], 6881, .inl rfl⟩

/-- `torrent_info`, so far as resume data holds it. -/
structure TorrentInfo extends Info.TorrentInfo where
  creationDate : Int64 := 0
  creator : List UInt8 := []
  comment : List UInt8 := []

/-- `torrent_flags_t` -/
abbrev TorrentFlags := BitVec 64

/-! The bits of the flags. -/

def seedMode : ℕ := 0
def uploadMode : ℕ := 1
def applyIpFilter : ℕ := 3
def paused : ℕ := 4
def autoManaged : ℕ := 5
def updateSubscribe : ℕ := 7
def sequentialDownload : ℕ := 9
def stopWhenReady : ℕ := 10
def overrideTrackers : ℕ := 11
def needSaveResume : ℕ := 13
def pinned : ℕ := 14
def mergeResumeTrackers : ℕ := 16
def disableLsd : ℕ := 20
def disablePex : ℕ := 21

namespace TorrentFlags

def has (flags : TorrentFlags) (flag : ℕ) : Bool := flags.getLsbD flag

def set (flags : TorrentFlags) (flag : ℕ) : TorrentFlags := flags ||| BitVec.twoPow 64 flag

def clear (flags : TorrentFlags) (flag : ℕ) : TorrentFlags := flags &&& ~~~BitVec.twoPow 64 flag

/-- `default_flags` -/
def default : TorrentFlags :=
  [updateSubscribe, autoManaged, paused, applyIpFilter, needSaveResume, pinned,
    mergeResumeTrackers].foldl set 0

end TorrentFlags

structure AddTorrentParams where
  ti : Option TorrentInfo := none
  trackers : List (List UInt8) := []
  trackerTiers : List ℤ := []
  name : List UInt8 := []
  savePath : List UInt8 := []
  storageMode : StorageMode := .sparse
  filePriorities : List UInt8 := []
  flags : TorrentFlags := .default
  infoHash : Sha1Hash := ⟨List.replicate 20 0, length_zeros⟩
  maxUploads : Int32 := -1
  maxConnections : Int32 := -1
  uploadLimit : Int32 := -1
  downloadLimit : Int32 := -1
  totalUploaded : Int64 := 0
  totalDownloaded : Int64 := 0
  activeTime : Int32 := 0
  finishedTime : Int32 := 0
  seedingTime : Int32 := 0
  addedTime : Int64 := 0
  completedTime : Int64 := 0
  lastSeenComplete : Int64 := 0
  numComplete : Int32 := -1
  numIncomplete : Int32 := -1
  numDownloaded : Int32 := -1
  peers : List Endpoint := []
  bannedPeers : List Endpoint := []
  unfinishedPieces : Std.TreeMap ℕ (List Bool) := ∅
  havePieces : List Bool := []
  verifiedPieces : List Bool := []
  piecePriorities : List UInt8 := []
  renamedFiles : Std.TreeMap ℕ (List UInt8) := ∅
  lastDownload : Int64 := 0
  lastUpload : Int64 := 0
  url : List UInt8 := []

/-! ## Writing -/

/-- `aux::clamp(std::size_t(tier), 0, 1024)`. A negative number becomes a large one. -/
def clampTier (tier : ℤ) : ℕ := if tier < 0 then 1024 else min tier.toNat 1024

/-- `tr_list[tier].list().emplace_back(tr)`: an undefined entry becomes a list. -/
def addTracker (tr : List UInt8) : Entry → Entry
  | .list l => .list (l ++ [.string tr])
  | _ => .list [.string tr]

/-- The loop over the trackers. When there are no more tiers, the last one stays. -/
def trackerLoop : List (List UInt8) → List ℤ → ℕ → List Entry → List Entry
  | [], _, _, trList => trList
  | tr :: trackers, tiers, tier, trList =>
    let tier := (tiers.head?.map clampTier).getD tier
    let trList := trList ++ List.replicate (tier + 1 - trList.length) Entry.undefined
    trackerLoop trackers tiers.tail tier (trList.modify tier (addTracker tr))

/-- `build_tracker_list` -/
def buildTrackerList (trackers : List (List UInt8)) (tiers : List ℤ) : Entry :=
  if trackers = [] then .list [] else .list (trackerLoop trackers tiers 0 [.list []])

/-- An entry of the list of unfinished pieces. -/
def unfinishedPiece (piece : ℕ × List Bool) : Entry :=
  .dict (assign (key "bitmask") (.string (Bitfield.data piece.2))
    (assign (key "piece") (.int piece.1) []))

/-- The bytes of the pieces: the first bit is for pieces we have, the second one for those verified. -/
def writePieces (have' verified : List Bool) : List UInt8 :=
  (List.range (max have'.length verified.length)).map fun i =>
    (if have'.getD i false then 1 else 0) ||| (if verified.getD i false then 2 else 0)

/-- The list of file names, which the indices lengthen with undefined entries. -/
def mapFile (fl : List Entry) (file : ℕ × List UInt8) : List Entry :=
  (fl ++ List.replicate (file.1 + 1 - fl.length) Entry.undefined).set file.1 (.string file.2)

/-- `write_endpoint` -/
def writeEndpoint (e : Endpoint) : List UInt8 :=
  e.addr ++ [UInt8.ofNat (e.port.toNat / 256), UInt8.ofNat (e.port.toNat % 256)]

def writeEndpoints (v6 : Bool) (peers : List Endpoint) : List UInt8 :=
  (peers.filter (·.isV6 = v6)).flatMap writeEndpoint

/-- `bool` in an entry. -/
def flagEntry (p : AddTorrentParams) (flag : ℕ) : Entry := .int (if p.flags.has flag then 1 else 0)

/-- What is assigned to the keys of the dictionary, in the order of the source. There is nothing for a
key that is left out. -/
def resumeFields (p : AddTorrentParams) : List (String × Option Entry) :=
  [("file-format", some (.string (key "libtorrent resume file"))),
    ("file-version", some (.int 1)),
    ("libtorrent-version", some (.string (key "2.0.11.0"))),
    ("allocation", some (.string (if p.storageMode = .allocate then key "allocate" else key "sparse"))),
    ("total_uploaded", some (.int p.totalUploaded.toInt)),
    ("total_downloaded", some (.int p.totalDownloaded.toInt)),
    ("active_time", some (.int p.activeTime.toInt)),
    ("finished_time", some (.int p.finishedTime.toInt)),
    ("seeding_time", some (.int p.seedingTime.toInt)),
    ("last_seen_complete", some (.int p.lastSeenComplete.toInt)),
    ("last_download", some (.int p.lastDownload.toInt)),
    ("last_upload", some (.int p.lastUpload.toInt)),
    ("num_complete", some (.int p.numComplete.toInt)),
    ("num_incomplete", some (.int p.numIncomplete.toInt)),
    ("num_downloaded", some (.int p.numDownloaded.toInt)),
    ("seed_mode", some (flagEntry p seedMode)),
    ("upload_mode", some (flagEntry p uploadMode)),
    ("apply_ip_filter", some (flagEntry p applyIpFilter)),
    ("paused", some (flagEntry p paused)),
    ("auto_managed", some (flagEntry p autoManaged)),
    ("sequential_download", some (flagEntry p sequentialDownload)),
    ("stop_when_ready", some (flagEntry p stopWhenReady)),
    ("disable_lsd", some (flagEntry p disableLsd)),
    ("disable_pex", some (flagEntry p disablePex)),
    ("added_time", some (.int p.addedTime.toInt)),
    ("completed_time", some (.int p.completedTime.toInt)),
    ("save_path", some (.string p.savePath)),
    ("name", if p.name = [] then none else some (.string p.name)),
    ("url", if p.url = [] then none else some (.string p.url)),
    ("info-hash", some (.string p.infoHash.1)),
    ("info", p.ti.map fun ti => .preformatted ti.infoSection),
    ("comment", p.ti.bind fun ti => if ti.comment = [] then none else some (.string ti.comment)),
    ("creation date",
      p.ti.bind fun ti => if ti.creationDate = 0 then none else some (.int ti.creationDate.toInt)),
    ("created by", p.ti.bind fun ti => if ti.creator = [] then none else some (.string ti.creator)),
    ("unfinished", if p.unfinishedPieces.toList = [] then none
      else some (.list (p.unfinishedPieces.toList.map unfinishedPiece))),
    ("trackers", some (buildTrackerList p.trackers p.trackerTiers)),
    ("pieces", some (.string (writePieces p.havePieces p.verifiedPieces))),
    ("mapped_files", if p.renamedFiles.toList = [] then none
      else some (.list (p.renamedFiles.toList.foldl mapFile []))),
    ("peers", if p.peers = [] then none else some (.string (writeEndpoints false p.peers))),
    ("peers6", if p.peers = [] then none else some (.string (writeEndpoints true p.peers))),
    ("banned_peers", if p.bannedPeers = [] then none
      else some (.string (writeEndpoints false p.bannedPeers))),
    ("banned_peers6", if p.bannedPeers = [] then none
      else some (.string (writeEndpoints true p.bannedPeers))),
    ("upload_rate_limit", some (.int p.uploadLimit.toInt)),
    ("download_rate_limit", some (.int p.downloadLimit.toInt)),
    ("max_connections", some (.int p.maxConnections.toInt)),
    ("max_uploads", some (.int p.maxUploads.toInt)),
    ("file_priority", if p.filePriorities = [] then none
      else some (.list (p.filePriorities.map fun prio => .int prio.toNat))),
    ("piece_priority", if p.piecePriorities = [] then none else some (.string p.piecePriorities))]

/-- One assignment to a key. -/
def setField (d : List (List UInt8 × Entry)) (field : String × Option Entry) :
    List (List UInt8 × Entry) :=
  match field.2 with
  | some e => assign (key field.1) e d
  | none => d

def writeResumeData (p : AddTorrentParams) : Entry := .dict ((resumeFields p).foldl setField [])

/-! ## Reading -/

/-- The error codes of `read_resume_data`. -/
inductive ResumeError
  | noError
  | bdecode (e : Bencode.ErrorCode)
  | notADictionary
  | invalidFileTag
  | missingInfoHash
  | mismatchingInfoHash
  | infoSection (e : Info.ErrorCode)

/-- `dict_find_string_value`, with an empty default. -/
def dictFindStringValue (d : Value) (k : List UInt8) : List UInt8 :=
  ((dictFindString d k).map Prod.snd).getD []

/-- `list_string_value_at`, for an item. -/
def stringValueOf : Value → List UInt8
  | .str _ bytes => bytes
  | _ => []

/-- `list_int_value_at`, for an item. -/
def intValueOf (defaultVal : ℤ) : Value → ℤ
  | .int negative digits => intValue negative digits
  | _ => defaultVal

def int32Value (rd : Value) (name : String) (defaultVal : ℤ) : Int32 :=
  .ofInt (dictFindIntValue rd (key name) defaultVal)

def int64Value (rd : Value) (name : String) : Int64 := .ofInt (dictFindIntValue rd (key name) 0)

/-- `apply_flag` -/
def applyFlag (rd : Value) (flags : TorrentFlags) (flag : String × ℕ) : TorrentFlags :=
  if dictFindIntValue rd (key flag.1) (if TorrentFlags.default.has flag.2 then 1 else 0) = 0 then
    flags.clear flag.2
  else flags.set flag.2

/-- The flags that are read, with their keys. -/
def resumeFlags : List (String × ℕ) :=
  [("seed_mode", seedMode), ("upload_mode", uploadMode), ("apply_ip_filter", applyIpFilter),
    ("paused", paused), ("auto_managed", autoManaged), ("sequential_download", sequentialDownload),
    ("stop_when_ready", stopWhenReady), ("disable_lsd", disableLsd), ("disable_pex", disablePex)]

/-- The value of the key `info`, if it is a dictionary. -/
def dictFindDict (d : Value) (k : List UInt8) : Option Value :=
  match dictFind d k with
  | some (_, .dict items) => some (.dict items)
  | _ => none

/-- The error of `parse_info_section`. It can fail and leave the error code alone. -/
def parseError : Except Info.ErrorCode Unit → ResumeError
  | .ok () => .noError
  | .error .noError => .noError
  | .error e => .infoSection e

/-- The part of `read_resume_data` about the info dictionary, which has to have the info-hash where there
is one. -/
def readTi (sha1 : List UInt8 → List UInt8) (infoHash : List UInt8) (rd : Value) (pieceLimit : ℤ) :
    ResumeError × Option TorrentInfo :=
  match dictFindDict rd (key "info") with
  | none => (.noError, none)
  | some info =>
    let resumeIh := sha1 info.encode
    if ¬ Info.hasV1 infoHash ∨ resumeIh = infoHash then
      match Info.parseInfoSection sha1 { infoHash := resumeIh } info pieceLimit with
      | (.ok (), ti) => (.noError, some
          { ti with
            creationDate := int64Value rd "creation date"
            creator := dictFindStringValue rd (key "created by")
            comment := dictFindStringValue rd (key "comment") })
      | (.error e, ti) => (parseError (.error e), some { ti with })
    else (.mismatchingInfoHash, none)

/-- The names of the files that have one, the first of them having the index `i`. -/
def readMappedFiles : List Value → ℕ → Std.TreeMap ℕ (List UInt8) → Std.TreeMap ℕ (List UInt8)
  | [], _, files => files
  | v :: vs, i, files =>
    readMappedFiles vs (i + 1) (if stringValueOf v = [] then files else files.insert i (stringValueOf v))

/-- `aux::clamp(prio, dont_download, top_priority)` -/
def clampPriority (prio : UInt8) : UInt8 := if 7 < prio then 7 else prio

/-- The priorities of the files; without a number it is `default_priority`. -/
def readFilePriorities (items : List Value) : List UInt8 :=
  items.map fun v => clampPriority (UInt8.ofInt (intValueOf 4 v))

/-- The trackers with their tiers. Only lists are tiers. -/
def readTrackers : List Value → ℤ → List (List UInt8 × ℤ)
  | [], _ => []
  | .list items :: vs, tier => items.map (fun v => (stringValueOf v, tier)) ++ readTrackers vs (tier + 1)
  | _ :: vs, tier => readTrackers vs tier

/-- The pieces we have, and those verified. -/
def readPieces (fileVersion : ℤ) (pieces : List UInt8) : List Bool × List Bool :=
  if fileVersion = 1 then
    let verified := pieces.map fun b => decide (b &&& 2 ≠ 0)
    (pieces.map fun b => decide (b &&& 1 ≠ 0), if verified.any id then verified else [])
  else (Bitfield.assign pieces, [])

/-- `read_v4_endpoint` and `read_v6_endpoint`, of as many endpoints as the loop counts: its index
starts at `first` and moves on by the size of an endpoint. -/
def readEndpoints (addrSize first : ℕ) (haddr : addrSize = 4 ∨ addrSize = 16) (bytes : List UInt8) :
    List Endpoint :=
  let size := addrSize + 2
  (List.range ((bytes.length + size - 1 - first) / size)).filterMap fun j =>
    let e := bytes.drop (j * size)
    if h : (e.take addrSize).length = addrSize then
      some ⟨e.take addrSize,
        UInt16.ofNat (256 * (e.getD addrSize 0).toNat + (e.getD (addrSize + 1) 0).toNat), by
          rw [h]
          exact haddr⟩
    else none

/-- The unfinished pieces. An entry without a piece or without bits is skipped. -/
def readUnfinished (pieces : Std.TreeMap ℕ (List Bool)) (e : Value) : Std.TreeMap ℕ (List Bool) :=
  match e with
  | .dict _ =>
    let piece := (Int32.ofInt (dictFindIntValue e (key "piece") (-1))).toInt
    if piece < 0 then pieces
    else
      let bitmask := dictFindStringValue e (key "bitmask")
      if bitmask = [] then pieces else pieces.insert piece.toNat (Bitfield.assign bitmask)
  | _ => pieces

/-- The flags, after the file priorities and the trackers. -/
def readFlags (rd : Value) (filePriorities : List UInt8) : TorrentFlags :=
  let flags := resumeFlags.foldl (applyFlag rd) .default
  -- this is suspicious, leave seed mode
  let flags := if 0 ∈ filePriorities then flags.clear seedMode else flags
  let flags := if (dictFindList rd (key "trackers")).isSome then flags.set overrideTrackers else flags
  flags.clear needSaveResume

def readAllocation (rd : Value) : StorageMode :=
  match dictFindString rd (key "allocation") with
  | some (_, alloc) => if alloc = key "allocate" ∨ alloc = key "full" then .allocate else .sparse
  | none => .sparse

/-- What is read once the header has been checked. -/
def readFields (sha1 : List UInt8 → List UInt8) (rd : Value) (fileVersion : ℤ) (infoHash : Sha1Hash)
    (pieceLimit : ℤ) : ResumeError × AddTorrentParams :=
  let (ec, ti) := readTi sha1 infoHash.1 rd pieceLimit
  let filePriorities := readFilePriorities ((dictFindList rd (key "file_priority")).getD [])
  let trackers := readTrackers ((dictFindList rd (key "trackers")).getD []) 0
  let pieces := readPieces fileVersion (dictFindStringValue rd (key "pieces"))
  (ec, {
    ti := ti
    trackers := trackers.map Prod.fst
    trackerTiers := trackers.map Prod.snd
    name := dictFindStringValue rd (key "name")
    savePath := dictFindStringValue rd (key "save_path")
    storageMode := readAllocation rd
    filePriorities := filePriorities
    flags := readFlags rd filePriorities
    infoHash := infoHash
    maxUploads := int32Value rd "max_uploads" (-1)
    maxConnections := int32Value rd "max_connections" (-1)
    uploadLimit := int32Value rd "upload_rate_limit" (-1)
    downloadLimit := int32Value rd "download_rate_limit" (-1)
    totalUploaded := int64Value rd "total_uploaded"
    totalDownloaded := int64Value rd "total_downloaded"
    activeTime := int32Value rd "active_time" 0
    finishedTime := int32Value rd "finished_time" 0
    seedingTime := int32Value rd "seeding_time" 0
    addedTime := int64Value rd "added_time"
    completedTime := int64Value rd "completed_time"
    lastSeenComplete := int64Value rd "last_seen_complete"
    numComplete := int32Value rd "num_complete" (-1)
    numIncomplete := int32Value rd "num_incomplete" (-1)
    numDownloaded := int32Value rd "num_downloaded" (-1)
    peers := readEndpoints 4 5 (.inl rfl) (dictFindStringValue rd (key "peers")) ++
      readEndpoints 16 17 (.inr rfl) (dictFindStringValue rd (key "peers6"))
    -- the first index is not one less than the size here
    bannedPeers := readEndpoints 4 6 (.inl rfl) (dictFindStringValue rd (key "banned_peers")) ++
      readEndpoints 16 17 (.inr rfl) (dictFindStringValue rd (key "banned_peers6"))
    unfinishedPieces := ((dictFindList rd (key "unfinished")).getD []).foldl readUnfinished ∅
    havePieces := pieces.1
    verifiedPieces := pieces.2
    piecePriorities := (dictFindStringValue rd (key "piece_priority")).map clampPriority
    renamedFiles := readMappedFiles ((dictFindList rd (key "mapped_files")).getD []) 0 ∅
    lastDownload := int64Value rd "last_download"
    lastUpload := int64Value rd "last_upload"
    url := dictFindStringValue rd (key "url") })

/-- `read_resume_data`, of a decoded buffer. -/
def readResumeData (sha1 : List UInt8 → List UInt8) (rd : Value) (pieceLimit : ℤ) :
    ResumeError × AddTorrentParams :=
  match rd with
  | .dict _ =>
    let ret : AddTorrentParams := { storageMode := readAllocation rd }
    let fileVersion := dictFindIntValue rd (key "file-version") 1
    let infoHash := dictFindStringValue rd (key "info-hash")
    if dictFindStringValue rd (key "file-format") ≠ key "libtorrent resume file" then
      (.invalidFileTag, ret)
    else if fileVersion ≠ 1 ∧ fileVersion ≠ 2 then (.invalidFileTag, ret)
    else if h : infoHash.length = 20 then readFields sha1 rd fileVersion ⟨infoHash, h⟩ pieceLimit
    else (.missingInfoHash, ret)
  | _ => (.notADictionary, {})

/-- `load_torrent_limits`, so far as it is used here. -/
structure LoadTorrentLimits where
  maxPieces : ℤ := 0x200000
  maxDecodeDepth : ℤ := 100
  maxDecodeTokens : ℤ := 3000000

/-- `read_resume_data`, of a buffer. -/
def readResumeBuffer (sha1 : List UInt8 → List UInt8) (buffer : List UInt8) (cfg : LoadTorrentLimits) :
    ResumeError × AddTorrentParams :=
  let rd := bdecode buffer cfg.maxDecodeDepth cfg.maxDecodeTokens
  if rd.error = .noError then readResumeData sha1 rd.node.value cfg.maxPieces
  else (.bdecode rd.error, {})

end ResumeData

end Torrent

end LibtorrentSN
