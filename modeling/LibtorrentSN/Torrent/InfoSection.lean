import LibtorrentSN.Torrent.FilePaths
import LibtorrentSN.Bencode.Grammar

/-!
# The info dictionary

`torrent_info::parse_info_section` (`src/torrent_info.cpp`) reads the info dictionary of a torrent: the
piece length, the name, the files and the piece hashes. The dictionary is a value of the bencoding
grammar, and offsets count from its first byte. The SHA-1 hash of its bytes is a parameter.
-/

namespace LibtorrentSN

namespace Torrent

namespace Info

open Bencode (ascii Value decimal int64Max)

/-! ## Dictionary look-ups -/

/-- `bytes` of a string. -/
def key (s : String) : List UInt8 := s.toList.map ascii

/-- A literal is a list of characters to the kernel, which is much quicker than reading its UTF-8 again. -/
theorem key_ofList (l : List Char) : key (String.ofList l) = l.map ascii := by rw [key, String.toList_ofList]

/-- The first value of a key, with its offset. The items begin at `off`. -/
def findAt (k : List UInt8) : ℕ → List Value → Option (ℕ × Value)
  | off, .str l bytes :: v :: vs =>
    let off := off + (Value.str l bytes).encode.length
    if bytes = k then some (off, v) else findAt k (off + v.encode.length) vs
  | _, _ => none

/-- `dict_find` -/
def dictFind (d : Value) (k : List UInt8) : Option (ℕ × Value) :=
  match d with
  | .dict items => findAt k 1 items
  | _ => none

/-- `dict_find_string`: the offset of the first byte of the string, and the string. -/
def dictFindString (d : Value) (k : List UInt8) : Option (ℕ × List UInt8) :=
  match dictFind d k with
  | some (off, .str l bytes) => some (off + l.length + 1, bytes)
  | _ => none

/-- `dict_find_list` -/
def dictFindList (d : Value) (k : List UInt8) : Option (List Value) :=
  match dictFind d k with
  | some (_, .list items) => some items
  | _ => none

/-- `int_value`: a number that does not fit in 64 bits is 0. -/
def intValue (negative : Bool) (digits : List UInt8) : ℤ :=
  if int64Max < decimal digits then 0
  else if negative then -(decimal digits : ℤ)
  else decimal digits

/-- `dict_find_int_value` -/
def dictFindIntValue (d : Value) (k : List UInt8) (defaultVal : ℤ) : ℤ :=
  match dictFind d k with
  | some (_, .int negative digits) => intValue negative digits
  | _ => defaultVal

/-! ## Files -/

/-- The strings of a list, if it holds nothing else. -/
def strings : List Value → Option (List (List UInt8))
  | [] => some []
  | .str _ bytes :: vs => (strings vs).map (bytes :: ·)
  | _ => none

/-- Append every element of a path. -/
def sanitizePath (path : List UInt8) (elements : List (List UInt8)) : List UInt8 :=
  elements.foldl sanitizeAppendPathElement path

/-- The name of the file as it stands in the buffer. -/
def rawName (element : List UInt8) : List UInt8 := element.dropWhile (· = ascii '/')

/-- The path of a file and its raw name. -/
def extractPath (dict : Value) (rootDir : List UInt8) (topLevel : Bool) :
    Except ErrorCode (List UInt8 × List UInt8) :=
  if topLevel then
    match (dictFindString dict (key "name.utf-8")).or (dictFindString dict (key "name")) with
    | none => .error .torrentMissingName
    | some (_, p) =>
      if p = [] then .error .torrentMissingName
      else
        let path := sanitizeAppendPathElement rootDir p
        if path = [] then .error .torrentMissingName else .ok (path, rawName p)
  else
    match (dictFindList dict (key "path.utf-8")).or (dictFindList dict (key "path")) with
    | none => .error .torrentMissingName
    | some p =>
      if p = [] then .error .torrentMissingName
      else match strings p with
        | none => .error .torrentInvalidName
        | some elements =>
          let path := sanitizePath rootDir elements
          -- all elements were sanitised away
          let path := if path.length = rootDir.length then path ++ [ascii '/', ascii '_'] else path
          .ok (path, rawName (elements.getLastD []))

/-- The hash of a file, if the dictionary has one. -/
def fileHash (dict : Value) : Option (List UInt8) :=
  match dictFindString dict (key "sha1") with
  | some (_, fh) => if fh.length = 20 then some fh else none
  | none => none

/-- `extract_single_file`. The raw name is dropped when it differs from the end of the path. -/
def extractSingleFile (dict : Value) (files : FileStorage) (rootDir : List UInt8) (topLevel : Bool) :
    Except ErrorCode FileStorage :=
  match dict with
  | .dict _ =>
    let fileSize := dictFindIntValue dict (key "length") (-1)
    if fileSize < 0 ∨ (2 ^ 31 - 1) / 2 ≤ fileSize / FileStorage.defaultBlockSize ∨
        (FileStorage.maxFileSize : ℤ) < fileSize then .error .torrentInvalidLength
    else match extractPath dict rootDir topLevel with
      | .error e => .error e
      | .ok (path, filename) =>
        files.addFileBorrow (if filename <:+ path then filename else []) path fileSize.toNat (fileHash dict)
  | _ => .error .noError

/-- `extract_files` -/
def extractFiles (list : List Value) (target : FileStorage) (rootDir : List UInt8) :
    Except ErrorCode FileStorage :=
  list.foldlM (fun files dict => extractSingleFile dict files rootDir false) target

/-! ## The whole dictionary -/

/-- `torrent_info`, so far as the info section sets it. Its buffer is not shared with another one. -/
structure TorrentInfo where
  infoHash : List UInt8 := []
  infoSection : List UInt8 := []
  pieceHashes : ℤ := 0
  multifile : Bool := false
  files : FileStorage := {}
  -- what `files` has borrowed points into the buffer that is stored
  filesInSection : Bool := false

/-- `has_v1` -/
def hasV1 (hash : List UInt8) : Bool := hash.any (· ≠ 0)

def hexDigit (n : ℕ) : UInt8 := if n < 10 then UInt8.ofNat (48 + n) else UInt8.ofNat (87 + n)

/-- `aux::to_hex` -/
def toHex (bytes : List UInt8) : List UInt8 :=
  bytes.flatMap fun b => [hexDigit (b.toNat / 16), hexDigit (b.toNat % 16)]

variable (sha1 : List UInt8 → List UInt8)

/-- The name of the torrent, sanitised, or the hash where nothing is left of it. -/
def torrentName (info : Value) (name : List UInt8) : List UInt8 :=
  let sanitised := sanitizeAppendPathElement [] name
  if sanitised = [] ∧ hasV1 (sha1 info.encode) then toHex (sha1 info.encode) else sanitised

/-- The list of files, and whether there is one. -/
def parseFiles (info : Value) (name : List UInt8) (files : FileStorage) :
    Except ErrorCode (FileStorage × Bool) :=
  match dictFindList info (key "files") with
  | some list => (extractFiles list files (torrentName sha1 info name)).map (·, true)
  | none =>
    if (dictFind info (key "length")).isSome then
      (extractSingleFile info files [] true).map (·, false)
    else .ok (files, false)

/-- The part of `parse_info_section` that marks the torrent as invalid when it fails: the files, and the
offset of the piece hashes. -/
def parseContents (info : Value) (maxPieces pieceLength : ℤ) :
    Except ErrorCode (FileStorage × Bool × ℤ) :=
  match (dictFindString info (key "name.utf-8")).or (dictFindString info (key "name")) with
  | none => .error .torrentMissingName
  | some (_, name) =>
    match parseFiles sha1 info name { pieceLength } with
    | .error e => .error e
    | .ok (files, multifile) =>
      if files.files = [] then .error .noFilesInTorrent
      else if files.name = [] then .error .torrentMissingName
      else if FileStorage.maxNumPieces < files.totalSize / files.pieceLength then
        .error .tooManyPiecesInTorrent
      else
        let numPieces := (files.totalSize + files.pieceLength - 1) / files.pieceLength
        if (2 ^ 31 - 1) / 20 ≤ numPieces ∨ maxPieces < numPieces then .error .tooManyPiecesInTorrent
        else match dictFindString info (key "pieces") with
          | none => .error .torrentMissingPieces
          | some (off, pieces) =>
            if (pieces.length : ℤ) ≠ numPieces * 20 then .error .torrentInvalidHashes
            else if files.totalSize = 0 then .error .torrentInvalidLength
            else .ok ({ files with numPieces := numPieces }, multifile, off)

/-- `parse_info_section`. What a failure leaves in the flags and in `m_piece_hashes` is left out. -/
def parseInfoSection (t : TorrentInfo) (info : Value) (maxPieces : ℤ) :
    Except ErrorCode Unit × TorrentInfo :=
  match info with
  | .dict _ =>
    let t := { t with infoHash := sha1 info.encode }
    if 2 ^ 31 - 1 ≤ info.encode.length then (.error .metadataTooLarge, t)
    else
      -- the old buffer is freed
      let t := { t with infoSection := info.encode, filesInSection := false }
      let pieceLength := dictFindIntValue info (key "piece length") (-1)
      if pieceLength ≤ 0 ∨ FileStorage.maxPieceSize < pieceLength then
        (.error .torrentMissingPieceLength, t)
      -- `piece_length & (piece_length - 1)`
      else if pieceLength < FileStorage.defaultBlockSize ∨
          pieceLength.toNat &&& (pieceLength.toNat - 1) ≠ 0 then
        (.error .torrentMissingPieceLength, t)
      else match parseContents sha1 info maxPieces pieceLength with
        | .error e => (.error e, { t with files.pieceLength := 0 })
        | .ok (files, multifile, pieceHashes) =>
          (.ok (), { t with
            files := files, multifile := multifile, pieceHashes := pieceHashes, filesInSection := true })
  | _ => (.error .torrentInfoNoDict, t)

/-- `piece_size` -/
def FileStorage.pieceSize (fs : FileStorage) (p : ℤ) : ℤ :=
  if p = fs.numPieces - 1 then fs.totalSize - (fs.numPieces - 1) * fs.pieceLength else fs.pieceLength

/-- `hash_for_piece`: 20 bytes of the stored section. -/
def TorrentInfo.hashForPiece (t : TorrentInfo) (p : ℕ) : List UInt8 :=
  (t.infoSection.drop (t.pieceHashes.toNat + p * 20)).take 20

/-- The dictionaries of the files. -/
def fileDicts (info : Value) : List Value := (dictFindList info (key "files")).getD [info]

/-! ## What is accepted -/

section accepted

variable {sha1} {t t' : TorrentInfo} {info dict : Value} {maxPieces pieceLength : ℤ}
  {rootDir name : List UInt8} {fs fs' : FileStorage} {topLevel : Bool}

theorem extractSingleFile_ok (h : extractSingleFile dict fs rootDir topLevel = .ok fs') :
    0 ≤ dictFindIntValue dict (key "length") (-1) ∧
    ∃ path filename, extractPath dict rootDir topLevel = .ok (path, filename) ∧
      fs.addFileBorrow (if filename <:+ path then filename else []) path
        (dictFindIntValue dict (key "length") (-1)).toNat (fileHash dict) = .ok fs' := by
  rw [extractSingleFile.eq_def] at h
  split at h
  · dsimp only at h
    split at h
    · cases h
    · next hsize =>
      split at h
      · cases h
      · next path filename hpath => exact ⟨by omega, path, filename, hpath, h⟩
  · cases h

/-- The sizes that the dictionaries give. -/
def lengths (dicts : List Value) : List ℕ :=
  dicts.map fun d => (dictFindIntValue d (key "length") (-1)).toNat

theorem extractSingleFile_sized {sizes : List ℕ} (hs : fs.Sized sizes)
    (h : extractSingleFile dict fs rootDir topLevel = .ok fs') :
    fs'.Sized (sizes ++ lengths [dict]) ∧ fs'.pieceLength = fs.pieceLength := by
  obtain ⟨-, path, filename, -, hadd⟩ := extractSingleFile_ok h
  exact hs.addFileBorrow hadd

theorem extractFiles_sized {sizes : List ℕ} {dicts : List Value} (hs : fs.Sized sizes)
    (h : extractFiles dicts fs rootDir = .ok fs') :
    fs'.Sized (sizes ++ lengths dicts) ∧ fs'.pieceLength = fs.pieceLength := by
  induction dicts generalizing fs sizes with
  | nil =>
    obtain rfl := Except.ok.inj h
    exact ⟨by simpa [lengths] using hs, rfl⟩
  | cons dict dicts ih =>
    rw [extractFiles, List.foldlM_cons] at h
    cases hdict : extractSingleFile dict fs rootDir false with
    | error e => rw [hdict] at h; cases h
    | ok fs₁ =>
      rw [hdict] at h
      obtain ⟨hs₁, hlen₁⟩ := extractSingleFile_sized hs hdict
      obtain ⟨hs', hlen⟩ := ih hs₁ h
      rw [List.append_assoc] at hs'
      exact ⟨hs', hlen.trans hlen₁⟩

theorem parseFiles_sized {multifile : Bool} (h : parseFiles sha1 info name { pieceLength } = .ok (fs, multifile))
    (hfiles : fs.files ≠ []) :
    fs.Sized (lengths (fileDicts info)) ∧ fs.pieceLength = pieceLength := by
  have hempty : ({ pieceLength } : FileStorage).Sized [] := ⟨rfl, rfl, rfl, Nat.zero_le _⟩
  rw [parseFiles] at h
  rw [fileDicts]
  split at h
  · next list hlist =>
    cases hex : extractFiles list { pieceLength } (torrentName sha1 info name) with
    | error e => rw [hex] at h; cases h
    | ok fs₁ =>
      rw [hex] at h
      obtain ⟨rfl, -⟩ := Prod.mk.inj (Except.ok.inj h)
      rw [hlist]
      exact extractFiles_sized hempty hex
  · next hlist =>
    rw [hlist]
    split at h
    · cases hex : extractSingleFile info { pieceLength } [] true with
      | error e => rw [hex] at h; cases h
      | ok fs₁ =>
        rw [hex] at h
        obtain ⟨rfl, -⟩ := Prod.mk.inj (Except.ok.inj h)
        exact extractSingleFile_sized hempty hex
    · obtain ⟨rfl, -⟩ := Prod.mk.inj (Except.ok.inj h)
      exact absurd rfl hfiles

/-- What the storage and the hashes have passed. -/
theorem parseContents_ok {multifile : Bool} {off : ℤ}
    (h : parseContents sha1 info maxPieces pieceLength = .ok (fs, multifile, off)) :
    ∃ nameOff name fs₁ pieces, ∃ k : ℕ, off = k ∧
      (dictFindString info (key "name.utf-8")).or (dictFindString info (key "name")) =
        some (nameOff, name) ∧
      parseFiles sha1 info name { pieceLength } = .ok (fs₁, multifile) ∧ fs₁.files ≠ [] ∧
      fs = { fs₁ with numPieces := (fs₁.totalSize + fs₁.pieceLength - 1) / fs₁.pieceLength } ∧
      fs.numPieces < (2 ^ 31 - 1) / 20 ∧ fs.numPieces ≤ maxPieces ∧
      dictFindString info (key "pieces") = some (k, pieces) ∧
      (pieces.length : ℤ) = fs.numPieces * 20 ∧ fs.totalSize ≠ 0 := by
  rw [parseContents] at h
  split at h
  · cases h
  · next nameOff name hname =>
    split at h
    · cases h
    · next fs₁ multifile₁ hfiles =>
      split at h
      · cases h
      · next hne =>
        split at h
        · cases h
        · split at h
          · cases h
          · dsimp only at h
            split at h
            · cases h
            · next hpieces =>
              split at h
              · cases h
              · next k pieces hfind =>
                split at h
                · cases h
                · next hlen =>
                  split at h
                  · cases h
                  · next htotal =>
                    obtain ⟨rfl, hrest⟩ := Prod.mk.inj (Except.ok.inj h)
                    obtain ⟨rfl, rfl⟩ := Prod.mk.inj hrest
                    rw [not_or, not_le, not_lt] at hpieces
                    exact ⟨nameOff, name, fs₁, pieces, k, rfl, hname, hfiles, hne, rfl, hpieces.1,
                      hpieces.2, hfind, not_not.mp hlen, htotal⟩

/-- What the whole dictionary has passed. -/
theorem parseInfoSection_ok (h : parseInfoSection sha1 t info maxPieces = (.ok (), t')) :
    info.encode.length < 2 ^ 31 - 1 ∧
    ∃ pieceLength, dictFindIntValue info (key "piece length") (-1) = pieceLength ∧
      FileStorage.defaultBlockSize ≤ pieceLength ∧ pieceLength ≤ FileStorage.maxPieceSize ∧
      pieceLength.toNat &&& (pieceLength.toNat - 1) = 0 ∧
      ∃ fs multifile off, parseContents sha1 info maxPieces pieceLength = .ok (fs, multifile, off) ∧
        t' = ⟨sha1 info.encode, info.encode, off, multifile, fs, true⟩ := by
  rw [parseInfoSection.eq_def] at h
  split at h
  · dsimp only at h
    split at h
    · cases h
    · next hlen =>
      split at h
      · cases h
      · next hmax =>
        split at h
        · cases h
        · next hmin =>
          split at h
          · cases h
          · next fs multifile off hcontents =>
            obtain ⟨-, rfl⟩ := Prod.mk.inj h
            rw [not_or, not_lt] at hmin
            exact ⟨not_le.mp hlen, _, rfl, hmin.1, by omega, not_not.mp hmin.2, fs, multifile, off,
              hcontents, rfl⟩
  · cases h

/-- A name or a hash points into the buffer of the info dictionary. -/
def FileStorage.Borrows (fs : FileStorage) : Prop :=
  (∃ e ∈ fs.files, e.borrowed = true) ∨ ∃ filehash ∈ fs.fileHashes, filehash ≠ none

instance (fs : FileStorage) : Decidable fs.Borrows := inferInstanceAs (Decidable (_ ∨ _))

/-- The files point into a buffer that has been freed. -/
def TorrentInfo.Dangles (t : TorrentInfo) : Prop := t.files.Borrows ∧ t.filesInSection = false

/-- The files are as they were, but for the piece length, and what could be read of them still can. -/
structure Unchanged (t t' : TorrentInfo) : Prop where
  files : t'.files = t.files ∨ t'.files = { t.files with pieceLength := 0 }
  reads : t'.Dangles → t.Dangles

/-- The info section is copied before its keys are looked at, if it is a dictionary below 2 GiB. -/
def Copied (info : Value) : Prop := (∃ items, info = .dict items) ∧ info.encode.length < 2 ^ 31 - 1

/-- A failure leaves the files alone, or makes the piece length zero. The buffer is gone if the new one has
been copied. -/
theorem parseInfoSection_error {e : ErrorCode}
    (h : parseInfoSection sha1 t info maxPieces = (.error e, t')) :
    (t'.files = t.files ∨ t'.files = { t.files with pieceLength := 0 }) ∧
      (t'.filesInSection = false ∧ Copied info ∨ t'.filesInSection = t.filesInSection ∧ ¬Copied info) := by
  rw [parseInfoSection.eq_def] at h
  split at h
  · next items =>
    dsimp only at h
    split at h
    · next hlong =>
      obtain ⟨-, rfl⟩ := Prod.mk.inj h
      exact ⟨.inl rfl, .inr ⟨rfl, fun hcopied => absurd hcopied.2 (not_lt.mpr hlong)⟩⟩
    · next hlong =>
      have hcopied : Copied (.dict items) := ⟨⟨items, rfl⟩, not_le.mp hlong⟩
      split at h
      · obtain ⟨-, rfl⟩ := Prod.mk.inj h
        exact ⟨.inl rfl, .inl ⟨rfl, hcopied⟩⟩
      · split at h
        · obtain ⟨-, rfl⟩ := Prod.mk.inj h
          exact ⟨.inl rfl, .inl ⟨rfl, hcopied⟩⟩
        · split at h
          · obtain ⟨-, rfl⟩ := Prod.mk.inj h
            exact ⟨.inr rfl, .inl ⟨rfl, hcopied⟩⟩
          · cases (Prod.mk.inj h).1
  · next hdict =>
    obtain ⟨-, rfl⟩ := Prod.mk.inj h
    exact ⟨.inl rfl, .inr ⟨rfl, fun hcopied => hcopied.1.elim hdict⟩⟩

/-- The files are unchanged exactly if their buffer is kept, or was not theirs, or they need none. -/
theorem unchanged_iff {e : ErrorCode} (h : parseInfoSection sha1 t info maxPieces = (.error e, t')) :
    Unchanged t t' ↔ ¬Copied info ∨ t.filesInSection = false ∨ ¬t.files.Borrows := by
  obtain ⟨hfiles, hsection⟩ := parseInfoSection_error h
  have hborrows : t'.files.Borrows ↔ t.files.Borrows := by
    obtain hfiles | hfiles := hfiles
    · rw [hfiles]
    · rw [hfiles]
      rfl
  constructor
  · intro hunchanged
    obtain ⟨hgone, hcopied⟩ | ⟨-, hcopied⟩ := hsection
    · refine .inr ?_
      by_cases hb : t.files.Borrows
      · exact .inl (hunchanged.reads ⟨hborrows.mpr hb, hgone⟩).2
      · exact .inr hb
    · exact .inl hcopied
  · intro hcond
    refine ⟨hfiles, fun hdangles => ?_⟩
    have hb := hborrows.mp hdangles.1
    refine ⟨hb, ?_⟩
    obtain hcopied | hgone | hnone := hcond
    · obtain ⟨-, hcopied'⟩ | ⟨hsame, -⟩ := hsection
      · exact absurd hcopied' hcopied
      · exact hsame.symm.trans hdangles.2
    · exact hgone
    · exact absurd hb hnone

/-! ## Where a string lies -/

theorem findAt_eq {k : List UInt8} {o : ℕ} {v : Value} : ∀ {off : ℕ} {vs : List Value},
    findAt k off vs = some (o, v) →
    ∃ pre post, Value.encodeAll vs = pre ++ (v.encode ++ post) ∧ o = off + pre.length
  | off, .str l bytes :: v' :: vs, h => by
    rw [findAt] at h
    split at h
    · obtain ⟨rfl, rfl⟩ := Prod.mk.inj (Option.some.inj h)
      exact ⟨(Value.str l bytes).encode, Value.encodeAll vs, rfl, rfl⟩
    · obtain ⟨pre, post, hvs, ho⟩ := findAt_eq h
      refine ⟨(Value.str l bytes).encode ++ (v'.encode ++ pre), post, ?_, ?_⟩
      · rw [Value.encodeAll, Value.encodeAll, hvs]
        simp only [List.append_assoc]
      · rw [ho]
        simp only [List.length_append]
        omega

theorem dictFind_eq {k : List UInt8} {off : ℕ} {v : Value} (h : dictFind info k = some (off, v)) :
    ∃ pre post, info.encode = pre ++ (v.encode ++ post) ∧ off = pre.length := by
  cases info with
  | dict items =>
    obtain ⟨pre, post, hvs, rfl⟩ := findAt_eq h
    refine ⟨ascii 'd' :: pre, post ++ [ascii 'e'], ?_, Nat.add_comm _ _⟩
    rw [Value.encode, hvs]
    simp only [List.append_assoc, List.cons_append]
  | int => cases h
  | str => cases h
  | list => cases h

theorem dictFindString_eq {k bytes : List UInt8} {off : ℕ}
    (h : dictFindString info k = some (off, bytes)) :
    ∃ pre post, info.encode = pre ++ (bytes ++ post) ∧ pre.length = off := by
  rw [dictFindString] at h
  split at h
  · next o l b hfind =>
    obtain ⟨rfl, rfl⟩ := Prod.mk.inj (Option.some.inj h)
    obtain ⟨pre, post, hinfo, rfl⟩ := dictFind_eq hfind
    refine ⟨pre ++ (l ++ [ascii ':']), post, ?_, ?_⟩
    · rw [hinfo, Value.encode]
      simp only [List.append_assoc, List.cons_append, List.nil_append]
    · simp only [List.length_append, List.length_singleton]
      omega
  · cases h

/-! ## Geometry -/

/-- What the rest of the program takes for granted about an accepted torrent. -/
structure Geometry (info : Value) (t : TorrentInfo) : Prop where
  pieceLength_pow : ∃ k : ℕ, t.files.pieceLength = 2 ^ k
  pieceLength_le : 16 * 1024 ≤ t.files.pieceLength ∧ t.files.pieceLength ≤ FileStorage.maxPieceSize
  numPieces_pos : 0 < t.files.numPieces
  lt_totalSize : (t.files.numPieces - 1) * t.files.pieceLength < t.files.totalSize
  totalSize_le : t.files.totalSize ≤ t.files.numPieces * t.files.pieceLength
  -- the sizes are those of the dictionary, and fit in the fields that hold them
  sizes : t.files.files.map (fun f => (f.size : ℤ)) =
    (fileDicts info).map fun d => dictFindIntValue d (key "length") (-1)
  totalSize_eq : (t.files.files.map FileEntry.size).sum = t.files.totalSize
  totalSize_lt : t.files.totalSize < 2 ^ 48
  offsets : ∀ i (hi : i < t.files.files.length),
    t.files.files[i].offset = ((t.files.files.take i).map FileEntry.size).sum
  pieceSize : ∀ p, 0 ≤ p → p < t.files.numPieces →
    1 ≤ t.files.pieceSize p ∧ t.files.pieceSize p ≤ t.files.pieceLength
  hashes : ∃ off pieces, dictFindString info (key "pieces") = some (off, pieces) ∧
    ∀ p : ℕ, p < t.files.numPieces → 0 ≤ t.pieceHashes ∧
      t.pieceHashes + p * 20 + 20 ≤ t.infoSection.length ∧
      t.hashForPiece p = (pieces.drop (20 * p)).take 20

theorem numPieces_bounds {total n pl : ℤ} (hpl : 0 < pl) (htotal : 0 < total)
    (hn : n = (total + pl - 1) / pl) : 0 < n ∧ (n - 1) * pl < total ∧ total ≤ n * pl := by
  have hmod := Int.emod_add_mul_ediv (total + pl - 1) pl
  have hlow := Int.emod_nonneg (total + pl - 1) hpl.ne'
  have hhigh := Int.emod_lt_of_pos (total + pl - 1) hpl
  rw [← hn] at hmod
  refine ⟨?_, by linarith [mul_comm pl n], by linarith [mul_comm pl n]⟩
  rw [hn]
  exact Int.le_ediv_of_mul_le hpl (by omega)

theorem pow_of_and {n : ℕ} (hn : 0 < n) (h : n &&& (n - 1) = 0) : ∃ k : ℕ, n = 2 ^ k :=
  (Nat.and_sub_one_eq_zero_iff_isPowerOfTwo hn.ne').mp h

theorem FileStorage.Sized.offset_eq {sizes : List ℕ} (hs : fs.Sized sizes) {i : ℕ}
    (hi : i < fs.files.length) : fs.files[i].offset = ((fs.files.take i).map FileEntry.size).sum := by
  have hget := congrArg (fun l : List ℕ => l[i]?) hs.map_offset
  have hlen : i < sizes.length := by rw [← hs.map_size, List.length_map]; exact hi
  simp only [List.getElem?_map, List.getElem?_eq_getElem hi, List.getElem?_range hlen,
    Option.map_some, Option.some.injEq] at hget
  rw [hget, ← hs.map_size, List.map_take]

theorem FileStorage.pieceSize_bounds (hlow : (fs.numPieces - 1) * fs.pieceLength < fs.totalSize)
    (hhigh : fs.totalSize ≤ fs.numPieces * fs.pieceLength) (hpl : 0 < fs.pieceLength) (p : ℤ) :
    1 ≤ fs.pieceSize p ∧ fs.pieceSize p ≤ fs.pieceLength := by
  rw [FileStorage.pieceSize]
  split_ifs
  · have hmul : (fs.numPieces - 1) * fs.pieceLength = fs.numPieces * fs.pieceLength - fs.pieceLength := by
      ring
    omega
  · omega

theorem hashForPiece_eq {pieces : List UInt8} {k p : ℕ} (htpieces : t.pieceHashes = k)
    (hsection : t.infoSection = info.encode) (hfind : dictFindString info (key "pieces") = some (k, pieces))
    (hp : p * 20 + 20 ≤ pieces.length) :
    0 ≤ t.pieceHashes ∧ t.pieceHashes + p * 20 + 20 ≤ t.infoSection.length ∧
      t.hashForPiece p = (pieces.drop (20 * p)).take 20 := by
  obtain ⟨pre, post, hinfo, rfl⟩ := dictFindString_eq hfind
  rw [TorrentInfo.hashForPiece, htpieces, hsection, hinfo]
  refine ⟨Int.natCast_nonneg _, ?_, ?_⟩
  · simp only [List.length_append]
    omega
  · rw [Int.toNat_natCast, List.drop_length_add_append, List.drop_append_of_le_length (by omega),
      List.take_append_of_le_length (by rw [List.length_drop]; omega), Nat.mul_comm]

theorem lengths_eq {dicts : List Value} (h : ∀ d ∈ dicts, 0 ≤ dictFindIntValue d (key "length") (-1)) :
    (lengths dicts).map (fun n : ℕ => (n : ℤ)) =
      dicts.map fun d => dictFindIntValue d (key "length") (-1) := by
  rw [lengths, List.map_map]
  exact List.map_congr_left fun d hd => Int.toNat_of_nonneg (h d hd)

theorem extractFiles_nonneg {dicts : List Value} (h : extractFiles dicts fs rootDir = .ok fs') :
    ∀ d ∈ dicts, 0 ≤ dictFindIntValue d (key "length") (-1) := by
  induction dicts generalizing fs with
  | nil => simp
  | cons dict dicts ih =>
    rw [extractFiles, List.foldlM_cons] at h
    cases hdict : extractSingleFile dict fs rootDir false with
    | error e => rw [hdict] at h; cases h
    | ok fs₁ =>
      rw [hdict] at h
      exact List.forall_mem_cons.mpr ⟨(extractSingleFile_ok hdict).1, ih h⟩

theorem parseFiles_nonneg {multifile : Bool}
    (h : parseFiles sha1 info name { pieceLength } = .ok (fs, multifile)) (hfiles : fs.files ≠ []) :
    ∀ d ∈ fileDicts info, 0 ≤ dictFindIntValue d (key "length") (-1) := by
  rw [parseFiles] at h
  rw [fileDicts]
  split at h
  · next list hlist =>
    cases hex : extractFiles list { pieceLength } (torrentName sha1 info name) with
    | error e => rw [hex] at h; cases h
    | ok fs₁ =>
      rw [hlist]
      exact extractFiles_nonneg hex
  · next hlist =>
    rw [hlist]
    split at h
    · cases hex : extractSingleFile info { pieceLength } [] true with
      | error e => rw [hex] at h; cases h
      | ok fs₁ => exact List.forall_mem_singleton.mpr (extractSingleFile_ok hex).1
    · obtain ⟨rfl, -⟩ := Prod.mk.inj (Except.ok.inj h)
      exact absurd rfl hfiles

theorem geometry_of_ok (h : parseInfoSection sha1 t info maxPieces = (.ok (), t')) :
    Geometry info t' := by
  obtain ⟨hlen, pieceLength, -, hmin, hmax, hpow, fs, multifile, off, hcontents, rfl⟩ :=
    parseInfoSection_ok h
  obtain ⟨nameOff, name, fs₁, pieces, k, rfl, -, hfiles, hne, rfl, -, -, hfind, hpieces, htotal⟩ :=
    parseContents_ok hcontents
  obtain ⟨hs, rfl⟩ := parseFiles_sized hfiles hne
  dsimp only at htotal hpieces
  have hmin : 16 * 1024 ≤ fs₁.pieceLength := hmin
  have hpl : 0 < fs₁.pieceLength := by omega
  obtain ⟨hpos, hlow, hhigh⟩ := numPieces_bounds hpl (by omega : 0 < (fs₁.totalSize : ℤ)) rfl
  refine ⟨?_, ⟨hmin, hmax⟩, hpos, hlow, hhigh, ?_, ?_, ?_, ?_, ?_, ⟨k, pieces, hfind, ?_⟩⟩
  · obtain ⟨e, he⟩ := pow_of_and (by omega) hpow
    refine ⟨e, ?_⟩
    rw [← Int.toNat_of_nonneg hpl.le, he, Nat.cast_pow, Nat.cast_ofNat]
  · rw [← lengths_eq (parseFiles_nonneg hfiles hne), ← hs.map_size, List.map_map]
    rfl
  · rw [hs.totalSize_eq, hs.map_size]
  · exact lt_of_le_of_lt hs.le_max (by decide)
  · exact fun i hi => hs.offset_eq hi
  · exact fun p _ _ => @FileStorage.pieceSize_bounds ⟨_, _, _, _, _, _, _⟩ hlow hhigh hpl p
  · intro p hp
    refine hashForPiece_eq rfl rfl hfind ?_
    dsimp only at hp
    omega

end accepted

/-- An accepted torrent has a consistent geometry. A torrent that is not accepted leaves the files that were
there as they are, but for the piece length, if and only if its info section is not copied, or the files do not
point into the one that it replaces. -/
theorem parseInfoSection_geometry (sha1 : List UInt8 → List UInt8) (t : TorrentInfo) (info : Value)
    (maxPieces : ℤ) :
    match parseInfoSection sha1 t info maxPieces with
    | (.ok _, t') => Geometry info t'
    | (.error _, t') => Unchanged t t' ↔ ¬Copied info ∨ t.filesInSection = false ∨ ¬t.files.Borrows := by
  split
  · next t' h => exact geometry_of_ok h
  · next e t' h => exact unchanged_iff h

/-- A torrent of one file. -/
def soleInfo : Value :=
  .dict [
    .str (key "6") (key "length"), .int false (key "1"),
    .str (key "4") (key "name"), .str (key "1") (key "a"),
    .str (key "12") (key "piece length"), .int false (key "16384"),
    .str (key "6") (key "pieces"), .str (key "20") (List.replicate 20 (ascii '0'))]

/-- The hash of an empty dictionary, and that of the torrent. -/
def soleHash (bytes : List UInt8) : List UInt8 :=
  if bytes = key "de" then [96, 12, 205, 27, 113, 86, 146, 50, 208, 29, 17, 11, 198, 62, 144, 107, 234, 176, 77, 140]
  else [126, 82, 190, 138, 126, 246, 175, 229, 93, 123, 112, 246, 130, 230, 96, 160, 13, 51, 132, 36]

/-- An empty dictionary frees the name of the file. -/
theorem not_unchanged : (parseInfoSection soleHash {} soleInfo 100).1 = .ok () ∧
    ¬match parseInfoSection soleHash (parseInfoSection soleHash {} soleInfo 100).2 (.dict []) 100 with
      | (.ok _, t') => Geometry (.dict []) t'
      | (.error _, t') => Unchanged (parseInfoSection soleHash {} soleInfo 100).2 t' := by
  refine ⟨rfl, fun hunchanged => ?_⟩
  have hreads := (show Unchanged _ _ from hunchanged).reads
  have hborrows : (parseInfoSection soleHash {} soleInfo 100).2.files.Borrows := by decide +kernel
  cases (hreads ⟨hborrows, rfl⟩).2

end Info

end Torrent

end LibtorrentSN
