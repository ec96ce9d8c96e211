import LibtorrentSN.Torrent.ResumeLists

/-!
# Resume data: the round trip

Whatever parameters resume data is written of, they are read back from it, as long as the encoding
keeps to the limits of the decoder. A number of 64 bits has to be more than the lowest one, which the
decoder takes for an overflow.
-/

namespace LibtorrentSN

namespace Torrent

namespace ResumeData

open Bencode (ascii Value Entry assign bencode bencodeRecursive bdecode maxOffset)
open Info (key dictFind dictFindString dictFindList dictFindIntValue intValue)

/-! ## Fields -/

section Fields
variable {info : Value} {p : AddTorrentParams} {s : String}

theorem field_mem {p : AddTorrentParams} {f : String × Option Entry} (k : ℕ)
    (h : (resumeFields p)[k]? = some f) : f ∈ resumeFields p := List.mem_of_getElem? h

theorem dictFindIntValue_field {x : ℤ} (h : (s, some (.int x)) ∈ resumeFields p) (h₁ : -2 ^ 63 < x)
    (h₂ : x < 2 ^ 63) (d : ℤ) : dictFindIntValue (resumeValue info p) (key s) d = x := by
  obtain ⟨off, hfind⟩ := dictFind_some h
  rw [dictFindIntValue, hfind]
  exact intValue_digitsOf h₁ h₂

theorem int64Value_field {x : Int64} (h : (s, some (.int x.toInt)) ∈ resumeFields p)
    (hx : x ≠ Int64.minValue) : int64Value (resumeValue info p) s = x := by
  have hmin : x.toInt ≠ -2 ^ 63 := fun heq => hx (Int64.toInt_inj.mp heq)
  have hle := x.le_toInt
  have hlt := x.toInt_lt
  rw [int64Value, dictFindIntValue_field h (by omega) (by omega), Int64.ofInt_toInt]

/-- The lowest number is read as zero. -/
theorem int64Value_min (h : (s, some (.int Int64.minValue.toInt)) ∈ resumeFields p) :
    int64Value (resumeValue info p) s = 0 := by
  have hmin : intValue true (Bencode.digitsOf (-2 ^ 63)) = 0 := by
    rw [intValue, integerToStr_min.2.2.2]
    rfl
  obtain ⟨off, hfind⟩ := @dictFind_some info _ _ _ h
  rw [int64Value, dictFindIntValue, hfind]
  exact congrArg Int64.ofInt hmin

theorem int32Value_field {x : Int32} (h : (s, some (.int x.toInt)) ∈ resumeFields p) (d : ℤ) :
    int32Value (resumeValue info p) s d = x := by
  have hle := x.le_toInt
  have hlt := x.toInt_lt
  rw [int32Value, dictFindIntValue_field h (by omega) (by omega), Int32.ofInt_toInt]

theorem stringValue_field {b : List UInt8} (h : (s, some (.string b)) ∈ resumeFields p) :
    dictFindStringValue (resumeValue info p) (key s) = b := by
  obtain ⟨off, hfind⟩ := dictFind_some h
  rw [dictFindStringValue, dictFindString, hfind]
  rfl

theorem stringValue_optional {b : List UInt8}
    (h : (s, if b = [] then none else some (.string b)) ∈ resumeFields p) :
    dictFindStringValue (resumeValue info p) (key s) = b := by
  split at h
  · next hb =>
    rw [dictFindStringValue, dictFindString, dictFind_none h, hb]
    rfl
  · exact stringValue_field h

theorem dictFindList_field {es : List Entry} (h : (s, some (.list es)) ∈ resumeFields p) :
    dictFindList (resumeValue info p) (key s) = some (es.map itemValue) := by
  obtain ⟨off, hfind⟩ := dictFind_some h
  rw [dictFindList, hfind]
  rfl

theorem dictFindList_optional {c : Prop} [Decidable c] {es : List Entry}
    (h : (s, if c then none else some (.list es)) ∈ resumeFields p) (hc : c → es = []) :
    (dictFindList (resumeValue info p) (key s)).getD [] = es.map itemValue := by
  split at h
  · next hc' =>
    rw [dictFindList, dictFind_none h, hc hc']
    rfl
  · rw [dictFindList_field h]
    rfl

end Fields

/-! ## Flags -/

section Flags
variable {info : Value} {p : AddTorrentParams}

theorem has_set {flag : ℕ} (h : flag < 64) (flags : TorrentFlags) (b : ℕ) :
    (flags.set flag).has b = (flags.has b || decide (b = flag)) := by
  rw [TorrentFlags.has, TorrentFlags.set, BitVec.getLsbD_or, BitVec.getLsbD_twoPow, TorrentFlags.has]
  congr 1
  by_cases hb : b = flag
  · simp [hb, h]
  · simp [hb, Ne.symm hb]

theorem has_clear {flag : ℕ} (h : flag < 64) (flags : TorrentFlags) (b : ℕ) :
    (flags.clear flag).has b = (flags.has b && !decide (b = flag)) := by
  rw [TorrentFlags.has, TorrentFlags.clear, BitVec.getLsbD_and, BitVec.getLsbD_not,
    BitVec.getLsbD_twoPow, TorrentFlags.has]
  by_cases hb : b = flag
  · simp [hb, h]
  · by_cases h64 : b < 64
    · simp [hb, Ne.symm hb, h64]
    · simp [hb, Ne.symm hb, h64, BitVec.getLsbD_of_ge flags b (not_lt.mp h64)]

/-- A flag that is written is read back. -/
theorem has_applyFlag {flag : String × ℕ} (h : (flag.1, some (flagEntry p flag.2)) ∈ resumeFields p)
    (hlt : flag.2 < 64) (flags : TorrentFlags) (b : ℕ) :
    (applyFlag (resumeValue info p) flags flag).has b =
      if b = flag.2 then p.flags.has flag.2 else flags.has b := by
  have hval := @dictFindIntValue_field info _ _ _ h (by split <;> decide) (by split <;> decide)
  rw [applyFlag, hval]
  cases p.flags.has flag.2 with
  | true =>
    rw [if_pos rfl, if_neg one_ne_zero, has_set hlt]
    split
    · next hb => rw [decide_eq_true hb, Bool.or_true]
    · next hb => rw [decide_eq_false hb, Bool.or_false]
  | false =>
    rw [if_pos (show (if false = true then (1 : ℤ) else 0) = 0 from rfl), has_clear hlt]
    split
    · next hb => rw [decide_eq_true hb, Bool.not_true, Bool.and_false]
    · next hb => rw [decide_eq_false hb, Bool.not_false, Bool.and_true]

theorem has_foldl_applyFlag {l : List (String × ℕ)}
    (h : ∀ flag ∈ l, (flag.1, some (flagEntry p flag.2)) ∈ resumeFields p ∧ flag.2 < 64)
    (flags : TorrentFlags) (b : ℕ) : (l.foldl (applyFlag (resumeValue info p)) flags).has b =
      if b ∈ l.map Prod.snd then p.flags.has b else flags.has b := by
  induction l generalizing flags with
  | nil => rfl
  | cons flag l ih =>
    obtain ⟨⟨hmem, hlt⟩, hl⟩ := List.forall_mem_cons.mp h
    rw [List.foldl_cons, ih hl, has_applyFlag hmem hlt]
    by_cases hb : b ∈ l.map Prod.snd
    · rw [if_pos hb, if_pos (List.mem_map.mpr ?_)]
      obtain ⟨f, hf, heq⟩ := List.mem_map.mp hb
      exact ⟨f, List.mem_cons_of_mem _ hf, heq⟩
    · rw [if_neg hb]
      by_cases heq : b = flag.2
      · rw [if_pos heq, if_pos (by rw [heq]; exact List.mem_cons_self), heq]
      · rw [if_neg heq, if_neg]
        rw [List.map_cons, List.mem_cons]
        exact not_or.mpr ⟨heq, hb⟩

theorem resumeFlags_fields (p : AddTorrentParams) : ∀ flag ∈ resumeFlags,
    (flag.1, some (flagEntry p flag.2)) ∈ resumeFields p ∧ flag.2 < 64 := by
  simp only [resumeFlags, List.forall_mem_cons]
  refine ⟨⟨field_mem 15 rfl, by decide⟩, ⟨field_mem 16 rfl, by decide⟩, ⟨field_mem 17 rfl, by decide⟩,
    ⟨field_mem 18 rfl, by decide⟩, ⟨field_mem 19 rfl, by decide⟩, ⟨field_mem 20 rfl, by decide⟩,
    ⟨field_mem 21 rfl, by decide⟩, ⟨field_mem 22 rfl, by decide⟩, ⟨field_mem 23 rfl, by decide⟩, ?_⟩
  exact fun _ h => by cases h

/-- The flags are read back. Seed mode goes when a file is not to be downloaded. -/
theorem has_readFlags (prios : List UInt8) {flag : String × ℕ} (h : flag ∈ resumeFlags) :
    (readFlags (resumeValue info p) prios).has flag.2 =
      (p.flags.has flag.2 && !decide (flag.2 = seedMode ∧ 0 ∈ prios)) := by
  have hother : flag.2 ≠ overrideTrackers ∧ flag.2 ≠ needSaveResume :=
    (by decide : ∀ flag ∈ resumeFlags, flag.2 ≠ overrideTrackers ∧ flag.2 ≠ needSaveResume) flag h
  have hread := @has_foldl_applyFlag info _ _ (resumeFlags_fields p) .default flag.2
  rw [if_pos (List.mem_map_of_mem h)] at hread
  rw [readFlags, has_clear (by decide), decide_eq_false hother.2, Bool.not_false, Bool.and_true]
  have hset : ∀ flags : TorrentFlags, (if (dictFindList (resumeValue info p) (key "trackers")).isSome then
      flags.set overrideTrackers else flags).has flag.2 = flags.has flag.2 := by
    intro flags
    split
    · rw [has_set (by decide), decide_eq_false hother.1, Bool.or_false]
    · rfl
  rw [hset]
  by_cases hprio : 0 ∈ prios
  · rw [if_pos hprio, has_clear (by decide), hread]
    simp only [hprio, and_true]
  · rw [if_neg hprio, hread]
    simp only [hprio, and_false, decide_false, Bool.not_false, Bool.and_true]

end Flags

/-! ## What can be written -/

section Write
variable {info : Value} {p : AddTorrentParams}

/-- The parameters a torrent is added with: priorities are in range, every tracker has a tier, and a
renamed file has a name. -/
structure AddTorrentParams.WellFormed (p : AddTorrentParams) : Prop where
  tiers : p.trackerTiers.length = p.trackers.length
  tier : ∀ t ∈ p.trackerTiers, 0 ≤ t ∧ t ≤ 1023
  filePriorities : ∀ prio ∈ p.filePriorities, prio ≤ 7
  piecePriorities : ∀ prio ∈ p.piecePriorities, prio ≤ 7
  renamedFiles : ∀ (i : ℕ) name, p.renamedFiles[i]? = some name → name ≠ []
  -- `piece_index_t` is an `int`
  unfinishedPieces : ∀ i : ℕ, i ∈ p.unfinishedPieces → i < 2 ^ 31

theorem int64_fits (x : Int64) : FieldFits info (.int x.toInt) := ⟨x.le_toInt, x.toInt_lt⟩

theorem int32_fits (x : Int32) : FieldFits info (.int x.toInt) := by
  have hle := x.le_toInt
  have hlt := x.toInt_lt
  exact ⟨by omega, by omega⟩

theorem flag_fits (p : AddTorrentParams) (flag : ℕ) : FieldFits info (flagEntry p flag) := by
  rw [flagEntry]
  split <;> exact ⟨by decide, by decide⟩

/-- Nothing is left out, or the field can be written. -/
def OptionFits (info : Value) (o : Option Entry) : Prop := ∀ e ∈ o, FieldFits info e

theorem OptionFits.some {e : Entry} (h : FieldFits info e) : OptionFits info (some e) := by
  rintro _ ⟨⟩
  exact h

theorem OptionFits.ite {c : Prop} [Decidable c] {e : Entry} (h : FieldFits info e) :
    OptionFits info (if c then none else Option.some e) := by
  split
  · rintro _ ⟨⟩
  · exact .some h

theorem OptionFits.bind {α : Type*} {o : Option α} {f : α → Option Entry}
    (h : ∀ a ∈ o, OptionFits info (f a)) : OptionFits info (o.bind f) := by
  intro e he
  obtain ⟨a, ha, he⟩ := Option.bind_eq_some_iff.mp he
  exact h a ha e he

/-- Every field can be written. -/
theorem resumeFields_fit (hp : p.WellFormed)
    (hti : ∀ ti ∈ p.ti, ti.infoSection = info.encode ∧ info.Valid) :
    ∀ f ∈ resumeFields p, OptionFits info f.2 := by
  have hunfinished : FieldFits info (.list (p.unfinishedPieces.toList.map unfinishedPiece)) := by
    intro e he
    obtain ⟨piece, hmem, rfl⟩ := List.mem_map.mp he
    refine .inr (unfinishedPiece_plain (hp.unfinishedPieces _ ?_))
    rw [Std.TreeMap.mem_iff_isSome_getElem?, Std.TreeMap.mem_toList_iff_getElem?_eq_some.mp hmem]
    rfl
  have htrackers : FieldFits info (buildTrackerList p.trackers p.trackerTiers) := by
    obtain ⟨m, -, hm⟩ := buildTrackerList_eq hp.tiers hp.tier
    rw [hm]
    intro e he
    obtain ⟨t, -, rfl⟩ := List.mem_map.mp he
    exact slot_fits _ t
  have hpriorities : FieldFits info (.list (p.filePriorities.map fun prio => .int prio.toNat)) := by
    intro e he
    obtain ⟨prio, -, rfl⟩ := List.mem_map.mp he
    have := prio.toNat_lt
    exact .inr ⟨by omega, by omega⟩
  have hstring : ∀ b, OptionFits info (some (.string b)) := fun _ => .some trivial
  have hoptional : ∀ (c : Prop) [Decidable c] b, OptionFits info (if c then none else some (.string b)) :=
    fun _ _ _ => .ite trivial
  have h32 : ∀ x : Int32, OptionFits info (some (.int x.toInt)) := fun x => .some (int32_fits x)
  have h64 : ∀ x : Int64, OptionFits info (some (.int x.toInt)) := fun x => .some (int64_fits x)
  have hflag : ∀ flag, OptionFits info (some (flagEntry p flag)) := fun flag => .some (flag_fits p flag)
  simp only [resumeFields, List.forall_mem_cons]
  refine ⟨hstring _, .some ⟨by decide, by decide⟩, hstring _, hstring _, h64 _, h64 _, h32 _, h32 _, h32 _,
    h64 _, h64 _, h64 _, h32 _, h32 _, h32 _, hflag _, hflag _, hflag _, hflag _, hflag _, hflag _, hflag _,
    hflag _, hflag _, h64 _, h64 _, hstring _, hoptional _ _, hoptional _ _, hstring _, ?_, ?_, ?_, ?_,
    .ite hunfinished, .some htrackers, hstring _, .ite (foldl_mapFile_fits (by simp) _), hoptional _ _,
    hoptional _ _, hoptional _ _, hoptional _ _, h32 _, h32 _, h32 _, h32 _, .ite hpriorities,
    hoptional _ _, fun _ h => by cases h⟩
  · intro e he
    obtain ⟨ti, hmem, rfl⟩ := Option.map_eq_some_iff.mp he
    exact hti ti hmem
  · exact .bind fun ti _ => hoptional _ _
  · exact .bind fun ti _ => .ite (int64_fits _)
  · exact .bind fun ti _ => hoptional _ _

theorem mem_assign {k : List UInt8} {e : Entry} {d : List (List UInt8 × Entry)}
    {f : List UInt8 × Entry} (h : f ∈ assign k e d) : f = (k, e) ∨ f ∈ d := by
  induction d with
  | nil => exact .inl (List.mem_singleton.mp h)
  | cons f' d ih =>
    rw [assign] at h
    split at h
    · exact List.mem_cons.mp h
    · split at h
      · exact (List.mem_cons.mp h).imp_right (List.mem_cons_of_mem _)
      · rcases List.mem_cons.mp h with rfl | h
        · exact .inr List.mem_cons_self
        · exact (ih h).imp_right (List.mem_cons_of_mem _)

theorem foldl_setField_fit {fields : List (String × Option Entry)} {d : List (List UInt8 × Entry)}
    (h : ∀ f ∈ fields, OptionFits info f.2) (hd : ∀ f ∈ d, FieldFits info f.2) :
    ∀ f ∈ fields.foldl setField d, FieldFits info f.2 := by
  induction fields generalizing d with
  | nil => exact hd
  | cons field fields ih =>
    obtain ⟨h₁, h₂⟩ := List.forall_mem_cons.mp h
    refine ih h₂ fun f hf => ?_
    rw [setField] at hf
    split at hf
    · next e he =>
      rcases mem_assign hf with rfl | hf
      · exact h₁ e he
      · exact hd f hf
    · exact hd f hf

/-- What is written is the value. -/
theorem bencode_writeResumeData (hp : p.WellFormed)
    (hti : ∀ ti ∈ p.ti, ti.infoSection = info.encode ∧ info.Valid) :
    (bencode (writeResumeData p)).1 = (resumeValue info p).encode := by
  have hfit := foldl_setField_fit (d := []) (resumeFields_fit hp hti) (by simp)
  simp only [bencode, writeResumeData, bencodeRecursive, bencodeDict_fields hfit, resumeValue,
    Value.encode, Bencode.writeChar, List.cons_append, List.nil_append]

theorem resumeValue_valid (hp : p.WellFormed)
    (hti : ∀ ti ∈ p.ti, ti.infoSection = info.encode ∧ info.Valid)
    (hlen : (resumeValue info p).encode.length ≤ maxOffset) : (resumeValue info p).Valid := by
  have hfit := foldl_setField_fit (d := []) (resumeFields_fit hp hti) (by simp)
  rw [resumeValue, Value.encode, List.length_cons, List.length_append] at hlen
  exact ⟨fieldMembers_members _, fieldMembers_valid hfit (by omega)⟩

end Write

/-! ## What is read back -/

/-- The parameters `q` are those of `p`, so far as resume data holds them. -/
structure Restores (p q : AddTorrentParams) : Prop where
  name : q.name = p.name
  savePath : q.savePath = p.savePath
  storageMode : q.storageMode = p.storageMode
  totalUploaded : p.totalUploaded ≠ Int64.minValue → q.totalUploaded = p.totalUploaded
  totalDownloaded : p.totalDownloaded ≠ Int64.minValue → q.totalDownloaded = p.totalDownloaded
  activeTime : q.activeTime = p.activeTime
  finishedTime : q.finishedTime = p.finishedTime
  seedingTime : q.seedingTime = p.seedingTime
  addedTime : p.addedTime ≠ Int64.minValue → q.addedTime = p.addedTime
  completedTime : p.completedTime ≠ Int64.minValue → q.completedTime = p.completedTime
  lastSeenComplete : p.lastSeenComplete ≠ Int64.minValue → q.lastSeenComplete = p.lastSeenComplete
  lastDownload : p.lastDownload ≠ Int64.minValue → q.lastDownload = p.lastDownload
  lastUpload : p.lastUpload ≠ Int64.minValue → q.lastUpload = p.lastUpload
  maxUploads : q.maxUploads = p.maxUploads
  maxConnections : q.maxConnections = p.maxConnections
  uploadLimit : q.uploadLimit = p.uploadLimit
  downloadLimit : q.downloadLimit = p.downloadLimit
  numComplete : q.numComplete = p.numComplete
  numIncomplete : q.numIncomplete = p.numIncomplete
  numDownloaded : q.numDownloaded = p.numDownloaded
  filePriorities : q.filePriorities = p.filePriorities
  piecePriorities : q.piecePriorities = p.piecePriorities
  renamedFiles : ∀ i : ℕ, q.renamedFiles[i]? = p.renamedFiles[i]?
  havePieces : setBits q.havePieces = setBits p.havePieces
  verifiedPieces : setBits q.verifiedPieces = setBits p.verifiedPieces
  unfinishedPieces : ∀ i : ℕ,
    setBits (q.unfinishedPieces[i]?.getD []) = setBits (p.unfinishedPieces[i]?.getD [])
  flags : ∀ flag ∈ resumeFlags,
    q.flags.has flag.2 = (p.flags.has flag.2 && !decide (flag.2 = seedMode ∧ 0 ∈ p.filePriorities))
  trackers : ∃ f : ℤ → ℤ, StrictMonoOn f {t | t ∈ p.trackerTiers} ∧
    q.trackers = ((p.trackers.zip p.trackerTiers).insertionSort tierLe).map (·.1) ∧
    q.trackerTiers = ((p.trackers.zip p.trackerTiers).insertionSort tierLe).map fun x => f x.2

/-- The info section of `ti` is the dictionary `info`, which is read without an error. -/
structure InfoLoads (sha1 : List UInt8 → List UInt8) (pieceLimit : ℤ) (infoHash : List UInt8)
    (ti : TorrentInfo) (info : Value) : Prop where
  bytes : ti.infoSection = info.encode
  valid : info.Valid
  dict : ∃ items, info = .dict items
  hash : sha1 info.encode = infoHash
  parses : parseError (Info.parseInfoSection sha1 { infoHash := sha1 info.encode } info pieceLimit).1 =
    .noError

section Read
variable {sha1 : List UInt8 → List UInt8} {pieceLimit : ℤ} {info : Value} {p : AddTorrentParams}

theorem clampPriority_map {prios : List UInt8} (h : ∀ prio ∈ prios, prio ≤ 7) :
    prios.map clampPriority = prios := by
  refine (List.map_congr_left fun prio hprio => ?_).trans (List.map_id prios)
  rw [clampPriority, if_neg (UInt8.not_lt.mpr (h prio hprio)), id]

theorem readFilePriorities_write {prios : List UInt8} (h : ∀ prio ∈ prios, prio ≤ 7) :
    readFilePriorities ((prios.map fun prio => Entry.int prio.toNat).map itemValue) = prios := by
  refine Eq.trans ?_ (clampPriority_map h)
  rw [readFilePriorities, List.map_map, List.map_map]
  refine List.map_congr_left fun prio _ => congrArg clampPriority ?_
  have hlt := prio.toNat_lt
  have hint := @intValue_digitsOf (prio.toNat : ℤ) (by omega) (by omega)
  change UInt8.ofInt (intValue (decide ((prio.toNat : ℤ) < 0)) (Bencode.digitsOf prio.toNat)) = prio
  have hmod : ((prio.toNat : ℤ) % 2 ^ 8).toNat = prio.toNat := by omega
  rw [hint, UInt8.ofInt, hmod]
  exact UInt8.ofNat_toNat

/-- No error comes from the info section. -/
theorem readTi_write (hti : ∀ ti ∈ p.ti, InfoLoads sha1 pieceLimit p.infoHash.1 ti info) :
    (readTi sha1 p.infoHash.1 (resumeValue info p) pieceLimit).1 = .noError := by
  have hmem := field_mem (p := p) 30 rfl
  rw [readTi, dictFindDict]
  cases hp : p.ti with
  | none =>
    rw [hp] at hmem
    rw [dictFind_none hmem]
  | some ti =>
    obtain ⟨-, -, ⟨items, rfl⟩, hhash, hparses⟩ := hti ti hp
    rw [hp] at hmem
    obtain ⟨off, hfind⟩ := dictFind_some hmem
    rw [hfind]
    dsimp only [fieldValue]
    rw [if_pos (.inr hhash)]
    split
    · rfl
    · next e t he =>
      rw [he] at hparses
      exact hparses

theorem readAllocation_write (info : Value) (p : AddTorrentParams) :
    readAllocation (resumeValue info p) = p.storageMode := by
  have hmem := field_mem (p := p) 3 rfl
  obtain ⟨off, hfind⟩ := dictFind_some hmem
  rw [readAllocation, dictFindString, hfind]
  cases p.storageMode with
  | allocate => exact if_pos (.inl rfl)
  | sparse => exact if_neg (by decide +kernel)

/-- The fields are those that were written. -/
theorem readFields_write (hp : p.WellFormed) :
    Restores p (readFields sha1 (resumeValue info p) 1 p.infoHash pieceLimit).2 := by
  have hprios : readFilePriorities
      ((dictFindList (resumeValue info p) (key "file_priority")).getD []) = p.filePriorities := by
    rw [dictFindList_optional (field_mem 46 rfl) (fun h => by rw [h]; rfl),
      readFilePriorities_write hp.filePriorities]
  have hpieces : dictFindStringValue (resumeValue info p) (key "pieces") =
      writePieces p.havePieces p.verifiedPieces := stringValue_field (field_mem 36 rfl)
  obtain ⟨m, hm, hlist⟩ := buildTrackerList_eq hp.tiers hp.tier
  have htrackers : readTrackers ((dictFindList (resumeValue info p) (key "trackers")).getD []) 0 =
      ((p.trackers.zip p.trackerTiers).insertionSort tierLe).map fun x =>
        (x.1, rank (p.trackers.zip p.trackerTiers) x.2.toNat) := by
    rw [dictFindList_field (hlist ▸ field_mem 35 rfl), Option.getD_some,
      readTrackers_write hp.tier hm]
  rw [readFields]
  constructor
  case name => exact stringValue_optional (field_mem 27 rfl)
  case savePath => exact stringValue_field (field_mem 26 rfl)
  case storageMode => exact readAllocation_write info p
  case totalUploaded => exact int64Value_field (field_mem 4 rfl)
  case totalDownloaded => exact int64Value_field (field_mem 5 rfl)
  case activeTime => exact int32Value_field (field_mem 6 rfl) 0
  case finishedTime => exact int32Value_field (field_mem 7 rfl) 0
  case seedingTime => exact int32Value_field (field_mem 8 rfl) 0
  case addedTime => exact int64Value_field (field_mem 24 rfl)
  case completedTime => exact int64Value_field (field_mem 25 rfl)
  case lastSeenComplete => exact int64Value_field (field_mem 9 rfl)
  case lastDownload => exact int64Value_field (field_mem 10 rfl)
  case lastUpload => exact int64Value_field (field_mem 11 rfl)
  case maxUploads => exact int32Value_field (field_mem 45 rfl) _
  case maxConnections => exact int32Value_field (field_mem 44 rfl) _
  case uploadLimit => exact int32Value_field (field_mem 42 rfl) _
  case downloadLimit => exact int32Value_field (field_mem 43 rfl) _
  case numComplete => exact int32Value_field (field_mem 12 rfl) _
  case numIncomplete => exact int32Value_field (field_mem 13 rfl) _
  case numDownloaded => exact int32Value_field (field_mem 14 rfl) _
  case filePriorities => exact hprios
  case piecePriorities =>
    dsimp only
    rw [stringValue_optional (field_mem 47 rfl), clampPriority_map hp.piecePriorities]
  case renamedFiles =>
    intro i
    dsimp only
    rw [dictFindList_optional (field_mem 37 rfl) (fun h => by rw [h]; rfl),
      readMappedFiles_write p.renamedFiles hp.renamedFiles]
  case havePieces =>
    dsimp only
    rw [hpieces, (readPieces_write _ _).1]
  case verifiedPieces =>
    dsimp only
    rw [hpieces, (readPieces_write _ _).2]
  case unfinishedPieces =>
    intro i
    dsimp only
    rw [dictFindList_optional (field_mem 34 rfl) (fun h => by rw [h]; rfl), List.map_map]
    exact readUnfinished_all p.unfinishedPieces hp.unfinishedPieces i
  case flags =>
    intro flag hflag
    dsimp only
    rw [hprios, has_readFlags p.filePriorities hflag]
  case trackers =>
    refine ⟨_, rank_strictMonoOn hp.tiers hp.tier, ?_, ?_⟩
    · dsimp only
      rw [htrackers, List.map_map]
      rfl
    · dsimp only
      rw [htrackers, List.map_map]
      rfl

/-- The header is accepted. -/
theorem readResumeData_eq_readFields (sha1 : List UInt8 → List UInt8) (info : Value) (p : AddTorrentParams)
    (pieceLimit : ℤ) : readResumeData sha1 (resumeValue info p) pieceLimit =
      readFields sha1 (resumeValue info p) 1 p.infoHash pieceLimit := by
  have hformat : dictFindStringValue (resumeValue info p) (key "file-format") =
      key "libtorrent resume file" := stringValue_field (field_mem 0 rfl)
  have hversion : dictFindIntValue (resumeValue info p) (key "file-version") 1 = 1 :=
    dictFindIntValue_field (field_mem 1 rfl) (by decide) (by decide) 1
  have hhash : dictFindStringValue (resumeValue info p) (key "info-hash") = p.infoHash.1 :=
    stringValue_field (field_mem 29 rfl)
  rw [resumeValue, readResumeData, ← resumeValue, hformat, hversion, if_neg (not_not.mpr rfl),
    if_neg (fun h => h.1 rfl), dif_pos (hhash ▸ p.infoHash.2)]
  congr 1
  exact Subtype.ext hhash

theorem readResumeData_write (hp : p.WellFormed)
    (hti : ∀ ti ∈ p.ti, InfoLoads sha1 pieceLimit p.infoHash.1 ti info) :
    (readResumeData sha1 (resumeValue info p) pieceLimit).1 = .noError ∧
      Restores p (readResumeData sha1 (resumeValue info p) pieceLimit).2 := by
  rw [readResumeData_eq_readFields]
  exact ⟨readTi_write hti, readFields_write hp⟩

end Read

/-! ## The round trip -/

/-- The encoding keeps to the limits of `bdecode`. -/
structure WithinLimits (cfg : LoadTorrentLimits) (v : Value) : Prop where
  size : v.encode.length ≤ maxOffset
  depth : (v.depth : ℤ) < cfg.maxDecodeDepth
  tokens : (v.tokenCount : ℤ) ≤ cfg.maxDecodeTokens

instance (cfg : LoadTorrentLimits) (v : Value) : Decidable (WithinLimits cfg v) :=
  decidable_of_iff (v.encode.length ≤ maxOffset ∧ (v.depth : ℤ) < cfg.maxDecodeDepth ∧
    (v.tokenCount : ℤ) ≤ cfg.maxDecodeTokens) ⟨fun h => ⟨h.1, h.2.1, h.2.2⟩, fun h => ⟨h.size, h.depth, h.tokens⟩⟩

section RoundTrip
variable {sha1 : List UInt8 → List UInt8} {cfg : LoadTorrentLimits} {p : AddTorrentParams}
  {info : Value}

/-- Resume data that does not keep to the limits is not decoded. -/
theorem withinLimits_of_decoded (hp : p.WellFormed)
    (hti : ∀ ti ∈ p.ti, ti.infoSection = info.encode ∧ info.Valid)
    (h : (Bencode.bdecode (bencode (writeResumeData p)).1 cfg.maxDecodeDepth cfg.maxDecodeTokens).error = .noError) :
    WithinLimits cfg (resumeValue info p) := by
  rw [bencode_writeResumeData hp hti] at h
  have hlen : (resumeValue info p).encode.length ≤ maxOffset := by
    by_contra hlen
    rw [bdecode, if_pos (not_le.mp hlen)] at h
    cases h
  obtain ⟨h₁, h₂, h₃⟩ := (Bencode.bdecode_encode_iff (resumeValue_valid hp hti hlen)).mp h
  exact ⟨h₁, h₂, h₃⟩

theorem withinLimits_of_noError (hp : p.WellFormed)
    (hti : ∀ ti ∈ p.ti, ti.infoSection = info.encode ∧ info.Valid)
    (h : (readResumeBuffer sha1 (bencode (writeResumeData p)).1 cfg).1 = .noError) :
    WithinLimits cfg (resumeValue info p) := by
  rw [readResumeBuffer] at h
  split at h
  · next hdecode => exact withinLimits_of_decoded hp hti hdecode
  · cases h

/-- Resume data that keeps to the limits is decoded. -/
theorem readResumeBuffer_eq (hp : p.WellFormed) (hti : ∀ ti ∈ p.ti, ti.infoSection = info.encode ∧ info.Valid)
    (hfit : WithinLimits cfg (resumeValue info p)) :
    readResumeBuffer sha1 (bencode (writeResumeData p)).1 cfg =
      readResumeData sha1 (resumeValue info p) cfg.maxPieces := by
  have hvalid := resumeValue_valid hp hti hfit.size
  have hbegins : Bencode.Begins (resumeValue info p).encode cfg.maxDecodeDepth cfg.maxDecodeTokens
      (resumeValue info p) := ⟨⟨[], (List.append_nil _).symm⟩, hvalid, hfit.depth, hfit.tokens⟩
  rw [bencode_writeResumeData hp hti, readResumeBuffer, Bencode.bdecode_value hfit.size hbegins,
    Bencode.bdecode_of_begins hfit.size hbegins, if_pos rfl]

/-- The parameters that are written are read back. -/
theorem readResumeBuffer_bencode (sha1 : List UInt8 → List UInt8) (cfg : LoadTorrentLimits)
    (p : AddTorrentParams) (info : Value) (hp : p.WellFormed)
    (hti : ∀ ti ∈ p.ti, InfoLoads sha1 cfg.maxPieces p.infoHash.1 ti info)
    (hfit : WithinLimits cfg (resumeValue info p)) :
    (readResumeBuffer sha1 (bencode (writeResumeData p)).1 cfg).1 = .noError ∧
      Restores p (readResumeBuffer sha1 (bencode (writeResumeData p)).1 cfg).2 := by
  have hti' : ∀ ti ∈ p.ti, ti.infoSection = info.encode ∧ info.Valid := fun ti h =>
    ⟨(hti ti h).bytes, (hti ti h).valid⟩
  rw [readResumeBuffer_eq hp hti' hfit]
  exact readResumeData_write hp hti

theorem length_ones : (List.replicate 20 (1 : UInt8)).length = 20 := rfl

/-- Trackers on two tiers, an unfinished piece, a renamed file and a file that is not downloaded. -/
def sample : AddTorrentParams where
  infoHash := ⟨List.replicate 20 1, length_ones⟩
  trackers := [[97], [98], [99]]
  trackerTiers := [5, 0, 5]
  filePriorities := [4, 0]
  totalUploaded := -7
  havePieces := [true, false, true]
  verifiedPieces := [false, false, true]
  unfinishedPieces := Std.TreeMap.insert ∅ 1 [false, true]
  renamedFiles := Std.TreeMap.insert ∅ 1 [120]

theorem sample_wellFormed : sample.WellFormed where
  tiers := rfl
  tier := by decide
  filePriorities := by decide +kernel
  piecePriorities := by decide +kernel
  renamedFiles := by
    intro i name h
    rw [sample, Std.TreeMap.getElem?_insert] at h
    split at h
    · rintro rfl
      cases h
    · rw [Std.TreeMap.getElem?_emptyc] at h
      cases h
  unfinishedPieces := by
    intro i h
    rcases Std.TreeMap.mem_insert.mp h with h | h
    · rw [← Nat.compare_eq_eq.mp h]
      decide
    · exact absurd h Std.TreeMap.not_mem_emptyc

theorem readResumeBuffer_bencode_sample :
    (readResumeBuffer (fun _ => []) (bencode (writeResumeData sample)).1 {}).1 = .noError ∧
      Restores sample (readResumeBuffer (fun _ => []) (bencode (writeResumeData sample)).1 {}).2 :=
  readResumeBuffer_bencode (fun _ => []) {} sample (.list []) sample_wellFormed (fun _ h => by cases h)
    (by decide +kernel)

/-- A torrent that has uploaded the lowest number of bytes. -/
def overflown : AddTorrentParams where
  infoHash := ⟨List.replicate 20 1, length_ones⟩
  totalUploaded := Int64.minValue

/-- A torrent with as many files as there may be tokens. -/
def manyFiles : AddTorrentParams where
  infoHash := ⟨List.replicate 20 1, length_ones⟩
  filePriorities := List.replicate 3000000 4

/-- Without trackers and maps, only the priorities are to be checked. -/
theorem wellFormed_of_priorities (hash : Sha1Hash) (uploaded : Int64) {prios : List UInt8}
    (h : ∀ prio ∈ prios, prio ≤ 7) : AddTorrentParams.WellFormed
      { infoHash := hash, totalUploaded := uploaded, filePriorities := prios } where
  tiers := rfl
  tier := by simp
  filePriorities := h
  piecePriorities := by simp
  renamedFiles := fun i name hname => by
    rw [Std.TreeMap.getElem?_emptyc] at hname
    cases hname
  unfinishedPieces := fun i hi => absurd hi Std.TreeMap.not_mem_emptyc

/-- Every file priority is a token. -/
theorem length_filePriorities_lt (info : Value) (p : AddTorrentParams) :
    p.filePriorities.length < (resumeValue info p).tokenCount := by
  rcases eq_or_ne p.filePriorities [] with hnil | hne
  · rw [hnil]
    exact (resumeValue info p).tokenCount_pos
  · have hmem : ("file_priority", if p.filePriorities = [] then none
        else some (Entry.list (p.filePriorities.map fun prio => .int prio.toNat))) ∈ resumeFields p :=
      field_mem 46 rfl
    rw [if_neg hne] at hmem
    have hle := @tokenCount_field_le info _ _ _ hmem
    have hlen := Bencode.BdecodeNode.length_le_tokenCountAll
      ((p.filePriorities.map fun prio => Entry.int prio.toNat).map itemValue)
    rw [List.length_map, List.length_map] at hlen
    rw [fieldValue, Value.tokenCount] at hle
    omega

theorem readResumeBuffer_overflown (hwell : overflown.WellFormed) :
    (readResumeBuffer (fun _ => []) (bencode (writeResumeData overflown)).1 {}).2.totalUploaded ≠
      overflown.totalUploaded := by
  have hti : ∀ ti ∈ overflown.ti, ti.infoSection = (Value.list []).encode ∧ (Value.list []).Valid :=
    fun _ h => by cases h
  rw [readResumeBuffer]
  split
  · next hdecode =>
    have heq := @readResumeBuffer_eq (fun _ => []) {} _ _ hwell hti (withinLimits_of_decoded hwell hti hdecode)
    rw [readResumeBuffer, if_pos hdecode] at heq
    have hzero := @int64Value_min (.list []) overflown _ (field_mem 4 rfl)
    rw [heq, readResumeData_eq_readFields]
    change int64Value (resumeValue (.list []) overflown) "total_uploaded" ≠ Int64.minValue
    rw [hzero]
    decide
  · decide

theorem readResumeBuffer_not_restored :
    (overflown.WellFormed ∧ (readResumeBuffer (fun _ => []) (bencode (writeResumeData overflown)).1
      {}).2.totalUploaded ≠ overflown.totalUploaded) ∧
    manyFiles.WellFormed ∧
      (readResumeBuffer (fun _ => []) (bencode (writeResumeData manyFiles)).1 {}).1 ≠ .noError := by
  have hmany : manyFiles.WellFormed := wellFormed_of_priorities _ _ fun prio h => by
    rw [List.eq_of_mem_replicate h]
    decide
  have hover : overflown.WellFormed := wellFormed_of_priorities _ _ (by simp)
  refine ⟨⟨hover, readResumeBuffer_overflown hover⟩, hmany, fun h => ?_⟩
  have hfit : WithinLimits {} (resumeValue (.list []) manyFiles) :=
    withinLimits_of_noError hmany (fun _ h => by cases h) h
  have hlt := length_filePriorities_lt (.list []) manyFiles
  rw [manyFiles, List.length_replicate, ← manyFiles] at hlt
  exact absurd hfit.tokens (not_le.mpr (Int.ofNat_lt.mpr hlt))

end RoundTrip

end ResumeData

end Torrent

end LibtorrentSN
