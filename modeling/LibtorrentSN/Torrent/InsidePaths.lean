import LibtorrentSN.Torrent.InfoSection

/-!
# Paths stay inside the torrent

The path of a file is sanitised element by element, but its last component is borrowed from the raw
element when that happens to be the end of the sanitised path. The path that `file_path` puts together
again is the sanitised one, with the borrowed name in place of the last component.
-/

namespace LibtorrentSN

namespace Torrent

namespace Info

open Bencode (ascii Value)

variable {root leaf path filename : List UInt8} {init comps : List (List UInt8)}

/-! ## Components -/

/-- The path with these components. -/
def joined (comps : List (List UInt8)) : List UInt8 := [ascii '/'].intercalate comps

@[simp]
theorem joined_singleton (c : List UInt8) : joined [c] = c := by
  simp [joined, List.intercalate]

theorem joined_cons (c : List UInt8) (h : comps ≠ []) : joined (c :: comps) = c ++ ascii '/' :: joined comps := by
  obtain ⟨d, comps, rfl⟩ := List.exists_cons_of_ne_nil h
  simp [joined, List.intercalate]

theorem joined_concat (h : comps ≠ []) (c : List UInt8) :
    joined (comps ++ [c]) = joined comps ++ ascii '/' :: c := by
  induction comps with
  | nil => exact absurd rfl h
  | cons d comps ih =>
    by_cases hcomps : comps = []
    · rw [hcomps, List.singleton_append, joined_cons d (List.cons_ne_nil _ _), joined_singleton,
        joined_singleton]
    · rw [List.cons_append, joined_cons d (by simp), ih hcomps, joined_cons d hcomps, List.append_assoc,
        List.cons_append]

theorem inside_joined (h : comps ≠ []) (hcomps : ∀ c ∈ comps, Component c) : Inside (joined comps) := by
  induction comps with
  | nil => exact absurd rfl h
  | cons c comps ih =>
    obtain ⟨hc, hcomps⟩ := List.forall_mem_cons.mp hcomps
    by_cases hnil : comps = []
    · rw [hnil, joined_singleton]
      exact hc.inside
    · rw [joined_cons c hnil]
      exact hc.inside.append (ih hnil hcomps)

theorem getLast?_component (h : Component leaf) (branch : List UInt8) :
    (branch ++ ascii '/' :: leaf).getLast? = leaf.getLast? ∧ leaf.getLast? ≠ some (ascii '/') ∧
      leaf.getLast? ≠ some (ascii '\\') := by
  refine ⟨?_, fun hlast => h.not_mem (List.mem_of_getLast? hlast), ?_⟩
  · rw [List.append_cons, List.getLast?_append_of_ne_nil _ h.ne_nil]
  · exact fun hlast => (h.clean.bytes _ (List.mem_of_getLast? hlast)).2.2 rfl

theorem hasParentPath_eq (h : Component leaf) (hb : path ≠ []) : hasParentPath (path ++ ascii '/' :: leaf) = true := by
  obtain ⟨hlast, hslash, hback⟩ := getLast?_component h path
  rw [hasParentPath, if_neg]
  · dsimp only
    rw [hlast, if_neg]
    · simp
    · rw [Option.any_eq_true]
      rintro ⟨b, hb, hsep⟩
      rcases of_decide_eq_true hsep with rfl | rfl
      · exact hslash hb
      · exact hback hb
  · rintro (hnil | hsep)
    · simp at hnil
    · obtain ⟨b, p, rfl⟩ := List.exists_cons_of_ne_nil hb
      simp at hsep

/-! ## Sanitised paths -/

theorem rawName_head (element : List UInt8) : (rawName element).head? ≠ some (ascii '/') := by
  intro hhead
  have h := List.head?_dropWhile_not (fun b => decide (b = ascii '/')) element
  rw [rawName] at hhead
  rw [hhead] at h
  simp at h

theorem sanitizePath_eq (hroot : Component root) {pre : List (List UInt8)}
    (hpre : ∀ c ∈ pre, Component c) (elements : List (List UInt8)) :
    ∃ comps, (∀ c ∈ comps, Component c) ∧
      sanitizePath (joined (root :: pre)) elements = joined (root :: (pre ++ comps)) := by
  induction elements generalizing pre with
  | nil => exact ⟨[], by simp, by rw [List.append_nil]; rfl⟩
  | cons element elements ih =>
    have hcons : sanitizePath (joined (root :: pre)) (element :: elements) =
        sanitizePath (sanitizeAppendPathElement (joined (root :: pre)) element) elements := rfl
    rw [hcons]
    rcases sanitizeAppendPathElement_cases (joined (root :: pre)) element with heq | ⟨c, hc, heq⟩
    · rw [heq]
      exact ih hpre
    · have hne : joined (root :: pre) ≠ [] :=
        (inside_joined (List.cons_ne_nil _ _) (List.forall_mem_cons.mpr ⟨hroot, hpre⟩)).ne_nil
      rw [heq, appendComponent, if_neg hne, ← joined_concat (List.cons_ne_nil _ _) c, List.cons_append]
      have hpre' : ∀ d ∈ pre ++ [c], Component d :=
        List.forall_mem_append.mpr ⟨hpre, List.forall_mem_singleton.mpr hc⟩
      obtain ⟨comps, hcomps, heq'⟩ := ih hpre'
      refine ⟨c :: comps, List.forall_mem_cons.mpr ⟨hc, hcomps⟩, ?_⟩
      rw [heq', List.append_assoc, List.singleton_append]

/-- The path of a file of a torrent with several: at least one component below the root. -/
theorem extractPath_below {dict : Value} {raw : List UInt8} (hroot : Component root)
    (h : extractPath dict root false = .ok (path, raw)) :
    (∃ init leaf, (∀ c ∈ init, Component c) ∧ Component leaf ∧
      path = joined (root :: init) ++ ascii '/' :: leaf) ∧ raw.head? ≠ some (ascii '/') := by
  rw [extractPath, if_neg (by simp)] at h
  split at h
  · cases h
  · split at h
    · cases h
    · split at h
      · cases h
      · next elements helements =>
        obtain ⟨hpath, rfl⟩ := Prod.mk.inj (Except.ok.inj h)
        refine ⟨?_, rawName_head _⟩
        obtain ⟨comps, hcomps, heq⟩ := sanitizePath_eq hroot (List.forall_mem_nil _) elements
        rw [joined_singleton, List.nil_append] at heq
        rw [heq] at hpath
        rcases List.eq_nil_or_concat comps with rfl | ⟨init, leaf, rfl⟩
        · rw [joined_singleton, if_pos rfl] at hpath
          refine ⟨[], [ascii '_'], by simp, ⟨clean_underscore, by decide, by decide, by decide⟩, ?_⟩
          rw [← hpath, joined_singleton]
        · rw [List.concat_eq_append] at hcomps hpath
          obtain ⟨hinit, hleaf⟩ := List.forall_mem_append.mp hcomps
          have hsplit : joined (root :: (init ++ [leaf])) = joined (root :: init) ++ ascii '/' :: leaf :=
            joined_concat (List.cons_ne_nil root init) leaf
          have hlen : root.length ≤ (joined (root :: init)).length := by
            by_cases hnil : init = []
            · rw [hnil, joined_singleton]
            · rw [joined_cons root hnil, List.length_append]
              omega
          rw [hsplit, if_neg (by simp only [List.length_append, List.length_cons]; omega)] at hpath
          exact ⟨init, leaf, hinit, hleaf _ (List.mem_singleton_self _), hpath.symm⟩

/-! ## The path that is stored -/

/-- What `set_name` keeps of a borrowed name. -/
def borrowedName (filename : List UInt8) : List UInt8 :=
  if nameIsOwned ≤ filename.length then filename.drop (nameIsOwned - 1) else filename

/-- The last component, as it is stored. -/
def storedName (filename leaf : List UInt8) : List UInt8 :=
  if filename = [] then leaf else borrowedName filename

namespace FileStorage

variable {fs fs' : FileStorage} {ps : List (List UInt8)} {size : ℕ}

theorem getOrAddPath_get (fs : FileStorage) (dir : List UInt8) :
    (fs.getOrAddPath dir).1.paths[(fs.getOrAddPath dir).2]? = some dir ∧
      fs.paths <+: (fs.getOrAddPath dir).1.paths := by
  rw [getOrAddPath]
  split
  · next k hk =>
    have hmem := List.mem_of_getLast? hk
    exact ⟨of_decide_eq_true (List.mem_filter.mp hmem).2, List.prefix_rfl⟩
  · exact ⟨List.getElem?_concat_length, List.prefix_append _ _⟩

/-- What is known of the files that have been added: their paths. -/
structure Stored (fs : FileStorage) (root : List UInt8) (ps : List (List UInt8)) : Prop where
  name_eq : fs.files ≠ [] → fs.name = root
  index : ∀ e ∈ fs.files, ∃ k < fs.paths.length, e.pathIndex = .path k ∧ e.noRootDir = false
  map_path : fs.files.map fs.entryPath = ps

/-- The path of an entry below the root. -/
theorem entryPath_eq {e : FileEntry} {k : ℕ} {dir branch : List UInt8} (hroot : Component root)
    (hname : fs.name = root) (hdir : fs.paths[k]? = some dir) (hindex : e.pathIndex = .path k)
    (hno : e.noRootDir = false) (hbranch : branch = if dir = [] then root else root ++ ascii '/' :: dir)
    (hinside : Inside branch) (he : e.name ≠ []) :
    fs.entryPath e = branch ++ ascii '/' :: e.name := by
  have hgo : appendPath root dir = branch := by
    rw [hbranch, appendPath, if_neg (not_or.mpr ⟨hroot.ne_nil, hroot.ne_dot⟩),
      if_neg hroot.inside.getLast?_ne]
  have hend : appendPath branch e.name = branch ++ ascii '/' :: e.name := by
    rw [appendPath, if_neg (not_or.mpr ⟨hinside.ne_nil, hinside.ne_dot⟩), if_neg he,
      if_neg hinside.getLast?_ne]
  have happend : appendPath [] fs.name = root := by rw [appendPath, if_pos (.inl rfl), hname]
  rw [entryPath.eq_def, hindex]
  dsimp only
  rw [hno, if_neg Bool.false_ne_true, happend, List.getD_eq_getElem?_getD, hdir, Option.getD_some, hgo,
    hend]

theorem entryPath_congr {e : FileEntry} (hname : fs'.name = fs.name) (hpaths : fs.paths <+: fs'.paths)
    (he : ∃ k < fs.paths.length, e.pathIndex = .path k ∧ e.noRootDir = false) :
    fs'.entryPath e = fs.entryPath e := by
  obtain ⟨k, hk, hindex, hno⟩ := he
  obtain ⟨more, hmore⟩ := hpaths
  rw [entryPath.eq_def, entryPath.eq_def, hindex, hno, hname, ← hmore]
  simp only [List.getD_eq_getElem?_getD, List.getElem?_append_left hk]

/-- The directory of a branch, without the root. -/
theorem directory_joined (hroot : Component root) (hinit : ∀ c ∈ init, Component c) (hname : fs.name = root) :
    fs.directory (joined (root :: init)) = (if init = [] then [] else joined init, true) := by
  rw [directory]
  by_cases hnil : init = []
  · rw [hnil, joined_singleton, lsplitPath_named hroot.named, if_pos hname.symm, if_pos rfl,
      List.dropWhile_nil]
  · rw [joined_cons root hnil, lsplitPath_cons hroot.named, if_pos hname.symm, if_neg hnil]
    obtain ⟨b, rest, hb⟩ := List.exists_cons_of_ne_nil (inside_joined hnil hinit).ne_nil
    have hhead := (inside_joined hnil hinit).relative
    rw [hb] at hhead ⊢
    rw [List.dropWhile_cons_of_neg]
    simpa using fun heq : b = ascii '/' => hhead (heq ▸ rfl)

theorem withName_name (hroot : Component root) (hleaf : Component leaf)
    (hname : fs.files ≠ [] → fs.name = root) :
    (fs.withName (joined (root :: init) ++ ascii '/' :: leaf)).name = root := by
  have hsplit : joined (root :: init) ++ ascii '/' :: leaf = root ++ ascii '/' :: joined (init ++ [leaf]) := by
    rw [← joined_concat (List.cons_ne_nil root init) leaf, List.cons_append, joined_cons root (by simp)]
  have hne : joined (root :: init) ≠ [] := by
    by_cases hnil : init = []
    · rw [hnil, joined_singleton]
      exact hroot.ne_nil
    · rw [joined_cons root hnil]
      simp
  rw [withName, if_pos (hasParentPath_eq hleaf hne)]
  split
  · rw [hsplit, lsplitPath_cons hroot.named]
  · next hfiles => exact hname hfiles

/-- `update_path_index` for a file below the root. -/
theorem updatePathIndex_below (hroot : Component root) (hinit : ∀ c ∈ init, Component c)
    (hleaf : Component leaf) (hname : fs.name = root) (e : FileEntry) (setName : Bool) :
    let dir := if init = [] then [] else joined init
    fs.updatePathIndex e (joined (root :: init) ++ ascii '/' :: leaf) setName =
      ((fs.getOrAddPath dir).1,
        { (if setName then e.setName leaf false else e) with
          noRootDir := false, pathIndex := .path (fs.getOrAddPath dir).2 }) := by
  have hbranch : Inside (joined (root :: init)) :=
    inside_joined (List.cons_ne_nil _ _) (List.forall_mem_cons.mpr ⟨hroot, hinit⟩)
  have hcomplete : isComplete (joined (root :: init) ++ ascii '/' :: leaf) = false := by
    rw [isComplete, decide_eq_false_iff_not]
    exact (hbranch.append hleaf.inside).relative
  rw [updatePathIndex, if_neg (Bool.eq_false_iff.mp hcomplete), rsplitPath_eq hleaf.named]
  dsimp only
  rw [if_neg hbranch.ne_nil, directory_joined hroot hinit hname]
  rfl

/-- The entry of a new file has the path of the file, with the stored name at the end. -/
theorem newEntry_path (hroot : Component root) (hinit : ∀ c ∈ init, Component c) (hleaf : Component leaf)
    (hname : fs.files ≠ [] → fs.name = root) (filename : List UInt8)
    (hstored : storedName filename leaf ≠ []) :
    let r := fs.newEntry filename (joined (root :: init) ++ ascii '/' :: leaf)
    r.1.name = root ∧ fs.paths <+: r.1.paths ∧
      (∃ k < r.1.paths.length, r.2.pathIndex = .path k ∧ r.2.noRootDir = false) ∧
      r.1.entryPath r.2 = joined (root :: init) ++ ascii '/' :: storedName filename leaf := by
  have hbranch : Inside (joined (root :: init)) :=
    inside_joined (List.cons_ne_nil _ _) (List.forall_mem_cons.mpr ⟨hroot, hinit⟩)
  have hname₁ := @withName_name root leaf init fs hroot hleaf hname
  have hpaths₁ := withName_paths fs (joined (root :: init) ++ ascii '/' :: leaf)
  rw [newEntry]
  generalize fs.withName (joined (root :: init) ++ ascii '/' :: leaf) = fs₁ at hname₁ hpaths₁
  have hup := updatePathIndex_below hroot hinit hleaf hname₁ {} (filename = [])
  dsimp only at hup ⊢
  rw [hup]
  generalize hdir : (if init = [] then [] else joined init) = dir
  obtain ⟨hget, hprefix⟩ := getOrAddPath_get fs₁ dir
  have hname₂ : (fs₁.getOrAddPath dir).1.name = root := by rw [getOrAddPath_eq, hname₁]
  obtain ⟨hk, -⟩ := List.getElem?_eq_some_iff.mp hget
  have hbranch_eq : joined (root :: init) = if dir = [] then root else root ++ ascii '/' :: dir := by
    rw [← hdir]
    by_cases hnil : init = []
    · rw [if_pos hnil, if_pos rfl, hnil, joined_singleton]
    · rw [if_neg hnil, if_neg (inside_joined hnil hinit).ne_nil, joined_cons root hnil]
  -- the name comes from the path or is borrowed
  by_cases hfile : filename = []
  · have hname₃ : leaf.takeWhile (· ≠ 0) = leaf := by
      refine List.takeWhile_eq_self_iff.mpr fun b hb => ?_
      simpa using (hleaf.inside.bytes b hb).1
    rw [storedName, if_pos hfile] at hstored ⊢
    rw [if_neg (not_not.mpr hfile), decide_eq_true hfile]
    refine ⟨hname₂, hpaths₁ ▸ hprefix, ⟨_, hk, rfl, rfl⟩, ?_⟩
    rw [entryPath_eq hroot hname₂ hget rfl rfl hbranch_eq hbranch]
    · exact congrArg (joined (root :: init) ++ ascii '/' :: ·) hname₃
    · exact fun hnil => hstored (hname₃ ▸ hnil)
  · rw [storedName, if_neg hfile] at hstored ⊢
    rw [if_pos hfile, decide_eq_false hfile]
    refine ⟨hname₂, hpaths₁ ▸ hprefix, ⟨_, hk, rfl, rfl⟩, ?_⟩
    exact entryPath_eq hroot hname₂ hget rfl rfl hbranch_eq hbranch hstored

theorem Stored.addFileBorrow {filename : List UInt8} {filehash : Option (List UInt8)} (hs : fs.Stored root ps) (hroot : Component root)
    (hinit : ∀ c ∈ init, Component c) (hleaf : Component leaf) (hstored : storedName filename leaf ≠ [])
    (h : fs.addFileBorrow filename (joined (root :: init) ++ ascii '/' :: leaf) size filehash = .ok fs') :
    fs'.Stored root (ps ++ [joined (root :: init) ++ ascii '/' :: storedName filename leaf]) := by
  obtain ⟨-, -, rfl⟩ := addFileBorrow_ok h
  obtain ⟨hname, hpaths, hindex, hpath⟩ :=
    newEntry_path hroot hinit hleaf hs.name_eq filename hstored
  have hfiles := congrArg FileStorage.files
    (newEntry_eq fs filename (joined (root :: init) ++ ascii '/' :: leaf))
  rw [withName_files] at hfiles
  generalize fs.newEntry filename (joined (root :: init) ++ ascii '/' :: leaf) = r at *
  obtain ⟨fs₁, e⟩ := r
  dsimp only at hname hpaths hindex hpath hfiles ⊢
  refine ⟨fun _ => hname, ?_, ?_⟩
  · rw [hfiles]
    refine List.forall_mem_append.mpr ⟨?_, List.forall_mem_singleton.mpr hindex⟩
    intro e' he'
    obtain ⟨k, hk, he'⟩ := hs.index e' he'
    exact ⟨k, hk.trans_le hpaths.length_le, he'⟩
  · rw [hfiles, List.map_append, List.map_singleton]
    congr 1
    · rw [← hs.map_path]
      refine List.map_congr_left fun e' he' => ?_
      refine entryPath_congr ?_ hpaths (hs.index e' he')
      exact hname.trans (hs.name_eq (List.ne_nil_of_mem he')).symm
    · exact congrArg (fun p => [p]) hpath

end FileStorage

/-- The file of a dictionary of a torrent with several: its path, and what is stored of it. -/
def FileOf (root : List UInt8) (dict : Value) (p : List UInt8) : Prop :=
  ∃ init leaf path raw, (∀ c ∈ init, Component c) ∧ Component leaf ∧
    extractPath dict root false = .ok (path, raw) ∧ path = joined (root :: init) ++ ascii '/' :: leaf ∧
    raw.head? ≠ some (ascii '/') ∧ (raw <:+ path → raw.length < 2 ^ 12) ∧
    p = joined (root :: init) ++ ascii '/' :: storedName (if raw <:+ path then raw else []) leaf

theorem borrowedName_ne_nil (h : filename ≠ []) : borrowedName filename ≠ [] := by
  rw [borrowedName]
  split
  · next hlen =>
    rw [← List.length_pos_iff_ne_nil, List.length_drop]
    simp only [nameIsOwned] at hlen ⊢
    omega
  · exact h

theorem storedName_ne_nil (hleaf : leaf ≠ []) : storedName filename leaf ≠ [] := by
  rw [storedName]
  split
  · exact hleaf
  · next h => exact borrowedName_ne_nil h

theorem addFileBorrow_length {fs fs' : FileStorage} {size : ℕ} {filehash : Option (List UInt8)} (hleaf : filename ≠ [])
    (h : fs.addFileBorrow filename path size filehash = .ok fs') : filename.length < 2 ^ 12 := by
  rw [FileStorage.addFileBorrow] at h
  split at h
  · cases h
  · split at h
    · cases h
    · split at h
      · cases h
      · next hlen =>
        rw [FileStorage.nameLength, if_pos hleaf] at hlen
        exact not_le.mp hlen

theorem extractSingleFile_stored {fs fs' : FileStorage} {dict : Value} {ps : List (List UInt8)}
    (hroot : Component root) (hs : fs.Stored root ps)
    (h : extractSingleFile dict fs root false = .ok fs') :
    ∃ p, FileOf root dict p ∧ fs'.Stored root (ps ++ [p]) := by
  obtain ⟨-, path, raw, hpath, hadd⟩ := extractSingleFile_ok h
  obtain ⟨⟨init, leaf, hinit, hleaf, rfl⟩, hhead⟩ := extractPath_below hroot hpath
  refine ⟨_, ⟨init, leaf, _, raw, hinit, hleaf, hpath, rfl, hhead, ?_, rfl⟩,
    hs.addFileBorrow hroot hinit hleaf (storedName_ne_nil hleaf.ne_nil) hadd⟩
  intro hsuffix
  rw [if_pos hsuffix] at hadd
  by_cases hnil : raw = []
  · rw [hnil]
    decide
  · exact addFileBorrow_length hnil hadd

theorem extractFiles_stored {fs fs' : FileStorage} {dicts : List Value} {ps : List (List UInt8)}
    (hroot : Component root) (hs : fs.Stored root ps) (h : extractFiles dicts fs root = .ok fs') :
    ∃ qs, List.Forall₂ (FileOf root) dicts qs ∧ fs'.Stored root (ps ++ qs) := by
  induction dicts generalizing fs ps with
  | nil =>
    obtain rfl := Except.ok.inj h
    exact ⟨[], .nil, by rwa [List.append_nil]⟩
  | cons dict dicts ih =>
    rw [extractFiles, List.foldlM_cons] at h
    cases hdict : extractSingleFile dict fs root false with
    | error e => rw [hdict] at h; cases h
    | ok fs₁ =>
      rw [hdict] at h
      obtain ⟨p, hp, hs₁⟩ := extractSingleFile_stored hroot hs hdict
      obtain ⟨qs, hqs, hs'⟩ := ih hs₁ h
      refine ⟨p :: qs, .cons hp hqs, ?_⟩
      rw [List.append_assoc] at hs'
      exact hs'

/-! ## Borrowed names -/

/-- A raw name that is borrowed must begin like a path: not with a component of dots, and not in the
middle of a character. -/
def BorrowSafe (path raw : List UInt8) : Prop :=
  raw ≠ [] → raw <:+ path → Begins (borrowedName raw)

theorem borrowedName_suffix (filename : List UInt8) : borrowedName filename <:+ filename := by
  rw [borrowedName]
  split
  · exact List.drop_suffix _ _
  · exact List.suffix_rfl

/-- A borrowed name does not begin with a separator: it begins like the raw name, or it is the last
byte of the path. -/
theorem borrowedName_head {raw : List UInt8} (hpath : Inside path) (hhead : raw.head? ≠ some (ascii '/'))
    (hlen : raw.length < 2 ^ 12) (hsuffix : raw <:+ path) :
    (borrowedName raw).head? ≠ some (ascii '/') := by
  by_cases hlong : nameIsOwned ≤ raw.length
  · have hone : (borrowedName raw).length = 1 := by
      rw [borrowedName, if_pos hlong, List.length_drop]
      simp only [nameIsOwned] at hlong ⊢
      omega
    obtain ⟨b, hb⟩ := List.length_eq_one_iff.mp hone
    have hsuffix' : [b] <:+ path := hb ▸ (borrowedName_suffix raw).trans hsuffix
    obtain ⟨p, rfl⟩ := hsuffix'
    rw [hb]
    intro hslash
    obtain rfl := Option.some.inj hslash
    exact hpath.getLast?_ne List.getLast?_concat
  · rw [borrowedName, if_neg hlong]
    exact hhead

theorem inside_borrowedName {raw : List UInt8} (hpath : Inside path) (hhead : raw.head? ≠ some (ascii '/'))
    (hlen : raw.length < 2 ^ 12) (hraw : raw ≠ []) (hsuffix : raw <:+ path) :
    Inside (borrowedName raw) ↔ Begins (borrowedName raw) :=
  hpath.suffix_iff ((borrowedName_suffix raw).trans hsuffix) (borrowedName_ne_nil hraw)
    (borrowedName_head hpath hhead hlen hsuffix)

/-- The path of a file of a torrent with several stays inside just when its name is borrowed safely. -/
theorem FileOf.inside_iff {dict : Value} {p : List UInt8} (hroot : Component root) (h : FileOf root dict p) :
    (Inside p ↔ ∀ path raw, extractPath dict root false = .ok (path, raw) → BorrowSafe path raw) ∧
      (components p).head? = some root := by
  obtain ⟨init, leaf, path, raw, hinit, hleaf, hex, rfl, hhead, hlen, rfl⟩ := h
  have hbranch : Inside (joined (root :: init)) :=
    inside_joined (List.cons_ne_nil _ _) (List.forall_mem_cons.mpr ⟨hroot, hinit⟩)
  have hpath := hbranch.append hleaf.inside
  constructor
  · have hone : (∀ path raw', extractPath dict root false = .ok (path, raw') → BorrowSafe path raw') ↔
        BorrowSafe (joined (root :: init) ++ ascii '/' :: leaf) raw := by
      constructor
      · exact fun hall => hall _ _ hex
      · intro hsafe path raw' hex'
        obtain ⟨rfl, rfl⟩ := Prod.mk.inj (Except.ok.inj (hex.symm.trans hex'))
        exact hsafe
    rw [hone]
    by_cases hsuffix : raw <:+ joined (root :: init) ++ ascii '/' :: leaf
    · rw [if_pos hsuffix, storedName]
      split
      · next hnil => exact ⟨fun _ hne => absurd hnil hne, fun _ => hpath⟩
      · next hne =>
        have hiff := inside_borrowedName hpath hhead (hlen hsuffix) hne hsuffix
        exact ⟨fun hin _ _ => hiff.mp hin.right, fun hsafe => hbranch.append (hiff.mpr (hsafe hne hsuffix))⟩
    · rw [if_neg hsuffix, storedName, if_pos rfl]
      exact ⟨fun _ _ hs => absurd hs hsuffix, fun _ => hpath⟩
  · rw [components_append, List.head?_append_of_ne_nil _ (components_ne_nil _)]
    by_cases hnil : init = []
    · rw [hnil, joined_singleton, components_singleton hroot.not_mem]
      rfl
    · rw [joined_cons root hnil, components_append, components_singleton hroot.not_mem]
      rfl

/-! ## Torrents with one file -/

/-- The only file of a torrent has no directory. -/
theorem extractSingleFile_top {fs fs' : FileStorage} {info : Value} (hfs : fs.files = [])
    (h : extractSingleFile info fs [] true = .ok fs') :
    ∃ leaf raw, Component leaf ∧ extractPath info [] true = .ok (leaf, raw) ∧
      raw.head? ≠ some (ascii '/') ∧ (raw <:+ leaf → raw.length < 2 ^ 12) ∧
      fs'.files.map fs'.entryPath = [storedName (if raw <:+ leaf then raw else []) leaf] := by
  obtain ⟨-, path, raw, hpath, hadd⟩ := extractSingleFile_ok h
  have hcomponent : Component path ∧ raw.head? ≠ some (ascii '/') := by
    rw [extractPath, if_pos rfl] at hpath
    split at hpath
    · cases hpath
    · next off p hp =>
      split at hpath
      · cases hpath
      · dsimp only at hpath
        split at hpath
        · cases hpath
        · next hne =>
          obtain ⟨rfl, rfl⟩ := Prod.mk.inj (Except.ok.inj hpath)
          refine ⟨?_, rawName_head _⟩
          rcases sanitizeAppendPathElement_cases [] p with heq | ⟨c, hc, heq⟩
          · exact absurd heq hne
          · rw [heq, appendComponent, if_pos rfl]
            exact hc
  obtain ⟨hleaf, hhead⟩ := hcomponent
  refine ⟨path, raw, hleaf, hpath, hhead, ?_, ?_⟩
  · intro hsuffix
    rw [if_pos hsuffix] at hadd
    by_cases hnil : raw = []
    · rw [hnil]
      decide
    · exact addFileBorrow_length hnil hadd
  · obtain ⟨-, -, rfl⟩ := FileStorage.addFileBorrow_ok hadd
    generalize (if raw <:+ path then raw else []) = filename
    have hcomplete : isComplete path = false := by
      rw [isComplete, decide_eq_false_iff_not]
      exact hleaf.inside.relative
    have hentry : fs.newEntry filename path = (fs.withName path,
        { name := storedName filename path, borrowed := decide (filename ≠ []) }) := by
      rw [FileStorage.newEntry, FileStorage.updatePathIndex, if_neg (Bool.eq_false_iff.mp hcomplete),
        rsplitPath_named hleaf.named]
      dsimp only
      rw [if_pos rfl, storedName]
      by_cases hfile : filename = []
      · have hname : path.takeWhile (· ≠ 0) = path := by
          refine List.takeWhile_eq_self_iff.mpr fun b hb => ?_
          simpa using (hleaf.inside.bytes b hb).1
        rw [if_neg (not_not.mpr hfile), decide_eq_true hfile, if_pos rfl, if_pos hfile,
          decide_eq_false (not_not.mpr hfile), FileEntry.setName, if_neg Bool.false_ne_true, hname, ite_self]
      · rw [if_pos hfile, decide_eq_false hfile, if_neg hfile, decide_eq_true hfile]
        simp only [FileEntry.setName, if_neg hfile]
        rfl
    rw [hentry]
    dsimp only
    rw [FileStorage.withName_files, hfs]
    rfl

/-! ## The torrent -/

/-- The directory of a torrent with several files: its name, sanitised. -/
def rootDir (sha1 : List UInt8 → List UInt8) (info : Value) : List UInt8 :=
  match (dictFindString info (key "name.utf-8")).or (dictFindString info (key "name")) with
  | some (_, name) => torrentName sha1 info name
  | none => []

/-- No file of the torrent borrows a name that does not begin like a path. -/
def PathsSafe (sha1 : List UInt8 → List UInt8) (info : Value) : Prop :=
  match dictFindList info (key "files") with
  | some dicts => rootDir sha1 info ≠ [] ∧ ∀ dict ∈ dicts, ∀ path raw,
      extractPath dict (rootDir sha1 info) false = .ok (path, raw) → BorrowSafe path raw
  | none => ∀ path raw, extractPath info [] true = .ok (path, raw) → BorrowSafe path raw

theorem hexDigit_plain {n : ℕ} (h : n < 16) : 32 ≤ hexDigit n ∧ hexDigit n ≠ ascii '/' ∧
    hexDigit n ≠ ascii '\\' ∧ (hexDigit n).toNat < 128 ∧ hexDigit n ≠ ascii '.' := by
  interval_cases n <;> decide

theorem toHex_component (hash : List UInt8) (h : hash ≠ []) : Component (toHex hash) := by
  have hhex : ∀ b ∈ toHex hash, 32 ≤ b ∧ b ≠ ascii '/' ∧ b ≠ ascii '\\' ∧ b.toNat < 128 ∧
      b ≠ ascii '.' := by
    intro b hb
    obtain ⟨x, -, hx⟩ := List.mem_flatMap.mp hb
    have hlt : x.toNat < 256 := x.toNat_lt
    rcases List.mem_cons.mp hx with rfl | hx
    · exact hexDigit_plain (by omega)
    · obtain rfl := List.mem_singleton.mp hx
      exact hexDigit_plain (Nat.mod_lt _ (by decide))
  obtain ⟨x, rest, rfl⟩ := List.exists_cons_of_ne_nil h
  have hfirst : toHex (x :: rest) ≠ [] := by simp [toHex]
  have hdot : ∀ s : List UInt8, toHex (x :: rest) ≠ ascii '.' :: s := by
    intro s heq
    exact (hhex _ (heq ▸ List.mem_cons_self ..)).2.2.2.2 rfl
  refine ⟨clean_of_forall fun b hb => ?_, hfirst, hdot [], hdot _⟩
  obtain ⟨h32, hslash, hback, hlow, -⟩ := hhex b hb
  exact ⟨h32, hslash, hback, hlow⟩

theorem torrentName_component {sha1 : List UInt8 → List UInt8} {info : Value} {name : List UInt8}
    (h : torrentName sha1 info name ≠ []) : Component (torrentName sha1 info name) := by
  rw [torrentName] at h ⊢
  split
  · next hnil =>
    rw [if_pos hnil] at h
    refine toHex_component _ fun hhash => h ?_
    rw [hhash]
    rfl
  · next hnil =>
    rw [if_neg hnil] at h
    rcases sanitizeAppendPathElement_cases [] name with heq | ⟨c, hc, heq⟩
    · exact absurd heq h
    · rw [heq, appendComponent, if_pos rfl]
      exact hc

section torrent

variable {sha1 : List UInt8 → List UInt8} {info : Value} {maxPieces : ℤ} {t t' : TorrentInfo}

/-- What the claim of this module is about: every path is inside, and in a torrent with several files
below the directory of the torrent. -/
def PathsInside (root : List UInt8) (t : TorrentInfo) : Prop :=
  ∀ i < t.files.files.length, Inside (t.files.filePath i) ∧
    (t.multifile = true → (components (t.files.filePath i)).head? = some root)

theorem pathsInside_iff {root : List UInt8} {qs : List (List UInt8)}
    (h : t.files.files.map t.files.entryPath = qs) :
    PathsInside root t ↔ ∀ q ∈ qs, Inside q ∧ (t.multifile = true → (components q).head? = some root) := by
  have hget : ∀ i (hi : i < t.files.files.length),
      t.files.filePath i = t.files.entryPath t.files.files[i] := by
    intro i hi
    rw [FileStorage.filePath, List.getD_eq_getElem _ _ hi]
  subst h
  constructor
  · intro hall q hq
    obtain ⟨e, he, rfl⟩ := List.mem_map.mp hq
    obtain ⟨i, hi, rfl⟩ := List.getElem_of_mem he
    exact hget i hi ▸ hall i hi
  · intro hall i hi
    rw [hget i hi]
    exact hall _ (List.mem_map_of_mem (List.getElem_mem hi))

theorem extractFiles_inside {list : List Value} {fs fs' : FileStorage} {root : List UInt8}
    (hroot : Component root) (hfs : fs.files = []) (h : extractFiles list fs root = .ok fs') :
    (∀ q ∈ fs'.files.map fs'.entryPath, Inside q ∧ (components q).head? = some root) ↔
      ∀ dict ∈ list, ∀ path raw, extractPath dict root false = .ok (path, raw) → BorrowSafe path raw := by
  have hempty : fs.Stored root [] := by
    refine ⟨fun hne => absurd hfs hne, ?_, ?_⟩
    · rw [hfs]
      simp
    · rw [hfs]
      rfl
  obtain ⟨qs, hqs, hs⟩ := extractFiles_stored hroot hempty h
  rw [hs.map_path, List.nil_append]
  clear hs h
  induction hqs with
  | nil => simp
  | cons hfile _ ih =>
    obtain ⟨hiff, hhead⟩ := hfile.inside_iff hroot
    rw [List.forall_mem_cons, List.forall_mem_cons]
    exact Iff.and ((and_iff_left hhead).trans hiff) ih

theorem extractSingleFile_inside {fs fs' : FileStorage} (hfs : fs.files = [])
    (h : extractSingleFile info fs [] true = .ok fs') :
    (∀ q ∈ fs'.files.map fs'.entryPath, Inside q) ↔
      ∀ path raw, extractPath info [] true = .ok (path, raw) → BorrowSafe path raw := by
  obtain ⟨leaf, raw, hleaf, hex, hhead, hlen, hmap⟩ := extractSingleFile_top hfs h
  have hone : (∀ path raw', extractPath info [] true = .ok (path, raw') → BorrowSafe path raw') ↔
      BorrowSafe leaf raw := by
    constructor
    · exact fun hall => hall _ _ hex
    · intro hsafe path raw' hex'
      obtain ⟨rfl, rfl⟩ := Prod.mk.inj (Except.ok.inj (hex.symm.trans hex'))
      exact hsafe
  rw [hone, hmap, List.forall_mem_singleton]
  by_cases hsuffix : raw <:+ leaf
  · rw [if_pos hsuffix, storedName]
    split
    · next hnil => exact ⟨fun _ hne => absurd hnil hne, fun _ => hleaf.inside⟩
    · next hne =>
      have hiff := inside_borrowedName hleaf.inside hhead (hlen hsuffix) hne hsuffix
      exact ⟨fun hin _ _ => hiff.mp hin, fun hsafe => hiff.mpr (hsafe hne hsuffix)⟩
  · rw [if_neg hsuffix, storedName, if_pos rfl]
    exact ⟨fun _ _ hs => absurd hs hsuffix, fun _ => hleaf.inside⟩

/-- The files of an accepted torrent, and how they were read. -/
theorem files_of_ok (h : parseInfoSection sha1 t info maxPieces = (.ok (), t')) :
    t'.files.files ≠ [] ∧ ∃ fs₀ fs₁ : FileStorage, fs₀.files = [] ∧
      t'.files.files = fs₁.files ∧ t'.files.entryPath = fs₁.entryPath ∧
      ((∃ list, dictFindList info (key "files") = some list ∧ t'.multifile = true ∧
          extractFiles list fs₀ (rootDir sha1 info) = .ok fs₁) ∨
        (dictFindList info (key "files") = none ∧ t'.multifile = false ∧
          extractSingleFile info fs₀ [] true = .ok fs₁)) := by
  obtain ⟨-, pieceLength, -, -, -, -, fs, multifile, off, hcontents, rfl⟩ := parseInfoSection_ok h
  obtain ⟨nameOff, name, fs₁, -, -, -, hname, hfiles, hne, rfl, -⟩ := parseContents_ok hcontents
  refine ⟨hne, { pieceLength }, fs₁, rfl, rfl, rfl, ?_⟩
  rw [rootDir, hname]
  rw [parseFiles] at hfiles
  split at hfiles
  · next list hlist =>
    left
    cases hex : extractFiles list { pieceLength } (torrentName sha1 info name) with
    | error e => rw [hex] at hfiles; cases hfiles
    | ok fs₂ =>
      rw [hex] at hfiles
      obtain ⟨rfl, rfl⟩ := Prod.mk.inj (Except.ok.inj hfiles)
      exact ⟨list, hlist, rfl, hex⟩
  · next hlist =>
    right
    split at hfiles
    · cases hex : extractSingleFile info { pieceLength } [] true with
      | error e => rw [hex] at hfiles; cases hfiles
      | ok fs₂ =>
        rw [hex] at hfiles
        obtain ⟨rfl, rfl⟩ := Prod.mk.inj (Except.ok.inj hfiles)
        exact ⟨hlist, rfl, rfl⟩
    · obtain ⟨rfl, -⟩ := Prod.mk.inj (Except.ok.inj hfiles)
      exact absurd rfl hne

/-- The paths of an accepted torrent stay inside it just when no name is borrowed that does not begin
like a path. -/
theorem parseInfoSection_inside_iff (h : parseInfoSection sha1 t info maxPieces = (.ok (), t')) :
    PathsInside (rootDir sha1 info) t' ↔ PathsSafe sha1 info := by
  obtain ⟨hne, fs₀, fs₁, hfs₀, hfiles, hentry, hread⟩ := files_of_ok h
  rw [pathsInside_iff rfl, PathsSafe, hfiles, hentry]
  rcases hread with ⟨list, hlist, hmulti, hex⟩ | ⟨hlist, hsingle, hex⟩
  · simp only [hlist, hmulti, forall_const]
    by_cases hroot : rootDir sha1 info = []
    · -- without a name the first component would be empty
      refine iff_of_false ?_ fun hsafe => hsafe.1 hroot
      intro hall
      rw [hfiles] at hne
      obtain ⟨e, rest, he⟩ := List.exists_cons_of_ne_nil hne
      obtain ⟨hin, hhead⟩ := hall (fs₁.entryPath e) (List.mem_map_of_mem (he ▸ List.mem_cons_self ..))
      rw [hroot] at hhead
      exact (hin.components [] (List.mem_of_mem_head? hhead)).1 rfl
    · have hcomponent : Component (rootDir sha1 info) := by
        rw [rootDir] at hroot ⊢
        split
        · next name hname =>
          simp only [hname] at hroot
          exact torrentName_component hroot
        · next hname =>
          simp only [hname] at hroot
          exact absurd trivial hroot
      rw [and_iff_right hroot]
      exact extractFiles_inside hcomponent hfs₀ hex
  · simp only [hlist, hsingle, Bool.false_eq_true, false_implies, and_true]
    exact extractSingleFile_inside hfs₀ hex

end torrent

/-- A torrent `t` with one file below the directory `a..`, whose name is `last`. -/
def dotsInfo (last : Value) : Value :=
  .dict [
    .str (key "5") (key "files"),
    .list [.dict [
      .str (key "6") (key "length"), .int false (key "1"),
      .str (key "4") (key "path"), .list [.str (key "3") (key "a.."), last]]],
    .str (key "4") (key "name"), .str (key "1") (key "t"),
    .str (key "12") (key "piece length"), .int false (key "16384"),
    .str (key "6") (key "pieces"), .str (key "20") (List.replicate 20 (ascii 'h'))]

/-- The last element `..` is sanitised away, but borrowed as the end of `a..`. -/
theorem dots_not_inside : ∃ t',
    parseInfoSection (fun _ => [16, 89, 121, 29, 8, 167, 9, 143, 221, 187, 157, 88, 153, 73, 165, 12, 199, 190, 219, 248]) {} (dotsInfo (.str (key "2") (key ".."))) 100 = (.ok (), t') ∧
    t'.files.filePath 0 = key "t/.." ∧
    ¬ PathsInside (rootDir (fun _ => [16, 89, 121, 29, 8, 167, 9, 143, 221, 187, 157, 88, 153, 73, 165, 12, 199, 190, 219, 248]) (dotsInfo (.str (key "2") (key "..")))) t' := by
  refine ⟨_, Prod.ext ?_ rfl, ?_, ?_⟩
  · rfl
  · decide +kernel
  · intro hall
    have hpath := (hall 0 (by decide +kernel)).1.components (key "..") (by decide +kernel)
    exact hpath.2.2 rfl

theorem dots_inside : ∃ t',
    parseInfoSection (fun _ => [142, 209, 212, 253, 73, 208, 17, 19, 130, 71, 197, 211, 99, 8, 190, 244, 119, 91, 47, 136]) {} (dotsInfo (.str (key "1") (key "b"))) 100 = (.ok (), t') ∧
    (PathsInside (rootDir (fun _ => [142, 209, 212, 253, 73, 208, 17, 19, 130, 71, 197, 211, 99, 8, 190, 244, 119, 91, 47, 136]) (dotsInfo (.str (key "1") (key "b")))) t' ↔
      PathsSafe (fun _ => [142, 209, 212, 253, 73, 208, 17, 19, 130, 71, 197, 211, 99, 8, 190, 244, 119, 91, 47, 136]) (dotsInfo (.str (key "1") (key "b")))) := by
  have h : parseInfoSection (fun _ => [142, 209, 212, 253, 73, 208, 17, 19, 130, 71, 197, 211, 99, 8, 190, 244, 119, 91, 47, 136]) {} (dotsInfo (.str (key "1") (key "b"))) 100 =
      (.ok (), (parseInfoSection (fun _ => [142, 209, 212, 253, 73, 208, 17, 19, 130, 71, 197, 211, 99, 8, 190, 244, 119, 91, 47, 136]) {} (dotsInfo (.str (key "1") (key "b"))) 100).2) :=
    Prod.ext rfl rfl
  exact ⟨_, h, parseInfoSection_inside_iff h⟩

end Info

end Torrent

end LibtorrentSN
