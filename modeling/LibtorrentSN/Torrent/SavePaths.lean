import LibtorrentSN.Torrent.InsidePaths

/-!
# Paths after renames

`file_storage` (`src/file_storage.cpp`) keeps the path of a file as the index of a directory, a flag
for a directory that is not below the name of the torrent, and a name. `file_path` puts the path
together below a save path, and `file_path_hash` hashes it without putting it together. Files are
added one by one, and any of them may be renamed.
-/

namespace LibtorrentSN

namespace Torrent

namespace Info

open Bencode (ascii)

/-- `boost::crc_optimal`: bytes are taken in one by one. -/
structure Crc where
  State : Type
  init : State
  processByte : State → UInt8 → State
  checksum : State → UInt32

def toLower (c : UInt8) : UInt8 := if ascii 'A' ≤ c ∧ c ≤ ascii 'Z' then c - ascii 'A' + ascii 'a' else c

namespace Crc

variable (crc : Crc)

/-- The checksum of a string. -/
def ofString (str : List UInt8) : UInt32 := crc.checksum (str.foldl crc.processByte crc.init)

def processStringLowercase (s : crc.State) (str : List UInt8) : crc.State :=
  str.foldl (fun s c => crc.processByte s (toLower c)) s

/-- A path and the separator after it, unless the path is empty. -/
def processDirectory (s : crc.State) (p : List UInt8) : crc.State :=
  if p = [] then s else crc.processByte (crc.processStringLowercase s p) (ascii '/')

variable {crc}

theorem processStringLowercase_eq (s : crc.State) (str : List UInt8) :
    crc.processStringLowercase s str = (str.map toLower).foldl crc.processByte s := by
  rw [processStringLowercase, List.foldl_map]

theorem processByte_separator (s : crc.State) :
    crc.processByte s (ascii '/') = ([ascii '/'].map toLower).foldl crc.processByte s := rfl

theorem processDirectory_eq (s : crc.State) (p : List UInt8) : crc.processDirectory s p =
    ((if p = [] then [] else p ++ [ascii '/']).map toLower).foldl crc.processByte s := by
  rw [processDirectory]
  split
  · rfl
  · rw [processByte_separator, processStringLowercase_eq, List.map_append, List.foldl_append]

end Crc

namespace FileStorage

variable (fs : FileStorage)

/-- `file_path` -/
def filePathIn (i : ℕ) (savePath : List UInt8) : List UInt8 :=
  let fe := fs.files.getD i {}
  match fe.pathIndex with
  | .pathIsAbsolute => fe.name
  | .noPath => appendPath savePath fe.name
  | .path index =>
    let p := fs.paths.getD index []
    if fe.noRootDir then appendPath (appendPath savePath p) fe.name
    else appendPath (appendPath (appendPath savePath fs.name) p) fe.name

def filePathHash (crc : Crc) (i : ℕ) (savePath : List UInt8) : UInt32 :=
  let fe := fs.files.getD i {}
  crc.checksum <| match fe.pathIndex with
  | .pathIsAbsolute => crc.processStringLowercase crc.init fe.name
  | .noPath => crc.processStringLowercase (crc.processDirectory crc.init savePath) fe.name
  | .path index =>
    let p := fs.paths.getD index []
    if fe.noRootDir then
      crc.processStringLowercase (crc.processDirectory (crc.processDirectory crc.init savePath) p) fe.name
    else
      let s := crc.processStringLowercase (crc.processDirectory crc.init savePath) fs.name
      crc.processStringLowercase (crc.processDirectory (crc.processByte s (ascii '/')) p) fe.name

/-- `add_file`: nothing is borrowed. -/
def addFile (path : List UInt8) (fileSize : ℕ) : Except ErrorCode FileStorage :=
  fs.addFileBorrow [] path fileSize none

def renameFile (i : ℕ) (newFilename : List UInt8) : FileStorage :=
  let (fs', e) := fs.updatePathIndex (fs.files.getD i {}) newFilename true
  { fs' with files := fs.files.set i e }

end FileStorage

/-! ## Relative paths -/

/-- A component of a relative path. -/
structure Part (c : List UInt8) : Prop extends Named c where
  no_nul : 0 ∉ c
  ne_dot : c ≠ [ascii '.']

def RelativePath (p : List UInt8) : Prop :=
  ∃ comps : List (List UInt8), comps ≠ [] ∧ (∀ c ∈ comps, Part c) ∧ p = joined comps

/-- What a separator and more may follow. -/
structure Solid (x : List UInt8) : Prop where
  ne_nil : x ≠ []
  ne_dot : x ≠ [ascii '.']
  last : x.getLast? ≠ some (ascii '/')

variable {root leaf p x y s dir : List UInt8} {init comps : List (List UInt8)} {k : ℕ}

theorem Part.solid (h : Part leaf) : Solid leaf := ⟨h.ne_nil, h.ne_dot, h.toNamed.getLast?_ne⟩

theorem appendPath_solid (h : Solid x) (hy : y ≠ []) : appendPath x y = x ++ ascii '/' :: y := by
  rw [appendPath, if_neg (not_or.mpr ⟨h.ne_nil, h.ne_dot⟩), if_neg hy, if_neg h.last]

theorem solid_append (hx : x ≠ []) (hy : y ≠ []) (hlast : y.getLast? ≠ some (ascii '/')) :
    Solid (x ++ ascii '/' :: y) := by
  have hlen := List.length_pos_iff.mpr hx
  refine ⟨by simp, ?_, ?_⟩
  · intro heq
    have := congrArg List.length heq
    simp only [List.length_append, List.length_cons, List.length_nil] at this
    omega
  · rw [List.append_cons, List.getLast?_append_of_ne_nil _ hy]
    exact hlast

/-- A path is a name, or a directory and a name. -/
theorem RelativePath.cases (h : RelativePath p) : Part p ∨
    ∃ root init leaf, Part root ∧ (∀ c ∈ init, Part c) ∧ Part leaf ∧
      p = joined (root :: init) ++ ascii '/' :: leaf := by
  obtain ⟨comps, hne, hcomps, rfl⟩ := h
  rcases List.eq_nil_or_concat comps with rfl | ⟨init, leaf, rfl⟩
  · exact absurd rfl hne
  · rw [List.concat_eq_append] at hcomps ⊢
    obtain ⟨hinit, hleaf⟩ := List.forall_mem_append.mp hcomps
    have hleaf := hleaf leaf (List.mem_singleton_self leaf)
    cases init with
    | nil =>
      rw [List.nil_append, joined_singleton]
      exact .inl hleaf
    | cons root init =>
      obtain ⟨hroot, hinit⟩ := List.forall_mem_cons.mp hinit
      exact .inr ⟨root, init, leaf, hroot, hinit, hleaf, joined_concat (List.cons_ne_nil _ _) leaf⟩

theorem joined_ne_nil (hroot : Part root) (init : List (List UInt8)) : joined (root :: init) ≠ [] := by
  by_cases hnil : init = []
  · rw [hnil, joined_singleton]
    exact hroot.ne_nil
  · rw [joined_cons root hnil]
    simp

theorem RelativePath.solid (h : RelativePath p) : Solid p := by
  rcases h.cases with hp | ⟨root, init, leaf, hroot, hinit, hleaf, rfl⟩
  · exact hp.solid
  · exact solid_append (joined_ne_nil hroot init) hleaf.ne_nil hleaf.toNamed.getLast?_ne

theorem relativePath_joined (hroot : Part root) (hinit : ∀ c ∈ init, Part c) :
    RelativePath (joined (root :: init)) :=
  ⟨root :: init, List.cons_ne_nil _ _, List.forall_mem_cons.mpr ⟨hroot, hinit⟩, rfl⟩

theorem head?_joined (hroot : Part root) (init : List (List UInt8)) :
    (joined (root :: init)).head? ≠ some (ascii '/') := by
  by_cases hnil : init = []
  · rw [hnil, joined_singleton]
    exact hroot.toNamed.head?_ne
  · rw [joined_cons root hnil, List.head?_append_of_ne_nil _ hroot.ne_nil]
    exact hroot.toNamed.head?_ne

/-! ## What an entry stands for -/

namespace FileStorage

variable {fs fs' : FileStorage} {e e' : FileEntry} {i j : ℕ}

/-- A directory below the name of the torrent; the empty one is the name itself. -/
def below (name dir : List UInt8) : List UInt8 := if dir = [] then name else name ++ ascii '/' :: dir

/-- The entry of a file with this path. -/
inductive Represents (fs : FileStorage) (e : FileEntry) : List UInt8 → Prop
  | noPath {leaf : List UInt8} (index : e.pathIndex = .noPath) (name : e.name = leaf)
      (hleaf : Solid leaf) : Represents fs e leaf
  | noRoot {leaf dir : List UInt8} {k : ℕ} (index : e.pathIndex = .path k)
      (noRoot : e.noRootDir = true) (get : fs.paths[k]? = some dir) (hdir : Solid dir)
      (name : e.name = leaf) (hleaf : Solid leaf) : Represents fs e (dir ++ ascii '/' :: leaf)
  | inRoot {leaf dir : List UInt8} {k : ℕ} (index : e.pathIndex = .path k)
      (noRoot : e.noRootDir = false) (get : fs.paths[k]? = some dir) (root : Solid fs.name)
      (last : dir.getLast? ≠ some (ascii '/')) (name : e.name = leaf) (hleaf : Solid leaf) :
      Represents fs e (below fs.name dir ++ ascii '/' :: leaf)

/-- An entry stands for the same path when only directories have been added. -/
theorem Represents.congr (h : fs.Represents e p) (hname : fs'.name = fs.name)
    (hpaths : fs.paths <+: fs'.paths) (hindex : e'.pathIndex = e.pathIndex)
    (hno : e'.noRootDir = e.noRootDir) (he : e'.name = e.name) : fs'.Represents e' p := by
  obtain ⟨more, hmore⟩ := hpaths
  have hget : ∀ {k : ℕ} {dir : List UInt8}, fs.paths[k]? = some dir → fs'.paths[k]? = some dir := by
    intro k dir hk
    rw [← hmore, List.getElem?_append_left (List.getElem?_eq_some_iff.mp hk).1]
    exact hk
  cases h with
  | noPath index name hleaf => exact .noPath (hindex.trans index) (he.trans name) hleaf
  | noRoot index noRoot get hdir name hleaf =>
    exact .noRoot (hindex.trans index) (hno.trans noRoot) (hget get) hdir (he.trans name) hleaf
  | inRoot index noRoot get root last name hleaf =>
    rw [← hname] at root ⊢
    exact .inRoot (hindex.trans index) (hno.trans noRoot) (hget get) root last (he.trans name) hleaf

/-- The path below a save path; nothing is put before it when that is empty or a dot. -/
def under (s p : List UInt8) : List UInt8 :=
  if s = [] ∨ s = [ascii '.'] then p else s ++ ascii '/' :: p

theorem appendPath_under (hs : s.getLast? ≠ some (ascii '/')) (hx : x ≠ []) :
    appendPath s x = under s x := by
  rw [appendPath, under]
  split_ifs <;> rfl

theorem under_append (s x y : List UInt8) :
    under s x ++ ascii '/' :: y = under s (x ++ ascii '/' :: y) := by
  rw [under, under]
  split_ifs <;> simp

theorem solid_under (hx : Solid x) : Solid (under s x) := by
  rw [under]
  split_ifs with h
  · exact hx
  · exact solid_append (not_or.mp h).1 hx.ne_nil hx.last

theorem filePathIn_of_represents (he : fs.files[i]? = some e) (h : fs.Represents e p)
    (hs : s.getLast? ≠ some (ascii '/')) : fs.filePathIn i s = under s p := by
  rw [filePathIn, List.getD_eq_getElem?_getD, he, Option.getD_some]
  cases h with
  | noPath index name hleaf =>
    rw [index, name]
    exact appendPath_under hs hleaf.ne_nil
  | noRoot index noRoot get hdir name hleaf =>
    simp only [index, noRoot, if_true, List.getD_eq_getElem?_getD, get, Option.getD_some, name]
    rw [appendPath_under hs hdir.ne_nil, appendPath_solid (solid_under hdir) hleaf.ne_nil,
      under_append]
  | @inRoot leaf dir k index noRoot get root last name hleaf =>
    simp only [index, noRoot, Bool.false_eq_true, if_false, List.getD_eq_getElem?_getD, get,
      Option.getD_some, name]
    rw [appendPath_under hs root.ne_nil, below]
    split_ifs with hdir
    · have hnil : appendPath (under s fs.name) dir = under s fs.name := by
        rw [hdir, appendPath, if_neg (not_or.mpr ⟨(solid_under root).ne_nil, (solid_under root).ne_dot⟩),
          if_pos rfl]
      rw [hnil, appendPath_solid (solid_under root) hleaf.ne_nil, under_append]
    · have hroot := solid_append (solid_under (s := s) root).ne_nil hdir last
      rw [appendPath_solid (solid_under root) hdir, appendPath_solid hroot hleaf.ne_nil, under_append,
        under_append]

/-- What is hashed: every save path that is not empty is put before the path. -/
theorem filePathHash_of_represents (crc : Crc) (he : fs.files[i]? = some e) (h : fs.Represents e p)
    (s : List UInt8) : fs.filePathHash crc i s =
      crc.ofString ((if s = [] then p else s ++ ascii '/' :: p).map toLower) := by
  have hsplit : ∀ q : List UInt8, (if s = [] then q else s ++ ascii '/' :: q) =
      (if s = [] then [] else s ++ [ascii '/']) ++ q := by
    intro q
    split_ifs <;> simp
  rw [filePathHash, List.getD_eq_getElem?_getD, he, Option.getD_some, Crc.ofString, hsplit]
  cases h with
  | noPath index name hleaf =>
    simp only [index, name, Crc.processStringLowercase_eq, Crc.processDirectory_eq, List.map_append,
      List.foldl_append]
  | @noRoot leaf dir k index noRoot get hdir name hleaf =>
    simp only [index, noRoot, if_true, List.getD_eq_getElem?_getD, get, Option.getD_some, name,
      Crc.processStringLowercase_eq, Crc.processDirectory_eq, if_neg hdir.ne_nil]
    rw [List.append_cons dir (ascii '/') leaf]
    simp only [List.map_append, List.foldl_append]
  | @inRoot leaf dir k index noRoot get root last name hleaf =>
    simp only [index, noRoot, Bool.false_eq_true, if_false, List.getD_eq_getElem?_getD, get,
      Option.getD_some, name, Crc.processStringLowercase_eq, Crc.processDirectory_eq,
      Crc.processByte_separator, below]
    by_cases hdir : dir = []
    · rw [if_pos hdir, if_pos hdir, List.append_cons fs.name (ascii '/') leaf]
      simp only [List.map_append, List.foldl_append, List.map_nil, List.foldl_nil]
    · rw [if_neg hdir, if_neg hdir, List.append_cons fs.name (ascii '/') dir,
        List.append_cons (fs.name ++ [ascii '/'] ++ dir) (ascii '/') leaf]
      simp only [List.map_append, List.foldl_append]

/-! ### Taking a path in -/

theorem setName_part (h : Part leaf) (e : FileEntry) : (e.setName leaf false).name = leaf := by
  refine List.takeWhile_eq_self_iff.mpr fun b hb => ?_
  simpa using fun heq : b = 0 => h.no_nul (heq ▸ hb)

/-- The directory of a path, and whether it is below the name of the torrent. -/
theorem directory_represents (hroot : Part root) (hinit : ∀ c ∈ init, Part c) :
    (fs.directory (joined (root :: init))).2 = false ∧
      (fs.directory (joined (root :: init))).1 = joined (root :: init) ∨
    (fs.directory (joined (root :: init))).2 = true ∧ fs.name = root ∧
      (fs.directory (joined (root :: init))).1.getLast? ≠ some (ascii '/') ∧
      below fs.name (fs.directory (joined (root :: init))).1 = joined (root :: init) := by
  have hfirst : lsplitPath (joined (root :: init)) = (root, joined init) := by
    by_cases hnil : init = []
    · rw [hnil, joined_singleton, lsplitPath_named hroot.toNamed]
      rfl
    · rw [joined_cons root hnil, lsplitPath_cons hroot.toNamed]
  rw [directory, hfirst]
  split
  · next hname =>
    right
    dsimp only at hname ⊢
    cases init with
    | nil =>
      refine ⟨rfl, hname.symm, by decide, ?_⟩
      rw [joined_singleton, hname]
      rfl
    | cons d init =>
      obtain ⟨hd, hinit⟩ := List.forall_mem_cons.mp hinit
      have hsolid := (relativePath_joined hd hinit).solid
      have hdrop : (joined (d :: init)).dropWhile (· = ascii '/') = joined (d :: init) := by
        have hhead := head?_joined hd init
        cases hj : joined (d :: init) with
        | nil => rfl
        | cons b bs =>
          rw [hj] at hhead
          rw [List.dropWhile_cons_of_neg]
          simpa using fun heq : b = ascii '/' => hhead (heq ▸ rfl)
      rw [hdrop, below, if_neg hsolid.ne_nil, joined_cons root (List.cons_ne_nil _ _), hname]
      exact ⟨rfl, rfl, hsolid.last, rfl⟩
  · exact .inl ⟨rfl, rfl⟩

/-- After `update_path_index` the entry stands for the path, and nothing else has changed but that a
directory may have been added. -/
theorem updatePathIndex_represents (fs : FileStorage) (e : FileEntry) (h : RelativePath p) :
    (fs.updatePathIndex e p true).1.Represents (fs.updatePathIndex e p true).2 p ∧
      fs.paths <+: (fs.updatePathIndex e p true).1.paths ∧
      (fs.updatePathIndex e p true).2.size = e.size ∧
      (fs.updatePathIndex e p true).2.offset = e.offset := by
  rw [updatePathIndex]
  rcases h.cases with hp | ⟨root, init, leaf, hroot, hinit, hleaf, rfl⟩
  · have hcomplete : ¬ isComplete p = true := by
      rw [isComplete, decide_eq_true_eq]
      exact hp.toNamed.head?_ne
    rw [if_neg hcomplete, rsplitPath_named hp.toNamed]
    dsimp only
    rw [if_pos rfl, if_pos rfl]
    exact ⟨.noPath rfl (setName_part hp e) hp.solid, List.prefix_rfl, rfl, rfl⟩
  · have hbranch := joined_ne_nil hroot init
    have hcomplete : ¬ isComplete (joined (root :: init) ++ ascii '/' :: leaf) = true := by
      rw [isComplete, decide_eq_true_eq, List.head?_append_of_ne_nil _ hbranch]
      exact head?_joined hroot init
    rw [if_neg hcomplete, rsplitPath_eq hleaf.toNamed]
    dsimp only
    rw [if_neg hbranch, if_pos rfl]
    have hdirectory := @directory_represents root init fs hroot hinit
    generalize fs.directory (joined (root :: init)) = d at hdirectory ⊢
    obtain ⟨dir, inRoot⟩ := d
    dsimp only at hdirectory ⊢
    obtain ⟨hget, hprefix⟩ := getOrAddPath_get fs dir
    have hname : (fs.getOrAddPath dir).1.name = fs.name := by rw [getOrAddPath_eq]
    refine ⟨?_, hprefix, rfl, rfl⟩
    rcases hdirectory with ⟨rfl, rfl⟩ | ⟨rfl, hfs, hlast, hbelow⟩
    · exact .noRoot rfl rfl hget (relativePath_joined hroot hinit).solid (setName_part hleaf e)
        hleaf.solid
    · rw [← hbelow, ← hname]
      rw [← hname] at hfs
      exact .inRoot rfl rfl hget (hfs ▸ hroot.solid) hlast (setName_part hleaf e) hleaf.solid

/-! ## Files added and renamed -/

/-- A storage that has been made by adding and renaming files, and the path last given for each.
`allowed` says which paths may be added. -/
inductive Made (allowed : FileStorage → List UInt8 → Prop) :
    FileStorage → List (List UInt8) → Prop
  | start {fs : FileStorage} (files : fs.files = []) : Made allowed fs []
  | addFile {fs fs' : FileStorage} {ps : List (List UInt8)} {p : List UInt8} {size : ℕ}
      (h : Made allowed fs ps) (hp : RelativePath p) (hallowed : allowed fs p)
      (hadd : fs.addFile p size = .ok fs') : Made allowed fs' (ps ++ [p])
  | renameFile {fs : FileStorage} {ps : List (List UInt8)} {p : List UInt8} {i : ℕ}
      (h : Made allowed fs ps) (hp : RelativePath p) (hi : i < fs.files.length) :
      Made allowed (fs.renameFile i p) (ps.set i p)

/-- All files share a directory: `add_file` asserts that a path without a parent is the only one. -/
def SharesRoot (fs : FileStorage) (p : List UInt8) : Prop := hasParentPath p = true ∨ fs.files = []

/-- Every entry stands for the path that was given. -/
def Kept (fs : FileStorage) (ps : List (List UInt8)) : Prop := List.Forall₂ fs.Represents fs.files ps

variable {ps : List (List UInt8)} {size : ℕ}

theorem forall₂_set {α β : Type*} {R : α → β → Prop} {l : List α} {l' : List β} {a : α} {b : β}
    (h : List.Forall₂ R l l') (hab : R a b) (i : ℕ) : List.Forall₂ R (l.set i a) (l'.set i b) := by
  induction h generalizing i with
  | nil => exact .nil
  | cons hr h ih =>
    cases i with
    | zero => exact .cons hab h
    | succ i => exact .cons hr (ih i)

theorem Kept.congr (h : fs.Kept ps) (hname : fs.files ≠ [] → fs'.name = fs.name)
    (hpaths : fs.paths <+: fs'.paths) : List.Forall₂ fs'.Represents fs.files ps := by
  by_cases hnil : fs.files = []
  · rw [Kept, hnil] at h
    rw [hnil]
    cases h
    exact .nil
  · exact List.Forall₂.imp (fun _ _ he => he.congr (hname hnil) hpaths rfl rfl rfl) h

theorem Kept.renameFile (h : fs.Kept ps) (hp : RelativePath p) (i : ℕ) :
    (fs.renameFile i p).Kept (ps.set i p) := by
  obtain ⟨hrep, hpaths, -, -⟩ := updatePathIndex_represents fs (fs.files.getD i {}) hp
  have hname : (fs.updatePathIndex (fs.files.getD i {}) p true).1.name = fs.name := by
    rw [updatePathIndex_eq]
  rw [Kept, FileStorage.renameFile]
  generalize fs.updatePathIndex (fs.files.getD i {}) p true = r at hrep hpaths hname ⊢
  obtain ⟨fs₁, e⟩ := r
  dsimp only at hrep hpaths hname ⊢
  have hold : ∀ fs₂ : FileStorage, fs₂.name = fs₁.name → fs₂.paths = fs₁.paths →
      List.Forall₂ fs₂.Represents fs.files ps :=
    fun fs₂ hname₂ hpaths₂ => h.congr (fun _ => hname₂.trans hname) (hpaths₂ ▸ hpaths)
  refine forall₂_set ?_ ?_ i
  · exact hold _ rfl rfl
  · exact hrep.congr rfl List.prefix_rfl rfl rfl rfl

theorem withName_shares (h : fs.SharesRoot p) (hfiles : fs.files ≠ []) :
    (fs.withName p).name = fs.name := by
  rcases h with hparent | hnil
  · rw [withName, if_pos hparent, if_neg hfiles]
  · exact absurd hnil hfiles

theorem Kept.addFile (h : fs.Kept ps) (hp : RelativePath p) (hshares : fs.SharesRoot p)
    (hadd : fs.addFile p size = .ok fs') : fs'.Kept (ps ++ [p]) := by
  obtain ⟨-, -, rfl⟩ := addFileBorrow_ok hadd
  have hentry : fs.newEntry [] p = (fs.withName p).updatePathIndex {} p true := rfl
  obtain ⟨hrep, hpaths, -, -⟩ := updatePathIndex_represents (fs.withName p) {} hp
  have hfiles : ((fs.withName p).updatePathIndex {} p true).1.files = fs.files := by
    rw [updatePathIndex_eq]
    exact withName_files fs p
  have hname : fs.files ≠ [] →
      ((fs.withName p).updatePathIndex {} p true).1.name = fs.name := by
    rw [updatePathIndex_eq]
    exact withName_shares hshares
  rw [withName_paths] at hpaths
  rw [Kept, hentry]
  generalize (fs.withName p).updatePathIndex {} p true = r at hrep hpaths hfiles hname ⊢
  obtain ⟨fs₁, e⟩ := r
  dsimp only at hrep hpaths hfiles hname ⊢
  rw [hfiles]
  have hold : ∀ fs₂ : FileStorage, fs₂.name = fs₁.name → fs₂.paths = fs₁.paths →
      List.Forall₂ fs₂.Represents fs.files ps :=
    fun fs₂ hname₂ hpaths₂ => h.congr (fun hne => hname₂.trans (hname hne)) (hpaths₂ ▸ hpaths)
  refine List.rel_append ?_ (.cons ?_ .nil)
  · exact hold _ rfl rfl
  · exact hrep.congr rfl List.prefix_rfl rfl rfl rfl

theorem kept_of_made (h : Made SharesRoot fs ps) : fs.Kept ps := by
  induction h with
  | start hfiles =>
    rw [Kept, hfiles]
    exact .nil
  | addFile h hp hallowed hadd ih => exact ih.addFile hp hallowed hadd
  | renameFile h hp hi ih => exact ih.renameFile hp _

/-- The paths, sizes and offsets that a storage gives for its files, when `ps` are the paths last
given for them. -/
structure Faithful (fs : FileStorage) (ps : List (List UInt8)) : Prop where
  length_eq : fs.files.length = ps.length
  filePath : ∀ (i : ℕ) p, ps[i]? = some p → fs.filePathIn i [] = p
  savePath : ∀ (i : ℕ) s, i < ps.length → s.getLast? ≠ some (ascii '/') →
    s ≠ [] → s ≠ [ascii '.'] → fs.filePathIn i s = s ++ ascii '/' :: fs.filePathIn i []
  here : ∀ (i : ℕ) s, i < ps.length → s = [] ∨ s = [ascii '.'] →
    fs.filePathIn i s = fs.filePathIn i []
  hash : ∀ (crc : Crc) (i : ℕ) s, i < ps.length → s.getLast? ≠ some (ascii '/') →
    s ≠ [ascii '.'] → fs.filePathHash crc i s = crc.ofString ((fs.filePathIn i s).map toLower)
  rename : ∀ (i : ℕ) p, RelativePath p → i < ps.length →
    (∀ j, j ≠ i → j < ps.length → (fs.renameFile i p).filePathIn j [] = fs.filePathIn j []) ∧
    (fs.renameFile i p).files.map FileEntry.size = fs.files.map FileEntry.size ∧
    (fs.renameFile i p).files.map FileEntry.offset = fs.files.map FileEntry.offset

theorem Kept.get (h : fs.Kept ps) (hp : ps[i]? = some p) :
    ∃ e, fs.files[i]? = some e ∧ fs.Represents e p := by
  obtain ⟨hlen, hget⟩ := List.forall₂_iff_get.mp h
  obtain ⟨hi, rfl⟩ := List.getElem?_eq_some_iff.mp hp
  exact ⟨fs.files[i], List.getElem?_eq_getElem (hlen ▸ hi), hget i (hlen ▸ hi) hi⟩

/-- Renaming keeps a quantity that `update_path_index` does not touch. -/
theorem map_renameFile {α : Type*} (f : FileEntry → α) (hi : i < fs.files.length)
    (h : f (fs.updatePathIndex (fs.files.getD i {}) p true).2 = f (fs.files.getD i {})) :
    (fs.renameFile i p).files.map f = fs.files.map f := by
  have hget : fs.files.getD i {} = fs.files[i] := by
    rw [List.getD_eq_getElem?_getD, List.getElem?_eq_getElem hi, Option.getD_some]
  rw [renameFile]
  dsimp only
  rw [List.map_set, h, hget, ← List.map_set, List.set_getElem_self]

theorem Kept.faithful (h : fs.Kept ps) : fs.Faithful ps := by
  have hlen := h.length_eq
  have hpath : ∀ (i : ℕ) p s, ps[i]? = some p → s.getLast? ≠ some (ascii '/') →
      fs.filePathIn i s = under s p := by
    intro i p s hp hs
    obtain ⟨e, he, hrep⟩ := h.get hp
    exact filePathIn_of_represents he hrep hs
  have hfile : ∀ (i : ℕ) p, ps[i]? = some p → fs.filePathIn i [] = p := by
    intro i p hp
    exact (hpath i p [] hp (by decide)).trans (if_pos (.inl rfl))
  refine ⟨hlen, hfile, ?_, ?_, ?_, ?_⟩
  · intro i s hi hs hnil hdot
    have hp := List.getElem?_eq_getElem hi
    rw [hpath i _ s hp hs, hfile i _ hp, under, if_neg (not_or.mpr ⟨hnil, hdot⟩)]
  · intro i s hi hs
    have hp := List.getElem?_eq_getElem hi
    have hlast : s.getLast? ≠ some (ascii '/') := by
      rcases hs with rfl | rfl <;> decide
    rw [hpath i _ s hp hlast, hfile i _ hp, under, if_pos hs]
  · intro crc i s hi hs hdot
    have hp := List.getElem?_eq_getElem hi
    obtain ⟨e, he, hrep⟩ := h.get hp
    rw [filePathHash_of_represents crc he hrep, hpath i _ s hp hs, under]
    simp only [hdot, or_false]
  · intro i p hp hi
    obtain ⟨-, -, hsize, hoffset⟩ := updatePathIndex_represents fs (fs.files.getD i {}) hp
    refine ⟨?_, map_renameFile _ (hlen ▸ hi) hsize, map_renameFile _ (hlen ▸ hi) hoffset⟩
    intro j hj hjlen
    have hget := List.getElem?_eq_getElem hjlen
    obtain ⟨e, he, hrep⟩ := (h.renameFile hp i).get (by rw [List.getElem?_set_ne hj.symm]; exact hget)
    rw [hfile j _ hget, filePathIn_of_represents he hrep (by decide)]
    exact if_pos (.inl rfl)

/-- In every storage made by adding and renaming files below one directory, the paths are those that
were last given, and a rename leaves the other files alone. -/
theorem faithful_of_made (h : Made SharesRoot fs ps) : fs.Faithful ps :=
  (kept_of_made h).faithful

/-- `a/b` is added to an empty storage. -/
def oneFile : FileStorage :=
  { totalSize := 1, name := [ascii 'a'], paths := [[]],
    files := [{ name := [ascii 'b'], pathIndex := .path 0, size := 1 }] }

theorem part_letter {c : UInt8} (h : c ≠ ascii '/' ∧ c ≠ 0 ∧ c ≠ ascii '.') : Part [c] where
  ne_nil := List.cons_ne_nil _ _
  not_mem := fun hmem => h.1 (List.mem_singleton.mp hmem).symm
  no_nul := fun hmem => h.2.1 (List.mem_singleton.mp hmem).symm
  ne_dot := fun heq => h.2.2 (List.cons.inj heq).1

theorem relativePath_letter {c : UInt8} (h : c ≠ ascii '/' ∧ c ≠ 0 ∧ c ≠ ascii '.') :
    RelativePath [c] :=
  ⟨[[c]], List.cons_ne_nil _ _, List.forall_mem_singleton.mpr (part_letter h), rfl⟩

theorem made_oneFile (allowed : FileStorage → List UInt8 → Prop)
    (h : allowed {} [ascii 'a', ascii '/', ascii 'b']) :
    Made allowed oneFile [[ascii 'a', ascii '/', ascii 'b']] := by
  refine @Made.addFile _ {} _ [] _ 1 (.start rfl) ⟨[[ascii 'a'], [ascii 'b']], by simp, ?_, rfl⟩ h rfl
  exact List.forall_mem_cons.mpr ⟨part_letter (by decide),
    List.forall_mem_singleton.mpr (part_letter (by decide))⟩

/-- `a/d` is added to it. -/
def twoFiles : FileStorage :=
  { oneFile with
    totalSize := 2
    files := oneFile.files ++ [{ name := [ascii 'd'], pathIndex := .path 0, size := 1, offset := 1 }] }

/-- The first one of the files `a/b` and `a/d`, renamed to `c`. -/
theorem faithful_renamed :
    (twoFiles.renameFile 0 [ascii 'c']).Faithful [[ascii 'c'], [ascii 'a', ascii '/', ascii 'd']] := by
  have htwo : Made SharesRoot twoFiles [[ascii 'a', ascii '/', ascii 'b'], [ascii 'a', ascii '/', ascii 'd']] := by
    refine @Made.addFile _ oneFile _ [_] _ 1 (made_oneFile SharesRoot (.inr rfl))
      ⟨[[ascii 'a'], [ascii 'd']], by simp, ?_, rfl⟩ ?_ rfl
    · exact List.forall_mem_cons.mpr ⟨part_letter (by decide), List.forall_mem_singleton.mpr (part_letter (by decide))⟩
    · exact .inl (by decide)
  exact faithful_of_made (.renameFile htwo (relativePath_letter (by decide)) (by decide))

/-- The checksum with the polynomial of the source, bit by bit: bytes are reflected, and so is the
remainder. -/
def crc32c : Crc where
  State := UInt32
  init := 0xFFFFFFFF
  processByte s c :=
    (List.range 8).foldl (fun s _ => if s % 2 = 1 then (s / 2) ^^^ 0x82F63B78 else s / 2)
      (s ^^^ c.toUInt32)
  checksum s := s ^^^ 0xFFFFFFFF

/-- A second file without a directory gives the first another path; nothing is put before a path
when the save path is empty or a dot; and a dot is hashed all the same. -/
theorem not_faithful :
    (¬ ∀ fs ps, Made (fun _ _ => True) fs ps → ∀ i p, ps[i]? = some p → fs.filePathIn i [] = p) ∧
    (¬ ∀ fs ps, Made SharesRoot fs ps → ∀ i s, i < ps.length → s.getLast? ≠ some (ascii '/') →
      fs.filePathIn i s = s ++ ascii '/' :: fs.filePathIn i []) ∧
    ¬ ∀ fs ps, Made SharesRoot fs ps → ∀ (crc : Crc) i s, i < ps.length →
      s.getLast? ≠ some (ascii '/') →
      fs.filePathHash crc i s = crc.ofString ((fs.filePathIn i s).map toLower) := by
  refine ⟨?_, ?_, ?_⟩
  · intro h
    have hmade : Made (fun _ _ => True)
        { oneFile with
          totalSize := 2
          name := [ascii 'c']
          files := oneFile.files ++ [{ name := [ascii 'c'], size := 1, offset := 1 }] }
        [[ascii 'a', ascii '/', ascii 'b'], [ascii 'c']] :=
      @Made.addFile _ oneFile _ [_] _ 1 (made_oneFile _ trivial) (relativePath_letter (by decide))
        trivial rfl
    exact absurd (h _ _ hmade 0 _ rfl) (by decide)
  · intro h
    exact absurd (h oneFile _ (made_oneFile SharesRoot (.inr rfl)) 0 [] (by decide) (by decide))
      (by decide)
  · intro h
    exact absurd (h oneFile _ (made_oneFile SharesRoot (.inr rfl)) crc32c 0 [ascii '.'] (by decide)
      (by decide)) (by decide +kernel)

end FileStorage

end Info

end Torrent

end LibtorrentSN
