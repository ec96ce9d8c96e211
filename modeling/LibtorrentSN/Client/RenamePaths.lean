import Mathlib

/-!
# The paths of a rename

The file list of a torrent is a tree of rows. When the label of a row is edited, the files at or below the row are
renamed to new paths (`gtk/FileList.cc`).
-/

namespace LibtorrentSN

namespace Client

/-- A row of the tree store. A row without children is a file, and a directory has the index -1. -/
inductive FileRow
  | mk (label : List Char) (index : ℤ) (children : List FileRow)

namespace FileRow

def label : FileRow → List Char
  | mk label _ _ => label

def index : FileRow → ℤ
  | mk _ index _ => index

def children : FileRow → List FileRow
  | mk _ _ children => children

end FileRow

/-- An iterator: a row, and the rows above it from the nearest on. -/
structure RowIter where
  row : FileRow
  parents : List FileRow

/-- `get_iter`, with the numbers of the path string. -/
def getIter (parents : List FileRow) (rows : List FileRow) : List ℕ → Option RowIter
  | [] => none
  | [i] => rows[i]?.map fun row => ⟨row, parents⟩
  | i :: rest => rows[i]?.bind fun row => getIter (row :: parents) row.children rest

/-- `newname.find(G_DIR_SEPARATOR)` as a condition: only the position 0 is false, `npos` is not. -/
def findSeparator (newname : List Char) : Bool := newname.findIdx? (· = '/') ≠ some 0

/-- The loop of `build_renamed_path`. -/
def climb : List FileRow → List Char → List Char
  | [], tgtpath => '/' :: tgtpath
  | parent :: parents, tgtpath => climb parents (parent.label ++ '/' :: tgtpath)

def buildRenamedPath (iter : RowIter) (newname : List Char) (isDirCase : Bool) : List Char :=
  if isDirCase then
    let tgtpath := newname ++ '/' :: iter.row.label
    if findSeparator newname then tgtpath
    else
      match iter.parents with
      | [] => tgtpath
      | _ :: parents => (climb parents tgtpath).drop 1
  else (climb iter.parents newname).drop 1

mutual

/-- A turn of the loop of `gather_files`. -/
def gatherRow (parents : List FileRow) (newname : List Char) : FileRow → List (ℤ × List Char)
  | .mk label index [] => [(index, buildRenamedPath ⟨.mk label index [], parents⟩ newname true)]
  | .mk label index (child :: children) =>
    gatherRows (.mk label index (child :: children) :: parents)
      (buildRenamedPath ⟨.mk label index (child :: children), parents⟩ newname true) (child :: children)

def gatherRows (parents : List FileRow) (newname : List Char) : List FileRow → List (ℤ × List Char)
  | [] => []
  | row :: rows => gatherRow parents newname row ++ gatherRows parents newname rows

end

def gatherFiles (dirIter : RowIter) (newname : List Char) : List (ℤ × List Char) :=
  gatherRows (dirIter.row :: dirIter.parents) newname dirIter.row.children

/-- The files that `cell_edited_callback` renames, with their new paths. -/
def filesToRename (iter : RowIter) (newname : List Char) : List (ℤ × List Char) :=
  if iter.row.children = [] then [(iter.row.index, buildRenamedPath iter newname false)]
  else gatherFiles iter newname

/-! ### What a rename means -/

/-- A file of the tree, with its position and the labels from the root down to it. -/
structure FileEntry where
  position : List ℕ
  index : ℤ
  labels : List (List Char)

mutual

/-- The files at or below a row. -/
def FileRow.files (position : List ℕ) (labels : List (List Char)) : FileRow → List FileEntry
  | .mk label index [] => [⟨position, index, labels ++ [label]⟩]
  | .mk label _ (child :: children) => filesFrom position 0 (labels ++ [label]) (child :: children)

/-- The files of the rows of a directory, from a number on. -/
def filesFrom (position : List ℕ) (i : ℕ) (labels : List (List Char)) : List FileRow → List FileEntry
  | [] => []
  | row :: rows => row.files (position ++ [i]) labels ++ filesFrom position (i + 1) labels rows

end

def filesOf (store : List FileRow) : List FileEntry := filesFrom [] 0 [] store

/-- A path with separators between its components. -/
def joinPath (labels : List (List Char)) : List Char := List.intercalate ['/'] labels

/-- The rename of a row: each file at or below it, with the label of the row replaced in its full path. -/
def renamed (store : List FileRow) (path : List ℕ) (newname : List Char) : List (ℤ × List Char) :=
  ((filesOf store).filter fun f => path <+: f.position).map fun f =>
    (f.index, joinPath (f.labels.set (path.length - 1) newname))

variable {parents rows store : List FileRow} {row : FileRow} {iter : RowIter} {newname : List Char} {position path : List ℕ}
  {labels : List (List Char)} {i : ℕ} {f : FileEntry}

/-! ### The files below a row -/

mutual

/-- The position and the labels of a file go on from those of the row. -/
theorem FileRow.mem_files : ∀ (row : FileRow) (position : List ℕ) (labels : List (List Char)),
    ∀ f ∈ row.files position labels, position <+: f.position ∧ labels ++ [row.label] <+: f.labels
  | .mk label index [], position, labels, f, hf => by
    rw [FileRow.files, List.mem_singleton] at hf
    subst hf
    exact ⟨List.prefix_refl _, List.prefix_refl _⟩
  | .mk label index (child :: children), position, labels, f, hf => by
    rw [FileRow.files] at hf
    obtain ⟨j, -, hposition, hlabels⟩ := mem_filesFrom (child :: children) position 0 (labels ++ [label]) f hf
    exact ⟨(List.prefix_append _ _).trans hposition, hlabels⟩

theorem mem_filesFrom : ∀ (rows : List FileRow) (position : List ℕ) (i : ℕ) (labels : List (List Char)),
    ∀ f ∈ filesFrom position i labels rows, ∃ j, i ≤ j ∧ position ++ [j] <+: f.position ∧ labels <+: f.labels
  | [], position, i, labels, f, hf => by
    rw [filesFrom] at hf
    cases hf
  | row :: rows, position, i, labels, f, hf => by
    rw [filesFrom, List.mem_append] at hf
    obtain hf | hf := hf
    · obtain ⟨hposition, hlabels⟩ := FileRow.mem_files row (position ++ [i]) labels f hf
      exact ⟨i, Nat.le_refl i, hposition, (List.prefix_append _ _).trans hlabels⟩
    · obtain ⟨j, hj, h⟩ := mem_filesFrom rows position (i + 1) labels f hf
      exact ⟨j, by omega, h⟩

end

mutual

/-- There is a file at or below each row. -/
theorem FileRow.files_ne_nil : ∀ (row : FileRow) (position : List ℕ) (labels : List (List Char)),
    row.files position labels ≠ []
  | .mk label index [], position, labels => by
    rw [FileRow.files]
    exact List.cons_ne_nil _ _
  | .mk label index (child :: children), position, labels => by
    rw [FileRow.files, filesFrom]
    exact List.append_ne_nil_of_left_ne_nil (FileRow.files_ne_nil child _ _) _

end

theorem eq_of_prefix {i j : ℕ} {q : List ℕ} (hi : position ++ [i] <+: q) (hj : position ++ [j] <+: q) : i = j := by
  obtain h | h := List.prefix_or_prefix_of_prefix hi hj
  all_goals
    have heq := List.IsPrefix.eq_of_length h (by simp)
    have hlast := List.append_cancel_left heq
    cases hlast
    rfl

/-- Only the row with the number of a path has files below the path. -/
theorem filter_filesFrom {k : ℕ} (hrow : rows[i]? = some row) (hpath : position ++ [k + i] <+: path) :
    (filesFrom position k labels rows).filter (fun f => path <+: f.position) =
      (row.files (position ++ [k + i]) labels).filter fun f => path <+: f.position := by
  induction rows generalizing k i with
  | nil => cases hrow
  | cons r rows ih =>
    rw [filesFrom, List.filter_append]
    cases i with
    | zero =>
      obtain rfl := Option.some.inj hrow
      have hnone : (filesFrom position (k + 1) labels rows).filter (fun f => path <+: f.position) = [] := by
        rw [List.filter_eq_nil_iff]
        intro f hf hprefix
        obtain ⟨j, hj, hposition, -⟩ := mem_filesFrom rows position (k + 1) labels f hf
        have := eq_of_prefix (hpath.trans (of_decide_eq_true hprefix)) hposition
        omega
      rw [hnone, List.append_nil]
      rfl
    | succ i =>
      have hnone : (r.files (position ++ [k]) labels).filter (fun f => path <+: f.position) = [] := by
        rw [List.filter_eq_nil_iff]
        intro f hf hprefix
        have hposition := (FileRow.mem_files r (position ++ [k]) labels f hf).1
        have := eq_of_prefix (hpath.trans (of_decide_eq_true hprefix)) hposition
        omega
      have hnumber : k + (i + 1) = k + 1 + i := by omega
      rw [hnone, List.nil_append, hnumber, ih (by simpa using hrow) (hnumber ▸ hpath)]

/-- The files below a path are those of the row that is found there. -/
theorem filter_getIter (h : getIter parents rows path = some iter) :
    (filesFrom position 0 (parents.reverse.map FileRow.label) rows).filter (fun f => position ++ path <+: f.position) =
      iter.row.files (position ++ path) (iter.parents.reverse.map FileRow.label) := by
  induction path generalizing parents rows position with
  | nil => cases h
  | cons i rest ih =>
    cases rest with
    | nil =>
      obtain ⟨row, hrow, rfl⟩ := Option.map_eq_some_iff.mp h
      rw [filter_filesFrom hrow (by rw [Nat.zero_add]), Nat.zero_add]
      refine List.filter_eq_self.mpr fun f hf => ?_
      exact decide_eq_true (FileRow.mem_files row _ _ f hf).1
    | cons j rest =>
      obtain ⟨row, hrow, hrest⟩ := Option.bind_eq_some_iff.mp h
      have hassoc : position ++ i :: j :: rest = position ++ [i] ++ j :: rest := by simp
      rw [filter_filesFrom hrow (by rw [Nat.zero_add, hassoc]; exact List.prefix_append _ _), Nat.zero_add, hassoc]
      obtain ⟨label, index, children⟩ := row
      cases children with
      | nil =>
        cases rest <;> cases hrest
      | cons child children =>
        have := @ih (.mk label index (child :: children) :: parents) (child :: children) (position ++ [i]) hrest
        rw [FileRow.files]
        rwa [List.reverse_cons, List.map_append] at this

/-! ### Paths -/

/-- A path below a directory. -/
def below (dir : List Char) (labels : List (List Char)) : List Char := dir ++ labels.flatMap ('/' :: ·)

theorem joinPath_cons (label : List Char) (labels : List (List Char)) : joinPath (label :: labels) = below label labels := by
  induction labels generalizing label with
  | nil => rw [joinPath, List.intercalate_singleton, below, List.flatMap_nil, List.append_nil]
  | cons next labels ih =>
    rw [joinPath, List.intercalate_cons_cons, below, List.flatMap_cons, List.append_assoc]
    congr 1
    exact congrArg ('/' :: ·) (ih next)

theorem below_below (dir label : List Char) (labels : List (List Char)) :
    below (dir ++ '/' :: label) labels = below dir (label :: labels) := by
  rw [below, below, List.flatMap_cons, List.append_assoc]

theorem joinPath_append (label : List Char) (labels rest : List (List Char)) :
    joinPath (label :: labels ++ rest) = below (joinPath (label :: labels)) rest := by
  rw [List.cons_append, joinPath_cons, joinPath_cons, below, below, below, List.flatMap_append, List.append_assoc]

theorem joinPath_last (labels : List (List Char)) (dir label : List Char) :
    joinPath (labels ++ [dir ++ '/' :: label]) = joinPath (labels ++ [dir] ++ [label]) := by
  cases labels with
  | nil =>
    rw [List.nil_append, List.nil_append, List.singleton_append, joinPath_cons, joinPath_cons, below_below]
  | cons first labels =>
    rw [List.cons_append, List.cons_append, List.cons_append, joinPath_cons, joinPath_cons, below, below]
    simp only [List.flatMap_append, List.flatMap_cons, List.flatMap_nil, List.append_nil, List.nil_append, List.append_assoc,
      List.cons_append]

/-- The walk up to the root. -/
theorem climb_eq (tgtpath : List Char) :
    climb parents tgtpath = '/' :: joinPath (parents.reverse.map FileRow.label ++ [tgtpath]) := by
  induction parents generalizing tgtpath with
  | nil => rw [climb, List.reverse_nil, List.map_nil, List.nil_append, joinPath, List.intercalate_singleton]
  | cons parent parents ih =>
    rw [climb, ih, List.reverse_cons, List.map_append, joinPath_last]
    rfl

/-- A name that does not begin with a separator. -/
def Plain (newname : List Char) : Prop := ∃ c rest, newname = c :: rest ∧ c ≠ '/'

theorem Plain.findSeparator (h : Plain newname) : findSeparator newname = true := by
  obtain ⟨c, rest, rfl, hc⟩ := h
  rw [Client.findSeparator, List.findIdx?_cons, if_neg (by simpa using hc)]
  cases rest.findIdx? (· = '/') <;> rfl

/-- Only the new name and the label make the path of a row below a directory. -/
theorem buildRenamedPath_dir (h : Plain newname) : buildRenamedPath iter newname true = newname ++ '/' :: iter.row.label := by
  rw [buildRenamedPath, if_pos rfl]
  dsimp only
  rw [if_pos h.findSeparator]

theorem Plain.append (h : Plain newname) (label : List Char) : Plain (newname ++ '/' :: label) := by
  obtain ⟨c, rest, rfl, hc⟩ := h
  exact ⟨c, _, rfl, hc⟩

mutual

theorem gatherRow_eq : ∀ (row : FileRow) (parents : List FileRow) (newname : List Char) (position : List ℕ)
    (labels : List (List Char)), Plain newname →
    gatherRow parents newname row =
      (row.files position labels).map fun f => (f.index, below newname (f.labels.drop labels.length))
  | .mk label index [], parents, newname, position, labels, h => by
    rw [gatherRow, FileRow.files, buildRenamedPath_dir h, List.map_singleton, List.drop_left, below, List.flatMap_singleton]
    rfl
  | .mk label index (child :: children), parents, newname, position, labels, h => by
    rw [gatherRow, FileRow.files, buildRenamedPath_dir h,
      gatherRows_eq (child :: children) _ _ position 0 (labels ++ [label]) (h.append _)]
    refine List.map_congr_left fun f hf => ?_
    obtain ⟨-, -, -, rest, hrest⟩ := mem_filesFrom _ _ _ _ f hf
    rw [← hrest, List.drop_left, below_below, List.append_assoc, List.drop_left]
    rfl

theorem gatherRows_eq : ∀ (rows : List FileRow) (parents : List FileRow) (newname : List Char) (position : List ℕ) (i : ℕ)
    (labels : List (List Char)), Plain newname →
    gatherRows parents newname rows =
      (filesFrom position i labels rows).map fun f => (f.index, below newname (f.labels.drop labels.length))
  | [], parents, newname, position, i, labels, h => by rw [gatherRows, filesFrom, List.map_nil]
  | row :: rows, parents, newname, position, i, labels, h => by
    rw [gatherRows, filesFrom, List.map_append, gatherRow_eq row parents newname (position ++ [i]) labels h,
      gatherRows_eq rows parents newname position (i + 1) labels h]

end

/-! ### The rename of a row -/

theorem getIter_parents (h : getIter parents rows path = some iter) :
    iter.parents.length + 1 = parents.length + path.length := by
  induction path generalizing parents rows with
  | nil => cases h
  | cons i rest ih =>
    cases rest with
    | nil =>
      obtain ⟨row, -, rfl⟩ := Option.map_eq_some_iff.mp h
      rfl
    | cons j rest =>
      obtain ⟨row, -, hrest⟩ := Option.bind_eq_some_iff.mp h
      have hlength := ih hrest
      rw [List.length_cons] at hlength ⊢
      omega

/-- What a rename means, from the row on. -/
theorem renamed_eq (h : getIter [] store path = some iter) :
    renamed store path newname = (iter.row.files path (iter.parents.reverse.map FileRow.label)).map fun f =>
      (f.index, joinPath (iter.parents.reverse.map FileRow.label ++ newname :: f.labels.drop (iter.parents.length + 1))) := by
  have hlength := getIter_parents h
  have hfiles := @filter_getIter [] store iter [] path h
  rw [List.nil_append, List.reverse_nil, List.map_nil] at hfiles
  rw [renamed, filesOf, hfiles]
  refine List.map_congr_left fun f hf => ?_
  obtain ⟨-, rest, hrest⟩ := FileRow.mem_files _ _ _ f hf
  generalize hlabels : iter.parents.reverse.map FileRow.label = labels at hrest ⊢
  have hlen : labels.length = iter.parents.length := by
    rw [← hlabels, List.length_map, List.length_reverse]
  have hpath : path.length - 1 = labels.length := by
    rw [List.length_nil] at hlength
    omega
  rw [← hrest, hpath, ← hlen, List.append_assoc, List.set_append_right _ _ (Nat.le_refl _), Nat.sub_self,
    ← List.append_assoc, List.drop_left' (by simp)]
  rfl

/-- The new path of a file. -/
theorem filesToRename_file (h : getIter [] store path = some iter) (hfile : iter.row.children = []) :
    filesToRename iter newname = renamed store path newname := by
  rw [renamed_eq h, filesToRename, if_pos hfile, buildRenamedPath, if_neg Bool.false_ne_true, climb_eq]
  obtain ⟨⟨label, index, children⟩, parents⟩ := iter
  change children = [] at hfile
  subst hfile
  have hdrop : (parents.reverse.map FileRow.label ++ [label]).drop (parents.length + 1) = [] :=
    List.drop_eq_nil_of_le (by simp)
  rw [FileRow.files, List.map_singleton]
  dsimp only
  rw [hdrop]
  rfl

/-- The new paths of the files of a directory begin with the new name. -/
theorem filesToRename_dir (h : getIter [] store path = some iter) (hdir : iter.row.children ≠ []) (hname : Plain newname) :
    filesToRename iter newname = (iter.row.files path (iter.parents.reverse.map FileRow.label)).map fun f =>
      (f.index, below newname (f.labels.drop (iter.parents.length + 1))) := by
  rw [filesToRename, if_neg hdir, gatherFiles]
  obtain ⟨⟨label, index, children⟩, parents⟩ := iter
  change children ≠ [] at hdir
  obtain ⟨child, children, rfl⟩ := List.exists_cons_of_ne_nil hdir
  rw [FileRow.files, FileRow.children, gatherRows_eq _ _ _ path 0 (parents.reverse.map FileRow.label ++ [label]) hname]
  simp only [List.length_append, List.length_map, List.length_reverse, List.length_singleton]

/-- The directories above are missing then. -/
theorem not_perm_below (hname : row.files path labels ≠ []) (label : List Char) (rest : List (List Char)) (n : ℕ) :
    ¬ ((row.files path labels).map fun f => (f.index, below newname (f.labels.drop n))).Perm
      ((row.files path labels).map fun f => (f.index, joinPath (label :: rest ++ newname :: f.labels.drop n))) := by
  intro hperm
  have hsum := (hperm.map fun r => r.2.length).sum_eq
  rw [List.map_map, List.map_map] at hsum
  refine Nat.ne_of_lt (List.sum_lt_sum_of_ne_nil hname _ _ fun f _ => ?_) hsum
  dsimp only [Function.comp]
  rw [joinPath_append, ← below_below, below, below, List.length_append, List.length_append, List.length_append, List.length_cons]
  omega

/-- The files of a renamed row get the right paths if and only if the row is a file or is at the top. -/
theorem filesToRename_perm_iff (h : getIter [] store path = some iter) (hne : newname ≠ []) (hsep : '/' ∉ newname) :
    (filesToRename iter newname).Perm (renamed store path newname) ↔ iter.row.children = [] ∨ iter.parents = [] := by
  obtain ⟨c, rest, rfl⟩ := List.exists_cons_of_ne_nil hne
  have hplain : Plain (c :: rest) := ⟨c, rest, rfl, fun hc => hsep (hc ▸ List.mem_cons_self)⟩
  by_cases hfile : iter.row.children = []
  · rw [filesToRename_file h hfile]
    exact ⟨fun _ => .inl hfile, fun _ => .refl _⟩
  rw [filesToRename_dir h hfile hplain, renamed_eq h]
  constructor
  · intro hperm
    refine .inr ?_
    by_contra hparents
    obtain ⟨label, labels, hlabels⟩ := List.exists_cons_of_ne_nil
      (fun hnil => hparents (List.reverse_eq_nil_iff.mp (List.map_eq_nil_iff.mp hnil)))
    rw [hlabels] at hperm
    exact not_perm_below (FileRow.files_ne_nil _ _ _) label labels _ hperm
  · rintro (hfile' | hparents)
    · exact absurd hfile' hfile
    · rw [hparents]
      simp only [List.reverse_nil, List.map_nil, List.nil_append, joinPath_cons]
      exact .refl _

/-- A directory `a` with a directory `b` and a file `c`; `b` has a file `d`. -/
def sampleStore : List FileRow := [.mk ['a'] (-1) [.mk ['b'] (-1) [.mk ['d'] 0 []], .mk ['c'] 1 []]]

theorem filesToRename_perm_iff_sample :
    (filesToRename ⟨.mk ['c'] 1 [], sampleStore⟩ ['x']).Perm (renamed sampleStore [0, 1] ['x']) ↔
      (FileRow.mk ['c'] 1 []).children = [] ∨ sampleStore = [] :=
  @filesToRename_perm_iff sampleStore ⟨.mk ['c'] 1 [], sampleStore⟩ ['x'] [0, 1] rfl (by decide) (by decide)

/-- When the directory `b` is renamed, its file leaves the directory `a`. -/
theorem not_filesToRename_perm : ¬ ∀ (store : List FileRow) (path : List ℕ) (iter : RowIter) (newname : List Char),
    getIter [] store path = some iter → newname ≠ [] → '/' ∉ newname →
      (filesToRename iter newname).Perm (renamed store path newname) := by
  intro h
  have hperm := h sampleStore [0, 0] ⟨.mk ['b'] (-1) [.mk ['d'] 0 []], sampleStore⟩ ['x'] rfl (by decide) (by decide)
  have hleft : filesToRename ⟨.mk ['b'] (-1) [.mk ['d'] 0 []], sampleStore⟩ ['x'] = [(0, ['x', '/', 'd'])] := by decide
  have hright : renamed sampleStore [0, 0] ['x'] = [(0, ['a', '/', 'x', '/', 'd'])] := by decide
  rw [hleft, hright, List.perm_singleton] at hperm
  cases hperm

end Client

end LibtorrentSN
