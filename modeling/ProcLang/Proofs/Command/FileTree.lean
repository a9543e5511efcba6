import Mathlib.Data.List.TakeWhile
import ProcLang.Command.FileTree
import ProcLang.Proofs.Pass

/-! What reading and writing a file finds and leaves in a tree. -/
namespace ProcLang.Command

/-! ### The last name of a path -/

/-- What stands behind the last slash. -/
def fileName (text : String) : List Char :=
  (text.toList.reverse.takeWhile (· != '/')).reverse

/-- What stands before the last slash, and that slash. -/
def folder (text : String) : List Char :=
  (text.toList.reverse.dropWhile (· != '/')).reverse

theorem folder_append_fileName (text : String) : folder text ++ fileName text = text.toList := by
  unfold folder fileName
  rw [← List.reverse_append, List.takeWhile_append_dropWhile, List.reverse_reverse]

theorem slash_notMem_fileName (text : String) : '/' ∉ fileName text := by
  intro hmem
  unfold fileName at hmem
  simpa using List.mem_takeWhile_imp (List.mem_reverse.mp hmem)

theorem folder_cases (text : String) :
    folder text = [] ∨ ∃ above, folder text = above ++ ['/'] := by
  unfold folder
  cases hdrop : text.toList.reverse.dropWhile (· != '/') with
  | nil => exact .inl rfl
  | cons c cs =>
    have hnot := List.head_dropWhile_not (· != '/') (l := text.toList.reverse) (by simp [hdrop])
    simp only [hdrop, List.head_cons, bne_eq_false_iff_eq] at hnot
    right
    exact ⟨cs.reverse, by rw [hnot, List.reverse_cons]⟩

theorem fileName_ne_nil {text : String} (hend : text.endsWith "/" = false) (hne : text ≠ "") :
    fileName text ≠ [] := by
  intro hnil
  have hfolder := folder_append_fileName text
  rw [hnil, List.append_nil] at hfolder
  rcases folder_cases text with hnone | ⟨above, habove⟩
  · rw [hnone] at hfolder
    exact hne (String.toList_inj.mp hfolder.symm)
  · rw [String.endsWith_eq_endsWith_toSlice, String.Slice.endsWith_string_eq_false_iff] at hend
    apply hend
    rw [String.copy_toSlice, ← hfolder, habove]
    exact List.suffix_append above ['/']

namespace FileTree

theorem exists_segments (text : String) :
    ∃ parents, segments text = parents ++ [String.ofList (fileName text)] := by
  have hname : (fileName text).splitOn '/' = [fileName text] :=
    List.splitOn_eq_singleton (slash_notMem_fileName text)
  unfold segments
  rw [← folder_append_fileName]
  rcases folder_cases text with hnil | ⟨above, habove⟩
  · exact ⟨[], by rw [hnil, List.nil_append, hname, List.map_singleton, List.nil_append]⟩
  · refine ⟨(above.splitOn '/').map String.ofList, ?_⟩
    rw [habove, List.append_assoc, List.singleton_append, List.splitOn_append_cons_self, hname,
      List.map_append, List.map_singleton]

/-! ### Files and directories after a change -/

variable {t : FileTree} {path place : Path} {contents : ByteArray}

theorem lookup_filter {files : List (Path × ByteArray)} (h : path ≠ place) :
    (files.filter (·.1 != place)).lookup path = files.lookup path := by
  induction files with
  | nil => rfl
  | cons file files ih =>
    obtain ⟨name, bytes⟩ := file
    by_cases hname : name = place
    · have hne : (path == name) = false := by
        rw [hname]
        exact beq_eq_false_iff_ne.mpr h
      rw [List.filter_cons_of_neg (by simpa using hname), ih, List.lookup_cons, hne]
    · rw [List.filter_cons_of_pos (by simpa using hname), List.lookup_cons, List.lookup_cons, ih]

theorem lookup_put_self : (t.put place contents).files.lookup place = some contents := by
  have hnone : (t.files.filter (·.1 != place)).lookup place = none := by
    rw [List.lookup_eq_none_iff]
    intro file hfile
    have hne : file.1 ≠ place := by simpa using (List.mem_filter.mp hfile).2
    exact bne_iff_ne.mpr hne.symm
  unfold put
  rw [List.lookup_append, hnone, Option.none_or, List.lookup_cons, beq_self_eq_true]

theorem lookup_put_of_ne (h : path ≠ place) :
    (t.put place contents).files.lookup path = t.files.lookup path := by
  have hlast : [(place, contents)].lookup path = none := by
    rw [List.lookup_cons, beq_eq_false_iff_ne.mpr h]
    rfl
  unfold put
  rw [List.lookup_append, lookup_filter h, hlast, Option.or_none]

theorem node?_eq_directory : t.node? path = some .directory ↔ t.files.lookup path = none ∧
    (path = [] ∨ (∃ d ∈ t.directories, path <+: d) ∨ ∃ file ∈ t.files, path <+: file.1) := by
  have hinside : (path.isEmpty || t.directories.any path.isPrefixOf ||
      t.files.any (path.isPrefixOf ·.1)) = true ↔
        path = [] ∨ (∃ d ∈ t.directories, path <+: d) ∨ ∃ file ∈ t.files, path <+: file.1 := by
    rw [Bool.or_eq_true, Bool.or_eq_true, List.any_eq_true, List.any_eq_true, List.isEmpty_iff,
      or_assoc]
    simp only [List.isPrefixOf_iff_prefix]
  unfold node?
  cases t.files.lookup path with
  | some contents => simp
  | none =>
    rw [← hinside, Option.ite_none_right_eq_some, and_iff_left rfl, eq_self_iff_true, true_and]

/-- A new file takes the place of no directory, and no directory goes away. -/
theorem node?_put (hplace : t.node? place ≠ some .directory)
    (h : t.node? path = some .directory) : (t.put place contents).node? path = some .directory := by
  have hne : path ≠ place := by
    rintro rfl
    exact hplace h
  rw [node?_eq_directory] at h ⊢
  obtain ⟨hlookup, hinside⟩ := h
  refine ⟨by rw [lookup_put_of_ne hne, hlookup], ?_⟩
  rcases hinside with hroot | hdirectory | ⟨file, hfile, hprefix⟩
  · exact .inl hroot
  · exact .inr (.inl hdirectory)
  · right; right
    by_cases hname : file.1 = place
    · exact ⟨(place, contents), by simp [put], hname ▸ hprefix⟩
    · exact ⟨file, by simp [put, hfile, hname], hprefix⟩

theorem requireDirectory_eq_ok :
    t.requireDirectory path = .ok () ↔ t.node? path = some .directory := by
  unfold requireDirectory
  cases t.node? path with
  | none => simp
  | some node => cases node <;> simp

/-! ### Following names -/

theorem descend_append (names names' : List String) :
    t.descend path (names ++ names') = (t.descend path names >>= (t.descend · names')) := by
  induction names generalizing path with
  | nil => rfl
  | cons name names ih =>
    rw [List.cons_append, descend, descend, bind_assoc]
    congr 1
    funext _
    split_ifs <;> exact ih

theorem descend_put {names : List String} {q : Path} (hplace : t.node? place ≠ some .directory)
    (h : t.descend path names = .ok q) : (t.put place contents).descend path names = .ok q := by
  induction names generalizing path with
  | nil => exact h
  | cons name names ih =>
    rw [descend, Outcome.bind_eq_ok] at h ⊢
    obtain ⟨_, hdirectory, h⟩ := h
    refine ⟨(), requireDirectory_eq_ok.mpr (node?_put hplace
      (requireDirectory_eq_ok.mp hdirectory)), ?_⟩
    split_ifs at h ⊢ <;> exact ih h

theorem read_eq_ok {cwd : Path} {text : String} : t.read cwd text = .ok contents ↔
    ∃ place, t.descend (start cwd text) (segments text) = .ok place ∧
      t.files.lookup place = some contents := by
  unfold read
  rw [Outcome.bind_eq_ok]
  refine exists_congr fun place => and_congr_right fun _ => ?_
  unfold node?
  cases t.files.lookup place with
  | some contents => simp
  | none => split_ifs <;> simp

/-- A file is read under a name. -/
theorem fileName_ne_nil_of_read {cwd : Path} {text : String}
    (h : t.read cwd text = .ok contents) : fileName text ≠ [] := by
  intro hnil
  obtain ⟨place, hdescend, hlookup⟩ := read_eq_ok.mp h
  obtain ⟨parents, hsegments⟩ := exists_segments text
  rw [hsegments, hnil, descend_append, Outcome.bind_eq_ok] at hdescend
  obtain ⟨directory, -, hlast⟩ := hdescend
  rw [descend, Outcome.bind_eq_ok] at hlast
  obtain ⟨_, hdirectory, hlast⟩ := hlast
  rw [if_pos (.inl rfl)] at hlast
  cases hlast
  have hnode := requireDirectory_eq_ok.mp hdirectory
  rw [node?_eq_directory, hlookup] at hnode
  cases hnode.1

theorem segments_empty : segments "" = [""] := rfl

/-- A file that is written has a name of its own, in a directory. -/
theorem write_eq_ok {cwd : Path} {text : String} {t' : FileTree}
    (h : t.write cwd text contents = .ok t') :
    fileName text ≠ ['.'] ∧ fileName text ≠ ['.', '.'] ∧
    ∃ place, t.descend (start cwd text) (segments text) = .ok place ∧
      t.node? place ≠ some .directory ∧ t' = t.put place contents := by
  unfold write at h
  split at h
  next => cases h
  next last above hlast =>
    obtain ⟨directory, hdescend, hinside⟩ := Outcome.bind_eq_ok.mp h
    obtain ⟨_, hdirectory, hplaced⟩ := Outcome.bind_eq_ok.mp hinside
    split at hplaced
    next => cases hplaced
    next hproper =>
      obtain ⟨hdot, hdots, hend⟩ : last ≠ "." ∧ last ≠ ".." ∧ text.endsWith "/" = false := by
        simpa only [not_or, Bool.not_eq_true] using hproper
      have hne : text ≠ "" := by
        rintro rfl
        simp [segments_empty] at hlast
      have hname : String.ofList (fileName text) ≠ "" := by
        simpa using fileName_ne_nil hend hne
      -- The last name is not empty, so nothing is dropped before it.
      obtain ⟨parents, hsegments⟩ := exists_segments text
      rw [hsegments, List.reverse_append, List.reverse_singleton, List.singleton_append,
        List.dropWhile_cons_of_neg (by simpa using hname)] at hlast
      obtain ⟨rfl, rfl⟩ := List.cons.inj hlast
      rw [List.reverse_reverse] at hdescend
      refine ⟨fun heq => hdot (by rw [heq]), fun heq => hdots (by rw [heq]),
        directory ++ [String.ofList (fileName text)], ?_, ?_⟩
      · rw [hsegments, descend_append, hdescend]
        change t.descend directory [String.ofList (fileName text)] = _
        rw [descend, hdirectory]
        change (if _ then _ else _) = _
        rw [if_neg (by simp only [not_or]; exact ⟨hname, hdot⟩), if_neg hdots, descend]
      · split at hplaced
        next => cases hplaced
        next hfile =>
          cases hplaced
          exact ⟨hfile, rfl⟩

/-- What is written is there to be read. -/
theorem read_of_write {cwd : Path} {text : String} {t' : FileTree}
    (h : t.write cwd text contents = .ok t') : t'.read cwd text = .ok contents := by
  obtain ⟨-, -, place, hdescend, hfile, rfl⟩ := write_eq_ok h
  exact read_eq_ok.mpr ⟨place, descend_put hfile hdescend, lookup_put_self⟩

end FileTree

end ProcLang.Command
