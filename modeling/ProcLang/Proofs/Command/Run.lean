import ProcLang.Command.Run
import ProcLang.Proofs.Command.Arguments
import ProcLang.Proofs.Command.FileTree

/-! A run of the command changes its output file and nothing else, and that only if it succeeds. -/
namespace ProcLang.Command

/-! ### The name of the output -/

/-- The texts that can stand before a file name. -/
def IsFolder (folder : List Char) : Prop :=
  folder = [] ∨ ∃ above, folder = above ++ ['/']

/-- `NamesAssembly input output`: the output is the input with another extension, or with one more.
A dot that starts a file name starts no extension. -/
inductive NamesAssembly : String → String → Prop
  | replaced {folder stem extension : List Char} (within : IsFolder folder) (stem_ne : stem ≠ [])
    (stem_slash : '/' ∉ stem) (extension_slash : '/' ∉ extension)
    (extension_dot : '.' ∉ extension) :
    NamesAssembly (String.ofList (folder ++ stem ++ '.' :: extension))
      (String.ofList (folder ++ stem ++ ['.', 'a', 's', 'm']))
  | extended {folder name : List Char} (within : IsFolder folder) (name_ne : name ≠ [])
    (name_slash : '/' ∉ name) (name_dot : '.' ∉ name.tail) :
    NamesAssembly (String.ofList (folder ++ name))
      (String.ofList (folder ++ name ++ ['.', 'a', 's', 'm']))

theorem extension_cases (name : List Char) :
    (∃ stem extension, name = stem ++ '.' :: extension ∧ stem ≠ [] ∧ '.' ∉ extension ∧
      dropExtension name = stem ∧ cutExtension name = stem ++ ['.']) ∨
    ('.' ∉ name.tail ∧ dropExtension name = name ∧ cutExtension name = name) := by
  have hname : name = (name.reverse.dropWhile (· != '.')).reverse ++
      (name.reverse.takeWhile (· != '.')).reverse := by
    rw [← List.reverse_append, List.takeWhile_append_dropWhile, List.reverse_reverse]
  have hdot : '.' ∉ (name.reverse.takeWhile (· != '.')).reverse := by
    intro hmem
    simpa using List.mem_takeWhile_imp (List.mem_reverse.mp hmem)
  unfold dropExtension cutExtension
  generalize (name.reverse.takeWhile (· != '.')).reverse = extension at hname hdot
  cases hrest : name.reverse.dropWhile (· != '.') with
  | nil =>
    right
    rw [hrest, List.reverse_nil, List.nil_append] at hname
    exact ⟨fun hmem => hdot (hname ▸ List.mem_of_mem_tail hmem), rfl, rfl⟩
  | cons c cs =>
    have hc := List.head_dropWhile_not (· != '.') (l := name.reverse) (by simp [hrest])
    simp only [hrest, List.head_cons, bne_eq_false_iff_eq] at hc
    subst hc
    rw [hrest, List.reverse_cons, List.append_assoc, List.singleton_append] at hname
    cases cs with
    | nil =>
      right
      exact ⟨by rw [hname]; exact hdot, rfl, rfl⟩
    | cons d ds =>
      left
      exact ⟨(d :: ds).reverse, extension, hname, by simp, hdot, rfl, by simp⟩

theorem assemblyPath_eq (input : String) :
    assemblyPath input = String.ofList (folder input ++ assemblyName (fileName input)) := by
  have hfolder : input.toList.take (input.toList.length - (fileName input).length) =
      folder input := by
    rw [← folder_append_fileName, List.length_append, Nat.add_sub_cancel, List.take_left]
  unfold assemblyPath
  change String.ofList (input.toList.take (input.toList.length - (fileName input).length) ++ _) = _
  rw [hfolder]
  rfl

theorem fileName_ofList_append {folder name : List Char} (hfolder : IsFolder folder)
    (hname : '/' ∉ name) : fileName (String.ofList (folder ++ name)) = name := by
  have hall : ∀ c ∈ name.reverse, (c != '/') = true := by
    intro c hc
    rw [bne_iff_ne]
    rintro rfl
    exact hname (List.mem_reverse.mp hc)
  unfold fileName
  rw [String.toList_ofList, List.reverse_append, List.takeWhile_append_of_pos hall]
  rcases hfolder with rfl | ⟨above, rfl⟩ <;> simp

/-- A file can only be written beside an input that has a name, and then under the right one. -/
theorem namesAssembly_assemblyPath {input : String} (hname : fileName input ≠ [])
    (hdot : fileName (assemblyPath input) ≠ ['.'])
    (hdots : fileName (assemblyPath input) ≠ ['.', '.']) :
    NamesAssembly input (assemblyPath input) := by
  have hwithin : IsFolder (folder input) := folder_cases input
  have hslash := slash_notMem_fileName input
  have hinput : input = String.ofList (folder input ++ fileName input) := by
    rw [folder_append_fileName, String.ofList_toList]
  -- The cut name is no name of a directory, since it would be the name of the output.
  have hcut : isDots (cutExtension (fileName input)) = false := by
    rw [← Bool.not_eq_true]
    intro hcut
    have hpath := assemblyPath_eq input
    rw [assemblyName, if_pos hcut] at hpath
    have hcases : cutExtension (fileName input) = ['.'] ∨
        cutExtension (fileName input) = ['.', '.'] := by
      simpa [isDots] using hcut
    rcases hcases with heq | heq
    · rw [heq] at hpath
      exact hdot (by rw [hpath, fileName_ofList_append hwithin (by simp)])
    · rw [heq] at hpath
      exact hdots (by rw [hpath, fileName_ofList_append hwithin (by simp)])
  rw [assemblyPath_eq, assemblyName, hcut, if_neg Bool.false_ne_true, ← List.append_assoc]
  rcases extension_cases (fileName input) with
    ⟨stem, extension, heq, hstem, hextension, hdrop, -⟩ | ⟨htail, hdrop, -⟩
  · rw [hdrop]
    rw [heq] at hslash hinput
    simp only [List.mem_append, List.mem_cons, not_or] at hslash
    rw [← List.append_assoc] at hinput
    have hreplaced := NamesAssembly.replaced hwithin hstem hslash.1 hslash.2.2 hextension
    rwa [← hinput] at hreplaced
  · rw [hdrop]
    have hextended := NamesAssembly.extended hwithin hname hslash htail
    rwa [← hinput] at hextended

/-! ### The run -/

theorem fromUTF8?_eq_some {contents : ByteArray} {source : String} :
    String.fromUTF8? contents = some source ↔ contents = source.toUTF8 := by
  unfold String.fromUTF8?
  constructor
  · intro h
    split at h
    next => cases h; rfl
    next => cases h
  · rintro rfl
    exact dif_pos source.isValidUTF8

variable {cwd : Path} {tree after : FileTree} {path input output source : String}
  {contents : ByteArray} {r : Compilation}

theorem run_read_bind {next : Except Reason ByteArray → StateM FileTree α} :
    ((Files.ofTree cwd).read path >>= next).run tree = (next (tree.read cwd path)).run tree :=
  rfl

theorem run_write_bind {next : Except Reason Unit → StateM FileTree α} :
    ((Files.ofTree cwd).write path contents >>= next).run tree =
      match tree.write cwd path contents with
      | .error reason => (next (.error reason)).run tree
      | .ok after => (next (.ok ())).run after := by
  cases hwrite : tree.write cwd path contents with
  | error reason => simp [Files.ofTree, hwrite]
  | ok after => simp [Files.ofTree, hwrite]

theorem compileFile_of_write (hread : tree.read cwd input = .ok source.toUTF8)
    (hcompile : (compile source).result = .ok r)
    (hwrite : tree.write cwd output r.assembly.text.toUTF8 = .ok after) :
    (compileFile (Files.ofTree cwd) input output).run tree = (.success "", after) := by
  have htext : String.fromUTF8? source.toUTF8 = some source := fromUTF8?_eq_some.mpr rfl
  unfold compileFile
  simp only [run_read_bind, hread, htext, hcompile, run_write_bind, hwrite]
  rfl

/-- A compilation that cannot do one of its parts leaves the tree as it is. -/
theorem compileFile_cases (cwd : Path) (tree : FileTree) (input output : String) :
    (∃ message,
      (compileFile (Files.ofTree cwd) input output).run tree = (.failure message, tree)) ∨
    ∃ source r after, tree.read cwd input = .ok source.toUTF8 ∧
      (compile source).result = .ok r ∧
      tree.write cwd output r.assembly.text.toUTF8 = .ok after := by
  unfold compileFile
  simp only [run_read_bind]
  cases hread : tree.read cwd input with
  | error reason => exact .inl ⟨_, rfl⟩
  | ok contents =>
    cases htext : String.fromUTF8? contents with
    | none =>
      left
      simp only [htext]
      exact ⟨_, rfl⟩
    | some source =>
      cases hcompile : (compile source).result with
      | error fault =>
        left
        simp only [htext, hcompile]
        exact ⟨_, rfl⟩
      | ok r =>
        cases hwrite : tree.write cwd output r.assembly.text.toUTF8 with
        | error reason =>
          left
          simp only [htext, hcompile, run_write_bind, hwrite]
          exact ⟨_, rfl⟩
        | ok after =>
          right
          rw [fromUTF8?_eq_some.mp htext]
          exact ⟨source, r, after, rfl, hcompile, hwrite⟩

/-- `Compiled cwd tree input output after source r place`: the input has this text, the output names
this place, and there its assembly is put. All else is as it was. -/
structure Compiled (cwd : Path) (tree : FileTree) (input output : String) (after : FileTree)
    (source : String) (r : Compilation) (place : Path) : Prop where
  reads : tree.read cwd input = .ok source.toUTF8
  compiles : (compile source).result = .ok r
  names : tree.descend (FileTree.start cwd output) (FileTree.segments output) = .ok place
  holds : after.files.lookup place = some r.assembly.text.toUTF8
  readBack : after.read cwd output = .ok r.assembly.text.toUTF8
  others : ∀ path, path ≠ place → after.files.lookup path = tree.files.lookup path
  directories : after.directories = tree.directories

theorem exists_compiled (hread : tree.read cwd input = .ok source.toUTF8)
    (hcompile : (compile source).result = .ok r)
    (hwrite : tree.write cwd output r.assembly.text.toUTF8 = .ok after) :
    ∃ place, Compiled cwd tree input output after source r place := by
  have hback := FileTree.read_of_write hwrite
  obtain ⟨-, -, place, hnames, -, rfl⟩ := FileTree.write_eq_ok hwrite
  exact ⟨place, hread, hcompile, hnames, FileTree.lookup_put_self, hback,
    fun _ hne => FileTree.lookup_put_of_ne hne, rfl⟩

/-- Where the assembly of an input goes: where the arguments say, else beside the input. -/
def IsOutput (input : String) (asked : Option String) (output : String) : Prop :=
  asked = some output ∨ asked = none ∧ NamesAssembly input output

theorem isOutput_of_write {asked : Option String} {bytes : ByteArray}
    (hread : tree.read cwd input = .ok bytes)
    (hwrite : tree.write cwd (asked.getD (assemblyPath input)) contents = .ok after) :
    IsOutput input asked (asked.getD (assemblyPath input)) := by
  cases asked with
  | some output => exact .inl rfl
  | none =>
    obtain ⟨hdot, hdots, -⟩ := FileTree.write_eq_ok hwrite
    exact .inr ⟨rfl, namesAssembly_assemblyPath (FileTree.fileName_ne_nil_of_read hread) hdot hdots⟩

variable {args : List String} {asked : Option String}

theorem runIn_of_asks (h : Asks args input asked) :
    runIn cwd tree args =
      (compileFile (Files.ofTree cwd) input (asked.getD (assemblyPath input))).run tree := by
  unfold runIn run
  rw [ofArguments?_eq_compile.mpr h]

theorem runIn_of_not_asks (cwd : Path) (tree : FileTree)
    (h : ¬ ∃ input asked, Asks args input asked) :
    runIn cwd tree args = (.misuse, tree) ∨ runIn cwd tree args = (.success versionText, tree) ∨
      runIn cwd tree args = (.success helpText, tree) := by
  unfold runIn run
  cases hrequest : Request.ofArguments? args with
  | none => exact .inl rfl
  | some request =>
    cases request with
    | version => exact .inr (.inl rfl)
    | help => exact .inr (.inr rfl)
    | compile input asked => exact absurd ⟨input, asked, ofArguments?_eq_compile.mp hrequest⟩ h

theorem status_failure (message : String) : (Outcome.failure message).status ≠ 0 := by
  show (1 : UInt32) ≠ 0
  decide

/-- The status tells whether each part of the compilation can be done. -/
theorem status_eq_zero (h : Asks args input asked) :
    (runIn cwd tree args).1.status = 0 ↔ ∃ source r after,
      tree.read cwd input = .ok source.toUTF8 ∧ (compile source).result = .ok r ∧
      tree.write cwd (asked.getD (assemblyPath input)) r.assembly.text.toUTF8 = .ok after := by
  rw [runIn_of_asks h]
  constructor
  · intro hstatus
    rcases compileFile_cases cwd tree input (asked.getD (assemblyPath input)) with
      ⟨message, hrun⟩ | hparts
    · rw [hrun] at hstatus
      exact absurd hstatus (status_failure message)
    · exact hparts
  · intro hparts
    obtain ⟨source, r, after, hread, hcompile, hwrite⟩ := hparts
    rw [compileFile_of_write hread hcompile hwrite]
    rfl

theorem exists_compiled_runIn (h : Asks args input asked)
    (hstatus : (runIn cwd tree args).1.status = 0) : ∃ output source r place,
      IsOutput input asked output ∧
      Compiled cwd tree input output (runIn cwd tree args).2 source r place := by
  obtain ⟨source, r, after, hread, hcompile, hwrite⟩ := (status_eq_zero h).mp hstatus
  obtain ⟨place, hcompiled⟩ := exists_compiled hread hcompile hwrite
  rw [runIn_of_asks h, compileFile_of_write hread hcompile hwrite]
  exact ⟨_, source, r, place, isOutput_of_write hread hwrite, hcompiled⟩

/-- Nothing but a compilation changes the tree. -/
theorem runIn_cases (cwd : Path) (tree : FileTree) (args : List String) :
    (runIn cwd tree args).2 = tree ∨
      (runIn cwd tree args).1 = .success "" ∧ ∃ input asked, Asks args input asked := by
  by_cases hasks : ∃ input asked, Asks args input asked
  · obtain ⟨input, asked, h⟩ := hasks
    rw [runIn_of_asks h]
    rcases compileFile_cases cwd tree input (asked.getD (assemblyPath input)) with
      ⟨message, hrun⟩ | ⟨source, r, after, hread, hcompile, hwrite⟩
    · left
      rw [hrun]
    · right
      rw [compileFile_of_write hread hcompile hwrite]
      exact ⟨rfl, input, asked, h⟩
  · left
    rcases runIn_of_not_asks cwd tree hasks with hrun | hrun | hrun <;> rw [hrun]

/-- A run with another status than zero, or one that shows the version, leaves every file as it
was. A run that is asked to compile has status zero exactly if the input can be read, compiled and
its assembly written. Then the output holds the assembly of the text that the input had, and every
other file is as it was. -/
theorem run_changes_only_output (cwd : Path) (tree : FileTree) (args : List String) :
    ((runIn cwd tree args).1.status ≠ 0 ∨ (runIn cwd tree args).1.stdout = versionText →
      (runIn cwd tree args).2 = tree) ∧
    ((runIn cwd tree args).1.status = 0 →
      (runIn cwd tree args).1.stdout = versionText ∨ (runIn cwd tree args).1.stdout = helpText ∨
      ∃ input asked, Asks args input asked) ∧
    ∀ input asked, Asks args input asked →
      ((runIn cwd tree args).1.status = 0 ↔ ∃ source r after,
        tree.read cwd input = .ok source.toUTF8 ∧ (compile source).result = .ok r ∧
        tree.write cwd (asked.getD (assemblyPath input)) r.assembly.text.toUTF8 = .ok after) ∧
      ((runIn cwd tree args).1.status = 0 → ∃ output source r place,
        IsOutput input asked output ∧
        Compiled cwd tree input output (runIn cwd tree args).2 source r place) := by
  refine ⟨?_, ?_, fun input asked h => ⟨status_eq_zero h, exists_compiled_runIn h⟩⟩
  · intro hshown
    rcases runIn_cases cwd tree args with hsame | ⟨hsuccess, -⟩
    · exact hsame
    · rw [hsuccess] at hshown
      exact absurd hshown (by decide)
  · intro hstatus
    by_cases hasks : ∃ input asked, Asks args input asked
    · exact .inr (.inr hasks)
    · rcases runIn_of_not_asks cwd tree hasks with hrun | hrun | hrun
      · rw [hrun] at hstatus
        exact absurd hstatus (show ¬ (2 : UInt32) = 0 by decide)
      · exact .inl (by rw [hrun]; rfl)
      · exact .inr (.inl (by rw [hrun]; rfl))

end ProcLang.Command
