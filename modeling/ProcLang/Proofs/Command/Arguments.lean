import Mathlib.Data.List.TakeWhile
import ProcLang.Command.Arguments

/-! The command lines that ask for a compilation, apart from the way they are read. -/
namespace ProcLang.Command

/-- A word that is no option. A lone dash is none. -/
def IsPlain (word : String) : Prop :=
  word = "-" ∨ word.toList.head? ≠ some '-'

/-- The words that give the output, in each of their spellings. -/
inductive Spells (path : String) : List String → Prop
  | short (plain : IsPlain path) : Spells path ["-o", path]
  | attached (unequal : path.toList.head? ≠ some '=') : Spells path ["-o" ++ path]
  | shortEquals : Spells path ["-o=" ++ path]
  | long (plain : IsPlain path) : Spells path ["--output", path]
  | longEquals : Spells path ["--output=" ++ path]

/-- `Gives args inputs outputs`: the arguments name these inputs and outputs, in their order. What
follows `--` are inputs. No path is empty. -/
inductive Gives : List String → List String → List String → Prop
  | done : Gives [] [] []
  | input {path : String} {args inputs outputs : List String} (nonempty : path ≠ "")
    (plain : IsPlain path) (others : Gives args inputs outputs) :
    Gives (path :: args) (path :: inputs) outputs
  | output {path : String} {words args inputs outputs : List String} (nonempty : path ≠ "")
    (spelled : Spells path words) (others : Gives args inputs outputs) :
    Gives (words ++ args) inputs (path :: outputs)
  | rest {paths : List String} (nonempty : ∀ path ∈ paths, path ≠ "") :
    Gives ("--" :: paths) paths []

/-- The arguments ask to compile the input: they name one, and at most one output. -/
def Asks (args : List String) (input : String) (output : Option String) : Prop :=
  Gives args [input] output.toList

theorem startsWith_dash {word : String} :
    word.startsWith "-" = true ↔ word.toList.head? = some '-' := by
  have hdash : "-".toList = ['-'] := rfl
  rw [String.startsWith_string_iff, hdash]
  cases word.toList with
  | nil => simp
  | cons c cs => simp [eq_comm]

theorem isOption_eq_false {word : String} : isOption word = false ↔ IsPlain word := by
  unfold isOption IsPlain
  rw [Bool.and_eq_false_iff, ← Bool.not_eq_true, startsWith_dash, bne_eq_false_iff_eq]
  exact or_comm

/-! ### What a single argument means -/

theorem meaning_of_isPlain {word : String} (h : IsPlain word) : meaning word = .path word := by
  unfold meaning
  rcases h with rfl | hhead
  · rfl
  · split
    next hword => simp [hword] at hhead
    next hword => simp [hword] at hhead
    next => rfl
    next hword => simp [hword] at hhead
    next => rfl

theorem meaning_of_spells {path word : String} (hne : path ≠ "") (h : Spells path [word]) :
    meaning word = .output path := by
  generalize hwords : [word] = words at h
  cases h with
  | short | long => simp at hwords
  | attached hunequal =>
    obtain rfl := (List.cons.inj hwords).1
    have hletters : ("-o" ++ path).toList = '-' :: 'o' :: path.toList := by simp
    obtain ⟨c, cs, hpath⟩ := List.exists_cons_of_ne_nil (by simpa using hne : path.toList ≠ [])
    have hc : c ≠ '=' := by simpa [hpath] using hunequal
    have hvalue : String.ofList (c :: cs) = path := by rw [← hpath, String.ofList_toList]
    rw [meaning, hletters, hpath]
    simp [shortMeaning, hc, hvalue]
  | shortEquals =>
    obtain rfl := (List.cons.inj hwords).1
    have hletters : ("-o=" ++ path).toList = '-' :: 'o' :: '=' :: path.toList := by simp
    rw [meaning, hletters]
    simp [shortMeaning]
  | longEquals =>
    obtain rfl := (List.cons.inj hwords).1
    have hletters : ("--output=" ++ path).toList =
        '-' :: '-' :: ("output".toList ++ '=' :: path.toList) := by simp
    rw [meaning, hletters]
    simp [longMeaning]

/-- Meanings that end the reading without a compilation. -/
def Meaning.isFinal : Meaning → Bool
  | .version | .help | .unknown => true
  | _ => false

theorem shortMeaning_cases (letters : List Char) :
    (letters = ['o'] ∧ shortMeaning letters = .outputNext) ∨
    (∃ path, Spells path [String.ofList ('-' :: letters)] ∧ shortMeaning letters = .output path) ∨
    (shortMeaning letters).isFinal = true := by
  unfold shortMeaning
  split
  next => exact .inl ⟨rfl, rfl⟩
  next path =>
    have hword : String.ofList ('-' :: 'o' :: '=' :: path) = "-o=" ++ String.ofList path := by
      apply String.toList_inj.mp
      simp
    refine .inr (.inl ⟨String.ofList path, ?_, rfl⟩)
    rw [hword]
    exact .shortEquals
  next path _ hunequal =>
    have hword : String.ofList ('-' :: 'o' :: path) = "-o" ++ String.ofList path := by
      apply String.toList_inj.mp
      simp
    refine .inr (.inl ⟨String.ofList path, ?_, rfl⟩)
    rw [hword]
    refine .attached fun hhead => ?_
    obtain ⟨rest, hpath⟩ := List.head?_eq_some_iff.mp hhead
    rw [String.toList_ofList] at hpath
    exact hunequal rest hpath
  all_goals exact .inr (.inr rfl)

theorem longMeaning_cases (word : List Char) :
    (word = "output".toList ∧ longMeaning word = .outputNext) ∨
    (∃ path, Spells path [String.ofList ('-' :: '-' :: word)] ∧
      longMeaning word = .output path) ∨
    (longMeaning word).isFinal = true := by
  unfold longMeaning
  dsimp only
  split
  next hname hequals =>
    right; left
    have htake : word.takeWhile (· != '=') = "output".toList := by
      rw [← hname, String.toList_ofList]
    have hcut := List.takeWhile_append_dropWhile (p := (· != '=')) (l := word)
    have hmem : '=' ∈ word := List.contains_iff_mem.mp hequals
    cases hdrop : word.dropWhile (· != '=') with
    | nil =>
      have hall := List.dropWhile_eq_nil_iff.mp hdrop '=' hmem
      simp at hall
    | cons c value =>
      have hnot := List.head_dropWhile_not (· != '=') (l := word) (by simp [hdrop])
      simp only [hdrop, List.head_cons, bne_eq_false_iff_eq] at hnot
      have hword : String.ofList ('-' :: '-' :: word) = "--output=" ++ String.ofList value := by
        apply String.toList_inj.mp
        rw [← hcut, htake, hdrop, hnot]
        simp
      refine ⟨String.ofList value, ?_, rfl⟩
      rw [hword]
      exact .longEquals
  next hname hequals =>
    left
    have hnotMem : '=' ∉ word := by
      rw [← List.contains_iff_mem, hequals]
      exact Bool.false_ne_true
    have hall : word.takeWhile (· != '=') = word := by
      rw [List.takeWhile_eq_self_iff]
      intro c hc
      rw [bne_iff_ne]
      rintro rfl
      exact hnotMem hc
    rw [hall] at hname
    exact ⟨by rw [← hname, String.toList_ofList], rfl⟩
  all_goals exact .inr (.inr rfl)

/-- An argument is a path, gives the output, has the output behind it, ends the options, or ends the
reading. -/
theorem meaning_cases (word : String) :
    (IsPlain word ∧ meaning word = .path word) ∨
    (∃ path, Spells path [word] ∧ meaning word = .output path) ∨
    ((word = "-o" ∨ word = "--output") ∧ meaning word = .outputNext) ∨
    (word = "--" ∧ meaning word = .endOfOptions) ∨
    (meaning word).isFinal = true := by
  have heq : ∀ {cs}, word.toList = cs → word = String.ofList cs := by
    rintro cs rfl
    exact String.ofList_toList.symm
  unfold meaning
  split
  next hword => exact .inr (.inr (.inr (.inl ⟨heq hword, rfl⟩)))
  next letters _ hword =>
    rcases longMeaning_cases letters with ⟨hletters, hmeaning⟩ | ⟨path, hspells, hmeaning⟩ | hfinal
    · refine .inr (.inr (.inl ⟨.inr ?_, hmeaning⟩))
      rw [heq hword, hletters]
      rfl
    · refine .inr (.inl ⟨path, ?_, hmeaning⟩)
      rw [heq hword]
      exact hspells
    · exact .inr (.inr (.inr (.inr hfinal)))
  next hword => exact .inl ⟨.inl (heq hword), rfl⟩
  next letters _ _ _ hword =>
    rcases shortMeaning_cases letters with ⟨hletters, hmeaning⟩ | ⟨path, hspells, hmeaning⟩ | hfinal
    · refine .inr (.inr (.inl ⟨.inl ?_, hmeaning⟩))
      rw [heq hword, hletters]
    · refine .inr (.inl ⟨path, ?_, hmeaning⟩)
      rw [heq hword]
      exact hspells
    · exact .inr (.inr (.inr (.inr hfinal)))
  next hlong hdash hshort =>
    refine .inl ⟨.inr fun hhead => ?_, rfl⟩
    obtain ⟨letters, hword⟩ := List.head?_eq_some_iff.mp hhead
    exact hshort letters hword

theorem isPlain_of_meaning {word path : String} (h : meaning word = .path path) :
    path = word ∧ IsPlain word := by
  rcases meaning_cases word with ⟨hplain, hm⟩ | ⟨_, _, hm⟩ | ⟨_, hm⟩ | ⟨_, hm⟩ | hm
  all_goals
    rw [h] at hm
    cases hm
  exact ⟨rfl, hplain⟩

theorem spells_of_meaning {word path : String} (h : meaning word = .output path) :
    Spells path [word] := by
  rcases meaning_cases word with ⟨_, hm⟩ | ⟨path', hspells, hm⟩ | ⟨_, hm⟩ | ⟨_, hm⟩ | hm
  all_goals
    rw [h] at hm
    cases hm
  exact hspells

theorem eq_of_meaning_outputNext {word : String} (h : meaning word = .outputNext) :
    word = "-o" ∨ word = "--output" := by
  rcases meaning_cases word with ⟨_, hm⟩ | ⟨_, _, hm⟩ | ⟨hword, hm⟩ | ⟨_, hm⟩ | hm
  all_goals
    rw [h] at hm
    cases hm
  exact hword

theorem eq_of_meaning_endOfOptions {word : String} (h : meaning word = .endOfOptions) :
    word = "--" := by
  rcases meaning_cases word with ⟨_, hm⟩ | ⟨_, _, hm⟩ | ⟨_, hm⟩ | ⟨hword, hm⟩ | hm
  all_goals
    rw [h] at hm
    cases hm
  exact hword

/-! ### Reading a whole command line -/

namespace Paths

/-- What the paths come to if further inputs and outputs are named: one input, and at most one
output. -/
def Completes (p : Paths) (inputs outputs : List String) (input : String)
    (output : Option String) : Prop :=
  p.input.toList ++ inputs = [input] ∧ p.output.toList ++ outputs = output.toList

variable {p q : Paths} {path input : String} {output : Option String}
  {inputs outputs : List String}

theorem setInput?_eq_some :
    p.setInput? path = some q ↔ path ≠ "" ∧ p.input = none ∧ q = ⟨some path, p.output⟩ := by
  unfold setInput?
  by_cases hempty : path = ""
  · simp [hempty]
  · have hfalse : path.isEmpty = false := by simpa using hempty
    cases hinput : p.input with
    | none => simp [hempty, hfalse, eq_comm (a := q)]
    | some i => simp

theorem setOutput?_eq_some :
    p.setOutput? path = some q ↔ path ≠ "" ∧ p.output = none ∧ q = ⟨p.input, some path⟩ := by
  unfold setOutput?
  by_cases hempty : path = ""
  · simp [hempty]
  · have hfalse : path.isEmpty = false := by simpa using hempty
    cases houtput : p.output with
    | none => simp [hempty, hfalse, eq_comm (a := q)]
    | some o => simp

theorem request?_eq_compile :
    p.request? = some (.compile input output) ↔ p.Completes [] [] input output := by
  obtain ⟨i, o⟩ := p
  unfold request? Completes
  cases i <;> cases o <;> cases output <;> simp

theorem completes_input (h : p.input = none) :
    Completes ⟨some path, p.output⟩ inputs outputs input output ↔
      p.Completes (path :: inputs) outputs input output := by
  simp [Completes, h]

theorem completes_output (h : p.output = none) :
    Completes ⟨p.input, some path⟩ inputs outputs input output ↔
      p.Completes inputs (path :: outputs) input output := by
  simp [Completes, h]

theorem input_eq_none (h : p.Completes (path :: inputs) outputs input output) :
    p.input = none := by
  obtain ⟨hinputs, -⟩ := h
  cases hinput : p.input with
  | none => rfl
  | some i => simp [hinput] at hinputs

theorem output_eq_none (h : p.Completes inputs (path :: outputs) input output) :
    p.output = none := by
  obtain ⟨-, houtputs⟩ := h
  cases houtput : p.output with
  | none => rfl
  | some o => cases output <;> simp [houtput] at houtputs

end Paths

section

variable {p : Paths} {args : List String} {input : String} {output : Option String}

theorem readPaths_eq_compile {paths : List String} :
    (readPaths p paths).bind Paths.request? = some (.compile input output) ↔
      (∀ path ∈ paths, path ≠ "") ∧ p.Completes paths [] input output := by
  induction paths generalizing p with
  | nil => simp [readPaths, Paths.request?_eq_compile]
  | cons path paths ih =>
    rw [readPaths, List.forall_mem_cons]
    constructor
    · intro h
      obtain ⟨r, hread, hrequest⟩ := Option.bind_eq_some_iff.mp h
      obtain ⟨q, hset, hread⟩ := Option.bind_eq_some_iff.mp hread
      obtain ⟨hne, hnone, rfl⟩ := Paths.setInput?_eq_some.mp hset
      obtain ⟨hall, hcompletes⟩ := ih.mp (Option.bind_eq_some_iff.mpr ⟨r, hread, hrequest⟩)
      exact ⟨⟨hne, hall⟩, (Paths.completes_input hnone).mp hcompletes⟩
    · rintro ⟨⟨hne, hall⟩, hcompletes⟩
      have hnone := Paths.input_eq_none hcompletes
      have hset : p.setInput? path = some ⟨some path, p.output⟩ :=
        Paths.setInput?_eq_some.mpr ⟨hne, hnone, rfl⟩
      rw [hset]
      exact ih.mpr ⟨hall, (Paths.completes_input hnone).mpr hcompletes⟩

theorem gives_of_readFrom (h : readFrom p args = some (.compile input output)) :
    ∃ inputs outputs, Gives args inputs outputs ∧ p.Completes inputs outputs input output := by
  fun_induction readFrom p args with
  | case1 p => exact ⟨[], [], .done, Paths.request?_eq_compile.mp h⟩
  | case2 p arg args path hmeaning ih =>
    obtain ⟨rfl, hplain⟩ := isPlain_of_meaning hmeaning
    obtain ⟨q, hset, hread⟩ := Option.bind_eq_some_iff.mp h
    obtain ⟨hne, hnone, rfl⟩ := Paths.setInput?_eq_some.mp hset
    obtain ⟨inputs, outputs, hgives, hcompletes⟩ := ih _ hread
    exact ⟨_, outputs, .input hne hplain hgives, (Paths.completes_input hnone).mp hcompletes⟩
  | case3 p arg args path hmeaning ih =>
    obtain ⟨q, hset, hread⟩ := Option.bind_eq_some_iff.mp h
    obtain ⟨hne, hnone, rfl⟩ := Paths.setOutput?_eq_some.mp hset
    obtain ⟨inputs, outputs, hgives, hcompletes⟩ := ih _ hread
    exact ⟨inputs, _, .output hne (spells_of_meaning hmeaning) hgives,
      (Paths.completes_output hnone).mp hcompletes⟩
  | case4 | case5 => cases h
  | case6 p arg hmeaning path args hoption ih =>
    obtain ⟨q, hset, hread⟩ := Option.bind_eq_some_iff.mp h
    obtain ⟨hne, hnone, rfl⟩ := Paths.setOutput?_eq_some.mp hset
    obtain ⟨inputs, outputs, hgives, hcompletes⟩ := ih _ hread
    have hplain := isOption_eq_false.mp (Bool.not_eq_true _ ▸ hoption)
    have hspells : Spells path [arg, path] := by
      rcases eq_of_meaning_outputNext hmeaning with rfl | rfl
      · exact .short hplain
      · exact .long hplain
    exact ⟨inputs, _, .output hne hspells hgives, (Paths.completes_output hnone).mp hcompletes⟩
  | case7 p arg args hmeaning =>
    obtain rfl := eq_of_meaning_endOfOptions hmeaning
    obtain ⟨hall, hcompletes⟩ := readPaths_eq_compile.mp h
    exact ⟨args, [], .rest hall, hcompletes⟩
  | case8 | case9 | case10 => cases h

theorem readFrom_of_spells {path : String} {words : List String} (hne : path ≠ "")
    (h : Spells path words) (hnone : p.output = none) (args : List String) :
    readFrom p (words ++ args) = readFrom ⟨p.input, some path⟩ args := by
  have hset : p.setOutput? path = some ⟨p.input, some path⟩ :=
    Paths.setOutput?_eq_some.mpr ⟨hne, hnone, rfl⟩
  have hsingle : ∀ word, Spells path [word] →
      readFrom p ([word] ++ args) = readFrom ⟨p.input, some path⟩ args := by
    intro word hspells
    rw [List.singleton_append, readFrom.eq_def]
    simp only [meaning_of_spells hne hspells, hset, Option.bind_eq_bind, Option.bind_some]
  have hpair : ∀ word, meaning word = .outputNext → IsPlain path →
      readFrom p ([word, path] ++ args) = readFrom ⟨p.input, some path⟩ args := by
    intro word hmeaning hplain
    rw [List.cons_append, List.singleton_append, readFrom.eq_def]
    simp only [hmeaning, isOption_eq_false.mpr hplain, hset, Option.bind_eq_bind,
      Option.bind_some, Bool.false_eq_true, if_false]
  cases h with
  | short hplain => exact hpair "-o" rfl hplain
  | long hplain => exact hpair "--output" (by decide) hplain
  | attached hunequal => exact hsingle _ (.attached hunequal)
  | shortEquals => exact hsingle _ .shortEquals
  | longEquals => exact hsingle _ .longEquals

theorem readFrom_of_gives {inputs outputs : List String} (h : Gives args inputs outputs)
    (hcompletes : p.Completes inputs outputs input output) :
    readFrom p args = some (.compile input output) := by
  induction h generalizing p with
  | done => exact Paths.request?_eq_compile.mpr hcompletes
  | @input path args inputs outputs hne hplain _ ih =>
    have hnone := Paths.input_eq_none hcompletes
    have hset : p.setInput? path = some ⟨some path, p.output⟩ :=
      Paths.setInput?_eq_some.mpr ⟨hne, hnone, rfl⟩
    rw [readFrom.eq_def]
    simp only [meaning_of_isPlain hplain, hset, Option.bind_eq_bind, Option.bind_some]
    exact ih ((Paths.completes_input hnone).mpr hcompletes)
  | output hne hspells _ ih =>
    have hnone := Paths.output_eq_none hcompletes
    rw [readFrom_of_spells hne hspells hnone]
    exact ih ((Paths.completes_output hnone).mpr hcompletes)
  | rest hall =>
    have hmeaning : meaning "--" = .endOfOptions := by decide
    rw [readFrom.eq_def]
    simp only [hmeaning]
    exact readPaths_eq_compile.mpr ⟨hall, hcompletes⟩

end

/-- A compilation is asked for just by the command lines that name one input and at most one
output. -/
theorem ofArguments?_eq_compile {args : List String} {input : String} {output : Option String} :
    Request.ofArguments? args = some (.compile input output) ↔ Asks args input output := by
  constructor
  · intro h
    obtain ⟨inputs, outputs, hgives, hinputs, houtputs⟩ := gives_of_readFrom h
    rw [Option.toList_none, List.nil_append] at hinputs houtputs
    rw [hinputs, houtputs] at hgives
    exact hgives
  · intro h
    exact readFrom_of_gives h ⟨rfl, rfl⟩

end ProcLang.Command
