import ProcLang.Proofs.Codegen.Shape
import ProcLang.Proofs.Machine.Execution

/-! Labels of code. Those inside of a procedure carry the positions of the statements that they come
from, so they are distinct if these are. -/
namespace ProcLang

open Assembly Codegen

namespace Assembly

@[simp] theorem labelsOf_nil : labelsOf [] = [] := rfl

@[simp] theorem labelsOf_append (first rest : Code) :
    labelsOf (first ++ rest) = labelsOf first ++ labelsOf rest :=
  List.filterMap_append

@[simp] theorem labelsOf_label (l : Label) (code : Code) :
    labelsOf (.label l :: code) = l :: labelsOf code := rfl

@[simp] theorem labelsOf_instruction (i : Instruction) (code : Code) :
    labelsOf (.instruction i :: code) = labelsOf code := rfl

@[simp] theorem labelsOf_instructions (is : List Instruction) :
    labelsOf (instructions is) = [] := by
  induction is with
  | nil => rfl
  | cons i is ih => exact ih

/-- The position that a label inside of a procedure carries. -/
def Label.position? : Label → Option Nat
  | .afterIf loc | .elseBranch loc | .afterIfElse loc | .loopStart loc | .afterLoop loc => some loc
  | _ => none

/-- Labels inside of a procedure. -/
def Label.isLocal : Label → Bool
  | .exit | .afterIf _ | .elseBranch _ | .afterIfElse _ | .loopStart _ | .afterLoop _ => true
  | .procedure _ | .global _ | .character _ | .string _ => false

theorem Label.isLocal_of_position? {l : Label} {loc : Nat} (h : l.position? = some loc) :
    l.isLocal := by
  cases l <;> first | rfl | cases h

/-- Distinct labels that carry some positions. -/
structure Tagged (locs : List Nat) (ls : List Label) : Prop where
  nodup : ls.Nodup
  position : ∀ l ∈ ls, ∃ loc ∈ locs, l.position? = some loc

namespace Tagged

variable {locs locs' : List Nat} {ls ls' : List Label}

theorem nil (locs : List Nat) : Tagged locs [] :=
  ⟨List.nodup_nil, by simp⟩

theorem perm (h : Tagged locs ls) (hp : ls.Perm ls') : Tagged locs ls' :=
  ⟨hp.nodup_iff.mp h.nodup, fun l hl => h.position l (hp.mem_iff.mpr hl)⟩

theorem append (h : Tagged locs ls) (h' : Tagged locs' ls') (hnodup : (locs ++ locs').Nodup) :
    Tagged (locs ++ locs') (ls ++ ls') := by
  have hdisjoint := (List.nodup_append.mp hnodup).2.2
  refine ⟨List.nodup_append.mpr ⟨h.nodup, h'.nodup, ?_⟩, ?_⟩
  · rintro l hl _ hl' rfl
    obtain ⟨loc, hloc, hp⟩ := h.position l hl
    obtain ⟨loc', hloc', hp'⟩ := h'.position l hl'
    cases hp.symm.trans hp'
    exact hdisjoint loc hloc loc hloc' rfl
  · intro l hl
    rcases List.mem_append.mp hl with hl | hl
    · obtain ⟨loc, hloc, hp⟩ := h.position l hl
      exact ⟨loc, List.mem_append_left _ hloc, hp⟩
    · obtain ⟨loc, hloc, hp⟩ := h'.position l hl
      exact ⟨loc, List.mem_append_right _ hloc, hp⟩

end Tagged

end Assembly

namespace Codegen

variable {g : Codegen.Context} {code : Code}

theorem labelsOf_literal {l : Literal} (h : literalCode l = .ok code) : labelsOf code = [] := by
  obtain ⟨value, loc⟩ := l
  cases value with
  | integer value =>
    unfold literalCode at h
    dsimp only at h
    split at h <;> cases h <;> simp
  | boolean _ | character _ | text _ =>
    cases h
    simp [loadCode]

theorem labelsOf_plain (op : Operator) (count : Nat) : labelsOf (plainCode op count) = [] := by
  have hfold : ∀ b, labelsOf (foldCode b count) = [] := by
    intro b
    unfold foldCode
    induction count - 1 with
    | zero => rfl
    | succ n ih => simp [List.replicate_succ, ih]
  cases op <;> simp [plainCode, hfold, unaryCode, compareCode, divideCode]

theorem labelsOf_closes {op : Operator} {count : Nat} {type : Option TypeAt}
    (h : Closes g count type op code) : labelsOf code = [] := by
  cases h with
  | load _ _ => simp [loadCode]
  | call _ _ => simp [callCode]
  | plain _ => exact labelsOf_plain op count

theorem labelsOf_composed (h : Composed g code) : labelsOf code = [] := by
  induction h with
  | nil => rfl
  | append _ _ hfirst hrest => rw [labelsOf_append, hfirst, hrest, List.append_nil]
  | literal h => exact labelsOf_literal h
  | load w a => simp [loadCode]
  | closes h => exact labelsOf_closes h
  | address a | store w => simp

/-- Expressions declare no labels. -/
theorem labelsOf_expression {e : Expression} (h : expressionCode g e = .ok code) :
    labelsOf code = [] :=
  labelsOf_composed ((composed_expression e).1 code h)

end Codegen

namespace Statement

mutual

/-- Positions of the branches and loops in a statement. -/
def controls : Statement → List Nat
  | .block _ body => allControls body
  | .ifThen loc _ yes => loc :: yes.controls
  | .ifThenElse loc _ yes no => loc :: (yes.controls ++ no.controls)
  | .loop loc _ body => loc :: body.controls
  | .ret .. | .expression _ => []

def allControls : List Statement → List Nat
  | [] => []
  | s :: ss => s.controls ++ allControls ss

end

end Statement

namespace Codegen

variable {g : Codegen.Context} {code : Code}

theorem labelsOf_condition {e : Expression} {target : Label}
    (h : conditionCode g e target = .ok code) : labelsOf code = [] := by
  obtain ⟨test, htest, rfl⟩ := conditionCode_iff.mp h
  simp [labelsOf_expression htest]

theorem tagged_statements {ss : List Statement}
    (ih : ∀ s ∈ ss, ∀ code, statementCode g s = .ok code → s.controls.Nodup →
      Tagged s.controls (labelsOf code))
    (h : statementsCode g ss = .ok code) (hnodup : (Statement.allControls ss).Nodup) :
    Tagged (Statement.allControls ss) (labelsOf code) := by
  induction ss generalizing code with
  | nil =>
    cases h
    exact .nil _
  | cons s ss ihs =>
    rw [statementsCode] at h
    obtain ⟨first, hfirst, h⟩ := Outcome.bind_eq_ok.mp h
    obtain ⟨rest, hrest, h⟩ := Outcome.bind_eq_ok.mp h
    cases h
    rw [Statement.allControls] at hnodup ⊢
    obtain ⟨hs, hss, -⟩ := List.nodup_append.mp hnodup
    rw [labelsOf_append]
    exact (ih s (by simp) first hfirst hs).append
      (ihs (fun s hs => ih s (by simp [hs])) hrest hss) hnodup

/-- Each branch and each loop has labels of its own. -/
theorem tagged_statement {s : Statement} (h : statementCode g s = .ok code)
    (hnodup : s.controls.Nodup) : Tagged s.controls (labelsOf code) := by
  induction s generalizing code with
  | block loc body ih =>
    rw [statementCode] at h
    rw [Statement.controls] at hnodup ⊢
    exact tagged_statements (fun s hs code => ih s hs) h hnodup
  | ifThen loc condition yes ih =>
    rw [statementCode] at h
    obtain ⟨test, htest, h⟩ := Outcome.bind_eq_ok.mp h
    obtain ⟨yesCode, hyes, h⟩ := Outcome.bind_eq_ok.mp h
    cases h
    rw [Statement.controls] at hnodup ⊢
    have hown : Tagged [loc] [.afterIf loc] := ⟨by simp, by simp [Label.position?]⟩
    have hall := hown.append (ih hyes (List.nodup_cons.mp hnodup).2) hnodup
    simp only [labelsOf_append, labelsOf_condition htest, labelsOf_label, labelsOf_nil]
    exact hall.perm List.perm_append_comm
  | ifThenElse loc condition yes no ihy ihn =>
    rw [statementCode] at h
    obtain ⟨test, htest, h⟩ := Outcome.bind_eq_ok.mp h
    obtain ⟨yesCode, hyes, h⟩ := Outcome.bind_eq_ok.mp h
    obtain ⟨noCode, hno, h⟩ := Outcome.bind_eq_ok.mp h
    cases h
    rw [Statement.controls] at hnodup ⊢
    have hbranches := (List.nodup_cons.mp hnodup).2
    obtain ⟨hyesNodup, hnoNodup, -⟩ := List.nodup_append.mp hbranches
    have hown : Tagged [loc] [.elseBranch loc, .afterIfElse loc] :=
      ⟨by simp, by simp [Label.position?]⟩
    have hall := hown.append ((ihy hyes hyesNodup).append (ihn hno hnoNodup) hbranches) hnodup
    have hperm : List.Perm
        ([Label.elseBranch loc, .afterIfElse loc] ++ (labelsOf yesCode ++ labelsOf noCode))
        (labelsOf yesCode ++ .elseBranch loc :: (labelsOf noCode ++ [.afterIfElse loc])) :=
      .trans (.cons _ (.trans List.perm_append_comm (.of_eq (List.append_assoc ..))))
        List.perm_middle.symm
    simpa [labelsOf_condition htest] using hall.perm hperm
  | loop loc condition body ih =>
    rw [statementCode] at h
    obtain ⟨test, htest, h⟩ := Outcome.bind_eq_ok.mp h
    obtain ⟨bodyCode, hbody, h⟩ := Outcome.bind_eq_ok.mp h
    cases h
    rw [Statement.controls] at hnodup ⊢
    have hown : Tagged [loc] [.loopStart loc, .afterLoop loc] :=
      ⟨by simp, by simp [Label.position?]⟩
    have hall := hown.append (ih hbody (List.nodup_cons.mp hnodup).2) hnodup
    have hperm : List.Perm ([Label.loopStart loc, .afterLoop loc] ++ labelsOf bodyCode)
        (.loopStart loc :: (labelsOf bodyCode ++ [.afterLoop loc])) :=
      .cons _ List.perm_append_comm
    simpa [labelsOf_condition htest] using hall.perm hperm
  | ret loc value =>
    cases value with
    | none =>
      cases h
      exact .nil _
    | some e =>
      rw [statementCode] at h
      obtain ⟨value, hvalue, h⟩ := Outcome.bind_eq_ok.mp h
      cases h
      simpa [labelsOf_expression hvalue] using Tagged.nil _
  | expression e =>
    rw [statementCode] at h
    obtain ⟨value, hvalue, h⟩ := Outcome.bind_eq_ok.mp h
    cases h
    simpa [labelsOf_expression hvalue] using Tagged.nil _

end Codegen

end ProcLang
