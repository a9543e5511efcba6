import Mathlib.Data.List.Forall2
import ProcLang.Proofs.Relocation.Code
import ProcLang.Proofs.Symbols.Label

/-! Lines of an assembly, as they are printed. Relocation changes the numbers in labels, and the
other characters stay, so that lines end where they ended. -/
namespace ProcLang.Assembly

/-- The position in the name of a label. -/
def Label.loc? : Label → Option Nat
  | .afterIf loc | .elseBranch loc | .afterIfElse loc | .loopStart loc | .afterLoop loc
  | .character loc | .string loc => some loc
  | .procedure _ | .exit | .global _ => none

/-- The label that an address stands for. -/
def Address.label? : Address → Option Label
  | .data label => some label
  | .frame _ | .pointer => none

/-- The label that an instruction refers to. -/
def Instruction.label? : Instruction → Option Label
  | .load _ address | .loadAddress address => address.label?
  | .jumpIfEqual target | .jump target | .call target => some target
  | _ => none

/-- The label that a line declares or refers to. -/
def Line.mention? : Line → Option Label
  | .label l => some l
  | .instruction i => i.label?

/-- Positions in the labels of an assembly, in the order of its text. -/
def positions (a : Assembly) : List Nat :=
  (a.procedures.flatten.filterMap Line.mention? ++ a.data.map Datum.label).filterMap Label.loc?

/-- Texts that are equal, but for labels with a position: these stand relocated in the second. -/
inductive SameText (f : Nat → Nat) : List Char → List Char → Prop
  | nil : SameText f [] []
  | char (c : Char) {cs cs' : List Char} (rest : SameText f cs cs') :
      SameText f (c :: cs) (c :: cs')
  | label {l : Label} {cs cs' : List Char} (positioned : l.loc?.isSome)
      (rest : SameText f cs cs') :
      SameText f (l.text.toList ++ cs) ((l.relocate f).text.toList ++ cs')

variable {f : Nat → Nat}

section

theorem Label.loc?_relocate (l : Label) : (l.relocate f).loc? = l.loc?.map f := by
  cases l <;> rfl

theorem Label.relocate_of_loc? {l : Label} (h : l.loc? = none) : l.relocate f = l := by
  cases l with
  | procedure _ | exit | global _ => rfl
  | afterIf _ | elseBranch _ | afterIfElse _ | loopStart _ | afterLoop _ | character _ | string _ =>
    cases h

theorem Line.mention?_relocate (l : Line) :
    (l.relocate f).mention? = l.mention?.map (Label.relocate f) := by
  cases l with
  | label l => rfl
  | instruction i =>
    cases i with
    | load width address => cases address <;> rfl
    | loadAddress address => cases address <;> rfl
    | _ => rfl

theorem lines_relocate (a : Assembly) :
    (a.relocate f).procedures.flatten = a.procedures.flatten.map (Line.relocate f) :=
  List.map_flatten.symm

theorem positions_relocate (a : Assembly) : (a.relocate f).positions = a.positions.map f := by
  have hdata : (a.relocate f).data.map Datum.label =
      (a.data.map Datum.label).map (Label.relocate f) := by
    rw [relocate, List.map_map, List.map_map]
    rfl
  rw [positions, lines_relocate, hdata, filterMap_map_comm Line.mention?_relocate,
    ← List.map_append, filterMap_map_comm Label.loc?_relocate, positions]

end

namespace SameText

theorem refl (cs : List Char) : SameText f cs cs := by
  induction cs with
  | nil => exact nil
  | cons c cs ih => exact char c ih

theorem append {cs cs' ds ds' : List Char} (h : SameText f cs cs') (h' : SameText f ds ds') :
    SameText f (cs ++ ds) (cs' ++ ds') := by
  induction h with
  | nil => exact h'
  | char c _ ih => exact char c ih
  | label positioned _ ih =>
    rw [List.append_assoc, List.append_assoc]
    exact label positioned ih

theorem of_label (l : Label) : SameText f l.text.toList (l.relocate f).text.toList := by
  cases hloc : l.loc? with
  | none =>
    rw [Label.relocate_of_loc? hloc]
    exact refl _
  | some loc =>
    have hlabel := label (f := f) (Option.isSome_of_eq_some hloc) nil
    simpa only [List.append_nil] using hlabel

theorem concat {s s' t t' : String} (h : SameText f s.toList s'.toList)
    (h' : SameText f t.toList t'.toList) : SameText f (s ++ t).toList (s' ++ t').toList := by
  rw [String.toList_append, String.toList_append]
  exact h.append h'

theorem after {s s' : String} (h : SameText f s.toList s'.toList) (front : String) :
    SameText f (front ++ s).toList (front ++ s').toList :=
  (refl _).concat h

theorem before {s s' : String} (h : SameText f s.toList s'.toList) (back : String) :
    SameText f (s ++ back).toList (s' ++ back).toList :=
  h.concat (refl _)

theorem join {α : Type} {text : α → String} {change : α → α}
    (h : ∀ a, SameText f (text a).toList (text (change a)).toList) (as : List α) :
    SameText f (String.join (as.map text)).toList
      (String.join ((as.map change).map text)).toList := by
  induction as with
  | nil => exact nil
  | cons a as ih =>
    simp only [List.map_cons, String.join_cons]
    exact (h a).concat ih

end SameText

theorem Address.sameText (address : Address) :
    SameText f address.text.toList (address.relocate f).text.toList := by
  cases address with
  | data label => exact ((SameText.of_label label).after "[rel ").before "]"
  | frame _ | pointer => exact SameText.refl _

theorem Instruction.sameText (i : Instruction) :
    SameText f i.text.toList (i.relocate f).text.toList := by
  cases i with
  | load width address =>
    exact address.sameText.after s!"mov {width.accumulator}, {width.annotation} "
  | loadAddress address => exact address.sameText.after "lea rax, "
  | jumpIfEqual target => exact (SameText.of_label target).after "je "
  | jump target => exact (SameText.of_label target).after "jmp "
  | call target => exact (SameText.of_label target).after "call "
  | _ => exact SameText.refl _

theorem Line.sameText (l : Line) : SameText f l.text.toList (l.relocate f).text.toList := by
  cases l with
  | label l => exact (SameText.of_label l).before ":\n"
  | instruction i => exact (i.sameText.after "    ").before "\n"

theorem Datum.sameText (d : Datum) : SameText f d.text.toList (d.relocate f).text.toList := by
  have hlabel : SameText f d.label.text.toList (d.relocate f).label.text.toList :=
    SameText.of_label d.label
  exact ((((hlabel.before ": ").before d.width.directive).before " ").before _).before "\n"

theorem sameText (a : Assembly) : SameText f a.text.toList (a.relocate f).text.toList := by
  have hcode := SameText.join (f := f) Line.sameText a.procedures.flatten
  have hdata := SameText.join (f := f) Datum.sameText a.data
  rw [← lines_relocate] at hcode
  exact ((hcode.after _).before "\nsection .data\n").concat hdata

theorem Label.notMem_text {l : Label} (h : l.loc?.isSome) : '\n' ∉ l.text.toList := by
  cases l with
  | procedure _ | exit | global _ => cases h
  | afterIf _ | elseBranch _ | afterIfElse _ | loopStart _ | afterLoop _ | character _ | string _ =>
    simp [text, toString, notMem_toDigits]

theorem splitOn_append {c : Char} {front : List Char} (h : c ∉ front) (cs : List Char) :
    (front ++ cs).splitOn c = (cs.splitOn c).modifyHead (front ++ ·) := by
  induction front with
  | nil => exact congrFun List.modifyHead_id.symm _
  | cons d front ih =>
    obtain ⟨hne, hfront⟩ := List.ne_and_not_mem_of_not_mem_cons h
    rw [List.cons_append, List.splitOn_cons_eq_if_modifyHead, ih hfront,
      if_neg (by simpa using Ne.symm hne), List.modifyHead_modifyHead]
    rfl

namespace SameText

theorem modifyHead {css css' : List (List Char)} (h : List.Forall₂ (SameText f) css css')
    {front front' : List Char} (hfront : SameText f front front') :
    List.Forall₂ (SameText f) (css.modifyHead (front ++ ·)) (css'.modifyHead (front' ++ ·)) := by
  cases h with
  | nil => exact .nil
  | cons hfirst hrest => exact .cons (hfront.append hfirst) hrest

/-- Texts that are the same but for their labels have the same lines but for their labels. -/
theorem splitOn {cs cs' : List Char} (h : SameText f cs cs') :
    List.Forall₂ (SameText f) (cs.splitOn '\n') (cs'.splitOn '\n') := by
  induction h with
  | nil => exact .cons nil .nil
  | char c rest ih =>
    rw [List.splitOn_cons_eq_if_modifyHead, List.splitOn_cons_eq_if_modifyHead]
    split
    · exact .cons nil ih
    · exact modifyHead ih (refl [c])
  | @label l _ _ positioned rest ih =>
    have hmoved : (l.relocate f).loc?.isSome := by
      rw [Label.loc?_relocate, Option.isSome_map]
      exact positioned
    rw [splitOn_append (Label.notMem_text positioned), splitOn_append (Label.notMem_text hmoved)]
    exact modifyHead ih (of_label l)

end SameText

end ProcLang.Assembly
