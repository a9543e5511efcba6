import ProcLang.Proofs.Codegen.Shape

/-! Where the code of each part of a body stands. -/
namespace ProcLang.Codegen

open Assembly

/-- What code is generated for. -/
inductive Task where
  | value (e : Expression)
  | address (e : Expression)
  | statement (s : Statement)

namespace Task

def code (g : Codegen.Context) : Task → Except Fault Code
  | .value e => expressionCode g e
  | .address e => addressCode g e
  | .statement s => statementCode g s

def expression? : Task → Option Expression
  | .value e | .address e => some e
  | .statement _ => none

/-- All expressions in a task. -/
def parts : Task → List Expression
  | .value e | .address e => e.parts
  | .statement s => s.parts

end Task

/-- The code of a task holds that of another one, behind some lines. -/
inductive Part (g : Codegen.Context) : Task → Code → Task → Prop
  | operand {loc : Nat} {token : Token} {e : Expression} {earlier later : List Expression}
      {op : Operator} {type : Option TypeAt} {before : Code} (href : op ≠ .reference)
      (hassign : op ≠ .assignment) (hlater : operandsCode g later = .ok before) :
      Part g (.value (.operation loc token (earlier ++ e :: later) (some op) type)) before
        (.value e)
  | referent (loc : Nat) (token : Token) (e : Expression) (type : Option TypeAt) :
      Part g (.value (.operation loc token [e] (some .reference) type)) [] (.address e)
  | assigned (loc : Nat) (token : Token) (target value : Expression) (type : Option TypeAt) :
      Part g (.value (.operation loc token [target, value] (some .assignment) type)) []
        (.value value)
  | target {loc : Nat} {token : Token} {target value : Expression} {type : Option TypeAt}
      {before : Code} (hvalue : expressionCode g value = .ok before) :
      Part g (.value (.operation loc token [target, value] (some .assignment) type)) before
        (.address target)
  | pointer (loc : Nat) (token : Token) (e : Expression) (type : Option TypeAt) :
      Part g (.address (.operation loc token [e] (some .dereference) type)) [] (.value e)
  | item {loc : Nat} {s : Statement} {earlier later : List Statement} {before : Code}
      (hearlier : statementsCode g earlier = .ok before) :
      Part g (.statement (.block loc (earlier ++ s :: later))) before (.statement s)
  | ifTest (loc : Nat) (e : Expression) (yes : Statement) :
      Part g (.statement (.ifThen loc e yes)) [] (.value e)
  | ifYes {loc : Nat} {e : Expression} {yes : Statement} {test : Code}
      (htest : conditionCode g e (.afterIf loc) = .ok test) :
      Part g (.statement (.ifThen loc e yes)) test (.statement yes)
  | elseTest (loc : Nat) (e : Expression) (yes no : Statement) :
      Part g (.statement (.ifThenElse loc e yes no)) [] (.value e)
  | elseYes {loc : Nat} {e : Expression} {yes no : Statement} {test : Code}
      (htest : conditionCode g e (.elseBranch loc) = .ok test) :
      Part g (.statement (.ifThenElse loc e yes no)) test (.statement yes)
  | elseNo {loc : Nat} {e : Expression} {yes no : Statement} {test yesCode : Code}
      (htest : conditionCode g e (.elseBranch loc) = .ok test)
      (hyes : statementCode g yes = .ok yesCode) :
      Part g (.statement (.ifThenElse loc e yes no))
        (test ++ yesCode ++ [.instruction (.jump (.afterIfElse loc)), .label (.elseBranch loc)])
        (.statement no)
  | loopTest (loc : Nat) (e : Expression) (body : Statement) :
      Part g (.statement (.loop loc e body)) [.label (.loopStart loc)] (.value e)
  | loopBody {loc : Nat} {e : Expression} {body : Statement} {test : Code}
      (htest : conditionCode g e (.afterLoop loc) = .ok test) :
      Part g (.statement (.loop loc e body)) ([.label (.loopStart loc)] ++ test) (.statement body)
  | returned (loc : Nat) (e : Expression) :
      Part g (.statement (.ret loc (some e))) [] (.value e)
  | evaluated (e : Expression) : Part g (.statement (.expression e)) [] (.value e)

/-- The code of a task, behind some lines of the whole. -/
inductive Emitted (g : Codegen.Context) (whole : Task) : Code → Task → Prop
  | whole : Emitted g whole [] whole
  | part {before more : Code} {t t' : Task} (h : Emitted g whole before t)
      (hpart : Part g t more t') : Emitted g whole (before ++ more) t'

variable {g : Codegen.Context} {t t' whole : Task} {code before before' : Code}

theorem operandsCode_split {e : Expression} {earlier later : List Expression}
    (h : operandsCode g (earlier ++ e :: later) = .ok code) :
    ∃ rest own, operandsCode g later = .ok rest ∧ expressionCode g e = .ok own ∧
      rest ++ own <+: code := by
  induction earlier generalizing code with
  | nil =>
    rw [List.nil_append, operandsCode] at h
    obtain ⟨rest, hrest, h⟩ := Outcome.bind_eq_ok.mp h
    obtain ⟨own, hown, h⟩ := Outcome.bind_eq_ok.mp h
    cases h
    exact ⟨rest, own, hrest, hown, List.prefix_rfl⟩
  | cons e' earlier ih =>
    rw [List.cons_append, operandsCode] at h
    obtain ⟨most, hmost, h⟩ := Outcome.bind_eq_ok.mp h
    obtain ⟨last, -, h⟩ := Outcome.bind_eq_ok.mp h
    cases h
    obtain ⟨rest, own, hrest, hown, hprefix⟩ := ih hmost
    exact ⟨rest, own, hrest, hown, hprefix.trans (List.prefix_append most last)⟩

theorem statementsCode_split {s : Statement} {earlier later : List Statement}
    (h : statementsCode g (earlier ++ s :: later) = .ok code) :
    ∃ first own, statementsCode g earlier = .ok first ∧ statementCode g s = .ok own ∧
      first ++ own <+: code := by
  induction earlier generalizing code with
  | nil =>
    rw [List.nil_append, statementsCode] at h
    obtain ⟨own, hown, h⟩ := Outcome.bind_eq_ok.mp h
    obtain ⟨rest, -, h⟩ := Outcome.bind_eq_ok.mp h
    cases h
    refine ⟨[], own, ?_, hown, List.prefix_append own rest⟩
    rw [statementsCode]
  | cons s' earlier ih =>
    rw [List.cons_append, statementsCode] at h
    obtain ⟨head, hhead, h⟩ := Outcome.bind_eq_ok.mp h
    obtain ⟨rest, hrest, h⟩ := Outcome.bind_eq_ok.mp h
    cases h
    obtain ⟨first, own, hfirst, hown, hprefix⟩ := ih hrest
    refine ⟨head ++ first, own, ?_, hown, ?_⟩
    · rw [statementsCode, hhead, hfirst]
      rfl
    · rwa [List.append_assoc, List.prefix_append_right_inj]

/-- The code of a part stands where it is said to. -/
theorem Part.code_prefix (hpart : Part g t before t') (hcode : t.code g = .ok code) :
    ∃ own, t'.code g = .ok own ∧ before ++ own <+: code := by
  cases hpart with
  | operand href hassign hlater =>
    obtain ⟨operands, tail, hoperands, -, rfl⟩ := expressionCode_operands hcode href hassign
    obtain ⟨rest, own, hrest, hown, hprefix⟩ := operandsCode_split hoperands
    cases hlater.symm.trans hrest
    exact ⟨own, hown, hprefix.trans (List.prefix_append operands tail)⟩
  | referent loc token e type =>
    obtain ⟨e', heq, hown⟩ := expressionCode_reference hcode
    cases heq
    exact ⟨code, hown, List.prefix_rfl⟩
  | assigned loc token target value type =>
    obtain ⟨target', value', heq, targetCode, valueCode, w, -, hvalue, -, rfl⟩ :=
      expressionCode_assignment hcode
    cases heq
    exact ⟨valueCode, hvalue, by simp⟩
  | target hbefore =>
    obtain ⟨target', value', heq, targetCode, valueCode, w, htarget, hvalue, -, rfl⟩ :=
      expressionCode_assignment hcode
    cases heq
    cases hbefore.symm.trans hvalue
    exact ⟨targetCode, htarget, List.prefix_append _ _⟩
  | pointer loc token e type =>
    rw [Task.code] at hcode
    obtain ⟨-, e', heq, hown⟩ := addressCode_operation hcode
    cases heq
    exact ⟨code, hown, List.prefix_rfl⟩
  | item hearlier =>
    rw [Task.code, statementCode] at hcode
    obtain ⟨first, own, hfirst, hown, hprefix⟩ := statementsCode_split hcode
    cases hearlier.symm.trans hfirst
    exact ⟨own, hown, hprefix⟩
  | ifTest loc e yes =>
    rw [Task.code, statementCode] at hcode
    obtain ⟨test, htest, hcode⟩ := Outcome.bind_eq_ok.mp hcode
    obtain ⟨own, hown, rfl⟩ := conditionCode_iff.mp htest
    obtain ⟨yesCode, -, hcode⟩ := Outcome.bind_eq_ok.mp hcode
    cases hcode
    exact ⟨own, hown, by simp⟩
  | ifYes htest =>
    rw [Task.code, statementCode, htest, Outcome.ok_bind] at hcode
    obtain ⟨yesCode, hyes, hcode⟩ := Outcome.bind_eq_ok.mp hcode
    cases hcode
    exact ⟨yesCode, hyes, List.prefix_append _ _⟩
  | elseTest loc e yes no =>
    rw [Task.code, statementCode] at hcode
    obtain ⟨test, htest, hcode⟩ := Outcome.bind_eq_ok.mp hcode
    obtain ⟨own, hown, rfl⟩ := conditionCode_iff.mp htest
    obtain ⟨yesCode, -, hcode⟩ := Outcome.bind_eq_ok.mp hcode
    obtain ⟨noCode, -, hcode⟩ := Outcome.bind_eq_ok.mp hcode
    cases hcode
    exact ⟨own, hown, by simp⟩
  | elseYes htest =>
    rw [Task.code, statementCode, htest, Outcome.ok_bind] at hcode
    obtain ⟨yesCode, hyes, hcode⟩ := Outcome.bind_eq_ok.mp hcode
    obtain ⟨noCode, -, hcode⟩ := Outcome.bind_eq_ok.mp hcode
    cases hcode
    exact ⟨yesCode, hyes, by simp⟩
  | elseNo htest hyes =>
    rw [Task.code, statementCode, htest, Outcome.ok_bind, hyes, Outcome.ok_bind] at hcode
    obtain ⟨noCode, hno, hcode⟩ := Outcome.bind_eq_ok.mp hcode
    cases hcode
    exact ⟨noCode, hno, List.prefix_append _ _⟩
  | loopTest loc e body =>
    rw [Task.code, statementCode] at hcode
    obtain ⟨test, htest, hcode⟩ := Outcome.bind_eq_ok.mp hcode
    obtain ⟨own, hown, rfl⟩ := conditionCode_iff.mp htest
    obtain ⟨bodyCode, -, hcode⟩ := Outcome.bind_eq_ok.mp hcode
    cases hcode
    exact ⟨own, hown, by simp⟩
  | loopBody htest =>
    rw [Task.code, statementCode, htest, Outcome.ok_bind] at hcode
    obtain ⟨bodyCode, hbody, hcode⟩ := Outcome.bind_eq_ok.mp hcode
    cases hcode
    exact ⟨bodyCode, hbody, List.prefix_append _ _⟩
  | returned loc e | evaluated e =>
    rw [Task.code, statementCode] at hcode
    obtain ⟨own, hown, hcode⟩ := Outcome.bind_eq_ok.mp hcode
    cases hcode
    exact ⟨own, hown, List.prefix_append own _⟩

theorem Part.parts_subset (hpart : Part g t before t') : t'.parts ⊆ t.parts := by
  intro e he
  cases hpart with
  | operand href hassign hlater =>
    exact Expression.mem_parts_operation.mpr (.inr ⟨_, by simp, he⟩)
  | referent | pointer => exact Expression.mem_parts_operation.mpr (.inr ⟨_, by simp, he⟩)
  | assigned | target => exact Expression.mem_parts_operation.mpr (.inr ⟨_, by simp, he⟩)
  | item hearlier => exact Statement.mem_parts_block.mpr ⟨_, by simp, he⟩
  | returned loc e' => simpa [Task.parts] using he
  | evaluated e' => simpa [Task.parts] using he
  | _ =>
    simp only [Task.parts, Statement.parts_ifThen, Statement.parts_ifThenElse,
      Statement.parts_loop, List.mem_append] at he ⊢
    tauto

namespace Emitted

theorem code_prefix (h : Emitted g whole before t) (hcode : whole.code g = .ok code) :
    ∃ own, t.code g = .ok own ∧ before ++ own <+: code := by
  induction h with
  | whole => exact ⟨code, hcode, List.prefix_rfl⟩
  | part _ hpart ih =>
    obtain ⟨own, hown, hprefix⟩ := ih
    obtain ⟨inner, hinner, hinside⟩ := hpart.code_prefix hown
    refine ⟨inner, hinner, List.IsPrefix.trans ?_ hprefix⟩
    rwa [List.append_assoc, List.prefix_append_right_inj]

theorem parts_subset (h : Emitted g whole before t) : t.parts ⊆ whole.parts := by
  induction h with
  | whole => exact List.Subset.refl _
  | part _ hpart ih => exact List.Subset.trans hpart.parts_subset ih

theorem trans (h : Emitted g whole before t) (h' : Emitted g t before' t') :
    Emitted g whole (before ++ before') t' := by
  induction h' with
  | whole => rwa [List.append_nil]
  | part _ hpart ih =>
    rw [← List.append_assoc]
    exact .part ih hpart

/-- What is emitted is the whole or stands in one of its own parts. -/
theorem cases_head (h : Emitted g whole before t) : before = [] ∧ t = whole ∨
    ∃ first rest t', Part g whole first t' ∧ Emitted g t' rest t ∧ before = first ++ rest := by
  induction h with
  | whole => exact .inl ⟨rfl, rfl⟩
  | @part before more t₁ t₂ h hpart ih =>
    right
    rcases ih with ⟨rfl, rfl⟩ | ⟨first, rest, t', hfirst, hrest, rfl⟩
    · exact ⟨more, [], t₂, hpart, .whole, by simp⟩
    · exact ⟨first, rest ++ more, t', hfirst, .part hrest hpart, by simp⟩

end Emitted

/-- Some code stands for an expression, as a value or as an address. -/
def Covers (g : Codegen.Context) (whole : Task) (e : Expression) : Prop :=
  ∃ before t, Emitted g whole before t ∧ t.expression? = some e

theorem Part.covers {e : Expression} (hpart : Part g whole before t) (h : Covers g t e) :
    Covers g whole e := by
  obtain ⟨before', t', hemitted, ht'⟩ := h
  exact ⟨_, t', (Emitted.part .whole hpart).trans hemitted, ht'⟩

/-- The code of an expression has code for all of its parts. -/
theorem covers_expression (e : Expression) :
    (∀ code, expressionCode g e = .ok code → ∀ e' ∈ e.parts, Covers g (.value e) e') ∧
      ∀ code, addressCode g e = .ok code → ∀ e' ∈ e.parts, Covers g (.address e) e' := by
  induction e with
  | literal l =>
    refine ⟨fun code _ e' he' => ?_, fun code hcode => by cases hcode⟩
    cases List.mem_singleton.mp (Expression.parts_literal l ▸ he')
    exact ⟨[], _, .whole, rfl⟩
  | var v =>
    refine ⟨fun code _ e' he' => ?_, fun code _ e' he' => ?_⟩
    all_goals
      cases List.mem_singleton.mp (Expression.parts_var v ▸ he')
      exact ⟨[], _, .whole, rfl⟩
  | operation loc token es op type ih =>
    refine ⟨fun code hcode e' he' => ?_, fun code hcode e' he' => ?_⟩
    · rcases Expression.mem_parts_operation.mp he' with rfl | ⟨e, he, hpart⟩
      · exact ⟨[], _, .whole, rfl⟩
      cases op with
      | none => simp [expressionCode] at hcode
      | some op =>
        by_cases href : op = .reference
        · subst href
          obtain ⟨referent, rfl, hown⟩ := expressionCode_reference hcode
          obtain rfl := List.mem_singleton.mp he
          exact (Part.referent loc token e type).covers ((ih e he).2 code hown e' hpart)
        by_cases hassign : op = .assignment
        · subst hassign
          obtain ⟨target, value, rfl, targetCode, valueCode, w, htarget, hvalue, -, rfl⟩ :=
            expressionCode_assignment hcode
          rcases List.mem_pair.mp he with rfl | rfl
          · exact (Part.target hvalue).covers ((ih e he).2 _ htarget e' hpart)
          · exact (Part.assigned loc token target e type).covers ((ih e he).1 _ hvalue e' hpart)
        obtain ⟨operands, tail, hoperands, -, rfl⟩ := expressionCode_operands hcode href hassign
        obtain ⟨earlier, later, rfl⟩ := List.append_of_mem he
        obtain ⟨rest, own, hrest, hown, -⟩ := operandsCode_split hoperands
        exact (Part.operand href hassign hrest).covers ((ih e he).1 own hown e' hpart)
    · obtain ⟨rfl, pointer, rfl, hown⟩ := addressCode_operation hcode
      rcases Expression.mem_parts_operation.mp he' with rfl | ⟨e, he, hpart⟩
      · exact ⟨[], _, .whole, rfl⟩
      · obtain rfl := List.mem_singleton.mp he
        exact (Part.pointer loc token e type).covers ((ih e he).1 code hown e' hpart)

theorem Part.covers_value {e e' : Expression} (hpart : Part g whole before (.value e'))
    (hcode : whole.code g = .ok code) (he : e ∈ e'.parts) : Covers g whole e := by
  obtain ⟨own, hown, -⟩ := hpart.code_prefix hcode
  exact hpart.covers ((covers_expression e').1 own hown e he)

/-- The code of a statement has code for every expression in it. -/
theorem covers_statement {s : Statement} (hcode : statementCode g s = .ok code) :
    ∀ e ∈ s.parts, Covers g (.statement s) e := by
  intro e he
  induction s generalizing code with
  | block loc body ih =>
    obtain ⟨s, hs, hpart⟩ := Statement.mem_parts_block.mp he
    obtain ⟨earlier, later, rfl⟩ := List.append_of_mem hs
    rw [statementCode] at hcode
    obtain ⟨first, own, hfirst, hown, -⟩ := statementsCode_split hcode
    exact (Part.item hfirst).covers (ih s hs hown hpart)
  | ifThen loc condition yes ih =>
    have hparts := hcode
    rw [statementCode] at hparts
    obtain ⟨test, htest, hparts⟩ := Outcome.bind_eq_ok.mp hparts
    obtain ⟨yesCode, hyes, -⟩ := Outcome.bind_eq_ok.mp hparts
    rw [Statement.parts_ifThen, List.mem_append] at he
    rcases he with he | he
    · exact (Part.ifTest loc condition yes).covers_value hcode he
    · exact (Part.ifYes htest).covers (ih hyes he)
  | ifThenElse loc condition yes no ihy ihn =>
    have hparts := hcode
    rw [statementCode] at hparts
    obtain ⟨test, htest, hparts⟩ := Outcome.bind_eq_ok.mp hparts
    obtain ⟨yesCode, hyes, hparts⟩ := Outcome.bind_eq_ok.mp hparts
    obtain ⟨noCode, hno, -⟩ := Outcome.bind_eq_ok.mp hparts
    rw [Statement.parts_ifThenElse, List.mem_append, List.mem_append] at he
    rcases he with (he | he) | he
    · exact (Part.elseTest loc condition yes no).covers_value hcode he
    · exact (Part.elseYes htest).covers (ihy hyes he)
    · exact (Part.elseNo htest hyes).covers (ihn hno he)
  | loop loc condition body ih =>
    have hparts := hcode
    rw [statementCode] at hparts
    obtain ⟨test, htest, hparts⟩ := Outcome.bind_eq_ok.mp hparts
    obtain ⟨bodyCode, hbody, -⟩ := Outcome.bind_eq_ok.mp hparts
    rw [Statement.parts_loop, List.mem_append] at he
    rcases he with he | he
    · exact (Part.loopTest loc condition body).covers_value hcode he
    · exact (Part.loopBody htest).covers (ih hbody he)
  | ret loc value =>
    cases value with
    | none =>
      rw [Statement.parts_ret_none] at he
      cases he
    | some e' =>
      rw [Statement.parts_ret_some] at he
      exact (Part.returned loc e').covers_value hcode he
  | expression e' =>
    rw [Statement.parts_expression] at he
    exact (Part.evaluated e').covers_value hcode he

/-- The code of a literal stands in the code of whatever it is part of. -/
theorem exists_literalCode {s : Statement} (hcode : statementCode g s = .ok code) {l : Literal}
    (hl : .literal l ∈ s.parts) : ∃ own, literalCode l = .ok own ∧ own <:+: code := by
  obtain ⟨before, t, hemitted, ht⟩ := covers_statement hcode _ hl
  obtain ⟨own, hown, after, hsplit⟩ := hemitted.code_prefix hcode
  cases t with
  | value e =>
    cases ht
    rw [Task.code, expressionCode] at hown
    exact ⟨own, hown, before, after, hsplit⟩
  | address e =>
    cases ht
    cases hown
  | statement s => cases ht

end ProcLang.Codegen
