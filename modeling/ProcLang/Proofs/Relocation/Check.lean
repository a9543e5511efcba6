import ProcLang.Proofs.Relocation.Basic

/-! Checking commutes with relocation: types are compared apart from their positions. -/
namespace ProcLang

open Outcome

variable (f : Nat → Nat)

def Signature.relocate (s : Signature) : Signature :=
  ⟨s.name, s.returns.relocate f, s.parameters.map (Option.map (TypeAt.relocate f))⟩

def Typing.Context.relocate (c : Typing.Context) : Typing.Context :=
  ⟨c.globals.map (Declaration.relocate f), c.parameters.map (Parameter.relocate f),
    c.locals.map (Declaration.relocate f), c.signatures.map (Signature.relocate f),
    c.returns.relocate f⟩

def Judgement.relocate (j : Judgement) : Judgement :=
  ⟨j.type.relocate f, j.warning.map (Warning.relocate f)⟩

variable {f}

namespace Signature

variable (s : Signature)

theorem takeWhile_relocate :
    (s.relocate f).parameters.takeWhile Option.isSome =
      (s.parameters.takeWhile Option.isSome).map (Option.map (TypeAt.relocate f)) := by
  have hsome : Option.isSome ∘ Option.map (TypeAt.relocate f) = Option.isSome :=
    funext fun type => Option.isSome_map
  rw [relocate, List.takeWhile_map, hsome]

@[simp] theorem fixed_relocate : (s.relocate f).fixed = s.fixed := by
  rw [fixed, takeWhile_relocate, List.length_map, fixed]

@[simp] theorem isVariadic_relocate : (s.relocate f).isVariadic = s.isVariadic := by
  have hnone : Option.isNone ∘ Option.map (TypeAt.relocate f) = Option.isNone :=
    funext fun type => Option.isNone_map
  rw [isVariadic, relocate, List.any_map, hnone, isVariadic]

theorem wanted?_relocate (index : Nat) :
    (s.relocate f).wanted? index = (s.wanted? index).map (TypeAt.relocate f) := by
  rw [wanted?, takeWhile_relocate, List.getElem?_map, wanted?]
  cases (s.parameters.takeWhile Option.isSome)[index]? <;> rfl

theorem checkCount_relocate (loc count : Nat) :
    (s.relocate f).checkCount (f loc) count = Outcome.relocate f id (s.checkCount loc count) := by
  rw [checkCount, fixed_relocate, isVariadic_relocate, checkCount]
  split
  · rfl
  · split <;> rfl

end Signature

namespace Typing.Context

variable (c : Typing.Context)

theorem declaration?_relocate (storage : Storage) :
    (c.relocate f).declaration? storage =
      (c.declaration? storage).map (Declaration.relocate f) := by
  cases storage with
  | parameter index =>
    simp only [declaration?, relocate, List.getElem?_map]
    cases c.parameters[index]? with
    | none => rfl
    | some p => exact Parameter.declaration?_relocate f p
  | localVar index => exact List.getElem?_map
  | global index => exact List.getElem?_map

theorem variableType_relocate (v : Variable) :
    (c.relocate f).variableType (v.relocate f) =
      Outcome.relocate f (TypeAt.relocate f) (c.variableType v) := by
  obtain ⟨name, loc, binding, type⟩ := v
  cases binding with
  | none => rfl
  | some storage =>
    simp only [variableType, Variable.relocate, declaration?_relocate]
    cases c.declaration? storage with
    | none => rfl
    | some d => exact congrArg Except.ok (d.type.moveTo_relocate f loc)

end Typing.Context

namespace Operator

variable (op : Operator) (c : Typing.Context)

theorem checkCount_relocate (loc : Nat) (token : Token) (count : Nat) :
    op.checkCount (c.relocate f) (f loc) (token.relocate f) count =
      Outcome.relocate f id (op.checkCount c loc token count) := by
  cases op with
  | subtraction | equality | notEquality | assignment | dereference | reference =>
    simp only [checkCount]
    split <;> rfl
  | call callee =>
    cases callee with
    | none => rfl
    | some index =>
      simp only [checkCount, Typing.Context.relocate, List.getElem?_map]
      cases c.signatures[index]? with
      | none => rfl
      | some s => exact s.checkCount_relocate loc count
  | _ => rfl

theorem checkOperand_relocate (before : List TypeAt) (e : Expression) (type : TypeAt) :
    op.checkOperand (c.relocate f) (before.map (TypeAt.relocate f)) (e.relocate f)
        (type.relocate f) =
      Outcome.relocate f id (op.checkOperand c before e type) := by
  cases op with
  | addition =>
    have hbefore : (before.map (TypeAt.relocate f)).any (·.ty.isPointer) =
        before.any (·.ty.isPointer) := by
      simp only [List.any_map, Function.comp_def, TypeAt.ty_relocate]
    simp only [checkOperand, TypeAt.ty_relocate, hbefore, Expression.loc_relocate]
    split_ifs <;> rfl
  | dereference =>
    simp only [checkOperand, TypeAt.ty_relocate, Expression.loc_relocate]
    split <;> rfl
  | call callee =>
    cases callee with
    | none => rfl
    | some index =>
      have hwanted : ((c.relocate f).signatures[index]?.bind (·.wanted? before.length)) =
          (c.signatures[index]?.bind (·.wanted? before.length)).map (TypeAt.relocate f) := by
        rw [Typing.Context.relocate, List.getElem?_map]
        cases c.signatures[index]? with
        | none => rfl
        | some s => exact s.wanted?_relocate before.length
      simp only [checkOperand, List.length_map, hwanted, Expression.loc_relocate,
        Expression.display_relocate, TypeAt.ty_relocate]
      cases c.signatures[index]?.bind (·.wanted? before.length) with
      | none => rfl
      | some wanted =>
        simp only [Option.map_some, TypeAt.ty_relocate]
        split <;> rfl
  | subtraction | assignment | equality | notEquality | reference => rfl
  | _ =>
    simp only [checkOperand, operandType?, TypeAt.ty_relocate, Expression.loc_relocate]
    split <;> rfl

end Operator

namespace Judgement

theorem silent_relocate (type : TypeAt) (loc : Nat) :
    (.ok (silent ((type.relocate f).moveTo (f loc))) : Except Fault Judgement) =
      Outcome.relocate f (Judgement.relocate f) (.ok (silent (type.moveTo loc))) := by
  rw [TypeAt.moveTo_relocate]
  rfl

theorem assignment_relocate (loc valueLoc : Nat) (target value : TypeAt) :
    assignment (f loc) (f valueLoc) (target.relocate f) (value.relocate f) =
      Outcome.relocate f (Judgement.relocate f) (assignment loc valueLoc target value) := by
  simp only [assignment, TypeAt.ty_relocate, TypeAt.moveTo_relocate]
  split_ifs <;> rfl

theorem subtraction_relocate (loc leftLoc rightLoc : Nat) (left right : TypeAt) :
    subtraction (f loc) (f leftLoc) (f rightLoc) (left.relocate f) (right.relocate f) =
      Outcome.relocate f (Judgement.relocate f)
        (subtraction loc leftLoc rightLoc left right) := by
  simp only [subtraction, TypeAt.ty_relocate, TypeAt.moveTo_relocate]
  split_ifs <;> rfl

end Judgement

namespace Operator

variable (op : Operator) (c : Typing.Context)

theorem judge_relocate (loc : Nat) (es : List Expression) (types : List TypeAt) :
    op.judge (c.relocate f) (f loc) (es.map (Expression.relocate f))
        (types.map (TypeAt.relocate f)) =
      Outcome.relocate f (Judgement.relocate f) (op.judge c loc es types) := by
  cases op with
  | addition =>
    have hpointer : (fun t : TypeAt => t.ty.isPointer) ∘ TypeAt.relocate f =
        fun t => t.ty.isPointer :=
      funext fun t => congrArg Ty.isPointer (t.ty_relocate f)
    simp only [judge, List.find?_map, hpointer]
    cases types.find? (·.ty.isPointer) with
    | none => rfl
    | some pointer => exact Judgement.silent_relocate pointer loc
  | subtraction =>
    rcases es with _ | ⟨l, _ | ⟨r, _ | _⟩⟩
    · rfl
    · rfl
    · rcases types with _ | ⟨left, _ | ⟨right, _ | _⟩⟩
      · rfl
      · rfl
      · simp only [judge, List.map_cons, List.map_nil, Expression.loc_relocate]
        exact Judgement.subtraction_relocate loc l.loc r.loc left right
      · rfl
    · rfl
  | equality | notEquality =>
    rcases types with _ | ⟨left, _ | ⟨right, _ | _⟩⟩
    · rfl
    · rfl
    · simp only [judge, List.map_cons, List.map_nil, TypeAt.ty_relocate]
      split <;> rfl
    · rfl
  | dereference =>
    rcases types with _ | ⟨type, _ | _⟩
    · rfl
    · cases type with
      | pointer base _ => exact Judgement.silent_relocate base loc
      | int _ | char _ | bool _ | void _ => rfl
    · cases type <;> rfl
  | reference => rcases types with _ | ⟨type, _ | _⟩ <;> rfl
  | assignment =>
    rcases es with _ | ⟨target, _ | ⟨v, _ | _⟩⟩
    · rfl
    · rfl
    · rcases types with _ | ⟨left, _ | ⟨right, _ | _⟩⟩
      · rfl
      · rfl
      · simp only [judge, List.map_cons, List.map_nil, Expression.loc_relocate]
        exact Judgement.assignment_relocate loc v.loc left right
      · rfl
    · rfl
  | call callee =>
    cases callee with
    | none => rfl
    | some index =>
      simp only [judge, Typing.Context.relocate, List.getElem?_map]
      cases c.signatures[index]? with
      | none => rfl
      | some s => exact Judgement.silent_relocate s.returns loc
  | _ => rfl

end Operator

namespace Typing.Context

variable (c : Typing.Context)

theorem checkOperands_relocate (op : Operator) {es : List Expression} (before : List TypeAt)
    (ih : ∀ e ∈ es, (c.relocate f).checkExpression (e.relocate f) =
      (c.checkExpression e).relocate f (Expression.relocate f) (TypeAt.relocate f)) :
    (c.relocate f).checkOperands op (before.map (TypeAt.relocate f))
        (es.map (Expression.relocate f)) =
      (c.checkOperands op before es).relocate f (List.map (Expression.relocate f))
        (List.map (TypeAt.relocate f)) := by
  induction es generalizing before with
  | nil => rfl
  | cons e es ihs =>
    rw [List.map_cons, checkOperands, checkOperands, List.length_map, Expression.isPlace_relocate]
    split
    · rw [Expression.loc_relocate, Expression.display_relocate]
      rfl
    · refine Pass.mapTree_relocate (Pass.andThen_relocate (h := TypeAt.relocate f)
        (Pass.require_relocate (ih e List.mem_cons_self) fun type => ?_) rfl fun type => ?_)
        fun _ => rfl
      · exact bind_relocate (op.checkOperand_relocate c before e type) fun _ => rfl
      · have htail := ihs (before ++ [type]) fun e' he' => ih e' (List.mem_cons_of_mem _ he')
        rwa [List.map_append] at htail

theorem checkExpression_relocate (e : Expression) :
    (c.relocate f).checkExpression (e.relocate f) =
      (c.checkExpression e).relocate f (Expression.relocate f) (TypeAt.relocate f) := by
  induction e with
  | literal l =>
    rw [Expression.relocate, checkExpression, checkExpression, Literal.type_relocate]
    rfl
  | var v =>
    rw [Expression.relocate, checkExpression, checkExpression, variableType_relocate]
    cases c.variableType v <;> rfl
  | operation loc token es op type ih =>
    rw [Expression.relocate, Expression.relocateAll_eq_map]
    cases op with
    | none =>
      rw [checkExpression, checkExpression, ← Expression.relocateAll_eq_map]
      rfl
    | some op =>
      have hoperands : (c.relocate f).checkOperands op [] (es.map (Expression.relocate f)) =
          (c.checkOperands op [] es).relocate f (List.map (Expression.relocate f))
            (List.map (TypeAt.relocate f)) := c.checkOperands_relocate op [] ih
      have hjudge : ((c.checkOperands op [] es).relocate f (List.map (Expression.relocate f))
          (List.map (TypeAt.relocate f))).result.bind
            (op.judge (c.relocate f) (f loc) (es.map (Expression.relocate f))) =
          Outcome.relocate f (Judgement.relocate f)
            ((c.checkOperands op [] es).result.bind (op.judge c loc es)) :=
        bind_relocate rfl fun types => op.judge_relocate c loc es types
      rw [checkExpression, checkExpression, List.length_map, Operator.checkCount_relocate]
      cases op.checkCount c loc token es.length with
      | error fault =>
        rw [← Expression.relocateAll_eq_map]
        rfl
      | ok _ =>
        dsimp only [Outcome.relocate, id]
        rw [hoperands, hjudge]
        cases (c.checkOperands op [] es).result.bind (op.judge c loc es) with
        | error fault => simp [Pass.relocate, Outcome.relocate, Expression.relocate]
        | ok judgement =>
          obtain ⟨type, warning⟩ := judgement
          cases warning <;>
            simp [Pass.relocate, Outcome.relocate, Expression.relocate, Judgement.relocate,
              Event.relocate]

theorem checkAs_relocate (role : Role) (e : Expression) :
    (c.relocate f).checkAs (role.relocate f) (e.relocate f) =
      (c.checkAs role e).relocate f (Expression.relocate f) id := by
  have hreturns : (c.relocate f).returns.ty = c.returns.ty := c.returns.ty_relocate f
  cases role with
  | value => exact Pass.require_relocate (j := id) (c.checkExpression_relocate e) fun _ => rfl
  | condition =>
    refine Pass.require_relocate (c.checkExpression_relocate e) fun type => ?_
    rw [TypeAt.ty_relocate, Expression.loc_relocate]
    split <;> rfl
  | returned loc =>
    refine Pass.require_relocate (c.checkExpression_relocate e) fun type => ?_
    rw [TypeAt.ty_relocate, hreturns]
    split <;> rfl

theorem checkStatement_relocate (s : Statement) :
    (c.relocate f).checkStatement (s.relocate f) =
      (c.checkStatement s).relocate f (Statement.relocate f) id := by
  rw [checkStatement_eq_pass, checkStatement_eq_pass]
  exact Statement.pass_relocate c.checkAs_relocate s

end Typing.Context

theorem Declaration.check_relocate (d : Declaration) :
    (d.relocate f).check = Outcome.relocate f id d.check := by
  rw [check, relocate, TypeAt.ty_relocate, check]
  split <;> rfl

theorem Parameter.checkAll_relocate (external : Bool) (ps : List Parameter) :
    checkAll external (ps.map (Parameter.relocate f)) =
      Outcome.relocate f id (checkAll external ps) := by
  induction ps with
  | nil => rfl
  | cons p ps ih =>
    cases p with
    | var d => exact bind_relocate d.check_relocate fun _ => ih
    | etcetera loc =>
      rw [List.map_cons, relocate, checkAll, checkAll, List.isEmpty_map]
      split_ifs <;> rfl

theorem Procedure.checkDeclaration_relocate (q : Procedure) :
    (q.relocate f).checkDeclaration = Outcome.relocate f id q.checkDeclaration := by
  have hparameters : Parameter.checkAll (q.relocate f).isExternal (q.relocate f).parameters =
      Outcome.relocate f id (Parameter.checkAll q.isExternal q.parameters) := by
    rw [isExternal_relocate]
    exact Parameter.checkAll_relocate q.isExternal q.parameters
  refine bind_relocate hparameters fun _ => ?_
  have hlength : (q.relocate f).parameters.length = q.parameters.length := List.length_map _
  rw [isExternal_relocate, hlength, locals_relocate]
  split
  · rfl
  · exact forM_relocate Declaration.check_relocate q.locals

theorem Procedure.signature_relocate (q : Procedure) :
    (q.relocate f).signature = q.signature.relocate f := by
  have hparameters : (fun r : Parameter => r.declaration?.map Declaration.type) ∘
      Parameter.relocate f =
        Option.map (TypeAt.relocate f) ∘ fun r => r.declaration?.map Declaration.type := by
    funext r
    cases r <;> rfl
  simp only [signature, relocate, Signature.relocate, List.map_map, hparameters]

theorem Event.warning?_relocate (e : Event) :
    (e.relocate f).warning? = e.warning?.map (Warning.relocate f) := by
  cases e <;> rfl

namespace Program

theorem checkDeclarations_relocate (p : Program) :
    (p.relocate f).checkDeclarations = Outcome.relocate f id p.checkDeclarations :=
  Outcome.bind_relocate (forM_relocate Declaration.check_relocate p.globals) fun _ =>
    forM_relocate Procedure.checkDeclaration_relocate p.procedures

theorem context_relocate (p : Program) (q : Procedure) :
    (p.relocate f).context (q.relocate f) = (p.context q).relocate f := by
  have hsignatures : (p.relocate f).procedures.map Procedure.signature =
      (p.procedures.map Procedure.signature).map (Signature.relocate f) := by
    rw [relocate, List.map_map, List.map_map]
    exact List.map_congr_left fun r _ => r.signature_relocate
  rw [context, Procedure.locals_relocate, hsignatures]
  rfl

theorem checkProcedure_relocate (p : Program) (q : Procedure) :
    (p.relocate f).checkProcedure (q.relocate f) =
      (p.checkProcedure q).relocate f (Procedure.relocate f) id := by
  rw [checkProcedure_eq_pass, context_relocate]
  exact q.pass_relocate (p.context q).checkStatement_relocate rfl

theorem checkProcedures_relocate (p : Program) (qs : List Procedure) :
    (p.relocate f).checkProcedures (qs.map (Procedure.relocate f)) =
      (p.checkProcedures qs).relocate f (List.map (Procedure.relocate f)) id := by
  rw [checkProcedures_eq_all, checkProcedures_eq_all]
  exact Pass.all_relocate fun q _ => p.checkProcedure_relocate q

theorem check_relocate (p : Program) :
    (p.relocate f).check =
      p.check.relocate f (Program.relocate f) (List.map (Warning.relocate f)) := by
  have hprocedures : (p.relocate f).checkProcedures (p.relocate f).procedures = _ :=
    p.checkProcedures_relocate (f := f) p.procedures
  unfold check
  rw [checkDeclarations_relocate, hprocedures]
  cases p.checkDeclarations with
  | error fault => rfl
  | ok _ =>
    simp only [Outcome.relocate, Pass.relocate, filterMap_map_comm Event.warning?_relocate]
    cases (p.checkProcedures p.procedures).result <;> rfl

end Program

end ProcLang
