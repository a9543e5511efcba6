import Mathlib.Data.List.Forall2
import ProcLang.Tree.Edit
import ProcLang.Tree.Traversal

/-! Trees can be compared. Induction over trees, their parts, and trees that differ in the types on
record only. -/
namespace ProcLang

/-- A relation between lists may be replaced where it is used. -/
theorem forall₂_imp_of_mem {R S : α → β → Prop} {as : List α} {bs : List β}
    (h : List.Forall₂ R as bs) (himp : ∀ a ∈ as, ∀ b, R a b → S a b) : List.Forall₂ S as bs := by
  induction h with
  | nil => exact .nil
  | cons hab _ ih =>
    exact .cons (himp _ (by simp) _ hab) (ih fun a ha => himp a (List.mem_cons_of_mem _ ha))

theorem exists_of_forall₂ {R : α → β → Prop} {as : List α} {bs : List β}
    (h : List.Forall₂ R as bs) {a : α} (ha : a ∈ as) : ∃ b ∈ bs, R a b := by
  induction h with
  | nil => cases ha
  | cons hab _ ih =>
    rcases List.mem_cons.mp ha with rfl | ha
    · exact ⟨_, by simp, hab⟩
    · obtain ⟨b, hb, hr⟩ := ih ha
      exact ⟨b, List.mem_cons_of_mem _ hb, hr⟩

namespace Expression

mutual

protected def decEq : (a b : Expression) → Decidable (a = b)
  | .literal l, .literal l' => decidable_of_iff (l = l') (by rw [literal.injEq])
  | .var v, .var v' => decidable_of_iff (v = v') (by rw [var.injEq])
  | .operation loc token es op type, .operation loc' token' es' op' type' =>
    have := decEqAll es es'
    decidable_of_iff (loc = loc' ∧ token = token' ∧ es = es' ∧ op = op' ∧ type = type')
      (by rw [operation.injEq])
  | .literal _, .var _ | .literal _, .operation .. | .var _, .literal _ | .var _, .operation ..
  | .operation .., .literal _ | .operation .., .var _ => isFalse nofun

def decEqAll : (as bs : List Expression) → Decidable (as = bs)
  | [], [] => isTrue rfl
  | a :: as, b :: bs =>
    have := Expression.decEq a b
    have := decEqAll as bs
    decidable_of_iff (a = b ∧ as = bs) (by rw [List.cons.injEq])
  | [], _ :: _ | _ :: _, [] => isFalse nofun

end

instance : DecidableEq Expression := Expression.decEq

end Expression

namespace Statement

mutual

protected def decEq : (a b : Statement) → Decidable (a = b)
  | .block loc ss, .block loc' ss' =>
    have := decEqAll ss ss'
    decidable_of_iff (loc = loc' ∧ ss = ss') (by rw [block.injEq])
  | .ifThen loc e yes, .ifThen loc' e' yes' =>
    have := Statement.decEq yes yes'
    decidable_of_iff (loc = loc' ∧ e = e' ∧ yes = yes') (by rw [ifThen.injEq])
  | .ifThenElse loc e yes no, .ifThenElse loc' e' yes' no' =>
    have := Statement.decEq yes yes'
    have := Statement.decEq no no'
    decidable_of_iff (loc = loc' ∧ e = e' ∧ yes = yes' ∧ no = no') (by rw [ifThenElse.injEq])
  | .loop loc e body, .loop loc' e' body' =>
    have := Statement.decEq body body'
    decidable_of_iff (loc = loc' ∧ e = e' ∧ body = body') (by rw [loop.injEq])
  | .ret loc value, .ret loc' value' =>
    decidable_of_iff (loc = loc' ∧ value = value') (by rw [ret.injEq])
  | .expression e, .expression e' => decidable_of_iff (e = e') (by rw [expression.injEq])
  | .block .., .ifThen .. | .block .., .ifThenElse .. | .block .., .loop .. | .block .., .ret ..
  | .block .., .expression _
  | .ifThen .., .block .. | .ifThen .., .ifThenElse .. | .ifThen .., .loop ..
  | .ifThen .., .ret .. | .ifThen .., .expression _
  | .ifThenElse .., .block .. | .ifThenElse .., .ifThen .. | .ifThenElse .., .loop ..
  | .ifThenElse .., .ret .. | .ifThenElse .., .expression _
  | .loop .., .block .. | .loop .., .ifThen .. | .loop .., .ifThenElse .. | .loop .., .ret ..
  | .loop .., .expression _
  | .ret .., .block .. | .ret .., .ifThen .. | .ret .., .ifThenElse .. | .ret .., .loop ..
  | .ret .., .expression _
  | .expression _, .block .. | .expression _, .ifThen .. | .expression _, .ifThenElse ..
  | .expression _, .loop .. | .expression _, .ret .. => isFalse nofun

def decEqAll : (as bs : List Statement) → Decidable (as = bs)
  | [], [] => isTrue rfl
  | a :: as, b :: bs =>
    have := Statement.decEq a b
    have := decEqAll as bs
    decidable_of_iff (a = b ∧ as = bs) (by rw [List.cons.injEq])
  | [], _ :: _ | _ :: _, [] => isFalse nofun

end

instance : DecidableEq Statement := Statement.decEq

end Statement

deriving instance DecidableEq for Implementation

deriving instance DecidableEq for Procedure

deriving instance DecidableEq for Program

namespace Expression

/-- An operation may rely on all of its operands. -/
@[induction_eliminator]
theorem operandwise {motive : Expression → Prop} (literal : ∀ l, motive (.literal l))
    (var : ∀ v, motive (.var v))
    (operation : ∀ loc token operands operator type, (∀ e ∈ operands, motive e) →
      motive (.operation loc token operands operator type)) (e : Expression) : motive e :=
  @Expression.rec motive (fun es => ∀ e ∈ es, motive e) literal var
    (fun loc token operands operator type ih => operation loc token operands operator type ih)
    (by simp) (by simp +contextual) e

@[simp] theorem parts_literal (l : Literal) : (literal l).parts = [.literal l] := rfl

@[simp] theorem parts_var (v : Variable) : (var v).parts = [.var v] := rfl

theorem mem_operandParts {e : Expression} {es : List Expression} :
    e ∈ operandParts es ↔ ∃ e' ∈ es, e ∈ e'.parts := by
  induction es with
  | nil => simp [operandParts]
  | cons e' es ih => simp [operandParts, ih]

theorem mem_parts_operation {e : Expression} {loc : Nat} {token : Token}
    {operands : List Expression} {operator : Option Operator} {type : Option TypeAt} :
    e ∈ (operation loc token operands operator type).parts ↔
      e = .operation loc token operands operator type ∨ ∃ e' ∈ operands, e ∈ e'.parts := by
  simp [parts, mem_operandParts]

theorem self_mem_parts (e : Expression) : e ∈ e.parts := by
  cases e <;> exact List.mem_cons_self

theorem clearAllTypes_eq_map (es : List Expression) : clearAllTypes es = es.map clearTypes := by
  induction es with
  | nil => rfl
  | cons e es ih => simp [clearAllTypes, ih]

theorem operandParts_eq_flatMap (es : List Expression) : operandParts es = es.flatMap parts := by
  induction es with
  | nil => rfl
  | cons e es ih => rw [operandParts, ih, List.flatMap_cons]

theorem parts_clearTypes (e : Expression) : e.clearTypes.parts = e.parts.map clearTypes := by
  induction e with
  | literal l => simp [clearTypes]
  | var v => simp [clearTypes]
  | operation loc token es op type ih =>
    have hes : (es.map clearTypes).flatMap parts = (es.flatMap parts).map clearTypes := by
      rw [List.flatMap_map, List.map_flatMap]
      exact List.flatMap_congr ih
    simp only [clearTypes, parts, clearAllTypes_eq_map, operandParts_eq_flatMap, hes, List.map_cons]

/-- The parts of a part are parts. -/
theorem parts_subset {e d : Expression} (h : e ∈ d.parts) : e.parts ⊆ d.parts := by
  induction d with
  | literal l =>
    rw [parts_literal, List.mem_singleton] at h
    rw [h]
    exact List.Subset.refl _
  | var v =>
    rw [parts_var, List.mem_singleton] at h
    rw [h]
    exact List.Subset.refl _
  | operation loc token es op type ih =>
    rcases mem_parts_operation.mp h with rfl | ⟨d, hd, he⟩
    · exact List.Subset.refl _
    · intro e' he'
      exact mem_parts_operation.mpr (.inr ⟨d, hd, ih d hd he he'⟩)

theorem loc_clearTypes (e : Expression) : e.clearTypes.loc = e.loc := by
  cases e <;> rfl

theorem isPlace_clearTypes (e : Expression) : e.clearTypes.isPlace = e.isPlace := by
  cases e <;> rfl

/-- Types are not shown. -/
theorem display_clearTypes (e : Expression) : e.clearTypes.display = e.display := by
  induction e with
  | literal l => rfl
  | var v => rfl
  | operation loc token es op type ih =>
    have hes : displayOperands (clearAllTypes es) = displayOperands es := by
      induction es with
      | nil => rfl
      | cons e es ih' =>
        rw [clearAllTypes, displayOperands, displayOperands, ih e (by simp),
          ih' fun e he => ih e (List.mem_cons_of_mem _ he)]
    rw [clearTypes, display, display, hes]

end Expression

namespace Statement

/-- A block may rely on all of its statements. -/
@[induction_eliminator]
theorem blockwise {motive : Statement → Prop}
    (block : ∀ loc body, (∀ s ∈ body, motive s) → motive (.block loc body))
    (ifThen : ∀ loc condition yes, motive yes → motive (.ifThen loc condition yes))
    (ifThenElse : ∀ loc condition yes no, motive yes → motive no →
      motive (.ifThenElse loc condition yes no))
    (loop : ∀ loc condition body, motive body → motive (.loop loc condition body))
    (ret : ∀ loc value, motive (.ret loc value)) (expression : ∀ e, motive (.expression e))
    (s : Statement) : motive s :=
  @Statement.rec motive (fun ss => ∀ s ∈ ss, motive s) (fun loc body ih => block loc body ih)
    ifThen ifThenElse loop ret expression (by simp) (by simp +contextual) s

theorem mem_allExpressions {e : Expression} {ss : List Statement} :
    e ∈ allExpressions ss ↔ ∃ s ∈ ss, e ∈ s.expressions := by
  induction ss with
  | nil => simp [allExpressions]
  | cons s ss ih => simp [allExpressions, ih]

theorem mem_parts {e : Expression} {s : Statement} :
    e ∈ s.parts ↔ ∃ e' ∈ s.expressions, e ∈ e'.parts := by
  simp [parts]

theorem parts_subset {e : Expression} {s : Statement} (h : e ∈ s.parts) : e.parts ⊆ s.parts := by
  obtain ⟨d, hd, he⟩ := mem_parts.mp h
  intro e' he'
  exact mem_parts.mpr ⟨d, hd, Expression.parts_subset he he'⟩

theorem mem_parts_block {e : Expression} {loc : Nat} {body : List Statement} :
    e ∈ (block loc body).parts ↔ ∃ s ∈ body, e ∈ s.parts := by
  simp only [mem_parts, expressions, mem_allExpressions]
  constructor
  · rintro ⟨e', ⟨s, hs, he'⟩, he⟩
    exact ⟨s, hs, e', he', he⟩
  · rintro ⟨s, hs, e', he', he⟩
    exact ⟨e', ⟨s, hs, he'⟩, he⟩

@[simp] theorem parts_ifThen (loc : Nat) (e : Expression) (yes : Statement) :
    (ifThen loc e yes).parts = e.parts ++ yes.parts := rfl

@[simp] theorem parts_ifThenElse (loc : Nat) (e : Expression) (yes no : Statement) :
    (ifThenElse loc e yes no).parts = e.parts ++ yes.parts ++ no.parts :=
  List.flatMap_append

@[simp] theorem parts_loop (loc : Nat) (e : Expression) (body : Statement) :
    (loop loc e body).parts = e.parts ++ body.parts := rfl

@[simp] theorem parts_ret_none (loc : Nat) : (ret loc none).parts = [] := rfl

@[simp] theorem parts_ret_some (loc : Nat) (e : Expression) :
    (ret loc (some e)).parts = e.parts :=
  List.append_nil _

@[simp] theorem parts_expression (e : Expression) : (expression e).parts = e.parts :=
  List.append_nil _

/-- Changes every expression that a statement evaluates. -/
def map (f : Expression → Expression) (s : Statement) : Statement :=
  (s.mapAccum (fun () e => ((), f e)) ()).2

variable (f : Expression → Expression)

theorem mapAccumAll_eq_map (ss : List Statement) :
    mapAccumAll (fun () e => ((), f e)) () ss = ((), ss.map (map f)) := by
  induction ss with
  | nil => rfl
  | cons s ss ih => simp [mapAccumAll, ih, map]

@[simp] theorem map_block (loc : Nat) (ss : List Statement) :
    (block loc ss).map f = .block loc (ss.map (map f)) := by
  simp [map, mapAccum, mapAccumAll_eq_map]

@[simp] theorem map_ifThen (loc : Nat) (e : Expression) (yes : Statement) :
    (ifThen loc e yes).map f = .ifThen loc (f e) (yes.map f) := rfl

@[simp] theorem map_ifThenElse (loc : Nat) (e : Expression) (yes no : Statement) :
    (ifThenElse loc e yes no).map f = .ifThenElse loc (f e) (yes.map f) (no.map f) := rfl

@[simp] theorem map_loop (loc : Nat) (e : Expression) (body : Statement) :
    (loop loc e body).map f = .loop loc (f e) (body.map f) := rfl

@[simp] theorem map_ret (loc : Nat) (value : Option Expression) :
    (ret loc value).map f = .ret loc (value.map f) := by
  cases value <;> rfl

@[simp] theorem map_expression (e : Expression) :
    (expression e).map f = .expression (f e) := rfl

theorem allExpressions_eq_flatMap (ss : List Statement) :
    allExpressions ss = ss.flatMap expressions := by
  induction ss with
  | nil => rfl
  | cons s ss ih => rw [allExpressions, ih, List.flatMap_cons]

theorem expressions_map (s : Statement) : (s.map f).expressions = s.expressions.map f := by
  induction s with
  | block loc body ih =>
    have hbody : (body.map (map f)).flatMap expressions =
        (body.flatMap expressions).map f := by
      rw [List.flatMap_map, List.map_flatMap]
      exact List.flatMap_congr ih
    simp only [map_block, expressions, allExpressions_eq_flatMap, hbody]
  | ifThen loc condition yes ih => simp [expressions, ih]
  | ifThenElse loc condition yes no ihy ihn => simp [expressions, ihy, ihn]
  | loop loc condition body ih => simp [expressions, ih]
  | ret loc value => cases value <;> simp [expressions]
  | expression e => simp [expressions]

variable {f} {g : Expression → Expression}

theorem map_congr {s : Statement} (h : ∀ e ∈ s.expressions, f e = g e) : s.map f = s.map g := by
  induction s with
  | block loc body ih =>
    simp only [expressions, mem_allExpressions] at h
    rw [map_block, map_block]
    exact congrArg _ (List.map_congr_left fun s hs => ih s hs fun e he => h e ⟨s, hs, he⟩)
  | ifThen loc condition yes ih =>
    simp only [expressions, List.forall_mem_cons] at h
    simp [h.1, ih h.2]
  | ifThenElse loc condition yes no ihy ihn =>
    simp only [expressions, List.forall_mem_append, List.forall_mem_cons] at h
    simp [h.1.1, ihy h.1.2, ihn h.2]
  | loop loc condition body ih =>
    simp only [expressions, List.forall_mem_cons] at h
    simp [h.1, ih h.2]
  | ret loc value => cases value <;> simp_all [expressions]
  | expression e => simp_all [expressions]

theorem map_map (s : Statement) : (s.map f).map g = s.map (g ∘ f) := by
  induction s with
  | block loc body ih => simpa using ih
  | ifThen loc condition yes ih => simp [ih]
  | ifThenElse loc condition yes no ihy ihn => simp [ihy, ihn]
  | loop loc condition body ih => simp [ih]
  | ret loc value => simp
  | expression e => simp

theorem map_id (s : Statement) : s.map id = s := by
  induction s with
  | block loc body ih =>
    rw [map_block]
    exact congrArg _ ((List.map_congr_left ih).trans (List.map_id body))
  | ifThen loc condition yes ih => simp [ih]
  | ifThenElse loc condition yes no ihy ihn => simp [ihy, ihn]
  | loop loc condition body ih => simp [ih]
  | ret loc value => simp
  | expression e => simp

theorem parts_block (loc : Nat) (body : List Statement) :
    (block loc body).parts = body.flatMap parts := by
  simp only [parts, expressions, allExpressions_eq_flatMap, List.flatMap_assoc]
  rfl

theorem parts_clearTypes (s : Statement) :
    (s.map Expression.clearTypes).parts = s.parts.map Expression.clearTypes := by
  rw [parts, expressions_map, List.flatMap_map, parts, List.map_flatMap]
  exact List.flatMap_congr fun e _ => e.parts_clearTypes

end Statement

namespace Procedure

/-- `q.Redone redo q'`: `q'` is `q` with its body done over, and nothing else. -/
structure Redone (redo : Statement → Statement) (q q' : Procedure) : Prop where
  name : q'.name = q.name
  loc : q'.loc = q.loc
  returns : q'.returns = q.returns
  parameters : q'.parameters = q.parameters
  symbols : q'.symbols = q.symbols
  locals : q'.locals = q.locals
  isExternal : q'.isExternal = q.isExternal
  body? : q'.body? = q.body?.map redo

theorem Redone.signature {redo : Statement → Statement} {q q' : Procedure}
    (h : q.Redone redo q') : q'.signature = q.signature := by
  simp [Procedure.signature, h.name, h.returns, h.parameters]

/-- Changes every expression of a body. -/
def map (f : Expression → Expression) (p : Procedure) : Procedure :=
  (p.mapAccum (fun () e => ((), f e)) ()).2

theorem map_of_internal (f : Expression → Expression) {p : Procedure} {locals : List Declaration}
    {body : Statement} (h : p.implementation = .internal locals body) :
    p.map f = { p with implementation := .internal locals (body.map f) } := by
  simp [map, mapAccum, h, Statement.map]

variable (f : Expression → Expression) (p : Procedure)

theorem map_of_external {p : Procedure} (h : p.implementation = .external) : p.map f = p := by
  simp [map, mapAccum, h]

theorem redone_map : p.Redone (Statement.map f) (p.map f) := by
  cases h : p.implementation with
  | internal locals body =>
    constructor <;> simp [map_of_internal f h, h, Procedure.locals, isExternal, body?]
  | external => constructor <;> simp [map_of_external f h, h, body?]

@[simp] theorem name_map : (p.map f).name = p.name := (p.redone_map f).name

@[simp] theorem isExternal_map : (p.map f).isExternal = p.isExternal := (p.redone_map f).isExternal

@[simp] theorem body?_map : (p.map f).body? = p.body?.map (Statement.map f) :=
  (p.redone_map f).body?

@[simp] theorem signature_map : (p.map f).signature = p.signature := (p.redone_map f).signature

end Procedure

theorem Program.mapExpressions_eq (f : Expression → Expression) (p : Program) :
    p.mapExpressions f = { p with procedures := p.procedures.map (Procedure.map f) } := by
  have h : ∀ qs, mapAccumProcedures (fun () e => ((), f e)) () qs =
      ((), qs.map (Procedure.map f)) := by
    intro qs
    induction qs with
    | nil => rfl
    | cons q qs ih => simp [mapAccumProcedures, ih, Procedure.map]
  simp [mapExpressions, mapAccum, h]

theorem Program.mem_parts {p : Program} {e : Expression} :
    e ∈ p.parts ↔ ∃ q ∈ p.procedures, ∃ body, q.body? = some body ∧ e ∈ body.parts := by
  unfold parts
  rw [List.mem_flatMap]
  refine exists_congr fun q => and_congr_right fun _ => ?_
  cases q.body? <;> simp

end ProcLang
