import ProcLang.Proofs.Binding

/-! Other numbers for the same declarations: globals and procedures are referred to by new indices,
and all else stays. -/
namespace ProcLang

/-- New indices of globals and of procedures. -/
structure Renumbering where
  global : Nat → Nat
  procedure : Nat → Nat

variable (ρ : Renumbering)

def Storage.renumber : Storage → Storage
  | .global index => .global (ρ.global index)
  | .parameter index => .parameter index
  | .localVar index => .localVar index

def Symbol.renumber : Symbol → Symbol
  | .var storage => .var (storage.renumber ρ)
  | .procedure index => .procedure (ρ.procedure index)

def Operator.renumber : Operator → Operator
  | .call callee => .call (callee.map ρ.procedure)
  | op => op

def Variable.renumber (v : Variable) : Variable :=
  { v with binding := v.binding.map (Storage.renumber ρ) }

namespace Expression

mutual

def renumber : Expression → Expression
  | .literal l => .literal l
  | .var v => .var (v.renumber ρ)
  | .operation loc token operands operator type =>
    .operation loc token (renumberAll operands) (operator.map (Operator.renumber ρ)) type

def renumberAll : List Expression → List Expression
  | [] => []
  | e :: es => e.renumber :: renumberAll es

end

theorem renumberAll_eq_map (es : List Expression) : renumberAll ρ es = es.map (renumber ρ) := by
  induction es with
  | nil => rfl
  | cons e es ih => rw [renumberAll, ih, List.map_cons]

@[simp] theorem renumber_literal (l : Literal) : (literal l).renumber ρ = .literal l := by
  rw [renumber]

@[simp] theorem renumber_var (v : Variable) : (var v).renumber ρ = .var (v.renumber ρ) := by
  rw [renumber]

@[simp] theorem renumber_operation (loc : Nat) (token : Token) (es : List Expression)
    (op : Option Operator) (type : Option TypeAt) :
    (operation loc token es op type).renumber ρ =
      .operation loc token (es.map (renumber ρ)) (op.map (Operator.renumber ρ)) type := by
  rw [renumber, renumberAll_eq_map]

/-- What is not decided on has no indices. -/
theorem renumber_of_fresh {e : Expression} (h : ∀ e' ∈ e.parts, e'.Fresh) : e.renumber ρ = e := by
  induction e with
  | literal l => exact renumber_literal ρ l
  | var v =>
    have hv : v.binding = none := h (.var v) (by simp)
    obtain ⟨name, loc, binding, type⟩ := v
    cases hv
    rw [renumber_var]
    rfl
  | operation loc token es op type ih =>
    have hop : op = none := h _ (self_mem_parts _)
    have hes : es.map (renumber ρ) = es := by
      refine (List.map_congr_left fun e he => ih e he fun e' he' => ?_).trans (List.map_id es)
      exact h e' (mem_parts_operation.mpr (.inr ⟨e, he, he'⟩))
    rw [renumber_operation, hes, hop]
    rfl

@[simp] theorem loc_renumber (e : Expression) : (e.renumber ρ).loc = e.loc := by
  cases e <;> simp [loc, Variable.renumber]

@[simp] theorem type?_renumber (e : Expression) : (e.renumber ρ).type? = e.type? := by
  cases e <;> simp [type?, Variable.renumber]

@[simp] theorem display_renumber (e : Expression) : (e.renumber ρ).display = e.display := by
  induction e with
  | literal l => rw [renumber_literal]
  | var v => rw [renumber_var, display, display]; rfl
  | operation loc token es op type ih =>
    have hes : displayOperands (es.map (renumber ρ)) = displayOperands es := by
      induction es with
      | nil => rfl
      | cons e es ih' =>
        rw [List.map_cons, displayOperands, displayOperands, ih e (by simp),
          ih' fun e he => ih e (List.mem_cons_of_mem _ he)]
    rw [renumber_operation, display, display, hes]

@[simp] theorem isPlace_renumber (e : Expression) : (e.renumber ρ).isPlace = e.isPlace := by
  cases e with
  | literal l => simp
  | var v => simp [isPlace]
  | operation loc token es op type =>
    cases op with
    | none => simp [isPlace]
    | some op => cases op <;> simp [isPlace, Operator.renumber, Operator.yieldsPlace]

/-- Literals are left alone. -/
theorem literals_renumber (e : Expression) :
    (e.renumber ρ).parts.filterMap literal? = e.parts.filterMap literal? := by
  induction e with
  | literal l => rw [renumber_literal]
  | var v =>
    rw [renumber_var, parts_var, parts_var]
    rfl
  | operation loc token es op type ih =>
    rw [renumber_operation, parts, parts, operandParts_eq_flatMap, operandParts_eq_flatMap]
    simp only [List.filterMap_cons, literal?, List.filterMap_flatMap, List.flatMap_map]
    exact List.flatMap_congr ih

end Expression

theorem Statement.literals_renumber (s : Statement) :
    (s.map (Expression.renumber ρ)).parts.filterMap Expression.literal? =
      s.parts.filterMap Expression.literal? := by
  rw [parts, parts, expressions_map, List.flatMap_map, List.filterMap_flatMap,
    List.filterMap_flatMap]
  exact List.flatMap_congr fun e _ => e.literals_renumber ρ

theorem Procedure.map_renumber_of_fresh {q : Procedure}
    (h : ∀ body, q.body? = some body → ∀ e ∈ body.parts, e.Fresh) :
    q.map (Expression.renumber ρ) = q := by
  cases himpl : q.implementation with
  | external => exact map_of_external _ himpl
  | internal locals body =>
    have hbody : body.map (Expression.renumber ρ) = body := by
      refine (Statement.map_congr fun e he => ?_).trans body.map_id
      refine Expression.renumber_of_fresh ρ fun e' he' => ?_
      exact h body (by simp [body?, himpl]) e' (Statement.mem_parts.mpr ⟨e, he, he'⟩)
    rw [map_of_internal _ himpl, hbody, ← himpl]

variable {ρ}

theorem Operator.renumber_of_ne {op : Operator} (h : ∀ index, op ≠ .call (some index)) :
    op.renumber ρ = op := by
  cases op with
  | call callee =>
    cases callee with
    | none => rfl
    | some index => exact absurd rfl (h index)
  | _ => rfl

/-- Names stand for the same declarations, under new indices. -/
def Scope.Renumbers (ρ : Renumbering) (s s' : Scope) : Prop :=
  ∀ name, s'.lookup name = (s.lookup name).map (Symbol.renumber ρ)

namespace Scope

variable {s s' : Scope}

theorem resolve_renumber {token : Token} {count : Nat} {known : Option Operator} {op : Operator}
    (h : (resolve token count known).result = .ok op) :
    (resolve token count (known.map (Operator.renumber ρ))).result = .ok (op.renumber ρ) := by
  cases known with
  | some found =>
    cases h
    rfl
  | none =>
    have hchosen := h
    simp only [resolve, Traced.bind_eq_ok, Traced.ofExcept_result, Traced.pure_result,
      Except.ok.injEq] at hchosen
    obtain ⟨_, hresolve, -, -, rfl⟩ := hchosen
    rwa [Operator.renumber_of_ne (Operator.resolve_takes hresolve).2]

theorem callee_renumber (hs : Renumbers ρ s s') {token : Token} {callee : Option Nat}
    (h : (s.callee token).result = .ok callee) :
    (s'.callee token).result = .ok (callee.map ρ.procedure) := by
  unfold Scope.callee at h ⊢
  rw [hs token.text]
  split at h
  next index hlookup =>
    cases h
    rw [hlookup]
    rfl
  next => cases h
  next hlookup =>
    cases h
    rw [hlookup]
    rfl

theorem bindOperator_renumber (hs : Renumbers ρ s s') {token : Token} {count : Nat}
    {known : Option Operator} {op : Operator}
    (h : (s.bindOperator token count known).result = .ok op) :
    (s'.bindOperator token count (known.map (Operator.renumber ρ))).result =
      .ok (op.renumber ρ) := by
  obtain ⟨chosen, hchosen, h⟩ := Traced.bind_eq_ok.mp h
  refine Traced.bind_eq_ok.mpr ⟨_, resolve_renumber hchosen, ?_⟩
  split at h
  next =>
    obtain ⟨callee, hcallee, h⟩ := Traced.bind_eq_ok.mp h
    cases h
    exact Traced.bind_eq_ok.mpr ⟨_, callee_renumber hs hcallee, rfl⟩
  next hopen =>
    cases h
    cases op with
    | call callee =>
      cases callee with
      | none => exact absurd rfl hopen
      | some index => rfl
    | _ => rfl

theorem bindExpression_renumber (hs : Renumbers ρ s s') {e : Expression}
    (h : (s.bindExpression e).result = .ok ()) :
    (s'.bindExpression (e.renumber ρ)).result = .ok () ∧
      (s'.bindExpression (e.renumber ρ)).tree = (s.bindExpression e).tree.renumber ρ := by
  induction e with
  | literal l => simp [bindExpression]
  | var v =>
    have hname := hs v.name
    rw [bindExpression] at h
    simp only [Expression.renumber_var, bindExpression, Pass.mapTree_result, Pass.mapTree_tree,
      bindVariable, Variable.renumber, hname] at h ⊢
    cases hlookup : s.lookup v.name with
    | none => simp
    | some symbol =>
      cases symbol with
      | var storage => simp [Symbol.renumber]
      | procedure index => simp [hlookup, Pass.stop] at h
  | operation loc token es known type ih =>
    rw [bindExpression] at h
    cases hop : (s.bindOperator token es.length known).result with
    | error fault => simp [hop] at h
    | ok op =>
      simp only [hop] at h
      have hall := bindOperands_eq_ok.mp h
      have hes : (s'.bindOperands (es.map (Expression.renumber ρ))).result = .ok () :=
        bindOperands_eq_ok.mpr (List.forall_mem_map.mpr fun e he => (ih e he (hall e he)).1)
      have hop' := bindOperator_renumber hs hop
      rw [← List.length_map (Expression.renumber ρ)] at hop'
      rw [Expression.renumber_operation, bindExpression, bindExpression]
      simp only [hop, hop', hes, bindOperands_tree_of_ok hes, bindOperands_tree_of_ok h,
        Expression.renumber_operation, List.map_map, Option.map_some, true_and]
      congr 1
      exact List.map_congr_left fun e he => (ih e he (hall e he)).2

theorem bindStatement_renumber (hs : Renumbers ρ s s') {t : Statement}
    (h : (s.bindStatement t).result = .ok ()) :
    (s'.bindStatement (t.map (Expression.renumber ρ))).result = .ok () ∧
      (s'.bindStatement (t.map (Expression.renumber ρ))).tree =
        (s.bindStatement t).tree.map (Expression.renumber ρ) := by
  have hall := bindStatement_eq_ok.mp h
  have hok : (s'.bindStatement (t.map (Expression.renumber ρ))).result = .ok () := by
    rw [bindStatement_eq_ok, Statement.expressions_map, List.forall_mem_map]
    exact fun e he => (bindExpression_renumber hs (hall e he)).1
  refine ⟨hok, ?_⟩
  rw [bindStatement_tree_of_ok hok, bindStatement_tree_of_ok h, Statement.map_map,
    Statement.map_map]
  exact Statement.map_congr fun e he => (bindExpression_renumber hs (hall e he)).2

end Scope

end ProcLang
