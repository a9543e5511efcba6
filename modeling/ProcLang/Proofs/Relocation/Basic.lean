import ProcLang.Proofs.Traversal

/-! Other positions for the same tokens, trees and outcomes: each position `loc` becomes `f loc`,
and all else stays. -/
namespace ProcLang

/-- What is picked from changed items is what is picked from the items, changed. -/
theorem filterMap_map_comm {change : α → α'} {pick : α → Option β} {pick' : α' → Option β'}
    {change' : β → β'} (h : ∀ a, pick' (change a) = (pick a).map change') (as : List α) :
    (as.map change).filterMap pick' = (as.filterMap pick).map change' := by
  rw [List.filterMap_map, List.map_filterMap]
  exact List.filterMap_congr fun a _ => h a

variable (f : Nat → Nat)

def Token.relocate (t : Token) : Token :=
  { t with loc := f t.loc }

def TypeAt.relocate : TypeAt → TypeAt
  | .int loc => .int (f loc)
  | .char loc => .char (f loc)
  | .bool loc => .bool (f loc)
  | .void loc => .void (f loc)
  | .pointer base loc => .pointer base.relocate (f loc)

def Literal.relocate (l : Literal) : Literal :=
  { l with loc := f l.loc }

def Variable.relocate (v : Variable) : Variable :=
  { v with loc := f v.loc, type := v.type.map (TypeAt.relocate f) }

namespace Expression

mutual

def relocate : Expression → Expression
  | .literal l => .literal (l.relocate f)
  | .var v => .var (v.relocate f)
  | .operation loc token operands operator type =>
    .operation (f loc) (token.relocate f) (relocateAll operands) operator
      (type.map (TypeAt.relocate f))

def relocateAll : List Expression → List Expression
  | [] => []
  | e :: es => e.relocate :: relocateAll es

end

end Expression

namespace Statement

mutual

def relocate : Statement → Statement
  | .block loc body => .block (f loc) (relocateAll body)
  | .ifThen loc condition yes => .ifThen (f loc) (condition.relocate f) yes.relocate
  | .ifThenElse loc condition yes no =>
    .ifThenElse (f loc) (condition.relocate f) yes.relocate no.relocate
  | .loop loc condition body => .loop (f loc) (condition.relocate f) body.relocate
  | .ret loc value => .ret (f loc) (value.map (Expression.relocate f))
  | .expression e => .expression (e.relocate f)

def relocateAll : List Statement → List Statement
  | [] => []
  | s :: ss => s.relocate :: relocateAll ss

end

end Statement

def Role.relocate : Role → Role
  | .returned loc => .returned (f loc)
  | role => role

def Declaration.relocate (d : Declaration) : Declaration :=
  ⟨d.name, d.type.relocate f, f d.loc⟩

def Parameter.relocate : Parameter → Parameter
  | .var d => .var (d.relocate f)
  | .etcetera loc => .etcetera (f loc)

def Implementation.relocate : Implementation → Implementation
  | .internal locals body => .internal (locals.map (Declaration.relocate f)) (body.relocate f)
  | .external => .external

def Procedure.relocate (p : Procedure) : Procedure :=
  ⟨p.name, f p.loc, p.returns.relocate f, p.parameters.map (Parameter.relocate f),
    p.implementation.relocate f, p.symbols⟩

def Program.relocate (p : Program) : Program :=
  { p with
    globals := p.globals.map (Declaration.relocate f)
    procedures := p.procedures.map (Procedure.relocate f) }

section

@[simp] theorem TypeAt.ty_relocate (t : TypeAt) : (t.relocate f).ty = t.ty := by
  induction t with
  | pointer base loc ih => exact congrArg Ty.pointer ih
  | int _ | char _ | bool _ | void _ => rfl

@[simp] theorem TypeAt.loc_relocate (t : TypeAt) : (t.relocate f).loc = f t.loc := by
  cases t <;> rfl

theorem TypeAt.moveTo_relocate (t : TypeAt) (loc : Nat) :
    (t.relocate f).moveTo (f loc) = (t.moveTo loc).relocate f := by
  cases t <;> rfl

theorem Literal.type_relocate (l : Literal) : (l.relocate f).type = l.type.relocate f := by
  obtain ⟨value, loc⟩ := l
  cases value <;> rfl

namespace Expression

@[simp] theorem relocateAll_eq_map (es : List Expression) :
    relocateAll f es = es.map (relocate f) := by
  induction es with
  | nil => rfl
  | cons e es ih => rw [relocateAll, ih, List.map_cons]

@[simp] theorem loc_relocate (e : Expression) : (e.relocate f).loc = f e.loc := by
  cases e <;> rw [relocate] <;> rfl

theorem type?_relocate (e : Expression) :
    (e.relocate f).type? = e.type?.map (TypeAt.relocate f) := by
  cases e <;> rw [relocate]
  · exact congrArg some (Literal.type_relocate f _)
  all_goals rfl

@[simp] theorem isPlace_relocate (e : Expression) : (e.relocate f).isPlace = e.isPlace := by
  cases e <;> rw [relocate] <;> rfl

theorem displayOperands_eq_foldr (es : List Expression) :
    displayOperands es = es.foldr (fun e shown => " " ++ e.display ++ shown) "" := by
  induction es with
  | nil => rfl
  | cons e es ih => rw [displayOperands, ih, List.foldr_cons]

/-- Positions are not shown. -/
@[simp] theorem display_relocate (e : Expression) : (e.relocate f).display = e.display := by
  induction e with
  | literal l =>
    rw [relocate, display, display]
    rfl
  | var v =>
    rw [relocate, display, display]
    rfl
  | operation loc token es op type ih =>
    have hes : displayOperands (es.map (relocate f)) = displayOperands es := by
      rw [displayOperands_eq_foldr, displayOperands_eq_foldr, List.foldr_map]
      exact List.foldr_ext _ _ _ fun e he shown => by rw [ih e he]
    rw [relocate, relocateAll_eq_map, display, display, hes]
    rfl

theorem parts_relocate (e : Expression) : (e.relocate f).parts = e.parts.map (relocate f) := by
  induction e with
  | literal l => simp [relocate]
  | var v => simp [relocate]
  | operation loc token es op type ih =>
    have hes : (es.map (relocate f)).flatMap parts = (es.flatMap parts).map (relocate f) := by
      rw [List.flatMap_map, List.map_flatMap]
      exact List.flatMap_congr ih
    simp only [relocate, parts, relocateAll_eq_map, operandParts_eq_flatMap, hes, List.map_cons]

theorem literal?_relocate (e : Expression) :
    (e.relocate f).literal? = e.literal?.map (Literal.relocate f) := by
  cases e <;> rw [relocate] <;> rfl

end Expression

namespace Statement

@[simp] theorem relocateAll_eq_map (ss : List Statement) :
    relocateAll f ss = ss.map (relocate f) := by
  induction ss with
  | nil => rfl
  | cons s ss ih => rw [relocateAll, ih, List.map_cons]

theorem expressions_relocate (s : Statement) :
    (s.relocate f).expressions = s.expressions.map (Expression.relocate f) := by
  induction s with
  | block loc body ih =>
    have hbody : (body.map (relocate f)).flatMap expressions =
        (body.flatMap expressions).map (Expression.relocate f) := by
      rw [List.flatMap_map, List.map_flatMap]
      exact List.flatMap_congr ih
    simp only [relocate, relocateAll_eq_map, expressions, allExpressions_eq_flatMap, hbody]
  | ifThen loc condition yes ih => simp [relocate, expressions, ih]
  | ifThenElse loc condition yes no ihy ihn => simp [relocate, expressions, ihy, ihn]
  | loop loc condition body ih => simp [relocate, expressions, ih]
  | ret loc value => cases value <;> simp [relocate, expressions]
  | expression e => simp [relocate, expressions]

theorem parts_relocate (s : Statement) :
    (s.relocate f).parts = s.parts.map (Expression.relocate f) := by
  rw [parts, expressions_relocate, List.flatMap_map, parts, List.map_flatMap]
  exact List.flatMap_congr fun e _ => e.parts_relocate f

end Statement

theorem Parameter.declaration?_relocate (p : Parameter) :
    (p.relocate f).declaration? = p.declaration?.map (Declaration.relocate f) := by
  cases p <;> rfl

namespace Procedure

@[simp] theorem isExternal_relocate (p : Procedure) : (p.relocate f).isExternal = p.isExternal := by
  unfold isExternal relocate
  cases p.implementation <;> rfl

theorem locals_relocate (p : Procedure) :
    (p.relocate f).locals = p.locals.map (Declaration.relocate f) := by
  unfold locals relocate
  cases p.implementation <;> rfl

theorem body?_relocate (p : Procedure) :
    (p.relocate f).body? = p.body?.map (Statement.relocate f) := by
  unfold body? relocate
  cases p.implementation <;> rfl

end Procedure

theorem Program.parts_relocate (p : Program) :
    (p.relocate f).parts = p.parts.map (Expression.relocate f) := by
  rw [parts, relocate, List.flatMap_map, parts, List.map_flatMap]
  refine List.flatMap_congr fun q _ => ?_
  rw [Procedure.body?_relocate]
  cases q.body? with
  | none => rfl
  | some body => exact body.parts_relocate f

end

/-- One mistake quotes a position. -/
def Cause.relocate : Cause → Cause
  | .unclosedBlock start => .unclosedBlock (f start)
  | cause => cause

def Breach.relocate : Breach → Breach
  | .unboundOperation loc => .unboundOperation (f loc)
  | .missingProcedure loc index => .missingProcedure (f loc) index
  | .unboundCode loc => .unboundCode (f loc)
  | .noStorage name loc => .noStorage name (f loc)
  | breach => breach

def Fault.relocate : Fault → Fault
  | .located loc cause => .located (f loc) (cause.relocate f)
  | .internal breach => .internal (breach.relocate f)

def Warning.relocate (w : Warning) : Warning :=
  { w with loc := f w.loc }

def Event.relocate : Event → Event
  | .comment start stop => .comment (f start) (f stop)
  | .resolved token count operator => .resolved (token.relocate f) count operator
  | .bound name loc storage => .bound name (f loc) storage
  | .unbound name loc => .unbound name (f loc)
  | .unboundCall name loc => .unboundCall name (f loc)
  | .typed loc operator result => .typed (f loc) operator result
  | .warning w => .warning (w.relocate f)
  | event => event

namespace Outcome

/-- Relocates the value by `g`, or the fault that is there in its place. -/
def relocate (g : α → β) : Except Fault α → Except Fault β
  | .ok a => .ok (g a)
  | .error fault => .error (fault.relocate f)

variable {f}

theorem bind_relocate {g : α → α'} {h : β → β'} {first : Except Fault α}
    {first' : Except Fault α'} {next : α → Except Fault β} {next' : α' → Except Fault β'}
    (hfirst : first' = relocate f g first) (hnext : ∀ a, next' (g a) = relocate f h (next a)) :
    (first' >>= next') = relocate f h (first >>= next) := by
  subst hfirst
  cases first with
  | error fault => rfl
  | ok a => exact hnext a

theorem forM_relocate {g : α → α'} {check : α → Except Fault Unit}
    {check' : α' → Except Fault Unit} (h : ∀ a, check' (g a) = relocate f id (check a))
    (as : List α) : forM (as.map g) check' = relocate f id (forM as check) := by
  induction as with
  | nil => rfl
  | cons a as ih =>
    rw [List.map_cons, List.forM_cons, List.forM_cons]
    exact bind_relocate (h a) fun _ => ih

end Outcome

/-- Relocates the tree by `g`, the events, and the result by `h`. -/
def Pass.relocate (g : τ → τ') (h : α → α') (p : Pass τ α) : Pass τ' α' :=
  ⟨g p.tree, p.events.map (Event.relocate f), Outcome.relocate f h p.result⟩

def Traced.relocate (h : α → α') (t : Traced α) : Traced α' :=
  ⟨t.events.map (Event.relocate f), Outcome.relocate f h t.result⟩

variable {f}

namespace Pass

variable {g : τ → τ'} {k : σ → σ'} {h : α → α'} {j : β → β'}

theorem andThen_relocate {first : Pass τ α} {first' : Pass τ' α'} {rest : σ} {rest' : σ'}
    {next : α → Pass σ β} {next' : α' → Pass σ' β'} (hfirst : first' = first.relocate f g h)
    (hrest : rest' = k rest) (hnext : ∀ a, next' (h a) = (next a).relocate f k j) :
    first'.andThen rest' next' = (first.andThen rest next).relocate f (Prod.map g k) j := by
  subst hfirst hrest
  obtain ⟨tree, events, result⟩ := first
  cases result with
  | error fault => rfl
  | ok a =>
    simp only [andThen, relocate, Outcome.relocate, hnext a, List.map_append, Prod.map]

theorem require_relocate {p : Pass τ α} {p' : Pass τ' α'} {check : α → Except Fault β}
    {check' : α' → Except Fault β'} (hp : p' = p.relocate f g h)
    (hcheck : ∀ a, check' (h a) = Outcome.relocate f j (check a)) :
    p'.require check' = (p.require check).relocate f g j := by
  subst hp
  obtain ⟨tree, events, result⟩ := p
  cases result with
  | error fault => rfl
  | ok a =>
    simp only [require, relocate, Outcome.relocate, Except.bind, hcheck a]

theorem logged_relocate {p : Pass τ α} {p' : Pass τ' α'} {event event' : Event}
    (hp : p' = p.relocate f g h) (hevent : event' = event.relocate f) :
    p'.logged event' = (p.logged event).relocate f g h := by
  subst hp hevent
  obtain ⟨tree, events, result⟩ := p
  cases result with
  | error fault => rfl
  | ok a => simp [logged, relocate, Outcome.relocate]

theorem mapTree_relocate {p : Pass τ α} {p' : Pass τ' α'} {make : τ → σ} {make' : τ' → σ'}
    (hp : p' = p.relocate f g h) (hmake : ∀ t, make' (g t) = k (make t)) :
    p'.mapTree make' = (p.mapTree make).relocate f k h := by
  subst hp
  simp only [mapTree, relocate, hmake]

theorem all_relocate {visit : τ → Pass τ Unit} {visit' : τ' → Pass τ' Unit} {ts : List τ}
    (hvisit : ∀ t ∈ ts, visit' (g t) = (visit t).relocate f g id) :
    all visit' (ts.map g) = (all visit ts).relocate f (List.map g) id := by
  induction ts with
  | nil => rfl
  | cons t ts ih =>
    obtain ⟨ht, hts⟩ := List.forall_mem_cons.mp hvisit
    rw [List.map_cons, all, all]
    exact mapTree_relocate (andThen_relocate ht rfl fun _ => ih hts) fun _ => rfl

end Pass

/-- A pass over a statement commutes with relocation if its visits do. -/
theorem Statement.pass_relocate {visit visit' : Role → Expression → Pass Expression Unit}
    (hvisit : ∀ role e, visit' (role.relocate f) (e.relocate f) =
      (visit role e).relocate f (Expression.relocate f) id) (s : Statement) :
    (s.relocate f).pass visit' = (s.pass visit).relocate f (Statement.relocate f) id := by
  induction s with
  | block loc body ih =>
    rw [relocate, relocateAll_eq_map, pass_block, pass_block]
    refine Pass.mapTree_relocate (Pass.all_relocate ih) fun body => ?_
    rw [relocate, relocateAll_eq_map]
  | ifThen loc condition yes ih =>
    rw [relocate, pass, pass]
    exact Pass.mapTree_relocate
      (Pass.andThen_relocate (hvisit .condition condition) rfl fun _ => ih) fun _ => rfl
  | ifThenElse loc condition yes no ihy ihn =>
    rw [relocate, pass, pass]
    refine Pass.mapTree_relocate (Pass.andThen_relocate (hvisit .condition condition)
      (k := Prod.map (relocate f) (relocate f)) rfl fun _ => ?_) fun _ => rfl
    exact Pass.andThen_relocate ihy rfl fun _ => ihn
  | loop loc condition body ih =>
    rw [relocate, pass, pass]
    exact Pass.mapTree_relocate
      (Pass.andThen_relocate (hvisit .condition condition) rfl fun _ => ih) fun _ => rfl
  | ret loc value =>
    cases value with
    | none => rfl
    | some e =>
      rw [relocate, Option.map_some, pass, pass]
      exact Pass.mapTree_relocate (hvisit (.returned loc) e) fun _ => rfl
  | expression e =>
    rw [relocate, pass, pass]
    exact Pass.mapTree_relocate (hvisit .value e) fun _ => rfl

theorem Procedure.pass_relocate {visit visit' : Statement → Pass Statement Unit}
    {event event' : Event} (q : Procedure)
    (hvisit : ∀ body, visit' (body.relocate f) = (visit body).relocate f (Statement.relocate f) id)
    (hevent : event' = event.relocate f) :
    (q.relocate f).pass visit' event' =
      (q.pass visit event).relocate f (Procedure.relocate f) id := by
  obtain ⟨name, loc, returns, parameters, implementation, symbols⟩ := q
  cases implementation with
  | external => rfl
  | internal locals body =>
    unfold pass
    exact Pass.mapTree_relocate (Pass.logged_relocate (hvisit body) hevent) fun _ => rfl

theorem Traced.bind_relocate {h : α → α'} {j : β → β'} {first : Traced α} {first' : Traced α'}
    {next : α → Traced β} {next' : α' → Traced β'} (hfirst : first' = first.relocate f h)
    (hnext : ∀ a, next' (h a) = (next a).relocate f j) :
    (first' >>= next') = (first >>= next).relocate f j := by
  subst hfirst
  obtain ⟨events, result⟩ := first
  cases result with
  | error fault => rfl
  | ok a =>
    simp only [bind, andThen, relocate, Outcome.relocate, hnext a, List.map_append]

end ProcLang
