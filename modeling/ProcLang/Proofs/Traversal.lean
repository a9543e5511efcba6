import ProcLang.Binding
import ProcLang.Proofs.Pass
import ProcLang.Proofs.Tree
import ProcLang.Typing.Check

/-! The way of a pass over a program. Binding and checking come to the expressions of a program in
the same order and differ in what they do there. What holds of a pass over each expression is
carried over lists, statements and procedures once for both. -/
namespace ProcLang

open Outcome

namespace Pass

/-- Passes over the trees of a list, in order. -/
def all (f : τ → Pass τ Unit) : List τ → Pass (List τ) Unit
  | [] => ⟨[], [], .ok ()⟩
  | t :: ts => ((f t).andThen ts fun _ => all f ts).mapTree fun (t, ts) => t :: ts

variable {f g : τ → Pass τ Unit} {ts : List τ}

theorem all_congr (h : ∀ t ∈ ts, f t = g t) : all f ts = all g ts := by
  induction ts with
  | nil => rfl
  | cons t ts ih =>
    rw [List.forall_mem_cons] at h
    rw [all, all, h.1, ih h.2]

theorem all_result (f : τ → Pass τ Unit) (ts : List τ) :
    (all f ts).result = forM ts fun t => (f t).result := by
  induction ts with
  | nil => rfl
  | cons t ts ih => rw [all, mapTree_result, andThen_result, ih, List.forM_cons]

theorem all_eq_ok : (all f ts).result = .ok () ↔ ∀ t ∈ ts, (f t).result = .ok () := by
  rw [all_result, forM_eq_ok]

theorem faultsIn_all {P : Fault → Prop} (h : ∀ t ∈ ts, FaultsIn P (f t).result) :
    FaultsIn P (all f ts).result := by
  rw [all_result]
  exact forM_faultsIn h

theorem all_tree_of_ok (h : (all f ts).result = .ok ()) :
    (all f ts).tree = ts.map fun t => (f t).tree := by
  induction ts with
  | nil => rfl
  | cons t ts ih =>
    rw [all, mapTree_result] at h
    obtain ⟨ht, hts⟩ := andThen_unit_eq_ok.mp h
    rw [all, mapTree_tree, andThen_tree_of_ok ht, ih hts, List.map_cons]

/-- Passes that come through leave their events behind each other. -/
theorem all_events_of_ok (h : (all f ts).result = .ok ()) :
    (all f ts).events = ts.flatMap fun t => (f t).events := by
  induction ts with
  | nil => rfl
  | cons t ts ih =>
    rw [all, mapTree_result] at h
    obtain ⟨ht, hts⟩ := andThen_unit_eq_ok.mp h
    rw [all, mapTree_events, andThen_events_of_ok ht, ih hts, List.flatMap_cons]

/-- What each pass keeps is kept by all of them, also if one of them fails. -/
theorem map_all_tree {view : τ → σ} (h : ∀ t ∈ ts, view (f t).tree = view t) :
    (all f ts).tree.map view = ts.map view := by
  induction ts with
  | nil => rfl
  | cons t ts ih =>
    rw [List.forall_mem_cons] at h
    simp only [all, mapTree_tree, andThen]
    split <;> simp [h.1, ih h.2]

end Pass

/-- What an expression is there for. -/
inductive Role where
  | value
  | condition
  /-- The value of a `return` at a position. -/
  | returned (loc : Nat)
  deriving DecidableEq, Repr

namespace Statement

mutual

/-- The expressions that a statement evaluates, and what for. -/
def uses : Statement → List (Role × Expression)
  | .block _ body => allUses body
  | .ifThen _ condition yes => (.condition, condition) :: yes.uses
  | .ifThenElse _ condition yes no => (.condition, condition) :: yes.uses ++ no.uses
  | .loop _ condition body => (.condition, condition) :: body.uses
  | .ret loc value => value.toList.map (Prod.mk (.returned loc))
  | .expression e => [(.value, e)]

def allUses : List Statement → List (Role × Expression)
  | [] => []
  | s :: ss => s.uses ++ allUses ss

end

theorem allUses_eq_flatMap (ss : List Statement) : allUses ss = ss.flatMap uses := by
  induction ss with
  | nil => rfl
  | cons s ss ih => rw [allUses, ih, List.flatMap_cons]

theorem map_snd_uses (s : Statement) : s.uses.map Prod.snd = s.expressions := by
  induction s with
  | block loc body ih =>
    rw [uses, expressions, allUses_eq_flatMap, allExpressions_eq_flatMap, List.map_flatMap]
    exact List.flatMap_congr ih
  | ifThen loc condition yes ih => simp [uses, expressions, ih]
  | ifThenElse loc condition yes no ihy ihn => simp [uses, expressions, ihy, ihn]
  | loop loc condition body ih => simp [uses, expressions, ih]
  | ret loc value => cases value <;> simp [uses, expressions]
  | expression e => simp [uses, expressions]

mutual

/-- A pass over the expressions of a statement, in the order in which they are used. -/
def pass (visit : Role → Expression → Pass Expression Unit) : Statement → Pass Statement Unit
  | .block loc body => (passAll visit body).mapTree (.block loc)
  | .ifThen loc condition yes =>
    ((visit .condition condition).andThen yes fun _ => yes.pass visit).mapTree
      fun (condition, yes) => .ifThen loc condition yes
  | .ifThenElse loc condition yes no =>
    ((visit .condition condition).andThen (yes, no) fun _ =>
      (yes.pass visit).andThen no fun _ => no.pass visit).mapTree
      fun (condition, yes, no) => .ifThenElse loc condition yes no
  | .loop loc condition body =>
    ((visit .condition condition).andThen body fun _ => body.pass visit).mapTree
      fun (condition, body) => .loop loc condition body
  | .ret loc none => ⟨.ret loc none, [], .ok ()⟩
  | .ret loc (some value) =>
    (visit (.returned loc) value).mapTree fun value => .ret loc (some value)
  | .expression e => (visit .value e).mapTree .expression

def passAll (visit : Role → Expression → Pass Expression Unit) :
    List Statement → Pass (List Statement) Unit
  | [] => ⟨[], [], .ok ()⟩
  | s :: ss => ((s.pass visit).andThen ss fun _ => passAll visit ss).mapTree fun (s, ss) => s :: ss

end

variable {visit : Role → Expression → Pass Expression Unit}

theorem pass_block (loc : Nat) (body : List Statement) :
    (block loc body).pass visit = (Pass.all (pass visit) body).mapTree (.block loc) := by
  have hbody : passAll visit body = Pass.all (pass visit) body := by
    induction body with
    | nil => rfl
    | cons s ss ih => rw [passAll, Pass.all, ih]
  rw [pass, hbody]

/-- A pass fails as its visits do, one after the other. -/
theorem pass_result (s : Statement) :
    (s.pass visit).result = forM s.uses fun u => (visit u.1 u.2).result := by
  induction s with
  | block loc body ih =>
    rw [pass_block, Pass.mapTree_result, Pass.all_result, uses, allUses_eq_flatMap, forM_flatMap]
    exact forM_congr ih
  | ifThen loc condition yes ih => simp [pass, uses, Pass.andThen_result, ih]
  | ifThenElse loc condition yes no ihy ihn => simp [pass, uses, Pass.andThen_result, ihy, ihn]
  | loop loc condition body ih => simp [pass, uses, Pass.andThen_result, ih]
  | ret loc value =>
    cases value with
    | none => rfl
    | some e => exact (forM_singleton (fun u => (visit u.1 u.2).result) (.returned loc, e)).symm
  | expression e => exact (forM_singleton (fun u => (visit u.1 u.2).result) (.value, e)).symm

theorem pass_eq_ok {s : Statement} :
    (s.pass visit).result = .ok () ↔ ∀ u ∈ s.uses, (visit u.1 u.2).result = .ok () := by
  rw [pass_result, forM_eq_ok]

theorem faultsIn_pass {P : Fault → Prop} {s : Statement}
    (h : ∀ role, ∀ e ∈ s.expressions, FaultsIn P (visit role e).result) :
    FaultsIn P (s.pass visit).result := by
  rw [pass_result]
  refine forM_faultsIn fun u hu => h u.1 u.2 ?_
  rw [← map_snd_uses]
  exact List.mem_map_of_mem hu

/-- A pass that comes through changes a statement in its expressions only. -/
theorem pass_tree_of_ok {change : Expression → Expression} {s : Statement}
    (htree : ∀ role e, (visit role e).tree = change e) (h : (s.pass visit).result = .ok ()) :
    (s.pass visit).tree = s.map change := by
  induction s with
  | block loc body ih =>
    rw [pass_block, Pass.mapTree_result] at h
    have hall := Pass.all_eq_ok.mp h
    rw [pass_block, Pass.mapTree_tree, Pass.all_tree_of_ok h, map_block]
    exact congrArg _ (List.map_congr_left fun s hs => ih s hs (hall s hs))
  | ifThen loc condition yes ih =>
    simp only [pass, Pass.mapTree_result, Pass.andThen_unit_eq_ok] at h
    simp [pass, Pass.andThen_tree_of_ok h.1, htree, ih h.2]
  | ifThenElse loc condition yes no ihy ihn =>
    simp only [pass, Pass.mapTree_result, Pass.andThen_unit_eq_ok] at h
    simp [pass, Pass.andThen_tree_of_ok h.1, Pass.andThen_tree_of_ok h.2.1, htree, ihy h.2.1,
      ihn h.2.2]
  | loop loc condition body ih =>
    simp only [pass, Pass.mapTree_result, Pass.andThen_unit_eq_ok] at h
    simp [pass, Pass.andThen_tree_of_ok h.1, htree, ih h.2]
  | ret loc value => cases value <;> simp [pass, htree]
  | expression e => simp [pass, htree]

/-- A pass that comes through leaves the events of its visits, in the order of the visits. -/
theorem pass_events_of_ok {s : Statement} (h : (s.pass visit).result = .ok ()) :
    (s.pass visit).events = s.uses.flatMap fun u => (visit u.1 u.2).events := by
  induction s with
  | block loc body ih =>
    rw [pass_block, Pass.mapTree_result] at h
    have hall := Pass.all_eq_ok.mp h
    rw [pass_block, Pass.mapTree_events, Pass.all_events_of_ok h, uses, allUses_eq_flatMap,
      List.flatMap_assoc]
    exact List.flatMap_congr fun s hs => ih s hs (hall s hs)
  | ifThen loc condition yes ih =>
    simp only [pass, Pass.mapTree_result, Pass.andThen_unit_eq_ok] at h
    simp [pass, uses, Pass.andThen_events_of_ok h.1, ih h.2]
  | ifThenElse loc condition yes no ihy ihn =>
    simp only [pass, Pass.mapTree_result, Pass.andThen_unit_eq_ok] at h
    simp [pass, uses, Pass.andThen_events_of_ok h.1, Pass.andThen_events_of_ok h.2.1, ihy h.2.1,
      ihn h.2.2]
  | loop loc condition body ih =>
    simp only [pass, Pass.mapTree_result, Pass.andThen_unit_eq_ok] at h
    simp [pass, uses, Pass.andThen_events_of_ok h.1, ih h.2]
  | ret loc value => cases value <;> simp [pass, uses]
  | expression e => simp [pass, uses]

/-- What each visit keeps is kept in the statement, also if one of them fails. -/
theorem map_pass_tree {view : Expression → Expression}
    (h : ∀ role e, view (visit role e).tree = view e) (s : Statement) :
    (s.pass visit).tree.map view = s.map view := by
  induction s with
  | block loc body ih =>
    rw [pass_block, Pass.mapTree_tree, map_block, map_block, Pass.map_all_tree ih]
  | ifThen loc condition yes ih =>
    simp only [pass, Pass.mapTree_tree, Pass.andThen]
    split <;> simp [h, ih]
  | ifThenElse loc condition yes no ihy ihn =>
    simp only [pass, Pass.mapTree_tree, Pass.andThen]
    split
    · simp [h]
    · split <;> simp [h, ihy, ihn]
  | loop loc condition body ih =>
    simp only [pass, Pass.mapTree_tree, Pass.andThen]
    split <;> simp [h, ih]
  | ret loc value => cases value <;> simp [pass, h]
  | expression e => simp [pass, h]

end Statement

namespace Procedure

/-- A pass over the body of a procedure, if it has one, with an event at its end. -/
def pass (visit : Statement → Pass Statement Unit) (event : Event) (q : Procedure) :
    Pass Procedure Unit :=
  match q.implementation with
  | .external => ⟨q, [], .ok ()⟩
  | .internal locals body =>
    ((visit body).logged event).mapTree
      fun body => { q with implementation := .internal locals body }

variable {visit : Statement → Pass Statement Unit} {event : Event} {q : Procedure}

theorem redone_pass (visit : Statement → Pass Statement Unit) (event : Event) (q : Procedure) :
    q.Redone (fun body => (visit body).tree) (q.pass visit event).tree := by
  cases h : q.implementation with
  | external => constructor <;> simp [pass, h, body?]
  | internal locals body => constructor <;> simp [pass, h, body?, Procedure.locals, isExternal]

theorem pass_eq_ok : (q.pass visit event).result = .ok () ↔
    ∀ body, q.body? = some body → (visit body).result = .ok () := by
  unfold pass body?
  cases q.implementation with
  | external => simp
  | internal locals body => simp

theorem faultsIn_pass {P : Fault → Prop}
    (h : ∀ body, q.body? = some body → FaultsIn P (visit body).result) :
    FaultsIn P (q.pass visit event).result := by
  unfold pass body? at *
  cases himpl : q.implementation with
  | external => exact faultsIn_ok _
  | internal locals body =>
    rw [Pass.mapTree_result, Pass.logged_result]
    exact h body (by simp [himpl])

theorem map_pass_tree {view : Expression → Expression}
    (h : ∀ body, (visit body).tree.map view = body.map view) :
    (q.pass visit event).tree.map view = q.map view := by
  unfold pass
  cases himpl : q.implementation with
  | external => rfl
  | internal locals body =>
    rw [map_of_internal _ himpl, map_of_internal _ rfl]
    simp [h]

/-- A change of expressions that goes along with a pass over the body goes along with a pass over
the procedure. -/
theorem pass_tree_map {change : Expression → Expression}
    {visit' : Statement → Pass Statement Unit} (event' : Event)
    (h : ∀ body, q.body? = some body →
      (visit' (body.map change)).tree = (visit body).tree.map change) :
    ((q.map change).pass visit' event').tree = (q.pass visit event).tree.map change := by
  cases himpl : q.implementation with
  | external => simp [pass, himpl, map_of_external]
  | internal locals body =>
    have htree : (q.pass visit event).tree.implementation = .internal locals (visit body).tree := by
      simp [pass, himpl]
    rw [map_of_internal _ htree, map_of_internal _ himpl, ← h body (by simp [body?, himpl])]
    simp [pass, himpl]

end Procedure

/-! ### The two passes -/

namespace Scope

variable (s : Scope)

theorem bindOperands_eq_all : s.bindOperands = Pass.all s.bindExpression := by
  funext es
  induction es with
  | nil => rfl
  | cons e es ih => rw [bindOperands, Pass.all, ih]

theorem bindStatements_eq_all : s.bindStatements = Pass.all s.bindStatement := by
  funext ts
  induction ts with
  | nil => rfl
  | cons t ts ih => rw [bindStatements, Pass.all, ih]

theorem bindStatement_eq_pass : s.bindStatement = Statement.pass fun _ => s.bindExpression := by
  funext t
  induction t with
  | block loc body ih =>
    rw [bindStatement, Statement.pass_block, bindStatements_eq_all, Pass.all_congr ih]
  | ifThen loc condition yes ih => rw [bindStatement, Statement.pass, ih]
  | ifThenElse loc condition yes no ihy ihn => rw [bindStatement, Statement.pass, ihy, ihn]
  | loop loc condition body ih => rw [bindStatement, Statement.pass, ih]
  | ret loc value => cases value <;> rw [bindStatement, Statement.pass]
  | expression e => rw [bindStatement, Statement.pass]

end Scope

namespace Typing.Context

variable (c : Typing.Context)

/-- The check of an expression with what is asked of it where it stands. -/
def checkAs (c : Typing.Context) : Role → Expression → Pass Expression Unit
  | .value, e => (c.checkExpression e).require fun _ => .ok ()
  | .condition, e => c.checkCondition e
  | .returned loc, e => c.checkReturn loc e

theorem checkAs_tree (role : Role) (e : Expression) :
    (c.checkAs role e).tree = (c.checkExpression e).tree := by
  cases role <;> rfl

theorem checkStatements_eq_all : c.checkStatements = Pass.all c.checkStatement := by
  funext ss
  induction ss with
  | nil => rfl
  | cons s ss ih => rw [checkStatements, Pass.all, ih]

theorem checkStatement_eq_pass : c.checkStatement = Statement.pass c.checkAs := by
  funext s
  induction s with
  | block loc body ih =>
    rw [checkStatement, Statement.pass_block, checkStatements_eq_all, Pass.all_congr ih]
  | ifThen loc condition yes ih => rw [checkStatement, Statement.pass, ih, checkAs]
  | ifThenElse loc condition yes no ihy ihn =>
    rw [checkStatement, Statement.pass, ihy, ihn, checkAs]
  | loop loc condition body ih => rw [checkStatement, Statement.pass, ih, checkAs]
  | ret loc value =>
    cases value with
    | none => rw [checkStatement, Statement.pass]
    | some e => rw [checkStatement, Statement.pass, checkAs]
  | expression e => rw [checkStatement, Statement.pass, checkAs]

end Typing.Context

namespace Program

variable (p : Program)

theorem bindProcedure_eq_pass (q : Procedure) :
    p.bindProcedure q = q.pass (p.scope q).bindStatement (.boundProcedure q.name) := rfl

theorem bindProcedures_eq_all : p.bindProcedures = Pass.all p.bindProcedure := by
  funext qs
  induction qs with
  | nil => rfl
  | cons q qs ih => rw [bindProcedures, Pass.all, ih]

theorem checkProcedure_eq_pass (q : Procedure) :
    p.checkProcedure q = q.pass (p.context q).checkStatement (.checkedProcedure q.name) := rfl

theorem checkProcedures_eq_all : p.checkProcedures = Pass.all p.checkProcedure := by
  funext qs
  induction qs with
  | nil => rfl
  | cons q qs ih => rw [checkProcedures, Pass.all, ih]

end Program

end ProcLang
