import ProcLang.Proofs.Traversal

/-! The order in which a pass comes to the expressions of a program, and the point at which it is
stopped. -/
namespace ProcLang

namespace Expression

def operands : Expression → List Expression
  | .operation _ _ operands _ _ => operands
  | _ => []

theorem parts_eq_cons (e : Expression) : e.parts = e :: e.operands.flatMap parts := by
  cases e with
  | operation loc token es op type => rw [parts, operandParts_eq_flatMap]; rfl
  | _ => simp [operands]

/-- The visits to expressions that are there for their values, and to all that they are made of. -/
def valueVisits (es : List Expression) : List (Role × Expression) :=
  (es.flatMap parts).map (Prod.mk .value)

/-- The visits to an expression and to its operands, in order. -/
def visits (role : Role) (e : Expression) : List (Role × Expression) :=
  (role, e) :: valueVisits e.operands

@[simp] theorem valueVisits_nil : valueVisits [] = [] := rfl

theorem valueVisits_eq_flatMap (es : List Expression) :
    valueVisits es = es.flatMap (visits .value) := by
  rw [valueVisits, List.map_flatMap]
  exact List.flatMap_congr fun e _ => by rw [e.parts_eq_cons]; rfl

theorem valueVisits_append (es fs : List Expression) :
    valueVisits (es ++ fs) = valueVisits es ++ valueVisits fs := by
  simp [valueVisits]

theorem valueVisits_cons (e : Expression) (es : List Expression) :
    valueVisits (e :: es) = e.visits .value ++ valueVisits es := by
  simp [valueVisits, visits, e.parts_eq_cons]

end Expression

namespace Statement

/-- The visits to all expressions of a statement, in order. -/
def visits (s : Statement) : List (Role × Expression) :=
  s.uses.flatMap fun (role, e) => e.visits role

theorem visits_block (loc : Nat) (body : List Statement) :
    (block loc body).visits = body.flatMap visits := by
  rw [visits, uses, allUses_eq_flatMap, List.flatMap_assoc]
  rfl

theorem visits_ifThen (loc : Nat) (e : Expression) (yes : Statement) :
    (ifThen loc e yes).visits = e.visits .condition ++ yes.visits := rfl

theorem visits_ifThenElse (loc : Nat) (e : Expression) (yes no : Statement) :
    (ifThenElse loc e yes no).visits = e.visits .condition ++ (yes.visits ++ no.visits) := by
  simp [visits, uses]

theorem visits_loop (loc : Nat) (e : Expression) (body : Statement) :
    (loop loc e body).visits = e.visits .condition ++ body.visits := rfl

theorem visits_ret (loc : Nat) (e : Expression) :
    (ret loc (some e)).visits = e.visits (.returned loc) :=
  List.append_nil _

theorem visits_expression (e : Expression) : (expression e).visits = e.visits .value :=
  List.append_nil _

end Statement

/-- The visits to all expressions of a body, with what is known of the procedure there. -/
def Procedure.visits (view : α) (q : Procedure) : List (α × Role × Expression) :=
  ((q.body?.map Statement.visits).getD []).map (Prod.mk view)

/-- The visits to all expressions of a program, in order. -/
def Program.visits (view : Procedure → α) (p : Program) : List (α × Role × Expression) :=
  p.procedures.flatMap fun q => q.visits (view q)

/-- What the visits of a pass come to. -/
structure Walk (ν : Type) where
  /-- A visit ends the walk, once it has seen the visits on a list. -/
  Fails : ν → List ν → Fault → Prop
  /-- What a visit may make of what it finds. -/
  Leaves : ν → ν → Prop
  leaves_self : ∀ v, Leaves v v

namespace Walk

/-- Nothing ends the walk at any of the visits. -/
def Passes (w : Walk ν) (vs : List ν) : Prop :=
  ∀ v ∈ vs, ∀ seen fault, ¬w.Fails v seen fault

/-- What a pass may leave of its visits. -/
abbrev LeavesAll (w : Walk ν) (vs vs' : List ν) : Prop :=
  List.Forall₂ w.Leaves vs vs'

variable {w : Walk ν}

theorem leavesAll_self (vs : List ν) : w.LeavesAll vs vs :=
  List.forall₂_same.mpr fun v _ => w.leaves_self v

theorem passes_append {us vs : List ν} (hus : w.Passes us) (hvs : w.Passes vs) :
    w.Passes (us ++ vs) :=
  List.forall_mem_append.mpr ⟨hus, hvs⟩

/-- A walk through the bodies of a program, with what is known of the procedure in each. -/
def within (w : α → Walk ν) : Walk (α × ν) where
  Fails v seen fault := ∃ inside, seen = inside.map (Prod.mk v.1) ∧ (w v.1).Fails v.2 inside fault
  Leaves v v' := v'.1 = v.1 ∧ (w v.1).Leaves v.2 v'.2
  leaves_self v := ⟨rfl, (w v.1).leaves_self v.2⟩

theorem leavesAll_within {w : α → Walk ν} {a : α} {vs vs' : List ν} (h : (w a).LeavesAll vs vs') :
    (within w).LeavesAll (vs.map (Prod.mk a)) (vs'.map (Prod.mk a)) := by
  rw [LeavesAll, List.forall₂_map_left_iff, List.forall₂_map_right_iff]
  exact h.imp fun _ _ hleaves => ⟨rfl, hleaves⟩

theorem passes_within {w : α → Walk ν} {a : α} {vs : List ν} (h : (w a).Passes vs) :
    (within w).Passes (vs.map (Prod.mk a)) := by
  rintro _ hmem seen fault ⟨inside, -, hfails⟩
  obtain ⟨v, hv, rfl⟩ := List.mem_map.mp hmem
  exact h v hv inside fault hfails

end Walk

/-- `Stopped w fault vs vs'`: a pass that makes the visits `vs` in their order is stopped by a
fault, and leaves `vs'`. It fails at the first visit that can fail, after it has seen some of what
follows there. Everything behind that is as it was. -/
inductive Stopped (w : Walk ν) (fault : Fault) : List ν → List ν → Prop
  | intro {before before' seen seen' after : List ν} {v v' : ν}
    (passes : w.Passes before) (fails : w.Fails v seen fault)
    (done : w.LeavesAll before before') (here : w.Leaves v v') (known : w.LeavesAll seen seen') :
    Stopped w fault (before ++ v :: (seen ++ after)) (before' ++ v' :: (seen' ++ after))

namespace Stopped

variable {w : Walk ν} {fault : Fault} {vs vs' : List ν}

theorem append_right (h : Stopped w fault vs vs') (us : List ν) :
    Stopped w fault (vs ++ us) (vs' ++ us) := by
  cases h with
  | intro hpasses hfails hdone hhere hknown =>
    simp only [List.append_assoc, List.cons_append]
    exact .intro hpasses hfails hdone hhere hknown

theorem append_left {us us' : List ν} (hpasses : w.Passes us) (hleaves : w.LeavesAll us us')
    (h : Stopped w fault vs vs') : Stopped w fault (us ++ vs) (us' ++ vs') := by
  cases h with
  | intro hpasses' hfails hdone hhere hknown =>
    rw [← List.append_assoc, ← List.append_assoc]
    exact .intro (Walk.passes_append hpasses hpasses') hfails (List.rel_append hleaves hdone)
      hhere hknown

theorem cons {u u' : ν} (hpasses : w.Passes [u]) (hleaves : w.Leaves u u')
    (h : Stopped w fault vs vs') : Stopped w fault (u :: vs) (u' :: vs') :=
  h.append_left hpasses (.cons hleaves .nil)

/-- The very first visit fails. -/
theorem first {v v' : ν} {seen seen' : List ν} (hfails : w.Fails v seen fault)
    (hhere : w.Leaves v v') (hknown : w.LeavesAll seen seen') (after : List ν) :
    Stopped w fault (v :: (seen ++ after)) (v' :: (seen' ++ after)) :=
  @intro _ _ _ [] [] _ _ _ _ _ (by simp [Walk.Passes]) hfails .nil hhere hknown

theorem within {w : α → Walk ν} {a : α} (h : Stopped (w a) fault vs vs') :
    Stopped (.within w) fault (vs.map (Prod.mk a)) (vs'.map (Prod.mk a)) := by
  cases h with
  | intro hpasses hfails hdone hhere hknown =>
    simp only [List.map_append, List.map_cons]
    exact .intro (Walk.passes_within hpasses) ⟨_, rfl, hfails⟩ (Walk.leavesAll_within hdone)
      ⟨rfl, hhere⟩ (Walk.leavesAll_within hknown)

end Stopped

/-- A pass over a tree either comes through all of its visits, or is stopped at one of them. -/
structure Pass.Halts (w : Walk ν) (visits : τ → List ν) (t : τ) (p : Pass τ α) : Prop where
  leaves : w.LeavesAll (visits t) (visits p.tree)
  passes : ∀ a, p.result = .ok a → w.Passes (visits t)
  stopped : ∀ fault, p.result = .error fault → Stopped w fault (visits t) (visits p.tree)

namespace Pass.Halts

variable {w : Walk ν} {visits : τ → List ν} {t : τ} {p : Pass τ α}

theorem mapTree (h : Halts w visits t p) (F : τ → σ) {visits' : σ → List ν}
    (hF : ∀ t, visits' (F t) = visits t) : Halts w visits' (F t) (p.mapTree F) := by
  constructor
  · simpa only [mapTree_tree, hF] using h.leaves
  · simpa only [mapTree_result, hF] using h.passes
  · simpa only [mapTree_result, mapTree_tree, hF] using h.stopped

theorem andThen {visits' : σ → List ν} {u : σ} {next : α → Pass σ β} (h : Halts w visits t p)
    (hnext : ∀ a, p.result = .ok a → Halts w visits' u (next a)) :
    Halts w (fun v : τ × σ => visits v.1 ++ visits' v.2) (t, u) (p.andThen u next) := by
  cases hresult : p.result with
  | error fault =>
    constructor
    · simpa [Pass.andThen, hresult] using List.rel_append h.leaves (Walk.leavesAll_self (visits' u))
    · simp [Pass.andThen, hresult]
    · intro fault' hfault'
      obtain rfl : fault = fault' := by simpa [Pass.andThen, hresult] using hfault'
      simpa [Pass.andThen, hresult] using (h.stopped fault hresult).append_right (visits' u)
  | ok a =>
    have hpasses := h.passes a hresult
    have hnext := hnext a hresult
    constructor
    · simpa [Pass.andThen, hresult] using List.rel_append h.leaves hnext.leaves
    · intro b hb
      have hb : (next a).result = .ok b := by simpa [Pass.andThen, hresult] using hb
      exact Walk.passes_append hpasses (hnext.passes b hb)
    · intro fault hfault
      have hfault : (next a).result = .error fault := by simpa [Pass.andThen, hresult] using hfault
      simpa [Pass.andThen, hresult] using (hnext.stopped fault hfault).append_left hpasses h.leaves

theorem within {w : α → Walk ν} {view : α} {p : Pass τ β} (h : Halts (w view) visits t p) :
    Halts (.within w) (fun t => (visits t).map (Prod.mk view)) t p :=
  ⟨Walk.leavesAll_within h.leaves, fun a ha => Walk.passes_within (h.passes a ha),
    fun fault hfault => (h.stopped fault hfault).within⟩

theorem all {f : τ → Pass τ Unit} {ts : List τ} (h : ∀ t ∈ ts, Halts w visits t (f t)) :
    Halts w (List.flatMap visits) ts (Pass.all f ts) := by
  induction ts with
  | nil => constructor <;> simp [Pass.all, Walk.Passes]
  | cons t ts ih =>
    obtain ⟨ht, hts⟩ := List.forall_mem_cons.mp h
    rw [Pass.all]
    exact (ht.andThen fun _ _ => ih hts).mapTree _ fun _ => List.flatMap_cons

end Pass.Halts

/-- Where each visit halts by its own rules, so does the pass over a statement. -/
theorem Statement.halts_pass {w : Walk (Role × Expression)}
    {visit : Role → Expression → Pass Expression Unit}
    (h : ∀ role e, (visit role e).Halts w (Expression.visits role) e) (s : Statement) :
    (s.pass visit).Halts w Statement.visits s := by
  induction s with
  | block loc body ih =>
    rw [pass_block]
    exact (Pass.Halts.all ih).mapTree _ (visits_block loc)
  | ifThen loc condition yes ih =>
    rw [pass]
    exact ((h .condition condition).andThen fun _ _ => ih).mapTree _
      fun t => visits_ifThen loc t.1 t.2
  | ifThenElse loc condition yes no ihy ihn =>
    rw [pass]
    exact ((h .condition condition).andThen fun _ _ => ihy.andThen fun _ _ => ihn).mapTree _
      fun t => visits_ifThenElse loc t.1 t.2.1 t.2.2
  | loop loc condition body ih =>
    rw [pass]
    exact ((h .condition condition).andThen fun _ _ => ih).mapTree _
      fun t => visits_loop loc t.1 t.2
  | ret loc value =>
    cases value with
    | none => constructor <;> simp [pass, visits, uses, Walk.Passes]
    | some e =>
      rw [pass]
      exact (h (.returned loc) e).mapTree _ (visits_ret loc)
  | expression e =>
    rw [pass]
    exact (h .value e).mapTree _ visits_expression

theorem Procedure.halts_pass {w : α → Walk (Role × Expression)} {view : Procedure → α}
    {visit : Statement → Pass Statement Unit} {event : Event} {q : Procedure}
    (hview : ∀ redo q', q.Redone redo q' → view q' = view q)
    (h : ∀ body, (visit body).Halts (w (view q)) Statement.visits body) :
    (q.pass visit event).Halts (.within w) (fun q => q.visits (view q)) q := by
  cases himpl : q.implementation with
  | external => constructor <;> simp [pass, himpl, visits, body?, Walk.Passes]
  | internal locals body =>
    have hredone := q.redone_pass visit event
    have hq : q.visits (view q) = body.visits.map (Prod.mk (view q)) := by
      simp [visits, body?, himpl]
    have hq' : (q.pass visit event).tree.visits (view (q.pass visit event).tree) =
        (visit body).tree.visits.map (Prod.mk (view q)) := by
      rw [hview _ _ hredone, visits, hredone.body?]
      simp [body?, himpl]
    have hresult : (q.pass visit event).result = (visit body).result := by simp [pass, himpl]
    obtain ⟨hleaves, hpasses, hstopped⟩ := (h body).within
    constructor
    · simpa only [hq, hq'] using hleaves
    · simpa only [hq, hresult] using hpasses
    · simpa only [hq, hq', hresult] using hstopped

end ProcLang
