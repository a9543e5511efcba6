import Mathlib.Tactic.SplitIfs
import ProcLang.Proofs.Correctness.Labels
import ProcLang.Proofs.Grammar.Parts
import ProcLang.Proofs.Stages
import ProcLang.Proofs.Strings.Encoding

/-! Branches and loops stand at distinct positions of a source, and so do expressions. -/
namespace ProcLang

namespace Token

theorem cut_loc {loc : Nat} {c : Char} {cs : List Char} {t : Token} {more : Nat}
    (h : cut loc c cs = .ok ⟨.token t, more⟩) : t.loc = loc := by
  unfold cut at h
  split at h
  next =>
    cases h
    rfl
  next =>
    split_ifs at h
    · unfold cutComment at h
      split at h <;> cases h
    · unfold cutInteger at h
      dsimp only at h
      split at h <;> cases h
      rfl
    · unfold cutCharacter at h
      split at h
      next =>
        obtain ⟨value, -, h⟩ := Outcome.bind_eq_ok.mp h
        split at h <;> cases h
        rfl
      next =>
        split at h <;> cases h
        rfl
      next => cases h
    · obtain ⟨body, -, h⟩ := Outcome.bind_eq_ok.mp h
      cases h
      rfl
    · cases h
      rfl

/-- Tokens come in the order of their positions. -/
theorem pieces_sorted (loc : Nat) (cs : List Char) :
    (((pieces loc cs).1.filterMap Piece.token?).map Token.loc).Pairwise (· < ·) ∧
      ∀ t ∈ (pieces loc cs).1.filterMap Piece.token?, loc ≤ t.loc := by
  fun_induction pieces loc cs with
  | case1 => simp
  | case2 => simp
  | case3 loc c cs piece more hcut rest fault? hrest ih =>
    rw [hrest] at ih
    have hlt : loc < loc + Text.byteWidth (c :: cs.take more) := by
      have := c.utf8Size_pos
      simp only [Text.byteWidth, List.foldr_cons]
      omega
    obtain ⟨hsorted, hbound⟩ := ih
    cases piece with
    | comment start stop =>
      refine ⟨hsorted, fun t ht => ?_⟩
      have := hbound t ht
      omega
    | token t =>
      have hloc := cut_loc hcut
      refine ⟨List.pairwise_cons.mpr ⟨?_, hsorted⟩, List.forall_mem_cons.mpr ⟨hloc.ge, ?_⟩⟩
      · intro l hl
        obtain ⟨u, hu, rfl⟩ := List.mem_map.mp hl
        have := hbound u hu
        omega
      · intro u hu
        have := hbound u hu
        omega

theorem scan_sorted {source : String} {tokens : List Token}
    (h : (scan source).result = .ok tokens) : (tokens.map Token.loc).Pairwise (· < ·) := by
  unfold scan at h
  dsimp only at h
  split at h
  next => cases h
  next =>
    cases h
    exact (pieces_sorted 0 source.toList).1

/-- Tokens stand before the end. -/
theorem pieces_lt (loc : Nat) (cs : List Char) :
    ∀ t ∈ (pieces loc cs).1.filterMap Piece.token?, t.loc < loc + Text.byteWidth cs := by
  fun_induction pieces loc cs with
  | case1 => simp
  | case2 => simp
  | case3 loc c cs piece more hcut rest fault? hrest ih =>
    rw [hrest] at ih
    have hwidth : Text.byteWidth (c :: cs) =
        Text.byteWidth (c :: cs.take more) + Text.byteWidth (cs.drop more) := by
      rw [← Text.byteWidth_append, List.cons_append, List.take_append_drop]
    intro t ht
    cases piece with
    | comment start stop =>
      have := ih t ht
      omega
    | token u =>
      rcases List.mem_cons.mp ht with rfl | ht
      · have hloc := cut_loc hcut
        have hpos := c.utf8Size_pos
        simp only [Text.byteWidth, List.foldr_cons]
        omega
      · have := ih t ht
        omega

theorem scan_lt {source : String} {tokens : List Token} (h : (scan source).result = .ok tokens) :
    ∀ t ∈ tokens, t.loc < Text.byteWidth source.toList := by
  unfold scan at h
  dsimp only at h
  split at h
  next => cases h
  next =>
    cases h
    simpa using pieces_lt 0 source.toList

end Token

namespace Grammar

variable {ts rest : List Token}

mutual

/-- The positions of branches and loops are those of tokens, in their order. -/
theorem controls_of_stmt {ts rest : List Token} {s : Statement} :
    Stmt ts s rest → (s.controls ++ rest.map Token.loc).Sublist (ts.map Token.loc)
  | .block _ hbody _ => by
    rw [Statement.controls]
    exact (((List.sublist_cons_self _ _).append_left _).trans (controls_of_stmts hbody)).cons _
  | .ifThen _ htest hyes _ => by
    rw [Statement.controls]
    exact ((controls_of_stmt hyes).trans ((sublist_of_expr htest).map _)).cons_cons _
  | .ifThenElse _ htest hyes _ hno => by
    rw [Statement.controls, List.cons_append, List.append_assoc]
    have hbranches := ((controls_of_stmt hno).cons _).append_left _ |>.trans (controls_of_stmt hyes)
    exact (hbranches.trans ((sublist_of_expr htest).map _)).cons_cons _
  | .loop _ htest hbody => by
    rw [Statement.controls]
    exact ((controls_of_stmt hbody).trans ((sublist_of_expr htest).map _)).cons_cons _
  | .ret .. => by
    rw [Statement.controls]
    exact List.sublist_cons_self _ _
  | .retValue _ hvalue => by
    rw [Statement.controls]
    exact ((sublist_of_expr hvalue).map _).cons _
  | .expression he => by
    rw [Statement.controls]
    exact (sublist_of_expr he).map _

theorem controls_of_stmts {ts rest : List Token} {ss : List Statement} :
    Stmts ts ss rest →
      (Statement.allControls ss ++ rest.map Token.loc).Sublist (ts.map Token.loc)
  | .nil _ => by
    rw [Statement.allControls]
    exact List.Sublist.refl _
  | .cons hs hss => by
    rw [Statement.allControls, List.append_assoc]
    exact ((controls_of_stmts hss).append_left _).trans (controls_of_stmt hs)

end

/-- The positions of branches and loops in a procedure are those of tokens. -/
theorem controls_of_proc {q : Procedure} (h : Proc ts q rest) :
    ((q.body?.map Statement.controls).getD [] ++ rest.map Token.loc).Sublist
      (ts.map Token.loc) := by
  cases h with
  | internal _ htype _ hps hlocals hbody _ =>
    exact (controls_of_stmt hbody).trans ((sublist_of_proc_internal htype hps hlocals).map _)
  | external _ htype _ hps _ => exact (sublist_of_proc_external htype hps).map _

theorem controls_of_procs {ps : List Procedure} (h : Procs ts ps) {q : Procedure} (hq : q ∈ ps)
    {body : Statement} (hbody : q.body? = some body) :
    body.controls.Sublist (ts.map Token.loc) := by
  induction h with
  | nil => cases hq
  | cons hp _ ih =>
    have hproc := controls_of_proc hp
    rcases List.mem_cons.mp hq with rfl | hq
    · rw [hbody] at hproc
      exact (List.sublist_append_left _ _).trans hproc
    · exact (ih hq).trans ((List.sublist_append_right _ _).trans hproc)

theorem loc_of_expr {t : Token} {e : Expression} (h : Expr (t :: ts) e rest) : e.loc = t.loc := by
  cases h <;> rfl

/-- Expressions stand at the positions of tokens, in their order. -/
theorem Carries.positions {es : List Expression} (h : Carries ts es) :
    (es.map Expression.loc).Sublist (ts.map Token.loc) := by
  induction h with
  | nil => exact List.Sublist.refl _
  | begins hfirst _ ih =>
    rw [List.map_cons, List.map_cons, loc_of_expr hfirst]
    exact ih.cons_cons _
  | skips _ _ ih => exact ih.cons _

end Grammar

namespace Statement

theorem allControls_eq_flatMap (ss : List Statement) : allControls ss = ss.flatMap controls := by
  induction ss with
  | nil => rfl
  | cons s ss ih => rw [allControls, ih, List.flatMap_cons]

theorem controls_map (f : Expression → Expression) (s : Statement) :
    (s.map f).controls = s.controls := by
  induction s with
  | block loc body ih =>
    simp only [map_block, controls, allControls_eq_flatMap, List.flatMap_map]
    exact List.flatMap_congr ih
  | ifThen loc condition yes ih => simp [controls, ih]
  | ifThenElse loc condition yes no ihy ihn => simp [controls, ihy, ihn]
  | loop loc condition body ih => simp [controls, ih]
  | ret loc value => simp [controls]
  | expression e => simp [controls]

end Statement

namespace Program

/-- Checked bodies have the branches and loops of the bound ones. -/
theorem controls_of_check {p : Program} (h : p.WellTyped) {q' : Procedure}
    (hq' : q' ∈ p.check.tree.procedures) {body' : Statement} (hbody' : q'.body? = some body') :
    ∃ q ∈ p.procedures, ∃ body, q.body? = some body ∧ body'.controls = body.controls := by
  obtain ⟨q, hq, rfl, hbodies⟩ := checked_of_mem h hq'
  obtain ⟨body, hbody, hclear⟩ := hbodies body' hbody'
  have hcontrols := congrArg Statement.controls hclear
  rw [Statement.controls_map, Statement.controls_map] at hcontrols
  exact ⟨q, hq, body, hbody, hcontrols⟩

theorem controls_of_bind {p : Program} (h : p.bind.result = .ok ()) {q' : Procedure}
    (hq' : q' ∈ p.bind.tree.procedures) {body' : Statement} (hbody' : q'.body? = some body') :
    ∃ q ∈ p.procedures, ∃ body, q.body? = some body ∧ body'.controls = body.controls := by
  obtain ⟨q, hq, rfl, hok⟩ := bound_of_mem h hq'
  rw [(p.redone_bindProcedure q).body?] at hbody'
  obtain ⟨body, hbody, rfl⟩ := Option.map_eq_some_iff.mp hbody'
  refine ⟨q, hq, body, hbody, ?_⟩
  rw [(Scope.bindStatement_of_ok (hok body hbody)).1, Statement.controls_map]

end Program

theorem Scope.positions_bindExpression {s : Scope} {e : Expression}
    (h : (s.bindExpression e).result = .ok ()) :
    (s.bindExpression e).tree.parts.map Expression.loc = e.parts.map Expression.loc := by
  induction e with
  | literal l => rw [bindExpression]
  | var v =>
    rw [bindExpression, Pass.mapTree_tree, Expression.parts_var, Expression.parts_var]
    unfold bindVariable
    split <;> rfl
  | operation loc token es known type ih =>
    rw [bindExpression] at h ⊢
    dsimp only at h ⊢
    split at h
    next => cases h
    next op hop =>
      rw [bindOperands_tree_of_ok h]
      have hall := bindOperands_eq_ok.mp h
      simp only [Expression.parts, Expression.operandParts_eq_flatMap, List.flatMap_map,
        List.map_cons, List.map_flatMap]
      exact congrArg _ (List.flatMap_congr fun e he => ih e he (hall e he))

namespace Program

theorem positions_bind {p : Program} (h : p.bind.result = .ok ()) :
    p.bind.tree.parts.map Expression.loc = p.parts.map Expression.loc := by
  have htree : p.bind.tree.procedures = p.procedures.map fun q => (p.bindProcedure q).tree :=
    bindProcedures_tree_of_ok h
  rw [parts, htree, parts, List.flatMap_map, List.map_flatMap, List.map_flatMap]
  refine List.flatMap_congr fun q hq => ?_
  have hq' : (p.bindProcedure q).result = .ok () := bindProcedures_eq_ok.mp h q hq
  rw [(p.redone_bindProcedure q).body?]
  cases hbody : q.body? with
  | none => rfl
  | some body =>
    obtain ⟨htree, hok⟩ := Scope.bindStatement_of_ok (bindProcedure_eq_ok.mp hq' body hbody)
    simp only [Option.map_some, Option.getD_some, htree, Statement.parts,
      Statement.expressions_map, List.flatMap_map, List.map_flatMap]
    exact List.flatMap_congr fun e he => Scope.positions_bindExpression (hok e he)

theorem positions_check {p : Program} (h : p.WellTyped) :
    p.check.tree.parts.map Expression.loc = p.parts.map Expression.loc := by
  have hloc : Expression.loc ∘ Expression.clearTypes = Expression.loc :=
    funext Expression.loc_clearTypes
  rw [parts, check_tree_of_wellTyped h, parts, List.flatMap_map, List.map_flatMap,
    List.map_flatMap]
  refine List.flatMap_congr fun q hq => ?_
  rw [(p.redone_checkProcedure q).body?]
  cases hbody : q.body? with
  | none => rfl
  | some body =>
    have hclear := congrArg Statement.parts
      (Typing.Context.map_clearTypes_tree (c := p.context q) body)
    rw [Statement.parts_clearTypes, Statement.parts_clearTypes] at hclear
    have hlocs := congrArg (List.map Expression.loc) hclear
    rwa [List.map_map, List.map_map, hloc] at hlocs

end Program

namespace Stages

variable {source : String} {tokens : List Token} {parsed : Program}

theorem locs_nodup (h : Stages source tokens parsed) :
    ((tokens.filter Token.isSignificant).map Token.loc).Nodup :=
  ((Token.scan_sorted h.scanned).imp Nat.ne_of_lt).sublist (List.filter_sublist.map _)

/-- No two expressions of a source share a position. -/
theorem positions_nodup (h : Stages source tokens parsed) :
    (parsed.parts.map Expression.loc).Nodup :=
  h.locs_nodup.sublist (Grammar.carries_of_derives h.derives).positions

theorem checked_positions_nodup (h : Stages source tokens parsed)
    (hwell : parsed.bind.tree.WellTyped) :
    (parsed.bind.tree.check.tree.parts.map Expression.loc).Nodup := by
  rw [Program.positions_check hwell, Program.positions_bind h.bound]
  exact h.positions_nodup

end Stages

open Grammar in
/-- No two branches or loops of a body share a position. -/
theorem controls_nodup {source : String} {p : Program} {warnings : List Warning}
    (h : (checkSource source).result = .ok (p, warnings)) {q : Procedure} (hq : q ∈ p.procedures)
    {body : Statement} (hbody : q.body? = some body) : body.controls.Nodup := by
  obtain ⟨tokens, parsed, hstages, hwell, rfl⟩ := exists_stages h
  have hlocs := hstages.locs_nodup
  obtain ⟨q₁, hq₁, body₁, hbody₁, hcontrols₁⟩ := Program.controls_of_check hwell hq hbody
  obtain ⟨q₂, hq₂, body₂, hbody₂, hcontrols₂⟩ :=
    Program.controls_of_bind hstages.bound hq₁ hbody₁
  rw [hcontrols₁, hcontrols₂]
  cases hstages.derives with
  | intro hvars hprocs _ _ =>
    exact hlocs.sublist
      ((controls_of_procs hprocs hq₂ hbody₂).trans ((sublist_of_varList hvars).map _))

end ProcLang
