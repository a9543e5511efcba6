import ProcLang.Proofs.Safety.Compile
import ProcLang.Proofs.Stages

/-! Operators of a compiled tree have as many operands as they take. -/
namespace ProcLang

namespace Operator

/-- The numbers of operands that an operator is chosen for. -/
def Counts : Operator → Nat → Prop
  | .addition, count | .multiplication, count => 2 ≤ count
  | .negation, count | .logicalNot, count | .bitwiseNot, count | .dereference, count
  | .reference, count => count = 1
  | .call _, _ => True
  | _, count => count = 2

theorem counts_ofSign {s : Token.Sign} {count : Nat}
    (h : (Arity.ofSign s).accepts count = true) : (ofSign s count).Counts count := by
  obtain ⟨hmin, hmax⟩ := Arity.accepts_iff.mp h
  cases s with
  | plus => exact hmin
  | dash =>
    have hle : count ≤ 2 := hmax 2 rfl
    have hge : 1 ≤ count := hmin
    by_cases h1 : count = 1
    · simp [ofSign, Counts, h1]
    · simp only [ofSign, h1, if_false, Counts]
      omega
  | star =>
    have hge : 1 ≤ count := hmin
    by_cases h1 : count = 1
    · simp [ofSign, Counts, h1]
    · simp only [ofSign, h1, if_false, Counts]
      omega
  | bang | tilde | atSign =>
    have hle : count ≤ 1 := hmax 1 rfl
    exact Nat.le_antisymm hle hmin
  | _ =>
    have hle : count ≤ 2 := hmax 2 rfl
    exact Nat.le_antisymm hle hmin

theorem counts_of_resolve {token : Token} {count : Nat} {op : Operator}
    (h : resolve token count = .ok op) : op.Counts count := by
  unfold resolve at h
  split at h
  next => cases h
  next arity harity =>
    split at h
    next haccepts =>
      cases hk : token.kind with
      | sign s =>
        rw [hk] at harity h
        cases harity
        cases h
        exact counts_ofSign haccepts
      | name =>
        rw [hk] at h
        cases h
        exact trivial
      | _ =>
        rw [hk] at harity
        cases harity
    next => cases h

end Operator

theorem Scope.counts_of_bindOperator {s : Scope} {token : Token} {count : Nat} {op : Operator}
    (h : (s.bindOperator token count none).result = .ok op) : op.Counts count := by
  obtain ⟨chosen, hchosen, h⟩ := Traced.bind_eq_ok.mp h
  simp only [resolve, Traced.bind_eq_ok, Traced.ofExcept_result, Traced.pure_result,
    Except.ok.injEq] at hchosen
  obtain ⟨_, hresolve, -, -, rfl⟩ := hchosen
  split at h
  next =>
    obtain ⟨callee, -, h⟩ := Traced.bind_eq_ok.mp h
    cases h
    exact trivial
  next =>
    cases h
    exact Operator.counts_of_resolve hresolve

/-- An operation has as many operands as its operator takes. -/
def Expression.Counted : Expression → Prop
  | .operation _ _ operands (some op) _ => op.Counts operands.length
  | _ => True

theorem Expression.counted_clearTypes {e : Expression} : e.clearTypes.Counted ↔ e.Counted := by
  cases e with
  | literal l => exact Iff.rfl
  | var v => exact Iff.rfl
  | operation loc token es op type =>
    cases op with
    | none => exact Iff.rfl
    | some op => simp [clearTypes, Counted, clearAllTypes_eq_map]

theorem Scope.counted_of_bindExpression {s : Scope} {e : Expression} (hfresh : e.Fresh)
    (h : (s.bindExpression e).result = .ok ()) : (s.bindExpression e).tree.Counted := by
  cases e with
  | literal l =>
    rw [bindExpression]
    exact trivial
  | var v =>
    rw [bindExpression]
    exact trivial
  | operation loc token es known type =>
    have hknown : known = none := hfresh
    subst hknown
    rw [bindExpression] at h ⊢
    cases hop : (s.bindOperator token es.length none).result with
    | error fault => simp [hop] at h
    | ok op =>
      simp only [hop] at h ⊢
      rw [Expression.Counted, bindOperands_tree_of_ok h, List.length_map]
      exact counts_of_bindOperator hop

/-- All operations of a source have the operands that their operators take. -/
theorem counted_of_checkSource {source : String} {p : Program} {warnings : List Warning}
    (h : (checkSource source).result = .ok (p, warnings)) {q : Procedure} (hq : q ∈ p.procedures)
    {body : Statement} (hbody : q.body? = some body) : ∀ e ∈ body.parts, e.Counted := by
  intro e he
  obtain ⟨tokens, parsed, hstages, hwell, rfl⟩ := exists_stages h
  obtain ⟨q₁, hq₁, body₁, hbody₁, e₁, he₁, hclear⟩ := Program.mem_parts_check hwell hq hbody he
  rw [← Expression.counted_clearTypes, ← hclear, Expression.counted_clearTypes]
  obtain ⟨q₂, hq₂, -, body₂, hbody₂, e₂, he₂, hok, rfl⟩ :=
    Program.mem_parts_bind hstages.bound hq₁ hbody₁ he₁
  obtain ⟨_, _, -, hexpr⟩ := Grammar.derivedIn_of_derives hstages.derives hq₂ hbody₂ he₂
  exact Scope.counted_of_bindExpression (Grammar.fresh_of_expr hexpr) hok

end ProcLang
