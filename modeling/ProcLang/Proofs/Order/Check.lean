import ProcLang.Proofs.Order.Renumbering
import ProcLang.Proofs.Typing.Program

/-! Checking under new indices: what has a type keeps it. -/
namespace ProcLang

variable {ρ : Renumbering}

/-- The same declarations under new indices. -/
structure Typing.Context.Renumbers (ρ : Renumbering) (c c' : Typing.Context) : Prop where
  declaration : ∀ storage d, c.declaration? storage = some d →
    c'.declaration? (storage.renumber ρ) = some d
  signature : ∀ (index : Nat) (s : Signature), c.signatures[index]? = some s →
    c'.signatures[ρ.procedure index]? = some s
  returns : c'.returns = c.returns

namespace Operator

variable {op : Operator} {c c' : Typing.Context}

theorem wantsPlace_renumber (op : Operator) (index : Nat) :
    (op.renumber ρ).wantsPlace index = op.wantsPlace index := by
  cases op <;> rfl

/-- The procedure that is called is there, if anything is. -/
theorem exists_signature {loc : Nat} {token : Token} {count : Nat}
    (h : op.checkCount c loc token count = .ok ()) {callee : Option Nat} (hop : op = .call callee) :
    ∃ index s, callee = some index ∧ c.signatures[index]? = some s := by
  subst hop
  cases callee with
  | none => cases h
  | some index =>
    cases hs : c.signatures[index]? with
    | none => simp [checkCount, hs] at h
    | some s => exact ⟨index, s, rfl, hs⟩

theorem checkCount_renumber (hc : c.Renumbers ρ c') {loc : Nat} {token : Token} {count : Nat}
    (h : op.checkCount c loc token count = .ok ()) :
    (op.renumber ρ).checkCount c' loc token count = .ok () := by
  cases op with
  | call callee =>
    obtain ⟨index, s, rfl, hs⟩ := exists_signature h rfl
    simp only [checkCount, hs] at h
    simpa only [renumber, Option.map_some, checkCount, hc.signature index s hs] using h
  | _ => exact h

theorem checkOperand_renumber (hc : c.Renumbers ρ c') {loc : Nat} {token : Token} {count : Nat}
    (hcount : op.checkCount c loc token count = .ok ()) (before : List TypeAt) (e : Expression)
    (t : TypeAt) :
    (op.renumber ρ).checkOperand c' before (e.renumber ρ) t = op.checkOperand c before e t := by
  cases op with
  | call callee =>
    obtain ⟨index, s, rfl, hs⟩ := exists_signature hcount rfl
    simp only [renumber, Option.map_some, checkOperand, hs, hc.signature index s hs,
      Expression.loc_renumber, Expression.display_renumber]
  | _ => simp only [renumber, checkOperand, Expression.loc_renumber]

theorem admits_renumber (hc : c.Renumbers ρ c') {loc : Nat} {token : Token} {count : Nat}
    (hcount : op.checkCount c loc token count = .ok ()) {before : List TypeAt}
    {es : List Expression} {ts : List TypeAt} (h : op.Admits c before es ts) :
    (op.renumber ρ).Admits c' before (es.map (Expression.renumber ρ)) ts := by
  induction es generalizing before ts with
  | nil => cases ts <;> exact h
  | cons e es ih =>
    cases ts with
    | nil => exact h.elim
    | cons t ts =>
      obtain ⟨hplace, hown, hrest⟩ := h
      refine ⟨?_, ?_, ih hrest⟩
      · rwa [wantsPlace_renumber, Expression.isPlace_renumber]
      · rwa [checkOperand_renumber hc hcount]

theorem judge_renumber (hc : c.Renumbers ρ c') {loc : Nat} {es : List Expression}
    {ts : List TypeAt} {j : Judgement} (h : op.judge c loc es ts = .ok j) :
    (op.renumber ρ).judge c' loc (es.map (Expression.renumber ρ)) ts = .ok j := by
  cases op with
  | subtraction | assignment =>
    -- Only here do operands matter, by their positions.
    simp only [judge] at h
    split at h
    next => simpa [renumber, judge] using h
    next => cases h
  | call callee =>
    cases callee with
    | none => exact h
    | some index =>
      cases hs : c.signatures[index]? with
      | none => simp [judge, hs] at h
      | some s =>
        simp only [judge, hs] at h
        simpa only [renumber, Option.map_some, judge, hc.signature index s hs] using h
  | _ => exact h

end Operator

namespace Typing.Context

variable {c c' : Typing.Context}

theorem variableType_renumber (hc : c.Renumbers ρ c') {v : Variable} {t : TypeAt}
    (h : c.variableType v = .ok t) : c'.variableType (v.renumber ρ) = .ok t := by
  unfold variableType at h ⊢
  split at h
  next => cases h
  next storage hbinding =>
    split at h
    next => cases h
    next d hd => simpa [Variable.renumber, hbinding, hc.declaration storage d hd] using h

/-- What has a type keeps it. -/
theorem checkExpression_renumber (hc : c.Renumbers ρ c') {e : Expression} {t : TypeAt}
    (h : (c.checkExpression e).result = .ok t) :
    (c'.checkExpression (e.renumber ρ)).result = .ok t ∧
      (c'.checkExpression (e.renumber ρ)).tree = (c.checkExpression e).tree.renumber ρ := by
  induction e generalizing t with
  | literal l =>
    rw [checkExpression] at h
    simp [checkExpression, h]
  | var v =>
    rw [checkExpression] at h
    cases hv : c.variableType v with
    | error fault => simp [hv, Pass.stop] at h
    | ok type =>
      simp only [hv, Except.ok.injEq] at h
      subst h
      rw [Expression.renumber_var, checkExpression, variableType_renumber hc hv, checkExpression,
        hv]
      simp [Variable.renumber]
  | operation loc token es op type ih =>
    cases op with
    | none =>
      rw [checkExpression] at h
      cases h
    | some op =>
      obtain ⟨ts, hts, hcount, hadmits, j, hj, rfl⟩ := checkOperation_eq_ok.mp h
      have hall : ∀ e ∈ es, ∃ t, (c.checkExpression e).result = .ok t := fun e he =>
        (exists_of_forall₂ hts he).imp fun t ht => ht.2
      have hok : (c'.checkExpression (.operation loc token (es.map (Expression.renumber ρ))
          (some (op.renumber ρ)) type)).result = .ok j.type := by
        refine checkOperation_eq_ok.mpr ⟨ts, ?_, ?_, Operator.admits_renumber hc hcount hadmits, j,
          Operator.judge_renumber hc hj, rfl⟩
        · rw [List.forall₂_map_left_iff]
          exact forall₂_imp_of_mem hts fun e he t ht => (ih e he ht).1
        · rw [List.length_map]
          exact Operator.checkCount_renumber hc hcount
      rw [Expression.renumber_operation, Option.map_some]
      refine ⟨hok, ?_⟩
      rw [checkOperation_tree_of_ok hok, checkOperation_tree_of_ok h,
        Expression.renumber_operation, List.map_map, List.map_map]
      congr 1
      refine List.map_congr_left fun e he => ?_
      obtain ⟨t, ht⟩ := hall e he
      exact (ih e he ht).2

theorem hasType_renumber (hc : c.Renumbers ρ c') {e : Expression} {τ : Ty} (h : c.HasType e τ) :
    c'.HasType (e.renumber ρ) τ := by
  obtain ⟨t, ht, rfl⟩ := check_of_hasType h
  exact (hasType_of_check (checkExpression_renumber hc ht).1).1

theorem checkStatement_renumber (hc : c.Renumbers ρ c') {s : Statement} (h : c.WellTyped s) :
    c'.WellTyped (s.map (Expression.renumber ρ)) ∧
      (c'.checkStatement (s.map (Expression.renumber ρ))).tree =
        (c.checkStatement s).tree.map (Expression.renumber ρ) := by
  have hwell : c'.WellTyped (s.map (Expression.renumber ρ)) :=
    h.map hc.returns fun e τ => hasType_renumber hc
  refine ⟨hwell, ?_⟩
  rw [checkStatement_tree_of_wellTyped hwell, checkStatement_tree_of_wellTyped h,
    Statement.map_map, Statement.map_map]
  refine Statement.map_congr fun e he => ?_
  obtain ⟨τ, ht⟩ := h.exists_hasType e he
  obtain ⟨t, ht, -⟩ := check_of_hasType ht
  exact (checkExpression_renumber hc ht).2

end Typing.Context

end ProcLang
