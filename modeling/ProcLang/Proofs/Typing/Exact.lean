import ProcLang.Proofs.Pass
import ProcLang.Proofs.Tree
import ProcLang.Proofs.Typing.Rules

/-! Checking decides the typing rules and records the types that they give. -/
namespace ProcLang

namespace Typing.Context

variable {c : Typing.Context}

theorem checkOperands_cons_eq (op : Operator) (before : List TypeAt) (e : Expression)
    (es : List Expression) :
    c.checkOperands op before (e :: es) =
      if op.wantsPlace before.length && !e.isPlace then
        .stop (e :: es) (.located e.loc (.notPlace e.display))
      else
        (((c.checkExpression e).require fun type => do
          op.checkOperand c before e type
          return type).andThen es fun type => c.checkOperands op (before ++ [type]) es).mapTree
          fun (e, es) => e :: es :=
  rfl

theorem checkExpression_literal (l : Literal) :
    c.checkExpression (.literal l) = ⟨.literal l, [], .ok l.type⟩ :=
  rfl

theorem checkExpression_var (v : Variable) :
    c.checkExpression (.var v) =
      match c.variableType v with
      | .error fault => .stop (.var v) fault
      | .ok type => ⟨.var { v with type := some type }, [], .ok type⟩ :=
  rfl

theorem checkExpression_operation (loc : Nat) (token : Token) (es : List Expression)
    (op : Operator) (type : Option TypeAt) :
    c.checkExpression (.operation loc token es (some op) type) =
      match op.checkCount c loc token es.length with
      | .error fault => .stop (.operation loc token es (some op) type) fault
      | .ok () =>
        let checked := c.checkOperands op [] es
        match checked.result.bind (op.judge c loc es) with
        | .error fault => ⟨.operation loc token checked.tree (some op) type, checked.events,
            .error fault⟩
        | .ok judgement => ⟨.operation loc token checked.tree (some op) (some judgement.type),
            checked.events ++ (judgement.warning.map Event.warning).toList ++
              [.typed loc op judgement.type.ty], .ok judgement.type⟩ :=
  rfl

/-- Operands are checked one after the other, each given the types of those before it. -/
theorem checkOperands_eq_ok {op : Operator} {before types : List TypeAt} {es : List Expression} :
    (c.checkOperands op before es).result = .ok types ↔
      ∃ ts, types = before ++ ts ∧
        List.Forall₂ (fun e t => (c.checkExpression e).result = .ok t) es ts ∧
        op.Admits c before es ts := by
  induction es generalizing before types with
  | nil =>
    change Except.ok before = .ok types ↔ _
    simp [Operator.Admits, eq_comm]
  | cons e es ih =>
    rw [checkOperands_cons_eq]
    by_cases hp : (op.wantsPlace before.length && !e.isPlace) = true
    · have hbad : ¬(op.wantsPlace before.length = true → e.isPlace = true) := by
        simp only [Bool.and_eq_true, Bool.not_eq_true'] at hp
        simp [hp]
      rw [if_pos hp]
      constructor
      · intro h
        cases h
      · rintro ⟨_ | ⟨t, ts⟩, -, -, ha⟩
        · exact ha.elim
        · exact absurd ha.1 hbad
    · have hgood : op.wantsPlace before.length = true → e.isPlace = true := by
        simpa [Bool.and_eq_true] using hp
      rw [if_neg hp]
      simp only [Pass.mapTree_result, Pass.andThen_eq_ok, Pass.require_eq_ok, ih,
        Outcome.bind_eq_ok, Outcome.pure_eq, Except.ok.injEq]
      constructor
      · rintro ⟨_, ⟨t, ht, ⟨⟩, hc, rfl⟩, ts, rfl, hts, ha⟩
        exact ⟨t :: ts, by simp, .cons ht hts, hgood, hc, ha⟩
      · rintro ⟨_, rfl, _ | ⟨ht, hts⟩, ha⟩
        exact ⟨_, ⟨_, ht, (), ha.2.1, rfl⟩, _, by simp, hts, ha.2.2⟩

theorem checkOperands_tree_of_ok {op : Operator} {before types : List TypeAt}
    {es : List Expression} (h : (c.checkOperands op before es).result = .ok types) :
    (c.checkOperands op before es).tree = es.map fun e => (c.checkExpression e).tree := by
  induction es generalizing before types with
  | nil => rfl
  | cons e es ih =>
    rw [checkOperands_cons_eq] at h ⊢
    split at h
    next => cases h
    next hp =>
      rw [if_neg hp]
      obtain ⟨t, ht, hes⟩ := Pass.andThen_eq_ok.mp h
      simp only [Pass.mapTree_tree, Pass.andThen_tree_of_ok ht, Pass.require_tree, List.map_cons,
        ih hes]

/-- An operation passes if its operands do and all questions on them are met. -/
theorem checkOperation_eq_ok {loc : Nat} {token : Token} {es : List Expression} {op : Operator}
    {type : Option TypeAt} {t : TypeAt} :
    (c.checkExpression (.operation loc token es (some op) type)).result = .ok t ↔
      ∃ ts, List.Forall₂ (fun e t => (c.checkExpression e).result = .ok t) es ts ∧
        op.checkCount c loc token es.length = .ok () ∧ op.Admits c [] es ts ∧
        ∃ j, op.judge c loc es ts = .ok j ∧ j.type = t := by
  rw [checkExpression_operation]
  cases hc : op.checkCount c loc token es.length with
  | error fault => simp [Pass.stop]
  | ok u =>
    have hb : ∀ {j}, (c.checkOperands op [] es).result.bind (op.judge c loc es) = .ok j ↔
        ∃ ts, (c.checkOperands op [] es).result = .ok ts ∧ op.judge c loc es ts = .ok j :=
      Outcome.bind_eq_ok
    simp only [true_and]
    cases hj : (c.checkOperands op [] es).result.bind (op.judge c loc es) with
    | error fault =>
      simp only [reduceCtorEq, false_iff]
      rintro ⟨ts, hts, ha, j, hj', -⟩
      rw [hb.mpr ⟨ts, checkOperands_eq_ok.mpr ⟨ts, rfl, hts, ha⟩, hj'⟩] at hj
      cases hj
    | ok j =>
      obtain ⟨ts, hts', hj'⟩ := hb.mp hj
      obtain ⟨_, rfl, hts, ha⟩ := checkOperands_eq_ok.mp hts'
      constructor
      · rintro ⟨⟩
        exact ⟨ts, hts, ha, j, hj', rfl⟩
      · rintro ⟨ts₂, hts₂, ha₂, j₂, hj₂, rfl⟩
        have := hb.mpr ⟨ts₂, checkOperands_eq_ok.mpr ⟨ts₂, rfl, hts₂, ha₂⟩, hj₂⟩
        rw [hj] at this
        cases this
        rfl

theorem checkOperation_tree_of_ok {loc : Nat} {token : Token} {es : List Expression}
    {op : Operator} {type : Option TypeAt} {t : TypeAt}
    (h : (c.checkExpression (.operation loc token es (some op) type)).result = .ok t) :
    (c.checkExpression (.operation loc token es (some op) type)).tree =
      .operation loc token (es.map fun e => (c.checkExpression e).tree) (some op) (some t) := by
  obtain ⟨ts, hts, hc, ha, j, hj, rfl⟩ := checkOperation_eq_ok.mp h
  have hres : (c.checkOperands op [] es).result = .ok ts :=
    checkOperands_eq_ok.mpr ⟨ts, rfl, hts, ha⟩
  have hbind : (c.checkOperands op [] es).result.bind (op.judge c loc es) = .ok j :=
    Outcome.bind_eq_ok.mpr ⟨ts, hres, hj⟩
  rw [checkExpression_operation, hc]
  simp only [hbind, checkOperands_tree_of_ok hres]

/-- What passes has the type that is reported, at its own position. -/
theorem hasType_of_check {e : Expression} {t : TypeAt}
    (h : (c.checkExpression e).result = .ok t) : c.HasType e t.ty ∧ t.loc = e.loc := by
  induction e generalizing t with
  | literal l =>
    rw [checkExpression_literal] at h
    cases h
    obtain ⟨value, loc⟩ := l
    cases value <;> exact ⟨by constructor, rfl⟩
  | var v =>
    rw [checkExpression_var] at h
    cases hv : c.variableType v with
    | error fault => simp [hv, Pass.stop] at h
    | ok type =>
      simp only [hv, Except.ok.injEq] at h
      subst h
      unfold variableType at hv
      split at hv
      next => cases hv
      next storage hb =>
        split at hv
        next => cases hv
        next d hd =>
          cases hv
          exact ⟨by simpa using HasType.var hb hd, TypeAt.loc_moveTo _ _⟩
  | operation loc token es op type ih =>
    cases op with
    | none => cases h
    | some op =>
      obtain ⟨ts, hts, hc, ha, j, hj, rfl⟩ := checkOperation_eq_ok.mp h
      obtain ⟨hp, hr⟩ :=
        (Operator.accepts_iff op loc token ha.length_eq).mp ⟨hc, ha, j, hj, rfl⟩
      refine ⟨.operation hp ?_ hr, Operator.judge_loc hj⟩
      rw [List.forall₂_map_right_iff]
      exact forall₂_imp_of_mem hts fun e he t ht => (ih e he ht).1

/-- What has a type passes, and that type is reported. -/
theorem check_of_hasType {e : Expression} {τ : Ty} (h : c.HasType e τ) :
    ∃ t, (c.checkExpression e).result = .ok t ∧ t.ty = τ := by
  induction e generalizing τ with
  | literal l =>
    rw [checkExpression_literal]
    cases h <;> exact ⟨_, rfl, rfl⟩
  | var v =>
    cases h with
    | @var _ storage d hb hd =>
      have hv : c.variableType v = .ok (d.type.moveTo v.loc) := by
        simp [variableType, hb, hd]
      rw [checkExpression_var, hv]
      exact ⟨_, rfl, TypeAt.ty_moveTo _ _⟩
  | operation loc token es op type ih =>
    cases h with
    | @operation _ _ _ op _ τs _ hp hτs hr =>
      have hex : ∃ ts, List.Forall₂ (fun e t => (c.checkExpression e).result = .ok t) es ts ∧
          ts.map TypeAt.ty = τs := by
        clear hp hr
        induction hτs with
        | nil => exact ⟨[], .nil, rfl⟩
        | @cons e σ es σs he _ ih' =>
          obtain ⟨t, ht, rfl⟩ := ih e (by simp) he
          obtain ⟨ts, hts, rfl⟩ := ih' fun e he => ih e (List.mem_cons_of_mem _ he)
          exact ⟨t :: ts, .cons ht hts, rfl⟩
      obtain ⟨ts, hts, rfl⟩ := hex
      obtain ⟨hc, ha, j, hj, rfl⟩ :=
        (Operator.accepts_iff op loc token hts.length_eq).mpr ⟨hp, hr⟩
      exact ⟨j.type, checkOperation_eq_ok.mpr ⟨ts, hts, hc, ha, j, hj, rfl⟩, rfl⟩

theorem HasType.unique {e : Expression} {τ σ : Ty} (h₁ : c.HasType e τ) (h₂ : c.HasType e σ) :
    τ = σ := by
  obtain ⟨t, ht, rfl⟩ := check_of_hasType h₁
  obtain ⟨u, hu, rfl⟩ := check_of_hasType h₂
  rw [ht] at hu
  cases hu
  rfl

/-- The type on record is the one that the rules give, at the position of the expression. -/
def Recorded (c : Typing.Context) (e : Expression) : Prop :=
  ∃ t, e.type? = some t ∧ t.loc = e.loc ∧ ∀ τ, c.HasType e τ ↔ τ = t.ty

theorem Recorded.intro {e : Expression} {t : TypeAt} (ht : e.type? = some t) (hl : t.loc = e.loc)
    (h : c.HasType e t.ty) : c.Recorded e :=
  ⟨t, ht, hl, fun _ => ⟨fun h' => h'.unique h, fun he => he ▸ h⟩⟩

theorem place_tree {e : Expression} {t : TypeAt} (h : (c.checkExpression e).result = .ok t)
    (hp : e.Place) : (c.checkExpression e).tree.Place := by
  cases hp with
  | var v =>
    rw [checkExpression_var] at h ⊢
    cases hv : c.variableType v with
    | error fault => simp [hv, Pass.stop] at h
    | ok type => exact .var _
  | dereference loc token operands type =>
    rw [checkOperation_tree_of_ok h]
    exact .dereference ..

/-- Recording changes no typing, and every part of what passes carries its type. -/
theorem recorded_of_check {e : Expression} {t : TypeAt}
    (h : (c.checkExpression e).result = .ok t) :
    (c.checkExpression e).tree.type? = some t ∧ c.HasType (c.checkExpression e).tree t.ty ∧
      ∀ e' ∈ (c.checkExpression e).tree.parts, c.Recorded e' := by
  induction e generalizing t with
  | literal l =>
    obtain ⟨ht, hl⟩ := hasType_of_check h
    rw [checkExpression_literal] at h ⊢
    cases h
    exact ⟨rfl, ht, by simpa using Recorded.intro rfl hl ht⟩
  | var v =>
    obtain ⟨ht, hl⟩ := hasType_of_check h
    rw [checkExpression_var] at h ⊢
    cases hv : c.variableType v with
    | error fault => simp [hv, Pass.stop] at h
    | ok type =>
      simp only [hv, Except.ok.injEq] at h
      subst h
      have ht' : c.HasType (.var { v with type := some type }) type.ty := by
        generalize type.ty = τ at ht ⊢
        cases ht with
        | var hb hd => exact .var hb hd
      refine ⟨rfl, ht', fun e' he' => ?_⟩
      rw [Expression.parts_var, List.mem_singleton] at he'
      subst he'
      exact .intro rfl hl ht'
  | operation loc token es op type ih =>
    cases op with
    | none => cases h
    | some op =>
      obtain ⟨-, hl⟩ := hasType_of_check h
      rw [checkOperation_tree_of_ok h]
      obtain ⟨ts, hts, hc, ha, j, hj, rfl⟩ := checkOperation_eq_ok.mp h
      obtain ⟨hp, hr⟩ :=
        (Operator.accepts_iff op loc token ha.length_eq).mp ⟨hc, ha, j, hj, rfl⟩
      have hps : op.PlacesOk (es.map fun e => (c.checkExpression e).tree) := by
        intro hop e' he'
        cases hts with
        | nil => cases he'
        | cons he _ =>
          cases he'
          exact place_tree he (hp hop _ rfl)
      have hop : c.HasType (.operation loc token (es.map fun e => (c.checkExpression e).tree)
          (some op) (some j.type)) j.type.ty := by
        refine .operation hps ?_ hr
        rw [List.forall₂_map_left_iff, List.forall₂_map_right_iff]
        exact forall₂_imp_of_mem hts fun e he t ht => (ih e he ht).2.1
      refine ⟨rfl, hop, fun e' he' => ?_⟩
      rcases Expression.mem_parts_operation.mp he' with rfl | ⟨e₁, he₁, hmem⟩
      · exact .intro rfl hl hop
      · obtain ⟨e, he, rfl⟩ := List.mem_map.mp he₁
        obtain ⟨t, -, ht⟩ := exists_of_forall₂ hts he
        exact (ih e he ht).2.2 e' hmem

end Typing.Context

end ProcLang
