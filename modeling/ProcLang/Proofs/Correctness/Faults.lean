import ProcLang.Proofs.Arity
import ProcLang.Proofs.Codegen.Shape
import ProcLang.Proofs.Correctness.Expression

/-! What can keep an expression from having a value: an expression without calls has a value exactly
if evaluation meets no fault, and it has no other. -/
namespace ProcLang

open Assembly Codegen Semantics

namespace Expression

def isCall : Expression → Bool
  | .operation _ _ _ (some (.call _)) _ => true
  | _ => false

/-- Nothing in an expression is a call. -/
def CallFree (e : Expression) : Prop :=
  ∀ e' ∈ e.parts, e'.isCall = false

instance (e : Expression) : Decidable e.CallFree :=
  inferInstanceAs (Decidable (∀ e' ∈ e.parts, _))

end Expression

namespace Semantics

/-- Evaluation meets a quotient that does not fit, an access through a pointer that is not
permitted, or a character that may not be evaluated. -/
inductive Faults (env : Env) : Expression → Memory → Prop
  | character {loc : Nat} {m : Memory} (value : UInt8) (illegible : ¬env.Legible loc m) :
    Faults env (.literal ⟨.character value, loc⟩) m
  | operand {before after : List Expression} {e : Expression} {m m₁ : Memory} {vs : List Word}
    {op : Operator} (loc : Nat) (token : Token) (type : Option TypeAt)
    (valued : op ≠ .reference ∧ op ≠ .assignment) (others : EvalAll env after m vs m₁)
    (inside : Faults env e m₁) :
    Faults env (.operation loc token (before ++ e :: after) (some op) type) m
  | division {es : List Expression} {m m' : Memory} {a b : Word} {op : Operator} (loc : Nat)
    (token : Token) (type : Option TypeAt) (divides : op = .division ∨ op = .modulus)
    (operands : EvalAll env es m [a, b] m') (fault : DivisionFault a b) :
    Faults env (.operation loc token es (some op) type) m
  | load {e : Expression} {m m' : Memory} {a : Word} {type : TypeAt} {w : Width} (loc : Nat)
    (token : Token) (pointer : Eval env e m a m') (width : type.ty.width? = some w)
    (forbidden : ¬env.Permits a w.bytes) :
    Faults env (.operation loc token [e] (some .dereference) (some type)) m
  | referent {e : Expression} {m : Memory} (loc loc' : Nat) (token token' : Token)
    (type type' : Option TypeAt) (inside : Faults env e m) :
    Faults env (.operation loc token [.operation loc' token' [e] (some .dereference) type']
      (some .reference) type) m
  | value {target value : Expression} {m : Memory} (loc : Nat) (token : Token)
    (type : Option TypeAt) (inside : Faults env value m) :
    Faults env (.operation loc token [target, value] (some .assignment) type) m
  | target {e value : Expression} {m m₁ : Memory} {v : Word} (loc loc' : Nat)
    (token token' : Token) (type type' : Option TypeAt) (evaluated : Eval env value m v m₁)
    (inside : Faults env e m₁) :
    Faults env (.operation loc token [.operation loc' token' [e] (some .dereference) type', value]
      (some .assignment) type) m
  | store {e value : Expression} {m m₁ m₂ : Memory} {v a : Word} {w : Width} {type' : TypeAt}
    (loc loc' : Nat) (token token' : Token) (type : Option TypeAt)
    (evaluated : Eval env value m v m₁) (pointer : Eval env e m₁ a m₂)
    (width : type'.ty.width? = some w) (forbidden : ¬env.Permits a w.bytes) :
    Faults env (.operation loc token
      [.operation loc' token' [e] (some .dereference) (some type'), value] (some .assignment)
      type) m

variable {env : Env} {m m' m₂ : Memory} {v v₂ : Word} {vs vs₂ : List Word} {e : Expression}
  {es : List Expression}

mutual

/-- An expression has one value, and leaves one memory. -/
theorem Eval.unique {e : Expression} {m m' m₂ : Memory} {v v₂ : Word} (h : Eval env e m v m')
    (h₂ : Eval env e m v₂ m₂) : v₂ = v ∧ m₂ = m' := by
  cases h with
  | integer value loc | boolean value loc | text bytes loc =>
    cases h₂
    exact ⟨rfl, rfl⟩
  | character value legible =>
    cases h₂
    exact ⟨rfl, rfl⟩
  | var _ binding width =>
    cases h₂ with
    | var _ binding₂ width₂ =>
      cases binding.symm.trans binding₂
      cases width.symm.trans width₂
      exact ⟨rfl, rfl⟩
  | operation loc token type operands result =>
    cases h₂ with
    | operation _ _ _ operands₂ result₂ =>
      obtain ⟨rfl, rfl⟩ := operands.unique operands₂
      exact ⟨Option.some.inj (result₂.symm.trans result), rfl⟩
    | dereference | reference | assignment => simp [Operator.denote] at result
  | dereference loc token pointer width permitted =>
    cases h₂ with
    | operation _ _ _ _ result₂ => simp [Operator.denote] at result₂
    | dereference _ _ pointer₂ width₂ _ =>
      obtain ⟨rfl, rfl⟩ := pointer.unique pointer₂
      cases width.symm.trans width₂
      exact ⟨rfl, rfl⟩
  | reference loc token type place =>
    cases h₂ with
    | operation _ _ _ _ result₂ => simp [Operator.denote] at result₂
    | reference _ _ _ place₂ => exact place.unique place₂
  | assignment loc token type evaluated place width permitted =>
    cases h₂ with
    | operation _ _ _ _ result₂ => simp [Operator.denote] at result₂
    | assignment _ _ _ evaluated₂ place₂ width₂ _ =>
      obtain ⟨rfl, rfl⟩ := evaluated.unique evaluated₂
      obtain ⟨rfl, rfl⟩ := place.unique place₂
      cases width.symm.trans width₂
      exact ⟨rfl, rfl⟩

theorem Place.unique {e : Expression} {m m' m₂ : Memory} {a a₂ : Word} (h : Place env e m a m')
    (h₂ : Place env e m a₂ m₂) : a₂ = a ∧ m₂ = m' := by
  cases h with
  | var _ binding =>
    cases h₂ with
    | var _ binding₂ =>
      cases binding.symm.trans binding₂
      exact ⟨rfl, rfl⟩
  | dereference loc token type pointer =>
    cases h₂ with
    | dereference _ _ _ pointer₂ => exact pointer.unique pointer₂

theorem EvalAll.unique {es : List Expression} {m m' m₂ : Memory} {vs vs₂ : List Word}
    (h : EvalAll env es m vs m') (h₂ : EvalAll env es m vs₂ m₂) : vs₂ = vs ∧ m₂ = m' := by
  cases h with
  | nil =>
    cases h₂
    exact ⟨rfl, rfl⟩
  | cons others first =>
    cases h₂ with
    | cons others₂ first₂ =>
      obtain ⟨rfl, rfl⟩ := others.unique others₂
      obtain ⟨rfl, rfl⟩ := first.unique first₂
      exact ⟨rfl, rfl⟩

end

/-- An operator that takes values has all of its operands evaluated. -/
theorem Eval.exists_operands {loc : Nat} {token : Token} {op : Operator} {type : Option TypeAt}
    (h : Eval env (.operation loc token es (some op) type) m v m')
    (hop : op ≠ .reference ∧ op ≠ .assignment) : ∃ vs, EvalAll env es m vs m' := by
  cases h with
  | operation _ _ _ operands _ => exact ⟨_, operands⟩
  | dereference _ _ pointer _ _ => exact ⟨_, .cons (.nil m) pointer⟩
  | reference => exact absurd rfl hop.1
  | assignment => exact absurd rfl hop.2

/-- An operand is evaluated after those behind it. -/
theorem EvalAll.split {before after : List Expression}
    (h : EvalAll env (before ++ e :: after) m vs m') :
    ∃ vs₁ m₁ v m₂, EvalAll env after m vs₁ m₁ ∧ Eval env e m₁ v m₂ := by
  induction before generalizing vs m' with
  | nil =>
    cases h with
    | cons others first => exact ⟨_, _, _, _, others, first⟩
  | cons e' before ih =>
    cases h with
    | cons others first => exact ih others

/-- What meets a fault has no value. -/
theorem Faults.not_eval (h : Faults env e m) : ¬Eval env e m v m' := by
  intro heval
  induction h generalizing v m' with
  | character value illegible =>
    cases heval with
    | character _ legible => exact illegible legible
  | operand loc token type valued others inside ih =>
    obtain ⟨vs, hall⟩ := heval.exists_operands valued
    obtain ⟨_, _, _, _, others₂, hvalue⟩ := hall.split
    obtain ⟨-, rfl⟩ := others.unique others₂
    exact ih hvalue
  | @division _ _ _ a b op _ _ _ divides operands fault =>
    have hnone : op.denote [a, b] = none := by
      rcases divides with rfl | rfl <;> exact if_pos fault
    cases heval with
    | operation _ _ _ operands₂ result =>
      obtain ⟨rfl, -⟩ := operands.unique operands₂
      rw [hnone] at result
      cases result
    | dereference | reference | assignment => rcases divides with h | h <;> cases h
  | load loc token pointer width forbidden =>
    cases heval with
    | operation _ _ _ _ result => simp [Operator.denote] at result
    | dereference _ _ pointer₂ width₂ permitted =>
      obtain ⟨rfl, rfl⟩ := pointer.unique pointer₂
      cases width.symm.trans width₂
      exact forbidden permitted
  | referent _ _ _ _ _ _ _ ih =>
    cases heval with
    | operation _ _ _ _ result => simp [Operator.denote] at result
    | reference _ _ _ place =>
      cases place with
      | dereference _ _ _ pointer => exact ih pointer
  | value _ _ _ _ ih =>
    cases heval with
    | operation _ _ _ _ result => simp [Operator.denote] at result
    | assignment _ _ _ evaluated _ _ _ => exact ih evaluated
  | target _ _ _ _ _ _ evaluated _ ih =>
    cases heval with
    | operation _ _ _ _ result => simp [Operator.denote] at result
    | assignment _ _ _ evaluated₂ place _ _ =>
      obtain ⟨rfl, rfl⟩ := evaluated.unique evaluated₂
      cases place with
      | dereference _ _ _ pointer => exact ih pointer
  | store _ _ _ _ _ evaluated pointer width forbidden =>
    cases heval with
    | operation _ _ _ _ result => simp [Operator.denote] at result
    | assignment _ _ _ evaluated₂ place width₂ permitted =>
      obtain ⟨rfl, rfl⟩ := evaluated.unique evaluated₂
      cases place with
      | dereference _ _ _ pointer₂ =>
        obtain ⟨rfl, rfl⟩ := pointer.unique pointer₂
        cases width.symm.trans width₂
        rcases permitted with ⟨u, hu⟩ | permitted
        · cases hu
        · exact forbidden permitted

end Semantics

/-- Of operators on values, only a division can fail to have a result. -/
theorem Operator.exists_denote {op : Operator} {vs : List Word} (hplain : op.isPlain = true)
    (hcounts : op.Counts vs.length) :
    (∃ v, op.denote vs = some v) ∨
      (op = .division ∨ op = .modulus) ∧ ∃ a b, vs = [a, b] ∧ DivisionFault a b := by
  cases op with
  | dereference | reference | assignment | call _ => cases hplain
  | addition | multiplication =>
    have hmany : 2 ≤ vs.length := hcounts
    cases vs with
    | nil => simp at hmany
    | cons a vs => exact .inl ⟨_, rfl⟩
  | negation | logicalNot | bitwiseNot =>
    have hone : vs.length = 1 := hcounts
    obtain ⟨a, rfl⟩ := List.length_eq_one_iff.mp hone
    exact .inl ⟨_, rfl⟩
  | division | modulus =>
    have htwo : vs.length = 2 := hcounts
    obtain ⟨a, b, rfl⟩ := List.length_eq_two.mp htwo
    by_cases hfault : DivisionFault a b
    · exact .inr ⟨by simp, a, b, rfl, hfault⟩
    · exact .inl ⟨_, if_neg hfault⟩
  | _ =>
    have htwo : vs.length = 2 := hcounts
    obtain ⟨a, b, rfl⟩ := List.length_eq_two.mp htwo
    exact .inl ⟨_, rfl⟩

theorem Ty.exists_width {τ : Ty} (h : τ ≠ .void) : ∃ w, τ.width? = some w := by
  cases τ with
  | void => exact absurd rfl h
  | int | pointer _ => exact ⟨.qword, rfl⟩
  | char | bool => exact ⟨.byte, rfl⟩

theorem Typing.Context.Recorded.exists_binding {c : Typing.Context} {u : Variable}
    (h : c.Recorded (.var u)) : ∃ storage, u.binding = some storage := by
  obtain ⟨t, -, -, hτ⟩ := h
  generalize t.ty = τ at hτ
  cases (hτ τ).mpr rfl with
  | var hbinding _ => exact ⟨_, hbinding⟩

namespace Semantics

variable {env : Env} {g : Codegen.Context} {c : Typing.Context}

/-- An expression has a value or meets a fault, whatever memory it starts with. -/
def Decided (env : Env) (e : Expression) : Prop :=
  ∀ m, (∃ v m', Eval env e m v m') ∨ Faults env e m

/-- The first operand to be evaluated that meets a fault has only values behind it. -/
theorem evalAll_or_faults {es : List Expression} (h : ∀ e ∈ es, Decided env e) (m : Memory) :
    (∃ vs m', EvalAll env es m vs m') ∨
      ∃ before e after vs m₁, es = before ++ e :: after ∧ EvalAll env after m vs m₁ ∧
        Faults env e m₁ := by
  induction es with
  | nil => exact .inl ⟨[], m, .nil m⟩
  | cons e es ih =>
    rcases ih fun e he => h e (List.mem_cons_of_mem _ he) with
      ⟨vs, m₁, hvs⟩ | ⟨before, e', after, vs, m₁, rfl, hvs, hfaults⟩
    · rcases h e (by simp) m₁ with ⟨v, m₂, hv⟩ | hfaults
      · exact .inl ⟨v :: vs, m₂, .cons hvs hv⟩
      · exact .inr ⟨[], e, es, vs, m₁, rfl, hvs, hfaults⟩
    · exact .inr ⟨e :: before, e', after, vs, m₁, rfl, hvs, hfaults⟩

/-- What is asked of each part of an expression for it to have a meaning. -/
structure Meaningful (c : Typing.Context) (e : Expression) : Prop where
  recorded : c.Recorded e
  counted : e.Counted
  noCall : e.isCall = false

namespace Meaningful

variable {e : Expression}

theorem exists_width (hg : g.Serves c) (h : Meaningful c e) (hplace : e.Place) :
    ∃ t w, e.type? = some t ∧ t.ty.width? = some w := by
  obtain ⟨t, ht, -, hτ⟩ := h.recorded
  obtain ⟨w, hw⟩ := Ty.exists_width (ne_void_of_place hg hplace ((hτ t.ty).mpr rfl))
  exact ⟨t, w, ht, hw⟩

/-- A storage location is a variable, or what a pointer leads to. -/
theorem place_cases (hg : g.Serves c) (h : Meaningful c e) (hplace : e.Place) :
    (∃ u storage, e = .var u ∧ u.binding = some storage) ∨
      ∃ loc token e' t w, e = .operation loc token [e'] (some .dereference) (some t) ∧
        t.ty.width? = some w := by
  obtain ⟨t, w, ht, hw⟩ := h.exists_width hg hplace
  cases hplace with
  | var u =>
    obtain ⟨storage, hbinding⟩ := h.recorded.exists_binding
    exact .inl ⟨u, storage, rfl, hbinding⟩
  | dereference loc token operands type =>
    have hone : operands.length = 1 := h.counted
    obtain ⟨e', rfl⟩ := List.length_eq_one_iff.mp hone
    obtain rfl : type = some t := ht
    exact .inr ⟨loc, token, e', t, w, rfl, hw⟩

end Meaningful

section

variable {loc : Nat} {token : Token} {type : Option TypeAt} {e target value : Expression}
  {es : List Expression}

theorem decided_var (hg : g.Serves c) {u : Variable} (h : Meaningful c (.var u)) :
    Decided env (.var u) := by
  intro m
  obtain ⟨storage, hbinding⟩ := h.recorded.exists_binding
  obtain ⟨t, w, ht, hw⟩ := h.exists_width hg (.var u)
  have hwidth : (Expression.var u).width? = some w := by
    rw [Expression.width?, ht]
    exact hw
  exact .inl ⟨_, m, .var m hbinding hwidth⟩

/-- An operation on values has one unless an operand or a division faults. -/
theorem decided_plain {op : Operator} (hplain : op.isPlain = true) (hcounts : op.Counts es.length)
    (hes : ∀ e ∈ es, Decided env e) : Decided env (.operation loc token es (some op) type) := by
  intro m
  have hvalued : op ≠ .reference ∧ op ≠ .assignment := by
    constructor <;> rintro rfl <;> cases hplain
  rcases evalAll_or_faults hes m with
    ⟨vs, m', hvs⟩ | ⟨before, e, after, vs, m₁, rfl, hvs, hfaults⟩
  · rw [← hvs.length_eq] at hcounts
    rcases Operator.exists_denote hplain hcounts with ⟨v, hv⟩ | ⟨hop, a, b, rfl, hfault⟩
    · exact .inl ⟨v, m', .operation loc token type hvs hv⟩
    · exact .inr (.division loc token type hop hvs hfault)
  · exact .inr (.operand loc token type hvalued hvs hfaults)

theorem decided_dereference {t : TypeAt} {w : Width} (hw : t.ty.width? = some w)
    (he : Decided env e) :
    Decided env (.operation loc token [e] (some .dereference) (some t)) := by
  intro m
  rcases he m with ⟨a, m', ha⟩ | hfaults
  · by_cases hpermits : env.Permits a w.bytes
    · exact .inl ⟨_, m', .dereference loc token ha hw hpermits⟩
    · exact .inr (.load loc token ha hw hpermits)
  · right
    show Faults env (.operation loc token ([] ++ e :: []) _ _) m
    exact .operand loc token _ (by simp) (.nil m) hfaults

theorem decided_reference (hg : g.Serves c) (h : Meaningful c e) (hplace : e.Place)
    (hparts : ∀ e' ∈ e.parts, Decided env e') :
    Decided env (.operation loc token [e] (some .reference) type) := by
  intro m
  rcases h.place_cases hg hplace with
    ⟨u, storage, rfl, hbinding⟩ | ⟨loc', token', e', t, w, rfl, -⟩
  · exact .inl ⟨_, m, .reference loc token type (.var m hbinding)⟩
  · rcases hparts e' (Expression.mem_parts_operation.mpr (.inr ⟨e', by simp, e'.self_mem_parts⟩)) m
      with ⟨a, m', ha⟩ | hfaults
    · exact .inl ⟨a, m', .reference loc token type (.dereference loc' token' _ ha)⟩
    · exact .inr (.referent loc loc' token token' type _ hfaults)

theorem decided_assignment (hg : g.Serves c) (h : Meaningful c target) (hplace : target.Place)
    (hparts : ∀ e' ∈ target.parts, Decided env e') (hvalue : Decided env value) :
    Decided env (.operation loc token [target, value] (some .assignment) type) := by
  intro m
  rcases hvalue m with ⟨v, m₁, hv⟩ | hfaults
  · rcases h.place_cases hg hplace with
      ⟨u, storage, rfl, hbinding⟩ | ⟨loc', token', e', t, w, rfl, hw⟩
    · obtain ⟨t, w, ht, hw⟩ := h.exists_width hg hplace
      have hwidth : (Expression.var u).width? = some w := by
        rw [Expression.width?, ht]
        exact hw
      exact .inl ⟨v, _, .assignment loc token type hv (.var m₁ hbinding) hwidth (.inl ⟨u, rfl⟩)⟩
    · rcases hparts e' (Expression.mem_parts_operation.mpr
        (.inr ⟨e', by simp, e'.self_mem_parts⟩)) m₁ with ⟨a, m₂, ha⟩ | hfaults
      · by_cases hpermits : env.Permits a w.bytes
        · exact .inl ⟨v, _, .assignment loc token type hv (.dereference loc' token' _ ha) hw
            (.inr hpermits)⟩
        · exact .inr (.store loc loc' token token' type hv ha hw hpermits)
      · exact .inr (.target loc loc' token token' type _ hv hfaults)
  · exact .inr (.value loc token type hfaults)

/-- An operation has a value or meets a fault, if this holds for all that it is made of. -/
theorem decided_operation (hg : g.Serves c) {op : Option Operator}
    (h : ∀ e' ∈ (Expression.operation loc token es op type).parts, Meaningful c e')
    (ih : ∀ e ∈ es, ∀ e' ∈ e.parts, Decided env e') :
    Decided env (.operation loc token es op type) := by
  have hself := h _ (Expression.self_mem_parts _)
  have hoperands : ∀ e ∈ es, Meaningful c e := fun e he =>
    h e (Expression.mem_parts_operation.mpr (.inr ⟨e, he, e.self_mem_parts⟩))
  have hes : ∀ e ∈ es, Decided env e := fun e he => ih e he e e.self_mem_parts
  obtain ⟨t, ht, -, hτ⟩ := hself.recorded
  obtain rfl : type = some t := ht
  generalize hτs : t.ty = τ at hτ
  cases (hτ τ).mpr rfl with
  | @operation _ _ _ op _ _ _ hplaces _ hr =>
    have hcounts : op.Counts es.length := hself.counted
    cases op with
    | dereference =>
      have hone : es.length = 1 := hcounts
      obtain ⟨e, rfl⟩ := List.length_eq_one_iff.mp hone
      obtain ⟨w, hw⟩ := Ty.exists_width (Operator.rule_dereference_iff.mp hr).2
      exact decided_dereference (hτs ▸ hw) (hes e (by simp))
    | reference =>
      have hone : es.length = 1 := hcounts
      obtain ⟨e, rfl⟩ := List.length_eq_one_iff.mp hone
      exact decided_reference hg (hoperands e (by simp)) (hplaces (.inr rfl) e rfl) (ih e (by simp))
    | assignment =>
      have htwo : es.length = 2 := hcounts
      obtain ⟨target, value, rfl⟩ := List.length_eq_two.mp htwo
      exact decided_assignment hg (hoperands target (by simp)) (hplaces (.inl rfl) target rfl)
        (ih target (by simp)) (hes value (by simp))
    | call index => cases hself.noCall
    | _ => exact decided_plain rfl hcounts hes

/-- All parts of an expression without calls have a value or meet a fault. -/
theorem decided_parts (hg : g.Serves c) (h : ∀ e' ∈ e.parts, Meaningful c e') :
    ∀ e' ∈ e.parts, Decided env e' := by
  induction e with
  | literal l =>
    simp only [Expression.parts_literal, List.mem_singleton, forall_eq]
    intro m
    obtain ⟨value, loc⟩ := l
    cases value with
    | integer value => exact .inl ⟨_, _, .integer value loc m⟩
    | boolean value => exact .inl ⟨_, _, .boolean value loc m⟩
    | text bytes => exact .inl ⟨_, _, .text bytes loc m⟩
    | character value =>
      by_cases hlegible : env.Legible loc m
      · exact .inl ⟨_, _, .character value hlegible⟩
      · exact .inr (.character value hlegible)
  | var u =>
    simp only [Expression.parts_var, List.mem_singleton, forall_eq] at h ⊢
    exact decided_var hg h
  | operation loc token es op type ih =>
    have hes : ∀ e ∈ es, ∀ e' ∈ e.parts, Decided env e' := fun e he =>
      ih e he fun e' he' => h e' (Expression.mem_parts_operation.mpr (.inr ⟨e, he, he'⟩))
    intro e' he'
    rcases Expression.mem_parts_operation.mp he' with rfl | ⟨e, he, hmem⟩
    · exact decided_operation hg h hes
    · exact hes e he e' hmem

/-- An expression without calls has a value exactly if it meets no fault. -/
theorem exists_eval_iff (hg : g.Serves c) (h : ∀ e' ∈ e.parts, Meaningful c e') (m : Memory) :
    (∃ v m', Eval env e m v m') ↔ ¬Faults env e m := by
  constructor
  · rintro ⟨v, m', heval⟩ hfaults
    exact hfaults.not_eval heval
  · intro hsound
    rcases decided_parts hg h e e.self_mem_parts m with hvalue | hfaults
    · exact hvalue
    · exact absurd hfaults hsound

end

end Semantics

end ProcLang
