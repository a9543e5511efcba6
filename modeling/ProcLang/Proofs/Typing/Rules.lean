import ProcLang.Proofs.Typing.Relation

/-! What is asked of each operator, one question after the other, amounts to its rule. -/
namespace ProcLang

theorem Expression.isPlace_iff {e : Expression} : e.isPlace = true ↔ e.Place := by
  constructor
  · intro h
    match e with
    | .var v => exact .var v
    | .operation loc token operands (some .dereference) type => exact .dereference ..
  · rintro (_ | _) <;> rfl

@[simp] theorem Ty.isPointer_int : Ty.int.isPointer = false := rfl

@[simp] theorem Ty.isPointer_pointer (base : Ty) : (Ty.pointer base).isPointer = true := rfl

theorem Ty.isPointer_iff {τ : Ty} : τ.isPointer = true ↔ ∃ base, τ = .pointer base := by
  cases τ <;> simp [isPointer]

namespace Operator

/-- All that is asked of operands that have types, after operands of the types `before`. -/
def Admits (op : Operator) (c : Typing.Context) (before : List TypeAt) :
    List Expression → List TypeAt → Prop
  | [], [] => True
  | e :: es, t :: ts =>
    (op.wantsPlace before.length = true → e.isPlace = true) ∧
      op.checkOperand c before e t = .ok () ∧ Admits op c (before ++ [t]) es ts
  | _, _ => False

variable {op : Operator} {c : Typing.Context}

theorem Admits.length_eq {before : List TypeAt} {es : List Expression} {ts : List TypeAt}
    (h : op.Admits c before es ts) : es.length = ts.length := by
  induction es generalizing before ts with
  | nil =>
    cases ts with
    | nil => rfl
    | cons t ts => exact h.elim
  | cons e es ih =>
    cases ts with
    | nil => exact h.elim
    | cons t ts => simpa using ih h.2.2

/-- Operators that ask the same of each operand. -/
theorem admits_family {w : Ty} (hw : op.operandType? = some w) {before : List TypeAt}
    {es : List Expression} {ts : List TypeAt} (hl : es.length = ts.length) :
    op.Admits c before es ts ↔ ∀ t ∈ ts, t.ty = w := by
  induction es generalizing before ts with
  | nil =>
    cases ts with
    | nil => simp [Admits]
    | cons t ts => simp at hl
  | cons e es ih =>
    cases ts with
    | nil => simp at hl
    | cons t ts =>
      have hp : op.wantsPlace before.length = false := by
        cases op <;> simp [operandType?] at hw <;> rfl
      have hc : op.checkOperand c before e t = .ok () ↔ t.ty = w := by
        cases op <;> simp [operandType?] at hw <;> subst hw <;>
          simp only [checkOperand, operandType?] <;> split <;> simp_all
      simp [Admits, hp, hc, ih (by simpa using hl)]

/-- Summands are integers, but for one pointer at most. -/
theorem admits_addition {before : List TypeAt} {es : List Expression} {ts : List TypeAt}
    (hl : es.length = ts.length) :
    Operator.Admits .addition c before es ts ↔
      (∀ t ∈ ts, t.ty = .int ∨ t.ty.isPointer = true) ∧
      (ts.filter (·.ty.isPointer)).length ≤ if before.any (·.ty.isPointer) then 0 else 1 := by
  induction es generalizing before ts with
  | nil =>
    cases ts with
    | nil => simp [Admits]
    | cons t ts => simp at hl
  | cons e es ih =>
    cases ts with
    | nil => simp at hl
    | cons t ts =>
      rw [Admits, ih (by simpa using hl)]
      simp only [wantsPlace, checkOperand, List.any_append, List.any_cons, List.any_nil]
      by_cases hp : t.ty.isPointer = true
      · by_cases hb : before.any (·.ty.isPointer) = true
        · simp [hp, hb]
        · simp [hp, hb]
      · have hne : t.ty = .int ∨ t.ty ≠ .int := em _
        rcases hne with hi | hi
        · simp [hi, Ty.isPointer]
        · simp [hp, hi]

/-- Operators that leave all questions on types to the end. -/
theorem admits_late (hop : op = .subtraction ∨ op = .equality ∨ op = .notEquality ∨
    op = .assignment ∨ op = .reference) {before : List TypeAt} {es : List Expression}
    {ts : List TypeAt} (hl : es.length = ts.length) :
    op.Admits c before es ts ↔ (before = [] → op.PlacesOk es) := by
  induction es generalizing before ts with
  | nil =>
    cases ts with
    | nil => simp [Admits, PlacesOk]
    | cons t ts => simp at hl
  | cons e es ih =>
    cases ts with
    | nil => simp at hl
    | cons t ts =>
      have hc : op.checkOperand c before e t = .ok () := by
        rcases hop with rfl | rfl | rfl | rfl | rfl <;> rfl
      have hw : op.wantsPlace before.length = true ↔
          (op = .assignment ∨ op = .reference) ∧ before = [] := by
        rcases hop with rfl | rfl | rfl | rfl | rfl <;> simp [wantsPlace]
      rw [Admits, ih (by simpa using hl), hw]
      simp only [hc, PlacesOk, List.head?_cons, Option.mem_def, Option.some.injEq,
        forall_eq', Expression.isPlace_iff]
      simp only [List.append_eq_nil_iff, List.cons_ne_self, and_false, false_implies, and_true]
      tauto

end Operator

namespace Signature

/-- Parameters are fixed ones, and then nothing or an `etcetera`. -/
theorem parameters_split (s : Signature) :
    ∃ fixed : List TypeAt, s.parameters.takeWhile Option.isSome = fixed.map some ∧
      (s.parameters = fixed.map some ∧ s.isVariadic = false ∨
        ∃ others, s.parameters = fixed.map some ++ none :: others ∧ s.isVariadic = true) := by
  obtain ⟨name, returns, parameters⟩ := s
  simp only [isVariadic]
  induction parameters with
  | nil => exact ⟨[], rfl, .inl ⟨rfl, rfl⟩⟩
  | cons p ps ih =>
    cases p with
    | none => exact ⟨[], rfl, .inr ⟨ps, rfl, rfl⟩⟩
    | some t =>
      obtain ⟨fixed, ht, h⟩ := ih
      refine ⟨t :: fixed, by simp [ht], ?_⟩
      rcases h with ⟨hp, hv⟩ | ⟨others, hp, hv⟩
      · exact .inl ⟨by simp [hp], by simpa using hv⟩
      · exact .inr ⟨others, by simp [hp], by simpa using hv⟩

theorem fixed_of_takeWhile {s : Signature} {fixed : List TypeAt}
    (h : s.parameters.takeWhile Option.isSome = fixed.map some) : s.fixed = fixed.length := by
  simp [Signature.fixed, h]

theorem wanted?_of_takeWhile {s : Signature} {fixed : List TypeAt}
    (h : s.parameters.takeWhile Option.isSome = fixed.map some) (k : Nat) :
    s.wanted? k = fixed[k]? := by
  simp only [wanted?, h, List.getElem?_map]
  cases fixed[k]? <;> rfl

theorem checkCount_eq_ok {s : Signature} {loc count : Nat} :
    s.checkCount loc count = .ok () ↔
      count ≤ maxArguments ∧ if s.isVariadic then s.fixed ≤ count else count = s.fixed := by
  unfold checkCount
  by_cases hm : maxArguments < count
  · rw [if_pos hm]
    constructor
    · intro h
      cases h
    · rintro ⟨hle, -⟩
      omega
  · have hle : count ≤ maxArguments := by omega
    rw [if_neg hm]
    cases hv : s.isVariadic <;> simp [hle]

/-- The fixed parameters are all that stand before the first `etcetera`. -/
private theorem fixed_unique {s : Signature} {fixed fixed' : List TypeAt}
    {others : List (Option TypeAt)} (h : s.parameters.takeWhile Option.isSome = fixed.map some)
    (hp : s.parameters = fixed'.map some ++ others) (ho : others.head?.join = none) :
    fixed = fixed' := by
  have ht : others.takeWhile Option.isSome = [] := by
    match others, ho with
    | [], _ => rfl
    | none :: _, _ => rfl
  rw [hp, List.takeWhile_append_of_pos (by simp), ht, List.append_nil] at h
  exact (List.map_injective_iff.mpr (fun _ _ => Option.some.inj) h).symm

/-- A prefix that agrees position by position. -/
private theorem exists_extra {fixed ts : List TypeAt} (hl : fixed.length ≤ ts.length)
    (h : ∀ (k : Nat) (t w : TypeAt), ts[k]? = some t → fixed[k]? = some w → t.ty = w.ty) :
    ∃ extra, ts.map TypeAt.ty = fixed.map TypeAt.ty ++ extra := by
  induction fixed generalizing ts with
  | nil => exact ⟨_, rfl⟩
  | cons w fixed ih =>
    cases ts with
    | nil => simp at hl
    | cons t ts =>
      obtain ⟨extra, he⟩ := ih (by simpa using hl) fun k t w ht hw =>
        h (k + 1) t w (by simpa using ht) (by simpa using hw)
      exact ⟨extra, by simp [he, h 0 t w rfl rfl]⟩

/-- The question on the number of arguments and those on each of them make up the rule. -/
theorem accepts_iff {s : Signature} (loc : Nat) {ts : List TypeAt} :
    s.checkCount loc ts.length = .ok () ∧
        (∀ (k : Nat) (t w : TypeAt), ts[k]? = some t → s.wanted? k = some w → t.ty = w.ty) ↔
      s.Accepts (ts.map TypeAt.ty) := by
  obtain ⟨fixed, ht, hs⟩ := s.parameters_split
  rw [checkCount_eq_ok, fixed_of_takeWhile ht]
  simp only [wanted?_of_takeWhile ht]
  constructor
  · rintro ⟨⟨hm, hc⟩, hw⟩
    rcases hs with ⟨hp, hv⟩ | ⟨others, hp, hv⟩
    · simp only [hv, Bool.false_eq_true, if_false] at hc
      obtain ⟨extra, he⟩ := exists_extra (Nat.le_of_eq hc.symm) hw
      have hnil : extra = [] := by
        have := congrArg List.length he
        simpa [hc] using this
      rw [he, hnil, List.append_nil]
      exact .exact hp (by omega)
    · simp only [hv, if_true] at hc
      obtain ⟨extra, he⟩ := exists_extra hc hw
      rw [he]
      refine .variadic hp ?_
      have := congrArg List.length he
      simp at this
      omega
  · intro ha
    generalize hτ : ts.map TypeAt.ty = τs at ha
    have hlen : ts.length = τs.length := by simp [← hτ]
    have hget : ∀ (k : Nat) (t : TypeAt), ts[k]? = some t → τs[k]? = some t.ty := by
      intro k t hk
      simp [← hτ, hk]
    cases ha with
    | @exact fixed' hp' few =>
      obtain rfl : fixed = fixed' := fixed_unique ht (hp'.trans (List.append_nil _).symm) (by simp)
      have hv : s.isVariadic = false := by simp [isVariadic, hp']
      simp only [List.length_map] at hlen
      refine ⟨⟨by omega, by simp [hv, hlen]⟩, ?_⟩
      intro k t w hk hw
      have := hget k t hk
      simp only [List.getElem?_map, hw, Option.map_some, Option.some.injEq] at this
      exact this.symm
    | @variadic fixed' others extra hp' few =>
      obtain rfl : fixed = fixed' := fixed_unique ht hp' (by simp)
      have hv : s.isVariadic = true := by simp [isVariadic, hp']
      simp only [List.length_append, List.length_map] at hlen
      refine ⟨⟨by omega, by simp [hv, hlen]⟩, ?_⟩
      intro k t w hk hw
      have := hget k t hk
      have hlt : k < fixed.length := (List.getElem?_eq_some_iff.mp hw).1
      rw [List.getElem?_append_left (by simpa using hlt)] at this
      simp only [List.getElem?_map, hw, Option.map_some, Option.some.injEq] at this
      exact this.symm

end Signature

namespace Operator

variable {c : Typing.Context}

/-- Arguments are compared with the parameters at their own positions. -/
theorem admits_call {index : Nat} {s : Signature} (hs : c.signatures[index]? = some s)
    {before : List TypeAt} {es : List Expression} {ts : List TypeAt}
    (hl : es.length = ts.length) :
    Operator.Admits (.call (some index)) c before es ts ↔
      ∀ (k : Nat) (t w : TypeAt), ts[k]? = some t → s.wanted? (before.length + k) = some w →
        t.ty = w.ty := by
  induction es generalizing before ts with
  | nil =>
    cases ts with
    | nil => simp [Admits]
    | cons t ts => simp at hl
  | cons e es ih =>
    cases ts with
    | nil => simp at hl
    | cons t ts =>
      have hc : Operator.checkOperand (.call (some index)) c before e t = .ok () ↔
          ∀ w, s.wanted? before.length = some w → t.ty = w.ty := by
        simp only [checkOperand, hs, Option.bind_some]
        cases s.wanted? before.length with
        | none => simp
        | some w => by_cases h : t.ty = w.ty <;> simp [h]
      rw [Admits, ih (by simpa using hl), hc]
      simp only [wantsPlace, Bool.false_eq_true, false_implies, true_and, List.length_append,
        List.length_singleton]
      constructor
      · rintro ⟨hfirst, hrest⟩ k t' w hk hw
        cases k with
        | zero =>
          obtain rfl : t = t' := by simpa using hk
          exact hfirst w (by simpa using hw)
        | succ k => exact hrest k t' w (by simpa using hk) (by rwa [Nat.add_assoc, Nat.add_comm 1])
      · intro h
        refine ⟨fun w hw => h 0 t w rfl (by simpa using hw), fun k t' w hk hw => ?_⟩
        exact h (k + 1) t' w (by simpa using hk) (by rwa [Nat.add_comm k, ← Nat.add_assoc])

/-- The one operand of a dereference points to something. -/
theorem admits_dereference {before : List TypeAt} {e : Expression} {t : TypeAt} :
    Operator.Admits .dereference c before [e] [t] ↔
      ∃ base, t.ty = .pointer base ∧ base ≠ .void := by
  simp only [Admits, wantsPlace, checkOperand, and_true]
  cases t.ty with
  | pointer base => cases base <;> simp
  | _ => simp

/-- A list with at most one pointer among integers. -/
private theorem rule_addition_iff {ts : List TypeAt} {τ : Ty} :
    Rule c.signatures .addition (ts.map TypeAt.ty) τ ↔
      ((∀ t ∈ ts, t.ty = .int ∨ t.ty.isPointer = true) ∧
        (ts.filter (·.ty.isPointer)).length ≤ 1) ∧
      τ = ((ts.find? (·.ty.isPointer)).map TypeAt.ty).getD .int := by
  constructor
  · generalize hτ : ts.map TypeAt.ty = τs
    intro h
    cases h with
    | sum hi =>
      have hint : ∀ t ∈ ts, t.ty = .int := fun t ht => hi _ (hτ ▸ List.mem_map_of_mem ht)
      have hno : ∀ t ∈ ts, t.ty.isPointer = false := fun t ht => by simp [hint t ht]
      refine ⟨⟨fun t ht => .inl (hint t ht), ?_⟩, ?_⟩
      · rw [List.filter_eq_nil_iff.mpr fun t ht => by simp [hno t ht]]
        simp
      · rw [List.find?_eq_none.mpr fun t ht => by simp [hno t ht]]
        rfl
    | @pointerSum before after base hb ha =>
      obtain ⟨ts₁, rest, rfl, h₁, hrest⟩ := List.map_eq_append_iff.mp hτ
      obtain ⟨t, ts₂, rfl, ht, h₂⟩ := List.map_eq_cons_iff.mp hrest
      have hleft : ∀ u ∈ ts₁, u.ty = .int := fun u hu => hb _ (h₁ ▸ List.mem_map_of_mem hu)
      have hright : ∀ u ∈ ts₂, u.ty = .int := fun u hu => ha _ (h₂ ▸ List.mem_map_of_mem hu)
      have hl : ts₁.filter (·.ty.isPointer) = [] :=
        List.filter_eq_nil_iff.mpr fun u hu => by simp [hleft u hu]
      have hr : ts₂.filter (·.ty.isPointer) = [] :=
        List.filter_eq_nil_iff.mpr fun u hu => by simp [hright u hu]
      have hf : ts₁.find? (·.ty.isPointer) = none :=
        List.find?_eq_none.mpr fun u hu => by simp [hleft u hu]
      refine ⟨⟨?_, ?_⟩, ?_⟩
      · intro u hu
        rcases List.mem_append.mp hu with hu | hu
        · exact .inl (hleft u hu)
        · rcases List.mem_cons.mp hu with rfl | hu
          · exact .inr (by simp [ht])
          · exact .inl (hright u hu)
      · simp [hl, hr, ht]
      · simp [List.find?_append, hf, ht]
    | arithmetic hf => simp [IsArithmetic] at hf
    | relational hf => simp [IsRelational] at hf
    | logical hf => simp [IsLogical] at hf
  · rintro ⟨⟨hall, hone⟩, rfl⟩
    cases hf : ts.find? (·.ty.isPointer) with
    | none =>
      have hno := List.find?_eq_none.mp hf
      refine .sum fun τ hτ => ?_
      obtain ⟨t, ht, rfl⟩ := List.mem_map.mp hτ
      exact (hall t ht).resolve_right (hno t ht)
    | some t =>
      obtain ⟨hp, ts₁, ts₂, rfl, hbefore⟩ := List.find?_eq_some_iff_append.mp hf
      obtain ⟨base, hbase⟩ := Ty.isPointer_iff.mp hp
      have hleft : ∀ u ∈ ts₁, u.ty = .int := fun u hu =>
        (hall u (by simp [hu])).resolve_right (by simpa using hbefore u hu)
      have hafter : ts₂.filter (·.ty.isPointer) = [] := by
        have : (ts₁.filter (·.ty.isPointer)).length +
            ((ts₂.filter (·.ty.isPointer)).length + 1) ≤ 1 := by
          simpa [List.filter_append, List.filter_cons, hp] using hone
        exact List.length_eq_zero_iff.mp (by omega)
      have hright : ∀ u ∈ ts₂, u.ty = .int := fun u hu =>
        (hall u (by simp [hu])).resolve_right (List.filter_eq_nil_iff.mp hafter u hu)
      simp only [List.map_append, List.map_cons, Option.map_some, Option.getD_some, hbase]
      refine .pointerSum ?_ ?_
      · simpa using hleft
      · simpa using hright

/-- The families of integer and truth value operators. -/
private theorem rule_family_iff {op : Operator} {w : Ty} (hw : op.operandType? = some w)
    (loc : Nat) (es : List Expression) {ts : List TypeAt} {τ : Ty} :
    op.Rule c.signatures (ts.map TypeAt.ty) τ ↔
      (∀ t ∈ ts, t.ty = w) ∧ ∃ j, op.judge c loc es ts = .ok j ∧ j.type.ty = τ := by
  constructor
  · intro h
    generalize hτ : ts.map TypeAt.ty = τs at h
    have hall : (∀ σ ∈ τs, σ = w) → ∀ t ∈ ts, t.ty = w :=
      fun h t ht => h _ (hτ ▸ List.mem_map_of_mem ht)
    cases h with
    | arithmetic hf hi =>
      simp only [IsArithmetic, List.mem_cons, List.not_mem_nil, or_false] at hf
      rcases hf with rfl | rfl | rfl | rfl | rfl | rfl | rfl | rfl | rfl | rfl <;> cases hw <;>
        exact ⟨hall hi, _, rfl, rfl⟩
    | relational hf hi =>
      simp only [IsRelational, List.mem_cons, List.not_mem_nil, or_false] at hf
      rcases hf with rfl | rfl | rfl | rfl <;> cases hw <;> exact ⟨hall hi, _, rfl, rfl⟩
    | logical hf hi =>
      simp only [IsLogical, List.mem_cons, List.not_mem_nil, or_false] at hf
      rcases hf with rfl | rfl | rfl <;> cases hw <;> exact ⟨hall hi, _, rfl, rfl⟩
    | _ => cases hw
  · rintro ⟨hall, j, hj, rfl⟩
    have hall' : ∀ σ ∈ ts.map TypeAt.ty, σ = w := by simpa using hall
    cases op <;> cases hw <;> cases hj <;>
      first
      | exact .arithmetic (by simp [IsArithmetic]) hall'
      | exact .relational (by simp [IsRelational]) hall'
      | exact .logical (by simp [IsLogical]) hall'

private theorem rule_subtraction_iff {loc : Nat} {e₁ e₂ : Expression} {left right : TypeAt}
    {τ : Ty} :
    (∃ j, Operator.judge .subtraction c loc [e₁, e₂] [left, right] = .ok j ∧ j.type.ty = τ) ↔
      Rule c.signatures .subtraction [left.ty, right.ty] τ := by
  simp only [judge, Judgement.subtraction]
  constructor
  · rintro ⟨j, hj, rfl⟩
    split_ifs at hj with hl hr
    cases hj
    have hright : right.ty = .int := by simpa using hr
    simp only [Judgement.silent, TypeAt.ty_moveTo, hright]
    cases hleft : left.ty with
    | int => exact .difference
    | pointer base => exact .pointerDifference base
    | _ => simp [hleft, Ty.isPointer] at hl
  · intro h
    generalize hl : left.ty = l at h
    generalize hr : right.ty = r at h
    cases h with
    | difference =>
      exact ⟨.silent (left.moveTo loc), by simp, by simpa [Judgement.silent] using hl⟩
    | pointerDifference base =>
      exact ⟨.silent (left.moveTo loc), by simp, by simpa [Judgement.silent] using hl⟩
    | arithmetic hf => simp [IsArithmetic] at hf
    | relational hf => simp [IsRelational] at hf
    | logical hf => simp [IsLogical] at hf

private theorem rule_assignment_iff {loc : Nat} {e₁ e₂ : Expression} {target value : TypeAt}
    {τ : Ty} :
    (∃ j, Operator.judge .assignment c loc [e₁, e₂] [target, value] = .ok j ∧ j.type.ty = τ) ↔
      Rule c.signatures .assignment [target.ty, value.ty] τ := by
  simp only [judge, Judgement.assignment]
  constructor
  · rintro ⟨j, hj, rfl⟩
    split at hj
    next hp =>
      cases hj
      simp only [Bool.and_eq_true, decide_eq_true_eq] at hp
      obtain ⟨base, hb⟩ := Ty.isPointer_iff.mp hp.1
      simp only [TypeAt.ty_moveTo, hb, hp.2]
      exact .pointerAssignment base
    next hp =>
      split at hj
      next he =>
        cases hj
        simp only [Judgement.silent, TypeAt.ty_moveTo, he]
        exact .assignment _
      next he => cases hj
  · intro h
    generalize ht : target.ty = t at h
    generalize hv : value.ty = v at h
    cases h with
    | assignment =>
      by_cases hp : τ.isPointer = true ∧ τ = .pointer .void
      · exact ⟨_, if_pos (by simp [hp]), by simpa using ht⟩
      · refine ⟨Judgement.silent (target.moveTo loc), ?_, by simpa [Judgement.silent] using ht⟩
        rw [if_neg (by simpa using hp), if_pos rfl]
    | pointerAssignment base => exact ⟨_, if_pos (by simp), by simpa using ht⟩
    | arithmetic hf => simp [IsArithmetic] at hf
    | relational hf => simp [IsRelational] at hf
    | logical hf => simp [IsLogical] at hf

private theorem rule_equality_iff {op : Operator} (hop : op = .equality ∨ op = .notEquality)
    {loc : Nat} {es : List Expression} {left right : TypeAt} {τ : Ty} :
    (∃ j, op.judge c loc es [left, right] = .ok j ∧ j.type.ty = τ) ↔
      op.Rule c.signatures [left.ty, right.ty] τ := by
  constructor
  · rintro ⟨j, hj, rfl⟩
    have he : left.ty = right.ty ∧ j = .silent (.bool loc) := by
      rcases hop with rfl | rfl <;> simp only [judge] at hj <;> split at hj <;> simp_all
    obtain ⟨he, rfl⟩ := he
    rw [he]
    rcases hop with rfl | rfl
    · exact .equality _
    · exact .notEquality _
  · intro h
    generalize hl : left.ty = l at h
    generalize hr : right.ty = r at h
    have he : l = r ∧ τ = .bool := by
      rcases hop with rfl | rfl <;> cases h <;>
        simp_all [IsArithmetic, IsRelational, IsLogical]
    refine ⟨.silent (.bool loc), ?_, he.2.symm⟩
    rcases hop with rfl | rfl <;> simp [judge, hl, hr, he.1]

theorem rule_dereference_iff {τs : List Ty} {τ : Ty} :
    Rule c.signatures .dereference τs τ ↔ τs = [.pointer τ] ∧ τ ≠ .void := by
  constructor
  · intro h
    cases h with
    | dereference hv => exact ⟨rfl, hv⟩
    | arithmetic hf => simp [IsArithmetic] at hf
    | relational hf => simp [IsRelational] at hf
    | logical hf => simp [IsLogical] at hf
  · rintro ⟨rfl, hv⟩
    exact .dereference hv

theorem rule_reference_iff {τs : List Ty} {τ : Ty} :
    Rule c.signatures .reference τs τ ↔ ∃ σ, τs = [σ] ∧ τ = .pointer σ := by
  constructor
  · intro h
    cases h with
    | reference σ => exact ⟨σ, rfl, rfl⟩
    | arithmetic hf => simp [IsArithmetic] at hf
    | relational hf => simp [IsRelational] at hf
    | logical hf => simp [IsLogical] at hf
  · rintro ⟨σ, rfl, rfl⟩
    exact .reference σ

theorem rule_assignment_operands {τs : List Ty} {τ : Ty}
    (h : Rule c.signatures .assignment τs τ) : ∃ σ, τs = [τ, σ] := by
  cases h with
  | assignment => exact ⟨_, rfl⟩
  | pointerAssignment base => exact ⟨_, rfl⟩
  | arithmetic hf => simp [IsArithmetic] at hf
  | relational hf => simp [IsRelational] at hf
  | logical hf => simp [IsLogical] at hf

theorem rule_call_iff {callee : Option Nat} {τs : List Ty} {τ : Ty} :
    Rule c.signatures (.call callee) τs τ ↔
      ∃ s, callee.bind (c.signatures[·]?) = some s ∧ s.Accepts τs ∧ τ = s.returns.ty := by
  constructor
  · intro h
    cases h with
    | call hs ha => exact ⟨_, hs, ha, rfl⟩
    | arithmetic hf => simp [IsArithmetic] at hf
    | relational hf => simp [IsRelational] at hf
    | logical hf => simp [IsLogical] at hf
  · rintro ⟨s, hs, ha, rfl⟩
    cases callee with
    | none => cases hs
    | some index => exact .call hs ha

/-- Operators on two operands whose types are compared at the end. -/
private theorem accepts_pair {op : Operator} (hop : op = .subtraction ∨ op = .equality ∨
    op = .notEquality ∨ op = .assignment) (loc : Nat) (token : Token) {es : List Expression}
    {ts : List TypeAt} (hl : es.length = ts.length) {τ : Ty} :
    (op.checkCount c loc token es.length = .ok () ∧ op.Admits c [] es ts ∧
        ∃ j, op.judge c loc es ts = .ok j ∧ j.type.ty = τ) ↔
      op.PlacesOk es ∧ op.Rule c.signatures (ts.map TypeAt.ty) τ := by
  have hcount : op.checkCount c loc token es.length = .ok () ↔ es.length = 2 := by
    rcases hop with rfl | rfl | rfl | rfl <;> simp [checkCount]
  have hadmits : op.Admits c [] es ts ↔ op.PlacesOk es := by
    rw [admits_late (by tauto) hl]
    simp
  rw [hcount, hadmits]
  by_cases h2 : es.length = 2
  · obtain ⟨e₁, e₂, rfl⟩ := List.length_eq_two.mp h2
    obtain ⟨t₁, t₂, rfl⟩ := List.length_eq_two.mp (hl.symm.trans h2)
    simp only [List.map_cons, List.map_nil, h2, true_and]
    refine and_congr_right fun _ => ?_
    rcases hop with rfl | rfl | rfl | rfl
    · exact rule_subtraction_iff
    · exact rule_equality_iff (.inl rfl)
    · exact rule_equality_iff (.inr rfl)
    · exact rule_assignment_iff
  · simp only [h2, false_and, false_iff, not_and]
    intro _ h
    generalize hτ : ts.map TypeAt.ty = τs at h
    have hlen : τs.length ≠ 2 := by rw [← hτ, List.length_map, ← hl]; exact h2
    rcases hop with rfl | rfl | rfl | rfl <;> cases h <;>
      simp_all [IsArithmetic, IsRelational, IsLogical]

private theorem accepts_dereference (loc : Nat) (token : Token) {es : List Expression}
    {ts : List TypeAt} (hl : es.length = ts.length) {τ : Ty} :
    (Operator.checkCount .dereference c loc token es.length = .ok () ∧
        Operator.Admits .dereference c [] es ts ∧
        ∃ j, Operator.judge .dereference c loc es ts = .ok j ∧ j.type.ty = τ) ↔
      Operator.PlacesOk .dereference es ∧
        Rule c.signatures .dereference (ts.map TypeAt.ty) τ := by
  have hp : Operator.PlacesOk .dereference es := by rintro (h | h) <;> cases h
  simp only [rule_dereference_iff, hp, true_and, checkCount]
  by_cases h1 : es.length = 1
  · obtain ⟨e, rfl⟩ := List.length_eq_one_iff.mp h1
    obtain ⟨t, rfl⟩ := List.length_eq_one_iff.mp (hl.symm.trans h1)
    rw [admits_dereference]
    simp only [h1, if_true, true_and, List.map_cons, List.map_nil, List.cons.injEq, and_true]
    cases t with
    | pointer base loc' => simp [judge, Judgement.silent, TypeAt.ty, and_comm, eq_comm]; aesop
    | _ => simp [TypeAt.ty]
  · simp only [h1, if_false, reduceCtorEq, false_and, false_iff, not_and]
    intro h
    have := congrArg List.length h
    simp only [List.length_map, List.length_singleton] at this
    omega

private theorem accepts_reference (loc : Nat) (token : Token) {es : List Expression}
    {ts : List TypeAt} (hl : es.length = ts.length) {τ : Ty} :
    (Operator.checkCount .reference c loc token es.length = .ok () ∧
        Operator.Admits .reference c [] es ts ∧
        ∃ j, Operator.judge .reference c loc es ts = .ok j ∧ j.type.ty = τ) ↔
      Operator.PlacesOk .reference es ∧ Rule c.signatures .reference (ts.map TypeAt.ty) τ := by
  have ha : Operator.Admits .reference c [] es ts ↔ Operator.PlacesOk .reference es := by
    rw [admits_late (by simp) hl]
    simp
  simp only [rule_reference_iff, checkCount, ha]
  by_cases h1 : es.length = 1
  · obtain ⟨t, rfl⟩ := List.length_eq_one_iff.mp (hl.symm.trans h1)
    simp [h1, judge, Judgement.silent, TypeAt.ty, eq_comm]
  · simp only [h1, if_false, reduceCtorEq, false_and, false_iff, not_and, not_exists]
    intro _ σ h
    have := congrArg List.length h
    simp only [List.length_map, List.length_singleton] at this
    omega

private theorem accepts_call (callee : Option Nat) (loc : Nat) (token : Token)
    {es : List Expression} {ts : List TypeAt} (hl : es.length = ts.length) {τ : Ty} :
    (Operator.checkCount (.call callee) c loc token es.length = .ok () ∧
        Operator.Admits (.call callee) c [] es ts ∧
        ∃ j, Operator.judge (.call callee) c loc es ts = .ok j ∧ j.type.ty = τ) ↔
      Operator.PlacesOk (.call callee) es ∧
        Rule c.signatures (.call callee) (ts.map TypeAt.ty) τ := by
  have hp : Operator.PlacesOk (.call callee) es := by rintro (h | h) <;> cases h
  simp only [rule_call_iff, hp, true_and]
  cases callee with
  | none => simp [checkCount]
  | some index =>
    cases hs : c.signatures[index]? with
    | none => simp [checkCount, hs]
    | some s =>
      rw [admits_call hs hl]
      simp only [checkCount, hs, judge, Option.bind_some, Option.some.injEq, exists_eq_left',
        List.length_nil, Nat.zero_add, hl, ← Signature.accepts_iff loc]
      simp [Judgement.silent, and_assoc, eq_comm]

/-- The questions on the number of operands, on each operand and on the whole operation are met
just when the rule holds. -/
theorem accepts_iff (op : Operator) (loc : Nat) (token : Token) {es : List Expression}
    {ts : List TypeAt} (hl : es.length = ts.length) {τ : Ty} :
    (op.checkCount c loc token es.length = .ok () ∧ op.Admits c [] es ts ∧
        ∃ j, op.judge c loc es ts = .ok j ∧ j.type.ty = τ) ↔
      op.PlacesOk es ∧ op.Rule c.signatures (ts.map TypeAt.ty) τ := by
  cases hw : op.operandType? with
  | some w =>
    have hp : op.PlacesOk es := by
      rintro (rfl | rfl) <;> cases hw
    have hc : op.checkCount c loc token es.length = .ok () := by
      cases op <;> first | rfl | cases hw
    rw [admits_family hw hl, rule_family_iff hw loc es]
    simp only [hp, hc, true_and]
  | none =>
    cases op with
    | addition =>
      have hp : Operator.PlacesOk .addition es := by rintro (h | h) <;> cases h
      rw [admits_addition hl, rule_addition_iff]
      simp only [checkCount, List.any_nil, Bool.false_eq_true, if_false, true_and, hp, judge]
      refine and_congr_right fun _ => ?_
      cases ts.find? (·.ty.isPointer) with
      | none => simp [Judgement.silent, TypeAt.ty, eq_comm]
      | some t => simp [Judgement.silent, eq_comm]
    | subtraction => exact accepts_pair (by simp) loc token hl
    | equality => exact accepts_pair (by simp) loc token hl
    | notEquality => exact accepts_pair (by simp) loc token hl
    | assignment => exact accepts_pair (by simp) loc token hl
    | dereference => exact accepts_dereference loc token hl
    | reference => exact accepts_reference loc token hl
    | call callee => exact accepts_call callee loc token hl
    | _ => cases hw

/-- The type of an operation stands at the operation. -/
theorem judge_loc {op : Operator} {loc : Nat} {es : List Expression} {ts : List TypeAt}
    {j : Judgement} (h : op.judge c loc es ts = .ok j) : j.type.loc = loc := by
  cases op with
  | addition | equality | notEquality | dereference | reference =>
    simp only [judge] at h
    repeat' split at h
    all_goals cases h
    all_goals first | rfl | exact TypeAt.loc_moveTo _ _
  | subtraction =>
    simp only [judge, Judgement.subtraction] at h
    repeat' split at h
    all_goals cases h
    all_goals simp [Judgement.silent]
  | assignment =>
    simp only [judge, Judgement.assignment] at h
    repeat' split at h
    all_goals cases h
    all_goals simp [Judgement.silent]
  | call callee =>
    cases callee with
    | none =>
      cases h
      rfl
    | some index =>
      simp only [judge] at h
      split at h
      all_goals cases h
      all_goals simp [Judgement.silent]
  | _ =>
    cases h
    rfl

end Operator

end ProcLang
