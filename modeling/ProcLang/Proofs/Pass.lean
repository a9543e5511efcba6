import ProcLang.Pass

/-! What the result of a composed step says about the steps it is made of. -/
namespace ProcLang

namespace Outcome

theorem bind_eq_ok {first : Except ε α} {next : α → Except ε β} {b : β} :
    (first >>= next) = .ok b ↔ ∃ a, first = .ok a ∧ next a = .ok b := by
  cases first with
  | error e => simp [bind, Except.bind]
  | ok a => simp [bind, Except.bind]

theorem bind_eq_error {first : Except Fault α} {next : α → Except Fault β} {fault : Fault} :
    (first >>= next) = .error fault ↔
      first = .error fault ∨ ∃ a, first = .ok a ∧ next a = .error fault := by
  cases first with
  | error fault => simp [bind, Except.bind]
  | ok a => simp [bind, Except.bind]

/-- A check that gives no value either ends well or does not. -/
theorem bind_unit_eq_ok {first : Except Fault Unit} {next : Unit → Except Fault β} {b : β} :
    (first >>= next) = .ok b ↔ first = .ok () ∧ next () = .ok b := by
  rw [bind_eq_ok]
  exact ⟨fun ⟨(), h⟩ => h, fun h => ⟨(), h⟩⟩

@[simp] theorem ok_bind (a : α) (next : α → Except Fault β) : (.ok a >>= next) = next a := rfl

@[simp] theorem pure_eq (a : α) : (pure a : Except Fault α) = .ok a := rfl

theorem forM_eq_ok {f : α → Except Fault Unit} {as : List α} :
    forM as f = .ok () ↔ ∀ a ∈ as, f a = .ok () := by
  induction as with
  | nil => simp
  | cons a as ih => simp [bind_unit_eq_ok, ih]

theorem forM_congr {f g : α → Except Fault Unit} {as : List α} (h : ∀ a ∈ as, f a = g a) :
    forM as f = forM as g := by
  induction as with
  | nil => rfl
  | cons a as ih =>
    rw [List.forall_mem_cons] at h
    rw [List.forM_cons, List.forM_cons, h.1, ih h.2]

theorem forM_singleton (f : α → Except Fault Unit) (a : α) : forM [a] f = f a := by
  rw [List.forM_cons]
  cases f a <;> rfl

theorem forM_flatMap (f : β → Except Fault Unit) (expand : α → List β) (as : List α) :
    forM (as.flatMap expand) f = forM as fun a => forM (expand a) f := by
  induction as with
  | nil => rfl
  | cons a as ih => rw [List.flatMap_cons, List.forM_append, List.forM_cons, ih]

/-- Steps in a row fail with the fault of the first that fails. -/
theorem forM_eq_error {f : α → Except Fault Unit} {as : List α} {fault : Fault} :
    forM as f = .error fault ↔
      ∃ before a after, as = before ++ a :: after ∧ (∀ b ∈ before, f b = .ok ()) ∧
        f a = .error fault := by
  induction as with
  | nil => simp
  | cons a as ih =>
    rw [List.forM_cons, bind_eq_error]
    constructor
    · rintro (h | ⟨_, ha, h⟩)
      · exact ⟨[], a, as, rfl, by simp, h⟩
      · obtain ⟨before, b, after, rfl, hbefore, hb⟩ := ih.mp h
        exact ⟨a :: before, b, after, rfl, List.forall_mem_cons.mpr ⟨ha, hbefore⟩, hb⟩
    · rintro ⟨before, b, after, heq, hbefore, hb⟩
      cases before with
      | nil =>
        cases heq
        exact .inl hb
      | cons c before =>
        cases heq
        obtain ⟨ha, hbefore⟩ := List.forall_mem_cons.mp hbefore
        exact .inr ⟨(), ha, ih.mpr ⟨before, b, after, rfl, hbefore, hb⟩⟩

/-- Whatever fault there is satisfies `P`. -/
def FaultsIn (P : Fault → Prop) (r : Except Fault α) : Prop :=
  ∀ fault, r = .error fault → P fault

section

variable {P : Fault → Prop}

@[simp] theorem faultsIn_ok (a : α) : FaultsIn P (.ok a : Except Fault α) := by
  intro fault h
  cases h

@[simp] theorem faultsIn_error {fault : Fault} :
    FaultsIn P (.error fault : Except Fault α) ↔ P fault := by
  refine ⟨fun h => h fault rfl, fun h fault' heq => ?_⟩
  cases heq
  exact h

theorem FaultsIn.bind {first : Except Fault α} {next : α → Except Fault β}
    (hfirst : FaultsIn P first) (hnext : ∀ a, first = .ok a → FaultsIn P (next a)) :
    FaultsIn P (first >>= next) := by
  intro fault h
  rcases bind_eq_error.mp h with h | ⟨a, ha, h⟩
  · exact hfirst fault h
  · exact hnext a ha fault h

theorem forM_faultsIn {f : α → Except Fault Unit} {as : List α}
    (h : ∀ a ∈ as, FaultsIn P (f a)) : FaultsIn P (forM as f) := by
  induction as with
  | nil => exact faultsIn_ok _
  | cons a as ih =>
    rw [List.forall_mem_cons] at h
    rw [List.forM_cons]
    exact h.1.bind fun _ _ => ih h.2

end

end Outcome

/-- A mistake in the program that is compiled, and no breach. -/
def Fault.IsLocated : Fault → Prop
  | .located .. => True
  | .internal _ => False

/-- Every fault is a mistake in the program that is compiled. -/
abbrev Outcome.Located (r : Except Fault α) : Prop :=
  Outcome.FaultsIn Fault.IsLocated r

/-- The passes that refuse sources. -/
inductive Phase where
  | scanning | parsing | binding | checking
  deriving DecidableEq, Repr

namespace Phase

/-- The kinds of mistakes that a pass refuses a source for. -/
def kinds : Phase → List ErrorKind
  | .scanning => [.malformedToken]
  | .parsing => [.grammar, .declaration]
  | .binding => [.binding, .arity]
  | .checking => [.declaration, .type, .lvalue, .binding, .arity]

/-- A mistake of a kind that the pass refuses a source for, and no breach. -/
def Reports (phase : Phase) : Fault → Prop
  | .located _ cause => cause.kind ∈ phase.kinds
  | .internal _ => False

@[simp] theorem reports_located {phase : Phase} {loc : Nat} {cause : Cause} :
    phase.Reports (.located loc cause) ↔ cause.kind ∈ phase.kinds :=
  Iff.rfl

end Phase

/-- Every fault is one that the pass refuses a source for. -/
abbrev Outcome.ReportedBy (phase : Phase) (r : Except Fault α) : Prop :=
  Outcome.FaultsIn phase.Reports r

theorem Outcome.FaultsIn.located {phase : Phase} {r : Except Fault α} (h : ReportedBy phase r) :
    Located r := by
  intro fault hfault
  cases fault with
  | located loc cause => exact trivial
  | internal breach => exact h _ hfault

namespace Traced

@[simp] theorem pure_result (a : α) : (pure a : Traced α).result = .ok a := rfl

@[simp] theorem ofExcept_result (r : Except Fault α) : (ofExcept r).result = r := rfl

theorem bind_result (first : Traced α) (next : α → Traced β) :
    (first >>= next).result = (first.result >>= fun a => (next a).result) := by
  obtain ⟨events, result⟩ := first
  cases result <;> rfl

theorem bind_eq_ok {first : Traced α} {next : α → Traced β} {b : β} :
    (first >>= next).result = .ok b ↔ ∃ a, first.result = .ok a ∧ (next a).result = .ok b := by
  simp only [bind, andThen]
  cases first.result with
  | error fault => simp
  | ok a => simp

theorem bind_eq_error {first : Traced α} {next : α → Traced β} {fault : Fault} :
    (first >>= next).result = .error fault ↔
      first.result = .error fault ∨ ∃ a, first.result = .ok a ∧ (next a).result = .error fault := by
  simp only [bind, andThen]
  cases first.result with
  | error fault => simp
  | ok a => simp

theorem faultsIn_bind {P : Fault → Prop} {first : Traced α} {next : α → Traced β}
    (hfirst : Outcome.FaultsIn P first.result)
    (hnext : ∀ a, first.result = .ok a → Outcome.FaultsIn P (next a).result) :
    Outcome.FaultsIn P (first >>= next).result := by
  intro fault h
  rcases bind_eq_error.mp h with h | ⟨a, ha, h⟩
  · exact hfirst fault h
  · exact hnext a ha fault h

end Traced

namespace Pass

@[simp] theorem mapTree_result (f : τ → σ) (p : Pass τ α) : (p.mapTree f).result = p.result := rfl

@[simp] theorem mapTree_tree (f : τ → σ) (p : Pass τ α) : (p.mapTree f).tree = f p.tree := rfl

@[simp] theorem mapTree_events (f : τ → σ) (p : Pass τ α) : (p.mapTree f).events = p.events := rfl

@[simp] theorem require_tree (p : Pass τ α) (check : α → Except Fault β) :
    (p.require check).tree = p.tree := rfl

@[simp] theorem logged_tree (p : Pass τ α) (event : Event) : (p.logged event).tree = p.tree := by
  unfold logged
  split <;> rfl

@[simp] theorem logged_result (p : Pass τ α) (event : Event) :
    (p.logged event).result = p.result := by
  unfold logged
  split <;> simp_all

theorem require_eq_ok {p : Pass τ α} {check : α → Except Fault β} {b : β} :
    (p.require check).result = .ok b ↔ ∃ a, p.result = .ok a ∧ check a = .ok b :=
  Outcome.bind_eq_ok

theorem andThen_result (first : Pass τ α) (rest : σ) (next : α → Pass σ β) :
    (first.andThen rest next).result = first.result >>= fun a => (next a).result := by
  unfold andThen
  cases first.result <;> rfl

theorem andThen_eq_ok {first : Pass τ α} {rest : σ} {next : α → Pass σ β} {b : β} :
    (first.andThen rest next).result = .ok b ↔
      ∃ a, first.result = .ok a ∧ (next a).result = .ok b := by
  unfold andThen
  cases first.result with
  | error fault => simp
  | ok a => simp

/-- A step that gives no value either ends well or does not. -/
theorem andThen_unit_eq_ok {first : Pass τ Unit} {rest : σ} {next : Unit → Pass σ β} {b : β} :
    (first.andThen rest next).result = .ok b ↔
      first.result = .ok () ∧ (next ()).result = .ok b := by
  rw [andThen_eq_ok]
  exact ⟨fun ⟨(), h⟩ => h, fun h => ⟨(), h⟩⟩

theorem andThen_eq_error {first : Pass τ α} {rest : σ} {next : α → Pass σ β} {fault : Fault} :
    (first.andThen rest next).result = .error fault ↔
      first.result = .error fault ∨ ∃ a, first.result = .ok a ∧ (next a).result = .error fault := by
  unfold andThen
  cases first.result with
  | error fault => simp
  | ok a => simp

theorem andThen_tree_of_ok {first : Pass τ α} {a : α} (h : first.result = .ok a) (rest : σ)
    (next : α → Pass σ β) : (first.andThen rest next).tree = (first.tree, (next a).tree) := by
  simp [andThen, h]

theorem andThen_events_of_ok {first : Pass τ α} {a : α} (h : first.result = .ok a) (rest : σ)
    (next : α → Pass σ β) :
    (first.andThen rest next).events = first.events ++ (next a).events := by
  simp [andThen, h]

theorem faultsIn_andThen {P : Fault → Prop} {first : Pass τ α} {rest : σ} {next : α → Pass σ β}
    (hfirst : Outcome.FaultsIn P first.result)
    (hnext : ∀ a, first.result = .ok a → Outcome.FaultsIn P (next a).result) :
    Outcome.FaultsIn P (first.andThen rest next).result := by
  intro fault h
  rcases andThen_eq_error.mp h with h | ⟨a, ha, h⟩
  · exact hfirst fault h
  · exact hnext a ha fault h

theorem traced_eq_ok {p : Pass τ α} {t : τ} {a : α} :
    p.traced.result = .ok (t, a) ↔ p.tree = t ∧ p.result = .ok a := by
  cases h : p.result with
  | error fault => simp [traced, h, Except.map]
  | ok b => simp [traced, h, Except.map]

theorem traced_eq_error {p : Pass τ α} {fault : Fault} :
    p.traced.result = .error fault ↔ p.result = .error fault := by
  cases h : p.result with
  | error fault => simp [traced, h, Except.map]
  | ok b => simp [traced, h, Except.map]

end Pass

end ProcLang
