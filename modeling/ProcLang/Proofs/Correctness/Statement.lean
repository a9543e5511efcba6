import ProcLang.Proofs.Correctness.Expression
import ProcLang.Proofs.Correctness.Labels

/-! The code of a statement does what the statement means. -/
namespace ProcLang

open Assembly Machine Codegen Semantics

/-- Where a completion leads to: on to `next`, or to the exit with the value that is returned. -/
def Semantics.Completion.LeadsTo (whole : Code) (next : Nat) (pc : Nat) (s : State) :
    Completion → Prop
  | .normal => pc = next
  | .returned value => target? whole .exit = some pc ∧ ∀ v, value = some v → s.regs .rax = v

/-- At the end of a body both kinds of completion lead to the exit. -/
theorem Semantics.Completion.LeadsTo.exit {whole : Code} {next pc : Nat} {s : State}
    {o : Completion} (h : o.LeadsTo whole next pc s) (hexit : target? whole .exit = some next) :
    pc = next ∧ ∀ v, o = .returned (some v) → s.regs .rax = v := by
  cases o with
  | normal => exact ⟨h, fun v hv => by cases hv⟩
  | returned value =>
    obtain ⟨htarget, hvalue⟩ := h
    rw [hexit, Option.some.injEq] at htarget
    refine ⟨htarget.symm, fun v hv => hvalue v ?_⟩
    cases hv
    rfl

namespace Area

variable {f : Area} {labels : Label → Word} {whole code : Code} {pc next : Nat} {s s' : State}
  {m m' : Memory} {o : Completion}

/-- Execution gets from a line to where a completion leads, with nothing on the stack above the
frame. -/
def Finishes (f : Area) (labels : Label → Word) (whole : Code) (pc : Nat) (s : State) (next : Nat)
    (o : Completion) (m : Memory) : Prop :=
  ∃ pc' s', Reaches labels whole (pc, s) (pc', s') ∧ f.Stack f.low [] m s' ∧
    f.Keeps f.low s.mem s'.mem ∧ o.LeadsTo whole next pc' s'

theorem Finishes.of_reaches {pc₁ : Nat} {s₁ : State}
    (hreaches : Reaches labels whole (pc, s) (pc₁, s₁)) (hkeeps : f.Keeps f.low s.mem s₁.mem)
    (h : f.Finishes labels whole pc₁ s₁ next o m) : f.Finishes labels whole pc s next o m := by
  obtain ⟨pc', s', hreaches', hstack, hkeeps', hleads⟩ := h
  exact ⟨pc', s', hreaches.trans hreaches', hstack, hkeeps.trans hkeeps', hleads⟩

/-- Code after a statement that completes normally. -/
theorem Finishes.andThen {next' : Nat} (h : f.Finishes labels whole pc s next .normal m)
    (h' : ∀ s', f.Stack f.low [] m s' → f.Finishes labels whole next s' next' o m') :
    f.Finishes labels whole pc s next' o m' := by
  obtain ⟨pc', s', hreaches, hstack, hkeeps, hleads⟩ := h
  cases hleads
  exact .of_reaches hreaches hkeeps (h' s' hstack)

/-- A return passes by what follows. -/
theorem Finishes.exit {next' : Nat} {value : Option Word}
    (h : f.Finishes labels whole pc s next (.returned value) m) :
    f.Finishes labels whole pc s next' (.returned value) m :=
  h

/-- Lines that change nothing may follow a statement. -/
theorem Finishes.onward {next' : Nat} (h : f.Finishes labels whole pc s next o m)
    (hpath : ∀ s, Reaches labels whole (next, s) (next', s)) :
    f.Finishes labels whole pc s next' o m := by
  cases o with
  | normal => exact h.andThen fun s' hs' => ⟨next', s', hpath s', hs', .of_eq rfl _, rfl⟩
  | returned value => exact h.exit

theorem Finishes.refl (hs : f.Stack f.low [] m s) : f.Finishes labels whole pc s pc .normal m :=
  ⟨pc, s, .refl, hs, .of_eq rfl _, rfl⟩

/-- The stack has room for the code of an expression above the frame. -/
structure Admits (f : Area) (labels : Label → Word) (env : Env) (c : Typing.Context)
    (e : Expression) : Prop where
  ready : ∀ e' ∈ e.parts, f.Ready labels env c e'
  room : f.low + e.depth ≤ f.room

section

variable {env : Env} {g : Codegen.Context} {c : Typing.Context}

/-- A condition leads on if it is true, and to its target otherwise. -/
theorem finishes_condition (hf : f.Realizes labels env g c) {condition : Expression}
    {target : Label} {dest : Nat} {v : Word} {m₁ m₂ : Memory} (h : Eval env condition m v m₁)
    (hcode : conditionCode g condition target = .ok code) (hat : CodeAt whole pc code)
    (hadmits : f.Admits labels env c condition) (htarget : target? whole target = some dest)
    (hs : f.Stack f.low [] m s)
    (hrest : ∀ s', f.Stack f.low [] m₁ s' →
      f.Finishes labels whole (if v = 0 then dest else pc + code.length) s' next o m₂) :
    f.Finishes labels whole pc s next o m₂ := by
  unfold conditionCode at hcode
  obtain ⟨test, htest, hcode⟩ := Outcome.bind_eq_ok.mp hcode
  cases hcode
  obtain ⟨s₁, hrun, hstack, hkeeps⟩ :=
    leaves_expression hf h htest hadmits.ready hs hadmits.room
  let s₂ : State := { s₁.pop .rax with flags := some (.ofDifference v 0) }
  have hflags : run labels s₁ (instructions [.pop .rax, .test]) = some s₂ := by
    change _ = some { s₁.pop .rax with flags := some (.ofDifference v 0) }
    rw [← hstack.top_eq]
    rfl
  have hstack₂ : f.Stack f.low [] m₁ s₂ :=
    (hstack.pop (r := .rax) (by decide) (by decide)).congr rfl rfl rfl
  have hsplit : CodeAt whole pc (test ++ instructions [.pop .rax, .test] ++
      instructions [.jumpIfEqual target]) := by
    rw [List.append_assoc]
    exact hat
  have hjump : step labels whole _ s₂ = _ := step_jumpIfEqual hsplit.right.head htarget rfl
  have hzero : (Flags.ofDifference v 0).zero = decide (v = 0) := by
    simp [Flags.ofDifference, Bool.beq_eq_decide_eq]
  simp only [hzero, decide_eq_true_eq] at hjump
  refine .of_reaches ((reaches_of_run hsplit.left (run_trans hrun hflags)).tail hjump) hkeeps ?_
  simpa [instructions, Nat.add_assoc] using hrest s₂ hstack₂

section

variable {loc : Nat} {condition : Expression} {yes no body : Statement}

theorem codeAt_ifThen (labels : Label → Word) (hnodup : (labelsOf whole).Nodup)
    (hcode : statementCode g (.ifThen loc condition yes) = .ok code) (hat : CodeAt whole pc code) :
    ∃ test yesCode, conditionCode g condition (.afterIf loc) = .ok test ∧
      statementCode g yes = .ok yesCode ∧ CodeAt whole pc test ∧
      CodeAt whole (pc + test.length) yesCode ∧
      target? whole (.afterIf loc) = some (pc + test.length + yesCode.length) ∧
      ∀ s, Reaches labels whole (pc + test.length + yesCode.length, s) (pc + code.length, s) := by
  rw [statementCode] at hcode
  obtain ⟨test, htest, hcode⟩ := Outcome.bind_eq_ok.mp hcode
  obtain ⟨yesCode, hyes, hcode⟩ := Outcome.bind_eq_ok.mp hcode
  have hlength : pc + code.length = pc + test.length + yesCode.length + 1 := by
    cases hcode
    simp
    omega
  cases hcode
  have hafter : CodeAt whole (pc + test.length + yesCode.length) [.label (.afterIf loc)] :=
    hat.right.cast (by simp; omega)
  rw [hlength]
  exact ⟨test, yesCode, htest, hyes, hat.left.left, hat.left.right,
    target?_eq_some hnodup hafter.head, reaches_label hafter.head⟩

theorem codeAt_ifThenElse (labels : Label → Word) (hnodup : (labelsOf whole).Nodup)
    (hcode : statementCode g (.ifThenElse loc condition yes no) = .ok code)
    (hat : CodeAt whole pc code) :
    ∃ test yesCode noCode elseAt, conditionCode g condition (.elseBranch loc) = .ok test ∧
      statementCode g yes = .ok yesCode ∧ statementCode g no = .ok noCode ∧
      CodeAt whole pc test ∧ CodeAt whole (pc + test.length) yesCode ∧
      CodeAt whole (elseAt + 1) noCode ∧ target? whole (.elseBranch loc) = some elseAt ∧
      (∀ s, Reaches labels whole (pc + test.length + yesCode.length, s) (pc + code.length, s)) ∧
      (∀ s, Reaches labels whole (elseAt, s) (elseAt + 1, s)) ∧
      ∀ s, Reaches labels whole (elseAt + 1 + noCode.length, s) (pc + code.length, s) := by
  rw [statementCode] at hcode
  obtain ⟨test, htest, hcode⟩ := Outcome.bind_eq_ok.mp hcode
  obtain ⟨yesCode, hyes, hcode⟩ := Outcome.bind_eq_ok.mp hcode
  obtain ⟨noCode, hno, hcode⟩ := Outcome.bind_eq_ok.mp hcode
  have hlength : pc + code.length =
      pc + test.length + yesCode.length + 2 + noCode.length + 1 := by
    cases hcode
    simp
    omega
  cases hcode
  have hskip : CodeAt whole (pc + test.length + yesCode.length)
      [.instruction (.jump (.afterIfElse loc)), .label (.elseBranch loc)] :=
    hat.left.left.right.cast (by simp; omega)
  have hatNo : CodeAt whole (pc + test.length + yesCode.length + 2) noCode :=
    hat.left.right.cast (by simp; omega)
  have hafter : CodeAt whole (pc + test.length + yesCode.length + 2 + noCode.length)
      [.label (.afterIfElse loc)] :=
    hat.right.cast (by simp; omega)
  rw [hlength]
  refine ⟨test, yesCode, noCode, pc + test.length + yesCode.length + 1, htest, hyes, hno,
    hat.left.left.left.left, hat.left.left.left.right, hatNo,
    target?_eq_some hnodup hskip.tail.head, fun s => ?_, reaches_label hskip.tail.head,
    reaches_label hafter.head⟩
  exact .head (step_jump hskip.head (target?_eq_some hnodup hafter.head))
    (reaches_label hafter.head s)

theorem codeAt_loop (labels : Label → Word) (hnodup : (labelsOf whole).Nodup)
    (hcode : statementCode g (.loop loc condition body) = .ok code) (hat : CodeAt whole pc code) :
    ∃ test bodyCode doneAt, conditionCode g condition (.afterLoop loc) = .ok test ∧
      statementCode g body = .ok bodyCode ∧ CodeAt whole (pc + 1) test ∧
      CodeAt whole (pc + 1 + test.length) bodyCode ∧
      target? whole (.afterLoop loc) = some doneAt ∧
      (∀ s, Reaches labels whole (pc, s) (pc + 1, s)) ∧
      (∀ s, Reaches labels whole (pc + 1 + test.length + bodyCode.length, s) (pc, s)) ∧
      ∀ s, Reaches labels whole (doneAt, s) (pc + code.length, s) := by
  rw [statementCode] at hcode
  obtain ⟨test, htest, hcode⟩ := Outcome.bind_eq_ok.mp hcode
  obtain ⟨bodyCode, hbody, hcode⟩ := Outcome.bind_eq_ok.mp hcode
  have hlength : pc + code.length = pc + 1 + test.length + bodyCode.length + 1 + 1 := by
    cases hcode
    simp
    omega
  cases hcode
  have hend : CodeAt whole (pc + 1 + test.length + bodyCode.length)
      [.instruction (.jump (.loopStart loc)), .label (.afterLoop loc)] :=
    hat.right.cast (by simp; omega)
  have hstart : whole[pc]? = some (.label (.loopStart loc)) := hat.left.left.left.head
  rw [hlength]
  refine ⟨test, bodyCode, pc + 1 + test.length + bodyCode.length + 1, htest, hbody,
    hat.left.left.right, hat.left.right.cast (by simp; omega),
    target?_eq_some hnodup hend.tail.head, reaches_label hstart, fun s => ?_,
    reaches_label hend.tail.head⟩
  exact .single (step_jump hend.head (target?_eq_some hnodup hstart))

end

/-- Code of a statement, at any line of code whose labels are distinct. -/
theorem finishes (hf : f.Realizes labels env g c) (hnodup : (labelsOf whole).Nodup) {exit : Nat}
    (hexit : target? whole .exit = some exit) {st : Statement} (h : Exec env st m o m')
    (hcode : statementCode g st = .ok code) (hat : CodeAt whole pc code)
    (hadmits : ∀ e ∈ st.expressions, f.Admits labels env c e) (hs : f.Stack f.low [] m s) :
    f.Finishes labels whole pc s (pc + code.length) o m' := by
  induction h generalizing pc code s with
  | blockNil loc m =>
    cases hcode
    exact .refl hs
  | @blockCons loc st ss m m₁ m₂ o _ _ ihFirst ihOthers =>
    rw [statementCode, statementsCode] at hcode
    obtain ⟨first, hfirst, hcode⟩ := Outcome.bind_eq_ok.mp hcode
    obtain ⟨rest, hrest, hcode⟩ := Outcome.bind_eq_ok.mp hcode
    cases hcode
    simp only [Statement.expressions, Statement.allExpressions, List.forall_mem_append] at hadmits
    refine (ihFirst hfirst hat.left hadmits.1 hs).andThen fun s' hs' => ?_
    rw [List.length_append, ← Nat.add_assoc]
    exact ihOthers (by rw [statementCode]; exact hrest) hat.right
      (by simpa only [Statement.expressions] using hadmits.2) hs'
  | @blockExit loc st m m' value ss _ ih =>
    rw [statementCode, statementsCode] at hcode
    obtain ⟨first, hfirst, hcode⟩ := Outcome.bind_eq_ok.mp hcode
    obtain ⟨rest, hrest, hcode⟩ := Outcome.bind_eq_ok.mp hcode
    cases hcode
    simp only [Statement.expressions, Statement.allExpressions, List.forall_mem_append] at hadmits
    exact (ih hfirst hat.left hadmits.1 hs).exit
  | @ifTrue loc condition yes m m₁ m₂ v o test nonzero _ ih =>
    obtain ⟨testCode, yesCode, htest, hyes, hatTest, hatYes, htarget, hpath⟩ :=
      codeAt_ifThen labels hnodup hcode hat
    rw [Statement.expressions, List.forall_mem_cons] at hadmits
    refine finishes_condition hf test htest hatTest hadmits.1 htarget hs fun s' hs' => ?_
    rw [if_neg nonzero]
    exact (ih hyes hatYes hadmits.2 hs').onward hpath
  | @ifFalse loc condition m m' yes test =>
    obtain ⟨testCode, yesCode, htest, hyes, hatTest, hatYes, htarget, hpath⟩ :=
      codeAt_ifThen labels hnodup hcode hat
    rw [Statement.expressions, List.forall_mem_cons] at hadmits
    refine finishes_condition hf test htest hatTest hadmits.1 htarget hs fun s' hs' => ?_
    rw [if_pos rfl]
    exact .onward (.refl hs') hpath
  | @elseTrue loc condition yes m m₁ m₂ v o no test nonzero _ ih =>
    obtain ⟨testCode, yesCode, noCode, elseAt, htest, hyes, hno, hatTest, hatYes, hatNo, htarget,
      hskip, helse, hpath⟩ := codeAt_ifThenElse labels hnodup hcode hat
    rw [Statement.expressions, List.cons_append, List.forall_mem_cons,
      List.forall_mem_append] at hadmits
    refine finishes_condition hf test htest hatTest hadmits.1 htarget hs fun s' hs' => ?_
    rw [if_neg nonzero]
    exact (ih hyes hatYes hadmits.2.1 hs').onward hskip
  | @elseFalse loc condition no m m₁ m₂ o yes test _ ih =>
    obtain ⟨testCode, yesCode, noCode, elseAt, htest, hyes, hno, hatTest, hatYes, hatNo, htarget,
      hskip, helse, hpath⟩ := codeAt_ifThenElse labels hnodup hcode hat
    rw [Statement.expressions, List.cons_append, List.forall_mem_cons,
      List.forall_mem_append] at hadmits
    refine finishes_condition hf test htest hatTest hadmits.1 htarget hs fun s' hs' => ?_
    rw [if_pos rfl]
    exact .of_reaches (helse s') (.of_eq rfl _) ((ih hno hatNo hadmits.2.2 hs').onward hpath)
  | @loopDone loc condition m m' body test =>
    obtain ⟨testCode, bodyCode, doneAt, htest, hbody, hatTest, hatBody, htarget, hstart, hagain,
      hdone⟩ := codeAt_loop labels hnodup hcode hat
    rw [Statement.expressions, List.forall_mem_cons] at hadmits
    refine .of_reaches (hstart s) (.of_eq rfl _)
      (finishes_condition hf test htest hatTest hadmits.1 htarget hs fun s' hs' => ?_)
    rw [if_pos rfl]
    exact .onward (.refl hs') hdone
  | @loopStep loc condition body m m₁ m₂ m₃ v o test nonzero _ _ ihBody ihAgain =>
    obtain ⟨testCode, bodyCode, doneAt, htest, hbody, hatTest, hatBody, htarget, hstart, hagain,
      hdone⟩ := codeAt_loop labels hnodup hcode hat
    have hadmits' := hadmits
    rw [Statement.expressions, List.forall_mem_cons] at hadmits'
    refine .of_reaches (hstart s) (.of_eq rfl _)
      (finishes_condition hf test htest hatTest hadmits'.1 htarget hs fun s' hs' => ?_)
    rw [if_neg nonzero]
    exact ((ihBody hbody hatBody hadmits'.2 hs').onward hagain).andThen
      fun s'' hs'' => ihAgain hcode hat hadmits hs''
  | @loopExit loc condition body m m₁ m₂ v value test nonzero _ ih =>
    obtain ⟨testCode, bodyCode, doneAt, htest, hbody, hatTest, hatBody, htarget, hstart, hagain,
      hdone⟩ := codeAt_loop labels hnodup hcode hat
    rw [Statement.expressions, List.forall_mem_cons] at hadmits
    refine .of_reaches (hstart s) (.of_eq rfl _)
      (finishes_condition hf test htest hatTest hadmits.1 htarget hs fun s' hs' => ?_)
    rw [if_neg nonzero]
    exact (ih hbody hatBody hadmits.2 hs').exit
  | ret loc m =>
    cases hcode
    exact ⟨exit, s, .single (step_jump hat.head hexit), hs, .of_eq rfl _, hexit, by simp⟩
  | @retValue loc e m m' v evaluated =>
    rw [statementCode] at hcode
    obtain ⟨value, hvalue, hcode⟩ := Outcome.bind_eq_ok.mp hcode
    cases hcode
    have hadmit := hadmits e (by simp [Statement.expressions])
    obtain ⟨s₁, hrun, hstack, hkeeps⟩ :=
      leaves_expression hf evaluated hvalue hadmit.ready hs hadmit.room
    have hsplit : CodeAt whole pc (value ++ instructions [.pop .rax] ++
        instructions [.jump .exit]) := by
      rw [List.append_assoc]
      exact hat
    have hpop : run labels s₁ (instructions [.pop .rax]) = some (s₁.pop .rax) := rfl
    refine ⟨exit, s₁.pop .rax, ?_, hstack.pop (by decide) (by decide), hkeeps, hexit, ?_⟩
    · exact (reaches_of_run hsplit.left (run_trans hrun hpop)).tail
        (step_jump hsplit.right.head hexit)
    · rintro _ ⟨⟩
      simp [hstack.top_eq]
  | @expression e m m' v evaluated =>
    rw [statementCode] at hcode
    obtain ⟨value, hvalue, hcode⟩ := Outcome.bind_eq_ok.mp hcode
    cases hcode
    have hadmit := hadmits e (by simp [Statement.expressions])
    obtain ⟨s₁, hrun, hstack, hkeeps⟩ :=
      leaves_expression hf evaluated hvalue hadmit.ready hs hadmit.room
    have hdrop : run labels s₁ (instructions [.drop wordSize]) = some _ := rfl
    refine ⟨_, _, reaches_of_run hat (run_trans hrun hdrop), ?_, hkeeps, rfl⟩
    exact (hstack.pop (r := .rax) (by decide) (by decide)).congr (by simp [wordSize]) (by simp)
      (by simp)

end

end Area

end ProcLang
