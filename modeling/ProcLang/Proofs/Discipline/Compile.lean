import ProcLang.Proofs.Codegen.Sites
import ProcLang.Proofs.Correctness.Compile
import ProcLang.Proofs.Discipline.Code

/-! Compiled procedures keep to the heights of their operand stacks. -/
namespace ProcLang

open Assembly Machine Codegen

namespace Codegen

/-- Words that the code of a task adds to the stack. -/
def Task.rise : Task → Nat
  | .value _ | .address _ => 1
  | .statement _ => 0

/-- Heights for the code of a body, which starts at line `first` and ends before line `last`. -/
structure Disciplined (g : Codegen.Context) (body : Statement) (code : Code) (first last : Nat)
    (height : Nat → Nat) : Prop where
  levelled : Levelled code first last height
  /-- Outside of calls, heights are what the stack pointer is off from the height zero. -/
  step : ∀ labels pc pc' s s', first ≤ pc → pc < last → ¬InCall code pc →
    step labels code pc s = some (pc', s') → s'.regs .rbp = s.regs .rbp ∧
      s'.regs .rsp + BitVec.ofNat 64 (8 * height pc') =
        s.regs .rsp + BitVec.ofNat 64 (8 * height pc)
  covers : ∀ e ∈ body.parts, Covers g (.statement body) e
  /-- The code of an expression or of an address adds a word. -/
  rise : ∀ before t, Emitted g (.statement body) before t → ∃ own, t.code g = .ok own ∧
    CodeAt code (first + before.length) own ∧ first + before.length + own.length ≤ last ∧
    height (first + before.length + own.length) = height (first + before.length) + t.rise
  statement : ∀ before s, Emitted g (.statement body) before (.statement s) →
    height (first + before.length) = 0

variable {g : Codegen.Context} {body : Statement} {before own : Code} {t : Task}

/-- What precedes a statement in the code of another one leaves the stack as it was. -/
theorem Part.climbs_before {s : Statement} (hpart : Part g t before (.statement s))
    (hcounted : ∀ e ∈ t.parts, e.Counted) :
    (∃ s', t = .statement s') ∧ Climbs (fun _ => True) 0 before 0 := by
  have hstatement : ∀ {s' code}, (∀ e ∈ s'.parts, e.Counted) → statementCode g s' = .ok code →
      Climbs (fun _ => True) 0 code 0 := fun hparts hcode =>
    (climbs_statement hparts hcode).mono fun _ _ => trivial
  cases hpart with
  | item hearlier =>
    refine ⟨⟨_, rfl⟩, (climbs_statements (fun s' hs' code hcode => ?_) hearlier).mono
      fun _ _ => trivial⟩
    exact climbs_statement (fun e he => hcounted e (Statement.mem_parts_block.mpr
      ⟨s', List.mem_append_left _ hs', he⟩)) hcode
  | ifYes htest =>
    rw [Task.parts, Statement.parts_ifThen, List.forall_mem_append] at hcounted
    exact ⟨⟨_, rfl⟩, climbs_condition hcounted.1 htest trivial⟩
  | elseYes htest =>
    rw [Task.parts, Statement.parts_ifThenElse, List.append_assoc,
      List.forall_mem_append] at hcounted
    exact ⟨⟨_, rfl⟩, climbs_condition hcounted.1 htest trivial⟩
  | elseNo htest hyes =>
    rw [Task.parts, Statement.parts_ifThenElse, List.forall_mem_append,
      List.forall_mem_append] at hcounted
    obtain ⟨⟨hcondition, hyesCounted⟩, -⟩ := hcounted
    exact ⟨⟨_, rfl⟩, ((climbs_condition hcondition htest trivial).append
      (hstatement hyesCounted hyes)).append ((climbs_jump trivial).append (climbs_label _))⟩
  | loopBody htest =>
    rw [Task.parts, Statement.parts_loop, List.forall_mem_append] at hcounted
    exact ⟨⟨_, rfl⟩, (climbs_label _).append (climbs_condition hcounted.1 htest trivial)⟩

/-- Every statement of a body starts with an empty stack. -/
theorem Emitted.level_statement (h : Emitted g (.statement body) before t)
    (hcounted : ∀ e ∈ body.parts, e.Counted) {s : Statement} (ht : t = .statement s) :
    level 0 before = 0 := by
  induction h generalizing s with
  | whole => rfl
  | part hemitted hpart ih =>
    subst ht
    have hparts := fun e he => hcounted e (hemitted.parts_subset he)
    obtain ⟨⟨s', hs'⟩, hmore⟩ := hpart.climbs_before hparts
    rw [level_append, ih hs', hmore.level_eq]

theorem Emitted.level_append_own (h : Emitted g (.statement body) before t)
    (hcounted : ∀ e ∈ body.parts, e.Counted) (hown : t.code g = .ok own) :
    level 0 (before ++ own) = level 0 before + t.rise := by
  have hparts := fun e he => hcounted e (h.parts_subset he)
  rw [level_append]
  cases t with
  | value e =>
    have hclimbs : Climbs (fun _ => True) (level 0 before) own (level 0 before + 1) :=
      (climbs_expression hparts).1 _ own hown
    exact hclimbs.level_eq
  | address e =>
    have hclimbs : Climbs (fun _ => True) (level 0 before) own (level 0 before + 1) :=
      (climbs_expression hparts).2 _ own hown
    exact hclimbs.level_eq
  | statement s =>
    rw [h.level_statement hcounted rfl]
    exact (climbs_statement hparts hown).level_eq

/-- Where the code of a body stands, that of its parts does too. -/
theorem Emitted.codeAt {whole : Task} {code wholeCode : Code} {first : Nat}
    (h : Emitted g whole before t) (hwhole : whole.code g = .ok wholeCode)
    (hat : CodeAt code first wholeCode) :
    ∃ own, t.code g = .ok own ∧ CodeAt code (first + before.length) own := by
  obtain ⟨own, hown, hinside⟩ := h.code_prefix hwhole
  exact ⟨own, hown, CodeAt.right (hinside.trans hat)⟩

end Codegen

theorem Procedure.codeAt_body (q : Procedure) (saved bodyCode : Code) :
    CodeAt (q.prologue saved ++ bodyCode ++ q.epilogue ++ instructions [.ret])
      (q.prologue saved).length bodyCode := by
  unfold CodeAt
  rw [List.append_assoc, List.append_assoc, List.drop_left]
  exact List.prefix_append _ _

variable {p : Program} {q : Procedure} {body : Statement}

theorem Program.disciplined {saved bodyCode : Code} (hcounted : ∀ e ∈ body.parts, e.Counted)
    (hcontrols : body.controls.Nodup)
    (hsaved : saveParameters q.name 0 q.parameters argumentRegisters = .ok saved)
    (hbody : statementCode (p.codeContext q) body = .ok bodyCode) :
    ∃ height, Disciplined (p.codeContext q) body
      (q.prologue saved ++ bodyCode ++ q.epilogue ++ instructions [.ret]) (q.prologue saved).length
      ((q.prologue saved).length + bodyCode.length) height := by
  have hclimbs := climbs_statement hcounted hbody
  have hlabels : labelsOf (q.prologue saved) = [.procedure q.name] := by
    simp only [Procedure.prologue, labelsOf_append, labelsOf_label, labelsOf_instruction,
      labelsOf_instructions, labelsOf_pushZero, labelsOf_saveParameters hsaved, labelsOf_nil,
      List.append_nil]
  have hstart : ∀ l ∈ labelsOf (q.prologue saved), ¬Inside bodyCode l := by
    intro l hl hinside
    rw [hlabels, List.mem_singleton] at hl
    subst hl
    rcases hinside with heq | hmem
    · cases heq
    · obtain ⟨loc, -, hloc⟩ := (tagged_statement hbody hcontrols).position _ hmem
      cases hloc
  have hcode : q.prologue saved ++ bodyCode ++ q.epilogue ++ instructions [.ret] =
      q.prologue saved ++ bodyCode ++ .label .exit :: (q.epilogue.tail ++ instructions [.ret]) := by
    rw [List.append_assoc _ q.epilogue]
    rfl
  have hlevelled : Levelled (q.prologue saved ++ bodyCode ++ q.epilogue ++ instructions [.ret])
      (q.prologue saved).length ((q.prologue saved).length + bodyCode.length)
      fun pc => level 0 (bodyCode.take (pc - (q.prologue saved).length)) := by
    rw [hcode]
    refine hclimbs.levelled hstart ?_
    rw [labelsOf_append, labelsOf_instructions, List.append_nil]
    exact labelsOf_instructions _
  -- the height in front of a part is that behind all the lines before it
  have hheight : ∀ {before own : Code}, before ++ own <+: bodyCode →
      level 0 (bodyCode.take before.length) = level 0 before ∧
      level 0 (bodyCode.take (before.length + own.length)) = level 0 (before ++ own) := by
    rintro before own ⟨after, rfl⟩
    rw [List.append_assoc, List.take_left, List.take_length_add_append, List.take_left]
    exact ⟨rfl, rfl⟩
  refine ⟨_, hlevelled, ?_, covers_statement hbody, ?_, ?_⟩
  · intro labels pc pc' s s' hfirst hlast hcall hstep
    obtain ⟨l, hat, hafter⟩ := hlevelled.line pc pc' hfirst hlast (flows_of_step hstep) hcall
    exact rsp_of_step hat hafter hstep
  · intro before t hemitted
    obtain ⟨own, hown, hinside⟩ := hemitted.code_prefix hbody
    refine ⟨own, hown, CodeAt.right (hinside.trans (q.codeAt_body saved bodyCode)), ?_, ?_⟩
    · have := hinside.length_le
      rw [List.length_append] at this
      omega
    · rw [Nat.add_assoc, Nat.add_sub_cancel_left, Nat.add_sub_cancel_left, (hheight hinside).1,
        (hheight hinside).2]
      exact hemitted.level_append_own hcounted hown
  · intro before s hemitted
    obtain ⟨own, -, hinside⟩ := hemitted.code_prefix hbody
    rw [Nat.add_sub_cancel_left, (hheight hinside).1]
    exact hemitted.level_statement hcounted rfl

/-- For every procedure of a compiled source there are heights of the operand stack: one for each
line between the prologue and the epilogue, the same on every way to that line. -/
theorem compile_disciplined {source : String} {r : Compilation}
    (h : (compile source).result = .ok r) :
    ∃ p : Program, (checkSource source).result = .ok (p, r.warnings) ∧
      ∀ q ∈ p.procedures, ∀ body, q.body? = some body →
        ∃ code ∈ r.assembly.procedures, ∃ saved bodyCode,
          code = q.prologue saved ++ bodyCode ++ q.epilogue ++ instructions [.ret] ∧
          ∃ height, Disciplined (p.codeContext q) body code (q.prologue saved).length
            ((q.prologue saved).length + bodyCode.length) height := by
  obtain ⟨p, hcheck, hgenerate, -, -⟩ := generate_of_compile h
  refine ⟨p, hcheck, fun q hq body hbody => ?_⟩
  obtain ⟨code, hmem, hcode⟩ := Program.exists_procedureCode hgenerate hq hbody
  obtain ⟨saved, bodyCode, hsaved, hbodyCode, rfl⟩ := Program.procedureCode_parts hcode
  exact ⟨_, hmem, saved, bodyCode, rfl, Program.disciplined (counted_of_checkSource hcheck hq hbody)
    (controls_nodup hcheck hq hbody) hsaved hbodyCode⟩

namespace Adding

/-- Adds up numbers in a loop, with a call among the arguments of another one. -/
def source : String :=
  "proc int add(int a,int b)[int c]{(= c a)return(+ c b)}" ++
  "proc int main(){while(< 9(add 1 2))(add(add 3 4)5)return 0}"

/-- A call of `add`. -/
def call (loc : Nat) (arguments : List Expression) : Expression :=
  .operation loc ⟨.name, "add", loc + 1⟩ arguments (some (.call (some 0))) (some (.int loc))

def integer (value : Int64) (loc : Nat) : Expression :=
  .literal ⟨.integer value, loc⟩

def localVar (loc : Nat) : Expression :=
  .var ⟨"c", loc, some (.localVar 0), some (.int loc)⟩

def parameter (name : String) (index loc : Nat) : Expression :=
  .var ⟨name, loc, some (.parameter index), some (.int loc)⟩

def addBody : Statement :=
  .block 32 [
    .expression (.operation 33 ⟨.sign .equals, "=", 34⟩ [localVar 36, parameter "a" 0 38]
      (some .assignment) (some (.int 33))),
    .ret 40 (some (.operation 46 ⟨.sign .plus, "+", 47⟩ [localVar 49, parameter "b" 1 51]
      (some .addition) (some (.int 46))))]

def add : Procedure :=
  ⟨"add", 9, .int 5, [.var ⟨"a", .int 13, 17⟩, .var ⟨"b", .int 19, 23⟩],
    .internal [⟨"c", .int 26, 30⟩] addBody,
    [("a", .var (.parameter 0)), ("b", .var (.parameter 1)), ("c", .var (.localVar 0))]⟩

def mainBody : Statement :=
  .block 69 [
    .loop 70 (.operation 75 ⟨.sign .leftAngle, "<", 76⟩
        [integer 9 78, call 79 [integer 1 84, integer 2 86]] (some .lessThan) (some (.bool 75)))
      (.expression (call 89 [call 93 [integer 3 98, integer 4 100], integer 5 102])),
    .ret 104 (some (integer 0 111))]

def main : Procedure :=
  ⟨"main", 63, .int 59, [], .internal [] mainBody, []⟩

def program : Program :=
  ⟨[], [add, main], [], [("add", .procedure 0), ("main", .procedure 1)]⟩

theorem checkSource_eq : (checkSource source).result = .ok (program, []) := by
  decide +kernel

end Adding

open Adding in
theorem compile_disciplined_adding : ∃ r, (compile source).result = .ok r ∧
    ∃ code ∈ r.assembly.procedures, ∃ saved bodyCode,
      code = main.prologue saved ++ bodyCode ++ main.epilogue ++ instructions [.ret] ∧
      ∃ height, Disciplined (program.codeContext main) mainBody code (main.prologue saved).length
        ((main.prologue saved).length + bodyCode.length) height := by
  obtain ⟨a, -, hcompile⟩ := compile_of_checkSource checkSource_eq
  obtain ⟨p, hcheck, hall⟩ := compile_disciplined hcompile
  rw [checkSource_eq] at hcheck
  cases hcheck
  exact ⟨_, hcompile, hall main (by simp [program]) mainBody rfl⟩

end ProcLang
