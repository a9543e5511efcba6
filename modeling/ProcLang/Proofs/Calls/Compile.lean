import ProcLang.Proofs.Calls.Sequence
import ProcLang.Proofs.Discipline.Compile

/-! Calls between procedures of a compiled source agree with what the callees expect. -/
namespace ProcLang

open Assembly Machine Codegen

namespace Program

variable {p : Program} {q callee : Procedure} {body : Statement} {a : Assembly} {code : Code}

/-- The label of a procedure leads to its code. -/
theorem exists_entry? (h : p.generate = .ok a) (hnames : (p.procedures.map Procedure.name).Nodup)
    (hq : q ∈ p.procedures) (hbody : q.body? = some body)
    (hcode : procedureCode (p.codeContext q) q body = .ok code) {img : Image}
    (himg : img.codes = a.procedures) :
    ∃ k, img.entry? (.procedure q.name) = some k ∧ img.codes[k]? = some code := by
  obtain ⟨code', hmem, hcode'⟩ := exists_procedureCode h hq hbody
  cases hcode.symm.trans hcode'
  have hsome : (img.entry? (.procedure q.name)).isSome = true := by
    rw [Image.entry?, List.findIdx?_isSome, List.any_eq_true]
    exact ⟨code, himg ▸ hmem, by simp [head?_procedureCode hcode]⟩
  obtain ⟨k, hk⟩ := Option.isSome_iff_exists.mp hsome
  refine ⟨k, hk, ?_⟩
  obtain ⟨hlt, hhead, -⟩ := List.findIdx?_eq_some_iff_getElem.mp hk
  -- the code that is found comes from a procedure of the same name
  have hin : img.codes[k] ∈ a.procedures := by
    rw [← himg]
    exact List.getElem_mem hlt
  obtain ⟨q', hq', body', hbody', hfound⟩ := exists_of_mem_procedures h hin
  have hname : q'.name = q.name := by
    rw [head?_procedureCode hfound] at hhead
    simpa using hhead
  cases List.inj_on_of_nodup_map hnames hq' hq hname
  cases hbody.symm.trans hbody'
  cases hcode.symm.trans hfound
  exact List.getElem?_eq_getElem hlt

/-- Procedures with a body have no `etcetera`. -/
theorem exists_declaration (hwell : p.WellTyped) (hq : q ∈ p.procedures)
    (hbody : q.body? = some body) {r : Parameter} (hr : r ∈ q.parameters) :
    ∃ d, r = .var d := by
  cases r with
  | var d => exact ⟨d, rfl⟩
  | etcetera loc =>
    obtain ⟨i, hi⟩ := List.mem_iff_getElem?.mp hr
    have hexternal := (hwell.etcetera q hq i loc hi).1
    rw [isExternal_of_body? hbody] at hexternal
    cases hexternal

theorem isVariadic_of_body? (hwell : p.WellTyped) (hq : q ∈ p.procedures)
    (hbody : q.body? = some body) : q.isVariadic = false := by
  unfold Procedure.isVariadic
  cases hlast : q.parameters.getLast? with
  | none => rfl
  | some r =>
    obtain ⟨d, rfl⟩ := exists_declaration hwell hq hbody (List.mem_of_getLast? hlast)
    rfl

/-- A call passes one argument for each parameter of a procedure with a body. -/
theorem length_arguments (hwell : p.WellTyped) (hrec : p.Recorded) (hq : q ∈ p.procedures)
    (hbody : q.body? = some body) {loc index : Nat} {token : Token} {arguments : List Expression}
    {type : Option TypeAt}
    (he : .operation loc token arguments (some (.call (some index))) type ∈ body.parts)
    (hindex : p.procedures[index]? = some callee) {inner : Statement}
    (hinner : callee.body? = some inner) : arguments.length = callee.parameters.length := by
  obtain ⟨t, -, -, htyped⟩ := hrec q hq body hbody _ he
  cases (htyped t.ty).mpr rfl with
  | operation _ typed rule =>
    obtain ⟨signature, hsignature, haccepts, -⟩ := Operator.rule_call_iff.mp rule
    have heq : signature = callee.signature := by
      simpa [context, hindex, eq_comm] using hsignature
    subst heq
    rw [typed.length_eq]
    cases haccepts with
    | exact hparameters _ =>
      have hlength := congrArg List.length hparameters
      simpa [Procedure.signature] using hlength.symm
    | variadic hparameters _ =>
      have hnone : none ∈ callee.signature.parameters := by simp [hparameters]
      obtain ⟨r, hr, hnone⟩ := List.mem_map.mp hnone
      obtain ⟨d, rfl⟩ := exists_declaration hwell (List.mem_of_getElem? hindex) hinner hr
      cases hnone

/-- The code of a call stands in that of the procedure it is made from. -/
theorem exists_callCode (hcode : procedureCode (p.codeContext q) q body = .ok code)
    {loc index : Nat} {token : Token} {arguments : List Expression} {type : Option TypeAt}
    (he : .operation loc token arguments (some (.call (some index))) type ∈ body.parts)
    (hindex : p.procedures[index]? = some callee) :
    ∃ pc argumentsCode, operandsCode (p.codeContext q) arguments = .ok argumentsCode ∧
      CodeAt code pc (argumentsCode ++ callCode callee arguments.length) := by
  obtain ⟨saved, bodyCode, -, hbodyCode, rfl⟩ := procedureCode_parts hcode
  obtain ⟨before, t, hemitted, ht⟩ := covers_statement hbodyCode _ he
  obtain ⟨own, hown, hat⟩ := hemitted.codeAt hbodyCode (q.codeAt_body saved bodyCode)
  cases t with
  | statement s => cases ht
  | address e =>
    cases ht
    cases (addressCode_operation hown).1
  | value e =>
    cases ht
    obtain ⟨operands, tail, hoperands, htail, rfl⟩ :=
      expressionCode_operands hown (by simp) (by simp)
    cases htail with
    | plain hplain => cases hplain
    | call hcallee _ =>
      cases hcallee.symm.trans (show _ = some callee from hindex)
      exact ⟨_, operands, hoperands, hat⟩

end Program

/-- What a call does in state `s`, whose stack holds the arguments. The call starts at line `pc` of
procedure `k`. The body of the callee starts at line `enter` of procedure `k'`, and its exit is at
line `exit`. -/
def Procedure.CalledFrom (callee : Procedure) (img : Image) (k pc k' enter exit : Nat)
    (s : State) : Prop :=
  ∃ code call s₁ s₂, img.codes[k]? = some code ∧
    code[call]? = some (.instruction (.call (.procedure callee.name))) ∧
    img.Reaches (⟨k, pc⟩, s) (⟨k, call⟩, s₁) ∧ (s₁.regs .rsp).toNat % 16 = 0 ∧
    img.Reaches (⟨k, call⟩, s₁) (⟨k', enter⟩, s₂) ∧ callee.Passed s s₂ ∧
    ∀ s₃, s₃.regs .rbp = s₂.regs .rbp →
      (∀ j < 24, s₃.mem (s₂.regs .rbp + BitVec.ofNat 64 ((Frame.ofProcedure callee).size + j)) =
        s₂.mem (s₂.regs .rbp + BitVec.ofNat 64 ((Frame.ofProcedure callee).size + j))) →
      ∃ s₄ s₅, img.Reaches (⟨k', exit⟩, s₃) (⟨k, call + 1⟩, s₄) ∧
        img.Reaches (⟨k, call + 1⟩, s₄)
          (⟨k, pc + (callCode callee callee.parameters.length).length⟩, s₅) ∧
        s₅.regs .rbp = s.regs .rbp ∧
        s₅.regs .rsp = s.regs .rsp + BitVec.ofNat 64 (8 * callee.parameters.length) - 8

namespace Procedure

variable {callee : Procedure} {img : Image} {k pc call k' : Nat} {code saved inner : Code}

/-- A call leads to the body of the callee. -/
theorem reaches_body (hcode : img.codes[k]? = some code)
    (hcall : code[call]? = some (.instruction (.call (.procedure callee.name))))
    (hentry : img.entry? (.procedure callee.name) = some k')
    (hcallee : img.codes[k']? =
      some (callee.prologue saved ++ inner ++ callee.epilogue ++ instructions [.ret]))
    (hsaved : saveParameters callee.name 0 callee.parameters argumentRegisters = .ok saved)
    (s : State) :
    img.Reaches (⟨k, call⟩, s) (⟨k', (callee.prologue saved).length⟩,
      callee.entered (s.push (img.address ⟨k, call + 1⟩))) := by
  have hrun : run img.labels (s.push (img.address ⟨k, call + 1⟩)) (callee.prologue saved) =
      some (callee.entered (s.push (img.address ⟨k, call + 1⟩))) := run_prologue hsaved
  have hat : CodeAt (callee.prologue saved ++ inner ++ callee.epilogue ++ instructions [.ret]) 0
      (callee.prologue saved) := by
    unfold CodeAt
    rw [List.append_assoc, List.append_assoc]
    exact List.prefix_append _ _
  have hprologue := Image.reaches_of_run hcallee hat hrun
  rw [Nat.zero_add] at hprologue
  exact .head (Image.step_call hcode hcall hentry) hprologue

/-- From its exit, a callee goes back to the line behind the call. -/
theorem reaches_caller {i : Instruction} {n : Nat} {s s₃ : State}
    (hcode : img.codes[k]? = some code) (hline : code[call + 1]? = some (.instruction i))
    (hcallee : img.codes[k']? =
      some (callee.prologue saved ++ inner ++ callee.epilogue ++ instructions [.ret]))
    (hfew : callee.parameters.length ≤ argumentRegisters.length)
    (hrbp : s₃.regs .rbp =
      (callee.entered (called n s (img.address ⟨k, call + 1⟩))).regs .rbp)
    (hcaller : s₃.mem.read ((called n s (img.address ⟨k, call + 1⟩)).regs .rsp - 8) 8 =
      (s.regs .rbp).toNat)
    (hback : s₃.mem.read ((called n s (img.address ⟨k, call + 1⟩)).regs .rsp) 8 =
      (img.address ⟨k, call + 1⟩).toNat)
    (hsp : s₃.mem.read ((called n s (img.address ⟨k, call + 1⟩)).regs .rsp + 8) 8 =
      ((taken n s).regs .rsp).toNat) :
    ∃ s₄, img.Reaches (⟨k', (callee.prologue saved).length + inner.length⟩, s₃)
        (⟨k, call + 1⟩, s₄) ∧
      s₄.regs .rbp = s.regs .rbp ∧ s₄.top = (taken n s).regs .rsp := by
  rw [rbp_entered hfew] at hrbp
  obtain ⟨s', hrun, hrsp', hrbp', -, hmem'⟩ := run_epilogue hrbp hcaller
  have hat : CodeAt (callee.prologue saved ++ inner ++ callee.epilogue ++ instructions [.ret])
      ((callee.prologue saved).length + inner.length) (callee.epilogue ++ instructions [.ret]) := by
    unfold CodeAt
    rw [List.append_assoc _ callee.epilogue, ← List.length_append, List.drop_left]
  have htop : s'.top = img.address ⟨k, call + 1⟩ := by
    rw [State.top, hrsp', hmem', hback, BitVec.ofNat_toNat, BitVec.setWidth_eq]
  refine ⟨s'.set .rsp (s'.regs .rsp + 8), ?_, ?_, ?_⟩
  · exact (Image.reaches_of_run hcallee hat.left hrun).tail
      (Image.step_ret hcallee hat.right.head hcode hline htop)
  · rw [State.regs_set, if_neg (by decide), hrbp']
  · rw [State.top, State.regs_set, if_pos rfl, State.mem_set, hmem', hrsp', hsp,
      BitVec.ofNat_toNat, BitVec.setWidth_eq]

theorem calledFrom (hcode : img.codes[k]? = some code)
    (hat : CodeAt code pc (callCode callee callee.parameters.length))
    (hentry : img.entry? (.procedure callee.name) = some k')
    (hcallee : img.codes[k']? =
      some (callee.prologue saved ++ inner ++ callee.epilogue ++ instructions [.ret]))
    (hsaved : saveParameters callee.name 0 callee.parameters argumentRegisters = .ok saved)
    (hfixed : callee.isVariadic = false)
    (hfew : callee.parameters.length ≤ argumentRegisters.length)
    (hfits : 8 * (callee.frameWords + 3) ≤ 2 ^ 64) (s : State) :
    callee.CalledFrom img k pc k' (callee.prologue saved).length
      ((callee.prologue saved).length + inner.length) s := by
  have hlength : pc + (callCode callee callee.parameters.length).length =
      pc + (setupCode callee.parameters.length).length + 1 + (resultCode callee).length := by
    simp only [callCode_of_fixed hfixed, List.length_append, instructions, List.length_map,
      List.length_cons, List.length_nil]
    omega
  rw [callCode_of_fixed hfixed] at hat
  have hcall := hat.left.right.head
  have hback : CodeAt code (pc + (setupCode callee.parameters.length).length + 1)
      (resultCode callee) := by
    have hright := hat.right
    rwa [List.length_append, ← Nat.add_assoc] at hright
  have hsetup := Image.reaches_of_run hcode hat.left.left (run_setup callee.parameters.length s)
  refine ⟨code, _, _, _, hcode, hcall, hsetup, rsp_calling_mod,
    reaches_body hcode hcall hentry hcallee hsaved _, passed_called hfits hfew rfl, ?_⟩
  intro s₃ hrbp hkeep
  obtain ⟨hcaller, hreturn, hsp⟩ := read_above hfits hfew hkeep
  obtain ⟨s₄, hreturns, hrbp₄, htop⟩ :=
    reaches_caller hcode hback.head hcallee hfew hrbp hcaller hreturn hsp
  obtain ⟨s₅, hresult, hrbp₅, hrsp₅, -⟩ := run_result img.labels callee s₄
  refine ⟨s₄, s₅.push (callee.resultWord s₄), hreturns, ?_, hrbp₅.trans hrbp₄, ?_⟩
  · rw [hlength]
    exact Image.reaches_of_run hcode hback hresult
  · rw [State.regs_push, if_pos rfl, hrsp₅, htop, rsp_taken hfew]

end Procedure

/-- Calls of procedures that have a body agree with the code of the callee. There is one argument
for each parameter. From the line where the first argument is popped, control gets to the body of
the callee: the stack is aligned at the call, each argument is in the slot of its parameter, and
locals are zero. From the exit of the callee it gets back behind the call, and at last there is one
word on the stack in place of the arguments. This takes a callee that keeps its frame pointer and
the three words above its slots, and room in memory for its frame. -/
theorem compile_calls_agree {source : String} {r : Compilation}
    (h : (compile source).result = .ok r) :
    ∃ p : Program, (checkSource source).result = .ok (p, r.warnings) ∧
      ∀ q ∈ p.procedures, ∀ body, q.body? = some body →
      ∀ loc token arguments index type,
        .operation loc token arguments (some (.call (some index))) type ∈ body.parts →
      ∀ callee inner, p.procedures[index]? = some callee → callee.body? = some inner →
        arguments.length = callee.parameters.length ∧ arguments.length ≤ 6 ∧
        Frame.Tiles ((Frame.ofProcedure callee).locals ++ (Frame.ofProcedure callee).parameters)
          (Frame.ofProcedure callee).size ∧
        ∃ code ∈ r.assembly.procedures, ∃ saved innerCode,
          code.head? = some (.label (.procedure q.name)) ∧
          (∃ pc argumentsCode, operandsCode (p.codeContext q) arguments = .ok argumentsCode ∧
            CodeAt code pc (argumentsCode ++ callCode callee arguments.length)) ∧
          ∀ (img : Image) (k : Nat), img.codes = r.assembly.procedures →
            img.codes[k]? = some code → 8 * (callee.frameWords + 3) ≤ 2 ^ 64 →
            ∃ k', img.codes[k']? = some (callee.prologue saved ++ innerCode ++ callee.epilogue ++
                instructions [.ret]) ∧
              ∀ pc, CodeAt code pc (callCode callee arguments.length) → ∀ s,
                callee.CalledFrom img k pc k' (callee.prologue saved).length
                  ((callee.prologue saved).length + innerCode.length) s := by
  obtain ⟨p, hcheck, hgenerate, hwell, hrec⟩ := generate_of_compile h
  refine ⟨p, hcheck, fun q hq body hbody loc token arguments index type he callee inner hindex
    hinner => ?_⟩
  have hmem := List.mem_of_getElem? hindex
  have hlength := Program.length_arguments hwell hrec hq hbody he hindex hinner
  have hfew : callee.parameters.length ≤ argumentRegisters.length :=
    Program.few_parameters hwell hmem hinner
  have hnames : (p.procedures.map Procedure.name).Nodup := by
    obtain ⟨tokens, parsed, hstages, hbound, rfl⟩ := exists_stages hcheck
    exact (hstages.names_nodup hbound).1
  obtain ⟨code, hcodeMem, hcode⟩ := Program.exists_procedureCode hgenerate hq hbody
  obtain ⟨_, -, hcallee⟩ := Program.exists_procedureCode hgenerate hmem hinner
  obtain ⟨saved, innerCode, hsaved, -, rfl⟩ := Program.procedureCode_parts hcallee
  refine ⟨hlength, hlength ▸ hfew, Frame.tiles callee, code, hcodeMem, saved, innerCode,
    Program.head?_procedureCode hcode, Program.exists_callCode hcode he hindex, ?_⟩
  · intro img k himg hk hfits
    obtain ⟨k', hentry, hk'⟩ := Program.exists_entry? hgenerate hnames hmem hinner hcallee himg
    refine ⟨k', hk', fun pc hat s => ?_⟩
    rw [hlength] at hat
    exact Procedure.calledFrom hk hat hentry hk' hsaved
      (Program.isVariadic_of_body? hwell hmem hinner) hfew hfits s

namespace Adding

theorem lengths_eq :
    (program.generate.map fun a => a.procedures.map List.length) = .ok [30, 56] := by
  decide +kernel

/-- Procedures that are laid out one line a byte, at distances of 256 bytes. -/
def image (codes : List Code) (hfew : codes.length ≤ 256) (hshort : ∀ code ∈ codes,
    code.length ≤ 256) : Image where
  codes := codes
  labels _ := 0
  address a := BitVec.ofNat 64 (256 * a.procedure + a.line)
  locate w := some ⟨w.toNat / 256, w.toNat % 256⟩
  locate_address := by
    intro a code i hcode hline
    have hprocedure := (List.getElem?_eq_some_iff.mp hcode).1
    have hline' := (List.getElem?_eq_some_iff.mp hline).1
    have hlength := hshort code (List.mem_of_getElem? hcode)
    have hmod : (256 * a.procedure + a.line) % 2 ^ 64 = 256 * a.procedure + a.line :=
      Nat.mod_eq_of_lt (by omega)
    rw [BitVec.toNat_ofNat, hmod]
    congr 2
    · omega
    · omega

/-- A state whose stack is not aligned. -/
def start : State where
  regs
    | .rsp => 4088
    | _ => 0
  mem a := a.setWidth 8
  flags := none

end Adding

open Adding in
theorem compile_calls_agree_adding : ∃ r, (compile source).result = .ok r ∧
    ∃ img : Image, img.codes = r.assembly.procedures ∧ ∃ k pc k' enter exit,
      add.CalledFrom img k pc k' enter exit start := by
  obtain ⟨a, hgenerate, hcompile⟩ := compile_of_checkSource checkSource_eq
  have hlengths : a.procedures.map List.length = [30, 56] := by
    have hall := lengths_eq
    rw [hgenerate] at hall
    exact Except.ok.inj hall
  have hfew : a.procedures.length ≤ 256 := by
    have hlength := congrArg List.length hlengths
    rw [List.length_map] at hlength
    simp [hlength]
  have hshort : ∀ code ∈ a.procedures, code.length ≤ 256 := by
    intro code hcode
    have hmem : code.length ∈ a.procedures.map List.length := List.mem_map_of_mem hcode
    rw [hlengths] at hmem
    simp only [List.mem_cons, List.not_mem_nil, or_false] at hmem
    omega
  obtain ⟨p, hcheck, hall⟩ := compile_calls_agree hcompile
  rw [checkSource_eq] at hcheck
  cases hcheck
  have hcall : call 79 [integer 1 84, integer 2 86] ∈ mainBody.parts := by
    simp [mainBody, Statement.parts, Statement.expressions, Statement.allExpressions,
      Expression.parts, Expression.operandParts, call]
  obtain ⟨-, -, -, code, hcode, saved, innerCode, -, ⟨pc, argumentsCode, -, hat⟩, hrun⟩ :=
    hall main (by simp [program]) mainBody rfl _ _ _ _ _ hcall add addBody rfl rfl
  obtain ⟨k, hk⟩ := List.mem_iff_getElem?.mp hcode
  obtain ⟨k', -, hcalled⟩ := hrun (image a.procedures hfew hshort) k rfl hk (by decide)
  exact ⟨_, hcompile, image a.procedures hfew hshort, rfl, k, _, k', _, _,
    hcalled _ hat.right start⟩

end ProcLang
