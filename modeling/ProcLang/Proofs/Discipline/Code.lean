import ProcLang.Proofs.Arity
import ProcLang.Proofs.Correctness.Labels
import ProcLang.Proofs.Discipline.Height

/-! Expressions and addresses leave one word on the stack, and statements none. -/
namespace ProcLang.Codegen

open Assembly

variable {g : Codegen.Context} {targets : Label → Prop} {code : Code} {h : Nat}

theorem climbs_load (w : Width) (a : Address) : Climbs targets h (loadCode w a) (h + 1) := by
  unfold loadCode
  cases w <;> exact .of_instructions rfl (by simp [Width.needsClear, Line.target?])

theorem climbs_literal {l : Literal} (hcode : literalCode l = .ok code) :
    Climbs targets h code (h + 1) := by
  obtain ⟨value, loc⟩ := l
  cases value with
  | integer value =>
    unfold literalCode at hcode
    dsimp only at hcode
    split at hcode <;> cases hcode <;> exact .of_instructions rfl (by simp [Line.target?])
  | boolean value =>
    cases hcode
    exact .of_instructions rfl (by simp [Line.target?])
  | character value =>
    cases hcode
    exact climbs_load .byte _
  | text bytes =>
    cases hcode
    exact .of_instructions rfl (by simp [Line.target?])

/-- Each step takes two operands and leaves one. -/
theorem climbs_fold (op : BinaryOp) (count : Nat) :
    Climbs targets (h + (count + 1)) (foldCode op (count + 1)) (h + 1) := by
  induction count with
  | zero => exact .nil _
  | succ count ih =>
    rw [foldCode_succ]
    have hstep : Climbs targets (h + (count + 1 + 1))
        (instructions [.pop .rax, .pop .rcx, .binary op, .push .rax]) (h + (count + 1)) :=
      .of_instructions rfl (by simp [Line.target?])
    exact hstep.append ih

theorem climbs_plain {op : Operator} {count : Nat} (hplain : op.isPlain = true)
    (hcount : op.Counts count) : Climbs targets (h + count) (plainCode op count) (h + 1) := by
  have hfold : ∀ b, 0 < count → Climbs targets (h + count) (foldCode b count) (h + 1) := by
    intro b hpos
    obtain ⟨n, rfl⟩ := Nat.exists_eq_add_one.mpr hpos
    exact climbs_fold b n
  cases op with
  | dereference | reference | assignment | call _ => cases hplain
  | addition | multiplication =>
    have hle : 2 ≤ count := hcount
    exact hfold _ (by omega)
  | subtraction | bitwiseAnd | logicalAnd | bitwiseOr | logicalOr | bitwiseXor | shiftLeft
  | shiftRight =>
    have htwo : count = 2 := hcount
    exact hfold _ (by omega)
  | negation | bitwiseNot | logicalNot =>
    have hone : count = 1 := hcount
    subst hone
    exact .of_instructions rfl (by simp [Line.target?])
  | division | modulus | equality | notEquality | lessThan | lessThanEquals | greaterThan
  | greaterThanEquals =>
    have htwo : count = 2 := hcount
    subst htwo
    exact .of_instructions rfl (by simp [Line.target?])

/-- Arguments are taken off the stack. -/
theorem climbs_pops {rs : List Register} (hrs : ∀ r ∈ rs, r ≠ .rsp ∧ r ≠ .rbp) :
    Climbs targets (h + rs.length) (instructions (rs.map .pop)) h := by
  induction rs with
  | nil => exact .nil h
  | cons r rs ih =>
    obtain ⟨hrsp, hrbp⟩ := hrs r (by simp)
    have hpop : (Line.instruction (.pop r)).heightAfter (h + (rs.length + 1)) =
        some (h + rs.length) := by
      simp [Line.heightAfter, Instruction.heightAfter, hrsp, hrbp]
    exact .straight hpop rfl (ih fun r' hr' => hrs r' (by simp [hr']))

theorem callCode_eq (q : Procedure) (count : Nat) :
    callCode q count = instructions ((argumentRegisters.take count).map .pop) ++
      callBlock q.isVariadic (.procedure q.name) ++
      instructions ((if q.returns.ty.width? = some .byte then [.extendByte] else []) ++
        [.push .rax]) := by
  simp only [callCode, callBlock, instructions, List.map_append, List.append_assoc]

theorem climbs_call {q : Procedure} {count : Nat} (hfew : count ≤ argumentRegisters.length) :
    Climbs targets (h + count) (callCode q count) (h + 1) := by
  have hpops : Climbs targets (h + count)
      (instructions ((argumentRegisters.take count).map .pop)) h := by
    have hlength : (argumentRegisters.take count).length = count := List.length_take_of_le hfew
    have hregisters : ∀ r ∈ argumentRegisters.take count, r ≠ .rsp ∧ r ≠ .rbp := by
      intro r hr
      have hall : ∀ r ∈ argumentRegisters, r ≠ .rsp ∧ r ≠ .rbp := by decide
      exact hall r (List.mem_of_mem_take hr)
    have htaken : Climbs targets (h + (argumentRegisters.take count).length)
        (instructions ((argumentRegisters.take count).map .pop)) h := climbs_pops hregisters
    rwa [hlength] at htaken
  have hresult : Climbs targets h (instructions ((if q.returns.ty.width? = some .byte then
      [.extendByte] else []) ++ [.push .rax])) (h + 1) := by
    split <;> exact .of_instructions rfl (by simp [Line.target?])
  rw [callCode_eq, List.append_assoc]
  exact hpops.append (.call _ _ hresult)

theorem climbs_closes {op : Operator} {count : Nat} {type : Option TypeAt}
    (hcode : Closes g count type op code) (hcount : op.Counts count) :
    Climbs targets (h + count) code (h + 1) := by
  cases hcode with
  | load _ _ =>
    have hone : count = 1 := hcount
    subst hone
    have hpop : Climbs targets (h + 1) (instructions [.pop .rcx]) h :=
      .of_instructions rfl (by simp [Line.target?])
    exact hpop.append (climbs_load _ _)
  | call _ hfew => exact climbs_call hfew
  | plain hplain => exact climbs_plain hplain hcount

theorem climbs_operands {es : List Expression}
    (ih : ∀ e ∈ es, ∀ h code, expressionCode g e = .ok code → Climbs targets h code (h + 1))
    (hcode : operandsCode g es = .ok code) : Climbs targets h code (h + es.length) := by
  induction es generalizing code with
  | nil =>
    cases hcode
    exact .nil h
  | cons e es ihes =>
    rw [operandsCode] at hcode
    obtain ⟨rest, hrest, hcode⟩ := Outcome.bind_eq_ok.mp hcode
    obtain ⟨first, hfirst, hcode⟩ := Outcome.bind_eq_ok.mp hcode
    cases hcode
    exact (ihes (fun e he => ih e (by simp [he])) hrest).append (ih e (by simp) _ first hfirst)

/-- The code of an expression or of an address leaves one word more than it found. -/
theorem climbs_expression {e : Expression} (hcounted : ∀ e' ∈ e.parts, e'.Counted) :
    (∀ h code, expressionCode g e = .ok code → Climbs targets h code (h + 1)) ∧
      ∀ h code, addressCode g e = .ok code → Climbs targets h code (h + 1) := by
  induction e with
  | literal l =>
    refine ⟨fun h code hcode => ?_, fun h code hcode => by cases hcode⟩
    rw [expressionCode] at hcode
    exact climbs_literal hcode
  | var v =>
    refine ⟨fun h code hcode => ?_, fun h code hcode => ?_⟩
    · rw [expressionCode] at hcode
      obtain ⟨place, -, hcode⟩ := Outcome.bind_eq_ok.mp hcode
      obtain ⟨t, -, hcode⟩ := Outcome.bind_eq_ok.mp hcode
      obtain ⟨w, -, hcode⟩ := Outcome.bind_eq_ok.mp hcode
      cases hcode
      exact climbs_load w place
    · rw [addressCode] at hcode
      obtain ⟨place, -, hcode⟩ := Outcome.bind_eq_ok.mp hcode
      cases hcode
      exact .of_instructions rfl (by simp [Line.target?])
  | operation loc token es op type ih =>
    have hes : ∀ e ∈ es, ∀ e' ∈ e.parts, e'.Counted := fun e he e' he' =>
      hcounted e' (Expression.mem_parts_operation.mpr (.inr ⟨e, he, he'⟩))
    have hvalue := fun e he => (ih e he (hes e he)).1
    have haddress := fun e he => (ih e he (hes e he)).2
    refine ⟨fun h code hcode => ?_, fun h code hcode => ?_⟩
    · cases op with
      | none => simp [expressionCode] at hcode
      | some op =>
        by_cases href : op = .reference
        · subst href
          obtain ⟨e, rfl, hcode⟩ := expressionCode_reference hcode
          exact haddress e (by simp) h code hcode
        by_cases hassign : op = .assignment
        · subst hassign
          obtain ⟨target, value, rfl, targetCode, valueCode, w, htarget, hvalueCode, -, rfl⟩ :=
            expressionCode_assignment hcode
          have hstore : Climbs targets (h + 1 + 1)
              (instructions [.pop .rcx, .pop .rax, .store w, .push .rax]) (h + 1) :=
            .of_instructions rfl (by simp [Line.target?])
          exact ((hvalue value (by simp) h _ hvalueCode).append
            (haddress target (by simp) _ _ htarget)).append hstore
        obtain ⟨operands, tail, hoperands, htail, rfl⟩ :=
          expressionCode_operands hcode href hassign
        have hcount : op.Counts es.length := hcounted _ (Expression.self_mem_parts _)
        exact (climbs_operands hvalue hoperands).append (climbs_closes htail hcount)
    · obtain ⟨-, e, rfl, hpointer⟩ := addressCode_operation hcode
      exact hvalue e (by simp) h code hpointer

theorem climbs_condition {e : Expression} {target : Label}
    (hcounted : ∀ e' ∈ e.parts, e'.Counted) (hcode : conditionCode g e target = .ok code)
    (htarget : targets target) : Climbs targets 0 code 0 := by
  obtain ⟨test, htest, rfl⟩ := conditionCode_iff.mp hcode
  have hbranch : Climbs targets 0 [.instruction (.jumpIfEqual target)] 0 := by
    refine .control rfl (fun l hl => ?_) (.nil 0)
    cases hl
    exact htarget
  exact ((climbs_expression hcounted).1 0 test htest).append
    (.straight rfl rfl (.straight rfl rfl hbranch))

theorem climbs_statements {ss : List Statement}
    (ih : ∀ s ∈ ss, ∀ code, statementCode g s = .ok code → Climbs (Inside code) 0 code 0)
    (hcode : statementsCode g ss = .ok code) : Climbs (Inside code) 0 code 0 := by
  induction ss generalizing code with
  | nil =>
    cases hcode
    exact .nil 0
  | cons s ss ihss =>
    rw [statementsCode] at hcode
    obtain ⟨first, hfirst, hcode⟩ := Outcome.bind_eq_ok.mp hcode
    obtain ⟨rest, hrest, hcode⟩ := Outcome.bind_eq_ok.mp hcode
    cases hcode
    refine .append ((ih s (by simp) first hfirst).mono fun l hl => ?_)
      ((ihss (fun s hs => ih s (by simp [hs])) hrest).mono fun l hl => ?_)
    · exact hl.imp_right fun hl => by simp [hl]
    · exact hl.imp_right fun hl => by simp [hl]

theorem climbs_label (l : Label) : Climbs targets 0 [.label l] 0 :=
  .control rfl (fun _ h => by cases h) (.nil 0)

theorem climbs_jump {l : Label} (hl : targets l) : Climbs targets 0 [.instruction (.jump l)] 0 := by
  refine .control rfl (fun target htarget => ?_) (.nil 0)
  cases htarget
  exact hl

/-- The code of a statement leaves the stack as it was, and jumps to its own labels or to the
exit. -/
theorem climbs_statement {s : Statement} (hcounted : ∀ e ∈ s.parts, e.Counted)
    (hcode : statementCode g s = .ok code) : Climbs (Inside code) 0 code 0 := by
  induction s generalizing code with
  | block loc body ih =>
    rw [statementCode] at hcode
    refine climbs_statements (fun s hs code hcode => ih s hs (fun e he => ?_) hcode) hcode
    exact hcounted e (Statement.mem_parts_block.mpr ⟨s, hs, he⟩)
  | ifThen loc condition yes ih =>
    rw [statementCode] at hcode
    obtain ⟨test, htest, hcode⟩ := Outcome.bind_eq_ok.mp hcode
    obtain ⟨yesCode, hyes, hcode⟩ := Outcome.bind_eq_ok.mp hcode
    cases hcode
    rw [Statement.parts_ifThen, List.forall_mem_append] at hcounted
    refine ((climbs_condition hcounted.1 htest ?_).append
      ((ih hcounted.2 hyes).mono fun l hl => ?_)).append (climbs_label _)
    · simp [Inside]
    · exact hl.imp_right fun hl => by simp [hl]
  | ifThenElse loc condition yes no ihy ihn =>
    rw [statementCode] at hcode
    obtain ⟨test, htest, hcode⟩ := Outcome.bind_eq_ok.mp hcode
    obtain ⟨yesCode, hyes, hcode⟩ := Outcome.bind_eq_ok.mp hcode
    obtain ⟨noCode, hno, hcode⟩ := Outcome.bind_eq_ok.mp hcode
    cases hcode
    rw [Statement.parts_ifThenElse, List.forall_mem_append, List.forall_mem_append] at hcounted
    obtain ⟨⟨hcondition, hyesCounted⟩, hnoCounted⟩ := hcounted
    refine ((((climbs_condition hcondition htest ?_).append
      ((ihy hyesCounted hyes).mono fun l hl => ?_)).append
      ((climbs_jump ?_).append (climbs_label _))).append
      ((ihn hnoCounted hno).mono fun l hl => ?_)).append (climbs_label _)
    · simp [Inside]
    · exact hl.imp_right fun hl => by simp [hl]
    · simp [Inside]
    · exact hl.imp_right fun hl => by simp [hl]
  | loop loc condition body ih =>
    rw [statementCode] at hcode
    obtain ⟨test, htest, hcode⟩ := Outcome.bind_eq_ok.mp hcode
    obtain ⟨bodyCode, hbody, hcode⟩ := Outcome.bind_eq_ok.mp hcode
    cases hcode
    rw [Statement.parts_loop, List.forall_mem_append] at hcounted
    refine (((climbs_label _).append (climbs_condition hcounted.1 htest ?_)).append
      ((ih hcounted.2 hbody).mono fun l hl => ?_)).append
      ((climbs_jump ?_).append (climbs_label _))
    · simp [Inside]
    · exact hl.imp_right fun hl => by simp [hl]
    · simp [Inside]
  | ret loc value =>
    have hexit : ∀ code, Inside code .exit := fun _ => .inl rfl
    cases value with
    | none =>
      cases hcode
      exact climbs_jump (hexit _)
    | some e =>
      rw [statementCode] at hcode
      obtain ⟨value, hvalue, hcode⟩ := Outcome.bind_eq_ok.mp hcode
      cases hcode
      rw [Statement.parts_ret_some] at hcounted
      exact ((climbs_expression hcounted).1 0 value hvalue).append
        (.straight rfl rfl (climbs_jump (hexit _)))
  | expression e =>
    rw [statementCode] at hcode
    obtain ⟨value, hvalue, hcode⟩ := Outcome.bind_eq_ok.mp hcode
    cases hcode
    rw [Statement.parts_expression] at hcounted
    exact ((climbs_expression hcounted).1 0 value hvalue).append
      (.of_instructions rfl (by simp [Line.target?]))

end ProcLang.Codegen
