import ProcLang.Proofs.Cleanliness.Expression

/-! Compiled expressions of narrow types leave clean words, whatever callees leave behind. -/
namespace ProcLang

open Assembly Machine Codegen

namespace Program

variable {p : Program} {q : Procedure} {labels : Label → Word}
  {returns : Label → State → State → Prop} {s : State} {room bound : Nat}

theorem hosts {hroom : 8 * room ≤ 2 ^ 64} (hfits : q.Fits room s)
    (hdata : p.GlobalsApart labels room s) (hrestores : ∀ l s s', returns l s s' → Restores s s')
    (hbelow : ∀ q' ∈ p.procedures, q'.returns.ty = .bool → ∀ s s',
      returns (.procedure q'.name) s s' → (s'.regs .rax).toNat % 256 < bound) :
    (Procedure.bareArea (s.regs .rsp) (s.regs .rbp) room hroom).Hosts labels returns
      (p.envAt q labels room s) (p.codeContext q) (p.context q) bound := by
  refine ⟨?_, realizesAt hfits hdata, hrestores, hbelow, ?_⟩
  · show (s.regs .rbp - s.regs .rsp).toNat + 8 * room ≤ 2 ^ 64
    unfold Procedure.Fits at hfits
    omega
  · intro index q' signature hq' hsignature
    change (p.procedures.map Procedure.signature)[index]? = some signature at hsignature
    change p.procedures[index]? = some q' at hq'
    rw [List.getElem?_map, hq', Option.map_some] at hsignature
    cases hsignature
    rfl

/-- A run through the code of an expression ends with a clean word on top of the stack. -/
theorem clean_of_trace {e : Expression} {τ : Ty} {code : Code} {σ : Nat → State} {bits : Nat}
    (hbits : 1 ≤ bits) (h : (p.context q).HasType e τ)
    (hparts : ∀ e' ∈ e.parts, (p.context q).Recorded e' ∧ e'.Counted)
    (hcode : expressionCode (p.codeContext q) e = .ok code)
    (hfits : q.Fits (e.depth + 4) (σ 0)) (hdata : p.GlobalsApart labels (e.depth + 4) (σ 0))
    (hrestores : ∀ l s s', returns l s s' → Restores s s') (ht : Trace labels returns σ 0 code)
    (hspares : Throughout (p.codeContext q) (.value e) 0 (SparesStack (p.codeContext q) σ))
    (hbelow : ∀ q' ∈ p.procedures, q'.returns.ty = .bool → ∀ s s',
      returns (.procedure q'.name) s s' → (s'.regs .rax).toNat % 256 < 2 ^ bits)
    (hloads : Throughout (p.codeContext q) (.value e) 0
      (LoadsBelow (2 ^ bits) (p.context q) (p.codeContext q) labels σ)) :
    (σ code.length).regs .rbp = (σ 0).regs .rbp ∧
      (σ code.length).regs .rsp = (σ 0).regs .rsp - 8 ∧
      τ.Clean (2 ^ bits) (σ code.length).top := by
  let f := Procedure.bareArea ((σ 0).regs .rsp) ((σ 0).regs .rbp) (e.depth + 4) hfits.room_le
  have hsites : Throughout (p.codeContext q) (.value e) 0
      (Area.Site (p.context q) (p.codeContext q) labels σ (2 ^ bits)) :=
    fun before e' hemitted => ⟨hspares before e' hemitted, hloads before e' hemitted⟩
  have hwithin : 0 + e.depth + 4 ≤ f.room := by
    show 0 + e.depth + 4 ≤ e.depth + 4
    omega
  have hsettles : f.Settles labels returns σ (p.codeContext q) (p.context q) (2 ^ bits) (.value e)
      e.depth (τ.Clean (2 ^ bits)) :=
    (Area.settles_expression (hosts hfits hdata hrestores hbelow) hbits h hparts).1
  obtain ⟨v, ⟨hstack, -⟩, hclean⟩ :=
    hsettles code 0 0 hcode ht hsites (Procedure.stack_bareArea (σ 0)) hwithin
  rw [Nat.zero_add] at hstack
  rw [hstack.top_eq]
  exact ⟨hstack.rbp, hstack.rsp, hclean⟩

end Program

theorem toNat_lt_two {v : Word} : v.toNat < 2 ↔ v = 0 ∨ v = 1 := by
  constructor
  · intro h
    have hcases : v.toNat = 0 ∨ v.toNat = 1 := by omega
    exact hcases.imp (fun h => BitVec.eq_of_toNat_eq h) fun h => BitVec.eq_of_toNat_eq h
  · rintro (rfl | rfl) <;> decide

/-- Expressions of type `char` or `bool` in a compiled source leave a word below 256, and truth
values stay truth values. Their code runs on unless a quotient does not fit into a word or a callee
does not come back. What memory holds, and so what arguments had in their upper bytes, does not
matter, nor does what callees leave in `rax`. They have to restore the frame pointer, the stack
pointer and the operands on the stack, and no store through a pointer may write to these. The frame,
the operands and the words that the code takes have to lie apart from each other and from the data.
If further the bytes that truth values are loaded from are 0 or 1, and so is the lowest byte that
comes back from a callee with a truth value, a truth value is 0 or 1. -/
theorem compile_narrow_clean {source : String} {r : Compilation}
    (h : (compile source).result = .ok r) :
    ∃ p : Program, (checkSource source).result = .ok (p, r.warnings) ∧
      ∀ q ∈ p.procedures, ∀ body, q.body? = some body → ∀ e ∈ body.parts, ∀ τ,
        τ = .char ∨ τ = .bool → (p.context q).HasType e τ →
        ∃ code, expressionCode (p.codeContext q) e = .ok code ∧
          ∀ (labels : Label → Word) (returns : Label → State → State → Prop) (σ : Nat → State),
            (∀ before l after, code = before ++ l :: after → Trace labels returns σ 0 before →
              (∃ s', Passes labels returns (σ before.length) l s') ∨
                Waits returns (σ before.length) l) ∧
            ((∀ l s s', returns l s s' → Restores s s') → q.Fits (e.depth + 4) (σ 0) →
              (∀ d ∈ r.assembly.data, ∀ i < d.size,
                e.depth + 4 ≤ slot ((σ 0).regs .rsp) (labels d.label + BitVec.ofNat 64 i)) →
              Trace labels returns σ 0 code →
              Throughout (p.codeContext q) (.value e) 0 (SparesStack (p.codeContext q) σ) →
              (σ code.length).regs .rbp = (σ 0).regs .rbp ∧
                (σ code.length).regs .rsp = (σ 0).regs .rsp - 8 ∧
                (σ code.length).top.toNat < 256 ∧
                (τ = .bool →
                  Throughout (p.codeContext q) (.value e) 0
                    (LoadsBelow 2 (p.context q) (p.codeContext q) labels σ) →
                  (∀ q' ∈ p.procedures, q'.returns.ty = .bool → ∀ s s',
                    returns (.procedure q'.name) s s' → (s'.regs .rax).toNat % 256 < 2) →
                  (σ code.length).top = 0 ∨ (σ code.length).top = 1)) := by
  obtain ⟨p, hcheck, hgenerate, hwell, hrec⟩ := generate_of_compile h
  refine ⟨p, hcheck, fun q hq body hbody e he τ hnarrow hτ => ?_⟩
  have hparts : ∀ e' ∈ e.parts, (p.context q).Recorded e' ∧ e'.Counted := by
    intro e' he'
    have hinside := Statement.parts_subset he he'
    exact ⟨hrec q hq body hbody e' hinside, counted_of_checkSource hcheck hq hbody e' hinside⟩
  obtain ⟨code, hcode⟩ := (expressionCode_eq_ok (Program.serves hwell hq) hτ
    fun e' he' => (hparts e' he').1).1
  refine ⟨code, hcode, fun labels returns σ => ⟨?_, ?_⟩⟩
  · rintro before l after rfl ht
    have hflows := flows_composed ((composed_expression e).1 _ hcode)
    have hon := ht.goes_on hflows (by simp)
    rwa [Nat.zero_add] at hon
  · intro hrestores hfits hdata ht hspares
    have hglobals := (Program.forall_data hgenerate
      (P := fun a => e.depth + 4 ≤ slot ((σ 0).regs .rsp) a) hdata).1
    -- with eight bits to a truth value, nothing needs to be known of loads and results
    have hbyte : (σ code.length).regs .rbp = (σ 0).regs .rbp ∧
        (σ code.length).regs .rsp = (σ 0).regs .rsp - 8 ∧
        τ.Clean (2 ^ 8) (σ code.length).top := by
      refine Program.clean_of_trace (by decide) hτ hparts hcode hfits hglobals hrestores ht hspares
        ?_ ?_
      · intro _ _ _ _ s' _
        omega
      · intro _ _ _ _ _ _ _
        exact BitVec.isLt _
    obtain ⟨hrbp, hrsp, hclean⟩ := hbyte
    refine ⟨hrbp, hrsp, ?_, ?_⟩
    · rcases hnarrow with rfl | rfl
      · exact hclean
      · exact hclean
    · rintro rfl hloads hbelow
      have htruth : Ty.Clean (2 ^ 1) .bool (σ code.length).top :=
        (Program.clean_of_trace le_rfl hτ hparts hcode hfits hglobals hrestores ht hspares hbelow
          hloads).2.2
      exact toNat_lt_two.mp htruth

namespace Parity

/-- A truth value that is passed and one that a procedure outside returns. -/
def source : String :=
  "extern bool odd()proc bool both(bool b)\x7breturn(&& b(odd))\x7d"

def argument : Variable :=
  ⟨"b", 50, some (.parameter 0), some (.bool 50)⟩

def call : Expression :=
  .operation 51 ⟨.name, "odd", 52⟩ [] (some (.call (some 0))) (some (.bool 51))

def conjunction : Expression :=
  .operation 46 ⟨.sign .doubleAmpersand, "&&", 47⟩ [.var argument, call] (some .logicalAnd)
    (some (.bool 46))

def odd : Procedure :=
  ⟨"odd", 12, .bool 7, [], .external, []⟩

def body : Statement :=
  .block 39 [.ret 40 (some conjunction)]

def both : Procedure :=
  ⟨"both", 27, .bool 22, [.var ⟨"b", .bool 32, 37⟩], .internal [] body,
    [("b", .var (.parameter 0))]⟩

def program : Program :=
  ⟨[], [odd, both], [], [("odd", .procedure 0), ("both", .procedure 1)]⟩

theorem checkSource_eq : (checkSource source).result = .ok (program, []) := by
  decide +kernel

theorem data_eq {a : Assembly} (h : program.generate = .ok a) : a.data = [] :=
  Program.data_of_generate h (by decide +kernel)

def code : Code :=
  callCode odd 0 ++ loadCode .byte (.frame 0) ++ foldCode .and 2

theorem code_eq : expressionCode (program.codeContext both) conjunction = .ok code := by
  decide +kernel

theorem depth_eq : conjunction.depth = 2 := by
  decide

/-- The callee sets all bits of `rax` but seven. -/
def callee (s : State) : State :=
  s.set .rax 0xFFFFFFFFFFFFFF01

/-- The argument is true, and all other bytes of its slot are set. -/
def start : State where
  regs
    | .rbp => 4096
    | .rsp => 4080
    | _ => 0
  mem := fun a => if a = 4096 then 1 else 0xFF
  flags := none

/-- The states of the only run. -/
def states : Nat → State
  | 0 => start
  | n + 1 =>
    match code[n]? with
    | some (.instruction (.call _)) => callee (states n)
    | some l => (runLine (fun _ => 0) (states n) l).getD (states n)
    | none => states n

def returns (_ : Label) (s s' : State) : Prop :=
  s' = callee s

theorem trace : Trace (fun _ => 0) returns states 0 code := by
  intro i l hi
  have hlt : i < 15 := (List.getElem?_eq_some_iff.mp hi).1
  interval_cases i <;> cases hi <;> first | exact .line rfl | exact .call rfl

theorem loaded : ((states 9).mem (address (fun _ => 0) (states 9) (.frame 0))).toNat < 2 := by
  decide

theorem hasType : (program.context both).HasType conjunction .bool := by
  have hargument : (program.context both).HasType (.var argument) (TypeAt.bool 32).ty :=
    .var (d := ⟨"b", .bool 32, 37⟩) rfl rfl
  have haccepts : odd.signature.Accepts (([] : List TypeAt).map TypeAt.ty) :=
    .exact rfl (by decide)
  have hcall : (program.context both).HasType call odd.signature.returns.ty :=
    .operation (by simp [Operator.PlacesOk]) .nil (.call rfl haccepts)
  refine .operation (by simp [Operator.PlacesOk]) (.cons hargument (.cons hcall .nil)) ?_
  exact .logical (by simp [Operator.IsLogical]) (by decide)

theorem throughout {P : Nat → Expression → Prop} (hwhole : P 0 conjunction)
    (hargument : P 8 (.var argument)) (hcall : P 0 call) :
    Throughout (program.codeContext both) (.value conjunction) 0 P := by
  refine .operation (by simp) (by simp) hwhole ?_
  intro earlier e later before heq hlater
  rcases earlier with _ | ⟨e₁, _ | ⟨e₂, earlier⟩⟩
  · cases heq
    have hbefore : operandsCode (program.codeContext both) [call] = .ok (callCode odd 0) := by
      decide +kernel
    cases hbefore.symm.trans hlater
    exact .var hargument
  · cases heq
    cases hlater
    exact .operation (by simp) (by simp) hcall (by simp)
  · simp at heq

theorem loadsBelow : Throughout (program.codeContext both) (.value conjunction) 0
    (LoadsBelow 2 (program.context both) (program.codeContext both) (fun _ => 0) states) := by
  apply throughout
  · intro _ first a hcode
    have hsplit : code.take 13 ++ instructions [.binary .and, .push .rax] =
        first ++ instructions [.load .byte a, .push .rax] :=
      Except.ok.inj (code_eq.symm.trans hcode)
    cases (List.append_inj' hsplit rfl).2
  · intro _ first a hcode
    have hsplit : instructions [.clear] ++ instructions [.load .byte (.frame 0), .push .rax] =
        first ++ instructions [.load .byte a, .push .rax] := Except.ok.inj hcode
    obtain ⟨rfl, hload⟩ := List.append_inj' hsplit rfl
    cases hload
    exact loaded
  · intro _ first a hcode
    have hsplit : (callCode odd 0).take 6 ++ instructions [.extendByte, .push .rax] =
        first ++ instructions [.load .byte a, .push .rax] := Except.ok.inj hcode
    cases (List.append_inj' hsplit rfl).2

end Parity

open Parity in
/-- The upper bytes of the argument and of the result of the callee are all set. -/
theorem compile_narrow_clean_parity : ∃ r, (compile source).result = .ok r ∧
    ∃ code, expressionCode (program.codeContext both) conjunction = .ok code ∧
      Trace (fun _ => 0) returns states 0 code ∧ (states code.length).top.toNat < 256 ∧
      ((states code.length).top = 0 ∨ (states code.length).top = 1) := by
  obtain ⟨a, hgenerate, hcompile⟩ := compile_of_checkSource checkSource_eq
  have hdata := data_eq hgenerate
  obtain ⟨p, hcheck, hall⟩ := compile_narrow_clean hcompile
  rw [checkSource_eq] at hcheck
  cases hcheck
  have hmem : conjunction ∈ body.parts := by
    refine Statement.mem_parts.mpr ⟨_, ?_, conjunction.self_mem_parts⟩
    simp [body, Statement.expressions, Statement.allExpressions]
  obtain ⟨code', hcode', hrun⟩ := hall both (by simp [program]) body rfl _ hmem _ (.inr rfl) hasType
  cases code_eq.symm.trans hcode'
  have hrestores : ∀ l s s', returns l s s' → Restores s s' := by
    rintro l s s' rfl
    exact ⟨rfl, rfl, fun _ _ => rfl⟩
  have hfits : both.Fits (conjunction.depth + 4) (states 0) := by
    rw [depth_eq]
    decide
  have hspares : Throughout (program.codeContext both) (.value conjunction) 0
      (SparesStack (program.codeContext both) states) := by
    apply throughout <;> intro loc token target value type heq <;> cases heq
  obtain ⟨-, -, hbyte, htruth⟩ := (hrun (fun _ => 0) returns states).2 hrestores hfits
    (by simp [hdata]) trace hspares
  refine ⟨_, hcompile, code, code_eq, trace, hbyte, htruth rfl loadsBelow ?_⟩
  rintro q' - - s s' rfl
  show (0xFFFFFFFFFFFFFF01 : Word).toNat % 256 < 2
  decide

end ProcLang
