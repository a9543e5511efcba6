import ProcLang.Codegen.Program
import ProcLang.Proofs.Pass
import ProcLang.Proofs.Tree

/-! The code of an expression, taken apart by its operator. -/
namespace ProcLang

open Assembly

/-- Operators on values; their code differs in its instructions only. -/
def Operator.isPlain : Operator → Bool
  | .dereference | .reference | .assignment | .call _ => false
  | _ => true

namespace Codegen

/-- The code that follows the operands of an operation. -/
inductive Closes (g : Context) (count : Nat) (type : Option TypeAt) : Operator → Code → Prop
  | load {t : TypeAt} {w : Width} (htype : type = some t) (hwidth : widthOf t.ty = .ok w) :
      Closes g count type .dereference (instructions [.pop .rcx] ++ loadCode w .pointer)
  | call {callee : Option Nat} {q : Procedure} (hcallee : callee.bind (g.procedures[·]?) = some q)
      (hfew : count ≤ argumentRegisters.length) :
      Closes g count type (.call callee) (callCode q count)
  | plain {op : Operator} (hplain : op.isPlain = true) :
      Closes g count type op (plainCode op count)

theorem foldCode_succ (op : BinaryOp) (count : Nat) :
    foldCode op (count + 2) =
      instructions [.pop .rax, .pop .rcx, .binary op, .push .rax] ++ foldCode op (count + 1) := by
  simp [foldCode, List.replicate_succ]

variable {g : Codegen.Context} {code : Code}

variable {loc : Nat} {token : Token} {es : List Expression} {op : Option Operator}
  {type : Option TypeAt}

/-- Of operations, only one that follows a pointer has an address. -/
theorem addressCode_operation (h : addressCode g (.operation loc token es op type) = .ok code) :
    op = some .dereference ∧ ∃ e, es = [e] ∧ expressionCode g e = .ok code := by
  rw [addressCode.eq_def] at h
  split at h
  · next heq => cases heq
  · next e _ heq =>
    cases heq
    exact ⟨rfl, e, rfl, h⟩
  · cases h
  · cases h

theorem addressCode_of_ne (h : op ≠ some .dereference) :
    addressCode g (.operation loc token es op type) =
      .error (.internal (.noAddress (Expression.operation loc token es op type).display)) := by
  rw [addressCode.eq_def]
  split
  · next heq => cases heq
  · next heq =>
    cases heq
    exact absurd rfl h
  · next heq =>
    cases heq
    exact absurd rfl h
  · rfl

theorem expressionCode_reference
    (h : expressionCode g (.operation loc token es (some .reference) type) = .ok code) :
    ∃ e, es = [e] ∧ addressCode g e = .ok code := by
  rcases es with _ | ⟨e, _ | ⟨e', es⟩⟩
  · simp [expressionCode] at h
  · rw [expressionCode] at h
    exact ⟨e, rfl, h⟩
  · simp [expressionCode] at h

theorem expressionCode_assignment
    (h : expressionCode g (.operation loc token es (some .assignment) type) = .ok code) :
    ∃ target value, es = [target, value] ∧ ∃ targetCode valueCode w,
      addressCode g target = .ok targetCode ∧ expressionCode g value = .ok valueCode ∧
      (∃ t, target.type = .ok t ∧ widthOf t.ty = .ok w) ∧
      code = valueCode ++ targetCode ++
        instructions [.pop .rcx, .pop .rax, .store w, .push .rax] := by
  rcases es with _ | ⟨target, _ | ⟨value, _ | ⟨e, es⟩⟩⟩
  · simp [expressionCode] at h
  · simp [expressionCode] at h
  · rw [expressionCode] at h
    obtain ⟨valueCode, hvalue, h⟩ := Outcome.bind_eq_ok.mp h
    obtain ⟨targetCode, htarget, h⟩ := Outcome.bind_eq_ok.mp h
    obtain ⟨t, ht, h⟩ := Outcome.bind_eq_ok.mp h
    obtain ⟨w, hw, h⟩ := Outcome.bind_eq_ok.mp h
    cases h
    exact ⟨target, value, rfl, targetCode, valueCode, w, htarget, hvalue, ⟨t, ht, hw⟩, rfl⟩
  · simp [expressionCode] at h

theorem expressionCode_plain {op : Operator} (h : op.isPlain = true) :
    expressionCode g (.operation loc token es (some op) type) =
      (operandsCode g es >>= fun code => .ok (code ++ plainCode op es.length)) := by
  cases op with
  | dereference | reference | assignment | call _ => cases h
  | _ => rfl

/-- All other operations evaluate their operands first. -/
theorem expressionCode_operands {op : Operator}
    (h : expressionCode g (.operation loc token es (some op) type) = .ok code)
    (href : op ≠ .reference) (hassign : op ≠ .assignment) :
    ∃ operands tail, operandsCode g es = .ok operands ∧ Closes g es.length type op tail ∧
      code = operands ++ tail := by
  cases op with
  | reference => exact absurd rfl href
  | assignment => exact absurd rfl hassign
  | dereference =>
    rw [expressionCode] at h
    obtain ⟨operands, hoperands, h⟩ := Outcome.bind_eq_ok.mp h
    cases type with
    | none => cases h
    | some t =>
      obtain ⟨w, hw, h⟩ := Outcome.bind_eq_ok.mp h
      cases h
      exact ⟨operands, _, hoperands, .load rfl hw, List.append_assoc ..⟩
  | call callee =>
    rw [expressionCode] at h
    cases hcallee : callee.bind (g.procedures[·]?) with
    | none => simp [hcallee] at h
    | some q =>
      rw [hcallee] at h
      dsimp only at h
      split at h
      · cases h
      · next hfew =>
        obtain ⟨operands, hoperands, h⟩ := Outcome.bind_eq_ok.mp h
        cases h
        exact ⟨operands, _, hoperands, .call hcallee (Nat.le_of_not_lt hfew), rfl⟩
  | _ =>
    rw [expressionCode_plain rfl] at h
    obtain ⟨operands, hoperands, h⟩ := Outcome.bind_eq_ok.mp h
    cases h
    exact ⟨operands, _, hoperands, .plain rfl, rfl⟩

theorem expressionCode_of_closes {op : Operator} {operands tail : Code}
    (hoperands : operandsCode g es = .ok operands) (htail : Closes g es.length type op tail) :
    expressionCode g (.operation loc token es (some op) type) = .ok (operands ++ tail) := by
  cases htail with
  | load htype hwidth =>
    subst htype
    rw [expressionCode, hoperands, Outcome.ok_bind]
    simp only [hwidth, Outcome.ok_bind, List.append_assoc]
    rfl
  | call hcallee hfew =>
    rw [expressionCode, hcallee]
    simp only [Nat.not_lt.mpr hfew, if_false, hoperands, Outcome.ok_bind]
    rfl
  | plain hplain =>
    rw [expressionCode_plain hplain, hoperands]
    rfl

/-- Code that is put together from what single nodes add. -/
inductive Composed (g : Codegen.Context) : Code → Prop
  | nil : Composed g []
  | append {first rest : Code} (hfirst : Composed g first) (hrest : Composed g rest) :
      Composed g (first ++ rest)
  | literal {l : Literal} {code : Code} (h : literalCode l = .ok code) : Composed g code
  | load (w : Width) (a : Address) : Composed g (loadCode w a)
  | address (a : Address) : Composed g (instructions [.loadAddress a, .push .rax])
  | closes {op : Operator} {count : Nat} {type : Option TypeAt} {code : Code}
      (h : Closes g count type op code) : Composed g code
  | store (w : Width) : Composed g (instructions [.pop .rcx, .pop .rax, .store w, .push .rax])

theorem composed_operands {es : List Expression}
    (h : ∀ e ∈ es, ∀ code, expressionCode g e = .ok code → Composed g code)
    (hcode : operandsCode g es = .ok code) : Composed g code := by
  induction es generalizing code with
  | nil =>
    cases hcode
    exact .nil
  | cons e es ih =>
    rw [operandsCode] at hcode
    obtain ⟨rest, hrest, hcode⟩ := Outcome.bind_eq_ok.mp hcode
    obtain ⟨first, hfirst, hcode⟩ := Outcome.bind_eq_ok.mp hcode
    cases hcode
    exact .append (ih (fun e he => h e (by simp [he])) hrest) (h e (by simp) first hfirst)

theorem composed_expression (e : Expression) :
    (∀ code, expressionCode g e = .ok code → Composed g code) ∧
      ∀ code, addressCode g e = .ok code → Composed g code := by
  induction e with
  | literal l =>
    refine ⟨fun code h => ?_, fun code h => by cases h⟩
    rw [expressionCode] at h
    exact .literal h
  | var v =>
    refine ⟨fun code h => ?_, fun code h => ?_⟩
    · rw [expressionCode] at h
      obtain ⟨place, -, h⟩ := Outcome.bind_eq_ok.mp h
      obtain ⟨t, -, h⟩ := Outcome.bind_eq_ok.mp h
      obtain ⟨w, -, h⟩ := Outcome.bind_eq_ok.mp h
      cases h
      exact .load w place
    · rw [addressCode] at h
      obtain ⟨place, -, h⟩ := Outcome.bind_eq_ok.mp h
      cases h
      exact .address place
  | operation loc token es op type ih =>
    refine ⟨fun code h => ?_, fun code h => ?_⟩
    · cases op with
      | none => simp [expressionCode] at h
      | some op =>
        by_cases href : op = .reference
        · subst href
          obtain ⟨e, rfl, h⟩ := expressionCode_reference h
          exact (ih e (by simp)).2 code h
        by_cases hassign : op = .assignment
        · subst hassign
          obtain ⟨target, value, rfl, targetCode, valueCode, w, htarget, hvalue, -, rfl⟩ :=
            expressionCode_assignment h
          have hvalue := (ih value (by simp)).1 _ hvalue
          have htarget := (ih target (by simp)).2 _ htarget
          exact .append (.append hvalue htarget) (.store w)
        obtain ⟨operands, tail, hoperands, htail, rfl⟩ := expressionCode_operands h href hassign
        exact .append (composed_operands (fun e he => (ih e he).1) hoperands) (.closes htail)
    · obtain ⟨-, e, rfl, he⟩ := addressCode_operation h
      exact (ih e (by simp)).1 code he

theorem conditionCode_iff {e : Expression} {target : Label} :
    conditionCode g e target = .ok code ↔ ∃ test, expressionCode g e = .ok test ∧
      code = test ++ instructions [.pop .rax, .test, .jumpIfEqual target] := by
  unfold conditionCode
  constructor
  · intro h
    obtain ⟨test, htest, h⟩ := Outcome.bind_eq_ok.mp h
    cases h
    exact ⟨test, htest, rfl⟩
  · rintro ⟨test, htest, rfl⟩
    rw [htest]
    rfl

end Codegen

end ProcLang
