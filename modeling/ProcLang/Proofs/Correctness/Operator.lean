import ProcLang.Proofs.Codegen.Shape
import ProcLang.Proofs.Correctness.Stack
import ProcLang.Proofs.Semantics

/-! The code of operators computes what they denote. -/
namespace ProcLang

open Assembly Machine Codegen

namespace Machine

variable (a b : Word)

/-- The sign of a difference is wrong exactly if the difference overflows. -/
theorem sign_ne_overflow :
    ((a - b).msb != BitVec.ssubOverflow a b) = a.slt b := by
  have ha := BitVec.toInt_lt (x := a)
  have ha' := BitVec.le_toInt a
  have hb := BitVec.toInt_lt (x := b)
  have hb' := BitVec.le_toInt b
  have hsub : (a - b).toInt = (a.toInt - b.toInt).bmod (2 ^ 64) := BitVec.toInt_sub
  have hd := BitVec.toInt_lt (x := a - b)
  have hd' := BitVec.le_toInt (a - b)
  rw [Int.bmod_def] at hsub
  rw [Bool.eq_iff_iff, bne_iff_ne, BitVec.msb_eq_toInt, BitVec.slt_iff_toInt_lt,
    BitVec.ssubOverflow]
  have hwrap : (a - b).toInt = a.toInt - b.toInt ∨ (a - b).toInt = a.toInt - b.toInt + 2 ^ 64 ∨
      (a - b).toInt = a.toInt - b.toInt - 2 ^ 64 := by
    split at hsub <;> omega
  rw [ne_eq, ← Bool.decide_or, decide_eq_decide]
  omega

variable {a b} in
theorem divide_eq (h : ¬DivisionFault a b) :
    divide (signs a) a b = some (a.sdiv b, a.srem b) := by
  unfold DivisionFault at h
  rw [not_or, not_and_or] at h
  obtain ⟨hzero, hrange⟩ := h
  have hquotient := BitVec.toInt_sdiv_of_ne_or_ne a b hrange
  have hremainder := BitVec.toInt_srem a b
  have hlt := BitVec.toInt_lt (x := a.sdiv b)
  have hle := BitVec.le_toInt (a.sdiv b)
  have hwide : 2 ^ 64 * (signs a).toInt + a.toNat = a.toInt := by
    rw [BitVec.toInt_eq_msb_cond a, signs]
    by_cases hmsb : a.msb <;> simp [hmsb]
    omega
  unfold divide
  dsimp only
  rw [hwide, ← hquotient, ← hremainder, BitVec.ofInt_toInt, BitVec.ofInt_toInt,
    if_neg (not_or.mpr ⟨hzero, by omega⟩)]

variable {a b} in
theorem divide_eq_none (h : DivisionFault a b) : divide (signs a) a b = none := by
  unfold divide
  dsimp only
  rcases h with hzero | ⟨rfl, rfl⟩
  · rw [if_pos (.inl hzero)]
  · decide

theorem holds_less : holds (.ofDifference a b) .less = a.slt b :=
  sign_ne_overflow a b

theorem holds_greaterEqual : holds (.ofDifference a b) .greaterEqual = b.sle a := by
  rw [BitVec.sle_eq_not_slt, ← holds_less]
  simp [holds, bne]

theorem holds_lessEqual : holds (.ofDifference a b) .lessEqual = a.sle b := by
  have hless : holds (.ofDifference a b) .lessEqual = (a == b || a.slt b) := by
    rw [← holds_less]
    rfl
  rw [hless, BitVec.sle_eq_slt_or_eq, Bool.or_comm]

theorem holds_greater : holds (.ofDifference a b) .greater = b.slt a := by
  have hle : holds (.ofDifference a b) .greater = (!(a == b) && b.sle a) := by
    rw [← holds_greaterEqual]
    rfl
  rw [hle, Bool.eq_iff_iff, Bool.and_eq_true, Bool.not_eq_true', beq_eq_false_iff_ne, ne_eq,
    ← BitVec.toInt_inj, BitVec.sle_iff_toInt_le, BitVec.slt_iff_toInt_lt]
  omega

/-- A byte set in a cleared register. -/
theorem setLow_truth (b : Bool) : setLow 0#64 1 b.toNat = truth b := by
  cases b <;> rfl

end Machine

namespace Area

variable {f : Area} {labels : Label → Word} {k : Nat} {m : Memory} {s : State} {a b : Word}
  {vs : List Word}

theorem leaves_push {code : Code} {s₁ : State} {r : Register} {v : Word}
    (hrun : run labels s code = some s₁) (hstack : f.Stack k vs m s₁)
    (hkeeps : f.Keeps k s.mem s₁.mem) (hroom : k + vs.length < f.room) (hv : s₁.regs r = v) :
    f.Leaves labels s (code ++ instructions [.push r]) k (v :: vs) m := by
  refine ⟨s₁.push v, run_trans hrun ?_, hstack.push hroom v, hkeeps.trans ?_⟩
  · rw [← hv]
    rfl
  · exact (hstack.keeps_push hroom v).mono (by omega)

/-- A step of a fold takes two words off the stack and puts one on it. -/
theorem leaves_binary (op : BinaryOp) (h : f.Stack k (a :: b :: vs) m s) :
    f.Leaves labels s (instructions [.pop .rax, .pop .rcx, .binary op, .push .rax]) k
      (binary op a b :: vs) m := by
  have ha := h.pop (r := .rax) (by decide) (by decide)
  have hb := ha.pop (r := .rcx) (by decide) (by decide)
  have hrun : run labels s (instructions [.pop .rax, .pop .rcx, .binary op]) = some _ := rfl
  have hwithin := h.within
  simp only [List.length_cons] at hwithin
  refine leaves_push hrun (hb.congr (by simp) (by simp) (by simp)) (.of_eq (by simp) k)
    (by omega) ?_
  simp [h.top_eq, ha.top_eq]

theorem leaves_fold (op : BinaryOp) (h : f.Stack k (a :: vs) m s) :
    f.Leaves labels s (foldCode op (vs.length + 1)) k [vs.foldl (binary op) a] m := by
  induction vs generalizing a s with
  | nil => exact ⟨s, rfl, h, .of_eq rfl k⟩
  | cons b vs ih =>
    rw [List.length_cons, foldCode_succ]
    exact (leaves_binary op h).trans fun s' h' => ih h'

theorem leaves_unary (op : UnaryOp) (h : f.Stack k [a] m s) :
    f.Leaves labels s (unaryCode op) k [unary op a] m := by
  have ha := h.pop (r := .rax) (by decide) (by decide)
  have hrun : run labels s (instructions [.pop .rax, .unary op]) = some _ := rfl
  refine leaves_push hrun (ha.congr (by simp) (by simp) (by simp)) (.of_eq (by simp) k)
    h.within ?_
  simp [h.top_eq]

theorem leaves_divide {result : Register} {v : Word} (hfault : ¬DivisionFault a b)
    (hresult : result = .rax ∧ v = a.sdiv b ∨ result = .rdx ∧ v = a.srem b)
    (h : f.Stack k [a, b] m s) : f.Leaves labels s (divideCode result) k [v] m := by
  have ha := h.pop (r := .rax) (by decide) (by decide)
  have hb := ha.pop (r := .rcx) (by decide) (by decide)
  have hwithin := h.within
  have hrun : run labels s (instructions [.pop .rax, .pop .rcx, .extendSign, .divide]) =
      some ((((((s.pop .rax).pop .rcx).set .rdx (signs a)).set .rax (a.sdiv b)).set .rdx
        (a.srem b)).forget) := by
    simp [instructions, run_cons, runLine, exec, h.top_eq, ha.top_eq, divide_eq hfault]
  have hcode : divideCode result =
      instructions [.pop .rax, .pop .rcx, .extendSign, .divide] ++ instructions [.push result] :=
    rfl
  rw [hcode]
  refine leaves_push hrun (hb.congr (by simp) (by simp) (by simp)) (.of_eq (by simp) k)
    (by simp at hwithin ⊢; omega) ?_
  rcases hresult with ⟨rfl, rfl⟩ | ⟨rfl, rfl⟩ <;> simp

theorem leaves_compare (c : Comparison) (h : f.Stack k [a, b] m s) :
    f.Leaves labels s (compareCode c) k [truth (holds (.ofDifference a b) c)] m := by
  have ha := h.pop (r := .rdx) (by decide) (by decide)
  have hb := ha.pop (r := .rcx) (by decide) (by decide)
  have hwithin := h.within
  have hrun : run labels s (instructions [.pop .rdx, .pop .rcx, .clear, .compare, .set c]) =
      some _ := rfl
  refine leaves_push hrun (hb.congr (by simp) (by simp) (by simp)) (.of_eq (by simp) k)
    (by simp at hwithin ⊢; omega) ?_
  simp [h.top_eq, ha.top_eq, setLow_truth]

/-- Code of an operator on values finds its operands on the stack and leaves its result there. -/
theorem leaves_plain {op : Operator} {v : Word} (h : f.Stack k vs m s)
    (hop : op.denote vs = some v) : f.Leaves labels s (plainCode op vs.length) k [v] m := by
  -- faults and operators on storage denote nothing; the rest is in the order of `denote`
  revert hop
  fun_cases Operator.denote op vs <;> rintro ⟨⟩
  · exact leaves_fold .add h
  · exact leaves_fold .imul h
  · exact leaves_fold .sub h
  · exact leaves_unary .neg h
  · next hfault => exact leaves_divide hfault (.inl ⟨rfl, rfl⟩) h
  · next hfault => exact leaves_divide hfault (.inr ⟨rfl, rfl⟩) h
  · exact leaves_compare .equal h
  · exact leaves_compare .notEqual h
  · exact holds_less _ _ ▸ leaves_compare .less h
  · exact holds_lessEqual _ _ ▸ leaves_compare .lessEqual h
  · exact holds_greater _ _ ▸ leaves_compare .greater h
  · exact holds_greaterEqual _ _ ▸ leaves_compare .greaterEqual h
  · exact leaves_fold .and h
  · exact leaves_fold .and h
  · exact leaves_fold .or h
  · exact leaves_fold .or h
  · exact leaves_fold .xor h
  · exact leaves_unary .flip h
  · exact leaves_unary .not h
  · exact leaves_fold .sal h
  · exact leaves_fold .sar h

end Area

end ProcLang
