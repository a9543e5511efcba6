import ProcLang.Proofs.Machine.Execution

/-! Runs of straight code in which a call comes back with whatever the callee left behind. -/
namespace ProcLang.Machine

open Assembly

/-- The bytes from the stack pointer up to the frame, where operands wait. -/
def State.OnStack (s : State) (a : Word) : Prop :=
  (a - s.regs .rsp).toNat < (s.regs .rbp - s.regs .rsp).toNat

/-- A callee gives back the frame, the stack pointer and the operands that wait. -/
structure Restores (s s' : State) : Prop where
  rbp : s'.regs .rbp = s.regs .rbp
  rsp : s'.regs .rsp = s.regs .rsp
  mem : ∀ a, s.OnStack a → s'.mem a = s.mem a

/-- One line leads from a state to another. How a call of a label may come back is left to
`returns`. -/
inductive Passes (labels : Label → Word) (returns : Label → State → State → Prop) (s : State) :
    Line → State → Prop
  | line {l : Line} {s' : State} (h : runLine labels s l = some s') : Passes labels returns s l s'
  | call {l : Label} {s' : State} (h : returns l s s') :
      Passes labels returns s (.instruction (.call l)) s'

/-- The states `σ` are those of a run through code that starts at line `pc`. -/
def Trace (labels : Label → Word) (returns : Label → State → State → Prop) (σ : Nat → State)
    (pc : Nat) (code : Code) : Prop :=
  ∀ i l, code[i]? = some l → Passes labels returns (σ (pc + i)) l (σ (pc + i + 1))

variable {labels : Label → Word} {returns : Label → State → State → Prop} {σ : Nat → State}
  {pc : Nat} {code first rest : Code} {l : Line} {s s' : State}

theorem Passes.eq_of_runLine {s₁ : State} (h : Passes labels returns s l s')
    (hline : runLine labels s l = some s₁) : s₁ = s' := by
  cases h with
  | line h => exact Option.some.inj (hline.symm.trans h)
  | call h => cases hline

theorem Passes.returned {f : Label} (h : Passes labels returns s (.instruction (.call f)) s') :
    returns f s s' := by
  cases h with
  | line h => cases h
  | call h => exact h

namespace Trace

theorem left (h : Trace labels returns σ pc (first ++ rest)) : Trace labels returns σ pc first := by
  intro i l hi
  apply h i l
  have hlt := (List.getElem?_eq_some_iff.mp hi).1
  rwa [List.getElem?_append_left hlt]

theorem of_prefix (h : Trace labels returns σ pc code) (hfirst : first <+: code) :
    Trace labels returns σ pc first := by
  obtain ⟨rest, rfl⟩ := hfirst
  exact h.left

theorem right (h : Trace labels returns σ pc (first ++ rest)) :
    Trace labels returns σ (pc + first.length) rest := by
  intro i l hi
  have hat : (first ++ rest)[first.length + i]? = some l := by
    rwa [List.getElem?_append_right (by omega), Nat.add_sub_cancel_left]
  have hpasses := h _ l hat
  rwa [← Nat.add_assoc] at hpasses

theorem head (h : Trace labels returns σ pc (l :: code)) :
    Passes labels returns (σ pc) l (σ (pc + 1)) :=
  h 0 l rfl

theorem tail (h : Trace labels returns σ pc (l :: code)) :
    Trace labels returns σ (pc + 1) code := by
  have hsplit : Trace labels returns σ pc ([l] ++ code) := h
  exact hsplit.right

/-- Where code can be run without a callee, there is no choice. -/
theorem eq_of_run (h : Trace labels returns σ pc code)
    (hrun : run labels (σ pc) code = some s) : σ (pc + code.length) = s := by
  induction code generalizing pc with
  | nil => exact Option.some.inj hrun
  | cons l code ih =>
    rw [run_cons] at hrun
    obtain ⟨s₁, hline, hrest⟩ := Option.bind_eq_some_iff.mp hrun
    rw [h.head.eq_of_runLine hline] at hrest
    rw [List.length_cons, Nat.add_comm code.length, ← Nat.add_assoc]
    exact ih h.tail hrest

end Trace

/-- Why a run may not go on: a quotient does not fit, or a callee does not come back. -/
inductive Waits (returns : Label → State → State → Prop) (s : State) : Line → Prop
  | divide (h : Machine.divide (s.regs .rdx) (s.regs .rax) (s.regs .rcx) = none) :
      Waits returns s (.instruction .divide)
  | call {l : Label} (h : ∀ s', ¬returns l s s') : Waits returns s (.instruction (.call l))

end ProcLang.Machine

namespace ProcLang.Assembly

open Machine

/-- Flags are known behind the line. -/
def Line.compares : Line → Bool
  | .instruction .compare | .instruction .test => true
  | _ => false

/-- Control passes a line, given whether flags are known in front of it. -/
def Line.flows (compared : Bool) : Line → Bool
  | .instruction (.pushValue value) => decide (-2 ^ 31 ≤ value ∧ value < 2 ^ 31)
  | .instruction (.set _) => compared
  | .instruction (.jump _) | .instruction (.jumpIfEqual _) | .instruction .ret => false
  | _ => true

/-- Control passes all lines of some straight code. -/
def flows (compared : Bool) : Code → Bool
  | [] => true
  | l :: code => l.flows compared && flows l.compares code

variable {compared : Bool} {code first rest : Code} {l : Line}

theorem Line.flows_of_false (h : l.flows false = true) : l.flows compared = true := by
  unfold Line.flows at h ⊢
  split at h <;> simp_all

theorem flows_of_false (h : flows false code = true) : flows compared code = true := by
  cases code with
  | nil => rfl
  | cons l code =>
    rw [flows, Bool.and_eq_true] at h ⊢
    exact ⟨Line.flows_of_false h.1, h.2⟩

theorem flows_append (h : flows compared first = true) (h' : flows false rest = true) :
    flows compared (first ++ rest) = true := by
  induction first generalizing compared with
  | nil => exact flows_of_false h'
  | cons l first ih =>
    rw [flows, Bool.and_eq_true] at h
    rw [List.cons_append, flows, Bool.and_eq_true]
    exact ⟨h.1, ih h.2⟩

end ProcLang.Assembly

namespace ProcLang.Machine

open Assembly

variable {labels : Label → Word} {returns : Label → State → State → Prop} {σ : Nat → State}
  {pc : Nat} {code before after : Code} {l : Line} {s s' : State}
  {compared : Bool}

theorem Passes.flags (h : Passes labels returns s l s') (hl : l.compares = true) :
    s'.flags.isSome = true := by
  cases h with
  | call h => cases hl
  | line h =>
    unfold Line.compares at hl
    split at hl
    · cases h
      rfl
    · cases h
      rfl
    · cases hl

theorem passes_or_waits (hl : l.flows compared = true)
    (hflags : compared = true → s.flags.isSome = true) :
    (∃ s', Passes labels returns s l s') ∨ Waits returns s l := by
  cases l with
  | label _ => exact .inl ⟨s, .line rfl⟩
  | instruction i =>
    cases i with
    | pushValue value =>
      have hsmall : -2 ^ 31 ≤ value ∧ value < 2 ^ 31 := of_decide_eq_true hl
      refine .inl ⟨s.push (BitVec.ofInt 64 value), .line ?_⟩
      simp only [runLine, exec, if_pos hsmall]
    | set c =>
      obtain ⟨f, hf⟩ := Option.isSome_iff_exists.mp (hflags hl)
      refine .inl ⟨s.set .rax (setLow (s.regs .rax) 1 (holds f c).toNat), .line ?_⟩
      simp only [runLine, exec, hf, Option.map_some]
    | divide =>
      cases hdivide : divide (s.regs .rdx) (s.regs .rax) (s.regs .rcx) with
      | none => exact .inr (.divide hdivide)
      | some results =>
        refine .inl ⟨((s.set .rax results.1).set .rdx results.2).forget, .line ?_⟩
        simp only [runLine, exec, hdivide, Option.map_some]
    | call f =>
      by_cases hreturns : ∃ s', returns f s s'
      · obtain ⟨s', hs'⟩ := hreturns
        exact .inl ⟨s', .call hs'⟩
      · exact .inr (.call (not_exists.mp hreturns))
    | jump _ | jumpIfEqual _ | ret => cases hl
    | _ => exact .inl ⟨_, .line rfl⟩

/-- A run through the first lines of such code goes on or has to wait. -/
theorem Trace.goes_on (h : Trace labels returns σ pc before)
    (hcode : flows compared (before ++ l :: after) = true)
    (hflags : compared = true → (σ pc).flags.isSome = true) :
    (∃ s', Passes labels returns (σ (pc + before.length)) l s') ∨
      Waits returns (σ (pc + before.length)) l := by
  induction before generalizing pc compared with
  | nil =>
    rw [List.nil_append, flows, Bool.and_eq_true] at hcode
    exact passes_or_waits hcode.1 hflags
  | cons l' before ih =>
    rw [List.cons_append, flows, Bool.and_eq_true] at hcode
    have hrest := ih h.tail hcode.2 h.head.flags
    rw [Nat.add_right_comm] at hrest
    exact hrest

end ProcLang.Machine
