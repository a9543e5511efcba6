import ProcLang.Proofs.Machine.Execution

/-! Execution across procedures. -/
namespace ProcLang.Machine

open Assembly

/-- A line of a procedure. -/
structure Place where
  procedure : Nat
  line : Nat

/-- Procedures that lie in memory. A label and the line behind it share an address, so only
instructions are told apart by theirs. -/
structure Image where
  codes : List Code
  labels : Label → Word
  address : Place → Word
  locate : Word → Option Place
  locate_address : ∀ {a code i}, codes[a.procedure]? = some code →
    code[a.line]? = some (.instruction i) → locate (address a) = some a

namespace Image

variable (img : Image)

/-- The procedure that starts with a label. -/
def entry? (l : Label) : Option Nat :=
  img.codes.findIdx? fun code => code.head? = some (.label l)

/-- One step. A call pushes the address of the line behind it, and `ret` goes to the address on top
of the stack. -/
def step (a : Place) (s : State) : Option (Place × State) :=
  match img.codes[a.procedure]? with
  | none => none
  | some code =>
    match code[a.line]? with
    | some (.instruction (.call l)) =>
      (img.entry? l).map fun k => (⟨k, 0⟩, s.push (img.address ⟨a.procedure, a.line + 1⟩))
    | some (.instruction .ret) =>
      (img.locate s.top).map fun a' => (a', s.set .rsp (s.regs .rsp + 8))
    | _ =>
      (Machine.step img.labels code a.line s).map fun (line, s') => (⟨a.procedure, line⟩, s')

/-- Some number of steps. -/
def Reaches : Place × State → Place × State → Prop :=
  Relation.ReflTransGen fun c c' => img.step c.1 c.2 = some c'

variable {img} {code : Code} {k pc : Nat} {s s' : State} {l : Label}

theorem step_of_step {pc' : Nat} (hcode : img.codes[k]? = some code)
    (h : Machine.step img.labels code pc s = some (pc', s')) :
    img.step ⟨k, pc⟩ s = some (⟨k, pc'⟩, s') := by
  have hkeep := h
  unfold Machine.step at h
  unfold step
  simp only [hcode]
  split at h
  case h_5 i _ _ hat =>
    cases i with
    | call l => cases h
    | ret => cases h
    | _ => simp [hat, hkeep]
  all_goals next hat => simp [hat, hkeep]

/-- What a procedure does by itself it does in the image. -/
theorem reaches_of_reaches {c c' : Nat × State} (hcode : img.codes[k]? = some code)
    (h : Machine.Reaches img.labels code c c') :
    img.Reaches (⟨k, c.1⟩, c.2) (⟨k, c'.1⟩, c'.2) := by
  induction h with
  | refl => exact .refl
  | tail _ hstep ih => exact ih.tail (step_of_step hcode hstep)

theorem reaches_of_run {part : Code} (hcode : img.codes[k]? = some code)
    (hat : CodeAt code pc part) (h : run img.labels s part = some s') :
    img.Reaches (⟨k, pc⟩, s) (⟨k, pc + part.length⟩, s') :=
  reaches_of_reaches hcode (Machine.reaches_of_run hat h)

theorem step_call {callee : Nat} (hcode : img.codes[k]? = some code)
    (hat : code[pc]? = some (.instruction (.call l))) (hentry : img.entry? l = some callee) :
    img.step ⟨k, pc⟩ s = some (⟨callee, 0⟩, s.push (img.address ⟨k, pc + 1⟩)) := by
  simp [step, hcode, hat, hentry]

/-- `ret` goes back to an instruction whose address is on top of the stack. -/
theorem step_ret {caller : Code} {k' pc' : Nat} {i : Instruction}
    (hcode : img.codes[k]? = some code) (hat : code[pc]? = some (.instruction .ret))
    (hcaller : img.codes[k']? = some caller) (hline : caller[pc']? = some (.instruction i))
    (htop : s.top = img.address ⟨k', pc'⟩) :
    img.step ⟨k, pc⟩ s = some (⟨k', pc'⟩, s.set .rsp (s.regs .rsp + 8)) := by
  have hlocate := img.locate_address (a := ⟨k', pc'⟩) hcaller hline
  simp [step, hcode, hat, htop, hlocate]

end Image

end ProcLang.Machine
