import Mathlib.Logic.Relation
import ProcLang.Assembly.Instruction
import ProcLang.Proofs.Machine.Memory

/-! Execution of instructions on registers, flags and memory. -/
namespace ProcLang

open Assembly

/-- The label that a line declares. -/
def Assembly.Line.label? : Line → Option Label
  | .label l => some l
  | .instruction _ => none

/-- The labels that some code declares. -/
def Assembly.labelsOf (code : Code) : List Label :=
  code.filterMap Line.label?

namespace Machine

/-- What a comparison leaves behind. -/
structure Flags where
  zero : Bool
  sign : Bool
  overflow : Bool

/-- The flags of the difference of two words. -/
def Flags.ofDifference (a b : Word) : Flags :=
  ⟨a == b, (a - b).msb, BitVec.ssubOverflow a b⟩

/-- Flags are known after a comparison only. Other arithmetic leaves them unspecified, and nothing
can be told from unspecified flags. -/
structure State where
  regs : Register → Word
  mem : Memory
  flags : Option Flags

namespace State

def set (s : State) (r : Register) (v : Word) : State :=
  { s with regs := fun r' => if r' = r then v else s.regs r' }

def forget (s : State) : State :=
  { s with flags := none }

/-- The stack grows downwards, by a word at a time. -/
def push (s : State) (v : Word) : State :=
  { s.set .rsp (s.regs .rsp - 8) with mem := s.mem.write (s.regs .rsp - 8) 8 v.toNat }

/-- The word on top of the stack. -/
def top (s : State) : Word :=
  BitVec.ofNat 64 (s.mem.read (s.regs .rsp) 8)

/-- The stack pointer moves before the target is set, which may be the stack pointer. -/
def pop (s : State) (r : Register) : State :=
  (s.set .rsp (s.regs .rsp + 8)).set r s.top

end State

/-- A register whose lowest `n` bytes are replaced. -/
def setLow (old : Word) (n v : Nat) : Word :=
  BitVec.ofNat 64 (old.toNat / 256 ^ n * 256 ^ n + v % 256 ^ n)

/-- A load of 32 bits clears the upper half of its register; one of 8 or 16 bits keeps the rest. -/
def loaded (width : Width) (old : Word) (v : Nat) : Word :=
  match width with
  | .byte | .word => setLow old width.bytes v
  | .dword | .qword => BitVec.ofNat 64 v

def address (labels : Label → Word) (s : State) : Address → Word
  | .frame offset => s.regs .rbp + BitVec.ofNat 64 offset
  | .data label => labels label
  | .pointer => s.regs .rcx

/-- Shift counts are taken from the lowest six bits. -/
def binary (op : BinaryOp) (a b : Word) : Word :=
  match op with
  | .add => a + b
  | .sub => a - b
  | .imul => a * b
  | .and => a &&& b
  | .or => a ||| b
  | .xor => a ^^^ b
  | .sal => a <<< (b.toNat % 64)
  | .sar => a.sshiftRight (b.toNat % 64)

def unary (op : UnaryOp) (a : Word) : Word :=
  match op with
  | .neg => -a
  | .not => ~~~a
  | .flip => a ^^^ 1

def holds (f : Flags) : Comparison → Bool
  | .equal => f.zero
  | .notEqual => !f.zero
  | .less => f.sign != f.overflow
  | .lessEqual => f.zero || f.sign != f.overflow
  | .greater => !f.zero && f.sign == f.overflow
  | .greaterEqual => f.sign == f.overflow

/-- The upper half of a signed number whose lower half is `a`. -/
def signs (a : Word) : Word :=
  if a.msb then -1 else 0

/-- The signed quotient and remainder of a number of two words. There are none if the quotient does
not fit into a word. -/
def divide (high low divisor : Word) : Option (Word × Word) :=
  let dividend := 2 ^ 64 * high.toInt + low.toNat
  let quotient := dividend.tdiv divisor.toInt
  if divisor = 0 ∨ quotient < -2 ^ 63 ∨ 2 ^ 63 ≤ quotient then none
  else some (BitVec.ofInt 64 quotient, BitVec.ofInt 64 (dividend.tmod divisor.toInt))

/-- One instruction that passes control to the next one. The others have no result here, and
neither has the push of a value that does not fit into 32 bits. -/
def exec (labels : Label → Word) (s : State) : Instruction → Option State
  | .push r => some (s.push (s.regs r))
  | .pushValue value =>
    if -2 ^ 31 ≤ value ∧ value < 2 ^ 31 then some (s.push (BitVec.ofInt 64 value)) else none
  | .pushZero => some (s.push 0)
  | .pop r => some (s.pop r)
  | .move target source => some (s.set target (s.regs source))
  | .moveValue target value => some (s.set target (BitVec.ofInt 64 value))
  | .load width a =>
    some (s.set .rax (loaded width (s.regs .rax) (s.mem.read (address labels s a) width.bytes)))
  | .store width =>
    some { s with mem := s.mem.write (s.regs .rcx) width.bytes (s.regs .rax).toNat }
  | .loadAddress a => some (s.set .rax (address labels s a))
  | .clear => some (s.set .rax 0).forget
  | .binary op => some (s.set .rax (binary op (s.regs .rax) (s.regs .rcx))).forget
  | .unary op => some (s.set .rax (unary op (s.regs .rax))).forget
  | .extendSign => some (s.set .rdx (signs (s.regs .rax)))
  | .divide =>
    (divide (s.regs .rdx) (s.regs .rax) (s.regs .rcx)).map fun (quotient, remainder) =>
      ((s.set .rax quotient).set .rdx remainder).forget
  | .compare => some { s with flags := some (.ofDifference (s.regs .rdx) (s.regs .rcx)) }
  | .test => some { s with flags := some (.ofDifference (s.regs .rax) 0) }
  | .set c => s.flags.map fun f =>
    s.set .rax (setLow (s.regs .rax) 1 (holds f c).toNat)
  | .drop bytes => some (s.set .rsp (s.regs .rsp + BitVec.ofNat 64 bytes)).forget
  | .alignStack => some (s.set .rsp (s.regs .rsp &&& BitVec.ofInt 64 (-16))).forget
  | .extendByte => some (s.set .rax (BitVec.ofNat 64 ((s.regs .rax).toNat % 256)))
  | .jump _ | .jumpIfEqual _ | .call _ | .ret => none

/-- Where a label stands in the code of a procedure. -/
def target? (code : Code) (l : Label) : Option Nat :=
  code.findIdx? (· = .label l)

/-- One step at a line of a procedure. Jumps go to the label of that name. -/
def step (labels : Label → Word) (code : Code) (pc : Nat) (s : State) : Option (Nat × State) :=
  match code[pc]? with
  | none => none
  | some (.label _) => some (pc + 1, s)
  | some (.instruction (.jump l)) => (target? code l).map fun pc' => (pc', s)
  | some (.instruction (.jumpIfEqual l)) =>
    match s.flags with
    | none => none
    | some f => if f.zero then (target? code l).map fun pc' => (pc', s) else some (pc + 1, s)
  | some (.instruction i) => (exec labels s i).map fun s' => (pc + 1, s')

/-- Some number of steps. -/
def Reaches (labels : Label → Word) (code : Code) : Nat × State → Nat × State → Prop :=
  Relation.ReflTransGen fun c c' => step labels code c.1 c.2 = some c'

/-- One line of straight code. -/
def runLine (labels : Label → Word) (s : State) : Line → Option State
  | .label _ => some s
  | .instruction i => exec labels s i

/-- Straight code, from its first line to its last. -/
def run (labels : Label → Word) (s : State) (code : Code) : Option State :=
  code.foldlM (runLine labels) s

/-- Some code stands at a line of the whole. -/
def CodeAt (whole : Code) (pc : Nat) (code : Code) : Prop :=
  code <+: whole.drop pc

namespace State

variable (s : State) (r r' : Register) (v : Word)

@[simp] theorem regs_set : (s.set r v).regs r' = if r' = r then v else s.regs r' := rfl

@[simp] theorem mem_set : (s.set r v).mem = s.mem := rfl

@[simp] theorem regs_forget : s.forget.regs = s.regs := rfl

@[simp] theorem mem_forget : s.forget.mem = s.mem := rfl

@[simp] theorem regs_push :
    (s.push v).regs r = if r = .rsp then s.regs .rsp - 8 else s.regs r := rfl

@[simp] theorem mem_push : (s.push v).mem = s.mem.write (s.regs .rsp - 8) 8 v.toNat := rfl

theorem regs_foldl_push {r : Register} (hr : r ≠ .rsp) (vs : List Word) (s : State) :
    (vs.foldl push s).regs r = s.regs r := by
  induction vs generalizing s with
  | nil => rfl
  | cons v vs ih => rw [List.foldl_cons, ih, regs_push, if_neg hr]

@[simp] theorem regs_pop :
    (s.pop r).regs r' =
      if r' = r then s.top else if r' = .rsp then s.regs .rsp + 8 else s.regs r' := rfl

@[simp] theorem mem_pop : (s.pop r).mem = s.mem := rfl

end State

variable {labels : Label → Word} {s s' s'' : State} {whole code first rest : Code} {pc : Nat}

@[simp] theorem run_nil : run labels s [] = some s := rfl

theorem run_append (s : State) (first rest : Code) :
    run labels s (first ++ rest) = (run labels s first).bind (run labels · rest) := by
  unfold run
  rw [List.foldlM_append]
  rfl

theorem run_trans (h : run labels s first = some s') (h' : run labels s' rest = some s'') :
    run labels s (first ++ rest) = some s'' := by
  rw [run_append, h]
  exact h'

theorem run_cons {l : Line} :
    run labels s (l :: code) = (runLine labels s l).bind (run labels · code) := rfl

namespace CodeAt

theorem cast {pc' : Nat} (h : CodeAt whole pc code) (hpc : pc = pc') : CodeAt whole pc' code :=
  hpc ▸ h

theorem left (h : CodeAt whole pc (first ++ rest)) : CodeAt whole pc first :=
  (List.prefix_append first rest).trans h

theorem right (h : CodeAt whole pc (first ++ rest)) :
    CodeAt whole (pc + first.length) rest := by
  obtain ⟨after, hafter⟩ := h
  refine ⟨after, ?_⟩
  rw [← List.drop_drop, ← hafter, List.append_assoc, List.drop_left]

theorem head {l : Line} (h : CodeAt whole pc (l :: code)) : whole[pc]? = some l := by
  obtain ⟨after, hafter⟩ := h
  rw [← Nat.add_zero pc, ← List.getElem?_drop, ← hafter]
  rfl

theorem tail {l : Line} (h : CodeAt whole pc (l :: code)) : CodeAt whole (pc + 1) code := by
  have hsplit : CodeAt whole pc ([l] ++ code) := h
  exact hsplit.right

end CodeAt

theorem step_of_runLine {l : Line} (hat : whole[pc]? = some l)
    (h : runLine labels s l = some s') : step labels whole pc s = some (pc + 1, s') := by
  unfold step
  rw [hat]
  cases l with
  | label _ =>
    cases h
    rfl
  | instruction i =>
    have hexec : exec labels s i = some s' := h
    cases i with
    | jump _ | jumpIfEqual _ | call _ | ret => cases hexec
    | _ => simp [hexec]

theorem reaches_label {l : Label} (hat : whole[pc]? = some (.label l)) (s : State) :
    Reaches labels whole (pc, s) (pc + 1, s) :=
  .single (step_of_runLine hat rfl)

/-- Straight code runs from its first line to the line after it. -/
theorem reaches_of_run (hat : CodeAt whole pc code) (h : run labels s code = some s') :
    Reaches labels whole (pc, s) (pc + code.length, s') := by
  induction code generalizing pc s with
  | nil =>
    cases h
    exact .refl
  | cons l code ih =>
    rw [run_cons, Option.bind_eq_some_iff] at h
    obtain ⟨s₁, hl, hcode⟩ := h
    have hrest := ih hat.tail hcode
    rw [Nat.add_assoc, Nat.add_comm 1] at hrest
    exact .head (step_of_runLine hat.head hl) hrest

/-- A run that cannot go on has come to the only place where it can end. -/
theorem Reaches.eq_of_stuck {c c₁ c₂ : Nat × State} (h₁ : Reaches labels code c c₁)
    (h₂ : Reaches labels code c c₂) (hstuck₁ : step labels code c₁.1 c₁.2 = none)
    (hstuck₂ : step labels code c₂.1 c₂.2 = none) : c₁ = c₂ := by
  have hunique : Relator.RightUnique fun c c' : Nat × State =>
      step labels code c.1 c.2 = some c' := by
    intro c a b ha hb
    exact Option.some.inj (ha.symm.trans hb)
  have hstays : ∀ {a b : Nat × State}, Reaches labels code a b →
      step labels code a.1 a.2 = none → a = b := by
    intro a b hreaches hstuck
    rcases hreaches.cases_head with heq | ⟨next, hstep, -⟩
    · exact heq
    · rw [hstuck] at hstep
      cases hstep
  rcases h₁.total_of_right_unique hunique h₂ with hreaches | hreaches
  · exact hstays hreaches hstuck₁
  · exact (hstays hreaches hstuck₂).symm

/-- A run ends behind the last line. -/
theorem step_length (s : State) : step labels code code.length s = none := by
  unfold step
  rw [List.getElem?_length]

/-- A procedure does not go on by itself after it has returned. -/
theorem step_ret (hat : whole[pc]? = some (.instruction .ret)) :
    step labels whole pc s = none := by
  unfold step
  rw [hat]
  rfl

theorem step_jump {l : Label} {dest : Nat} (hat : whole[pc]? = some (.instruction (.jump l)))
    (hl : target? whole l = some dest) : step labels whole pc s = some (dest, s) := by
  unfold step
  rw [hat]
  simp [hl]

theorem step_jumpIfEqual {l : Label} {dest : Nat} {flags : Flags}
    (hat : whole[pc]? = some (.instruction (.jumpIfEqual l))) (hl : target? whole l = some dest)
    (hflags : s.flags = some flags) :
    step labels whole pc s = some (if flags.zero then dest else pc + 1, s) := by
  unfold step
  rw [hat]
  simp only [hflags, hl]
  split <;> rfl

/-- A label that stands in one place only is found there. -/
theorem target?_eq_some {l : Label} (hnodup : (labelsOf whole).Nodup)
    (hat : whole[pc]? = some (.label l)) : target? whole l = some pc := by
  unfold target?
  induction whole generalizing pc with
  | nil => cases hat
  | cons line whole ih =>
    cases pc with
    | zero =>
      cases hat
      simp [List.findIdx?_cons]
    | succ pc =>
      rw [List.getElem?_cons_succ] at hat
      have hmem : l ∈ labelsOf whole :=
        List.mem_filterMap.mpr ⟨.label l, List.mem_of_getElem? hat, rfl⟩
      have hne : line ≠ .label l := by
        rintro rfl
        exact (List.nodup_cons.mp hnodup).1 hmem
      have hnodup' : (labelsOf whole).Nodup :=
        hnodup.sublist ((List.sublist_cons_self line whole).filterMap _)
      simp [List.findIdx?_cons, hne, ih hnodup' hat]

end Machine

end ProcLang
