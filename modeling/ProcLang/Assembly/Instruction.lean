import ProcLang.Ty

/-! The instructions that compiled programs are made of, as data. -/
namespace ProcLang.Assembly

inductive Register where
  | rax | rcx | rdx | rdi | rsi | r8 | r9 | r10 | rsp | rbp
  deriving DecidableEq, Repr

/-- Registers that carry the arguments of a call, in order. -/
def argumentRegisters : List Register :=
  [.rdi, .rsi, .rdx, .rcx, .r8, .r9]

/-- What labels stand for. Numbers are positions in the source, which keep labels of one kind
apart. -/
inductive Label where
  | procedure (name : String)
  /-- The end of the procedure that holds it. -/
  | exit
  | afterIf (loc : Nat)
  | elseBranch (loc : Nat)
  | afterIfElse (loc : Nat)
  | loopStart (loc : Nat)
  | afterLoop (loc : Nat)
  | global (name : String)
  | character (loc : Nat)
  | string (loc : Nat)
  deriving DecidableEq, Repr

/-- A location in memory. -/
inductive Address where
  /-- A slot above the frame pointer. -/
  | frame (offset : Nat)
  | data (label : Label)
  /-- Where `rcx` points. -/
  | pointer
  deriving DecidableEq, Repr

/-- Operations on `rax` and `rcx` that leave their result in `rax`. -/
inductive BinaryOp where
  | add | sub | imul | and | or | xor
  /-- Shift left by `cl`. -/
  | sal
  /-- Arithmetic shift right by `cl`. -/
  | sar
  deriving DecidableEq, Repr

/-- Operations on `rax`. -/
inductive UnaryOp where
  | neg
  | not
  /-- Flips the lowest bit. -/
  | flip
  deriving DecidableEq, Repr

/-- Outcomes of a signed comparison. -/
inductive Comparison where
  | equal | notEqual | less | lessEqual | greater | greaterEqual
  deriving DecidableEq, Repr

inductive Instruction where
  | push (r : Register)
  | pushValue (value : Int)
  /-- A zeroed slot. -/
  | pushZero
  | pop (r : Register)
  | move (target source : Register)
  | moveValue (target : Register) (value : Int)
  /-- Loads into the accumulator's part of the width. -/
  | load (width : Width) (address : Address)
  /-- Stores the accumulator's part of the width where `rcx` points. -/
  | store (width : Width)
  /-- Puts an address into `rax`. -/
  | loadAddress (address : Address)
  /-- Zeroes `rax`. -/
  | clear
  | binary (op : BinaryOp)
  | unary (op : UnaryOp)
  /-- Extends the sign of `rax` into `rdx`. -/
  | extendSign
  /-- Divides by `rcx`: the quotient goes to `rax`, the remainder to `rdx`. -/
  | divide
  /-- Compares `rdx` with `rcx`. -/
  | compare
  /-- Sets `al` to the outcome of the last comparison. -/
  | set (c : Comparison)
  /-- Compares `rax` with zero. -/
  | test
  /-- Jumps if the last comparison found equality. -/
  | jumpIfEqual (target : Label)
  | jump (target : Label)
  | call (target : Label)
  /-- Takes bytes off the stack. -/
  | drop (bytes : Nat)
  /-- Rounds `rsp` down to a multiple of sixteen. -/
  | alignStack
  /-- Extends `al` with zeros to `rax`. -/
  | extendByte
  | ret
  deriving DecidableEq, Repr

inductive Line where
  | label (l : Label)
  | instruction (i : Instruction)
  deriving DecidableEq, Repr

abbrev Code := List Line

/-- Initialised memory: a label, and values of one width. -/
structure Datum where
  label : Label
  width : Width
  values : List Nat
  deriving DecidableEq, Repr

end ProcLang.Assembly

namespace ProcLang

/-- A compiled program. -/
structure Assembly where
  /-- Procedures that are linked in. -/
  externals : List String
  /-- The code of each procedure that has a body. -/
  procedures : List Assembly.Code
  data : List Assembly.Datum
  deriving DecidableEq, Repr

end ProcLang
