/-! Types of the language, their storage widths, and types with the positions of their parts. -/
namespace ProcLang

inductive Ty where
  | int
  | char
  | bool
  | void
  | pointer (base : Ty)
  deriving DecidableEq, Repr

/-- Bytes in a machine word. -/
def wordSize : Nat := 8

/-- Width of a memory operand. -/
inductive Width where
  | byte | word | dword | qword
  deriving DecidableEq, Repr

namespace Width

def label : Width → String
  | .byte => "Byte"
  | .word => "Word"
  | .dword => "Dword"
  | .qword => "Qword"

/-- Annotation of a memory operand. -/
def annotation : Width → String
  | .byte => "byte"
  | .word => "word"
  | .dword => "dword"
  | .qword => "qword"

/-- Directive that reserves data. -/
def directive : Width → String
  | .byte => "db"
  | .word => "dw"
  | .dword => "dd"
  | .qword => "dq"

/-- The part of the accumulator that holds a value. -/
def accumulator : Width → String
  | .byte => "al"
  | .word => "ax"
  | .dword => "eax"
  | .qword => "rax"

/-- Loading the part leaves the upper bits of the accumulator as they were. -/
def needsClear : Width → Bool
  | .byte | .word => true
  | .dword | .qword => false

def ofSize? : Nat → Option Width
  | 1 => some .byte
  | 2 => some .word
  | 4 => some .dword
  | 8 => some .qword
  | _ => none

end Width

namespace Ty

def display : Ty → String
  | .int => "int"
  | .char => "char"
  | .bool => "bool"
  | .void => "void"
  | .pointer base => base.display ++ "*"

/-- Size in bytes; `void` has none. -/
def size? : Ty → Option Nat
  | .int | .pointer _ => some wordSize
  | .char | .bool => some 1
  | .void => none

def width? (t : Ty) : Option Width :=
  t.size?.bind Width.ofSize?

def isPointer : Ty → Bool
  | .pointer _ => true
  | _ => false

end Ty

/-- A type with a position for itself and for each type that it points to. Positions serve
diagnostics only: two of these are the same type when their `ty` agree. -/
inductive TypeAt where
  | int (loc : Nat)
  | char (loc : Nat)
  | bool (loc : Nat)
  | void (loc : Nat)
  | pointer (base : TypeAt) (loc : Nat)
  deriving DecidableEq, Repr

namespace TypeAt

def ty : TypeAt → Ty
  | .int _ => .int
  | .char _ => .char
  | .bool _ => .bool
  | .void _ => .void
  | .pointer base _ => .pointer base.ty

def loc : TypeAt → Nat
  | .int loc | .char loc | .bool loc | .void loc | .pointer _ loc => loc

/-- The same type at another position; the types that it points to stay where they are. -/
def moveTo (loc : Nat) : TypeAt → TypeAt
  | .int _ => .int loc
  | .char _ => .char loc
  | .bool _ => .bool loc
  | .void _ => .void loc
  | .pointer base _ => .pointer base loc

def base? : TypeAt → Option TypeAt
  | .pointer base _ => some base
  | _ => none

/-- The type that a single name spells. -/
def ofName? (name : String) (loc : Nat) : Option TypeAt :=
  match name with
  | "int" => some (.int loc)
  | "char" => some (.char loc)
  | "bool" => some (.bool loc)
  | "void" => some (.void loc)
  | _ => none

@[simp] theorem ty_moveTo (t : TypeAt) (loc : Nat) : (t.moveTo loc).ty = t.ty := by
  cases t <;> rfl

@[simp] theorem loc_moveTo (t : TypeAt) (loc : Nat) : (t.moveTo loc).loc = loc := by
  cases t <;> rfl

end TypeAt

end ProcLang
