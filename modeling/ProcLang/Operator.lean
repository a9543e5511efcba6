import ProcLang.Token.Basic

/-! Operators, and the choice of one by a token and its number of operands. -/
namespace ProcLang

inductive Operator where
  | addition | subtraction | negation | multiplication | dereference | division | modulus
  | assignment
  | equality | notEquality | lessThan | lessThanEquals | greaterThan | greaterThanEquals
  | logicalAnd | logicalOr | logicalNot
  | bitwiseAnd | bitwiseOr | bitwiseXor | bitwiseNot
  | shiftLeft | shiftRight
  | reference
  /-- A call; `callee` is the index of the procedure, once it is known. -/
  | call (callee : Option Nat)
  deriving DecidableEq, Repr

namespace Operator

def description : Operator → String
  | .addition => "addition"
  | .subtraction => "subtraction"
  | .negation => "negation"
  | .multiplication => "multiplication"
  | .dereference => "dereference"
  | .division => "division"
  | .modulus => "modulus"
  | .assignment => "assignment"
  | .equality => "equality"
  | .notEquality => "not-equality"
  | .lessThan => "less-than"
  | .lessThanEquals => "less-than-or-equals"
  | .greaterThan => "greater-than"
  | .greaterThanEquals => "greater-than-or-equals"
  | .logicalAnd => "logical and"
  | .logicalOr => "logical or"
  | .logicalNot => "logical not"
  | .bitwiseAnd => "bitwise and"
  | .bitwiseOr => "bitwise or"
  | .bitwiseXor => "bitwise xor"
  | .bitwiseNot => "bitwise not"
  | .shiftLeft => "shift left"
  | .shiftRight => "shift right"
  | .reference => "reference"
  | .call _ => "call"

/-- The result is a storage location, so the operation may be assigned to. -/
def yieldsPlace : Operator → Bool
  | .dereference => true
  | _ => false

end Operator

/-- Operand counts that a token accepts in operator position. -/
structure Arity where
  /-- What the token stands for, over all counts. -/
  name : String
  min : Nat
  max : Option Nat
  deriving DecidableEq, Repr

namespace Arity

def exactly (name : String) (n : Nat) : Arity := ⟨name, n, some n⟩

def atLeast (name : String) (n : Nat) : Arity := ⟨name, n, none⟩

def accepts (a : Arity) (count : Nat) : Bool :=
  a.min ≤ count && a.max.all (count ≤ ·)

def bounds (a : Arity) : String :=
  match a.max with
  | none => s!"at least {a.min}"
  | some max => if max = a.min then s!"exactly {max}" else s!"between {a.min} and {max}"

def ofSign : Token.Sign → Arity
  | .plus => atLeast "addition" 2
  | .dash => ⟨"subtraction/negation", 1, some 2⟩
  | .star => atLeast "multiplication/dereference" 1
  | .slash => exactly "division" 2
  | .percent => exactly "modulus" 2
  | .equals => exactly "assignment" 2
  | .doubleEquals => exactly "equality" 2
  | .bangEquals => exactly "not-equality" 2
  | .leftAngle => exactly "less-than" 2
  | .leftAngleEquals => exactly "less-than-or-equals" 2
  | .rightAngle => exactly "greater-than" 2
  | .rightAngleEquals => exactly "greater-than-or-equals" 2
  | .doubleAmpersand => exactly "logical and" 2
  | .doubleBar => exactly "logical or" 2
  | .bang => exactly "logical not" 1
  | .ampersand => exactly "bitwise and" 2
  | .bar => exactly "bitwise or" 2
  | .caret => exactly "bitwise xor" 2
  | .tilde => exactly "bitwise not" 1
  | .doubleLeftAngle => exactly "shift left" 2
  | .doubleRightAngle => exactly "shift right" 2
  | .atSign => exactly "reference" 1

/-- A name in operator position calls a procedure, with any number of arguments. -/
def ofKind? : Token.Kind → Option Arity
  | .sign s => some (ofSign s)
  | .name => some (atLeast "call" 0)
  | _ => none

end Arity

namespace Operator

/-- The operator of a sign. Only `-` and `*` depend on the number of operands. -/
def ofSign (s : Token.Sign) (count : Nat) : Operator :=
  match s with
  | .plus => .addition
  | .dash => if count = 1 then .negation else .subtraction
  | .star => if count = 1 then .dereference else .multiplication
  | .slash => .division
  | .percent => .modulus
  | .equals => .assignment
  | .doubleEquals => .equality
  | .bangEquals => .notEquality
  | .leftAngle => .lessThan
  | .leftAngleEquals => .lessThanEquals
  | .rightAngle => .greaterThan
  | .rightAngleEquals => .greaterThanEquals
  | .doubleAmpersand => .logicalAnd
  | .doubleBar => .logicalOr
  | .bang => .logicalNot
  | .ampersand => .bitwiseAnd
  | .bar => .bitwiseOr
  | .caret => .bitwiseXor
  | .tilde => .bitwiseNot
  | .doubleLeftAngle => .shiftLeft
  | .doubleRightAngle => .shiftRight
  | .atSign => .reference

/-- The operator of a token kind in operator position; a call is not yet bound. -/
def ofKind? (kind : Token.Kind) (count : Nat) : Option Operator :=
  match kind with
  | .sign s => some (ofSign s count)
  | .name => some (.call none)
  | _ => none

end Operator

end ProcLang
