import ProcLang.Text.Utf8
import ProcLang.Fault

/-! Expressions and statements. The grammar fixes their shape; binding then fills in operators and
storage, and checking fills in types. -/
namespace ProcLang

inductive LiteralValue where
  | integer (value : Int64)
  | character (value : UInt8)
  | boolean (value : Bool)
  | text (bytes : List UInt8)
  deriving DecidableEq, Repr

structure Literal where
  value : LiteralValue
  loc : Nat
  deriving DecidableEq, Repr

namespace Literal

/-- A literal shows its type; a string is the address of its first character. -/
def type (l : Literal) : TypeAt :=
  match l.value with
  | .integer _ => .int l.loc
  | .character _ => .char l.loc
  | .boolean _ => .bool l.loc
  | .text _ => .pointer (.char l.loc) l.loc

def display (l : Literal) : String :=
  match l.value with
  | .integer value => toString value.toInt
  | .character value => "'" ++ Text.escapeAscii (Char.ofNat value.toNat).toString ++ "'"
  | .boolean value => if value then "true" else "false"
  | .text bytes => "\"" ++ Text.escapeAscii (Text.decodeLossy bytes) ++ "\""

end Literal

structure Variable where
  name : String
  loc : Nat
  binding : Option Storage
  type : Option TypeAt
  deriving DecidableEq, Repr

/-- An operation keeps the token in operator position; `loc` is its opening parenthesis. -/
inductive Expression where
  | literal (l : Literal)
  | var (v : Variable)
  | operation (loc : Nat) (token : Token) (operands : List Expression)
      (operator : Option Operator) (type : Option TypeAt)
  deriving Repr

namespace Expression

def loc : Expression → Nat
  | .literal l => l.loc
  | .var v => v.loc
  | .operation loc .. => loc

/-- The type on record. -/
def type? : Expression → Option TypeAt
  | .literal l => some l.type
  | .var v => v.type
  | .operation _ _ _ _ type => type

/-- A storage location: a variable, or an operation that yields one. -/
def isPlace : Expression → Bool
  | .literal _ => false
  | .var _ => true
  | .operation _ _ _ operator _ => operator.any Operator.yieldsPlace

mutual

/-- An expression in the notation of the language. -/
def display : Expression → String
  | .literal l => l.display
  | .var v => v.name
  | .operation _ token operands _ _ => "(" ++ token.text ++ displayOperands operands ++ ")"

/-- Each operand after a space. -/
def displayOperands : List Expression → String
  | [] => ""
  | e :: es => " " ++ e.display ++ displayOperands es

end

/-- The type on record, which a checked tree always has. -/
def type (e : Expression) : Except Fault TypeAt :=
  match e.type? with
  | some type => .ok type
  | none => .error (.internal (.untyped e.display))

end Expression

inductive Statement where
  | block (loc : Nat) (body : List Statement)
  | ifThen (loc : Nat) (condition : Expression) (yes : Statement)
  | ifThenElse (loc : Nat) (condition : Expression) (yes no : Statement)
  | loop (loc : Nat) (condition : Expression) (body : Statement)
  | ret (loc : Nat) (value : Option Expression)
  | expression (e : Expression)
  deriving Repr

end ProcLang
