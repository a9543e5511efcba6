import Mathlib.Data.List.Forall2
import ProcLang.Typing.Check

/-! The typing rules, apart from the order in which they are checked. -/
namespace ProcLang

/-- An expression that names a storage location. -/
inductive Expression.Place : Expression → Prop
  | var (v : Variable) : Place (.var v)
  | dereference (loc : Nat) (token : Token) (operands : List Expression) (type : Option TypeAt) :
    Place (.operation loc token operands (some .dereference) type)

/-- The argument types that a signature takes: one for each parameter, and any more where
`etcetera` stands. -/
inductive Signature.Accepts (s : Signature) : List Ty → Prop
  | exact {fixed : List TypeAt} (parameters : s.parameters = fixed.map some)
    (few : fixed.length ≤ maxArguments) : Accepts s (fixed.map TypeAt.ty)
  | variadic {fixed : List TypeAt} {others : List (Option TypeAt)} {extra : List Ty}
    (parameters : s.parameters = fixed.map some ++ none :: others)
    (few : fixed.length + extra.length ≤ maxArguments) :
    Accepts s (fixed.map TypeAt.ty ++ extra)

namespace Operator

/-- Integers to an integer. -/
def IsArithmetic (op : Operator) : Prop :=
  op ∈ [.negation, .multiplication, .division, .modulus, .bitwiseAnd, .bitwiseOr, .bitwiseXor,
    .bitwiseNot, .shiftLeft, .shiftRight]

/-- Integers to a truth value. -/
def IsRelational (op : Operator) : Prop :=
  op ∈ [.lessThan, .lessThanEquals, .greaterThan, .greaterThanEquals]

/-- Truth values to a truth value. -/
def IsLogical (op : Operator) : Prop :=
  op ∈ [.logicalAnd, .logicalOr, .logicalNot]

/-- The type of an operation, given those of its operands. How many operands a sign takes is
settled when its operator is chosen. -/
inductive Rule (signatures : List Signature) : Operator → List Ty → Ty → Prop
  | sum {τs : List Ty} (integers : ∀ τ ∈ τs, τ = .int) : Rule signatures .addition τs .int
  | pointerSum {before after : List Ty} {base : Ty} (left : ∀ τ ∈ before, τ = .int)
    (right : ∀ τ ∈ after, τ = .int) :
    Rule signatures .addition (before ++ .pointer base :: after) (.pointer base)
  | difference : Rule signatures .subtraction [.int, .int] .int
  | pointerDifference (base : Ty) :
    Rule signatures .subtraction [.pointer base, .int] (.pointer base)
  | arithmetic {op : Operator} {τs : List Ty} (family : op.IsArithmetic)
    (integers : ∀ τ ∈ τs, τ = .int) : Rule signatures op τs .int
  | relational {op : Operator} {τs : List Ty} (family : op.IsRelational)
    (integers : ∀ τ ∈ τs, τ = .int) : Rule signatures op τs .bool
  | logical {op : Operator} {τs : List Ty} (family : op.IsLogical)
    (truths : ∀ τ ∈ τs, τ = .bool) : Rule signatures op τs .bool
  | equality (τ : Ty) : Rule signatures .equality [τ, τ] .bool
  | notEquality (τ : Ty) : Rule signatures .notEquality [τ, τ] .bool
  | dereference {base : Ty} (sized : base ≠ .void) :
    Rule signatures .dereference [.pointer base] base
  | reference (τ : Ty) : Rule signatures .reference [τ] (.pointer τ)
  | assignment (τ : Ty) : Rule signatures .assignment [τ, τ] τ
  | pointerAssignment (base : Ty) :
    Rule signatures .assignment [.pointer base, .pointer .void] (.pointer base)
  | call {index : Nat} {s : Signature} {τs : List Ty} (callee : signatures[index]? = some s)
    (arguments : s.Accepts τs) : Rule signatures (.call (some index)) τs s.returns.ty

/-- Only a storage location can be assigned to or referred to. -/
def PlacesOk (op : Operator) (operands : List Expression) : Prop :=
  op = .assignment ∨ op = .reference → ∀ e ∈ operands.head?, e.Place

end Operator

namespace Typing.Context

/-- An expression has a type among given declarations. Types on record play no part. -/
inductive HasType (c : Typing.Context) : Expression → Ty → Prop
  | integer (value : Int64) (loc : Nat) : HasType c (.literal ⟨.integer value, loc⟩) .int
  | character (value : UInt8) (loc : Nat) : HasType c (.literal ⟨.character value, loc⟩) .char
  | boolean (value : Bool) (loc : Nat) : HasType c (.literal ⟨.boolean value, loc⟩) .bool
  | text (bytes : List UInt8) (loc : Nat) :
    HasType c (.literal ⟨.text bytes, loc⟩) (.pointer .char)
  | var {v : Variable} {storage : Storage} {d : Declaration} (bound : v.binding = some storage)
    (declared : c.declaration? storage = some d) : HasType c (.var v) d.type.ty
  | operation {loc : Nat} {token : Token} {operands : List Expression} {op : Operator}
    {type : Option TypeAt} {τs : List Ty} {τ : Ty} (places : op.PlacesOk operands)
    (typed : List.Forall₂ (HasType c) operands τs) (rule : op.Rule c.signatures τs τ) :
    HasType c (.operation loc token operands (some op) type) τ

/-- A statement is well typed in a procedure of a given return type. -/
inductive WellTyped (c : Typing.Context) : Statement → Prop
  | block {loc : Nat} {body : List Statement} (all : ∀ s ∈ body, WellTyped c s) :
    WellTyped c (.block loc body)
  | ifThen {loc : Nat} {condition : Expression} {yes : Statement}
    (test : c.HasType condition .bool) (branch : WellTyped c yes) :
    WellTyped c (.ifThen loc condition yes)
  | ifThenElse {loc : Nat} {condition : Expression} {yes no : Statement}
    (test : c.HasType condition .bool) (branch : WellTyped c yes) (other : WellTyped c no) :
    WellTyped c (.ifThenElse loc condition yes no)
  | loop {loc : Nat} {condition : Expression} {body : Statement}
    (test : c.HasType condition .bool) (inner : WellTyped c body) :
    WellTyped c (.loop loc condition body)
  | ret (loc : Nat) : WellTyped c (.ret loc none)
  | retValue {loc : Nat} {value : Expression} (typed : c.HasType value c.returns.ty) :
    WellTyped c (.ret loc (some value))
  | expression {e : Expression} {τ : Ty} (typed : c.HasType e τ) : WellTyped c (.expression e)

end Typing.Context

/-- A program that keeps all rules on declarations and on bodies. -/
structure Program.WellTyped (p : Program) : Prop where
  globals : ∀ d ∈ p.globals, d.type.ty ≠ .void
  parameters : ∀ q ∈ p.procedures, ∀ d, .var d ∈ q.parameters → d.type.ty ≠ .void
  locals : ∀ q ∈ p.procedures, ∀ d ∈ q.locals, d.type.ty ≠ .void
  /-- Only an external procedure has `etcetera`, and only at the end. -/
  etcetera : ∀ q ∈ p.procedures, ∀ i loc, q.parameters[i]? = some (.etcetera loc) →
    q.isExternal ∧ i + 1 = q.parameters.length
  few : ∀ q ∈ p.procedures, ¬q.isExternal → q.parameters.length ≤ maxArguments
  bodies : ∀ q ∈ p.procedures, ∀ body, q.body? = some body → (p.context q).WellTyped body

end ProcLang
