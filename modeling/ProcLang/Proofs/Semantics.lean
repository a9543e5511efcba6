import ProcLang.Assembly.Instruction
import ProcLang.Proofs.Machine.Memory
import ProcLang.Tree.Program

/-! What bodies mean, apart from the code that is made of them: a big-step semantics of checked
trees over words and bytes. Calls have no rule. -/
namespace ProcLang

open Assembly

/-- Width of the storage that an expression of the type on record takes up. -/
def Expression.width? (e : Expression) : Option Width :=
  e.type?.bind fun t => t.ty.width?

/-- A truth value as a word. -/
def truth (b : Bool) : Word :=
  if b then 1 else 0

/-- The quotient does not fit into a word. -/
def DivisionFault (a b : Word) : Prop :=
  b = 0 ∨ a = BitVec.intMin 64 ∧ b = -1

instance (a b : Word) : Decidable (DivisionFault a b) :=
  inferInstanceAs (Decidable (_ ∨ _ ∧ _))

/-- What an operator makes of its operands' values, if they are all that it depends on. Arithmetic
wraps around, division truncates, and shift counts are taken modulo 64. -/
def Operator.denote : Operator → List Word → Option Word
  | .addition, a :: as => some (as.foldl (· + ·) a)
  | .multiplication, a :: as => some (as.foldl (· * ·) a)
  | .subtraction, [a, b] => some (a - b)
  | .negation, [a] => some (-a)
  | .division, [a, b] => if DivisionFault a b then none else some (a.sdiv b)
  | .modulus, [a, b] => if DivisionFault a b then none else some (a.srem b)
  | .equality, [a, b] => some (truth (a == b))
  | .notEquality, [a, b] => some (truth (a != b))
  | .lessThan, [a, b] => some (truth (a.slt b))
  | .lessThanEquals, [a, b] => some (truth (a.sle b))
  | .greaterThan, [a, b] => some (truth (b.slt a))
  | .greaterThanEquals, [a, b] => some (truth (b.sle a))
  | .logicalAnd, [a, b] | .bitwiseAnd, [a, b] => some (a &&& b)
  | .logicalOr, [a, b] | .bitwiseOr, [a, b] => some (a ||| b)
  | .bitwiseXor, [a, b] => some (a ^^^ b)
  | .logicalNot, [a] => some (a ^^^ 1)
  | .bitwiseNot, [a] => some (~~~a)
  | .shiftLeft, [a, b] => some (a <<< (b.toNat % 64))
  | .shiftRight, [a, b] => some (a.sshiftRight (b.toNat % 64))
  | _, _ => none

namespace Semantics

/-- Where variables and literals lie, the bytes that may be accessed through pointers, and the
memory that the character at a position of the source may be evaluated with. -/
structure Env where
  place : Storage → Word
  static : Label → Word
  Permitted : Word → Prop
  Legible : Nat → Memory → Prop

namespace Env

/-- Some bytes from `a` on may be accessed through a pointer. -/
def Permits (env : Env) (a : Word) (n : Nat) : Prop :=
  ∀ i < n, env.Permitted (a + BitVec.ofNat 64 i)

/-- Characters may only be evaluated as long as their bytes are those that were loaded. -/
def whileLoaded (env : Env) (loaded : Memory) : Env :=
  { env with
    Legible := fun loc m => m (env.static (.character loc)) = loaded (env.static (.character loc)) }

instance (env : Env) (loaded : Memory) (loc : Nat) (m : Memory) :
    Decidable ((env.whileLoaded loaded).Legible loc m) :=
  inferInstanceAs (Decidable (_ = _))

end Env

mutual

/-- An expression turns one memory into another and yields a word. -/
inductive Eval (env : Env) : Expression → Memory → Word → Memory → Prop
  | integer (value : Int64) (loc : Nat) (m : Memory) :
    Eval env (.literal ⟨.integer value, loc⟩) m value.toBitVec m
  | boolean (value : Bool) (loc : Nat) (m : Memory) :
    Eval env (.literal ⟨.boolean value, loc⟩) m (truth value) m
  | character {loc : Nat} {m : Memory} (value : UInt8) (legible : env.Legible loc m) :
    Eval env (.literal ⟨.character value, loc⟩) m (BitVec.ofNat 64 value.toNat) m
  | text (bytes : List UInt8) (loc : Nat) (m : Memory) :
    Eval env (.literal ⟨.text bytes, loc⟩) m (env.static (.string loc)) m
  | var {v : Variable} {storage : Storage} {w : Width} (m : Memory)
    (binding : v.binding = some storage) (width : (Expression.var v).width? = some w) :
    Eval env (.var v) m (BitVec.ofNat 64 (m.read (env.place storage) w.bytes)) m
  | operation {es : List Expression} {m m' : Memory} {vs : List Word} {op : Operator} {v : Word}
    (loc : Nat) (token : Token) (type : Option TypeAt) (operands : EvalAll env es m vs m')
    (result : op.denote vs = some v) :
    Eval env (.operation loc token es (some op) type) m v m'
  | dereference {e : Expression} {m m' : Memory} {a : Word} {type : TypeAt} {w : Width} (loc : Nat)
    (token : Token) (pointer : Eval env e m a m') (width : type.ty.width? = some w)
    (permitted : env.Permits a w.bytes) :
    Eval env (.operation loc token [e] (some .dereference) (some type)) m
      (BitVec.ofNat 64 (m'.read a w.bytes)) m'
  | reference {e : Expression} {m m' : Memory} {a : Word} (loc : Nat) (token : Token)
    (type : Option TypeAt) (place : Place env e m a m') :
    Eval env (.operation loc token [e] (some .reference) type) m a m'
  | assignment {target value : Expression} {m m₁ m₂ : Memory} {v a : Word} {w : Width} (loc : Nat)
    (token : Token) (type : Option TypeAt) (evaluated : Eval env value m v m₁)
    (place : Place env target m₁ a m₂) (width : target.width? = some w)
    (permitted : (∃ u, target = .var u) ∨ env.Permits a w.bytes) :
    Eval env (.operation loc token [target, value] (some .assignment) type) m v
      (m₂.write a w.bytes v.toNat)

/-- The address of a storage location. -/
inductive Place (env : Env) : Expression → Memory → Word → Memory → Prop
  | var {v : Variable} {storage : Storage} (m : Memory) (binding : v.binding = some storage) :
    Place env (.var v) m (env.place storage) m
  | dereference {e : Expression} {m m' : Memory} {a : Word} (loc : Nat) (token : Token)
    (type : Option TypeAt) (pointer : Eval env e m a m') :
    Place env (.operation loc token [e] (some .dereference) type) m a m'

/-- Operands from the last to the first. -/
inductive EvalAll (env : Env) : List Expression → Memory → List Word → Memory → Prop
  | nil (m : Memory) : EvalAll env [] m [] m
  | cons {e : Expression} {es : List Expression} {m m₁ m₂ : Memory} {v : Word} {vs : List Word}
    (others : EvalAll env es m vs m₁) (first : Eval env e m₁ v m₂) :
    EvalAll env (e :: es) m (v :: vs) m₂

end

/-- How a statement ends. -/
inductive Completion where
  | normal
  | returned (value : Option Word)

/-- A statement turns one memory into another. A return ends all that it stands in. -/
inductive Exec (env : Env) : Statement → Memory → Completion → Memory → Prop
  | blockNil (loc : Nat) (m : Memory) : Exec env (.block loc []) m .normal m
  | blockCons {loc : Nat} {s : Statement} {ss : List Statement} {m m₁ m₂ : Memory} {o : Completion}
    (first : Exec env s m .normal m₁) (others : Exec env (.block loc ss) m₁ o m₂) :
    Exec env (.block loc (s :: ss)) m o m₂
  | blockExit {loc : Nat} {s : Statement} {m m' : Memory} {value : Option Word}
    (ss : List Statement) (first : Exec env s m (.returned value) m') :
    Exec env (.block loc (s :: ss)) m (.returned value) m'
  | ifTrue {loc : Nat} {condition : Expression} {yes : Statement} {m m₁ m₂ : Memory} {v : Word}
    {o : Completion} (test : Eval env condition m v m₁) (nonzero : v ≠ 0)
    (branch : Exec env yes m₁ o m₂) : Exec env (.ifThen loc condition yes) m o m₂
  | ifFalse {loc : Nat} {condition : Expression} {m m' : Memory} (yes : Statement)
    (test : Eval env condition m 0 m') : Exec env (.ifThen loc condition yes) m .normal m'
  | elseTrue {loc : Nat} {condition : Expression} {yes : Statement} {m m₁ m₂ : Memory} {v : Word}
    {o : Completion} (no : Statement) (test : Eval env condition m v m₁) (nonzero : v ≠ 0)
    (branch : Exec env yes m₁ o m₂) : Exec env (.ifThenElse loc condition yes no) m o m₂
  | elseFalse {loc : Nat} {condition : Expression} {no : Statement} {m m₁ m₂ : Memory}
    {o : Completion} (yes : Statement) (test : Eval env condition m 0 m₁)
    (branch : Exec env no m₁ o m₂) : Exec env (.ifThenElse loc condition yes no) m o m₂
  | loopDone {loc : Nat} {condition : Expression} {m m' : Memory} (body : Statement)
    (test : Eval env condition m 0 m') : Exec env (.loop loc condition body) m .normal m'
  | loopStep {loc : Nat} {condition : Expression} {body : Statement} {m m₁ m₂ m₃ : Memory}
    {v : Word} {o : Completion} (test : Eval env condition m v m₁) (nonzero : v ≠ 0)
    (inside : Exec env body m₁ .normal m₂) (again : Exec env (.loop loc condition body) m₂ o m₃) :
    Exec env (.loop loc condition body) m o m₃
  | loopExit {loc : Nat} {condition : Expression} {body : Statement} {m m₁ m₂ : Memory} {v : Word}
    {value : Option Word} (test : Eval env condition m v m₁) (nonzero : v ≠ 0)
    (inside : Exec env body m₁ (.returned value) m₂) :
    Exec env (.loop loc condition body) m (.returned value) m₂
  | ret (loc : Nat) (m : Memory) : Exec env (.ret loc none) m (.returned none) m
  | retValue {loc : Nat} {value : Expression} {m m' : Memory} {v : Word}
    (evaluated : Eval env value m v m') :
    Exec env (.ret loc (some value)) m (.returned (some v)) m'
  | expression {e : Expression} {m m' : Memory} {v : Word} (evaluated : Eval env e m v m') :
    Exec env (.expression e) m .normal m'

end Semantics

end ProcLang
