import ProcLang.Parser.Basic
import ProcLang.Tree.Program

/-! Types, declarations and parameters. -/
namespace ProcLang.Parser

/-- Each star makes a pointer. -/
def stars (type : TypeAt) : (ts : List Token) → TypeAt × NoLonger ts
  | [] => (type, ⟨[], Nat.le_refl _⟩)
  | t :: ts =>
    if t.kind = .sign .star then
      let (pointer, rest) := stars (.pointer type t.loc) ts
      (pointer, ⟨rest.val, Nat.le_succ_of_le rest.property⟩)
    else (type, ⟨t :: ts, Nat.le_refl _⟩)

/-- `type ::= ('int' | 'char' | 'bool' | 'void') '*'*` -/
def typeName (eof : Nat) (ts : List Token) : Must TypeAt ts := do
  let (name, rest) ← expect eof .name .typeName ts
  match TypeAt.ofName? name.text name.loc with
  | none => .error (.located name.loc (.invalidTypeName name.text))
  | some type =>
    let (type, left) := stars type rest.val
    return (type, rest.weaken left)

/-- `declaration ::= type NAME` -/
def declaration (eof : Nat) (ts : List Token) : Must Declaration ts := do
  let (type, afterType) ← typeName eof ts
  let (name, rest) ← expect eof .name .variableName afterType.val
  return (⟨name.text, type, name.loc⟩, afterType.trans rest)

/-- `item (',' item)* close` -/
def separated {α : Type} (eof : Nat) (close : Token.Kind) (what : Expectation)
    (item : (ts : List Token) → Must α ts) (ts : List Token) : Must (List α) ts := do
  let (a, afterItem) ← item ts
  match accept? (.delimiter .comma) afterItem.val with
  | some (_, afterComma) =>
    let (as, rest) ← separated eof close what item afterComma.val
    return (a :: as, afterItem.trans (afterComma.trans rest))
  | none =>
    let (_, rest) ← expect eof close what afterItem.val
    return ([a], afterItem.trans rest)
termination_by ts.length
decreasing_by
  have := afterItem.property
  have := afterComma.property
  omega

/-- What follows an opening delimiter: the closing one, or items up to it. -/
def closedList {α : Type} (eof : Nat) (close : Token.Kind) (what : Expectation)
    (item : (ts : List Token) → Must α ts) (ts : List Token) : Must (List α) ts :=
  match accept? close ts with
  | some (_, rest) => .ok ([], rest)
  | none => separated eof close what item ts

/-- `variableList ::= ('[' (declaration (',' declaration)*)? ']')?` -/
def variableList (eof : Nat) (ts : List Token) :
    Except Fault (List Declaration × NoLonger ts) :=
  match accept? (.delimiter .openBracket) ts with
  | none => .ok ([], ⟨ts, Nat.le_refl _⟩)
  | some (_, inside) => do
    let (declared, rest) ←
      closedList eof (.delimiter .closeBracket) .commaOrBracket (declaration eof) inside.val
    return (declared, ⟨rest.val, Nat.le_of_lt (inside.trans rest).property⟩)

/-- `parameter ::= declaration | 'etcetera'` -/
def parameter (eof : Nat) (ts : List Token) : Must Parameter ts :=
  match accept? (.keyword .etcetera) ts with
  | some (t, rest) => .ok (.etcetera t.loc, rest)
  | none => do
    let (d, rest) ← declaration eof ts
    return (.var d, rest)

/-- `parameters ::= '(' (parameter (',' parameter)*)? ')'` -/
def parameters (eof : Nat) (ts : List Token) : Must (List Parameter) ts := do
  let (_, inside) ← expect eof (.delimiter .openParen) .parameterList ts
  let (ps, rest) ←
    closedList eof (.delimiter .closeParen) .commaOrParen (parameter eof) inside.val
  return (ps, inside.trans rest)

end ProcLang.Parser
