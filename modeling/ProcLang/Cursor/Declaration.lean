import ProcLang.Cursor.Basic
import ProcLang.Parser.Declaration

/-! Types, declarations and parameters, between blanks. -/
namespace ProcLang.Cursor

open ProcLang.Parser (NoLonger Must)

/-- Each star makes a pointer. -/
def stars (type : TypeAt) (ts : List Token) : TypeAt × NoLonger ts :=
  match accept (.sign .star) ts with
  | .nothing rest => (type, rest)
  | .matched star rest =>
    let (pointer, left) := stars (.pointer type star.loc) rest.val
    (pointer, (rest.weaken left).noLonger)
termination_by ts.length
decreasing_by exact rest.property

/-- `type ::= ('int' | 'char' | 'bool' | 'void') '*'*` -/
def typeName (eof : Nat) (ts : List Token) : Must TypeAt ts := do
  let (name, rest) ← expect eof .name .typeName ts
  match TypeAt.ofName? name.text name.loc with
  | none => .error (.located name.loc (.invalidTypeName name.text))
  | some type =>
    let (type, left) := stars type rest.val
    return (type, rest.weaken left)

/-- `declaration ::= type NAME` -/
def declaration (eof : Nat) (ts : List Token) : Must Declaration ts := do
  let (type, afterType) ← typeName eof ts
  let (name, rest) ← expect eof .name .variableName afterType.val
  return (⟨name.text, type, name.loc⟩, afterType.trans rest)

/-- `item (',' item)* close` -/
def separated {α : Type} (eof : Nat) (close : Token.Kind) (what : Expectation)
    (item : (ts : List Token) → Must α ts) (ts : List Token) : Must (List α) ts := do
  let (a, afterItem) ← item ts
  match accept (.delimiter .comma) afterItem.val with
  | .matched _ afterComma =>
    let (as, rest) ← separated eof close what item afterComma.val
    return (a :: as, afterItem.trans (afterComma.trans rest))
  | .nothing skipped =>
    let (_, rest) ← expect eof close what skipped.val
    return ([a], afterItem.trans (skipped.shorten rest))
termination_by ts.length
decreasing_by exact (afterItem.trans afterComma).property

/-- What follows an opening delimiter: the closing one, or items up to it. -/
def closedList {α : Type} (eof : Nat) (close : Token.Kind) (what : Expectation)
    (item : (ts : List Token) → Must α ts) (ts : List Token) : Must (List α) ts :=
  match accept close ts with
  | .matched _ rest => .ok ([], rest)
  | .nothing skipped => do
    let (as, rest) ← separated eof close what item skipped.val
    return (as, skipped.shorten rest)

/-- `variableList ::= ('[' (declaration (',' declaration)*)? ']')?` -/
def variableList (eof : Nat) (ts : List Token) :
    Except Fault (List Declaration × NoLonger ts) :=
  match accept (.delimiter .openBracket) ts with
  | .nothing rest => .ok ([], rest)
  | .matched _ inside => do
    let (declared, rest) ←
      closedList eof (.delimiter .closeBracket) .commaOrBracket (declaration eof) inside.val
    return (declared, (inside.trans rest).noLonger)

/-- `parameter ::= declaration | 'etcetera'` -/
def parameter (eof : Nat) (ts : List Token) : Must Parameter ts :=
  match accept (.keyword .etcetera) ts with
  | .matched t rest => .ok (.etcetera t.loc, rest)
  | .nothing skipped => do
    let (d, rest) ← declaration eof skipped.val
    return (.var d, skipped.shorten rest)

/-- `parameters ::= '(' (parameter (',' parameter)*)? ')'` -/
def parameters (eof : Nat) (ts : List Token) : Must (List Parameter) ts := do
  let (_, inside) ← expect eof (.delimiter .openParen) .parameterList ts
  let (ps, rest) ←
    closedList eof (.delimiter .closeParen) .commaOrParen (parameter eof) inside.val
  return (ps, inside.trans rest)

end ProcLang.Cursor
