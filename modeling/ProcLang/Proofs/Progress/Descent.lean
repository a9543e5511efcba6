import ProcLang.Cursor.Program

/-! Descending through the productions of the grammar with a cursor that moves along the tokens.
Nothing in the types says that it gets anywhere: loops and productions that call each other go on as
long as the depth that they are given lasts. -/
namespace ProcLang

/-- A part of a descent from some token on. It ends at a token, with a value or a fault, or it would
go deeper than it may. -/
abbrev Descent (α : Type) := ExceptT Fault (StateT Nat Option) α

namespace Descent

open ProcLang.Parser (literal?)

variable (tokens : List Token) (eof : Nat)

/-- The depth is used up. -/
def tooDeep : Descent α :=
  ExceptT.mk fun _ => none

/-- Where a cursor comes to by passing over blanks. -/
def skipFrom (pos : Nat) : Nat :=
  pos + ((tokens.drop pos).takeWhile (!·.isSignificant)).length

/-- The next significant token, which the cursor moves to. -/
def peek : Descent (Option Token) := do
  modify (skipFrom tokens)
  return tokens[← get]?

def advance : Descent Unit :=
  modify (· + 1)

/-- The next significant token, if it has the kind. -/
def consume (kind : Token.Kind) : Descent (Option Token) := do
  match ← peek tokens with
  | none => return none
  | some t =>
    if t.kind = kind then
      advance
      return some t
    else return none

/-- Where the next significant token starts. -/
def nextLoc : Descent Nat := do
  match ← peek tokens with
  | none => return eof
  | some t => return t.loc

/-- The next significant token, which must have the kind. -/
def expect (kind : Token.Kind) (what : Expectation) : Descent Token := do
  match ← consume tokens kind with
  | some t => return t
  | none =>
    let loc ← nextLoc tokens eof
    throw (.located loc (.expected what (Token.describe tokens[← get]?)))

def stars : Nat → TypeAt → Descent TypeAt
  | 0, _ => tooDeep
  | depth + 1, type => do
    match ← consume tokens (.sign .star) with
    | none => return type
    | some star => stars depth (.pointer type star.loc)

def typeName (depth : Nat) : Descent TypeAt := do
  let name ← expect tokens eof .name .typeName
  match TypeAt.ofName? name.text name.loc with
  | none => throw (.located name.loc (.invalidTypeName name.text))
  | some type => stars tokens depth type

def declaration (depth : Nat) : Descent Declaration := do
  let type ← typeName tokens eof depth
  let name ← expect tokens eof .name .variableName
  return ⟨name.text, type, name.loc⟩

def separated (close : Token.Kind) (what : Expectation) (item : Descent α) : Nat → Descent (List α)
  | 0 => tooDeep
  | depth + 1 => do
    let a ← item
    match ← consume tokens (.delimiter .comma) with
    | some _ => return a :: (← separated close what item depth)
    | none =>
      let _ ← expect tokens eof close what
      return [a]

def closedList (close : Token.Kind) (what : Expectation) (item : Descent α) (depth : Nat) :
    Descent (List α) := do
  match ← consume tokens close with
  | some _ => return []
  | none => separated tokens eof close what item depth

def variableList (depth : Nat) : Descent (List Declaration) := do
  match ← consume tokens (.delimiter .openBracket) with
  | none => return []
  | some _ =>
    closedList tokens eof (.delimiter .closeBracket) .commaOrBracket (declaration tokens eof depth)
      depth

def parameter (depth : Nat) : Descent Parameter := do
  match ← consume tokens (.keyword .etcetera) with
  | some t => return .etcetera t.loc
  | none => return .var (← declaration tokens eof depth)

def parameters (depth : Nat) : Descent (List Parameter) := do
  let _ ← expect tokens eof (.delimiter .openParen) .parameterList
  closedList tokens eof (.delimiter .closeParen) .commaOrParen (parameter tokens eof depth) depth

def sizeofType (depth loc : Nat) : Descent Expression := do
  let _ ← expect tokens eof (.delimiter .openParen) .sizeofOpen
  let type ← typeName tokens eof depth
  let _ ← expect tokens eof (.delimiter .closeParen) .sizeofClose
  match type.ty.size? with
  | none => throw (.located type.loc (.unsized type.ty))
  | some size => return .literal ⟨.integer (Int64.ofNat size), loc⟩

def operatorToken (start : Nat) : Descent Token := do
  match ← peek tokens with
  | none => throw (.located start .missingOperator)
  | some t =>
    if t.kind.isSign ∨ t.kind = .name then
      advance
      return t
    else throw (.located t.loc (.expectedOperator (Token.describe (some t))))

mutual

def expression : Nat → Descent (Option Expression)
  | 0 => tooDeep
  | depth + 1 => do
    match ← peek tokens with
    | none => return none
    | some t =>
      match t.kind with
      | .name =>
        advance
        return some (.var ⟨t.text, t.loc, none, none⟩)
      | .keyword .sizeof =>
        advance
        return some (← sizeofType tokens eof depth t.loc)
      | .delimiter .openParen =>
        advance
        let operator ← operatorToken tokens t.loc
        let operands ← expressions depth
        let _ ← expect tokens eof (.delimiter .closeParen) .operationClose
        return some (.operation t.loc operator operands none none)
      | _ =>
        match ← liftExcept (literal? t) with
        | none => return none
        | some value =>
          advance
          return some (.literal ⟨value, t.loc⟩)

def expressions : Nat → Descent (List Expression)
  | 0 => tooDeep
  | depth + 1 => do
    match ← expression depth with
    | none => return []
    | some e => return e :: (← expressions depth)

end

/-- Refuses a production that matches nothing. -/
def orElse (r : Descent (Option α)) (fault : Fault) : Descent α := do
  match ← r with
  | some a => return a
  | none => throw fault

mutual

def statement : Nat → Descent (Option Statement)
  | 0 => tooDeep
  | depth + 1 => do
    match ← peek tokens with
    | none => return none
    | some t =>
      match t.kind with
      | .delimiter .openBrace =>
        advance
        let body ← statements depth
        match ← peek tokens with
        | none => throw (.located t.loc .unendedBlock)
        | some u =>
          if u.kind = .delimiter .closeBrace then
            advance
            return some (.block t.loc body)
          else throw (.located u.loc (.unclosedBlock t.loc))
      | .keyword .if_ =>
        advance
        let condition ← orElse (expression tokens eof depth) (.located t.loc .missingCondition)
        let yes ← orElse (statement depth) (.located t.loc .missingThen)
        match ← consume tokens (.keyword .else_) with
        | none => return some (.ifThen t.loc condition yes)
        | some word =>
          let no ← orElse (statement depth) (.located word.loc .missingElse)
          return some (.ifThenElse t.loc condition yes no)
      | .keyword .while_ =>
        advance
        let condition ←
          orElse (expression tokens eof depth) (.located t.loc .missingLoopCondition)
        let body ← orElse (statement depth) (.located t.loc .missingLoopBody)
        return some (.loop t.loc condition body)
      | .keyword .return_ =>
        advance
        let value ← expression tokens eof depth
        return some (.ret t.loc value)
      | _ =>
        let e ← expression tokens eof depth
        return e.map .expression

def statements : Nat → Descent (List Statement)
  | 0 => tooDeep
  | depth + 1 => do
    match ← statement depth with
    | none => return []
    | some s => return s :: (← statements depth)

end

def externalProcedure (depth : Nat) : Descent Procedure := do
  let returns ← typeName tokens eof depth
  let name ← expect tokens eof .name .procedureName
  let ps ← parameters tokens eof depth
  liftExcept (Procedure.build name returns ps .external)

def internalProcedure (depth : Nat) : Descent Procedure := do
  let returns ← typeName tokens eof depth
  let name ← expect tokens eof .name .procedureName
  let ps ← parameters tokens eof depth
  let locals ← variableList tokens eof depth
  match ← statement tokens eof depth with
  | none =>
    let loc ← nextLoc tokens eof
    throw (.located loc (.invalidBody name.text))
  | some body => liftExcept (Procedure.build name returns ps (.internal locals body))

def procedure (depth : Nat) : Descent (Option Procedure) := do
  match ← consume tokens (.keyword .proc) with
  | some _ => return some (← internalProcedure tokens eof depth)
  | none =>
    match ← consume tokens (.keyword .extern_) with
    | some _ => return some (← externalProcedure tokens eof depth)
    | none => return none

def procedures : Nat → Descent (List Procedure)
  | 0 => tooDeep
  | depth + 1 => do
    match ← procedure tokens eof depth with
    | some p => return p :: (← procedures depth)
    | none =>
      match ← peek tokens with
      | none => return []
      | some t => throw (.located t.loc (.unexpectedToken (Token.describe (some t))))

def program (depth : Nat) : Descent Program := do
  let globals ← variableList tokens eof depth
  let ps ← procedures tokens eof depth
  liftExcept (Program.build globals ps)

end Descent

end ProcLang
