import ProcLang.Cursor.Body

/-! Procedures and programs, between blanks. -/
namespace ProcLang.Cursor

open ProcLang.Parser (Must nextLoc)

/-- What follows `extern`: a type, a name and parameters. -/
def externalProcedure (eof : Nat) (ts : List Token) : Must Procedure ts := do
  let (returns, afterType) ← typeName eof ts
  let (name, afterName) ← expect eof .name .procedureName afterType.val
  let (ps, rest) ← parameters eof afterName.val
  let p ← Procedure.build name returns ps .external
  return (p, afterType.trans (afterName.trans rest))

/-- What follows `proc`: a type, a name and parameters, then locals and a body. -/
def internalProcedure (eof : Nat) (ts : List Token) : Must Procedure ts := do
  let (returns, afterType) ← typeName eof ts
  let (name, afterName) ← expect eof .name .procedureName afterType.val
  let (ps, afterParameters) ← parameters eof afterName.val
  let (locals, afterLocals) ← variableList eof afterParameters.val
  match ← statement eof afterLocals.val with
  | .nothing rest =>
    .error (.located (nextLoc eof (skip rest.val).val) (.invalidBody name.text))
  | .matched body rest =>
    let p ← Procedure.build name returns ps (.internal locals body)
    return (p, afterType.trans (afterName.trans
      (afterParameters.trans (afterLocals.shorten rest))))

/-- `procedure ::= 'proc' type NAME parameters variableList statement | 'extern' type NAME
parameters` -/
def procedure (eof : Nat) (ts : List Token) : May Procedure ts :=
  match accept (.keyword .proc) ts with
  | .matched _ inside => do
    let (p, rest) ← internalProcedure eof inside.val
    return .matched p (inside.trans rest)
  | .nothing skipped =>
    match accept (.keyword .extern_) skipped.val with
    | .matched _ inside => do
      let (p, rest) ← externalProcedure eof inside.val
      return .matched p (skipped.shorten (inside.trans rest))
    | .nothing rest => .ok (.nothing ⟨rest.val, Nat.le_trans rest.property skipped.property⟩)

/-- All procedures up to the end of the input, where nothing else may follow them. -/
def procedures (eof : Nat) (ts : List Token) : Traced (List Procedure) :=
  match procedure eof ts with
  | .error fault => .ofExcept (.error fault)
  | .ok (.nothing rest) =>
    match peek? rest.val with
    | none => .ofExcept (.ok [])
    | some (t, _) =>
      .ofExcept (.error (.located t.loc (.unexpectedToken (Token.describe (some t)))))
  | .ok (.matched p rest) => do
    Traced.emit (.parsed p.isExternal p.name)
    let ps ← procedures eof rest.val
    return p :: ps
termination_by ts.length
decreasing_by exact rest.property

end ProcLang.Cursor

namespace ProcLang.Program

/-- `program ::= variableList procedure*`, with blanks anywhere between. -/
def parse (eof : Nat) (tokens : List Token) : Traced Program := do
  let (globals, rest) ← Traced.ofExcept (Cursor.variableList eof tokens)
  Traced.emit (.globals (globals.map fun d => (d.type.ty, d.name)))
  let procedures ← Cursor.procedures eof rest.val
  Traced.ofExcept (Program.build globals procedures)

end ProcLang.Program
