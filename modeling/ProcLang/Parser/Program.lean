import ProcLang.Parser.Body

/-! Procedures. -/
namespace ProcLang.Parser

/-- What follows `extern`: a type, a name and parameters. -/
def externalProcedure (eof : Nat) (ts : List Token) : Must Procedure ts := do
  let (returns, afterType) ← typeName eof ts
  let (name, afterName) ← expect eof .name .procedureName afterType.val
  let (ps, rest) ← parameters eof afterName.val
  let p ← Procedure.build name returns ps .external
  return (p, afterType.trans (afterName.trans rest))

/-- What follows `proc`: a type, a name and parameters, then locals and a body. -/
def internalProcedure (eof : Nat) (ts : List Token) : Must Procedure ts := do
  let (returns, afterType) ← typeName eof ts
  let (name, afterName) ← expect eof .name .procedureName afterType.val
  let (ps, afterParameters) ← parameters eof afterName.val
  let (locals, afterLocals) ← variableList eof afterParameters.val
  let (body, rest) ← orElse (statement eof afterLocals.val)
    (.located (nextLoc eof afterLocals.val) (.invalidBody name.text))
  let p ← Procedure.build name returns ps (.internal locals body)
  return (p, afterType.trans (afterName.trans
    (afterParameters.trans ⟨rest.val, Nat.lt_of_lt_of_le rest.property afterLocals.property⟩)))

/-- `procedure ::= 'proc' type NAME parameters variableList statement | 'extern' type NAME
parameters` -/
def procedure (eof : Nat) (ts : List Token) : May Procedure ts :=
  match accept? (.keyword .proc) ts with
  | some (_, inside) => do
    let (p, rest) ← internalProcedure eof inside.val
    return some (p, inside.trans rest)
  | none =>
    match accept? (.keyword .extern_) ts with
    | some (_, inside) => do
      let (p, rest) ← externalProcedure eof inside.val
      return some (p, inside.trans rest)
    | none => .ok none

/-- All procedures up to the end of the input, where nothing else may follow them. -/
def procedures (eof : Nat) (ts : List Token) : Traced (List Procedure) :=
  match procedure eof ts with
  | .error fault => .ofExcept (.error fault)
  | .ok none =>
    match ts with
    | [] => .ofExcept (.ok [])
    | t :: _ => .ofExcept (.error (.located t.loc (.unexpectedToken (Token.describe (some t)))))
  | .ok (some (p, rest)) => do
    Traced.emit (.parsed p.isExternal p.name)
    let ps ← procedures eof rest.val
    return p :: ps
termination_by ts.length
decreasing_by exact rest.property

end ProcLang.Parser
