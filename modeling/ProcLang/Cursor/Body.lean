import ProcLang.Cursor.Declaration
import ProcLang.Parser.Body

/-! Expressions and statements, between blanks. -/
namespace ProcLang.Cursor

open ProcLang.Parser (NoLonger Must literal?)

/-- What follows `sizeof`: a type in parentheses. The size takes the place of the expression. -/
def sizeofType (eof : Nat) (loc : Nat) (ts : List Token) : Must Expression ts := do
  let (_, inside) ← expect eof (.delimiter .openParen) .sizeofOpen ts
  let (type, afterType) ← typeName eof inside.val
  let (_, rest) ← expect eof (.delimiter .closeParen) .sizeofClose afterType.val
  match type.ty.size? with
  | none => .error (.located type.loc (.unsized type.ty))
  | some size =>
    return (.literal ⟨.integer (Int64.ofNat size), loc⟩, inside.trans (afterType.trans rest))

/-- The token in operator position after the parenthesis at `start`. -/
def operatorToken (start : Nat) (ts : List Token) : Must Token ts :=
  match peek? ts with
  | none => .error (.located start .missingOperator)
  | some (t, rest) =>
    if t.kind.isSign ∨ t.kind = .name then .ok (t, rest)
    else .error (.located t.loc (.expectedOperator (Token.describe (some t))))

mutual

/-- `expression ::= literal | 'sizeof' '(' type ')' | '(' operator expression* ')' | NAME` -/
def expression (eof : Nat) (ts : List Token) : May Expression ts :=
  match peek? ts with
  | none => .ok (.nothing (skip ts))
  | some (t, behind) =>
    match t.kind with
    | .name => .ok (.matched (.var ⟨t.text, t.loc, none, none⟩) behind)
    | .keyword .sizeof => do
      let (e, rest) ← sizeofType eof t.loc behind.val
      return .matched e (behind.trans rest)
    | .delimiter .openParen => do
      let (operator, inside) ← operatorToken t.loc behind.val
      let (operands, afterOperands) ← expressions eof inside.val
      let (_, rest) ← expect eof (.delimiter .closeParen) .operationClose afterOperands.val
      return .matched (.operation t.loc operator operands none none)
        (behind.trans (inside.trans (afterOperands.shorten rest)))
    | _ => do
      match ← literal? t with
      | some value => return .matched (.literal ⟨value, t.loc⟩) behind
      | none => return .nothing (skip ts)
termination_by 2 * ts.length
decreasing_by
  have := (behind.trans inside).property
  simp only [Parser.Shorter.trans] at this
  omega

/-- As many expressions as follow. -/
def expressions (eof : Nat) (ts : List Token) :
    Except Fault (List Expression × NoLonger ts) := do
  match ← expression eof ts with
  | .nothing rest => return ([], rest)
  | .matched e afterFirst =>
    let (es, rest) ← expressions eof afterFirst.val
    return (e :: es, (afterFirst.weaken rest).noLonger)
termination_by 2 * ts.length + 1
decreasing_by
  · omega
  · have := afterFirst.property
    omega

end

mutual

/-- `statement ::= '{' statement* '}' | 'if' expression statement ('else' statement)? |
'while' expression statement | 'return' expression? | expression` -/
def statement (eof : Nat) (ts : List Token) : May Statement ts :=
  match peek? ts with
  | none => .ok (.nothing (skip ts))
  | some (t, behind) =>
    match t.kind with
    | .delimiter .openBrace => do
      let (body, afterBody) ← statements eof behind.val
      match peek? afterBody.val with
      | none => .error (.located t.loc .unendedBlock)
      | some (u, rest) =>
        if u.kind = .delimiter .closeBrace then
          return .matched (.block t.loc body) (behind.trans (afterBody.shorten rest))
        else .error (.located u.loc (.unclosedBlock t.loc))
    | .keyword .if_ => do
      let (condition, afterIf) ←
        orElse (expression eof behind.val) (.located t.loc .missingCondition)
      let (yes, afterYes) ←
        orElse (statement eof afterIf.val) (.located t.loc .missingThen)
      match accept (.keyword .else_) afterYes.val with
      | .nothing rest =>
        return .matched (.ifThen t.loc condition yes)
          (behind.trans (afterIf.trans (afterYes.weaken rest)))
      | .matched word afterElse =>
        let (no, rest) ←
          orElse (statement eof afterElse.val) (.located word.loc .missingElse)
        return .matched (.ifThenElse t.loc condition yes no)
          (behind.trans (afterIf.trans (afterYes.trans (afterElse.trans rest))))
    | .keyword .while_ => do
      let (condition, afterCondition) ←
        orElse (expression eof behind.val) (.located t.loc .missingLoopCondition)
      let (body, rest) ←
        orElse (statement eof afterCondition.val) (.located t.loc .missingLoopBody)
      return .matched (.loop t.loc condition body) (behind.trans (afterCondition.trans rest))
    | .keyword .return_ => do
      match ← expression eof behind.val with
      | .nothing rest => return .matched (.ret t.loc none) (behind.weaken rest)
      | .matched value rest => return .matched (.ret t.loc (some value)) (behind.trans rest)
    | _ => do
      match ← expression eof ts with
      | .nothing rest => return .nothing rest
      | .matched e rest => return .matched (.expression e) rest
termination_by 2 * ts.length
decreasing_by
  · have := behind.property
    omega
  · have := (behind.trans afterIf).property
    simp only [Parser.Shorter.trans] at this
    omega
  · have := (behind.trans (afterIf.trans (afterYes.trans afterElse))).property
    simp only [Parser.Shorter.trans] at this
    omega
  · have := (behind.trans afterCondition).property
    simp only [Parser.Shorter.trans] at this
    omega

/-- As many statements as follow. -/
def statements (eof : Nat) (ts : List Token) :
    Except Fault (List Statement × NoLonger ts) := do
  match ← statement eof ts with
  | .nothing rest => return ([], rest)
  | .matched s afterFirst =>
    let (ss, rest) ← statements eof afterFirst.val
    return (s :: ss, (afterFirst.weaken rest).noLonger)
termination_by 2 * ts.length + 1
decreasing_by
  · omega
  · have := afterFirst.property
    omega

end

end ProcLang.Cursor
