import ProcLang.Parser.Declaration
import ProcLang.Text.Decimal

/-! Expressions and statements. -/
namespace ProcLang.Parser

/-- What follows `sizeof`: a type in parentheses. The size takes the place of the expression. -/
def sizeofType (eof : Nat) (loc : Nat) (ts : List Token) : Must Expression ts := do
  let (_, inside) ← expect eof (.delimiter .openParen) .sizeofOpen ts
  let (type, afterType) ← typeName eof inside.val
  let (_, rest) ← expect eof (.delimiter .closeParen) .sizeofClose afterType.val
  match type.ty.size? with
  | none => .error (.located type.loc (.unsized type.ty))
  | some size =>
    return (.literal ⟨.integer (Int64.ofNat size), loc⟩, inside.trans (afterType.trans rest))

/-- The literal that a single token denotes. A character is the first byte of its text. -/
def literal? (t : Token) : Except Fault (Option LiteralValue) :=
  match t.kind with
  | .integer =>
    match Text.int64? t.text with
    | some value => .ok (some (.integer value))
    | none => .error (.located t.loc .integerRange)
  | .character => .ok (some (.character ((Text.bytes t.text).headD 0)))
  | .boolean => .ok (some (.boolean (t.text == "true")))
  | .text => .ok (some (.text (Text.bytes t.text)))
  | _ => .ok none

/-- The token in operator position after the parenthesis at `start`. -/
def operatorToken (start : Nat) : (ts : List Token) → Must Token ts
  | [] => .error (.located start .missingOperator)
  | t :: ts =>
    if t.kind.isSign ∨ t.kind = .name then .ok (t, .tail t ts)
    else .error (.located t.loc (.expectedOperator (Token.describe (some t))))

mutual

/-- `expression ::= literal | 'sizeof' '(' type ')' | '(' operator expression* ')' | NAME` -/
def expression (eof : Nat) : (ts : List Token) → May Expression ts
  | [] => .ok none
  | t :: ts =>
    match t.kind with
    | .name => .ok (some (.var ⟨t.text, t.loc, none, none⟩, .tail t ts))
    | .keyword .sizeof => do
      let (e, rest) ← sizeofType eof t.loc ts
      return some (e, .ofTail ⟨rest.val, Nat.le_of_lt rest.property⟩)
    | .delimiter .openParen => do
      let (operator, inside) ← operatorToken t.loc ts
      let (operands, afterOperands) ← expressions eof inside.val
      let (_, rest) ← expect eof (.delimiter .closeParen) .operationClose afterOperands.val
      return some (.operation t.loc operator operands none none,
        .ofTail ⟨rest.val, by have := inside.property; have := afterOperands.property
                              have := rest.property; omega⟩)
    | _ => do
      match ← literal? t with
      | some value => return some (.literal ⟨value, t.loc⟩, .tail t ts)
      | none => return none
termination_by ts => 2 * ts.length
decreasing_by
  have := inside.property
  rw [List.length_cons]
  omega

/-- As many expressions as follow. -/
def expressions (eof : Nat) (ts : List Token) :
    Except Fault (List Expression × NoLonger ts) := do
  match ← expression eof ts with
  | none => return ([], ⟨ts, Nat.le_refl _⟩)
  | some (e, afterFirst) =>
    let (es, rest) ← expressions eof afterFirst.val
    return (e :: es, ⟨rest.val, Nat.le_of_lt (afterFirst.weaken rest).property⟩)
termination_by 2 * ts.length + 1
decreasing_by
  · omega
  · have := afterFirst.property
    omega

end

mutual

/-- `statement ::= '{' statement* '}' | 'if' expression statement ('else' statement)? |
'while' expression statement | 'return' expression? | expression` -/
def statement (eof : Nat) : (ts : List Token) → May Statement ts
  | [] => .ok none
  | t :: ts =>
    match t.kind with
    | .delimiter .openBrace => do
      let (body, afterBody) ← statements eof ts
      match h : afterBody.val with
      | [] => .error (.located t.loc .unendedBlock)
      | u :: rest =>
        if u.kind = .delimiter .closeBrace then
          return some (.block t.loc body,
            .ofTail ⟨rest, by have := afterBody.property; simp [h] at this; omega⟩)
        else .error (.located u.loc (.unclosedBlock t.loc))
    | .keyword .if_ => do
      let (condition, afterIf) ←
        orElse (expression eof ts) (.located t.loc .missingCondition)
      let (yes, afterYes) ←
        orElse (statement eof afterIf.val) (.located t.loc .missingThen)
      match accept? (.keyword .else_) afterYes.val with
      | none =>
        return some (.ifThen t.loc condition yes,
          .ofTail ⟨afterYes.val, Nat.le_of_lt (afterIf.trans afterYes).property⟩)
      | some (word, afterElse) =>
        let (no, rest) ←
          orElse (statement eof afterElse.val) (.located word.loc .missingElse)
        return some (.ifThenElse t.loc condition yes no,
          .ofTail ⟨rest.val,
            Nat.le_of_lt (afterIf.trans (afterYes.trans (afterElse.trans rest))).property⟩)
    | .keyword .while_ => do
      let (condition, afterCondition) ←
        orElse (expression eof ts) (.located t.loc .missingLoopCondition)
      let (body, rest) ←
        orElse (statement eof afterCondition.val) (.located t.loc .missingLoopBody)
      return some (.loop t.loc condition body,
        .ofTail ⟨rest.val, Nat.le_of_lt (afterCondition.trans rest).property⟩)
    | .keyword .return_ => do
      match ← expression eof ts with
      | none => return some (.ret t.loc none, .tail t ts)
      | some (value, rest) =>
        return some (.ret t.loc (some value), .ofTail ⟨rest.val, Nat.le_of_lt rest.property⟩)
    | _ => do
      match ← expression eof (t :: ts) with
      | none => return none
      | some (e, rest) => return some (.expression e, rest)
termination_by ts => 2 * ts.length
decreasing_by
  all_goals rw [List.length_cons]
  · omega
  · have := afterIf.property
    omega
  · have := (afterIf.trans (afterYes.trans afterElse)).property
    simp only [Shorter.trans] at this
    omega
  · have := afterCondition.property
    omega

/-- As many statements as follow. -/
def statements (eof : Nat) (ts : List Token) :
    Except Fault (List Statement × NoLonger ts) := do
  match ← statement eof ts with
  | none => return ([], ⟨ts, Nat.le_refl _⟩)
  | some (s, afterFirst) =>
    let (ss, rest) ← statements eof afterFirst.val
    return (s :: ss, ⟨rest.val, Nat.le_of_lt (afterFirst.weaken rest).property⟩)
termination_by 2 * ts.length + 1
decreasing_by
  · omega
  · have := afterFirst.property
    omega

end

end ProcLang.Parser
