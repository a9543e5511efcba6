import ProcLang.Pass

/-! Productions of the grammar, by recursive descent over the significant tokens. A production
matches, matches nothing, or is refused once it has begun. Each returns the tokens it leaves over
with a bound on their number, by which all recursion ends. `eof` is the offset of the end of the
source. -/
namespace ProcLang.Parser

/-- Tokens left over after at least one of `ts`. -/
abbrev Shorter (ts : List Token) := { rest : List Token // rest.length < ts.length }

/-- Tokens left over after some or none of `ts`. -/
abbrev NoLonger (ts : List Token) := { rest : List Token // rest.length ≤ ts.length }

namespace Shorter

def trans {ts : List Token} (r : Shorter ts) (s : Shorter r.val) : Shorter ts :=
  ⟨s.val, Nat.lt_trans s.property r.property⟩

def weaken {ts : List Token} (r : Shorter ts) (s : NoLonger r.val) : Shorter ts :=
  ⟨s.val, Nat.lt_of_le_of_lt s.property r.property⟩

/-- What stands after the first token. -/
def tail (t : Token) (ts : List Token) : Shorter (t :: ts) :=
  ⟨ts, Nat.lt_succ_self _⟩

def ofTail {t : Token} {ts : List Token} (s : NoLonger ts) : Shorter (t :: ts) :=
  ⟨s.val, Nat.lt_succ_of_le s.property⟩

end Shorter

/-- A production that must match. -/
abbrev Must (α : Type) (ts : List Token) := Except Fault (α × Shorter ts)

/-- A production that may match nothing. -/
abbrev May (α : Type) (ts : List Token) := Except Fault (Option (α × Shorter ts))

/-- Refuses a production that matches nothing. -/
def orElse {α : Type} {ts : List Token} (r : May α ts) (fault : Fault) : Must α ts := do
  match ← r with
  | some found => return found
  | none => .error fault

/-- Where the next token starts. -/
def nextLoc (eof : Nat) : List Token → Nat
  | [] => eof
  | t :: _ => t.loc

/-- The next token, if it has the kind. -/
def accept? (kind : Token.Kind) : (ts : List Token) → Option (Token × Shorter ts)
  | [] => none
  | t :: ts => if t.kind = kind then some (t, .tail t ts) else none

/-- The next token, which must have the kind. -/
def expect (eof : Nat) (kind : Token.Kind) (what : Expectation) (ts : List Token) :
    Must Token ts :=
  match accept? kind ts with
  | some found => .ok found
  | none => .error (.located (nextLoc eof ts) (.expected what (Token.describe ts.head?)))

end ProcLang.Parser
