import ProcLang.Parser.Basic

/-! A cursor over all tokens of a source. Blanks are passed over where the next token is looked at,
and nowhere else. -/
namespace ProcLang

/-- Tokens left over after at least one of `ts`, by the weaker bound. -/
def Parser.Shorter.noLonger {ts : List Token} (r : Shorter ts) : NoLonger ts :=
  ⟨r.val, Nat.le_of_lt r.property⟩

/-- Tokens left over after some or none of `ts`, and then after at least one more. -/
def Parser.NoLonger.shorten {ts : List Token} (r : NoLonger ts) (s : Shorter r.val) : Shorter ts :=
  ⟨s.val, Nat.lt_of_lt_of_le s.property r.property⟩

namespace Cursor

open ProcLang.Parser (Shorter NoLonger Must nextLoc)

/-- What a production finds that may match nothing. Either way the cursor may have moved. -/
inductive Found (α : Type) (ts : List Token) where
  | matched (value : α) (rest : Shorter ts)
  | nothing (rest : NoLonger ts)

/-- A production that may match nothing. -/
abbrev May (α : Type) (ts : List Token) := Except Fault (Found α ts)

/-- Refuses a production that matches nothing. -/
def orElse {α : Type} {ts : List Token} (r : May α ts) (fault : Fault) : Must α ts := do
  match ← r with
  | .matched value rest => return (value, rest)
  | .nothing _ => .error fault

/-- The tokens from the next significant one on. -/
def skip (ts : List Token) : NoLonger ts :=
  ⟨ts.dropWhile (!·.isSignificant), (List.dropWhile_sublist _).length_le⟩

/-- The next significant token, and what stands behind it. -/
def peek? (ts : List Token) : Option (Token × Shorter ts) :=
  match skip ts with
  | ⟨[], _⟩ => none
  | ⟨t :: rest, h⟩ => some (t, ⟨rest, h⟩)

/-- The next significant token, if it has the kind. -/
def accept (kind : Token.Kind) (ts : List Token) : Found Token ts :=
  match peek? ts with
  | some (t, rest) => if t.kind = kind then .matched t rest else .nothing (skip ts)
  | none => .nothing (skip ts)

/-- The next significant token, which must have the kind. The fault names the token at the
cursor. -/
def expect (eof : Nat) (kind : Token.Kind) (what : Expectation) (ts : List Token) :
    Must Token ts :=
  match accept kind ts with
  | .matched t rest => .ok (t, rest)
  | .nothing rest =>
    .error (.located (nextLoc eof (skip rest.val).val)
      (.expected what (Token.describe rest.val.head?)))

end Cursor

end ProcLang
