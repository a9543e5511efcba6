import ProcLang.Text.Escape
import ProcLang.Token.Kind

/-! Tokens. -/
namespace ProcLang

/-- A token of a source text. In character and string literals `text` is what the quotes enclose,
with escapes resolved. `loc` is the byte offset of the first character. -/
structure Token where
  kind : Token.Kind
  text : String
  loc : Nat
  deriving DecidableEq, Repr

namespace Token

/-- A token whose kind decides its text. -/
def fixed (kind : Kind) (loc : Nat) : Token :=
  ⟨kind, kind.spelling?.getD "", loc⟩

/-- Blanks have no meaning in the grammar. -/
def isSignificant (t : Token) : Bool :=
  !t.kind.isBlank

/-- A token with its kind and position, for the log. -/
def display (t : Token) : String :=
  s!"{Text.escapeText t.text} ({t.kind.label}) @{t.loc}"

/-- A token, or the end of the input, in a diagnostic. -/
def describe : Option Token → String
  | none => "EOF"
  | some t => if t.kind.isBlank then t.kind.label else t.text

end Token

end ProcLang
