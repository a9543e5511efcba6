import ProcLang.Text.Utf8
import ProcLang.Pass

/-! Cutting a source into tokens and comments. -/
namespace ProcLang.Token

/-- A part of the source: a token, or a comment with the offsets where it starts and ends. -/
inductive Piece where
  | token (t : Token)
  | comment (start stop : Nat)
  deriving DecidableEq, Repr

def Piece.token? : Piece → Option Token
  | .token t => some t
  | .comment .. => none

def Piece.event? : Piece → Option Event
  | .token _ => none
  | .comment start stop => some (.comment start stop)

/-- A piece, and how many characters it takes after its first. -/
structure Cut where
  piece : Piece
  more : Nat

/-- Kinds that are recognised by their spelling. Longer spellings come first. -/
def fixedKinds : List Kind :=
  [Sign.bangEquals, .doubleEquals, .leftAngleEquals, .doubleLeftAngle, .rightAngleEquals,
    .doubleRightAngle, .doubleBar, .doubleAmpersand].map .sign ++
  [Blank.space, .tab, .newline].map .blank ++
  [Delimiter.comma, .openParen, .closeParen, .openBracket, .closeBracket, .openBrace,
    .closeBrace].map .delimiter ++
  [Sign.atSign, .bang, .tilde, .caret, .plus, .dash, .star, .slash, .percent, .equals, .leftAngle,
    .rightAngle, .bar, .ampersand].map .sign

/-- The kind whose spelling starts the input, the longest if there are two. A carriage return
counts as a newline. -/
def fixed? : List Char → Option Kind
  | '\r' :: _ => some (.blank .newline)
  | cs => fixedKinds.find? fun k => k.chars?.any (·.isPrefixOf cs)

def isNameStart (c : Char) : Bool :=
  c.isAlpha || c == '_'

def isNamePart (c : Char) : Bool :=
  c.isAlphanum || c == '_'

/-- What stands for a character after a backslash. -/
def unescape? : Char → Option Char
  | '0' => some '\x00'
  | 'a' => some '\x07'
  | 'b' => some '\x08'
  | 'e' => some '\x1b'
  | 'f' => some '\x0c'
  | 'n' => some '\n'
  | 'r' => some '\r'
  | 't' => some '\t'
  | 'v' => some '\x0b'
  | '\\' => some '\\'
  | '\'' => some '\''
  | '"' => some '"'
  | _ => none

/-- The character after a backslash that stands before `loc`. -/
def escape (loc : Nat) : List Char → Except Fault Char
  | [] => .error (.located loc .unendedEscape)
  | c :: _ =>
    match unescape? c with
    | some value => .ok value
    | none => .error (.located loc (.invalidEscape c))

/-- A comment runs up to the end of its line, which must be there. -/
def cutComment (loc : Nat) (cs : List Char) : Except Fault Cut :=
  if cs.all (· != '\n') then .error (.located (loc + 1 + Text.byteWidth cs) .unendedComment)
  else
    let body := cs.takeWhile (· != '\n')
    .ok ⟨.comment loc (loc + 1 + Text.byteWidth body), body.length⟩

/-- Digits, with no letter directly after them. -/
def cutInteger (loc : Nat) (c : Char) (cs : List Char) : Except Fault Cut :=
  let digits := cs.takeWhile Char.isDigit
  if (cs.drop digits.length).head?.any Char.isAlpha then
    .error (.located (loc + 1 + digits.length) .invalidDigit)
  else .ok ⟨.token ⟨.integer, String.ofList (c :: digits), loc⟩, digits.length⟩

def cutWord (loc : Nat) (c : Char) (cs : List Char) : Cut :=
  let word := c :: cs.takeWhile isNamePart
  ⟨.token ⟨.ofWord (String.ofList word), String.ofList word, loc⟩, word.length - 1⟩

/-- After the opening quote: one ASCII character or one escape, and the closing quote. -/
def cutCharacter (loc : Nat) : List Char → Except Fault Cut
  | '\\' :: cs => do
    let value ← escape (loc + 2) cs
    if (cs.drop 1).head? = some '\'' then
      .ok ⟨.token ⟨.character, value.toString, loc⟩, 3⟩
    else .error (.located loc .unendedCharacter)
  | c :: '\'' :: _ =>
    if c.toNat < 0x80 then .ok ⟨.token ⟨.character, c.toString, loc⟩, 2⟩
    else .error (.located loc .unendedCharacter)
  | _ => .error (.located loc .unendedCharacter)

/-- The contents of a string literal opened at `start`, and how many characters it takes with its
closing quote. `loc` is where the input stands. -/
def textBody (start loc : Nat) : List Char → Except Fault (List Char × Nat)
  | [] => .error (.located start .unendedText)
  | '"' :: _ => .ok ([], 1)
  | ['\\'] => .error (.located (loc + 1) .unendedEscape)
  | '\\' :: c :: cs => do
    let value ← escape (loc + 1) [c]
    let (values, taken) ← textBody start (loc + 2) cs
    return (value :: values, taken + 2)
  | c :: cs => do
    let (values, taken) ← textBody start (loc + c.utf8Size) cs
    return (c :: values, taken + 1)

def cutText (loc : Nat) (cs : List Char) : Except Fault Cut := do
  let (values, taken) ← textBody loc (loc + 1) cs
  return ⟨.token ⟨.text, String.ofList values, loc⟩, taken⟩

/-- The piece at the front of `c :: cs`, which stands at `loc`. -/
def cut (loc : Nat) (c : Char) (cs : List Char) : Except Fault Cut :=
  match fixed? (c :: cs) with
  | some kind => .ok ⟨.token (fixed kind loc), (kind.chars?.getD []).length - 1⟩
  | none =>
    if c == '#' then cutComment loc cs
    else if c.isDigit then cutInteger loc c cs
    else if c == '\'' then cutCharacter loc cs
    else if c == '"' then cutText loc cs
    else if isNameStart c then .ok (cutWord loc c cs)
    else .error (.located loc (.malformedToken c))

/-- All pieces of an input that stands at `loc`, up to the first fault. -/
def pieces (loc : Nat) : List Char → List Piece × Option Fault
  | [] => ([], none)
  | c :: cs =>
    match cut loc c cs with
    | .error fault => ([], some fault)
    | .ok ⟨piece, more⟩ =>
      let (rest, fault?) := pieces (loc + Text.byteWidth (c :: cs.take more)) (cs.drop more)
      (piece :: rest, fault?)
termination_by cs => cs.length
decreasing_by simp only [List.length_drop, List.length_cons]; omega

/-- The tokens of a source. -/
def scan (source : String) : Traced (List Token) :=
  let (parts, fault?) := pieces 0 source.toList
  let comments := parts.filterMap Piece.event?
  match fault? with
  | some fault => ⟨comments, .error fault⟩
  | none =>
    let tokens := parts.filterMap Piece.token?
    ⟨comments ++ [.scanned tokens.length], .ok tokens⟩

end ProcLang.Token
