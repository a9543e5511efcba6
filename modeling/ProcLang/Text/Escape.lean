import ProcLang.Text.DefaultIgnorableRanges
import ProcLang.Text.UnprintableRanges
import ProcLang.Text.GraphemeExtendRanges

/-! Backslash escapes for text quoted in messages. -/
namespace ProcLang.Text

def inRanges (ranges : List (Nat × Nat)) (c : Char) : Bool :=
  ranges.any fun (low, high) => low ≤ c.toNat && c.toNat ≤ high

/-- The ASCII characters with a visible form, and the space. -/
def isAsciiPrintable (c : Char) : Bool :=
  ' ' ≤ c && c ≤ '~'

def isDefaultIgnorable (c : Char) : Bool :=
  inRanges defaultIgnorableRanges c

/-- A character has a visible form if its category gives it one and it may not be ignored. -/
def isPrintable (c : Char) : Bool :=
  isAsciiPrintable c || !(inRanges unprintableRanges c || isDefaultIgnorable c)

def isGraphemeExtend (c : Char) : Bool :=
  inRanges graphemeExtendRanges c

/-- The halfwidth katakana sound marks, which are letters with a cell of their own. -/
def isHalfwidthSoundMark (c : Char) : Bool :=
  c.toNat = 0xff9e || c.toNat = 0xff9f

/-- Drawn onto the character before it. A grapheme goes on through the sound marks too, but they
stand beside what they modify. -/
def isAttached (c : Char) : Bool :=
  isGraphemeExtend c && !isHalfwidthSoundMark c

/-- What a style of escaping decides beyond the short escapes that all styles share. -/
structure EscapeStyle where
  /-- NUL has a short escape of its own. -/
  shortNul : Bool
  /-- Characters written by their code point. -/
  coded : Char → Bool

/-- Inside a text: what has a visible form stands for itself. -/
def EscapeStyle.inner : EscapeStyle where
  shortNul := true
  coded c := !isPrintable c

/-- With nothing before it, a character that is drawn onto its predecessor is coded too. -/
def EscapeStyle.standalone : EscapeStyle where
  shortNul := true
  coded c := isAttached c || !isPrintable c

/-- Only printable ASCII stands for itself. -/
def EscapeStyle.ascii : EscapeStyle where
  shortNul := false
  coded c := !isAsciiPrintable c

/-- A code point in lower-case hexadecimal, without leading zeros. -/
def codePoint (c : Char) : List Char :=
  ['\\', 'u', '\x7b'] ++ Nat.toDigits 16 c.toNat ++ ['\x7d']

def escapeChar (style : EscapeStyle) (c : Char) : List Char :=
  match c with
  | '\t' => ['\\', 't']
  | '\r' => ['\\', 'r']
  | '\n' => ['\\', 'n']
  | '\'' => ['\\', '\'']
  | '"' => ['\\', '"']
  | '\\' => ['\\', '\\']
  | c =>
    if c.toNat = 0 ∧ style.shortNul then ['\\', '0']
    else if style.coded c then codePoint c
    else [c]

/-- A single character, escaped on its own. -/
def escapeSingle (c : Char) : String :=
  String.ofList (escapeChar .standalone c)

/-- A whole text; only its first character has nothing to attach to. -/
def escapeText (s : String) : String :=
  match s.toList with
  | [] => ""
  | c :: cs => String.ofList (escapeChar .standalone c ++ cs.flatMap (escapeChar .inner))

/-- A whole text in ASCII. -/
def escapeAscii (s : String) : String :=
  String.ofList (s.toList.flatMap (escapeChar .ascii))

end ProcLang.Text
