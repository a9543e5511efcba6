/-! Kinds of tokens. -/
namespace ProcLang.Token

inductive Blank where
  | space | tab | newline
  deriving DecidableEq, Repr

inductive Delimiter where
  | comma | openParen | closeParen | openBracket | closeBracket | openBrace | closeBrace
  deriving DecidableEq, Repr

/-- Signs that may stand in operator position. -/
inductive Sign where
  | atSign | bang | bangEquals | tilde | caret | plus | dash | star | slash | percent
  | equals | doubleEquals
  | leftAngle | leftAngleEquals | doubleLeftAngle
  | rightAngle | rightAngleEquals | doubleRightAngle
  | bar | doubleBar | ampersand | doubleAmpersand
  deriving DecidableEq, Repr

inductive Keyword where
  | sizeof | if_ | else_ | while_ | return_ | proc | extern_ | etcetera
  deriving DecidableEq, Repr

inductive Kind where
  | blank (b : Blank)
  | delimiter (d : Delimiter)
  | sign (s : Sign)
  | integer
  | character
  | boolean
  | text
  | keyword (k : Keyword)
  | name
  deriving DecidableEq, Repr

def Blank.chars : Blank → List Char
  | .space => [' ']
  | .tab => ['\t']
  | .newline => ['\n']

def Blank.label : Blank → String
  | .space => "Space"
  | .tab => "Tab"
  | .newline => "Newline"

def Delimiter.chars : Delimiter → List Char
  | .comma => [',']
  | .openParen => ['(']
  | .closeParen => [')']
  | .openBracket => ['[']
  | .closeBracket => [']']
  | .openBrace => ['\x7b']
  | .closeBrace => ['\x7d']

def Delimiter.label : Delimiter → String
  | .comma => "Comma"
  | .openParen => "OpenParen"
  | .closeParen => "CloseParen"
  | .openBracket => "OpenBracket"
  | .closeBracket => "CloseBracket"
  | .openBrace => "OpenBrace"
  | .closeBrace => "CloseBrace"

def Sign.chars : Sign → List Char
  | .atSign => ['@']
  | .bang => ['!']
  | .bangEquals => ['!', '=']
  | .tilde => ['~']
  | .caret => ['^']
  | .plus => ['+']
  | .dash => ['-']
  | .star => ['*']
  | .slash => ['/']
  | .percent => ['%']
  | .equals => ['=']
  | .doubleEquals => ['=', '=']
  | .leftAngle => ['<']
  | .leftAngleEquals => ['<', '=']
  | .doubleLeftAngle => ['<', '<']
  | .rightAngle => ['>']
  | .rightAngleEquals => ['>', '=']
  | .doubleRightAngle => ['>', '>']
  | .bar => ['|']
  | .doubleBar => ['|', '|']
  | .ampersand => ['&']
  | .doubleAmpersand => ['&', '&']

def Sign.label : Sign → String
  | .atSign => "At"
  | .bang => "Bang"
  | .bangEquals => "BangEquals"
  | .tilde => "Tilde"
  | .caret => "Caret"
  | .plus => "Plus"
  | .dash => "Dash"
  | .star => "Star"
  | .slash => "Slash"
  | .percent => "Percent"
  | .equals => "Equals"
  | .doubleEquals => "DoubleEquals"
  | .leftAngle => "LeftAngle"
  | .leftAngleEquals => "LeftAngleEquals"
  | .doubleLeftAngle => "DoubleLeftAngle"
  | .rightAngle => "RightAngle"
  | .rightAngleEquals => "RightAngleEquals"
  | .doubleRightAngle => "DoubleRightAngle"
  | .bar => "Bar"
  | .doubleBar => "DoubleBar"
  | .ampersand => "Ampersand"
  | .doubleAmpersand => "DoubleAmpersand"

def Keyword.label : Keyword → String
  | .sizeof => "Sizeof"
  | .if_ => "If"
  | .else_ => "Else"
  | .while_ => "While"
  | .return_ => "Return"
  | .proc => "Proc"
  | .extern_ => "Extern"
  | .etcetera => "Etcetera"

namespace Kind

/-- The name of a kind in diagnostics. -/
def label : Kind → String
  | .blank b => b.label
  | .delimiter d => d.label
  | .sign s => s.label
  | .integer => "Integer"
  | .character => "Char"
  | .boolean => "Boolean"
  | .text => "String"
  | .keyword k => k.label
  | .name => "Name"

/-- The characters of a token, where its kind alone decides them. -/
def chars? : Kind → Option (List Char)
  | .blank b => some b.chars
  | .delimiter d => some d.chars
  | .sign s => some s.chars
  | _ => none

def spelling? (k : Kind) : Option String :=
  k.chars?.map String.ofList

def isBlank : Kind → Bool
  | .blank _ => true
  | _ => false

def isSign : Kind → Bool
  | .sign _ => true
  | _ => false

/-- Words that are no names. -/
def ofWord : String → Kind
  | "true" => .boolean
  | "false" => .boolean
  | "sizeof" => .keyword .sizeof
  | "if" => .keyword .if_
  | "else" => .keyword .else_
  | "while" => .keyword .while_
  | "return" => .keyword .return_
  | "proc" => .keyword .proc
  | "extern" => .keyword .extern_
  | "etcetera" => .keyword .etcetera
  | _ => .name

/-- Every kind, blanks first and names last. -/
def all : List Kind :=
  [Blank.space, .tab, .newline].map .blank ++
  [Delimiter.comma, .openParen, .closeParen, .openBracket, .closeBracket, .openBrace,
    .closeBrace].map .delimiter ++
  [Sign.atSign, .bang, .bangEquals, .tilde, .caret, .plus, .dash, .star, .slash, .percent, .equals,
    .doubleEquals, .leftAngle, .leftAngleEquals, .doubleLeftAngle, .rightAngle, .rightAngleEquals,
    .doubleRightAngle, .bar, .doubleBar, .ampersand, .doubleAmpersand].map .sign ++
  [.integer, .character, .boolean, .text] ++
  [Keyword.sizeof, .if_, .else_, .while_, .return_, .proc, .extern_, .etcetera].map .keyword ++
  [.name]

def ofLabel? (s : String) : Option Kind :=
  all.find? (·.label = s)

end Kind

end ProcLang.Token
