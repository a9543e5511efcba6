import ProcLang.Token.Lexer

/-! How tokens are written, and how they cover a source. -/
namespace ProcLang.Token

/-- The words that are no names. -/
def reserved : List (String × Kind) :=
  [("true", .boolean), ("false", .boolean)] ++
  [("sizeof", Keyword.sizeof), ("if", .if_), ("else", .else_), ("while", .while_),
    ("return", .return_), ("proc", .proc), ("extern", .extern_), ("etcetera", .etcetera)].map
    fun (text, keyword) => (text, .keyword keyword)

/-- A word is a name, unless it is reserved. -/
inductive WordKind (text : String) : Kind → Prop
  | reserved {kind : Kind} (listed : (text, kind) ∈ reserved) : WordKind text kind
  | name (unlisted : ∀ kind, (text, kind) ∉ Token.reserved) : WordKind text .name

/-- What may be written after a backslash, and the character that it stands for. -/
def escapes : List (Char × Char) :=
  [('0', '\x00'), ('a', '\x07'), ('b', '\x08'), ('e', '\x1b'), ('f', '\x0c'), ('n', '\n'),
    ('r', '\r'), ('t', '\t'), ('v', '\x0b'), ('\\', '\\'), ('\'', '\''), ('"', '"')]

theorem unescape?_eq_some {c value : Char} :
    unescape? c = some value ↔ (c, value) ∈ escapes := by
  constructor
  · intro h
    unfold unescape? at h
    split at h <;> cases h <;> decide
  · intro h
    have hall : ∀ pair ∈ escapes, unescape? pair.1 = some pair.2 := by decide
    exact hall _ h

theorem ascii_of_mem_escapes {c value : Char} (h : (c, value) ∈ escapes) :
    c.toNat < 128 ∧ value.toNat < 128 := by
  have hall : ∀ pair ∈ escapes, pair.1.toNat < 128 ∧ pair.2.toNat < 128 := by decide
  exact hall _ h

/-- What stands between the quotes of a string literal, as it is written and as it is meant. No
quote ends it before. -/
inductive Quoted : List Char → List Char → Prop
  | nil : Quoted [] []
  | plain {c : Char} {cs values : List Char} (unescaped : c ≠ '\\') (inside : c ≠ '"')
    (rest : Quoted cs values) : Quoted (c :: cs) (c :: values)
  | escaped {c value : Char} {cs values : List Char} (known : (c, value) ∈ escapes)
    (rest : Quoted cs values) : Quoted ('\\' :: c :: cs) (value :: values)

/-- What stands between the quotes of a character literal: an ASCII character, which may be a quote,
or an escape. -/
inductive QuotedChar : List Char → Char → Prop
  | plain {c : Char} (unescaped : c ≠ '\\') (ascii : c.toNat < 0x80) : QuotedChar [c] c
  | escaped {c value : Char} (known : (c, value) ∈ escapes) : QuotedChar ['\\', c] value

/-- `Lexeme t cs rest`: the token `t` is written `cs` where `rest` follows. Punctuation, numbers and
words are as long as they can be. -/
inductive Lexeme : Token → List Char → List Char → Prop
  | fixed {kind : Kind} {cs rest : List Char} (loc : Nat) (spelled : kind.chars? = some cs)
    (longest : ∀ (other : Kind) (cs' : List Char), other.chars? = some cs' → cs' <+: cs ++ rest →
      cs'.length ≤ cs.length) : Lexeme ⟨kind, String.ofList cs, loc⟩ cs rest
  | carriageReturn (loc : Nat) (rest : List Char) :
    Lexeme ⟨.blank .newline, "\n", loc⟩ ['\r'] rest
  | integer {cs rest : List Char} (loc : Nat) (nonempty : cs ≠ [])
    (digits : ∀ c ∈ cs, c.isDigit = true)
    (ends : ∀ c ∈ rest.head?, c.isDigit = false ∧ c.isAlpha = false) :
    Lexeme ⟨.integer, String.ofList cs, loc⟩ cs rest
  | word {c : Char} {cs rest : List Char} {kind : Kind} (loc : Nat) (starts : isNameStart c = true)
    (inside : ∀ d ∈ cs, isNamePart d = true) (ends : ∀ d ∈ rest.head?, isNamePart d = false)
    (known : WordKind (String.ofList (c :: cs)) kind) :
    Lexeme ⟨kind, String.ofList (c :: cs), loc⟩ (c :: cs) rest
  | character {cs : List Char} {value : Char} (loc : Nat) (rest : List Char)
    (inside : QuotedChar cs value) :
    Lexeme ⟨.character, value.toString, loc⟩ ('\'' :: cs ++ ['\'']) rest
  | text {cs values : List Char} (loc : Nat) (rest : List Char) (inside : Quoted cs values) :
    Lexeme ⟨.text, String.ofList values, loc⟩ ('"' :: cs ++ ['"']) rest

/-- `Tiles loc cs ts`: the characters `cs`, the first of which is at byte `loc`, are the lexemes of
the tokens `ts`, one after the other, and comments between them. A comment goes on to the end of its
line, which must be there and is not part of it. -/
inductive Tiles : Nat → List Char → List Token → Prop
  | done (loc : Nat) : Tiles loc [] []
  | token {t : Token} {cs rest : List Char} {ts : List Token} (lexeme : Lexeme t cs rest)
    (others : Tiles (t.loc + Text.byteWidth cs) rest ts) : Tiles t.loc (cs ++ rest) (t :: ts)
  | comment {loc : Nat} {cs rest : List Char} {ts : List Token} (inside : '\n' ∉ cs)
    (others : Tiles (loc + Text.byteWidth ('#' :: cs)) ('\n' :: rest) ts) :
    Tiles loc ('#' :: cs ++ '\n' :: rest) ts

end ProcLang.Token
