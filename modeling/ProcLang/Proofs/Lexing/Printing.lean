import ProcLang.Proofs.Lexing.Scan

/-! Scanning undoes writing: tokens that are written one after the other, each with a space behind
it, are found where they were written. -/
namespace ProcLang.Token

/-- The texts that a token of a kind can have. -/
inductive Writable : Kind → String → Prop
  | fixed {kind : Kind} {cs : List Char} (spelled : kind.chars? = some cs) :
    Writable kind (String.ofList cs)
  | integer {digits : List Char} (nonempty : digits ≠ []) (all : ∀ c ∈ digits, c.isDigit = true) :
    Writable .integer (String.ofList digits)
  | reserved {kind : Kind} {text : String} (listed : (text, kind) ∈ reserved) : Writable kind text
  | name {c : Char} {cs : List Char} (starts : isNameStart c = true)
    (inside : ∀ d ∈ cs, isNamePart d = true)
    (unlisted : ∀ kind, (String.ofList (c :: cs), kind) ∉ Token.reserved) :
    Writable .name (String.ofList (c :: cs))
  | character {c : Char} (ascii : c.toNat < 0x80) : Writable .character c.toString
  | text (s : String) : Writable .text s

/-- Between quotes, a backslash stands before each backslash and before the quote itself. -/
def guarded (quote c : Char) : List Char :=
  if c = '\\' ∨ c = quote then ['\\', c] else [c]

/-- How a token is written. -/
def written : Kind → String → List Char
  | .character, s => '\'' :: s.toList.flatMap (guarded '\'') ++ ['\'']
  | .text, s => '"' :: s.toList.flatMap (guarded '"') ++ ['"']
  | _, s => s.toList

/-- Tokens in a row, each with a space behind it. -/
def row (items : List (Kind × String)) : List Char :=
  items.flatMap fun (kind, text) => written kind text ++ [' ']

/-- The tokens of a row that starts at `loc`, and the spaces behind them. -/
def placed (loc : Nat) : List (Kind × String) → List Token
  | [] => []
  | (kind, text) :: items =>
    let stop := loc + Text.byteWidth (written kind text)
    ⟨kind, text, loc⟩ :: ⟨.blank .space, " ", stop⟩ :: placed (stop + 1) items

section Fixed

/-- The characters that a sign of two characters starts with. -/
def joined : List Char := ['!', '=', '<', '>', '|', '&']

/-- The characters that it ends with. -/
def joining : List Char := ['=', '<', '>', '|', '&']

theorem spelling_cases {kind : Kind} {cs : List Char} (h : kind.chars? = some cs) :
    (∃ c, cs = [c]) ∨ ∃ c d, cs = [c, d] ∧ c ∈ joined ∧ d ∈ joining := by
  have hall : ∀ kind ∈ fixedKinds, ∀ cs ∈ kind.chars?, cs.length = 1 ∨
      cs.length = 2 ∧ cs.head?.all (· ∈ joined) ∧ cs.tail.all (· ∈ joining) := by decide
  rcases hall kind (mem_fixedKinds h) cs h with hone | ⟨htwo, hfirst, hsecond⟩
  · exact .inl (List.length_eq_one_iff.mp hone)
  · obtain ⟨c, d, rfl⟩ := List.length_eq_two.mp htwo
    exact .inr ⟨c, d, rfl, by simpa using hfirst, by simpa using hsecond⟩

/-- A spelling is not the beginning of a longer one, unless a character that follows joins it. -/
theorem lexeme_fixed {kind : Kind} {cs rest : List Char} (loc : Nat) (hs : kind.chars? = some cs)
    (hends : (∀ c ∈ cs.head?, c ∉ joined) ∨ ∀ c ∈ rest.head?, c ∉ joining) :
    Lexeme ⟨kind, String.ofList cs, loc⟩ cs rest := by
  refine .fixed loc hs fun other cs' hother hprefix => ?_
  rcases spelling_cases hs with ⟨c, rfl⟩ | ⟨c, d, rfl, -, -⟩
  · rcases spelling_cases hother with ⟨c', rfl⟩ | ⟨c', d', rfl, hc', hd'⟩
    · rfl
    · obtain ⟨rfl, tail, rfl⟩ := List.cons_prefix_cons.mp hprefix
      rcases hends with hends | hends
      · exact absurd hc' (hends _ rfl)
      · exact absurd hd' (hends _ rfl)
  · rcases spelling_cases hother with ⟨c', rfl⟩ | ⟨c', d', rfl, -, -⟩
    · exact Nat.le_succ 1
    · rfl

/-- No spelling of two characters starts with most of those of one. -/
theorem lexeme_single {kind : Kind} {c : Char} (hs : kind.chars? = some [c]) (hc : c ∉ joined)
    (loc : Nat) (rest : List Char) : Lexeme ⟨kind, String.ofList [c], loc⟩ [c] rest := by
  refine lexeme_fixed loc hs (.inl ?_)
  rintro _ ⟨⟩
  exact hc

theorem lexeme_space (loc : Nat) (rest : List Char) :
    Lexeme ⟨.blank .space, " ", loc⟩ [' '] rest :=
  lexeme_single rfl (by decide) loc rest

end Fixed

section Written

/-- Nothing that follows is taken for a part of the token before it. -/
def Apart (rest : List Char) : Prop :=
  ∀ c ∈ rest.head?, c = ' ' ∨ c = ')'

theorem Apart.not {p : Char → Prop} {rest : List Char} (h : Apart rest) (hspace : ¬p ' ')
    (hparen : ¬p ')') : ∀ c ∈ rest.head?, ¬p c := by
  intro c hc
  rcases h c hc with rfl | rfl
  · exact hspace
  · exact hparen

theorem quoted_guarded (cs : List Char) : Quoted (cs.flatMap (guarded '"')) cs := by
  induction cs with
  | nil => exact .nil
  | cons c cs ih =>
    rw [List.flatMap_cons, guarded]
    split
    next hguard =>
      refine .escaped ?_ ih
      rcases hguard with rfl | rfl <;> decide
    next hguard =>
      obtain ⟨hbackslash, hquote⟩ := not_or.mp hguard
      exact .plain hbackslash hquote ih

theorem quotedChar_guarded {c : Char} (ascii : c.toNat < 0x80) :
    QuotedChar (guarded '\'' c) c := by
  rw [guarded]
  split
  next hguard =>
    refine .escaped ?_
    rcases hguard with rfl | rfl <;> decide
  next hguard => exact .plain (not_or.mp hguard).1 ascii

theorem written_eq {kind : Kind} (hcharacter : kind ≠ .character) (htext : kind ≠ .text)
    (s : String) : written kind s = s.toList := by
  cases kind with
  | character => exact absurd rfl hcharacter
  | text => exact absurd rfl htext
  | _ => rfl

theorem lexeme_reserved {kind : Kind} {text : String} (h : (text, kind) ∈ reserved) (loc : Nat)
    {rest : List Char} (hrest : ∀ c ∈ rest.head?, isNamePart c = false) :
    Lexeme ⟨kind, text, loc⟩ text.toList rest := by
  have hall : ∀ word ∈ reserved, word.1.toList.head?.any isNameStart = true ∧
      word.1.toList.tail.all isNamePart = true := by decide
  obtain ⟨hstarts, hinside⟩ := hall _ h
  have htext : text = String.ofList text.toList := String.ofList_toList.symm
  generalize text.toList = cs at htext hstarts hinside
  subst htext
  cases cs with
  | nil => cases hstarts
  | cons c cs => exact .word loc hstarts (List.all_eq_true.mp hinside) hrest (.reserved h)

/-- A token is written as its lexeme. -/
theorem lexeme_written {kind : Kind} {text : String} (h : Writable kind text) (loc : Nat)
    {rest : List Char} (hrest : Apart rest) :
    Lexeme ⟨kind, text, loc⟩ (written kind text) rest := by
  have hpart : ∀ c ∈ rest.head?, isNamePart c = false := by
    simpa using hrest.not (p := fun c => isNamePart c = true) (by decide) (by decide)
  cases h with
  | @fixed kind cs hs =>
    have hwritten : written kind (String.ofList cs) = cs := by
      rw [written_eq, String.toList_ofList]
      · rintro rfl
        cases hs
      · rintro rfl
        cases hs
    rw [hwritten]
    exact lexeme_fixed loc hs (.inr (hrest.not (by decide) (by decide)))
  | @integer digits hnonempty hall =>
    rw [written_eq (by decide) (by decide), String.toList_ofList]
    refine .integer loc hnonempty hall ?_
    simpa using
      hrest.not (p := fun c => c.isDigit = true ∨ c.isAlpha = true) (by decide) (by decide)
  | reserved hlisted =>
    have hkinds : ∀ word ∈ reserved, word.2 ≠ .character ∧ word.2 ≠ .text := by decide
    obtain ⟨hcharacter, htext⟩ := hkinds _ hlisted
    rw [written_eq hcharacter htext]
    exact lexeme_reserved hlisted loc hpart
  | @name c cs hstarts hinside hunlisted =>
    rw [written_eq (by decide) (by decide), String.toList_ofList]
    exact .word loc hstarts hinside hpart (.name hunlisted)
  | @character c hascii =>
    have hwritten : written .character c.toString = '\'' :: guarded '\'' c ++ ['\''] := by
      simp [written]
    rw [hwritten]
    exact .character loc rest (quotedChar_guarded hascii)
  | text =>
    have hlexeme := Lexeme.text loc rest (quoted_guarded text.toList)
    rwa [String.ofList_toList] at hlexeme

end Written

theorem tiles_row {items : List (Kind × String)} (h : ∀ item ∈ items, Writable item.1 item.2)
    (loc : Nat) : Tiles loc (row items) (placed loc items) := by
  induction items generalizing loc with
  | nil => exact .done loc
  | cons item items ih =>
    obtain ⟨kind, text⟩ := item
    obtain ⟨hitem, hitems⟩ := List.forall_mem_cons.mp h
    have hrow : row ((kind, text) :: items) = written kind text ++ ([' '] ++ row items) := by
      simp [row]
    rw [hrow]
    have hspace : Apart ([' '] ++ row items) := by
      rintro c ⟨⟩
      exact .inl rfl
    exact .token (lexeme_written hitem loc hspace)
      (.token (lexeme_space _ _) (ih hitems _))

/-- Tokens that are written in a row are scanned as they were, each at the offset where it was
written and with a space behind it. -/
theorem scan_row {items : List (Kind × String)} (h : ∀ item ∈ items, Writable item.1 item.2) :
    (scan (String.ofList (row items))).result = .ok (placed 0 items) := by
  refine scan_of_tiles ?_
  rw [String.toList_ofList]
  exact tiles_row h 0

namespace Mixed

/-- A string that holds quotes, a backslash, a line feed and characters of more than one byte. -/
def items : List (Kind × String) :=
  [(.keyword .if_, "if"), (.name, "if_"), (.sign .leftAngle, "<"), (.sign .leftAngleEquals, "<="),
    (.integer, "007"), (.character, "'"), (.text, "\"é'\\\n#"), (.blank .newline, "\n"),
    (.boolean, "true")]

theorem writable : ∀ item ∈ items, Writable item.1 item.2 := by
  simp only [items, List.forall_mem_cons]
  have hname : ['f', '_'].all isNamePart = true := by decide
  have hdigits : ['0', '0', '7'].all Char.isDigit = true := by decide
  refine ⟨.reserved (by decide), @Writable.name 'i' _ rfl (List.all_eq_true.mp hname) ?_,
    .fixed rfl, .fixed rfl, .integer (by decide) (List.all_eq_true.mp hdigits),
    @Writable.character '\'' (by decide), .text _, .fixed rfl, .reserved (by decide), by simp⟩
  simp [reserved]

end Mixed

open Mixed in
theorem scan_row_mixed : (∀ item ∈ items, Writable item.1 item.2) ∧
    String.ofList (row items) = "if if_ < <= 007 '\\'' \"\\\"é'\\\\\n#\" \n true " ∧
    (scan (String.ofList (row items))).result = .ok (placed 0 items) ∧
    (placed 0 items).map Token.loc =
      [0, 2, 3, 6, 7, 8, 9, 11, 12, 15, 16, 20, 21, 32, 33, 34, 35, 39] :=
  ⟨writable, by decide, scan_row writable, by decide⟩

end ProcLang.Token
