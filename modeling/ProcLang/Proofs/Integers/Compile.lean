import ProcLang.Proofs.Codegen.Sites
import ProcLang.Proofs.Correctness.Compile
import ProcLang.Proofs.Decoration.Frame
import ProcLang.Proofs.Display.Literal
import ProcLang.Proofs.Grammar.Sites
import ProcLang.Proofs.Lexing.Bytes

/-! Integer literals, from their digits in a source to the word that the code pushes. -/
namespace ProcLang

open Assembly Codegen

namespace Grammar

/-- A row of digits in a source, as long as it can be, where an expression is wanted. -/
structure StandsAsExpression (source : String) (before digits after : List Char) : Prop where
  split : source.toList = before ++ (digits ++ after)
  nonempty : digits ≠ []
  all : ∀ c ∈ digits, c.isDigit = true
  ends : ∀ c ∈ after.head?, c.isDigit = false
  wanted : ∃ tokens t rest, (Token.scan source).result = .ok tokens ∧
    t.loc = Text.byteWidth before ∧ Site (t :: rest) (tokens.filter Token.isSignificant)

/-- The token where an expression is wanted is one of the source. -/
theorem mem_of_site {t : Token} {rest tokens : List Token}
    (h : Site (t :: rest) (tokens.filter Token.isSignificant)) : t ∈ tokens :=
  List.mem_of_mem_filter ((sublist_of_site h).subset List.mem_cons_self)

/-- The token of a row of digits. -/
def digitsToken (before digits : List Char) : Token :=
  ⟨.integer, String.ofList digits, Text.byteWidth before⟩

/-- The literal of a row of digits, if their number fits into a word. -/
def digitsLiteral (before digits : List Char) : Literal :=
  ⟨.integer (Int64.ofNat (decimal digits)), Text.byteWidth before⟩

theorem toInt_ofNat_decimal {digits : List Char} (h : decimal digits < 2 ^ 63) :
    (Int64.ofNat (decimal digits)).toInt = decimal digits :=
  Int64.toInt_ofNat_of_lt h

theorem integer_of_expr {t : Token} {ts rest : List Token} {e : Expression}
    (ht : t.kind = .integer) (h : Expr (t :: ts) e rest) :
    ∃ value : Int64, Numeral t.text value.toInt ∧ e = .literal ⟨.integer value, t.loc⟩ := by
  cases h with
  | integer _ _ hnumeral => exact ⟨_, hnumeral, rfl⟩
  | character _ hkind | boolean _ hkind | text _ hkind | size hkind _ _ _ _ | var _ hkind
  | operation hkind _ _ _ =>
    rw [ht] at hkind
    cases hkind

/-- Every integer token stands for a literal, with the number that the digits spell. -/
theorem Carries.exists_integer {t : Token} {ts : List Token} {es : List Expression}
    (h : Carries ts es) (ht : t.kind = .integer) (hmem : t ∈ ts) :
    ∃ value : Int64, Numeral t.text value.toInt ∧ .literal ⟨.integer value, t.loc⟩ ∈ es := by
  induction h with
  | nil => cases hmem
  | begins hfirst _ ih =>
    rcases List.mem_cons.mp hmem with rfl | hmem
    · obtain ⟨value, hnumeral, rfl⟩ := integer_of_expr ht hfirst
      exact ⟨value, hnumeral, List.mem_cons_self⟩
    · obtain ⟨value, hnumeral, hvalue⟩ := ih hmem
      exact ⟨value, hnumeral, List.mem_cons_of_mem _ hvalue⟩
  | skips hkind _ ih =>
    rcases List.mem_cons.mp hmem with rfl | hmem
    · rw [ht] at hkind
      cases hkind
    · exact ih hmem

section

variable {source : String} {before digits after : List Char}

theorem StandsAsExpression.exists_site (h : StandsAsExpression source before digits after) :
    ∃ tokens rest, (Token.scan source).result = .ok tokens ∧
      Site (digitsToken before digits :: rest) (tokens.filter Token.isSignificant) := by
  obtain ⟨tokens, t, rest, hscan, hloc, hsite⟩ := h.wanted
  obtain ⟨front, lexeme, back, hsource, hfront, hlexeme⟩ :=
    Token.exists_lexeme (Token.tiles_of_scan hscan) t (mem_of_site hsite)
  have hwidth : Text.byteWidth front = Text.byteWidth before := by
    rw [← hloc, hfront, Nat.zero_add]
  obtain ⟨-, hback⟩ := Text.append_inj_of_byteWidth (hsource.symm.trans h.split) hwidth
  have ht := hlexeme.eq_integer hback h.nonempty h.all h.ends
  rw [hloc] at ht
  rw [ht] at hsite
  exact ⟨tokens, rest, hscan, hsite⟩

theorem StandsAsExpression.numeral (h : StandsAsExpression source before digits after) :
    Numeral (digitsToken before digits).text (decimal digits) :=
  .plain h.nonempty h.all

/-- Wherever the tokens of the source are derived, the literal is part of the tree. -/
theorem StandsAsExpression.mem_parts (h : StandsAsExpression source before digits after)
    (hlt : decimal digits < 2 ^ 63) {tokens : List Token} {p : Program}
    (hscan : (Token.scan source).result = .ok tokens)
    (hderives : Derives (tokens.filter Token.isSignificant) p) :
    .literal (digitsLiteral before digits) ∈ p.parts := by
  obtain ⟨tokens', rest, hscan', hsite⟩ := h.exists_site
  cases hscan.symm.trans hscan'
  have hmem := (sublist_of_site hsite).subset List.mem_cons_self
  obtain ⟨value, hnumeral, hvalue⟩ := (carries_of_derives hderives).exists_integer rfl hmem
  have hsame : value = Int64.ofNat (decimal digits) := by
    rw [← Int64.toInt_inj, toInt_ofNat_decimal hlt]
    exact hnumeral.unique h.numeral
  rw [hsame] at hvalue
  exact hvalue

end

end Grammar

open Grammar

namespace Text

variable {s : String} {n : Nat}

theorem int64?_of_lt (h : Numeral s n) (hlt : n < 2 ^ 63) : int64? s = some (Int64.ofNat n) := by
  rw [int64?_eq_some, Int64.toInt_ofNat_of_lt hlt]
  exact h

theorem int64?_of_ge (h : Numeral s n) (hge : 2 ^ 63 ≤ n) : int64? s = none := by
  cases hread : int64? s with
  | none => rfl
  | some value =>
    have hvalue := (int64?_eq_some.mp hread).unique h
    have hbound := value.toInt_lt
    omega

end Text

theorem Cursor.peek?_cons {t : Token} (ht : t.isSignificant = true) (rest : List Token) :
    peek? (t :: rest) = some (t, .tail t rest) := by
  have hskip : skip (t :: rest) = ⟨t :: rest, Nat.le_refl _⟩ := by
    apply Subtype.ext
    rw [skip_val, List.dropWhile_cons_of_neg (by simpa using ht)]
  rw [peek?, hskip]
  rfl

section

variable {t : Token} {n : Nat} (ht : t.kind = .integer) (hnumeral : Numeral t.text n)

include ht hnumeral

theorem Parser.expression_of_ge (hge : 2 ^ 63 ≤ n) (eof : Nat) (rest : List Token) :
    expression eof (t :: rest) = .error (.located t.loc .integerRange) := by
  rw [expression]
  simp only [ht, literal?, Text.int64?_of_ge hnumeral hge]
  rfl

theorem Cursor.expression_of_lt (hlt : n < 2 ^ 63) (eof : Nat) (rest : List Token) :
    expression eof (t :: rest) =
      .ok (.matched (.literal ⟨.integer (Int64.ofNat n), t.loc⟩) (.tail t rest)) := by
  have hsignificant : t.isSignificant = true := by
    rw [Token.isSignificant, ht]
    rfl
  rw [expression, peek?_cons hsignificant]
  simp only [ht, Parser.literal?, Text.int64?_of_lt hnumeral hlt]
  rfl

end

namespace Assembly

/-- The word that the immediate value of a line is extended to. A value that is pushed has 32 bits,
and one that is moved has 64. -/
def Line.immediate? : Line → Option (BitVec 64)
  | .instruction (.pushValue value) => some ((BitVec.ofInt 32 value).signExtend 64)
  | .instruction (.moveValue _ value) => some ((BitVec.ofInt 64 value).signExtend 64)
  | _ => none

/-- The lines that push the number `n`, which they show in decimal. -/
structure PushesNumber (n : Nat) (code : Code) : Prop where
  lines : code.map Line.text = if n < 2 ^ 31 then ["    push " ++ toString n ++ "\n"]
    else ["    mov rax, " ++ toString n ++ "\n", "    push rax\n"]
  numeral : Numeral (toString n) n
  word : code.filterMap Line.immediate? = [BitVec.ofNat 64 n]

theorem toInt_ofInt_of_lt {w n : Nat} (hw : 0 < w) (h : n < 2 ^ (w - 1)) :
    (BitVec.ofInt w n).toInt = n := by
  have hhigh : (n : Int) < 2 ^ (w - 1) := by exact_mod_cast h
  have hlow : -(2 : Int) ^ (w - 1) ≤ n := by omega
  exact BitVec.toInt_ofInt_eq_self hw hlow hhigh

/-- A number that leaves the sign bit of a narrower value clear is extended to itself. -/
theorem signExtend_ofInt {w n : Nat} (hw : 0 < w) (hle : w ≤ 64) (h : n < 2 ^ (w - 1)) :
    (BitVec.ofInt w n).signExtend 64 = BitVec.ofNat 64 n := by
  have hword : n < 2 ^ (64 - 1) :=
    Nat.lt_of_lt_of_le h (Nat.pow_le_pow_right (by decide) (by omega))
  apply BitVec.eq_of_toInt_eq
  calc ((BitVec.ofInt w n).signExtend 64).toInt
      = (BitVec.ofInt w n).toInt := BitVec.toInt_signExtend_of_le hle
    _ = n := toInt_ofInt_of_lt hw h
    _ = (BitVec.ofInt 64 n).toInt := (toInt_ofInt_of_lt (by decide) hword).symm
    _ = (BitVec.ofNat 64 n).toInt := by rw [BitVec.ofInt_natCast]

theorem numeral_toString (n : Nat) : Numeral (toString n) n := by
  have hdigits : ∀ c ∈ Nat.toDigits 10 n, c.isDigit = true :=
    fun c hc => Nat.isDigit_of_mem_toDigits (by decide) (by decide) hc
  have hnumeral := Numeral.plain Nat.toDigits_ne_nil hdigits
  rw [decimal_toDigits] at hnumeral
  exact hnumeral

end Assembly

/-- The code of a literal pushes its number. -/
theorem Codegen.pushesNumber_literal {n : Nat} (h : n < 2 ^ 63) (loc : Nat) :
    ∃ code, literalCode ⟨.integer (Int64.ofNat n), loc⟩ = .ok code ∧ PushesNumber n code := by
  have hvalue : (Int64.ofNat n).toInt = n := Int64.toInt_ofNat_of_lt h
  unfold literalCode
  dsimp only
  rw [hvalue]
  by_cases hsmall : n < 2 ^ 31
  · have htest : isSmall n = true := by
      simp only [isSmall, Bool.and_eq_true, decide_eq_true_eq]
      omega
    rw [if_pos htest]
    refine ⟨_, rfl, ?_, numeral_toString n, ?_⟩
    · rw [if_pos hsmall]
      rfl
    · exact congrArg (fun word => [word]) (signExtend_ofInt (by decide) (by decide) hsmall)
  · have htest : ¬isSmall n = true := by
      simp only [isSmall, Bool.and_eq_true, decide_eq_true_eq]
      omega
    rw [if_neg htest]
    refine ⟨_, rfl, ?_, numeral_toString n, ?_⟩
    · rw [if_neg hsmall]
      rfl
    · exact congrArg (fun word => [word]) (signExtend_ofInt (by decide) (by decide) h)

/-- The code of a parsed literal stands in the code of a procedure. -/
theorem Program.exists_infix {p : Program} {a : Assembly}
    (h : p.bind.tree.check.tree.generate = .ok a) {l : Literal} (hl : .literal l ∈ p.parts)
    {code : Code} (hcode : literalCode l = .ok code) :
    ∃ procedure ∈ a.procedures, code <:+: procedure := by
  have hkept : l ∈ p.bind.tree.check.tree.parts.filterMap Expression.literal? := by
    rw [literals_check, literals_bind]
    exact List.mem_filterMap.mpr ⟨_, hl, rfl⟩
  obtain ⟨e, he, hliteral⟩ := List.mem_filterMap.mp hkept
  cases e with
  | literal l' =>
    cases hliteral
    obtain ⟨q, hq, body, hbody, hpart⟩ := mem_parts.mp he
    obtain ⟨procedure, hprocedure, hparts⟩ := exists_procedureCode h hq hbody
    obtain ⟨saved, bodyCode, -, hbodyCode, rfl⟩ := procedureCode_parts hparts
    obtain ⟨own, hown, hinfix⟩ := exists_literalCode hbodyCode hpart
    cases hcode.symm.trans hown
    refine ⟨_, hprocedure, hinfix.trans ?_⟩
    rw [List.append_assoc]
    exact List.infix_append _ _ _
  | _ => cases hliteral

/-- A row of digits that stands as an expression keeps its number. If the number does not fit into
a word, parsing fails there. Otherwise the row is parsed as the literal of that number, and the code
of the literal, which stands in the code of a procedure once the source is compiled, pushes it. -/
theorem compile_integers_exact {source : String} {before digits after : List Char}
    (h : StandsAsExpression source before digits after) :
    (2 ^ 63 ≤ decimal digits →
      (parseSource source).result = .error (.located (Text.byteWidth before) .integerRange) ∧
        (Cause.kind .integerRange).label = "Syntax") ∧
    (decimal digits < 2 ^ 63 →
      (Int64.ofNat (decimal digits)).toInt = decimal digits ∧
      (∃ tokens, (Token.scan source).result = .ok tokens ∧ digitsToken before digits ∈ tokens) ∧
      (∀ eof rest, Cursor.expression eof (digitsToken before digits :: rest) =
        .ok (.matched (.literal (digitsLiteral before digits)) (.tail _ rest))) ∧
      (∀ p, (parseSource source).result = .ok p →
        .literal (digitsLiteral before digits) ∈ p.parts) ∧
      ∃ code, literalCode (digitsLiteral before digits) = .ok code ∧
        PushesNumber (decimal digits) code ∧
        ∀ r, (compile source).result = .ok r →
          ∃ procedure ∈ r.assembly.procedures, code <:+: procedure) := by
  constructor
  · intro hge
    obtain ⟨tokens, rest, hscan, hsite⟩ := h.exists_site
    have hfault := Parser.expression_of_ge rfl h.numeral hge (Text.byteWidth source.toList) rest
    refine ⟨Traced.bind_eq_error.mpr (.inr ⟨tokens, hscan, ?_⟩), rfl⟩
    exact Program.parse_eq_error _ hsite hfault
  · intro hlt
    obtain ⟨code, hcode, hpushes⟩ := pushesNumber_literal hlt (Text.byteWidth before)
    refine ⟨toInt_ofNat_decimal hlt, ?_, Cursor.expression_of_lt rfl h.numeral hlt, ?_, code,
      hcode, hpushes, ?_⟩
    · obtain ⟨tokens, rest, hscan, hsite⟩ := h.exists_site
      exact ⟨tokens, hscan, mem_of_site hsite⟩
    · intro p hparse
      obtain ⟨tokens, hscan, hparse⟩ := Traced.bind_eq_ok.mp hparse
      exact h.mem_parts hlt hscan (Program.derives_of_parse hparse)
    · intro r hcompile
      obtain ⟨p, hcheck, hgenerate, -, -⟩ := generate_of_compile hcompile
      obtain ⟨tokens, parsed, hstages, -, rfl⟩ := exists_stages hcheck
      exact Program.exists_infix hgenerate (h.mem_parts hlt hstages.scanned hstages.derives) hcode

namespace Returned

/-- Returns the smallest number that does not fit into 31 bits, after zeros. -/
def wide : String := "proc int main()\x7breturn 0002147483648\x7d"

/-- Returns the smallest number that does not fit into 63 bits. -/
def huge : String := "proc int main()\x7breturn 9223372036854775808\x7d"

def before : List Char := "proc int main()\x7breturn ".toList

/-- What is left over where the number stands. -/
def here (digits : String) (stop : Nat) : List Token :=
  [⟨.integer, digits, 23⟩, ⟨.delimiter .closeBrace, "\x7d", stop⟩]

def tokens (digits : String) (stop : Nat) : List Token :=
  ⟨.keyword .proc, "proc", 0⟩ :: ⟨.blank .space, " ", 4⟩ :: ⟨.name, "int", 5⟩ ::
    ⟨.blank .space, " ", 8⟩ :: ⟨.name, "main", 9⟩ :: ⟨.delimiter .openParen, "(", 13⟩ ::
    ⟨.delimiter .closeParen, ")", 14⟩ :: ⟨.delimiter .openBrace, "\x7b", 15⟩ ::
    ⟨.keyword .return_, "return", 16⟩ :: ⟨.blank .space, " ", 22⟩ :: here digits stop

theorem site (digits : String) (stop : Nat) :
    Site (here digits stop) ((tokens digits stop).filter Token.isSignificant) := by
  have hbody : StmtSite (here digits stop)
      (⟨.delimiter .openBrace, "\x7b", 15⟩ :: ⟨.keyword .return_, "return", 16⟩ ::
        here digits stop) :=
    .item rfl (.nil _) (.value (.inr (.inr rfl)) (.self rfl rfl))
  exact .intro (.absent _) (.body rfl (.intro (.int rfl rfl) (.none _ _)) rfl
    (.intro rfl (.empty rfl)) (.absent _) hbody)

theorem scan_wide : (Token.scan wide).result = .ok (tokens "0002147483648" 36) := by
  decide +kernel

theorem scan_huge : (Token.scan huge).result = .ok (tokens "9223372036854775808" 42) := by
  decide +kernel

theorem stands_wide : StandsAsExpression wide before "0002147483648".toList ['\x7d'] where
  split := by decide
  nonempty := by decide
  all := by simp
  ends := by simp
  wanted := ⟨_, _, _, scan_wide, rfl, site _ _⟩

theorem stands_huge : StandsAsExpression huge before "9223372036854775808".toList ['\x7d'] where
  split := by decide
  nonempty := by decide
  all := by simp
  ends := by simp
  wanted := ⟨_, _, _, scan_huge, rfl, site _ _⟩

end Returned

open Returned in
theorem compile_integers_exact_returned :
    (parseSource huge).result = .error (.located 23 .integerRange) ∧
    ∃ code, literalCode ⟨.integer 2147483648, 23⟩ = .ok code ∧
      code.map Line.text = ["    mov rax, 2147483648\n", "    push rax\n"] ∧
      code.filterMap Line.immediate? = [2147483648] ∧
      ∀ r, (compile wide).result = .ok r →
        ∃ procedure ∈ r.assembly.procedures, code <:+: procedure := by
  have hhuge : decimal "9223372036854775808".toList = 2 ^ 63 := by decide
  have hwide : decimal "0002147483648".toList = 2 ^ 31 := by decide
  obtain ⟨hfault, -⟩ := (compile_integers_exact stands_huge).1 hhuge.ge
  obtain ⟨-, -, -, -, code, hcode, hpushes, hplaced⟩ :=
    (compile_integers_exact stands_wide).2 (by rw [hwide]; decide)
  have hliteral : digitsLiteral before "0002147483648".toList = ⟨.integer 2147483648, 23⟩ := by
    rw [digitsLiteral, hwide]
    rfl
  rw [hliteral] at hcode
  rw [hwide] at hpushes
  exact ⟨hfault, code, hcode, hpushes.lines, hpushes.word, hplaced⟩

end ProcLang
