import ProcLang.Proofs.Grammar.Numeral
import ProcLang.Proofs.Lexing.Bytes
import ProcLang.Proofs.Lexing.Printing
import ProcLang.Tree.Expression

/-! Literals are displayed as they can be written in a source: numbers in decimal, characters and
strings with escapes that the scanner knows. -/
namespace ProcLang

namespace Text

/-- The bytes of printable ASCII characters, and of tab, line feed and carriage return. -/
def PlainByte (b : UInt8) : Prop :=
  0x20 ≤ b ∧ b ≤ 0x7e ∨ b = 0x09 ∨ b = 0x0a ∨ b = 0x0d

instance : DecidablePred PlainByte :=
  fun b => inferInstanceAs (Decidable (0x20 ≤ b ∧ b ≤ 0x7e ∨ b = 0x09 ∨ b = 0x0a ∨ b = 0x0d))

/-- The character that an ASCII byte stands for. -/
def charOf (b : UInt8) : Char :=
  Char.ofNat b.toNat

namespace PlainByte

variable {b : UInt8} (h : PlainByte b)

include h

theorem lt : b.toNat < 128 := by
  rcases h with ⟨-, h⟩ | rfl | rfl | rfl
  · exact Nat.lt_succ_of_le (Nat.le_succ_of_le (UInt8.le_iff_toNat_le.mp h))
  all_goals decide

theorem toNat_charOf : (charOf b).toNat = b.toNat := by
  have hvalid : b.toNat.isValidChar := .inl (Nat.lt_trans h.lt (by decide))
  rw [charOf, Char.ofNat, dif_pos hvalid]
  rfl

theorem encodeChar_charOf : String.utf8EncodeChar (charOf b) = [b] := by
  rw [encodeChar_ascii (h.toNat_charOf ▸ h.lt), h.toNat_charOf, UInt8.ofNat_toNat]

theorem charOf_cases :
    isAsciiPrintable (charOf b) = true ∨ charOf b = '\t' ∨ charOf b = '\n' ∨ charOf b = '\r' := by
  have hnat := h.toNat_charOf
  rcases h with ⟨hlow, hhigh⟩ | rfl | rfl | rfl
  · have hlow' : 0x20 ≤ (charOf b).toNat := hnat ▸ UInt8.le_iff_toNat_le.mp hlow
    have hhigh' : (charOf b).toNat ≤ 0x7e := hnat ▸ UInt8.le_iff_toNat_le.mp hhigh
    have hprintable : ' ' ≤ charOf b ∧ charOf b ≤ '~' :=
      ⟨Char.le_def.mpr hlow', Char.le_def.mpr hhigh'⟩
    simp [isAsciiPrintable, hprintable]
  · exact .inr (.inl rfl)
  · exact .inr (.inr (.inl rfl))
  · exact .inr (.inr (.inr rfl))

/-- A plain character is displayed with an escape that stands for it, or as it is. -/
theorem escapeChar_cases :
    (∃ d, escapeChar .ascii (charOf b) = ['\\', d] ∧ (d, charOf b) ∈ Token.escapes) ∨
      escapeChar .ascii (charOf b) = [charOf b] ∧ charOf b ≠ '\\' ∧ charOf b ≠ '"' := by
  have hcases := h.charOf_cases
  unfold escapeChar
  generalize charOf b = c at hcases ⊢
  split
  next => exact .inl ⟨'t', rfl, by decide⟩
  next => exact .inl ⟨'r', rfl, by decide⟩
  next => exact .inl ⟨'n', rfl, by decide⟩
  next => exact .inl ⟨'\'', rfl, by decide⟩
  next => exact .inl ⟨'"', rfl, by decide⟩
  next => exact .inl ⟨'\\', rfl, by decide⟩
  next htab hreturn hfeed _ hquote hbackslash =>
    have hprintable : isAsciiPrintable c = true := by
      rcases hcases with hcase | hcase | hcase | hcase
      · exact hcase
      · exact (htab hcase).elim
      · exact (hfeed hcase).elim
      · exact (hreturn hcase).elim
    exact .inr ⟨by simp [EscapeStyle.ascii, hprintable], hbackslash, hquote⟩

end PlainByte

section

variable {bs : List UInt8} (h : ∀ b ∈ bs, PlainByte b)

include h

theorem encode_map_charOf : (bs.map charOf).flatMap String.utf8EncodeChar = bs := by
  induction bs with
  | nil => rfl
  | cons b bs ih =>
    obtain ⟨hb, hbs⟩ := List.forall_mem_cons.mp h
    rw [List.map_cons, List.flatMap_cons, hb.encodeChar_charOf, ih hbs, List.singleton_append]

theorem decodeLossy_plain : decodeLossy bs = String.ofList (bs.map charOf) := by
  rw [decodeLossy, ← decodeFrom_flatMap (bs.map charOf), encode_map_charOf h]

theorem bytes_ofList_charOf : bytes (String.ofList (bs.map charOf)) = bs := by
  rw [bytes, String.toList_ofList, encode_map_charOf h]

end

end Text

namespace Token

open Text

theorem quoted_escapeChar {bs : List UInt8} (h : ∀ b ∈ bs, PlainByte b) :
    Quoted ((bs.map charOf).flatMap (escapeChar .ascii)) (bs.map charOf) := by
  induction bs with
  | nil => exact .nil
  | cons b bs ih =>
    obtain ⟨hb, hbs⟩ := List.forall_mem_cons.mp h
    rw [List.map_cons, List.flatMap_cons]
    rcases hb.escapeChar_cases with ⟨d, hescape, hknown⟩ | ⟨hescape, hbackslash, hquote⟩
    · rw [hescape]
      exact .escaped hknown (ih hbs)
    · rw [hescape]
      exact .plain hbackslash hquote (ih hbs)

theorem quotedChar_escapeChar {b : UInt8} (h : PlainByte b) :
    QuotedChar (escapeChar .ascii (charOf b)) (charOf b) := by
  rcases h.escapeChar_cases with ⟨d, hescape, hknown⟩ | ⟨hescape, hbackslash, -⟩
  · rw [hescape]
    exact .escaped hknown
  · rw [hescape]
    exact .plain hbackslash (h.toNat_charOf ▸ h.lt)

end Token

namespace Grammar

theorem decimal_toDigits (n : Nat) : decimal (Nat.toDigits 10 n) = n := by
  rw [← Text.foldl_eq_decimal]
  exact Nat.ofDigitChars_toDigits (by decide) (by decide)

end Grammar

/-- A literal that a token of the given kind and text stands for is displayed like it. -/
structure Literal.ReadsAs (l : Literal) (kind : Token.Kind) (text : String) : Prop where
  significant : kind.isBlank = false
  lexeme : ∀ loc rest, Token.Apart rest → Token.Lexeme ⟨kind, text, loc⟩ l.display.toList rest
  expr : ∀ loc rest, Grammar.Expr (⟨kind, text, loc⟩ :: rest) (.literal ⟨l.value, loc⟩) rest

namespace Literal

open Text

variable (loc : Nat)

theorem readsAs_integer {value : Int64} (h : 0 ≤ value.toInt) :
    ∃ text, ReadsAs ⟨.integer value, loc⟩ .integer text := by
  obtain ⟨n, hn⟩ := Int.eq_ofNat_of_zero_le h
  have hdigits : ∀ c ∈ Nat.toDigits 10 n, c.isDigit = true :=
    fun c hc => Nat.isDigit_of_mem_toDigits (by decide) (by decide) hc
  have hnonempty : Nat.toDigits 10 n ≠ [] := Nat.toDigits_ne_nil
  have hdisplay : display ⟨.integer value, loc⟩ = String.ofList (Nat.toDigits 10 n) := by
    simp only [display, hn]
    rfl
  refine ⟨String.ofList (Nat.toDigits 10 n), rfl, fun loc rest hrest => ?_, fun loc rest => ?_⟩
  · rw [hdisplay]
    exact Token.lexeme_written (.integer hnonempty hdigits) loc hrest
  · refine .integer rest rfl ?_
    have hnumeral := Grammar.Numeral.plain hnonempty hdigits
    rwa [Grammar.decimal_toDigits, ← hn] at hnumeral

theorem readsAs_character {b : UInt8} (h : PlainByte b) :
    ReadsAs ⟨.character b, loc⟩ .character (charOf b).toString := by
  have hdisplay : (display ⟨.character b, loc⟩).toList =
      '\'' :: escapeChar .ascii (charOf b) ++ ['\''] := by
    simp [display, escapeAscii, charOf]
  have hbyte : (bytes (charOf b).toString).headD 0 = b := by
    simp [bytes, h.encodeChar_charOf]
  refine ⟨rfl, fun loc rest _ => ?_, fun loc rest => ?_⟩
  · rw [hdisplay]
    exact .character loc rest (Token.quotedChar_escapeChar h)
  · have hexpr := Grammar.Expr.character (t := ⟨.character, (charOf b).toString, loc⟩) rest rfl
    rwa [hbyte] at hexpr

theorem readsAs_boolean (value : Bool) :
    ReadsAs ⟨.boolean value, loc⟩ .boolean (if value then "true" else "false") := by
  refine ⟨rfl, fun loc rest hrest => ?_, fun loc rest => ?_⟩
  · cases value with
    | true => exact Token.lexeme_written (.reserved (by decide)) loc hrest
    | false => exact Token.lexeme_written (.reserved (by decide)) loc hrest
  · cases value with
    | true => exact Grammar.Expr.boolean (t := ⟨.boolean, "true", loc⟩) rest rfl
    | false => exact Grammar.Expr.boolean (t := ⟨.boolean, "false", loc⟩) rest rfl

theorem readsAs_text {bs : List UInt8} (h : ∀ b ∈ bs, PlainByte b) :
    ReadsAs ⟨.text bs, loc⟩ .text (String.ofList (bs.map charOf)) := by
  have hdisplay : (display ⟨.text bs, loc⟩).toList =
      '"' :: (bs.map charOf).flatMap (escapeChar .ascii) ++ ['"'] := by
    simp [display, escapeAscii, decodeLossy_plain h]
  refine ⟨rfl, fun loc rest _ => ?_, fun loc rest => ?_⟩
  · rw [hdisplay]
    exact .text loc rest (Token.quoted_escapeChar h)
  · have hexpr := Grammar.Expr.text (t := ⟨.text, String.ofList (bs.map charOf), loc⟩) rest rfl
    rwa [bytes_ofList_charOf h] at hexpr

end Literal

end ProcLang
