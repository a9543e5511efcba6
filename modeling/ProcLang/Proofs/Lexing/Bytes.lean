import ProcLang.Proofs.Lexing.Scan
import ProcLang.Proofs.Safety.Source
import ProcLang.Proofs.Strings.Encoding

/-! Where the lexemes of tokens stand among the bytes of a source, and what the bytes of a string
literal stand for. -/
namespace ProcLang.Token

/-- Every token has its lexeme at its position. -/
theorem exists_lexeme {loc : Nat} {cs : List Char} {ts : List Token} (h : Tiles loc cs ts) :
    ∀ t ∈ ts, ∃ before lexeme rest, cs = before ++ (lexeme ++ rest) ∧
      t.loc = loc + Text.byteWidth before ∧ Lexeme t lexeme rest := by
  induction h with
  | done loc => simp
  | @token t cs rest ts hlexeme _ ih =>
    rw [List.forall_mem_cons]
    refine ⟨⟨[], cs, rest, rfl, rfl, hlexeme⟩, fun u hu => ?_⟩
    obtain ⟨before, lexeme, rest', rfl, hloc, hlexeme'⟩ := ih u hu
    refine ⟨cs ++ before, lexeme, rest', (List.append_assoc ..).symm, ?_, hlexeme'⟩
    rw [hloc, Text.byteWidth_append, Nat.add_assoc]
  | @comment loc cs rest ts _ _ ih =>
    intro u hu
    obtain ⟨before, lexeme, rest', hrest, hloc, hlexeme⟩ := ih u hu
    refine ⟨'#' :: cs ++ before, lexeme, rest', ?_, ?_, hlexeme⟩
    · rw [hrest, List.append_assoc]
    · rw [hloc, Text.byteWidth_append, Nat.add_assoc]

/-- A row of digits that is as long as it can be is the lexeme of a number. -/
theorem Lexeme.eq_integer {t : Token} {cs rest digits after : List Char} (h : Lexeme t cs rest)
    (hsplit : cs ++ rest = digits ++ after) (hne : digits ≠ [])
    (hall : ∀ c ∈ digits, c.isDigit = true) (hends : ∀ c ∈ after.head?, c.isDigit = false) :
    t = ⟨.integer, String.ofList digits, t.loc⟩ := by
  obtain ⟨d, ds, rfl⟩ := List.exists_cons_of_ne_nil hne
  have hd : d.isDigit = true := hall d List.mem_cons_self
  cases h with
  | fixed loc hspelled =>
    obtain ⟨c, cs', rfl, -, hname⟩ := exists_head hspelled
    obtain ⟨rfl, -⟩ := List.cons.inj hsplit
    rw [isNamePart_of_isDigit hd] at hname
    cases hname
  | carriageReturn =>
    obtain ⟨rfl, -⟩ := List.cons.inj hsplit
    cases hd
  | integer loc _ hdigits hstops =>
    have hleft := takeWhile_eq_iff.mpr ⟨rest, rfl, hdigits, fun c hc => (hstops c hc).1⟩
    have hright := takeWhile_eq_iff.mpr ⟨after, hsplit, hall, hends⟩
    rw [← hleft, hright]
  | word loc hstarts =>
    obtain ⟨rfl, -⟩ := List.cons.inj hsplit
    rw [isDigit_of_isNameStart hstarts] at hd
    cases hd
  | character =>
    obtain ⟨rfl, -⟩ := List.cons.inj hsplit
    cases hd
  | text =>
    obtain ⟨rfl, -⟩ := List.cons.inj hsplit
    cases hd

/-- What stands for a byte after a backslash. -/
def unescapeByte? (b : UInt8) : Option UInt8 :=
  let byte (c : Char) := UInt8.ofNat c.toNat
  (escapes.map (Prod.map byte byte)).lookup b

/-- The bytes between the quotes of a string literal, as they are written and as they are meant. No
quote ends it before. -/
inductive QuotedBytes : List UInt8 → List UInt8 → Prop
  | nil : QuotedBytes [] []
  | plain {b : UInt8} {bs values : List UInt8} (unescaped : b ≠ 0x5C) (inside : b ≠ 0x22)
    (rest : QuotedBytes bs values) : QuotedBytes (b :: bs) (b :: values)
  | escaped {b value : UInt8} {bs values : List UInt8} (known : unescapeByte? b = some value)
    (rest : QuotedBytes bs values) : QuotedBytes (0x5C :: b :: bs) (value :: values)

theorem QuotedBytes.append_high {bs values : List UInt8} (h : QuotedBytes bs values)
    {high : List UInt8} (hhigh : ∀ b ∈ high, 128 ≤ b.toNat) :
    QuotedBytes (high ++ bs) (high ++ values) := by
  induction high with
  | nil => exact h
  | cons b high ih =>
    obtain ⟨hb, hhigh⟩ := List.forall_mem_cons.mp hhigh
    refine .plain ?_ ?_ (ih hhigh)
    · rintro rfl
      exact absurd hb (by decide)
    · rintro rfl
      exact absurd hb (by decide)

theorem Quoted.bytes {cs values : List Char} (h : Quoted cs values) :
    QuotedBytes (cs.flatMap String.utf8EncodeChar) (values.flatMap String.utf8EncodeChar) := by
  induction h with
  | nil => exact .nil
  | @plain c cs values hunescaped hinside _ ih =>
    rw [List.flatMap_cons, List.flatMap_cons]
    rcases Nat.lt_or_ge c.toNat 128 with hascii | hhigh
    · rw [Text.encodeChar_ascii hascii]
      exact .plain (Text.byte_ne hascii (by decide) hunescaped)
        (Text.byte_ne hascii (by decide) hinside) ih
    · exact ih.append_high (Text.high_of_mem_encodeChar hhigh)
  | @escaped c value cs values hknown _ ih =>
    obtain ⟨hc, hvalue⟩ := ascii_of_mem_escapes hknown
    have hbytes : ∀ pair ∈ escapes,
        unescapeByte? (UInt8.ofNat pair.1.toNat) = some (UInt8.ofNat pair.2.toNat) := by
      decide
    rw [List.flatMap_cons, List.flatMap_cons, List.flatMap_cons, Text.encodeChar_ascii hc,
      Text.encodeChar_ascii hvalue]
    exact .escaped (hbytes _ hknown) ih

theorem WordKind.kinds {text : String} {kind : Kind} (h : WordKind text kind) :
    kind = .name ∨ kind = .boolean ∨ ∃ keyword, kind = .keyword keyword := by
  have hreserved : ∀ word ∈ Token.reserved,
      word.2 = .boolean ∨ ∃ keyword, word.2 = .keyword keyword := by
    simp [Token.reserved]
  cases h with
  | reserved hlisted => exact .inr (hreserved _ hlisted)
  | name => exact .inl rfl

theorem Lexeme.quoted {t : Token} {cs rest : List Char} (h : Lexeme t cs rest)
    (hkind : t.kind = .text) :
    ∃ raw values, cs = '"' :: raw ++ ['"'] ∧ t.text = String.ofList values ∧
      Quoted raw values := by
  cases h with
  | text _ _ hinside => exact ⟨_, _, rfl, rfl, hinside⟩
  | fixed _ hspelled _ =>
    cases hkind
    cases hspelled
  | word _ _ _ _ hknown => rcases hknown.kinds with rfl | rfl | ⟨_, rfl⟩ <;> cases hkind
  | carriageReturn | integer | character => cases hkind

/-- The bytes of a string token, as they are written at its position and as they are meant. -/
theorem exists_quotedBytes {source : String} {ts : List Token}
    (h : (scan source).result = .ok ts) {t : Token} (ht : t ∈ ts) (hkind : t.kind = .text) :
    ∃ before raw after, Text.bytes source = before ++ 0x22 :: (raw ++ 0x22 :: after) ∧
      before.length = t.loc ∧ QuotedBytes raw (Text.bytes t.text) := by
  obtain ⟨before, lexeme, rest, hsource, hloc, hlexeme⟩ := exists_lexeme (tiles_of_scan h) t ht
  obtain ⟨raw, values, rfl, htext, hquoted⟩ := hlexeme.quoted hkind
  have hquote : String.utf8EncodeChar '"' = [0x22] := rfl
  refine ⟨before.flatMap String.utf8EncodeChar, raw.flatMap String.utf8EncodeChar,
    rest.flatMap String.utf8EncodeChar, ?_, ?_, ?_⟩
  · simp [Text.bytes, hsource, hquote]
  · rw [Text.length_encode, hloc, Nat.zero_add]
  · rw [htext, Text.bytes, String.toList_ofList]
    exact hquoted.bytes

end ProcLang.Token
