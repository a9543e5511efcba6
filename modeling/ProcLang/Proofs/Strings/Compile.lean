import ProcLang.Proofs.Decoration.Frame
import ProcLang.Proofs.Grammar.Parts
import ProcLang.Proofs.Lexing.Bytes
import ProcLang.Proofs.Symbols.Compile

/-! The string data of a compiled source: for each string literal its bytes, escapes resolved, and a
zero. -/
namespace ProcLang

open Assembly

/-- The data line of a string with the bytes `values`, without its line end. -/
def stringLine (loc : Nat) (values : List UInt8) : String :=
  "string$" ++ toString loc ++ ": db " ++
    ", ".intercalate (values.map (fun b => toString b.toNat) ++ ["0"])

/-- The data of a string token. -/
def Token.stringDatum (t : Token) : Datum :=
  ⟨.string t.loc, .byte, (Text.bytes t.text).map UInt8.toNat ++ [0]⟩

namespace Assembly

def Datum.isString (d : Datum) : Bool :=
  match d.label with
  | .string _ => true
  | _ => false

theorem text_stringDatum (t : Token) :
    t.stringDatum.text = stringLine t.loc (Text.bytes t.text) ++ "\n" := by
  have hmiddle : ": " ++ "db" ++ " " = ": db " := rfl
  have hvalues : (t.stringDatum.values.map toString) =
      (Text.bytes t.text).map (fun b => toString b.toNat) ++ ["0"] := by
    rw [Token.stringDatum, List.map_append, List.map_map]
    rfl
  rw [Datum.text, hvalues, stringLine, ← hmiddle]
  simp only [String.append_assoc]
  rfl

/-- Every datum has a line of its own. -/
theorem exists_line {a : Assembly} {d : Datum} (h : d ∈ a.data) :
    ∃ above below, a.text = above ++ "\n" ++ d.text ++ below := by
  obtain ⟨before, after, hsplit⟩ := List.append_of_mem h
  have hends : ∀ (front : String) (ds : List Datum), ∃ above,
      front ++ "\nsection .data\n" ++ String.join (ds.map Datum.text) = above ++ "\n" := by
    intro front ds
    rcases List.eq_nil_or_concat ds with rfl | ⟨ds, d, rfl⟩
    · exact ⟨front ++ "\nsection .data", by simp [String.append_assoc]⟩
    · obtain ⟨line, hline⟩ : ∃ line, d.text = line ++ "\n" := ⟨_, rfl⟩
      exact ⟨front ++ "\nsection .data\n" ++ String.join (ds.map Datum.text) ++ line, by
        simp [hline, String.append_assoc]⟩
  obtain ⟨front, hfront⟩ : ∃ front, a.text =
      front ++ "\nsection .data\n" ++ String.join (a.data.map Datum.text) := ⟨_, rfl⟩
  obtain ⟨above, habove⟩ := hends front before
  refine ⟨above, String.join (after.map Datum.text), ?_⟩
  rw [hfront, hsplit, List.map_append, List.map_cons, String.join_append, String.join_cons,
    ← habove]
  simp only [String.append_assoc]

end Assembly

/-! ### String literals and string tokens

The string literals of a program are the string tokens that it is parsed from, in their order: none
is left out, and there are no others. -/

/-- The literal that a string token stands for. -/
def Token.string? (t : Token) : Option Literal :=
  if t.kind = .text then some ⟨.text (Text.bytes t.text), t.loc⟩ else none

def Expression.string? : Expression → Option Literal
  | .literal ⟨.text bytes, loc⟩ => some ⟨.text bytes, loc⟩
  | _ => none

namespace Expression

/-- The data of strings, among the data of all literals. -/
theorem filter_isString (es : List Expression) :
    ((es.filterMap literal?).filterMap Literal.datum?).filter Datum.isString =
      (es.filterMap string?).filterMap Literal.datum? := by
  rw [List.filterMap_filterMap, List.filterMap_filterMap, List.filter_filterMap]
  refine List.filterMap_congr fun e _ => ?_
  obtain ⟨⟨_ | _ | _ | _, _⟩⟩ | _ | _ := e <;> rfl

end Expression

namespace Grammar

variable {ts rest : List Token}

/-- The string literals among some tokens. -/
def strings (ts : List Token) : List Literal :=
  ts.filterMap Token.string?

theorem string?_of_expr {t : Token} {e : Expression} (h : Expr (t :: ts) e rest) :
    t.string? = e.string? := by
  cases h <;> simp [Token.string?, Expression.string?, *]

theorem Carries.strings_eq {es : List Expression} (h : Carries ts es) :
    strings ts = es.filterMap Expression.string? := by
  unfold strings
  induction h with
  | nil => rfl
  | begins hfirst _ ih =>
    rw [List.filterMap_cons, List.filterMap_cons, string?_of_expr hfirst, ih]
  | @skips t _ _ hkind _ ih =>
    have hnone : t.string? = none := by
      refine if_neg fun htext => ?_
      rw [htext] at hkind
      cases hkind
    rw [List.filterMap_cons_none hnone, ih]

theorem strings_significant (ts : List Token) :
    strings (ts.filter Token.isSignificant) = strings ts := by
  rw [strings, List.filterMap_filter]
  refine List.filterMap_congr fun t _ => ?_
  by_cases hkind : t.kind = .text
  · rw [if_pos (by simp [Token.isSignificant, hkind, Token.Kind.isBlank])]
  · simp [Token.string?, hkind]

theorem filterMap_datum?_strings (ts : List Token) :
    (strings ts).filterMap Literal.datum? =
      (ts.filter (·.kind = .text)).map Token.stringDatum := by
  rw [strings, List.filterMap_filterMap, ← List.filterMap_eq_map, List.filterMap_filter]
  refine List.filterMap_congr fun t _ => ?_
  by_cases h : t.kind = .text <;> simp [Token.string?, h, Literal.datum?, Token.stringDatum]

end Grammar

/-- The string data of a program are those of its string tokens. -/
theorem Stages.filter_isString {source : String} {tokens : List Token} {parsed : Program}
    (h : Stages source tokens parsed) {a : Assembly}
    (hgenerate : parsed.bind.tree.check.tree.generate = .ok a) :
    a.data.filter Datum.isString = (tokens.filter (·.kind = .text)).map Token.stringDatum := by
  obtain ⟨-, -, globals, hglobals, hdata⟩ := Program.generate_parts hgenerate
  have hnone : globals.filter Datum.isString = [] := by
    refine List.filter_eq_nil_iff.mpr fun d hd => ?_
    have hlabel := List.mem_map_of_mem (f := Datum.label) hd
    rw [Program.map_label_globals hglobals] at hlabel
    obtain ⟨g, -, hlabel⟩ := List.mem_map.mp hlabel
    simp [Datum.isString, ← hlabel]
  rw [hdata, List.filter_append, hnone, List.nil_append, Program.literals_check,
    Program.literals_bind, Expression.filter_isString,
    ← (Grammar.carries_of_derives h.derives).strings_eq,
    Grammar.strings_significant, Grammar.filterMap_datum?_strings]

/-- How a string token comes to its data: it is written `raw` and stands for the bytes `values`. -/
structure StoredAs (source : String) (a : Assembly) (t : Token) (raw values : List UInt8) :
    Prop where
  written : ∃ before after, Text.bytes source = before ++ 0x22 :: (raw ++ 0x22 :: after) ∧
    before.length = t.loc
  resolved : Token.QuotedBytes raw values
  decoded : Text.decodeLossy values = t.text
  lossless : Text.bytes (Text.decodeLossy values) = values
  line : ∃ above below, a.text = above ++ "\n" ++ stringLine t.loc values ++ "\n" ++ below
  only : ∀ d ∈ a.data, d.label = .string t.loc → d.text = stringLine t.loc values ++ "\n"

/-- Every string literal of a source has one data line, with exactly its bytes and a zero. The bytes
are those between the quotes, with each escape replaced by the byte it stands for; they decode
without a replacement. There are no other string data. -/
theorem compile_strings_exact {source : String} {r : Compilation}
    (h : (compile source).result = .ok r) :
    ∃ tokens, (Token.scan source).result = .ok tokens ∧
      (∀ t ∈ tokens, t.kind = .text → ∃ raw values, StoredAs source r.assembly t raw values) ∧
      r.assembly.data.filter Datum.isString =
        (tokens.filter (·.kind = .text)).map Token.stringDatum := by
  obtain ⟨p, hcheck, hgenerate, -, -⟩ := generate_of_compile h
  obtain ⟨tokens, parsed, hstages, hwell, rfl⟩ := exists_stages hcheck
  have hstrings := hstages.filter_isString hgenerate
  have hlabels := (Program.data_labels hgenerate (hstages.named hwell)
    (hstages.checked_positions_nodup hwell)).1
  refine ⟨tokens, hstages.scanned, fun t ht hkind => ?_, hstrings⟩
  obtain ⟨before, raw, after, hsource, hloc, hquoted⟩ :=
    Token.exists_quotedBytes hstages.scanned ht hkind
  have hmem : t.stringDatum ∈ r.assembly.data := by
    have hfiltered : t.stringDatum ∈ r.assembly.data.filter Datum.isString := by
      rw [hstrings]
      exact List.mem_map_of_mem (List.mem_filter.mpr ⟨ht, by simpa using hkind⟩)
    exact List.mem_of_mem_filter hfiltered
  have hline := exists_line hmem
  rw [text_stringDatum] at hline
  refine ⟨raw, Text.bytes t.text, ⟨before, after, hsource, hloc⟩, hquoted,
    Text.decodeLossy_bytes _, by rw [Text.decodeLossy_bytes], ?_, fun d hd hlabel => ?_⟩
  · obtain ⟨above, below, htext⟩ := hline
    exact ⟨above, below, by rw [htext, ← String.append_assoc]⟩
  · rw [← text_stringDatum]
    exact congrArg Datum.text (List.inj_on_of_nodup_map hlabels hd hmem hlabel)

namespace Accented

/-- A string with characters of two and four bytes, a tab, and an escaped quote and line feed. -/
def source : String :=
  "extern int puts(char* s)proc int main()\x7b(puts \"hé\t\\\"😀\\n\")return 0\x7d"

def lines : List String :=
  ["string$46: db 104, 195, 169, 9, 34, 240, 159, 152, 128, 10, 0\n"]

theorem lines_eq : ((checkSource source).result.bind fun (p, _) => p.generate.map fun a =>
    a.data.map Datum.text) = .ok lines := by
  decide +kernel

end Accented

open Accented in
theorem compile_strings_exact_accented : ∃ r, (compile source).result = .ok r ∧
    r.assembly.data.map Datum.text = lines ∧
    ∃ tokens, (Token.scan source).result = .ok tokens ∧
      (∀ t ∈ tokens, t.kind = .text → ∃ raw values, StoredAs source r.assembly t raw values) ∧
      r.assembly.data.filter Datum.isString =
        (tokens.filter (·.kind = .text)).map Token.stringDatum := by
  obtain ⟨⟨p, warnings⟩, hcheck, hlines⟩ := Outcome.bind_eq_ok.mp lines_eq
  obtain ⟨a, hgenerate, hcompile⟩ := compile_of_checkSource hcheck
  dsimp only at hlines
  rw [hgenerate] at hlines
  exact ⟨_, hcompile, Except.ok.inj hlines, compile_strings_exact hcompile⟩

end ProcLang
