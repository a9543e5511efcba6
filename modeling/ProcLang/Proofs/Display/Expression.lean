import ProcLang.Compile
import ProcLang.Proofs.Display.Literal
import ProcLang.Proofs.Grammar.Parts
import ProcLang.Proofs.Relocation.Basic

/-! Expressions are displayed in the notation of the language: what is displayed can be scanned and
parsed, and gives the same expression, at other positions. -/
namespace ProcLang

open Grammar

namespace Token

/-- Every token of a source has a text that its kind allows. -/
theorem Lexeme.writable {t : Token} {cs rest : List Char} (h : Lexeme t cs rest) :
    Writable t.kind t.text := by
  cases h with
  | fixed _ hspelled _ => exact .fixed hspelled
  | carriageReturn => exact .fixed rfl
  | integer _ hnonempty hdigits _ => exact .integer hnonempty hdigits
  | word _ hstarts hinside _ hknown =>
    cases hknown with
    | reserved hlisted => exact .reserved hlisted
    | name hunlisted => exact .name hstarts hinside hunlisted
  | character _ _ hquoted =>
    cases hquoted with
    | plain _ hascii => exact .character hascii
    | escaped hknown => exact .character (ascii_of_mem_escapes hknown).2
  | text => exact .text _

theorem writable_of_scan {source : String} {ts : List Token} (h : (scan source).result = .ok ts) :
    ∀ t ∈ ts, Writable t.kind t.text := by
  intro t ht
  obtain ⟨_, _, _, _, _, hlexeme⟩ := exists_lexeme (tiles_of_scan h) t ht
  exact hlexeme.writable

theorem Writable.digits {text : String} (h : Writable .integer text) :
    ∃ digits, text = String.ofList digits ∧ ∀ c ∈ digits, c.isDigit = true := by
  have hreserved : ∀ word ∈ Token.reserved, word.2 ≠ .integer := by decide
  generalize hkind : Kind.integer = kind at h
  cases h with
  | integer _ hall => exact ⟨_, rfl, hall⟩
  | fixed hspelled =>
    subst hkind
    cases hspelled
  | reserved hlisted => exact absurd hkind.symm (hreserved _ hlisted)
  | name | character | text => cases hkind

/-- Characters from `loc` on are the lexemes of some tokens, whatever stands apart behind them. -/
def Covers (loc : Nat) (cs : List Char) (us : List Token) : Prop :=
  ∀ rest ts, Apart rest → Tiles (loc + Text.byteWidth cs) rest ts →
    Tiles loc (cs ++ rest) (us ++ ts)

namespace Covers

variable {loc : Nat} {cs ds : List Char} {us vs : List Token}

theorem nil (loc : Nat) : Covers loc [] [] :=
  fun _ _ _ h => h

theorem token {t : Token} (h : ∀ rest, Apart rest → Lexeme t cs rest) : Covers t.loc cs [t] :=
  fun rest _ hrest hts => .token (h rest hrest) hts

theorem append (h : Covers loc cs us) (h' : Covers (loc + Text.byteWidth cs) ds vs)
    (hapart : ∀ rest, Apart rest → Apart (ds ++ rest)) : Covers loc (cs ++ ds) (us ++ vs) := by
  intro rest ts hrest hts
  rw [List.append_assoc, List.append_assoc]
  refine h _ _ (hapart rest hrest) (h' rest ts hrest ?_)
  rwa [Nat.add_assoc, ← Text.byteWidth_append]

/-- A token that is itself whatever follows need not stand apart. -/
theorem cons {t : Token} (h : ∀ rest, Lexeme t cs rest)
    (h' : Covers (t.loc + Text.byteWidth cs) ds vs) : Covers t.loc (cs ++ ds) (t :: vs) := by
  intro rest ts hrest hts
  rw [List.append_assoc]
  refine .token (h _) (h' rest ts hrest ?_)
  rwa [Nat.add_assoc, ← Text.byteWidth_append]

theorem parens (h : Covers (loc + 1) cs us) :
    Covers loc (['('] ++ (cs ++ [')'])) (⟨.delimiter .openParen, "(", loc⟩ ::
      (us ++ [⟨.delimiter .closeParen, ")", loc + 1 + Text.byteWidth cs⟩])) := by
  have hopen : ∀ rest, Lexeme ⟨.delimiter .openParen, "(", loc⟩ ['('] rest :=
    lexeme_single rfl (by decide) loc
  have hclose : ∀ loc rest, Lexeme ⟨.delimiter .closeParen, ")", loc⟩ [')'] rest :=
    lexeme_single rfl (by decide)
  refine .cons hopen (h.append (.token fun rest _ => hclose _ rest) ?_)
  rintro rest - c ⟨⟩
  exact .inr rfl

end Covers

theorem isBlank_of_operator {kind : Kind} (h : kind.isSign ∨ kind = .name) :
    kind.isBlank = false := by
  cases kind with
  | blank b => simp [Kind.isSign] at h
  | _ => rfl

/-- Signs and names are written as they are. -/
theorem covers_operator {kind : Kind} {text : String} (hkind : kind.isSign ∨ kind = .name)
    (h : Writable kind text) (loc : Nat) : Covers loc text.toList [⟨kind, text, loc⟩] := by
  have hwritten : written kind text = text.toList := by
    apply written_eq
    · rintro rfl
      simp [Kind.isSign] at hkind
    · rintro rfl
      simp [Kind.isSign] at hkind
  exact .token fun rest hrest => hwritten ▸ lexeme_written h loc hrest

end Token

/-- Expressions that differ in positions only. -/
def Expression.Alike (e e' : Expression) : Prop :=
  e.relocate (fun _ => 0) = e'.relocate (fun _ => 0)

/-- Characters and strings have plain bytes only. -/
def LiteralValue.Plain : LiteralValue → Prop
  | .integer _ => True
  | .character b => Text.PlainByte b
  | .boolean _ => True
  | .text bs => ∀ b ∈ bs, Text.PlainByte b

instance : DecidablePred LiteralValue.Plain
  | .integer _ | .boolean _ => .isTrue trivial
  | .character b => inferInstanceAs (Decidable (Text.PlainByte b))
  | .text bs => List.decidableBAll Text.PlainByte bs

namespace Expression

/-- All characters and strings in an expression are plain. -/
def Plain (e : Expression) : Prop :=
  ∀ l ∈ e.parts.filterMap literal?, l.value.Plain

instance : DecidablePred Plain :=
  fun e => List.decidableBAll (fun l : Literal => l.value.Plain) (e.parts.filterMap literal?)

theorem Plain.operand {loc : Nat} {token : Token} {es : List Expression} {op : Option Operator}
    {type : Option TypeAt} (h : (operation loc token es op type).Plain) {e : Expression}
    (he : e ∈ es) : e.Plain := by
  intro l hl
  obtain ⟨part, hpart, hl⟩ := List.mem_filterMap.mp hl
  exact h l (List.mem_filterMap.mpr ⟨part, mem_parts_operation.mpr (.inr ⟨e, he, hpart⟩), hl⟩)

/-- Expressions that can be written: nothing in them is bound or typed, and each part has a
spelling. -/
inductive Writable : Expression → Prop
  | integer {value : Int64} (loc : Nat) (nonneg : 0 ≤ value.toInt) :
    Writable (.literal ⟨.integer value, loc⟩)
  | character {b : UInt8} (loc : Nat) (plain : Text.PlainByte b) :
    Writable (.literal ⟨.character b, loc⟩)
  | boolean (value : Bool) (loc : Nat) : Writable (.literal ⟨.boolean value, loc⟩)
  | text {bs : List UInt8} (loc : Nat) (plain : ∀ b ∈ bs, Text.PlainByte b) :
    Writable (.literal ⟨.text bs, loc⟩)
  | var {name : String} (loc : Nat) (spelled : Token.Writable .name name) :
    Writable (.var ⟨name, loc, none, none⟩)
  | operation {token : Token} {es : List Expression} (loc : Nat)
    (operator : token.kind.isSign ∨ token.kind = .name)
    (spelled : Token.Writable token.kind token.text) (operands : ∀ e ∈ es, Writable e) :
    Writable (.operation loc token es none none)

end Expression

namespace Grammar

/-- A number that is written without a sign is not negative. -/
theorem nonneg_of_numeral {text : String} {value : Int} (h : Numeral text value)
    (hwritable : Token.Writable .integer text) : 0 ≤ value := by
  obtain ⟨digits, rfl, hdigits⟩ := hwritable.digits
  generalize htext : String.ofList digits = text at h
  cases h with
  | plain | plus => exact Int.natCast_nonneg _
  | minus =>
    rw [String.ofList_inj.mp htext, List.forall_mem_cons] at hdigits
    cases hdigits.1

theorem nonneg_of_size {ty : Ty} {size : Nat} (h : ty.size? = some size) :
    0 ≤ (Int64.ofNat size).toInt := by
  cases ty <;> cases h <;> decide

mutual

theorem writable_of_expr {ts rest : List Token} {e : Expression} (h : Expr ts e rest)
    (hts : ∀ t ∈ ts, Token.Writable t.kind t.text) (hplain : e.Plain) : e.Writable :=
  match h with
  | .integer (t := t) _ hkind hnumeral =>
    .integer _ (nonneg_of_numeral hnumeral (hkind ▸ hts t List.mem_cons_self))
  | .character _ _ => .character _ (hplain _ List.mem_cons_self)
  | .boolean _ _ => .boolean _ _
  | .text _ _ => .text _ (hplain _ List.mem_cons_self)
  | .size _ _ _ _ hsize => .integer _ (nonneg_of_size hsize)
  | .var (t := t) _ hkind => .var _ (hkind ▸ hts t List.mem_cons_self)
  | .operation (u := u) _ hoperator hes _ => by
    refine .operation _ hoperator (hts u (by simp)) ?_
    exact writable_of_operands hes (fun t ht => hts t (by simp [ht])) fun _ => hplain.operand

theorem writable_of_operands {ts rest : List Token} {es : List Expression}
    (h : Operands ts es rest) (hts : ∀ t ∈ ts, Token.Writable t.kind t.text)
    (hplain : ∀ e ∈ es, e.Plain) : ∀ e ∈ es, e.Writable :=
  match h with
  | .nil _ => by simp
  | .cons he hes => by
    obtain ⟨hfirst, hothers⟩ := List.forall_mem_cons.mp hplain
    rw [List.forall_mem_cons]
    refine ⟨writable_of_expr he hts hfirst, writable_of_operands hes (fun t ht => ?_) hothers⟩
    exact hts t ((sublist_of_expr he).subset ht)

end

/-- From `loc` on, characters are scanned and parsed to an expression like a given one. -/
def Reads (loc : Nat) (cs : List Char) (e : Expression) : Prop :=
  ∃ us e', Token.Covers loc cs us ∧
    (∀ rest, Expr (us.filter Token.isSignificant ++ rest) e' rest) ∧ e'.Alike e

theorem reads_literal {l : Literal} {kind : Token.Kind} {text : String} (h : l.ReadsAs kind text)
    (loc : Nat) : Reads loc l.display.toList (.literal l) := by
  refine ⟨[⟨kind, text, loc⟩], .literal ⟨l.value, loc⟩, .token (h.lexeme loc), fun rest => ?_, rfl⟩
  simpa [Token.isSignificant, h.significant] using h.expr loc rest

theorem reads_var {name : String} (h : Token.Writable .name name) (loc loc' : Nat) :
    Reads loc name.toList (.var ⟨name, loc', none, none⟩) := by
  refine ⟨[⟨.name, name, loc⟩], .var ⟨name, loc, none, none⟩,
    .token fun _ => Token.lexeme_written h loc, fun rest => ?_, rfl⟩
  exact .var rest rfl

theorem apart_displayOperands (es : List Expression) {rest : List Char} (h : Token.Apart rest) :
    Token.Apart ((Expression.displayOperands es).toList ++ rest) := by
  cases es with
  | nil => exact h
  | cons e es =>
    intro c hc
    have hspace : ' ' = c := by simpa [Expression.displayOperands] using hc
    exact .inl hspace.symm

theorem reads_operands {es : List Expression}
    (h : ∀ e ∈ es, ∀ loc, Reads loc e.display.toList e) (loc : Nat) :
    ∃ us es', Token.Covers loc (Expression.displayOperands es).toList us ∧
      (∀ rest, Operands (us.filter Token.isSignificant ++ rest) es' rest) ∧
      es'.map (Expression.relocate fun _ => 0) = es.map (Expression.relocate fun _ => 0) := by
  induction es generalizing loc with
  | nil => exact ⟨[], [], .nil loc, .nil, rfl⟩
  | cons e es ih =>
    obtain ⟨he, hes⟩ := List.forall_mem_cons.mp h
    obtain ⟨us, e', hcovers, hexpr, halike⟩ := he (loc + 1)
    obtain ⟨vs, es', hcovers', hoperands, halikes⟩ :=
      ih hes (loc + 1 + Text.byteWidth e.display.toList)
    have htext : (Expression.displayOperands (e :: es)).toList =
        [' '] ++ (e.display.toList ++ (Expression.displayOperands es).toList) := by
      simp [Expression.displayOperands]
    rw [htext]
    refine ⟨⟨.blank .space, " ", loc⟩ :: (us ++ vs), e' :: es', ?_, fun rest => ?_, ?_⟩
    · exact .cons (Token.lexeme_space loc)
        (hcovers.append hcovers' fun _ => apart_displayOperands es)
    · have hfirst := hexpr (vs.filter Token.isSignificant ++ rest)
      rw [List.filter_cons_of_neg Bool.false_ne_true, List.filter_append,
        List.append_assoc]
      exact .cons hfirst (hoperands rest)
    · rw [List.map_cons, List.map_cons, halike, halikes]

theorem reads_operation {token : Token} {es : List Expression} (loc loc' : Nat)
    (hoperator : token.kind.isSign ∨ token.kind = .name)
    (hspelled : Token.Writable token.kind token.text)
    (h : ∀ e ∈ es, ∀ loc, Reads loc e.display.toList e) :
    Reads loc (Expression.operation loc' token es none none).display.toList
      (.operation loc' token es none none) := by
  obtain ⟨us, es', hcovers, hoperands, halikes⟩ :=
    reads_operands h (loc + 1 + Text.byteWidth token.text.toList)
  have hinside := (Token.covers_operator hoperator hspelled (loc + 1)).append hcovers
    fun _ => apart_displayOperands es
  have htext : (Expression.operation loc' token es none none).display.toList =
      ['('] ++ (token.text.toList ++ (Expression.displayOperands es).toList ++ [')']) := by
    simp [Expression.display]
  have hsignificant : Token.isSignificant ⟨token.kind, token.text, loc + 1⟩ = true := by
    simp [Token.isSignificant, Token.isBlank_of_operator hoperator]
  rw [htext]
  refine ⟨_, .operation loc ⟨token.kind, token.text, loc + 1⟩ es' none none, hinside.parens,
    fun rest => ?_, ?_⟩
  · have hparen : ∀ d text loc, Token.isSignificant ⟨.delimiter d, text, loc⟩ = true :=
      fun _ _ _ => rfl
    simp only [List.filter_cons, List.filter_append, List.filter_nil, hparen, hsignificant,
      if_true, List.cons_append, List.nil_append, List.append_assoc]
    exact .operation rfl hoperator (hoperands _) rfl
  · simp only [Expression.Alike, Expression.relocate, Expression.relocateAll_eq_map, halikes]
    rfl

theorem reads_of_writable {e : Expression} (h : e.Writable) (loc : Nat) :
    Reads loc e.display.toList e := by
  induction h generalizing loc with
  | integer loc' hnonneg =>
    obtain ⟨text, hreads⟩ := Literal.readsAs_integer loc' hnonneg
    exact reads_literal hreads loc
  | character loc' hplain => exact reads_literal (Literal.readsAs_character loc' hplain) loc
  | boolean value loc' => exact reads_literal (Literal.readsAs_boolean loc' value) loc
  | text loc' hplain => exact reads_literal (Literal.readsAs_text loc' hplain) loc
  | var loc' hspelled => exact reads_var hspelled loc loc'
  | operation loc' hoperator hspelled _ ih => exact reads_operation loc loc' hoperator hspelled ih

end Grammar

namespace Token

/-- The tokens of `proc void f() `. -/
def header : List Token :=
  [⟨.keyword .proc, "proc", 0⟩, ⟨.blank .space, " ", 4⟩, ⟨.name, "void", 5⟩,
    ⟨.blank .space, " ", 9⟩, ⟨.name, "f", 10⟩, ⟨.delimiter .openParen, "(", 11⟩,
    ⟨.delimiter .closeParen, ")", 12⟩, ⟨.blank .space, " ", 13⟩]

theorem tiles_header {cs : List Char} {ts : List Token} (h : Tiles 14 cs ts) :
    Tiles 0 ("proc void f() ".toList ++ cs) (header ++ ts) := by
  have hspace : ∀ rest, Apart (' ' :: rest) := by
    rintro rest c ⟨⟩
    exact .inl rfl
  have hproc : Writable (.keyword .proc) "proc" := .reserved (by decide)
  have hvoid : Writable .name "void" :=
    @Writable.name 'v' ['o', 'i', 'd'] rfl (List.all_eq_true.mp (by decide)) (by simp [reserved])
  have hf : ∀ rest, Lexeme ⟨.name, "f", 10⟩ ['f'] ('(' :: rest) := by
    refine fun rest => .word 10 rfl (by simp) ?_ (.name (by simp [reserved]))
    rintro c ⟨⟩
    rfl
  have htext : "proc void f() ".toList ++ cs = "proc".toList ++ ([' '] ++ ("void".toList ++
      ([' '] ++ (['f'] ++ (['('] ++ ([')'] ++ ([' '] ++ cs))))))) := rfl
  rw [htext]
  refine @Tiles.token ⟨.keyword .proc, "proc", 0⟩ _ _ _ (lexeme_written hproc 0 (hspace _)) ?_
  refine @Tiles.token ⟨.blank .space, " ", 4⟩ _ _ _ (lexeme_space 4 _) ?_
  refine @Tiles.token ⟨.name, "void", 5⟩ _ _ _ (lexeme_written hvoid 5 (hspace _)) ?_
  refine @Tiles.token ⟨.blank .space, " ", 9⟩ _ _ _ (lexeme_space 9 _) ?_
  refine @Tiles.token ⟨.name, "f", 10⟩ _ _ _ (hf _) ?_
  refine @Tiles.token ⟨.delimiter .openParen, "(", 11⟩ _ _ _
    (lexeme_single rfl (by decide) 11 _) ?_
  refine @Tiles.token ⟨.delimiter .closeParen, ")", 12⟩ _ _ _
    (lexeme_single rfl (by decide) 12 _) ?_
  exact @Tiles.token ⟨.blank .space, " ", 13⟩ _ _ _ (lexeme_space 13 _) h

end Token

/-- A body that is one expression, in a procedure `f`. -/
def Program.ofExpression (e : Expression) : Program where
  globals := []
  procedures := [⟨"f", 10, .void 5, [], .internal [] (.expression e), []⟩]
  globalTable := []
  procedureTable := [("f", .procedure 0)]

theorem derives_ofExpression {ts : List Token} {e : Expression} (h : Expr ts e []) :
    Derives (Token.header.filter Token.isSignificant ++ ts) (.ofExpression e) := by
  refine .intro (.absent _) (.cons ?_ .nil) ⟨by simp, rfl⟩ ⟨by simp, rfl⟩
  exact .internal rfl (.intro (.void rfl rfl) (.none _ _)) rfl (.intro rfl (.empty rfl))
    (.absent _) (.expression h) ⟨by simp [Procedure.entries], rfl⟩

/-- A parsed expression with plain literals is displayed as a text that is scanned and parsed to the
same expression, at other positions: by itself, wherever an expression is looked for, and as the
body of a procedure. -/
theorem display_reads_back {source : String} {p : Program} {e : Expression}
    (h : (parseSource source).result = .ok p) (he : e ∈ p.parts) (hplain : e.Plain) :
    (∃ tokens e', (Token.scan e.display).result = .ok tokens ∧ e'.Alike e ∧
      ∀ eof rest, Parser.Finds
        (Parser.expression eof (tokens.filter Token.isSignificant ++ rest)) e' rest) ∧
    ∃ e', e'.Alike e ∧
      (parseSource ("proc void f() " ++ e.display)).result = .ok (.ofExpression e') := by
  obtain ⟨ts, hscan, hparse⟩ := Traced.bind_eq_ok.mp h
  obtain ⟨q, hq, body, hbody, he⟩ := Program.mem_parts.mp he
  obtain ⟨ts', rest', hsub, hexpr⟩ :=
    derivedIn_of_derives (Program.derives_of_parse hparse) hq hbody he
  have hwritable : ∀ t ∈ ts', Token.Writable t.kind t.text := fun t ht =>
    Token.writable_of_scan hscan t (List.mem_of_mem_filter (hsub.subset ht))
  have hreads := reads_of_writable (writable_of_expr hexpr hwritable hplain)
  constructor
  · obtain ⟨us, e', hcovers, hexpr', halike⟩ := hreads 0
    refine ⟨us, e', Token.scan_of_tiles ?_, halike, fun eof rest => ?_⟩
    · simpa using hcovers [] [] (by simp [Token.Apart]) (.done _)
    · exact Parser.expression_of_expr eof (hexpr' rest)
  · obtain ⟨us, e', hcovers, hexpr', halike⟩ := hreads 14
    have htiles := Token.tiles_header (hcovers [] [] (by simp [Token.Apart]) (.done _))
    refine ⟨e', halike, Traced.bind_eq_ok.mpr ⟨Token.header ++ us, Token.scan_of_tiles ?_, ?_⟩⟩
    · simpa using htiles
    · refine Program.parse_of_derives _ ?_
      rw [List.filter_append]
      exact derives_ofExpression (by simpa using hexpr' [])

namespace Nested

/-- A number with leading zeros, a size, and literals with quotes, a backslash and a tab. -/
def source : String :=
  "proc void g()(f (+ 007 sizeof(int)) \"a\\\"\t'\\\\\" '\\'' true (- y))"

def call : Expression :=
  .operation 13 ⟨.name, "f", 14⟩
    [.operation 16 ⟨.sign .plus, "+", 17⟩
      [.literal ⟨.integer 7, 19⟩, .literal ⟨.integer 8, 23⟩] none none,
    .literal ⟨.text [97, 34, 9, 39, 92], 36⟩, .literal ⟨.character 39, 46⟩,
    .literal ⟨.boolean true, 51⟩,
    .operation 56 ⟨.sign .dash, "-", 57⟩ [.var ⟨"y", 59, none, none⟩] none none] none none

def program : Program where
  globals := []
  procedures := [⟨"g", 10, .void 5, [], .internal [] (.expression call), []⟩]
  globalTable := []
  procedureTable := [("g", .procedure 0)]

theorem parsed : (parseSource source).result = .ok program := by
  decide +kernel

end Nested

open Nested in
theorem display_reads_back_nested : (parseSource source).result = .ok program ∧
    call ∈ program.parts ∧ call.Plain ∧
    call.display = "(f (+ 7 8) \"a\\\"\\t\\'\\\\\" '\\'' true (- y))" ∧
    (∃ tokens e', (Token.scan call.display).result = .ok tokens ∧ e'.Alike call ∧
      ∀ eof rest, Parser.Finds
        (Parser.expression eof (tokens.filter Token.isSignificant ++ rest)) e' rest) ∧
    ∃ e', e'.Alike call ∧
      (parseSource ("proc void f() " ++ call.display)).result = .ok (.ofExpression e') := by
  have hmem : call ∈ program.parts := List.mem_cons_self
  have hplain : call.Plain := by decide
  exact ⟨parsed, hmem, hplain, by decide +kernel, display_reads_back parsed hmem hplain⟩

end ProcLang
