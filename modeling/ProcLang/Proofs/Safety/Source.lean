import Mathlib.Data.List.TakeWhile
import Mathlib.Tactic.SplitIfs
import ProcLang.Proofs.Blanks
import ProcLang.Proofs.Lexing.Relation
import ProcLang.Proofs.Pass
import ProcLang.Proofs.Strings.Encoding
import ProcLang.Token.Lexer

/-! Scanning and parsing refuse a source only for mistakes of their own kinds. -/
namespace ProcLang

open Outcome

/-- A malformed token, found between two characters of an input that starts at `loc`. -/
def Fault.MalformedIn (loc : Nat) (cs : List Char) (fault : Fault) : Prop :=
  ∃ before after cause, cs = before ++ after ∧ cause.kind = .malformedToken ∧
    fault = .located (loc + Text.byteWidth before) cause

namespace Fault.MalformedIn

variable {loc : Nat} {cs : List Char}

theorem here {cause : Cause} (h : cause.kind = .malformedToken) :
    (Fault.located loc cause).MalformedIn loc cs :=
  ⟨[], cs, cause, rfl, h, rfl⟩

theorem behind {fault : Fault} (front : List Char)
    (h : fault.MalformedIn (loc + Text.byteWidth front) cs) :
    fault.MalformedIn loc (front ++ cs) := by
  obtain ⟨before, after, cause, rfl, hkind, rfl⟩ := h
  refine ⟨front ++ before, after, cause, (List.append_assoc ..).symm, hkind, ?_⟩
  rw [Text.byteWidth_append, Nat.add_assoc]

end Fault.MalformedIn

namespace Token

open Fault (MalformedIn)

theorem ascii_of_escape {loc : Nat} {c value : Char} (h : escape loc [c] = .ok value) :
    ∀ d ∈ ['\\', c], d.toNat < 128 := by
  unfold escape at h
  split at h
  next => cases h
  next heq =>
    cases heq
    split at h
    next hc => simpa using (ascii_of_mem_escapes (unescape?_eq_some.mp hc)).1
    next => cases h

/-- An escape is refused where it stands, whatever follows. -/
theorem escape_malformed (loc : Nat) (cs ds : List Char) :
    FaultsIn (MalformedIn loc ds) (escape loc cs) := by
  unfold escape
  split
  next => exact faultsIn_error.mpr (.here rfl)
  next =>
    split
    next => exact faultsIn_ok _
    next => exact faultsIn_error.mpr (.here rfl)

/-- A string literal that does not end is refused where it starts. -/
theorem textBody_malformed (start loc : Nat) (cs : List Char) :
    FaultsIn (fun fault => fault = .located start .unendedText ∨ fault.MalformedIn loc cs)
      (textBody start loc cs) := by
  fun_induction textBody start loc cs with
  | case1 => exact faultsIn_error.mpr (.inl rfl)
  | case2 => exact faultsIn_ok _
  | case3 => exact faultsIn_error.mpr (.inr (.behind ['\\'] (.here rfl)))
  | case4 loc c cs ih =>
    refine FaultsIn.bind ?_ fun value hvalue => FaultsIn.bind ?_ fun _ _ => faultsIn_ok _
    · intro fault hfault
      exact .inr (.behind ['\\'] (escape_malformed (loc + 1) [c] _ fault hfault))
    · intro fault hfault
      refine (ih fault hfault).imp_right fun h => .behind ['\\', c] ?_
      rwa [Text.byteWidth_ascii (ascii_of_escape hvalue)]
  | case5 loc c cs _ _ _ ih =>
    refine FaultsIn.bind ?_ fun _ _ => faultsIn_ok _
    intro fault hfault
    refine (ih fault hfault).imp_right fun h => ?_
    exact .behind [c] h

theorem cutCharacter_malformed (loc : Nat) (cs : List Char) :
    FaultsIn (MalformedIn loc ('\'' :: cs)) (cutCharacter loc cs) := by
  unfold cutCharacter
  split
  next cs =>
    refine FaultsIn.bind ?_ fun value _ => ?_
    · intro fault hfault
      exact .behind ['\'', '\\'] (escape_malformed (loc + 2) cs cs fault hfault)
    · split
      next => exact faultsIn_ok _
      next => exact faultsIn_error.mpr (.here rfl)
  next =>
    split
    next => exact faultsIn_ok _
    next => exact faultsIn_error.mpr (.here rfl)
  next => exact faultsIn_error.mpr (.here rfl)

theorem ascii_of_isDigit {c : Char} (h : c.isDigit = true) : c.toNat < 128 := by
  rw [Char.isDigit, Bool.and_eq_true] at h
  have hle : c.toNat ≤ 57 := UInt32.le_iff_toNat_le.mp (of_decide_eq_true h.2)
  omega

theorem cutInteger_malformed (loc : Nat) {c : Char} (hc : c.isDigit = true) (cs : List Char) :
    FaultsIn (MalformedIn loc (c :: cs)) (cutInteger loc c cs) := by
  unfold cutInteger
  dsimp only
  split
  next =>
    have hascii : ∀ d ∈ c :: cs.takeWhile Char.isDigit, d.toNat < 128 := by
      refine List.forall_mem_cons.mpr ⟨ascii_of_isDigit hc, fun d hd => ?_⟩
      exact ascii_of_isDigit (List.mem_takeWhile_imp hd)
    refine faultsIn_error.mpr ⟨c :: cs.takeWhile Char.isDigit, cs.dropWhile Char.isDigit,
      .invalidDigit, ?_, rfl, ?_⟩
    · rw [List.cons_append, List.takeWhile_append_dropWhile]
    · rw [Text.byteWidth_ascii hascii, List.length_cons, Nat.add_right_comm, Nat.add_assoc]
  next => exact faultsIn_ok _

theorem cutComment_malformed (loc : Nat) (cs : List Char) :
    FaultsIn (MalformedIn loc ('#' :: cs)) (cutComment loc cs) := by
  unfold cutComment
  split
  next =>
    refine faultsIn_error.mpr ⟨'#' :: cs, [], .unendedComment, (List.append_nil _).symm, rfl, ?_⟩
    rw [Nat.add_assoc]
    rfl
  next => exact faultsIn_ok _

theorem cut_malformed (loc : Nat) (c : Char) (cs : List Char) :
    FaultsIn (MalformedIn loc (c :: cs)) (cut loc c cs) := by
  unfold cut
  split
  next => exact faultsIn_ok _
  next =>
    split_ifs with hcomment hdigit hquote htext
    · obtain rfl := eq_of_beq hcomment
      exact cutComment_malformed loc cs
    · exact cutInteger_malformed loc hdigit cs
    · obtain rfl := eq_of_beq hquote
      exact cutCharacter_malformed loc cs
    · refine FaultsIn.bind (fun fault hfault => ?_) fun _ _ => faultsIn_ok _
      obtain rfl := eq_of_beq htext
      rcases textBody_malformed loc (loc + 1) cs fault hfault with rfl | h
      · exact .here rfl
      · exact .behind ['"'] h
    · exact faultsIn_ok _
    · exact faultsIn_error.mpr (.here rfl)

theorem pieces_malformed (loc : Nat) (cs : List Char) :
    ∀ fault ∈ (pieces loc cs).2, fault.MalformedIn loc cs := by
  fun_induction pieces loc cs with
  | case1 => simp
  | case2 loc c cs fault hcut =>
    intro fault' hmem
    cases hmem
    exact cut_malformed loc c cs fault hcut
  | case3 loc c cs piece more hcut rest fault? hrest ih =>
    rw [hrest] at ih
    intro fault hmem
    have hbehind := Fault.MalformedIn.behind (c :: cs.take more) (ih fault hmem)
    rwa [List.cons_append, List.take_append_drop] at hbehind

theorem scan_malformed (source : String) :
    FaultsIn (MalformedIn 0 source.toList) (scan source).result := by
  have h := pieces_malformed 0 source.toList
  unfold scan
  dsimp only
  split
  next fault hfault => exact faultsIn_error.mpr (h fault hfault)
  next => exact faultsIn_ok _

theorem scan_reported (source : String) : ReportedBy .scanning (scan source).result := by
  intro fault hfault
  obtain ⟨before, after, cause, -, hkind, rfl⟩ := scan_malformed source fault hfault
  simp [Phase.kinds, hkind]

end Token

namespace Parser

variable {α : Type} (eof : Nat)

theorem reported_grammar {cause : Cause} (h : cause.kind = .grammar) (loc : Nat) :
    ReportedBy .parsing (.error (.located loc cause) : Except Fault α) :=
  faultsIn_error.mpr (by simp [Phase.kinds, h])

theorem expect_reported (kind : Token.Kind) (what : Expectation) (ts : List Token) :
    ReportedBy .parsing (expect eof kind what ts) := by
  unfold expect
  split
  next => exact faultsIn_ok _
  next => exact reported_grammar rfl _

theorem typeName_reported (ts : List Token) : ReportedBy .parsing (typeName eof ts) := by
  refine (expect_reported eof _ _ ts).bind ?_
  rintro ⟨name, rest⟩ _
  dsimp only
  split
  next => exact reported_grammar rfl _
  next => exact faultsIn_ok _

theorem declaration_reported (ts : List Token) : ReportedBy .parsing (declaration eof ts) :=
  (typeName_reported eof ts).bind fun _ _ =>
    (expect_reported eof _ _ _).bind fun _ _ => faultsIn_ok _

theorem parameter_reported (ts : List Token) : ReportedBy .parsing (parameter eof ts) := by
  unfold parameter
  split
  next => exact faultsIn_ok _
  next => exact (declaration_reported eof ts).bind fun _ _ => faultsIn_ok _

variable {close : Token.Kind} {what : Expectation} {item : (ts : List Token) → Must α ts}

theorem separated_reported (hitem : ∀ ts, ReportedBy .parsing (item ts)) (ts : List Token) :
    ReportedBy .parsing (separated eof close what item ts) := by
  induction hn : ts.length using Nat.strongRecOn generalizing ts with
  | _ n ih =>
    subst hn
    rw [separated]
    refine (hitem ts).bind ?_
    rintro ⟨a, afterItem⟩ _
    dsimp only
    split
    next t afterComma _ =>
      have hlt : afterComma.val.length < ts.length :=
        Nat.lt_trans afterComma.property afterItem.property
      exact (ih _ hlt _ rfl).bind fun _ _ => faultsIn_ok _
    next => exact (expect_reported eof _ _ _).bind fun _ _ => faultsIn_ok _

theorem closedList_reported (hitem : ∀ ts, ReportedBy .parsing (item ts)) (ts : List Token) :
    ReportedBy .parsing (closedList eof close what item ts) := by
  unfold closedList
  split
  next => exact faultsIn_ok _
  next => exact separated_reported eof hitem ts

theorem variableList_reported (ts : List Token) : ReportedBy .parsing (variableList eof ts) := by
  unfold variableList
  split
  next => exact faultsIn_ok _
  next => exact (closedList_reported eof (declaration_reported eof) _).bind fun _ _ => faultsIn_ok _

theorem parameters_reported (ts : List Token) : ReportedBy .parsing (parameters eof ts) :=
  (expect_reported eof _ _ ts).bind fun _ _ =>
    (closedList_reported eof (parameter_reported eof) _).bind fun _ _ => faultsIn_ok _

theorem sizeofType_reported (loc : Nat) (ts : List Token) :
    ReportedBy .parsing (sizeofType eof loc ts) := by
  refine (expect_reported eof _ _ ts).bind fun _ _ => (typeName_reported eof _).bind fun _ _ =>
    (expect_reported eof _ _ _).bind fun _ _ => ?_
  dsimp only
  split
  next => exact reported_grammar rfl _
  next => exact faultsIn_ok _

theorem literal?_reported (t : Token) : ReportedBy .parsing (literal? t) := by
  unfold literal?
  split
  next =>
    split
    next => exact faultsIn_ok _
    next => exact reported_grammar rfl _
  all_goals exact faultsIn_ok _

theorem operatorToken_reported (start : Nat) (ts : List Token) :
    ReportedBy .parsing (operatorToken start ts) := by
  cases ts with
  | nil => exact reported_grammar rfl _
  | cons t ts =>
    rw [operatorToken]
    split
    next => exact faultsIn_ok _
    next => exact reported_grammar rfl _

theorem orElse_reported {ts : List Token} {r : May α ts} (h : ReportedBy .parsing r) (loc : Nat)
    {cause : Cause} (hcause : cause.kind = .grammar) :
    ReportedBy .parsing (orElse r (.located loc cause)) := by
  refine h.bind fun found _ => ?_
  split
  next => exact faultsIn_ok _
  next => exact reported_grammar hcause loc

/-- Both kinds of recursion go through shorter rows of tokens. -/
theorem expression_reported (ts : List Token) :
    ReportedBy .parsing (expression eof ts) ∧ ReportedBy .parsing (expressions eof ts) := by
  induction hn : ts.length using Nat.strongRecOn generalizing ts with
  | _ n ih =>
    subst hn
    have hexpr : ReportedBy .parsing (expression eof ts) := by
      cases ts with
      | nil =>
        rw [expression]
        exact faultsIn_ok _
      | cons t ts =>
        rw [expression]
        split
        next => exact faultsIn_ok _
        next => exact (sizeofType_reported eof _ ts).bind fun _ _ => faultsIn_ok _
        next =>
          refine (operatorToken_reported _ ts).bind ?_
          rintro ⟨u, inside⟩ _
          have hlt : inside.val.length < (t :: ts).length := Nat.lt_succ_of_lt inside.property
          exact (ih _ hlt _ rfl).2.bind fun _ _ =>
            (expect_reported eof _ _ _).bind fun _ _ => faultsIn_ok _
        next =>
          refine (literal?_reported t).bind fun value? _ => ?_
          cases value? <;> exact faultsIn_ok _
    refine ⟨hexpr, ?_⟩
    rw [expressions]
    refine hexpr.bind fun found _ => ?_
    split
    next => exact faultsIn_ok _
    next e afterFirst _ => exact (ih _ afterFirst.property _ rfl).2.bind fun _ _ => faultsIn_ok _

theorem statement_reported (ts : List Token) :
    ReportedBy .parsing (statement eof ts) ∧ ReportedBy .parsing (statements eof ts) := by
  induction hn : ts.length using Nat.strongRecOn generalizing ts with
  | _ n ih =>
    subst hn
    have hstmt : ReportedBy .parsing (statement eof ts) := by
      cases ts with
      | nil =>
        rw [statement]
        exact faultsIn_ok _
      | cons t ts =>
        have hlen : (t :: ts).length = ts.length + 1 := rfl
        have hcond : ∀ cause : Cause, cause.kind = .grammar →
            ReportedBy .parsing (orElse (expression eof ts) (.located t.loc cause)) :=
          fun cause hcause => orElse_reported (expression_reported eof ts).1 _ hcause
        have hbranch : ∀ ts' loc, ∀ cause : Cause, cause.kind = .grammar →
            ts'.length < (t :: ts).length →
            ReportedBy .parsing (orElse (statement eof ts') (.located loc cause)) :=
          fun ts' loc cause hcause hlt => orElse_reported (ih _ hlt ts' rfl).1 loc hcause
        rw [statement]
        split
        next =>
          refine (ih ts.length (by omega) ts rfl).2.bind ?_
          rintro ⟨body, afterBody⟩ _
          dsimp only
          split
          next => exact reported_grammar rfl _
          next =>
            split
            next => exact faultsIn_ok _
            next => exact reported_grammar rfl _
        next =>
          refine (hcond _ rfl).bind ?_
          rintro ⟨condition, afterIf⟩ _
          have hlt := afterIf.property
          refine (hbranch afterIf.val _ _ rfl (by omega)).bind ?_
          rintro ⟨yes, afterYes⟩ _
          have hlt' : afterYes.val.length < afterIf.val.length := afterYes.property
          dsimp only
          split
          next => exact faultsIn_ok _
          next word afterElse _ =>
            have hlt'' := afterElse.property
            exact (hbranch afterElse.val _ _ rfl (by omega)).bind fun _ _ => faultsIn_ok _
        next =>
          refine (hcond _ rfl).bind ?_
          rintro ⟨condition, afterCondition⟩ _
          have hlt := afterCondition.property
          exact (hbranch afterCondition.val _ _ rfl (by omega)).bind fun _ _ => faultsIn_ok _
        next =>
          refine (expression_reported eof ts).1.bind fun found _ => ?_
          split <;> exact faultsIn_ok _
        next =>
          refine (expression_reported eof (t :: ts)).1.bind fun found _ => ?_
          split <;> exact faultsIn_ok _
    refine ⟨hstmt, ?_⟩
    rw [statements]
    refine hstmt.bind fun found _ => ?_
    split
    next => exact faultsIn_ok _
    next s afterFirst _ => exact (ih _ afterFirst.property _ rfl).2.bind fun _ _ => faultsIn_ok _

end Parser

theorem SymbolTable.declareAll_reported (table : SymbolTable)
    (entries : List (String × Nat × Symbol)) : ReportedBy .parsing (table.declareAll entries) := by
  induction entries generalizing table with
  | nil => exact faultsIn_ok _
  | cons entry entries ih =>
    rw [declareAll]
    split
    next => exact faultsIn_error.mpr (by simp [Phase.kinds, Cause.kind])
    next => exact ih _

theorem Procedure.build_reported (name : Token) (returns : TypeAt) (ps : List Parameter)
    (implementation : Implementation) :
    ReportedBy .parsing (build name returns ps implementation) :=
  (SymbolTable.declareAll_reported _ _).bind fun _ _ => faultsIn_ok _

theorem Program.build_reported (globals : List Declaration) (procedures : List Procedure) :
    ReportedBy .parsing (build globals procedures) :=
  (SymbolTable.declareAll_reported _ _).bind fun _ _ =>
    (SymbolTable.declareAll_reported _ _).bind fun _ _ => faultsIn_ok _

namespace Parser

theorem procedure_reported (eof : Nat) (ts : List Token) :
    ReportedBy .parsing (procedure eof ts) := by
  unfold procedure
  split
  next t inside _ =>
    refine FaultsIn.bind ?_ fun _ _ => faultsIn_ok _
    exact (typeName_reported eof _).bind fun _ _ => (expect_reported eof _ _ _).bind fun _ _ =>
      (parameters_reported eof _).bind fun _ _ => (variableList_reported eof _).bind fun _ _ =>
      (orElse_reported (statement_reported eof _).1 _ rfl).bind fun _ _ =>
      (Procedure.build_reported _ _ _ _).bind fun _ _ => faultsIn_ok _
  next =>
    split
    next t inside _ =>
      refine FaultsIn.bind ?_ fun _ _ => faultsIn_ok _
      exact (typeName_reported eof _).bind fun _ _ => (expect_reported eof _ _ _).bind fun _ _ =>
        (parameters_reported eof _).bind fun _ _ =>
        (Procedure.build_reported _ _ _ _).bind fun _ _ => faultsIn_ok _
    next => exact faultsIn_ok _

theorem procedures_reported (eof : Nat) (ts : List Token) :
    ReportedBy .parsing (procedures eof ts).result := by
  induction hn : ts.length using Nat.strongRecOn generalizing ts with
  | _ n ih =>
    subst hn
    rw [procedures.eq_def]
    split
    next fault hfault => exact faultsIn_error.mpr (procedure_reported eof ts fault hfault)
    next =>
      split
      next => exact faultsIn_ok _
      next => exact reported_grammar rfl _
    next p rest _ =>
      exact Traced.faultsIn_bind (faultsIn_ok _) fun _ _ =>
        Traced.faultsIn_bind (ih _ rest.property _ rfl) fun _ _ => faultsIn_ok _

end Parser

theorem Program.parse_reported (eof : Nat) (tokens : List Token) :
    ReportedBy .parsing (parse eof tokens).result := by
  rw [parse_of_keeps eof rfl]
  exact Traced.faultsIn_bind (Parser.variableList_reported eof _) fun _ _ =>
    Traced.faultsIn_bind (faultsIn_ok _) fun _ _ =>
      Traced.faultsIn_bind (Parser.procedures_reported eof _) fun _ _ =>
        Program.build_reported _ _

end ProcLang
