import ProcLang.Proofs.Correctness.Compile
import ProcLang.Proofs.Lexing.Bytes
import ProcLang.Proofs.Relocation.Compile
import ProcLang.Proofs.Typing.Warnings

/-! What a source is refused for or warned of, by which pass, and where in the source that is. -/
namespace ProcLang

open Grammar

namespace Token

/-- Positions of tokens are between characters, and so is the end. -/
theorem isValid_of_mem_positionsOf {source : String} {tokens : List Token}
    (h : (scan source).result = .ok tokens) {n : Nat} (hn : n ∈ positionsOf source tokens) :
    String.Pos.Raw.IsValid source ⟨n⟩ := by
  rcases List.mem_append.mp hn with hn | hn
  · obtain ⟨t, ht, rfl⟩ := List.mem_map.mp hn
    obtain ⟨before, _, _, hsource, hloc, -⟩ :=
      exists_lexeme (tiles_of_scan h) t (List.mem_of_mem_filter ht)
    rw [hloc, Nat.zero_add]
    exact Text.isValid_of_append hsource
  · rw [List.mem_singleton.mp hn]
    exact Text.isValid_of_append (List.append_nil _).symm

/-- Mistakes that no token can be made of are between characters too. -/
theorem isValid_of_scan {source : String} {loc : Nat} {cause : Cause}
    (h : (scan source).result = .error (.located loc cause)) :
    String.Pos.Raw.IsValid source ⟨loc⟩ := by
  obtain ⟨before, after, _, hsource, -, hfault⟩ := scan_malformed source _ h
  cases hfault
  rw [Nat.zero_add]
  exact Text.isValid_of_append hsource

theorem Lexeme.openParen {t : Token} {cs rest : List Char} (h : Lexeme t cs rest)
    (hkind : t.kind = .delimiter .openParen) : cs = ['('] ∧ t.text = "(" := by
  cases h with
  | fixed _ hspelled _ =>
    cases hkind
    cases hspelled
    exact ⟨rfl, rfl⟩
  | word _ _ _ _ hknown => rcases hknown.kinds with rfl | rfl | ⟨_, rfl⟩ <;> cases hkind
  | carriageReturn | integer | character | text => cases hkind

/-- `OpensAt source loc`: an open parenthesis is at the byte `loc` of a source, as a token and not
in a string, a character or a comment. -/
def OpensAt (source : String) (loc : Nat) : Prop :=
  ∃ tokens before after, (scan source).result = .ok tokens ∧
    ⟨.delimiter .openParen, "(", loc⟩ ∈ tokens ∧ source.toList = before ++ '(' :: after ∧
    loc = Text.byteWidth before

theorem opensAt_of_mem {source : String} {tokens : List Token}
    (h : (scan source).result = .ok tokens) {t : Token} (ht : t ∈ tokens)
    (hkind : t.kind = .delimiter .openParen) : OpensAt source t.loc := by
  obtain ⟨before, lexeme, rest, hsource, hloc, hlexeme⟩ := exists_lexeme (tiles_of_scan h) t ht
  obtain ⟨rfl, htext⟩ := hlexeme.openParen hkind
  refine ⟨tokens, before, rest, h, ?_, hsource, hloc.trans (Nat.zero_add _)⟩
  rw [← hkind, ← htext]
  exact ht

end Token

namespace Expression

/-- Where the parenthesis of an operation is. -/
def opening? : Expression → Option Nat
  | .operation loc _ _ _ _ => some loc
  | _ => none

theorem opening?_clearTypes (e : Expression) : e.clearTypes.opening? = e.opening? := by
  cases e <;> rfl

theorem opening?_of_narrowing? {e : Expression} {w : Warning} (h : e.narrowing? = some w) :
    e.opening? = some w.loc := by
  unfold narrowing? at h
  split at h
  next =>
    split at h
    next =>
      split at h
      next => cases h
      next =>
        cases h
        rfl
    next => cases h
  next => cases h

end Expression

theorem Scope.opening?_bindExpression (s : Scope) (e : Expression) :
    (s.bindExpression e).tree.opening? = e.opening? := by
  cases e with
  | literal l => rw [bindExpression]
  | var v =>
    rw [bindExpression]
    rfl
  | operation loc token es known type =>
    rw [bindExpression]
    dsimp only
    split <;> rfl

theorem Grammar.opens_of_expr {ts rest : List Token} {e : Expression} (h : Expr ts e rest)
    {loc : Nat} (hloc : e.opening? = some loc) :
    ∃ t ∈ ts, t.kind = .delimiter .openParen ∧ t.loc = loc := by
  cases h with
  | @operation t _ _ _ _ _ opening _ _ _ =>
    cases hloc
    exact ⟨t, by simp, opening, rfl⟩
  | _ => cases hloc

/-- An operation of a checked tree is at a parenthesis of the source. -/
theorem opensAt_of_checkSource {source : String} {p : Program} {warnings : List Warning}
    (h : (checkSource source).result = .ok (p, warnings)) {e : Expression} (he : e ∈ p.parts)
    {loc : Nat} (hloc : e.opening? = some loc) : Token.OpensAt source loc := by
  obtain ⟨q, hq, body, hbody, hpart⟩ := Program.mem_parts.mp he
  obtain ⟨tokens, parsed, hstages, hwell, rfl⟩ := exists_stages h
  obtain ⟨q₁, hq₁, body₁, hbody₁, e₁, he₁, hclear⟩ :=
    Program.mem_parts_check hwell hq hbody hpart
  obtain ⟨q₂, hq₂, -, body₂, hbody₂, e₂, he₂, -, rfl⟩ :=
    Program.mem_parts_bind hstages.bound hq₁ hbody₁ he₁
  -- Neither checking nor binding moves an operation.
  rw [← Expression.opening?_clearTypes, ← hclear, Expression.opening?_clearTypes,
    Scope.opening?_bindExpression] at hloc
  obtain ⟨ts, _, hsub, hexpr⟩ := derivedIn_of_derives hstages.derives hq₂ hbody₂ he₂
  obtain ⟨t, ht, hkind, rfl⟩ := opens_of_expr hexpr hloc
  exact Token.opensAt_of_mem hstages.scanned (List.mem_of_mem_filter (hsub.subset ht)) hkind

theorem warnings_of_checkSource {source : String} {p : Program} {warnings : List Warning}
    (h : (checkSource source).result = .ok (p, warnings)) :
    warnings = p.postorder.filterMap Expression.narrowing? := by
  obtain ⟨bound, -, hchecked⟩ := Traced.bind_eq_ok.mp h
  obtain ⟨rfl, hok⟩ := Pass.traced_eq_ok.mp hchecked
  exact Program.check_warnings hok

/-- A warning is at the parenthesis of the assignment it is for. -/
theorem opensAt_of_mem_warnings {source : String} {p : Program} {warnings : List Warning}
    (h : (checkSource source).result = .ok (p, warnings)) :
    ∀ w ∈ warnings, Token.OpensAt source w.loc := by
  intro w hw
  rw [warnings_of_checkSource h] at hw
  obtain ⟨e, he, hwarning⟩ := List.mem_filterMap.mp hw
  exact opensAt_of_checkSource h (p.postorder_perm.mem_iff.mp he)
    (Expression.opening?_of_narrowing? hwarning)

/-- `RefusedBy source phase fault`: the passes before `phase` accept a source, and `phase` refuses it
for `fault`. -/
inductive RefusedBy (source : String) : Phase → Fault → Prop
  | scanning {fault : Fault} (refused : (Token.scan source).result = .error fault) :
    RefusedBy source .scanning fault
  | parsing {tokens : List Token} {fault : Fault}
    (scanned : (Token.scan source).result = .ok tokens)
    (refused : (Program.parse (Text.byteWidth source.toList) tokens).result = .error fault) :
    RefusedBy source .parsing fault
  | binding {p : Program} {fault : Fault} (parsed : (parseSource source).result = .ok p)
    (refused : p.bind.result = .error fault) : RefusedBy source .binding fault
  | checking {p : Program} {fault : Fault} (bound : (bindSource source).result = .ok p)
    (refused : p.check.result = .error fault) : RefusedBy source .checking fault

theorem parseSource_eq_error {source : String} {fault : Fault} :
    (parseSource source).result = .error fault ↔
      RefusedBy source .scanning fault ∨ RefusedBy source .parsing fault := by
  refine Traced.bind_eq_error.trans (or_congr ⟨.scanning, ?_⟩ ⟨?_, ?_⟩)
  · intro h
    cases h with
    | scanning refused => exact refused
  · rintro ⟨tokens, hscan, h⟩
    exact .parsing hscan h
  · intro h
    cases h with
    | parsing scanned refused => exact ⟨_, scanned, refused⟩

theorem bindSource_eq_error {source : String} {fault : Fault} :
    (bindSource source).result = .error fault ↔
      (parseSource source).result = .error fault ∨ RefusedBy source .binding fault := by
  refine Traced.bind_eq_error.trans (or_congr_right ⟨?_, ?_⟩)
  · rintro ⟨p, hp, h⟩
    rcases Traced.bind_eq_error.mp h with h | ⟨_, _, h⟩
    · exact .binding hp (Pass.traced_eq_error.mp h)
    · cases h
  · intro h
    cases h with
    | binding parsed refused =>
      exact ⟨_, parsed, Traced.bind_eq_error.mpr (.inl (Pass.traced_eq_error.mpr refused))⟩

theorem checkSource_eq_error {source : String} {fault : Fault} :
    (checkSource source).result = .error fault ↔
      (bindSource source).result = .error fault ∨ RefusedBy source .checking fault := by
  refine Traced.bind_eq_error.trans (or_congr_right ⟨?_, ?_⟩)
  · rintro ⟨p, hp, h⟩
    exact .checking hp (Pass.traced_eq_error.mp h)
  · intro h
    cases h with
    | checking bound refused => exact ⟨_, bound, Pass.traced_eq_error.mpr refused⟩

/-- Generating code refuses nothing. -/
theorem compile_eq_error_iff_checkSource {source : String} {fault : Fault} :
    (compile source).result = .error fault ↔ (checkSource source).result = .error fault := by
  refine ⟨fun h => ?_, fun h => Traced.bind_eq_error.mpr (.inl h)⟩
  rcases Traced.bind_eq_error.mp h with h | ⟨⟨p, warnings⟩, hp, -⟩
  · exact h
  · obtain ⟨a, -, hok⟩ := compile_of_checkSource hp
    rw [h] at hok
    cases hok

theorem compile_eq_error {source : String} {fault : Fault} :
    (compile source).result = .error fault ↔ ∃ phase, RefusedBy source phase fault := by
  rw [compile_eq_error_iff_checkSource, checkSource_eq_error, bindSource_eq_error,
    parseSource_eq_error]
  constructor
  · rintro (((h | h) | h) | h)
    all_goals exact ⟨_, h⟩
  · rintro ⟨phase, h⟩
    cases phase with
    | scanning => exact .inl (.inl (.inl h))
    | parsing => exact .inl (.inl (.inr h))
    | binding => exact .inl (.inr h)
    | checking => exact .inr h

namespace RefusedBy

variable {source : String} {phase : Phase} {fault : Fault}

theorem reports (h : RefusedBy source phase fault) : phase.Reports fault := by
  cases h with
  | scanning refused => exact Token.scan_reported source fault refused
  | parsing _ refused => exact Program.parse_reported _ _ fault refused
  | binding parsed refused => exact bind_reported_of_parseSource parsed fault refused
  | checking bound refused => exact Program.check_reported (bound_of_bindSource bound) fault refused

theorem isValid {loc : Nat} {cause : Cause} (h : RefusedBy source phase (.located loc cause)) :
    String.Pos.Raw.IsValid source ⟨loc⟩ := by
  -- The later passes see nothing of a source but its tokens, so they can name no other position.
  cases hscan : (Token.scan source).result with
  | ok tokens =>
    exact Token.isValid_of_mem_positionsOf hscan
      (loc_mem_positionsOf hscan (compile_eq_error.mpr ⟨phase, h⟩))
  | error fault =>
    have hcompile := compile_eq_error.mpr ⟨.scanning, .scanning hscan⟩
    rw [compile_eq_error.mpr ⟨phase, h⟩] at hcompile
    cases hcompile
    exact Token.isValid_of_scan hscan

end RefusedBy

/-- A source that is not compiled is refused by a pass, for a mistake of a kind that this pass is
there for. It is at a byte of the source where a character starts, or at its end. Warnings are at
parentheses. -/
theorem diagnostics_placed (source : String) :
    (∀ fault, (compile source).result = .error fault ↔ ∃ phase, RefusedBy source phase fault) ∧
    (∀ phase fault, RefusedBy source phase fault → ∃ loc cause, fault = .located loc cause ∧
      cause.kind ∈ phase.kinds ∧ loc ≤ source.utf8ByteSize ∧
      String.Pos.Raw.IsValid source ⟨loc⟩) ∧
    ∀ r, (compile source).result = .ok r → ∀ w ∈ r.warnings, Token.OpensAt source w.loc := by
  refine ⟨fun fault => compile_eq_error, fun phase fault h => ?_, fun r hr => ?_⟩
  · cases fault with
    | located loc cause =>
      exact ⟨loc, cause, rfl, h.reports, h.isValid.le_utf8ByteSize, h.isValid⟩
    | internal breach => exact h.reports.elim
  · obtain ⟨p, hcheck, -⟩ := generate_of_compile hr
    exact opensAt_of_mem_warnings hcheck

/-- Checking warns of the assignments that narrow a `void*` by the types it leaves on record, once
each, in the order in which it is done with them: procedures as they are listed, operands before
their operation. Each warning is at the parenthesis of its assignment and names the type assigned
to. -/
theorem warnings_exact :
    (∀ (p : Program) warnings, p.check.result = .ok warnings →
      warnings = p.check.tree.postorder.filterMap Expression.narrowing?) ∧
    (∀ source p warnings, (checkSource source).result = .ok (p, warnings) →
      warnings = p.postorder.filterMap Expression.narrowing? ∧
      ∀ w ∈ warnings, Token.OpensAt source w.loc) ∧
    ∀ w : Warning,
      w.message = "Implicitly casting void* to " ++ w.target.display ++ " for assignment" := by
  refine ⟨fun p warnings => Program.check_warnings, fun source p warnings h => ?_, fun w => rfl⟩
  exact ⟨warnings_of_checkSource h, opensAt_of_mem_warnings h⟩

/-- An assignment inside the target of another one is done with first, though its parenthesis comes
later. -/
theorem warnings_exact_nested : ∃ p warnings,
    (checkSource "[void* v, int** q] proc void f() (= (* (= q v)) v)").result =
      .ok (p, warnings) ∧
    warnings = [⟨39, .pointer (.pointer .int)⟩, ⟨33, .pointer .int⟩] ∧
    p.postorder.filterMap Expression.narrowing? = warnings ∧
    ∀ w ∈ warnings,
      Token.OpensAt "[void* v, int** q] proc void f() (= (* (= q v)) v)" w.loc := by
  have hwarnings : (checkSource "[void* v, int** q] proc void f() (= (* (= q v)) v)").result.map
      Prod.snd = .ok [⟨39, .pointer (.pointer .int)⟩, ⟨33, .pointer .int⟩] := by
    decide +kernel
  cases h : (checkSource "[void* v, int** q] proc void f() (= (* (= q v)) v)").result with
  | error fault =>
    rw [h] at hwarnings
    cases hwarnings
  | ok checked =>
    obtain ⟨p, warnings⟩ := checked
    rw [h] at hwarnings
    obtain ⟨hexact, hplaced⟩ := warnings_exact.2.1 _ p warnings h
    exact ⟨p, warnings, rfl, Except.ok.inj hwarnings, hexact.symm, hplaced⟩

end ProcLang
