import ProcLang.Proofs.Correctness.Positions
import ProcLang.Proofs.Relocation.Binding
import ProcLang.Proofs.Relocation.Check
import ProcLang.Proofs.Relocation.Lines
import ProcLang.Proofs.Relocation.Parser
import ProcLang.Proofs.Safety.Compile

/-! The layout of a source does not matter. Sources with the same tokens are refused for the same
mistake, or they are compiled to the same assembly with other positions in its labels. -/
namespace ProcLang

open Assembly Outcome

def Compilation.relocate (f : Nat → Nat) (r : Compilation) : Compilation :=
  ⟨r.assembly.relocate f, r.warnings.map (Warning.relocate f)⟩

/-- What follows the tokens: `eof` is where the source ends. -/
def compileTokens (eof : Nat) (tokens : List Token) : Except Fault Compilation := do
  let parsed ← (Program.parse eof tokens).result
  parsed.bind.result
  let warnings ← parsed.bind.tree.check.result
  let assembly ← parsed.bind.tree.check.tree.generate
  return ⟨assembly, warnings⟩

theorem Pass.traced_result (p : Pass τ α) :
    p.traced.result = (p.result >>= fun a => .ok (p.tree, a)) := by
  rw [Pass.traced]
  cases p.result <;> rfl

theorem compile_result (source : String) :
    (compile source).result =
      ((Token.scan source).result >>= compileTokens (Text.byteWidth source.toList)) := by
  have hemit : ∀ event, (Traced.emit event).result = .ok () := fun _ => rfl
  simp only [compile, checkSource, bindSource, parseSource, Program.generateTraced,
    Traced.bind_result, Traced.pure_result, Pass.traced_result, hemit, bind_assoc, ok_bind]
  rfl

theorem compileTokens_filter (eof : Nat) (tokens : List Token) :
    compileTokens eof (tokens.filter Token.isSignificant) = compileTokens eof tokens := by
  have hparse : Program.parse eof (tokens.filter Token.isSignificant) =
      Program.parse eof tokens := by
    rw [Program.parse_of_keeps eof (keeps_filter tokens), Program.parse_of_keeps eof rfl]
  rw [compileTokens, hparse, compileTokens]

theorem compileTokens_relocate {f : Nat → Nat} (eof : Nat) (tokens : List Token) :
    compileTokens (f eof) (tokens.map (Token.relocate f)) =
      Outcome.relocate f (Compilation.relocate f) (compileTokens eof tokens) := by
  have hparse : (Program.parse (f eof) (tokens.map (Token.relocate f))).result =
      Outcome.relocate f (Program.relocate f) (Program.parse eof tokens).result :=
    congrArg Traced.result (Program.parse_relocate tokens)
  refine bind_relocate hparse fun parsed => ?_
  rw [Program.bind_relocate]
  refine bind_relocate (g := id) rfl fun _ => ?_
  have hcheck : (parsed.bind.tree.relocate f).check = _ := Program.check_relocate parsed.bind.tree
  dsimp only [Pass.relocate]
  rw [hcheck]
  refine bind_relocate (g := List.map (Warning.relocate f)) rfl fun warnings => ?_
  exact bind_relocate (Program.generate_relocate parsed.bind.tree.check.tree) fun _ => rfl

/-- Lists that grow are matched by a map that grows with them. -/
theorem exists_strictMonoOn {ms ns : List Nat} (hm : ms.Pairwise (· < ·))
    (hn : ns.Pairwise (· < ·)) (hlength : ms.length = ns.length) :
    ∃ f : Nat → Nat, ms.map f = ns ∧ StrictMonoOn f {m | m ∈ ms} := by
  induction ms generalizing ns with
  | nil => exact ⟨id, (List.length_eq_zero_iff.mp hlength.symm).symm, fun m hm => by cases hm⟩
  | cons m ms ih =>
    cases ns with
    | nil => cases hlength
    | cons n ns =>
      obtain ⟨hfirst, hm⟩ := List.pairwise_cons.mp hm
      obtain ⟨hfirst', hn⟩ := List.pairwise_cons.mp hn
      obtain ⟨f, hmap, hmono⟩ := ih hm hn (Nat.succ.inj hlength)
      have hother : ∀ k ∈ ms, Function.update f m n k = f k := fun k hk =>
        Function.update_of_ne (Nat.ne_of_gt (hfirst k hk)) n f
      refine ⟨Function.update f m n, ?_, ?_⟩
      · rw [List.map_cons, Function.update_self, List.map_congr_left hother, hmap]
      · intro j hj k hk hlt
        have hkm : k ∈ ms := by
          rcases List.mem_cons.mp hk with rfl | hk
          · rcases List.mem_cons.mp hj with rfl | hj
            · exact absurd hlt (Nat.lt_irrefl _)
            · exact absurd (hfirst j hj) (Nat.lt_asymm hlt)
          · exact hk
        rw [hother k hkm]
        rcases List.mem_cons.mp hj with rfl | hj
        · rw [Function.update_self]
          exact hfirst' _ (hmap ▸ List.mem_map_of_mem hkm)
        · rw [hother j hj]
          exact hmono hj hkm hlt

/-- Where the significant tokens of a source stand, and where the source ends. -/
def positionsOf (source : String) (tokens : List Token) : List Nat :=
  (tokens.filter Token.isSignificant).map Token.loc ++ [Text.byteWidth source.toList]

theorem positionsOf_sorted {source : String} {tokens : List Token}
    (h : (Token.scan source).result = .ok tokens) :
    (positionsOf source tokens).Pairwise (· < ·) := by
  have hsublist : ((tokens.filter Token.isSignificant).map Token.loc).Sublist
      (tokens.map Token.loc) := List.filter_sublist.map Token.loc
  refine List.pairwise_append.mpr ⟨(Token.scan_sorted h).sublist hsublist,
    List.pairwise_singleton _ _, fun m hm n hn => ?_⟩
  obtain ⟨t, ht, rfl⟩ := List.mem_map.mp hm
  rw [List.mem_singleton.mp hn]
  exact Token.scan_lt h t (List.mem_of_mem_filter ht)

/-- Tokens of the same kinds and texts differ by where they stand. -/
theorem eq_map_relocate {f : Nat → Nat} {ts us : List Token}
    (hsame : ts.map (fun t => (t.kind, t.text)) = us.map fun t => (t.kind, t.text))
    (hlocs : (ts.map Token.loc).map f = us.map Token.loc) : us = ts.map (Token.relocate f) := by
  induction ts generalizing us with
  | nil => exact List.map_eq_nil_iff.mp hsame.symm
  | cons t ts ih =>
    cases us with
    | nil => cases hsame
    | cons u us =>
      obtain ⟨hhead, htail⟩ := List.cons.inj hsame
      obtain ⟨hloc, hrest⟩ := List.cons.inj hlocs
      obtain ⟨hkind, htext⟩ := Prod.mk.inj hhead
      have hu : u = t.relocate f := by
        obtain ⟨kind, text, loc⟩ := u
        simp only [Token.relocate, hkind, htext, hloc]
      rw [List.map_cons, ← ih htail hrest, hu]

/-- Sources with the same significant tokens differ by a relocation. -/
theorem exists_relocation {source₁ source₂ : String} {tokens₁ tokens₂ : List Token}
    (h₁ : (Token.scan source₁).result = .ok tokens₁)
    (h₂ : (Token.scan source₂).result = .ok tokens₂)
    (hsame : (tokens₁.filter Token.isSignificant).map (fun t => (t.kind, t.text)) =
      (tokens₂.filter Token.isSignificant).map fun t => (t.kind, t.text)) :
    ∃ f : Nat → Nat, StrictMonoOn f {n | n ∈ positionsOf source₁ tokens₁} ∧
      (compile source₂).result =
        Outcome.relocate f (Compilation.relocate f) (compile source₁).result := by
  have hlength := congrArg List.length hsame
  rw [List.length_map, List.length_map] at hlength
  obtain ⟨f, hmap, hmono⟩ := exists_strictMonoOn (positionsOf_sorted h₁) (positionsOf_sorted h₂)
    (by simp [positionsOf, hlength])
  rw [positionsOf, positionsOf, List.map_append] at hmap
  obtain ⟨hlocs, hends⟩ := List.append_inj hmap (by simp [hlength])
  have hend : f (Text.byteWidth source₁.toList) = Text.byteWidth source₂.toList :=
    (List.cons.inj hends).1
  refine ⟨f, hmono, ?_⟩
  rw [compile_result, h₂, ok_bind, ← compileTokens_filter, eq_map_relocate hsame hlocs, ← hend,
    compileTokens_relocate, compileTokens_filter, compile_result, h₁, ok_bind]

/-- Moves every position but some. -/
def away (positions : List Nat) (n : Nat) : Nat :=
  if n ∈ positions then n else n + 1

theorem mem_of_away {positions : List Nat} {n : Nat} (h : away positions n = n) :
    n ∈ positions := by
  by_contra hother
  rw [away, if_neg hother] at h
  omega

/-- What leaves the tokens where they are leaves a compilation as it is, whatever comes of it. -/
theorem compile_away {source : String} {tokens : List Token}
    (hscan : (Token.scan source).result = .ok tokens) :
    (compile source).result = Outcome.relocate (away (positionsOf source tokens))
      (Compilation.relocate (away (positionsOf source tokens))) (compile source).result := by
  have hend : away (positionsOf source tokens) (Text.byteWidth source.toList) =
      Text.byteWidth source.toList :=
    if_pos (by simp [positionsOf])
  have htokens : (tokens.filter Token.isSignificant).map
      (Token.relocate (away (positionsOf source tokens))) =
      tokens.filter Token.isSignificant := by
    refine (List.map_congr_left fun t ht => ?_).trans (List.map_id _)
    have hloc : away (positionsOf source tokens) t.loc = t.loc :=
      if_pos (List.mem_append_left _ (List.mem_map_of_mem ht))
    rw [Token.relocate, hloc]
    rfl
  have hcompile : (compile source).result = compileTokens (Text.byteWidth source.toList)
      (tokens.filter Token.isSignificant) := by
    rw [compileTokens_filter, compile_result, hscan, ok_bind]
  have hrelocate := compileTokens_relocate (f := away (positionsOf source tokens))
    (Text.byteWidth source.toList) (tokens.filter Token.isSignificant)
  rwa [hend, htokens, ← hcompile] at hrelocate

/-- Positions in an assembly are positions of tokens: every other position could have been moved
away. -/
theorem mem_positionsOf {source : String} {tokens : List Token} {r : Compilation}
    (hscan : (Token.scan source).result = .ok tokens) (h : (compile source).result = .ok r)
    {n : Nat} (hn : n ∈ r.assembly.positions) : n ∈ positionsOf source tokens := by
  have haway := compile_away hscan
  rw [h] at haway
  have hfixed : r.assembly.relocate (away (positionsOf source tokens)) = r.assembly :=
    congrArg Compilation.assembly (Except.ok.inj haway).symm
  have hpositions := positions_relocate (f := away (positionsOf source tokens)) r.assembly
  rw [hfixed] at hpositions
  exact mem_of_away (List.map_inj_left.mp (hpositions.symm.trans (List.map_id _).symm) n hn)

/-- A mistake that is found behind the tokens is found at one of them, or at the end. -/
theorem loc_mem_positionsOf {source : String} {tokens : List Token} {loc : Nat} {cause : Cause}
    (hscan : (Token.scan source).result = .ok tokens)
    (h : (compile source).result = .error (.located loc cause)) :
    loc ∈ positionsOf source tokens := by
  have haway := compile_away hscan
  rw [h] at haway
  have hfixed := (Fault.located.inj (Except.error.inj haway)).1
  exact mem_of_away hfixed.symm

/-- A mistake keeps its kind, and its message if this quotes no position. -/
theorem Cause.message_relocate (f : Nat → Nat) (cause : Cause) :
    (cause.relocate f).kind = cause.kind ∧ ((cause.relocate f).message = cause.message ∨
      ∃ start, cause = .unclosedBlock start ∧ cause.relocate f = .unclosedBlock (f start)) := by
  cases cause with
  | unclosedBlock start => exact ⟨rfl, .inr ⟨start, rfl, rfl⟩⟩
  | _ => exact ⟨rfl, .inl rfl⟩

/-- Blanks, comments and spellings of literals have no meaning: sources with the same significant
tokens are both refused, with the same message but for the position that it may quote, or both
compiled, with the same warnings, to assemblies that have the same lines but for the positions in
labels. These keep their order. -/
theorem compile_same_tokens {source₁ source₂ : String} {tokens₁ tokens₂ : List Token}
    (h₁ : (Token.scan source₁).result = .ok tokens₁)
    (h₂ : (Token.scan source₂).result = .ok tokens₂)
    (hsame : (tokens₁.filter Token.isSignificant).map (fun t => (t.kind, t.text)) =
      (tokens₂.filter Token.isSignificant).map fun t => (t.kind, t.text)) :
    ∃ f : Nat → Nat, StrictMonoOn f {n | n ∈ positionsOf source₁ tokens₁} ∧
      ((∃ loc₁ loc₂ cause₁ cause₂, (compile source₁).result = .error (.located loc₁ cause₁) ∧
          (compile source₂).result = .error (.located loc₂ cause₂) ∧ loc₂ = f loc₁ ∧
          cause₂.kind = cause₁.kind ∧ (cause₂.message = cause₁.message ∨
            ∃ start, cause₁ = .unclosedBlock start ∧ cause₂ = .unclosedBlock (f start))) ∨
        ∃ r₁ r₂, (compile source₁).result = .ok r₁ ∧ (compile source₂).result = .ok r₂ ∧
          r₂.warnings.map Warning.message = r₁.warnings.map Warning.message ∧
          r₂.assembly = r₁.assembly.relocate f ∧
          List.Forall₂ (SameText f) (r₁.assembly.text.toList.splitOn '\n')
            (r₂.assembly.text.toList.splitOn '\n') ∧
          ∀ n ∈ r₁.assembly.positions, n ∈ positionsOf source₁ tokens₁) := by
  obtain ⟨f, hmono, hcompile⟩ := exists_relocation h₁ h₂ hsame
  refine ⟨f, hmono, ?_⟩
  cases hresult : (compile source₁).result with
  | error fault =>
    left
    rw [hresult] at hcompile
    cases fault with
    | internal breach => exact (compile_located source₁ _ hresult).elim
    | located loc cause =>
      exact ⟨loc, f loc, cause, cause.relocate f, rfl, hcompile, rfl, cause.message_relocate f⟩
  | ok r =>
    right
    rw [hresult] at hcompile
    have hmessages : (r.relocate f).warnings.map Warning.message =
        r.warnings.map Warning.message := by
      rw [Compilation.relocate, List.map_map]
      rfl
    exact ⟨r, r.relocate f, rfl, hcompile, hmessages, rfl, (sameText r.assembly).splitOn,
      fun n hn => mem_positionsOf h₁ hresult hn⟩

namespace Spacing

/-- A loop, with no more blanks than it needs. -/
def dense : String :=
  "proc void f()\x7bwhile(== 'a' '\\t')return\x7d"

/-- The same tokens, on lines of their own, with the tab as it is and a comment. -/
def airy : String :=
  "proc void f() \x7b\n  while (== 'a' '\t') # never\n    return\n\x7d\n"

def tokens (source : String) : List Token :=
  (Token.scan source).result.toOption.getD []

theorem scanned : (Token.scan dense).result = .ok (tokens dense) ∧
    (Token.scan airy).result = .ok (tokens airy) ∧
    ((tokens dense).filter Token.isSignificant).map (fun t => (t.kind, t.text)) =
      ((tokens airy).filter Token.isSignificant).map fun t => (t.kind, t.text) := by
  decide +kernel

theorem scan_dense : (Token.scan dense).result = .ok (tokens dense) :=
  scanned.1

theorem scan_airy : (Token.scan airy).result = .ok (tokens airy) :=
  scanned.2.1

theorem same : ((tokens dense).filter Token.isSignificant).map (fun t => (t.kind, t.text)) =
    ((tokens airy).filter Token.isSignificant).map fun t => (t.kind, t.text) :=
  scanned.2.2

theorem positioned : (compile dense).result.map (fun r => r.assembly.positions) =
      .ok [14, 27, 23, 14, 14, 14, 23, 27] ∧
    (compile airy).result.map (fun r => r.assembly.positions) =
      .ok [18, 32, 28, 18, 18, 18, 28, 32] := by
  rw [compile_result, compile_result, scan_dense, scan_airy, ok_bind, ok_bind]
  decide +kernel

theorem positions_dense : (compile dense).result.map (fun r => r.assembly.positions) =
    .ok [14, 27, 23, 14, 14, 14, 23, 27] :=
  positioned.1

theorem positions_airy : (compile airy).result.map (fun r => r.assembly.positions) =
    .ok [18, 32, 28, 18, 18, 18, 28, 32] :=
  positioned.2

end Spacing

open Spacing in
theorem compile_same_tokens_spacing : ∃ (f : Nat → Nat) (r₁ r₂ : Compilation),
    (compile dense).result = .ok r₁ ∧ (compile airy).result = .ok r₂ ∧
    f 14 = 18 ∧ f 23 = 28 ∧ f 27 = 32 ∧ r₂.assembly = r₁.assembly.relocate f ∧
    List.Forall₂ (SameText f) (r₁.assembly.text.toList.splitOn '\n')
      (r₂.assembly.text.toList.splitOn '\n') := by
  obtain ⟨f, -, hboth⟩ := compile_same_tokens scan_dense scan_airy same
  have hpositions := positions_dense
  have hpositions' := positions_airy
  rcases hboth with ⟨_, _, _, _, hdense, -⟩ | ⟨r₁, r₂, hdense, hairy, -, hassembly, hlines, -⟩
  · rw [hdense] at hpositions
    cases hpositions
  · rw [hdense] at hpositions
    rw [hairy] at hpositions'
    have hmoved : r₂.assembly.positions = r₁.assembly.positions.map f :=
      hassembly ▸ positions_relocate r₁.assembly
    have hpositions : r₁.assembly.positions = _ := Except.ok.inj hpositions
    have hpositions' : r₂.assembly.positions = _ := Except.ok.inj hpositions'
    rw [hpositions, hpositions'] at hmoved
    simp only [List.map_cons, List.map_nil, List.cons.injEq] at hmoved
    exact ⟨f, r₁, r₂, hdense, hairy, hmoved.1.symm, hmoved.2.2.1.symm, hmoved.2.1.symm,
      hassembly, hlines⟩

end ProcLang
