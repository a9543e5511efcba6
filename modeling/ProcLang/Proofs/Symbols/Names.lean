import Mathlib.Data.List.TakeWhile
import ProcLang.Proofs.Correctness.Positions

/-! How the names of a source are spelled. -/
namespace ProcLang

/-- A text that can be a name: letters, digits and underscores, at least one of them. -/
structure IsName (text : String) : Prop where
  nonempty : text.toList ≠ []
  chars : ∀ c ∈ text.toList, Token.isNamePart c = true

namespace Token

theorem fixed?_ne_name (cs : List Char) : fixed? cs ≠ some .name := by
  unfold fixed?
  split
  · simp
  · intro hfind
    have hmem := List.mem_of_find?_eq_some hfind
    simp [fixedKinds] at hmem

theorem isName_word {c : Char} (h : isNameStart c = true) (cs : List Char) :
    IsName (String.ofList (c :: cs.takeWhile isNamePart)) := by
  refine ⟨by simp, fun c' hc' => ?_⟩
  rw [String.toList_ofList] at hc'
  rcases List.mem_cons.mp hc' with rfl | hc'
  · simp only [isNameStart, isNamePart, Char.isAlphanum, Bool.or_eq_true] at h ⊢
    exact h.imp_left .inl
  · exact List.mem_takeWhile_imp hc'

theorem isName_of_cut {loc : Nat} {c : Char} {cs : List Char} {t : Token} {more : Nat}
    (h : cut loc c cs = .ok ⟨.token t, more⟩) (hkind : t.kind = .name) : IsName t.text := by
  unfold cut at h
  split at h
  next kind hfixed =>
    cases h
    obtain rfl : kind = .name := hkind
    exact absurd hfixed (fixed?_ne_name _)
  next =>
    split_ifs at h with _ _ _ _ hstart
    · unfold cutComment at h
      split at h <;> cases h
    · unfold cutInteger at h
      dsimp only at h
      split at h <;> cases h
      cases hkind
    · unfold cutCharacter at h
      split at h
      next =>
        obtain ⟨value, -, h⟩ := Outcome.bind_eq_ok.mp h
        split at h <;> cases h
        cases hkind
      next =>
        split at h <;> cases h
        cases hkind
      next => cases h
    · obtain ⟨body, -, h⟩ := Outcome.bind_eq_ok.mp h
      cases h
      cases hkind
    · cases h
      exact isName_word hstart cs

theorem isName_of_pieces {loc : Nat} {cs : List Char} {t : Token}
    (ht : t ∈ (pieces loc cs).1.filterMap Piece.token?) (hkind : t.kind = .name) :
    IsName t.text := by
  fun_induction pieces loc cs with
  | case1 => cases ht
  | case2 => cases ht
  | case3 loc c cs piece more hcut rest fault? hrest ih =>
    rw [hrest] at ih
    cases piece with
    | comment start stop => exact ih ht
    | token u =>
      rcases List.mem_cons.mp ht with rfl | ht
      · exact isName_of_cut hcut hkind
      · exact ih ht

theorem isName_of_scan {source : String} {tokens : List Token}
    (h : (scan source).result = .ok tokens) {t : Token} (ht : t ∈ tokens)
    (hkind : t.kind = .name) : IsName t.text := by
  unfold scan at h
  dsimp only at h
  split at h
  next => cases h
  next =>
    cases h
    exact isName_of_pieces ht hkind

end Token

namespace Grammar

variable {ts rest : List Token}

/-- A text that one of the tokens has as a name. -/
def Spells (ts : List Token) (name : String) : Prop :=
  ∃ t ∈ ts, t.kind = .name ∧ name = t.text

theorem Spells.of_sublist {name : String} (h : Spells rest name) (hsub : rest.Sublist ts) :
    Spells ts name := by
  obtain ⟨t, ht, hname⟩ := h
  exact ⟨t, hsub.subset ht, hname⟩

theorem spells_of_decl {d : Declaration} (h : Decl ts d rest) : Spells ts d.name := by
  cases h with
  | intro htype hname => exact .of_sublist ⟨_, by simp, hname, rfl⟩ (sublist_of_typeName htype)

theorem spells_of_varList {ds : List Declaration} (h : VarList ts ds rest) {d : Declaration}
    (hd : d ∈ ds) : Spells ts d.name := by
  cases h with
  | absent => cases hd
  | present _ hinside =>
    refine Spells.of_sublist ?_ (List.sublist_cons_self _ _)
    cases hinside with
    | empty _ => cases hd
    | items hall =>
      induction hall with
      | last hfirst _ =>
        obtain rfl := List.mem_singleton.mp hd
        exact spells_of_decl hfirst
      | more hfirst _ _ ih =>
        rcases List.mem_cons.mp hd with rfl | hd
        · exact spells_of_decl hfirst
        · exact (ih hd).of_sublist ((List.sublist_cons_self _ _).trans (sublist_of_decl hfirst))

theorem spells_of_proc {q : Procedure} (h : Proc ts q rest) : Spells ts q.name := by
  cases h with
  | internal _ htype hname _ _ _ _ | external _ htype hname _ _ =>
    exact .of_sublist ⟨_, by simp, hname, rfl⟩ ((sublist_of_typeName htype).cons _)

theorem spells_of_procs {qs : List Procedure} (h : Procs ts qs) {q : Procedure} (hq : q ∈ qs) :
    Spells ts q.name := by
  induction h with
  | nil => cases hq
  | cons hp _ ih =>
    rcases List.mem_cons.mp hq with rfl | hq
    · exact spells_of_proc hp
    · exact (ih hq).of_sublist (sublist_of_proc hp)

end Grammar

/-- Names of procedures are those of a source, and so are names of globals. -/
structure Program.Named (p : Program) : Prop where
  procedures : (p.procedures.map Procedure.name).Nodup
  globals : (p.globals.map Declaration.name).Nodup
  isName_procedure : ∀ q ∈ p.procedures, IsName q.name
  isName_global : ∀ d ∈ p.globals, IsName d.name

theorem Stages.isName_of_spells {source : String} {tokens : List Token} {parsed : Program}
    (h : Stages source tokens parsed) {name : String}
    (hname : Grammar.Spells (tokens.filter Token.isSignificant) name) : IsName name := by
  obtain ⟨t, ht, hkind, rfl⟩ := hname
  exact Token.isName_of_scan h.scanned (List.mem_of_mem_filter ht) hkind

theorem Stages.named {source : String} {tokens : List Token} {parsed : Program}
    (h : Stages source tokens parsed) (hwell : parsed.bind.tree.WellTyped) :
    parsed.bind.tree.check.tree.Named := by
  obtain ⟨hprocedures, hglobals⟩ := h.names_nodup hwell
  have hnames : parsed.bind.tree.check.tree.procedures.map Procedure.name =
      parsed.procedures.map Procedure.name :=
    (Program.names_check hwell).1.trans (Program.names_bind h.bound).1
  have hdeclared : parsed.bind.tree.check.tree.globals = parsed.globals :=
    (Program.names_check hwell).2.trans (Program.names_bind h.bound).2
  refine ⟨hprocedures, hglobals, fun q' hq' => ?_, fun d hd => ?_⟩
  · have hmem : q'.name ∈ parsed.procedures.map Procedure.name :=
      hnames ▸ List.mem_map_of_mem hq'
    obtain ⟨q, hq, hname⟩ := List.mem_map.mp hmem
    rw [← hname]
    cases h.derives with
    | intro hvars hprocs _ _ =>
      exact h.isName_of_spells
        ((Grammar.spells_of_procs hprocs hq).of_sublist (Grammar.sublist_of_varList hvars))
  · rw [hdeclared] at hd
    cases h.derives with
    | intro hvars _ _ _ => exact h.isName_of_spells (Grammar.spells_of_varList hvars hd)

end ProcLang
