import ProcLang.Proofs.Blanks
import ProcLang.Proofs.Progress.Descent

/-! A run follows the productions over the tokens that are left: from every place it ends, it does
not go back, and a match passes a significant token. -/
namespace ProcLang.Descent

open ProcLang.Parser (Shorter NoLonger)

section Relations

variable (tokens : List Token) (pos : Nat) {ts : List Token}

/-- Nothing but blanks from one place up to another. -/
def Blanks (stop : Nat) : Prop :=
  pos ≤ stop ∧ ∀ i t, pos ≤ i → i < stop → tokens[i]? = some t → t.isSignificant = false

/-- A significant token from one place up to another. -/
def Passes (stop : Nat) : Prop :=
  ∃ i t, pos ≤ i ∧ i < stop ∧ tokens[i]? = some t ∧ t.isSignificant = true

/-- A production that must match: the same value, with the cursor at what is left over and past a
significant token. -/
inductive Past : α → α × Shorter ts → Nat → Prop
  | intro {a : α} {rest : Shorter ts} {stop : Nat} (left : rest.val = tokens.drop stop)
    (passed : Passes tokens pos stop) : Past a (a, rest) stop

/-- A production that may match nothing, and then passes over blanks only. -/
inductive PastMay : Option α → Cursor.Found α ts → Nat → Prop
  | matched {a : α} {rest : Shorter ts} {stop : Nat} (left : rest.val = tokens.drop stop)
    (passed : Passes tokens pos stop) : PastMay (some a) (.matched a rest) stop
  | nothing {rest : NoLonger ts} {stop : Nat} (left : rest.val = tokens.drop stop)
    (blank : Blanks tokens pos stop) : PastMay none (.nothing rest) stop

/-- A production that gives a list, which may be empty. -/
inductive Along : α → α × NoLonger ts → Nat → Prop
  | intro {a : α} {rest : NoLonger ts} {stop : Nat} (left : rest.val = tokens.drop stop) :
    Along a (a, rest) stop

/-- An end of a run from `pos`, no further back: at the same fault, or with values that are
related. -/
inductive Ends (R : α → β → Nat → Prop) : Except Fault α × Nat → Except Fault β → Prop
  | fault (fault : Fault) {stop : Nat} (onward : pos ≤ stop) :
    Ends R (.error fault, stop) (.error fault)
  | value {a : α} {b : β} {stop : Nat} (onward : pos ≤ stop) (related : R a b stop) :
    Ends R (.ok a, stop) (.ok b)

/-- The run from `pos` comes to an end that fits the outcome. -/
def Follows (R : α → β → Nat → Prop) (run : Descent α) (outcome : Except Fault β) : Prop :=
  ∃ final, run.run.run pos = some final ∧ Ends pos R final outcome

end Relations

variable {tokens : List Token} {pos mid stop eof : Nat} {ts : List Token}

theorem Passes.le (h : Passes tokens pos stop) : pos ≤ stop := by
  obtain ⟨i, -, hle, hlt, -⟩ := h
  exact Nat.le_of_lt (Nat.lt_of_le_of_lt hle hlt)

theorem Passes.onward (h : Passes tokens pos mid) (hle : mid ≤ stop) : Passes tokens pos stop := by
  obtain ⟨i, t, hpos, hmid, ht, hsig⟩ := h
  exact ⟨i, t, hpos, Nat.lt_of_lt_of_le hmid hle, ht, hsig⟩

theorem Passes.before (h : Passes tokens mid stop) (hle : pos ≤ mid) : Passes tokens pos stop := by
  obtain ⟨i, t, hmid, hstop, ht, hsig⟩ := h
  exact ⟨i, t, Nat.le_trans hle hmid, hstop, ht, hsig⟩

theorem Blanks.trans (h : Blanks tokens pos mid) (h' : Blanks tokens mid stop) :
    Blanks tokens pos stop := by
  refine ⟨Nat.le_trans h.1 h'.1, fun i t hle hlt ht => ?_⟩
  by_cases hmid : i < mid
  · exact h.2 i t hle hmid ht
  · exact h'.2 i t (Nat.le_of_not_lt hmid) hlt ht

namespace Follows

variable {R : α → β → Nat → Prop} {S : γ → δ → Nat → Prop}

theorem value {a : α} {b : β} (h : R a b pos) : Follows pos R (pure a) (.ok b) :=
  ⟨_, rfl, .value (Nat.le_refl pos) h⟩

theorem fault (fault : Fault) : Follows pos R (throw fault) (.error fault) :=
  ⟨_, rfl, .fault fault (Nat.le_refl pos)⟩

theorem run_bind {first : Descent γ} (next : γ → Descent α) {c : γ}
    (h : first.run.run pos = some (.ok c, mid)) :
    (first >>= next).run.run pos = (next c).run.run mid := by
  rw [ExceptT.run_bind, StateT.run_bind, h]
  rfl

theorem run_bind_congr {first : Descent γ} (next : γ → Descent α)
    (h : first.run.run pos = first.run.run mid) :
    (first >>= next).run.run pos = (first >>= next).run.run mid := by
  simp only [ExceptT.run_bind, StateT.run_bind, h]

/-- A part that ends well is gone through, and the rest from there. -/
theorem step {first : Descent γ} {next : γ → Descent α} {c : γ} {outcome : Except Fault β}
    (hfirst : first.run.run pos = some (.ok c, mid)) (hle : pos ≤ mid)
    (h : Follows mid R (next c) outcome) : Follows pos R (first >>= next) outcome := by
  obtain ⟨final, hrun, hends⟩ := h
  refine ⟨final, (run_bind next hfirst).trans hrun, ?_⟩
  cases hends with
  | fault f onward => exact .fault f (Nat.le_trans hle onward)
  | value onward related => exact .value (Nat.le_trans hle onward) related

theorem bind {first : Descent α} {outcome : Except Fault β} {next : α → Descent γ}
    {next' : β → Except Fault δ} (h : Follows pos R first outcome)
    (hnext : ∀ a b mid, pos ≤ mid → R a b mid → Follows mid S (next a) (next' b)) :
    Follows pos S (first >>= next) (outcome >>= next') := by
  obtain ⟨final, hrun, hends⟩ := h
  cases hends with
  | fault f onward =>
    refine ⟨_, ?_, .fault f onward⟩
    rw [ExceptT.run_bind, StateT.run_bind, hrun]
    rfl
  | value onward related => exact step hrun onward (hnext _ _ _ onward related)

/-- Only what the run does from `pos` on counts. -/
theorem congr {run run' : Descent α} {outcome : Except Fault β}
    (h : Follows pos R run outcome) (hrun : run'.run.run pos = run.run.run pos) :
    Follows pos R run' outcome := by
  obtain ⟨final, hfinal, hends⟩ := h
  exact ⟨final, hrun.trans hfinal, hends⟩

/-- The last part of a run, whose value is the value of the whole. -/
theorem last {run : Descent α} {outcome : Except Fault β} {S : α → δ → Nat → Prop}
    {f : β → Except Fault δ} (h : Follows pos R run outcome)
    (hlast : ∀ a b mid, pos ≤ mid → R a b mid → Follows mid S (pure a) (f b)) :
    Follows pos S run (outcome >>= f) := by
  rw [← bind_pure run]
  exact h.bind hlast

end Follows

/-! ### Looking at a token -/

theorem skip_drop (h : ts = tokens.drop pos) :
    (Cursor.skip ts).val = tokens.drop (skipFrom tokens pos) := by
  rw [Cursor.skip_val, skipFrom, ← List.drop_drop, ← h]
  calc ts.dropWhile (!·.isSignificant)
    _ = (ts.takeWhile (!·.isSignificant) ++ ts.dropWhile (!·.isSignificant)).drop
        (ts.takeWhile (!·.isSignificant)).length := List.drop_left.symm
    _ = ts.drop (ts.takeWhile (!·.isSignificant)).length := by
      rw [List.takeWhile_append_dropWhile]

theorem blanks_skipFrom (tokens : List Token) (pos : Nat) :
    Blanks tokens pos (skipFrom tokens pos) := by
  refine ⟨Nat.le_add_right _ _, fun i t hle hlt ht => ?_⟩
  obtain ⟨k, rfl⟩ := Nat.exists_eq_add_of_le hle
  have hk := Nat.lt_of_add_lt_add_left hlt
  rw [← List.getElem?_drop,
    ← List.takeWhile_append_dropWhile (p := (!·.isSignificant)) (l := tokens.drop pos),
    List.getElem?_append_left hk] at ht
  simpa using List.all_eq_true.mp List.all_takeWhile t (List.mem_of_getElem? ht)

/-- A cursor that looks comes to the end or to a significant token, over blanks. -/
theorem peek_cases (h : ts = tokens.drop pos) :
    ∃ stop, (peek tokens).run.run pos = some (.ok tokens[stop]?, stop) ∧
      Blanks tokens pos stop ∧ (Cursor.skip ts).val = tokens.drop stop ∧
      ((Cursor.peek? ts = none ∧ tokens[stop]? = none) ∨
      ∃ t behind, Cursor.peek? ts = some (t, behind) ∧ tokens[stop]? = some t ∧
        behind.val = tokens.drop (stop + 1) ∧ Passes tokens pos (stop + 1)) := by
  have hskip := skip_drop h
  have hblanks := blanks_skipFrom tokens pos
  refine ⟨skipFrom tokens pos, rfl, hblanks, hskip, ?_⟩
  generalize skipFrom tokens pos = stop at hskip hblanks
  rcases Cursor.peek?_cases (rfl : Keeps ts _) with
    ⟨hempty, hpeek, -⟩ | ⟨t, behind, -, hcons, hpeek, -, -⟩
  · rw [hskip] at hempty
    exact .inl ⟨hpeek, by rw [← List.head?_drop, hempty]; rfl⟩
  · have hsig := Cursor.significant_of_skip hcons
    rw [hskip] at hcons
    have ht : tokens[stop]? = some t := by rw [← List.head?_drop, hcons]; rfl
    refine .inr ⟨t, behind, hpeek, ht, ?_, stop, t, hblanks.1, Nat.lt_succ_self _, ht, hsig⟩
    rw [← List.tail_drop, hcons]
    rfl

/-- Looking again finds the same token. -/
theorem peek_again {t? : Option Token} (h : (peek tokens).run.run pos = some (.ok t?, mid)) :
    (peek tokens).run.run mid = some (.ok t?, mid) := by
  have hpeek : ∀ pos, (peek tokens).run.run pos =
      some (.ok tokens[skipFrom tokens pos]?, skipFrom tokens pos) := fun _ => rfl
  have hskip := skip_drop (rfl : _ = tokens.drop pos)
  have hagain : skipFrom tokens (skipFrom tokens pos) = skipFrom tokens pos := by
    rw [skipFrom, ← hskip]
    cases hcons : (Cursor.skip (tokens.drop pos)).val with
    | nil => rfl
    | cons t rest =>
      rw [List.takeWhile_cons_of_neg (by simp [Cursor.significant_of_skip hcons])]
      rfl
  rw [hpeek] at h
  cases h
  rw [hpeek, hagain]

theorem consume_cases (kind : Token.Kind) (h : ts = tokens.drop pos) :
    (∃ t rest stop, Cursor.accept kind ts = .matched t rest ∧
      (consume tokens kind).run.run pos = some (.ok (some t), stop) ∧
      rest.val = tokens.drop stop ∧ Passes tokens pos stop) ∨
    ∃ rest stop, Cursor.accept kind ts = .nothing rest ∧
      (consume tokens kind).run.run pos = some (.ok none, stop) ∧
      rest.val = tokens.drop stop ∧ Blanks tokens pos stop := by
  obtain ⟨stop, hrun, hblanks, hskip, hcases⟩ := peek_cases h
  unfold Cursor.accept consume
  rw [Follows.run_bind _ hrun]
  rcases hcases with ⟨hpeek, hnone⟩ | ⟨t, behind, hpeek, ht, hbehind, hpasses⟩
  · rw [hpeek, hnone]
    exact .inr ⟨_, stop, rfl, rfl, hskip, hblanks⟩
  · rw [hpeek, ht]
    dsimp only
    by_cases hkind : t.kind = kind
    · rw [if_pos hkind, if_pos hkind]
      exact .inl ⟨t, behind, stop + 1, rfl, rfl, hbehind, hpasses⟩
    · rw [if_neg hkind, if_neg hkind]
      exact .inr ⟨_, stop, rfl, rfl, hskip, hblanks⟩

theorem nextLoc_run (eof : Nat) (h : ts = tokens.drop pos) :
    ∃ stop, (nextLoc tokens eof).run.run pos =
        some (.ok (Parser.nextLoc eof (Cursor.skip ts).val), stop) ∧
      pos ≤ stop ∧ (Cursor.skip ts).val = tokens.drop stop := by
  obtain ⟨stop, hrun, hblanks, hskip, -⟩ := peek_cases h
  refine ⟨stop, ?_, hblanks.1, hskip⟩
  rw [nextLoc, Follows.run_bind _ hrun, Cursor.nextLoc_eq, hskip, List.head?_drop]
  cases tokens[stop]? <;> rfl

theorem expect_follows (kind : Token.Kind) (what : Expectation) (h : ts = tokens.drop pos) :
    Follows pos (Past tokens pos) (expect tokens eof kind what)
      (Cursor.expect eof kind what ts) := by
  unfold expect Cursor.expect
  rcases consume_cases kind h with
    ⟨t, rest, stop, haccept, hrun, hleft, hpassed⟩ | ⟨rest, stop, haccept, hrun, hleft, hblanks⟩
  · rw [haccept]
    exact .step hrun hpassed.le (.value (.intro hleft hpassed))
  · rw [haccept]
    refine .step hrun hblanks.1 ?_
    obtain rfl := Cursor.accept_eq_nothing haccept
    obtain ⟨next, hnext, hle, hskip⟩ := nextLoc_run eof hleft
    refine .step hnext hle (.step (c := next) rfl (Nat.le_refl next) ?_)
    -- The cursor stood where it looks, so that the fault names the token there.
    have hkeeps : Keeps (Cursor.skip ts).val _ := Cursor.keeps_skip rfl
    have hhead : tokens[next]? = (Cursor.skip ts).val.head? := by
      rw [← List.head?_drop, ← hskip, Cursor.head?_skip hkeeps, Cursor.head?_skip rfl]
    rw [hhead]
    exact .fault _

/-! ### Types and declarations -/

variable {depth : Nat}

theorem stars_follows (type : TypeAt) (h : ts = tokens.drop pos) (hdepth : ts.length < depth) :
    Follows pos (Along tokens) (stars tokens depth type) (.ok (Cursor.stars type ts)) := by
  induction depth generalizing type pos ts with
  | zero => exact absurd hdepth (Nat.not_lt_zero _)
  | succ depth ih =>
    rw [stars, Cursor.stars]
    rcases consume_cases (.sign .star) h with
      ⟨star, rest, stop, haccept, hrun, hleft, hpassed⟩ |
      ⟨rest, stop, haccept, hrun, hleft, hblanks⟩
    · rw [haccept]
      have hrest := rest.property
      refine .step hrun hpassed.le ?_
      refine (ih (.pointer type star.loc) hleft (by omega)).last
        (f := fun found => .ok (found.1, (rest.weaken found.2).noLonger)) ?_
      rintro _ _ _ - ⟨left⟩
      exact .value (.intro left)
    · rw [haccept]
      exact .step hrun hblanks.1 (.value (.intro hleft))

theorem typeName_follows (h : ts = tokens.drop pos) (hdepth : ts.length < depth) :
    Follows pos (Past tokens pos) (typeName tokens eof depth) (Cursor.typeName eof ts) := by
  refine .bind (expect_follows .name .typeName h) ?_
  rintro name ⟨_, rest⟩ _ - ⟨left, passed⟩
  dsimp only
  cases TypeAt.ofName? name.text name.loc with
  | none => exact .fault _
  | some type =>
    have hrest := rest.property
    have hstars : Follows _ (Along tokens) (stars tokens depth type) _ :=
      stars_follows type left (by omega)
    refine hstars.last (f := fun found => .ok (found.1, rest.weaken found.2)) ?_
    rintro _ _ _ hle ⟨left⟩
    exact .value (.intro left (passed.onward hle))

theorem declaration_follows (h : ts = tokens.drop pos) (hdepth : ts.length < depth) :
    Follows pos (Past tokens pos) (declaration tokens eof depth) (Cursor.declaration eof ts) := by
  refine .bind (typeName_follows h hdepth) ?_
  rintro type ⟨_, afterType⟩ _ - ⟨left, passed⟩
  refine .bind (expect_follows .name .variableName left) ?_
  rintro name ⟨_, rest⟩ _ hle ⟨left, -⟩
  exact .value (.intro left (passed.onward hle))

section Lists

variable {close : Token.Kind} {what : Expectation} {item : Descent α}
  {item' : (ts : List Token) → Parser.Must α ts} {limit : Nat}

theorem separated_follows
    (hitem : ∀ ts pos, ts = tokens.drop pos → ts.length < limit →
      Follows pos (Past tokens pos) item (item' ts))
    (h : ts = tokens.drop pos) (hlimit : ts.length < limit) (hdepth : ts.length < depth) :
    Follows pos (Past tokens pos) (separated tokens eof close what item depth)
      (Cursor.separated eof close what item' ts) := by
  induction depth generalizing pos ts with
  | zero => exact absurd hdepth (Nat.not_lt_zero _)
  | succ depth ih =>
    rw [separated, Cursor.separated]
    refine .bind (hitem ts pos h hlimit) ?_
    rintro a ⟨_, afterItem⟩ _ - ⟨left, passed⟩
    have hitem := afterItem.property
    dsimp only
    rcases consume_cases (.delimiter .comma) left with
      ⟨_, afterComma, mid, haccept, hrun, left, hcomma⟩ |
      ⟨skipped, mid, haccept, hrun, left, hblanks⟩
    · rw [haccept]
      have hlt := afterComma.property
      refine .step hrun hcomma.le (.bind (ih left (by omega) (by omega)) ?_)
      rintro as ⟨_, rest⟩ _ hle ⟨left, -⟩
      exact .value (.intro left (passed.onward (Nat.le_trans hcomma.le hle)))
    · rw [haccept]
      refine .step hrun hblanks.1 (.bind (expect_follows close what left) ?_)
      rintro _ ⟨_, rest⟩ _ hle ⟨left, -⟩
      exact .value (.intro left (passed.onward (Nat.le_trans hblanks.1 hle)))

theorem closedList_follows
    (hitem : ∀ ts pos, ts = tokens.drop pos → ts.length < limit →
      Follows pos (Past tokens pos) item (item' ts))
    (h : ts = tokens.drop pos) (hlimit : ts.length < limit) (hdepth : ts.length < depth) :
    Follows pos (Past tokens pos) (closedList tokens eof close what item depth)
      (Cursor.closedList eof close what item' ts) := by
  rw [closedList, Cursor.closedList]
  rcases consume_cases close h with
    ⟨_, rest, mid, haccept, hrun, left, passed⟩ | ⟨skipped, mid, haccept, hrun, left, hblanks⟩
  · rw [haccept]
    exact .step hrun passed.le (.value (.intro left passed))
  · rw [haccept]
    have hle := skipped.property
    refine .step hrun hblanks.1 (.last (separated_follows hitem left (by omega) (by omega)) ?_)
    rintro as ⟨_, rest⟩ _ - ⟨left, passed⟩
    exact .value (.intro left (passed.before hblanks.1))

end Lists

theorem variableList_follows (h : ts = tokens.drop pos) (hdepth : ts.length < depth) :
    Follows pos (Along tokens) (variableList tokens eof depth) (Cursor.variableList eof ts) := by
  rw [variableList, Cursor.variableList]
  rcases consume_cases (.delimiter .openBracket) h with
    ⟨_, inside, mid, haccept, hrun, left, passed⟩ | ⟨skipped, mid, haccept, hrun, left, hblanks⟩
  · rw [haccept]
    have hlt := inside.property
    refine .step hrun passed.le (.last (closedList_follows
      (fun _ _ => declaration_follows) left (by omega) (by omega)) ?_)
    rintro declared ⟨_, rest⟩ _ - ⟨left, -⟩
    exact .value (.intro left)
  · rw [haccept]
    exact .step hrun hblanks.1 (.value (.intro left))

theorem parameter_follows (h : ts = tokens.drop pos) (hdepth : ts.length < depth) :
    Follows pos (Past tokens pos) (parameter tokens eof depth) (Cursor.parameter eof ts) := by
  rw [parameter, Cursor.parameter]
  rcases consume_cases (.keyword .etcetera) h with
    ⟨t, rest, mid, haccept, hrun, left, passed⟩ | ⟨skipped, mid, haccept, hrun, left, hblanks⟩
  · rw [haccept]
    exact .step hrun passed.le (.value (.intro left passed))
  · rw [haccept]
    have hle := skipped.property
    refine .step hrun hblanks.1 (.bind (declaration_follows left (by omega)) ?_)
    rintro d ⟨_, rest⟩ _ - ⟨left, passed⟩
    exact .value (.intro left (passed.before hblanks.1))

theorem parameters_follows (h : ts = tokens.drop pos) (hdepth : ts.length < depth) :
    Follows pos (Past tokens pos) (parameters tokens eof depth) (Cursor.parameters eof ts) := by
  refine .bind (expect_follows (.delimiter .openParen) .parameterList h) ?_
  rintro _ ⟨_, inside⟩ _ - ⟨left, passed⟩
  have hlt := inside.property
  refine .last (closedList_follows (fun _ _ => parameter_follows) left (by omega) (by omega)) ?_
  rintro ps ⟨_, rest⟩ _ hle ⟨left, -⟩
  exact .value (.intro left (passed.onward hle))

end ProcLang.Descent
