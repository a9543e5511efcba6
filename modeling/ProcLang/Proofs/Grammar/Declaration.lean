import ProcLang.Proofs.Grammar.Relation
import ProcLang.Proofs.Pass

/-! Types, declarations and parameters are parsed as the grammar derives them. -/
namespace ProcLang

namespace Grammar

@[simp] theorem next?_nil : next? [] = none := rfl

@[simp] theorem next?_cons (t : Token) (ts : List Token) : next? (t :: ts) = some t.kind := rfl

theorem baseType_iff {t : Token} {τ : TypeAt} :
    BaseType t τ ↔ t.kind = .name ∧ TypeAt.ofName? t.text t.loc = some τ := by
  constructor
  · intro h
    cases h <;> simp [TypeAt.ofName?, *]
  · rintro ⟨hk, h⟩
    unfold TypeAt.ofName? at h
    split at h <;> cases h
    · exact .int hk ‹_›
    · exact .char hk ‹_›
    · exact .bool hk ‹_›
    · exact .void hk ‹_›

end Grammar

namespace Parser

open Grammar

/-- A production gives a value and leaves over some tokens. -/
def Yields {P : List Token → Prop} (r : Except Fault (α × Subtype P)) (a : α)
    (rest : List Token) : Prop :=
  ∃ left, r = .ok (a, left) ∧ left.val = rest

section

variable {P : List Token → Prop} {first : Except Fault (α × Subtype P)} {a : α}
  {rest : List Token}

theorem yields_of_eq {left : Subtype P} (h : first = .ok (a, left)) : Yields first a left.val :=
  ⟨left, h, rfl⟩

theorem yields_ok {left : Subtype P} {a' : α} :
    Yields (.ok (a, left)) a' rest ↔ a = a' ∧ left.val = rest := by
  constructor
  · rintro ⟨left', h, rfl⟩
    cases h
    exact ⟨rfl, rfl⟩
  · rintro ⟨rfl, rfl⟩
    exact ⟨left, rfl, rfl⟩

theorem yields_error {fault : Fault} :
    ¬Yields (.error fault : Except Fault (α × Subtype P)) a rest := by
  rintro ⟨left, h, -⟩
  cases h

theorem yields_bind {step : Except Fault β} {next : β → Except Fault (α × Subtype P)} :
    Yields (step >>= next) a rest ↔ ∃ b, step = .ok b ∧ Yields (next b) a rest := by
  constructor
  · rintro ⟨left, h, rfl⟩
    obtain ⟨b, hstep, hnext⟩ := Outcome.bind_eq_ok.mp h
    exact ⟨b, hstep, left, hnext, rfl⟩
  · rintro ⟨b, hstep, left, hnext, rfl⟩
    exact ⟨left, Outcome.bind_eq_ok.mpr ⟨b, hstep, hnext⟩, rfl⟩

end

theorem accept?_eq_some {kind : Token.Kind} {ts : List Token} {t : Token} {left : Shorter ts} :
    accept? kind ts = some (t, left) ↔ ts = t :: left.val ∧ t.kind = kind := by
  cases ts with
  | nil => simp [accept?]
  | cons u us =>
    obtain ⟨rest, hrest⟩ := left
    by_cases hk : u.kind = kind
    · simp only [accept?, hk, if_true, Option.some.injEq, Prod.mk.injEq, Shorter.tail,
        Subtype.mk.injEq, List.cons.injEq]
      constructor
      · rintro ⟨rfl, rfl⟩
        exact ⟨⟨rfl, rfl⟩, hk⟩
      · rintro ⟨⟨rfl, rfl⟩, -⟩
        exact ⟨rfl, rfl⟩
    · simp only [accept?, hk, if_false, reduceCtorEq, List.cons.injEq, false_iff]
      rintro ⟨⟨rfl, -⟩, hk'⟩
      exact hk hk'

theorem accept?_eq_none {kind : Token.Kind} {ts : List Token} :
    accept? kind ts = none ↔ next? ts ≠ some kind := by
  cases ts with
  | nil => simp [accept?]
  | cons u us => simp [accept?]

theorem expect_yields {eof : Nat} {kind : Token.Kind} {what : Expectation} {ts rest : List Token}
    {t : Token} : Yields (expect eof kind what ts) t rest ↔ ts = t :: rest ∧ t.kind = kind := by
  unfold expect
  cases h : accept? kind ts with
  | none =>
    refine ⟨fun hy => (yields_error hy).elim, ?_⟩
    rintro ⟨rfl, hk⟩
    rw [accept?_eq_none] at h
    exact absurd (congrArg some hk) h
  | some found =>
    obtain ⟨u, left⟩ := found
    obtain ⟨hts, hk⟩ := accept?_eq_some.mp h
    rw [yields_ok]
    constructor
    · rintro ⟨rfl, rfl⟩
      exact ⟨hts, hk⟩
    · rintro ⟨hts', -⟩
      rw [hts, List.cons.injEq] at hts'
      exact hts'

/-- Stars are taken as long as there are any. -/
theorem stars_spec (base : TypeAt) (ts : List Token) :
    Stars base ts (stars base ts).1 (stars base ts).2.val ∧
      next? (stars base ts).2.val ≠ some (.sign .star) := by
  induction ts generalizing base with
  | nil => exact ⟨.none _ _, by simp [stars]⟩
  | cons t ts ih =>
    by_cases hk : t.kind = .sign .star
    · have h := ih (.pointer base t.loc)
      simp only [stars, hk, if_true]
      exact ⟨.more hk h.1, h.2⟩
    · simp only [stars, hk, if_false]
      exact ⟨.none _ _, by simpa using hk⟩

theorem stars_of_stars {base type : TypeAt} {ts rest : List Token} (h : Stars base ts type rest)
    (hnext : next? rest ≠ some (.sign .star)) :
    (stars base ts).1 = type ∧ (stars base ts).2.val = rest := by
  induction h with
  | none base rest =>
    cases rest with
    | nil => exact ⟨rfl, rfl⟩
    | cons t ts =>
      have hk : ¬t.kind = .sign .star := by simpa using hnext
      simp [stars, hk]
  | more star _ ih =>
    simp only [stars, star, if_true]
    exact ih hnext

theorem typeName_yields {eof : Nat} {ts rest : List Token} {type : TypeAt} :
    Yields (typeName eof ts) type rest ↔
      TypeName ts type rest ∧ next? rest ≠ some (.sign .star) := by
  unfold typeName
  rw [yields_bind]
  constructor
  · rintro ⟨⟨t, after⟩, ht, h⟩
    obtain ⟨hts, hk⟩ := expect_yields.mp (yields_of_eq ht)
    dsimp only at h
    split at h
    next => exact (yields_error h).elim
    next base hbase =>
      obtain ⟨rfl, rfl⟩ := yields_ok.mp h
      obtain ⟨hs, hn⟩ := stars_spec base after.val
      have hname := TypeName.intro (baseType_iff.mpr ⟨hk, hbase⟩) hs
      rw [← hts] at hname
      exact ⟨hname, hn⟩
  · rintro ⟨@⟨t, ts, rest, base, type, hb, hs⟩, hn⟩
    obtain ⟨hk, hbase⟩ := baseType_iff.mp hb
    obtain ⟨after, ht, hafter⟩ : Yields (expect eof .name .typeName (t :: ts)) t ts :=
      expect_yields.mpr ⟨rfl, hk⟩
    have hs' : Stars base after.val type rest := by
      rw [hafter]
      exact hs
    refine ⟨(t, after), ht, ?_⟩
    simp only [hbase]
    exact yields_ok.mpr (stars_of_stars hs' hn)

theorem declaration_yields {eof : Nat} {ts rest : List Token} {d : Declaration} :
    Yields (declaration eof ts) d rest ↔ Decl ts d rest := by
  unfold declaration
  simp only [yields_bind]
  constructor
  · rintro ⟨⟨type, afterType⟩, htype, ⟨name, afterName⟩, hname, h⟩
    obtain ⟨rfl, rfl⟩ := yields_ok.mp h
    obtain ⟨ht, -⟩ := typeName_yields.mp (yields_of_eq htype)
    obtain ⟨hafter, hk⟩ := expect_yields.mp (yields_of_eq hname)
    rw [hafter] at ht
    exact .intro ht hk
  · intro h
    cases h with
    | @intro _ type t ht hk =>
      obtain ⟨afterType, htype, hafter⟩ : Yields (typeName eof ts) type (t :: rest) :=
        typeName_yields.mpr ⟨ht, by simp [hk]⟩
      obtain ⟨left, hname, rfl⟩ :
          Yields (expect eof .name .variableName afterType.val) t rest :=
        expect_yields.mpr ⟨hafter, hk⟩
      exact ⟨(type, afterType), htype, (t, left), hname, yields_ok.mpr ⟨rfl, rfl⟩⟩

theorem parameter_yields {eof : Nat} {ts rest : List Token} {q : Parameter} :
    Yields (parameter eof ts) q rest ↔ Param ts q rest := by
  unfold parameter
  cases h : accept? (.keyword .etcetera) ts with
  | some found =>
    obtain ⟨t, left⟩ := found
    obtain ⟨hts, hk⟩ := accept?_eq_some.mp h
    rw [yields_ok]
    constructor
    · rintro ⟨rfl, rfl⟩
      have hq : Param (t :: left.val) (.etcetera t.loc) left.val := .etcetera hk
      rwa [← hts] at hq
    · intro hq
      cases hq with
      | var hd =>
        cases hd with
        | intro ht _ =>
          cases ht with
          | intro hb _ =>
            rw [List.cons.injEq] at hts
            have hname := (baseType_iff.mp hb).1
            rw [hts.1, hk] at hname
            cases hname
      | etcetera _ =>
        rw [List.cons.injEq] at hts
        exact ⟨by rw [hts.1], hts.2.symm⟩
  | none =>
    have hnext := accept?_eq_none.mp h
    simp only [yields_bind]
    constructor
    · rintro ⟨⟨d, left⟩, hd, hq⟩
      obtain ⟨rfl, rfl⟩ := yields_ok.mp hq
      exact .var (declaration_yields.mp (yields_of_eq hd))
    · intro hq
      cases hq with
      | var hd =>
        obtain ⟨left, hd', rfl⟩ := declaration_yields.mpr hd
        exact ⟨(_, left), hd', yields_ok.mpr ⟨rfl, rfl⟩⟩
      | etcetera hk => exact absurd (congrArg some hk) hnext

section

variable {eof : Nat} {close : Token.Kind} {what : Expectation}
  {item : (ts : List Token) → Must α ts} {Item : List Token → α → List Token → Prop}

theorem items_of_separated (hitem : ∀ {ts a rest}, Yields (item ts) a rest ↔ Item ts a rest)
    {ts rest : List Token} {as : List α}
    (h : Yields (separated eof close what item ts) as rest) : Items Item close ts as rest := by
  -- Each round works on what the one before has left over.
  induction hn : ts.length using Nat.strong_induction_on generalizing ts rest as with
  | _ n ih =>
    subst hn
    rw [separated, yields_bind] at h
    obtain ⟨⟨a, afterItem⟩, ha, h⟩ := h
    have hfirst := hitem.mp (yields_of_eq ha)
    dsimp only at h
    split at h
    next t afterComma hcomma =>
      obtain ⟨hafter, hk⟩ := accept?_eq_some.mp hcomma
      rw [yields_bind] at h
      obtain ⟨⟨as, left⟩, has, h⟩ := h
      obtain ⟨rfl, rfl⟩ := yields_ok.mp h
      rw [hafter] at hfirst
      have hlt : afterComma.val.length < ts.length :=
        Nat.lt_trans afterComma.property afterItem.property
      exact .more hfirst hk (ih _ hlt (yields_of_eq has) rfl)
    next hcomma =>
      rw [yields_bind] at h
      obtain ⟨⟨t, left⟩, ht, h⟩ := h
      obtain ⟨rfl, rfl⟩ := yields_ok.mp h
      obtain ⟨hafter, hk⟩ := expect_yields.mp (yields_of_eq ht)
      rw [hafter] at hfirst
      exact .last hfirst hk

theorem separated_of_items (hitem : ∀ {ts a rest}, Yields (item ts) a rest ↔ Item ts a rest)
    (hclose : close ≠ .delimiter .comma) {ts rest : List Token} {as : List α}
    (h : Items Item close ts as rest) : Yields (separated eof close what item ts) as rest := by
  induction h with
  | @last ts rest a t hfirst hk =>
    rw [separated, yields_bind]
    obtain ⟨afterItem, ha, hafter⟩ := hitem.mpr hfirst
    refine ⟨(a, afterItem), ha, ?_⟩
    have hcomma : accept? (.delimiter .comma) afterItem.val = none := by
      rw [accept?_eq_none, hafter, next?_cons, hk]
      exact fun hc => hclose (Option.some.inj hc)
    obtain ⟨left, ht, hleft⟩ : Yields (expect eof close what afterItem.val) t rest :=
      expect_yields.mpr ⟨hafter, hk⟩
    simp only [hcomma, yields_bind]
    exact ⟨(t, left), ht, yields_ok.mpr ⟨rfl, hleft⟩⟩
  | @more ts mid rest a as t hfirst hk _ ih =>
    rw [separated, yields_bind]
    obtain ⟨afterItem, ha, hafter⟩ := hitem.mpr hfirst
    refine ⟨(a, afterItem), ha, ?_⟩
    have hlt : mid.length < afterItem.val.length := by simp [hafter]
    have hcomma : accept? (.delimiter .comma) afterItem.val = some (t, ⟨mid, hlt⟩) :=
      accept?_eq_some.mpr ⟨hafter, hk⟩
    obtain ⟨left, has, hleft⟩ := ih
    simp only [hcomma, yields_bind]
    exact ⟨(as, left), has, yields_ok.mpr ⟨rfl, hleft⟩⟩

/-- A list in delimiters, whose items never begin like its end. -/
theorem closedList_yields (hitem : ∀ {ts a rest}, Yields (item ts) a rest ↔ Item ts a rest)
    (hclose : close ≠ .delimiter .comma)
    (hstart : ∀ {ts a rest}, Item ts a rest → next? ts ≠ some close) {ts rest : List Token}
    {as : List α} :
    Yields (closedList eof close what item ts) as rest ↔ Closed Item close ts as rest := by
  unfold closedList
  cases h : accept? close ts with
  | some found =>
    obtain ⟨t, left⟩ := found
    obtain ⟨hts, hk⟩ := accept?_eq_some.mp h
    have hnext : next? ts = some close := by rw [hts, next?_cons, hk]
    rw [yields_ok]
    constructor
    · rintro ⟨rfl, rfl⟩
      have hempty : Closed Item close (t :: left.val) [] left.val := .empty hk
      rwa [← hts] at hempty
    · intro hc
      cases hc with
      | empty _ =>
        rw [List.cons.injEq] at hts
        exact ⟨rfl, hts.2.symm⟩
      | items hi =>
        cases hi with
        | last hfirst _ => exact absurd hnext (hstart hfirst)
        | more hfirst _ _ => exact absurd hnext (hstart hfirst)
  | none =>
    constructor
    · exact fun hy => .items (items_of_separated hitem hy)
    · intro hc
      cases hc with
      | empty hk => exact absurd (congrArg some hk) (accept?_eq_none.mp h)
      | items hi => exact separated_of_items hitem hclose hi

end

theorem next?_of_decl {ts rest : List Token} {d : Declaration} (h : Decl ts d rest) :
    next? ts = some .name := by
  cases h with
  | intro ht _ =>
    cases ht with
    | intro hb _ => rw [next?_cons, (baseType_iff.mp hb).1]

theorem next?_of_param {ts rest : List Token} {q : Parameter} (h : Param ts q rest) :
    next? ts = some .name ∨ next? ts = some (.keyword .etcetera) := by
  cases h with
  | var hd => exact .inl (next?_of_decl hd)
  | etcetera hk => exact .inr (congrArg some hk)

theorem declarations_yields {eof : Nat} {ts rest : List Token} {ds : List Declaration} :
    Yields (closedList eof (.delimiter .closeBracket) .commaOrBracket (declaration eof) ts) ds
      rest ↔ Closed Decl (.delimiter .closeBracket) ts ds rest :=
  closedList_yields declaration_yields (by decide) fun hd => by simp [next?_of_decl hd]

theorem varList_of_variableList {eof : Nat} {ts rest : List Token} {ds : List Declaration}
    (h : Yields (variableList eof ts) ds rest) : VarList ts ds rest := by
  unfold variableList at h
  split at h
  next =>
    obtain ⟨rfl, rfl⟩ := yields_ok.mp h
    exact .absent _
  next t inside hopen =>
    obtain ⟨hts, hk⟩ := accept?_eq_some.mp hopen
    rw [yields_bind] at h
    obtain ⟨⟨ds, left⟩, hds, h⟩ := h
    obtain ⟨rfl, rfl⟩ := yields_ok.mp h
    have hlist := VarList.present hk (declarations_yields.mp (yields_of_eq hds))
    rwa [← hts] at hlist

/-- The list is taken as present if it can be, so it is absent only before something else. -/
theorem variableList_of_varList (eof : Nat) {ts rest : List Token} {ds : List Declaration}
    (h : VarList ts ds rest) (hnext : next? rest ≠ some (.delimiter .openBracket)) :
    Yields (variableList eof ts) ds rest := by
  unfold variableList
  cases h with
  | absent =>
    rw [accept?_eq_none.mpr hnext]
    exact yields_ok.mpr ⟨rfl, rfl⟩
  | @present t ts _ _ hk hc =>
    have hopen : accept? (.delimiter .openBracket) (t :: ts) = some (t, .tail t ts) :=
      accept?_eq_some.mpr ⟨rfl, hk⟩
    obtain ⟨left, hds, hleft⟩ := declarations_yields.mpr hc
    simp only [hopen, yields_bind]
    exact ⟨(ds, left), hds, yields_ok.mpr ⟨rfl, hleft⟩⟩

theorem parameters_yields {eof : Nat} {ts rest : List Token} {ps : List Parameter} :
    Yields (parameters eof ts) ps rest ↔ Params ts ps rest := by
  unfold parameters
  rw [yields_bind]
  have hlist : ∀ {ts ps rest}, Yields
      (closedList eof (.delimiter .closeParen) .commaOrParen (parameter eof) ts) ps rest ↔
        Closed Param (.delimiter .closeParen) ts ps rest :=
    closedList_yields parameter_yields (by decide) fun hp => by
      rcases next?_of_param hp with h | h <;> simp [h]
  constructor
  · rintro ⟨⟨t, inside⟩, ht, h⟩
    obtain ⟨hts, hk⟩ := expect_yields.mp (yields_of_eq ht)
    rw [yields_bind] at h
    obtain ⟨⟨ps, left⟩, hps, h⟩ := h
    obtain ⟨rfl, rfl⟩ := yields_ok.mp h
    have hparams := Params.intro hk (hlist.mp (yields_of_eq hps))
    rwa [← hts] at hparams
  · intro h
    cases h with
    | @intro t ts rest ps hk hc =>
      obtain ⟨inside, ht, hinside⟩ :
          Yields (expect eof (.delimiter .openParen) .parameterList (t :: ts)) t ts :=
        expect_yields.mpr ⟨rfl, hk⟩
      have hc' : Closed Param (.delimiter .closeParen) inside.val ps rest := by
        rw [hinside]
        exact hc
      obtain ⟨left, hps, hleft⟩ := hlist.mpr hc'
      exact ⟨(t, inside), ht, yields_bind.mpr ⟨(ps, left), hps, yields_ok.mpr ⟨rfl, hleft⟩⟩⟩

end Parser

end ProcLang
