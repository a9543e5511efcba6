import ProcLang.Proofs.Safety.Compile

/-! The rules of scope and the table of operators, apart from the way binding applies them. -/
namespace ProcLang

open Grammar

/-- A parameter or a local has the name. -/
def Procedure.Declares (q : Procedure) (name : String) : Prop :=
  ∃ d : Declaration, d.name = name ∧ (.var d ∈ q.parameters ∨ d ∈ q.locals)

/-- What a name stands for in the body of a procedure: a parameter or local of that name if there
is one, else a global, else a procedure, else nothing. -/
inductive Program.Denotes (p : Program) (q : Procedure) (name : String) : Option Symbol → Prop
  | parameter {i : Nat} {d : Declaration} (declared : q.parameters[i]? = some (.var d))
    (named : d.name = name) : Denotes p q name (some (.var (.parameter i)))
  | localVar {i : Nat} {d : Declaration} (declared : q.locals[i]? = some d)
    (named : d.name = name) : Denotes p q name (some (.var (.localVar i)))
  | global {i : Nat} {d : Declaration} (own : ¬q.Declares name)
    (declared : p.globals[i]? = some d) (named : d.name = name) :
    Denotes p q name (some (.var (.global i)))
  | procedure {i : Nat} {r : Procedure} (own : ¬q.Declares name)
    (globals : ∀ d ∈ p.globals, d.name ≠ name) (declared : p.procedures[i]? = some r)
    (named : r.name = name) : Denotes p q name (some (.procedure i))
  | nothing (own : ¬q.Declares name) (globals : ∀ d ∈ p.globals, d.name ≠ name)
    (procedures : ∀ r ∈ p.procedures, r.name ≠ name) : Denotes p q name none

namespace Operator

/-- The operator that a sign stands for with so many operands. -/
inductive Assigned : Token.Sign → Nat → Operator → Prop
  | addition {count : Nat} (many : 2 ≤ count) : Assigned .plus count .addition
  | negation : Assigned .dash 1 .negation
  | subtraction : Assigned .dash 2 .subtraction
  | dereference : Assigned .star 1 .dereference
  | multiplication {count : Nat} (many : 2 ≤ count) : Assigned .star count .multiplication
  | division : Assigned .slash 2 .division
  | modulus : Assigned .percent 2 .modulus
  | assignment : Assigned .equals 2 .assignment
  | equality : Assigned .doubleEquals 2 .equality
  | notEquality : Assigned .bangEquals 2 .notEquality
  | lessThan : Assigned .leftAngle 2 .lessThan
  | lessThanEquals : Assigned .leftAngleEquals 2 .lessThanEquals
  | greaterThan : Assigned .rightAngle 2 .greaterThan
  | greaterThanEquals : Assigned .rightAngleEquals 2 .greaterThanEquals
  | logicalAnd : Assigned .doubleAmpersand 2 .logicalAnd
  | logicalOr : Assigned .doubleBar 2 .logicalOr
  | logicalNot : Assigned .bang 1 .logicalNot
  | bitwiseAnd : Assigned .ampersand 2 .bitwiseAnd
  | bitwiseOr : Assigned .bar 2 .bitwiseOr
  | bitwiseXor : Assigned .caret 2 .bitwiseXor
  | bitwiseNot : Assigned .tilde 1 .bitwiseNot
  | shiftLeft : Assigned .doubleLeftAngle 2 .shiftLeft
  | shiftRight : Assigned .doubleRightAngle 2 .shiftRight
  | reference : Assigned .atSign 1 .reference

theorem assigned_iff {s : Token.Sign} {count : Nat} {op : Operator} :
    Assigned s count op ↔ (Arity.ofSign s).accepts count = true ∧ ofSign s count = op := by
  rw [Arity.accepts_iff]
  constructor
  · intro h
    cases h with
    | addition many => exact ⟨⟨many, by simp [Arity.ofSign, Arity.atLeast]⟩, rfl⟩
    | multiplication many =>
      have hone : count ≠ 1 := by omega
      refine ⟨⟨Nat.le_of_succ_le many, by simp [Arity.ofSign, Arity.atLeast]⟩, ?_⟩
      rw [ofSign, if_neg hone]
    | _ => simp [Arity.ofSign, Arity.exactly, Arity.atLeast, ofSign]
  · rintro ⟨⟨hmin, hmax⟩, rfl⟩
    cases s with
    | plus => exact .addition hmin
    | dash =>
      have hle : count ≤ 2 := hmax 2 rfl
      have hge : 1 ≤ count := hmin
      by_cases h : count = 1
      · subst h
        exact .negation
      · obtain rfl : count = 2 := by omega
        exact .subtraction
    | star =>
      have hge : 1 ≤ count := hmin
      by_cases h : count = 1
      · subst h
        exact .dereference
      · rw [ofSign, if_neg h]
        exact .multiplication (by omega)
    | bang | tilde | atSign =>
      obtain rfl : count = 1 := Nat.le_antisymm (hmax 1 rfl) hmin
      constructor
    | _ =>
      obtain rfl : count = 2 := Nat.le_antisymm (hmax 2 rfl) hmin
      constructor

/-- A sign with a number of operands that it is not used with is refused. -/
theorem resolve_sign {token : Token} {s : Token.Sign} (hkind : token.kind = .sign s)
    (count : Nat) :
    (∃ op, resolve token count = .ok op ∧ Assigned s count op) ∨
      resolve token count =
        .error (.located token.loc (.operandCount (Arity.ofSign s) token.text count)) ∧
        ∀ op, ¬Assigned s count op := by
  unfold resolve
  rw [hkind]
  by_cases h : (Arity.ofSign s).accepts count = true
  · left
    exact ⟨ofSign s count, by simp [Arity.ofKind?, h, ofKind?], assigned_iff.mpr ⟨h, rfl⟩⟩
  · right
    exact ⟨by simp [Arity.ofKind?, h], fun op hop => h (assigned_iff.mp hop).1⟩

theorem resolve_name {token : Token} (hkind : token.kind = .name) (count : Nat) :
    resolve token count = .ok (.call none) := by
  simp [resolve, hkind, Arity.ofKind?, Arity.accepts, Arity.atLeast, ofKind?]

end Operator

/-- The tables of a program are those of its declarations. -/
structure Program.Tabled (p : Program) : Prop where
  globals : Table (indexed Declaration.name Declaration.loc (fun i => .var (.global i)) p.globals)
    p.globalTable
  procedures : Table (indexed Procedure.name Procedure.loc .procedure p.procedures)
    p.procedureTable
  own : ∀ q ∈ p.procedures, Table (Procedure.entries q.parameters q.locals) q.symbols

namespace Grammar

theorem lookup_indexed {nameOf : α → String} {loc : α → Nat} {symbolOf : Nat → Symbol} {xs : List α}
    {table : SymbolTable} (h : Table (indexed nameOf loc symbolOf xs) table) {name : String}
    {symbol : Symbol} :
    table.lookup name = some symbol ↔
      ∃ (i : Nat) (x : α), xs[i]? = some x ∧ nameOf x = name ∧ symbolOf i = symbol := by
  constructor
  · intro hl
    obtain ⟨_, hmem⟩ := mem_of_table h hl
    obtain ⟨i, x, hx, heq⟩ := (mem_indexed nameOf loc symbolOf).mp hmem
    cases heq
    exact ⟨i, x, hx, rfl, rfl⟩
  · rintro ⟨i, x, hx, rfl, rfl⟩
    exact lookup_of_mem h ((mem_indexed nameOf loc symbolOf).mpr ⟨i, x, hx, rfl⟩)

theorem lookup_indexed_none {nameOf : α → String} {loc : α → Nat} {symbolOf : Nat → Symbol}
    {xs : List α} {table : SymbolTable} (h : Table (indexed nameOf loc symbolOf xs) table)
    {name : String} : table.lookup name = none ↔ ∀ x ∈ xs, nameOf x ≠ name := by
  rw [Option.eq_none_iff_forall_ne_some]
  constructor
  · intro hnone x hx hname
    obtain ⟨i, hi⟩ := List.getElem?_of_mem hx
    exact hnone _ ((lookup_indexed h).mpr ⟨i, x, hi, hname, rfl⟩)
  · intro hall symbol hl
    obtain ⟨i, x, hx, hname, -⟩ := (lookup_indexed h).mp hl
    exact hall x (List.mem_of_getElem? hx) hname

theorem lookup_own {q : Procedure} (h : Table (Procedure.entries q.parameters q.locals) q.symbols)
    {name : String} {symbol : Symbol} :
    q.symbols.lookup name = some symbol ↔
      (∃ (i : Nat) (d : Declaration), q.parameters[i]? = some (.var d) ∧ d.name = name ∧
        .var (.parameter i) = symbol) ∨
      ∃ (i : Nat) (d : Declaration), q.locals[i]? = some d ∧ d.name = name ∧
        .var (.localVar i) = symbol := by
  constructor
  · intro hl
    obtain ⟨_, hmem⟩ := mem_of_table h hl
    rcases mem_entries.mp hmem with ⟨i, d, hd, heq⟩ | ⟨i, d, hd, heq⟩
    · cases heq
      exact .inl ⟨i, d, hd, rfl, rfl⟩
    · cases heq
      exact .inr ⟨i, d, hd, rfl, rfl⟩
  · rintro (⟨i, d, hd, rfl, rfl⟩ | ⟨i, d, hd, rfl, rfl⟩)
    · exact lookup_of_mem h (mem_entries.mpr (.inl ⟨i, d, hd, rfl⟩))
    · exact lookup_of_mem h (mem_entries.mpr (.inr ⟨i, d, hd, rfl⟩))

theorem lookup_own_none {q : Procedure}
    (h : Table (Procedure.entries q.parameters q.locals) q.symbols) {name : String} :
    q.symbols.lookup name = none ↔ ¬q.Declares name := by
  rw [Option.eq_none_iff_forall_ne_some]
  constructor
  · rintro hnone ⟨d, hname, hd | hd⟩
    · obtain ⟨i, hi⟩ := List.getElem?_of_mem hd
      exact hnone _ ((lookup_own h).mpr (.inl ⟨i, d, hi, hname, rfl⟩))
    · obtain ⟨i, hi⟩ := List.getElem?_of_mem hd
      exact hnone _ ((lookup_own h).mpr (.inr ⟨i, d, hi, hname, rfl⟩))
  · intro hall symbol hl
    rcases (lookup_own h).mp hl with ⟨i, d, hd, hname, -⟩ | ⟨i, d, hd, hname, -⟩
    · exact hall ⟨d, hname, .inl (List.mem_of_getElem? hd)⟩
    · exact hall ⟨d, hname, .inr (List.mem_of_getElem? hd)⟩

end Grammar

namespace Program

variable {p : Program} {q : Procedure} {name : String}

theorem tabled_of_derives {ts : List Token} (h : Derives ts p) : p.Tabled := by
  cases h with
  | intro _ hprocs hglobals hprocedures =>
    exact ⟨hglobals, hprocedures, table_of_procs hprocs⟩

/-- A name has the one meaning that it is looked up with. -/
theorem denotes_iff (h : p.Tabled) (hq : q ∈ p.procedures) {symbol : Option Symbol} :
    p.Denotes q name symbol ↔ (p.scope q).lookup name = symbol := by
  have hown := h.own q hq
  constructor
  · intro hd
    unfold scope Scope.lookup
    cases hd with
    | parameter declared named =>
      rw [(lookup_own hown).mpr (.inl ⟨_, _, declared, named, rfl⟩), Option.some_or]
    | localVar declared named =>
      rw [(lookup_own hown).mpr (.inr ⟨_, _, declared, named, rfl⟩), Option.some_or]
    | global own declared named =>
      rw [(lookup_own_none hown).mpr own, Option.none_or,
        (lookup_indexed h.globals).mpr ⟨_, _, declared, named, rfl⟩, Option.some_or]
    | procedure own globals declared named =>
      rw [(lookup_own_none hown).mpr own, Option.none_or,
        (lookup_indexed_none h.globals).mpr globals, Option.none_or,
        (lookup_indexed h.procedures).mpr ⟨_, _, declared, named, rfl⟩]
    | nothing own globals procedures =>
      rw [(lookup_own_none hown).mpr own, Option.none_or,
        (lookup_indexed_none h.globals).mpr globals, Option.none_or,
        (lookup_indexed_none h.procedures).mpr procedures]
  · rintro rfl
    unfold scope Scope.lookup
    cases hfirst : q.symbols.lookup name with
    | some found =>
      rw [Option.some_or]
      rcases (lookup_own hown).mp hfirst with ⟨i, d, hd, hname, rfl⟩ | ⟨i, d, hd, hname, rfl⟩
      · exact .parameter hd hname
      · exact .localVar hd hname
    | none =>
      have own := (lookup_own_none hown).mp hfirst
      rw [Option.none_or]
      cases hsecond : p.globalTable.lookup name with
      | some found =>
        obtain ⟨i, d, hd, hname, rfl⟩ := (lookup_indexed h.globals).mp hsecond
        exact .global own hd hname
      | none =>
        have globals := (lookup_indexed_none h.globals).mp hsecond
        rw [Option.none_or]
        cases hthird : p.procedureTable.lookup name with
        | some found =>
          obtain ⟨i, r, hr, hname, rfl⟩ := (lookup_indexed h.procedures).mp hthird
          exact .procedure own globals hr hname
        | none => exact .nothing own globals ((lookup_indexed_none h.procedures).mp hthird)

end Program

end ProcLang
