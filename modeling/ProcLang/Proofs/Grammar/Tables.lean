import Mathlib.Data.List.Nodup
import ProcLang.Proofs.Grammar.Program

/-! What is found in the tables of a program is what its declarations have entered. -/
namespace ProcLang

theorem SymbolTable.mem_of_lookup {table : SymbolTable} {name : String} {symbol : Symbol}
    (h : table.lookup name = some symbol) : (name, symbol) ∈ table := by
  obtain ⟨before, after, rfl, -⟩ := List.lookup_eq_some_iff.mp h
  simp

namespace Grammar

variable {entries : List (String × Nat × Symbol)} {table : SymbolTable}

/-- A name that is found was entered. -/
theorem mem_of_table (h : Table entries table) {name : String} {symbol : Symbol}
    (hl : table.lookup name = some symbol) : ∃ loc, (name, loc, symbol) ∈ entries := by
  have hmem := SymbolTable.mem_of_lookup hl
  rw [h.2, List.mem_map] at hmem
  obtain ⟨⟨name', loc, symbol'⟩, hentry, heq⟩ := hmem
  cases heq
  exact ⟨loc, hentry⟩

/-- A name that was entered is found. -/
theorem lookup_of_mem (h : Table entries table) {name : String} {loc : Nat} {symbol : Symbol}
    (hmem : (name, loc, symbol) ∈ entries) : table.lookup name = some symbol := by
  cases hl : table.lookup name with
  | none =>
    rw [SymbolTable.lookup_eq_none, h.2, List.map_map] at hl
    exact absurd (List.mem_map.mpr ⟨_, hmem, rfl⟩) hl
  | some found =>
    obtain ⟨loc', hfound⟩ := mem_of_table h hl
    cases List.inj_on_of_nodup_map h.1 hfound hmem rfl
    rfl

/-- Declarations as a table has them, each with its index. -/
def indexed (name : α → String) (loc : α → Nat) (symbol : Nat → Symbol) (xs : List α) :
    List (String × Nat × Symbol) :=
  xs.zipIdx.map fun (x, i) => (name x, loc x, symbol i)

theorem mem_indexed (name : α → String) (loc : α → Nat) (symbol : Nat → Symbol) {xs : List α}
    {entry : String × Nat × Symbol} :
    entry ∈ indexed name loc symbol xs ↔
      ∃ (i : Nat) (x : α), xs[i]? = some x ∧ (name x, loc x, symbol i) = entry := by
  unfold indexed
  rw [List.mem_map]
  constructor
  · rintro ⟨⟨x, i⟩, hx, heq⟩
    exact ⟨i, x, List.mem_zipIdx_iff_getElem?.mp hx, heq⟩
  · rintro ⟨i, x, hx, heq⟩
    exact ⟨(x, i), List.mem_zipIdx_iff_getElem?.mpr hx, heq⟩

theorem mem_entries {ps : List Parameter} {locals : List Declaration}
    {entry : String × Nat × Symbol} :
    entry ∈ Procedure.entries ps locals ↔
      (∃ (i : Nat) (d : Declaration), ps[i]? = some (.var d) ∧
        (d.name, d.loc, .var (.parameter i)) = entry) ∨
      ∃ (i : Nat) (d : Declaration), locals[i]? = some d ∧
        (d.name, d.loc, .var (.localVar i)) = entry := by
  unfold Procedure.entries
  rw [List.mem_append]
  refine or_congr ?_ (mem_indexed Declaration.name Declaration.loc fun i => .var (.localVar i))
  rw [List.mem_filterMap]
  constructor
  · rintro ⟨⟨q, i⟩, hq, heq⟩
    cases q with
    | var d => exact ⟨i, d, List.mem_zipIdx_iff_getElem?.mp hq, Option.some.inj heq⟩
    | etcetera loc => cases heq
  · rintro ⟨i, d, hd, heq⟩
    exact ⟨(.var d, i), List.mem_zipIdx_iff_getElem?.mpr hd, congrArg some heq⟩

end Grammar

end ProcLang
