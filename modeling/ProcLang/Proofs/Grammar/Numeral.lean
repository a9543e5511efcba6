import Mathlib.Data.List.Induction
import ProcLang.Proofs.Grammar.Relation

/-! The numerals that denote a word. -/
namespace ProcLang

open Grammar

/-- Digits are weighed from the left as they are read, and from the right as they are written. -/
theorem Text.foldl_eq_decimal (cs : List Char) :
    cs.foldl (fun n c => 10 * n + (c.toNat - '0'.toNat)) 0 = decimal cs := by
  induction cs using List.reverseRecOn with
  | nil => rfl
  | append_singleton cs c ih =>
    rw [List.foldl_append, ih]
    simp [decimal, Nat.ofDigits_cons, Nat.add_comm]

theorem Text.digits?_eq_some {cs : List Char} {n : Nat} :
    digits? cs = some n ↔ cs ≠ [] ∧ (∀ c ∈ cs, c.isDigit) ∧ decimal cs = n := by
  unfold digits?
  rw [foldl_eq_decimal]
  by_cases hne : cs = []
  · simp [hne]
  · by_cases hall : ∀ c ∈ cs, c.isDigit
    · have hb : cs.all Char.isDigit = true := List.all_eq_true.mpr hall
      simpa [hne, hb] using fun _ => hall
    · have hb : cs.all Char.isDigit = false := by
        rw [← Bool.not_eq_true, List.all_eq_true]
        exact hall
      simp only [hb, Bool.not_false, Bool.or_true, if_true, reduceCtorEq, false_iff]
      exact fun h => hall h.2.1

/-- Neither sign is a digit. -/
theorem Text.integer?_of_digit {c : Char} (cs : List Char) (hc : c.isDigit) :
    integer? (c :: cs) = (digits? (c :: cs)).map Int.ofNat := by
  unfold integer?
  split
  next cs' heq =>
    cases heq
    exact absurd hc (by decide)
  next cs' heq =>
    cases heq
    exact absurd hc (by decide)
  next => rfl

theorem Text.integer?_eq_some {s : String} {n : Int} :
    integer? s.toList = some n ↔ Numeral s n := by
  constructor
  · intro h
    have hs : s = String.ofList s.toList := String.ofList_toList.symm
    generalize s.toList = cs at h hs
    subst hs
    unfold integer? at h
    split at h
    next cs =>
      have hd : ∃ m, digits? cs = some m ∧ -(m : Int) = n := by
        simpa [Option.bind_eq_some_iff] using h
      obtain ⟨m, hm, rfl⟩ := hd
      obtain ⟨hne, hall, rfl⟩ := digits?_eq_some.mp hm
      exact .minus hne hall
    next cs =>
      obtain ⟨m, hm, rfl⟩ := Option.map_eq_some_iff.mp h
      obtain ⟨hne, hall, rfl⟩ := digits?_eq_some.mp hm
      exact .plus hne hall
    next =>
      obtain ⟨m, hm, rfl⟩ := Option.map_eq_some_iff.mp h
      obtain ⟨hne, hall, rfl⟩ := digits?_eq_some.mp hm
      exact .plain hne hall
  · intro h
    cases h with
    | @plain digits hne hall =>
      rw [String.toList_ofList]
      cases digits with
      | nil => exact absurd rfl hne
      | cons c cs =>
        rw [integer?_of_digit cs (hall c (by simp)), digits?_eq_some.mpr ⟨hne, hall, rfl⟩]
        rfl
    | plus hne hall =>
      rw [String.toList_ofList, integer?, digits?_eq_some.mpr ⟨hne, hall, rfl⟩]
      rfl
    | minus hne hall =>
      rw [String.toList_ofList, integer?, digits?_eq_some.mpr ⟨hne, hall, rfl⟩]
      rfl

theorem Grammar.Numeral.unique {s : String} {n m : Int} (h : Numeral s n) (h' : Numeral s m) :
    n = m := by
  have hread := Text.integer?_eq_some.mpr h
  rw [Text.integer?_eq_some.mpr h'] at hread
  exact (Option.some.inj hread).symm

theorem Text.int64?_eq_some {s : String} {value : Int64} :
    int64? s = some value ↔ Numeral s value.toInt := by
  unfold int64?
  rw [Option.bind_eq_some_iff]
  constructor
  · rintro ⟨n, hn, h⟩
    split at h
    next hrange =>
      cases h
      rw [Int64.toInt_ofInt_of_le (by omega) (by omega)]
      exact integer?_eq_some.mp hn
    next => cases h
  · intro h
    have hrange : -0x8000000000000000 ≤ value.toInt ∧ value.toInt < 0x8000000000000000 :=
      ⟨value.le_toInt, value.toInt_lt⟩
    refine ⟨value.toInt, integer?_eq_some.mpr h, ?_⟩
    rw [if_pos hrange, Int64.ofInt_toInt]

end ProcLang
