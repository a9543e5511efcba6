import ProcLang.Assembly.Printer
import ProcLang.Proofs.Symbols.Names

/-! Texts of labels, and the symbols that they stand for. A dollar sign at the front of a text is
not part of its symbol, and a dot at the front puts the text into the scope of the last label
that has none. -/
namespace ProcLang

theorem IsName.notMem {name : String} (h : IsName name) {c : Char}
    (hc : Token.isNamePart c = false) : c ∉ name.toList := by
  intro hmem
  have := h.chars c hmem
  simp [hc] at this

/-- A name has no dot. -/
theorem IsName.takeWhile_append {name : String} (h : IsName name) (cs : List Char) :
    (name.toList ++ cs).takeWhile (· != '.') = name.toList ++ cs.takeWhile (· != '.') := by
  refine List.takeWhile_append_of_pos fun c hc => bne_iff_ne.mpr fun heq => ?_
  exact h.notMem (c := '.') rfl (heq ▸ hc)

namespace Assembly

theorem notMem_toDigits (n : Nat) {c : Char} (hc : c.isDigit = false) :
    c ∉ Nat.toDigits 10 n := by
  intro hmem
  have := Nat.isDigit_of_mem_toDigits (by decide) (by decide) hmem
  simp [hc] at this

theorem toDigits_ne_cons (n : Nat) {c : Char} (hc : c.isDigit = false) (cs : List Char) :
    Nat.toDigits 10 n ≠ c :: cs :=
  fun h => notMem_toDigits n hc (h ▸ List.mem_cons_self)

theorem toDigits_inj {m n : Nat} (h : Nat.toDigits 10 m = Nat.toDigits 10 n) : m = n := by
  have hvalue := congrArg (fun ds => Nat.ofDigitChars 10 ds 0) h
  simpa using hvalue

namespace Label

theorem toList_text_procedure (name : String) :
    (procedure name).text.toList = '$' :: name.toList := by
  simp [text, toString]

theorem exists_text_local {l : Label} (h : l.isLocal) : ∃ cs, l.text.toList = '.' :: cs := by
  cases l with
  | procedure _ | global _ | character _ | string _ => cases h
  | exit | afterIf _ | elseBranch _ | afterIfElse _ | loopStart _ | afterLoop _ =>
    simp [text, toString]

/-- Digits follow `POST_IF_` in one label and a letter in the other, so these two kinds are as
distinct as the rest. -/
theorem text_inj_local {l l' : Label} (h : l.isLocal) (h' : l'.isLocal)
    (htext : l.text.toList = l'.text.toList) : l = l' := by
  have hletter : ∀ n cs, Nat.toDigits 10 n ≠ 'E' :: cs := fun n => toDigits_ne_cons n rfl
  cases l <;> cases h <;> cases l' <;> cases h' <;>
    simp [text, toString, hletter, (hletter _ _).symm] at htext ⊢ <;> exact toDigits_inj htext

/-- What stands before and after the dollar sign in a label of data. -/
def halves? : Label → Option (String × List Char)
  | .global name => some (name, "global".toList)
  | .character loc => some ("char", Nat.toDigits 10 loc)
  | .string loc => some ("string", Nat.toDigits 10 loc)
  | _ => none

theorem toList_text_of_halves? {l : Label} {front : String} {back : List Char}
    (h : l.halves? = some (front, back)) : l.text.toList = front.toList ++ '$' :: back := by
  cases l <;> cases h <;> simp [text, toString]

theorem notMem_back {l : Label} {front : String} {back : List Char}
    (h : l.halves? = some (front, back)) : '$' ∉ back := by
  cases l <;> cases h
  · decide
  all_goals exact notMem_toDigits _ rfl

/-- A global may be called `char` or `string`: what follows tells it from a literal. -/
theorem eq_of_halves? {l l' : Label} {halves : String × List Char}
    (h : l.halves? = some halves) (h' : l'.halves? = some halves) : l = l' := by
  have hletter : ∀ n cs, Nat.toDigits 10 n ≠ 'g' :: cs := fun n => toDigits_ne_cons n rfl
  have heq := h.trans h'.symm
  cases l <;> cases h <;> cases l' <;> simp [halves?, hletter, (hletter _ _).symm] at heq ⊢
  · exact heq
  all_goals exact toDigits_inj heq

theorem text_inj_data {l l' : Label} {front front' : String} {back back' : List Char}
    (h : l.halves? = some (front, back)) (h' : l'.halves? = some (front', back'))
    (hname : IsName front) (htext : l.text.toList = l'.text.toList) : l = l' := by
  rw [toList_text_of_halves? h, toList_text_of_halves? h'] at htext
  have hfront := hname.notMem (c := '$') rfl
  obtain ⟨heq, -, rfl⟩ := (List.append_cons_inj_of_notMem hfront (notMem_back h)).mp htext
  obtain rfl := String.toList_inj.mp heq
  exact eq_of_halves? h h'

end Label

end Assembly

end ProcLang
