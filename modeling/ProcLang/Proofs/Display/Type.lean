import ProcLang.Proofs.Blanks
import ProcLang.Proofs.Lexing.Printing

/-! The text of a type says what the type is, and nothing about where it was written: it is read
back as the same type, so that types with one text are one type. -/
namespace ProcLang

namespace Token

/-- The tokens of a type that is written at `loc`, without blanks. -/
def ofType (loc : Nat) : Ty → List Token
  | .pointer base =>
    ofType loc base ++ [⟨.sign .star, "*", loc + Text.byteWidth base.display.toList⟩]
  | t => [⟨.name, t.display, loc⟩]

/-- The text of a type that is no pointer is a name. -/
theorem lexeme_typeName {t : Ty} (ht : t.isPointer = false) (loc : Nat) {rest : List Char}
    (hrest : ∀ c ∈ rest.head?, isNamePart c = false) :
    Lexeme ⟨.name, t.display, loc⟩ t.display.toList rest := by
  have hall : ∀ name ∈ ["int", "char", "bool", "void"],
      name.toList.head?.any isNameStart = true ∧ name.toList.tail.all isNamePart = true ∧
      ∀ word ∈ reserved, word.1 ≠ name := by decide
  have hmem : t.display ∈ ["int", "char", "bool", "void"] := by
    cases t with
    | pointer base => cases ht
    | int | char | bool | void => simp [Ty.display]
  obtain ⟨hstarts, hinside, hunlisted⟩ := hall _ hmem
  have htext : t.display = String.ofList t.display.toList := String.ofList_toList.symm
  generalize t.display.toList = cs at htext hstarts hinside
  rw [htext] at hunlisted ⊢
  cases cs with
  | nil => cases hstarts
  | cons c cs =>
    exact .word loc hstarts (List.all_eq_true.mp hinside) hrest
      (.name fun kind hlisted => hunlisted _ hlisted rfl)

theorem tiles_display (t : Ty) (loc : Nat) {rest : List Char} {ts : List Token}
    (hrest : ∀ c ∈ rest.head?, isNamePart c = false)
    (h : Tiles (loc + Text.byteWidth t.display.toList) rest ts) :
    Tiles loc (t.display.toList ++ rest) (ofType loc t ++ ts) := by
  induction t generalizing rest ts with
  | pointer base ih =>
    have hstar : ∀ loc, Lexeme ⟨.sign .star, "*", loc⟩ ['*'] rest := fun loc =>
      lexeme_single rfl (by decide) loc rest
    have htext : (Ty.pointer base).display.toList = base.display.toList ++ ['*'] :=
      String.toList_append
    rw [htext, Text.byteWidth_append, ← Nat.add_assoc] at h
    rw [htext, ofType, List.append_assoc, List.append_assoc]
    refine ih ?_ (.token (hstar _) h)
    rintro c ⟨⟩
    rfl
  | int | char | bool | void => exact .token (lexeme_typeName rfl loc hrest) h

/-- The text of a type is scanned as a name and stars. -/
theorem scan_display (t : Ty) : (scan t.display).result = .ok (ofType 0 t) := by
  have htiles : Tiles 0 (t.display.toList ++ []) (ofType 0 t ++ []) :=
    tiles_display t 0 (by simp) (.done _)
  rw [List.append_nil, List.append_nil] at htiles
  exact scan_of_tiles htiles

end Token

namespace TypeAt

/-- A type at the positions that its own text gives it. Each star stands behind what it points
to. -/
def written (loc : Nat) : Ty → TypeAt
  | .int => .int loc
  | .char => .char loc
  | .bool => .bool loc
  | .void => .void loc
  | .pointer base => .pointer (written loc base) (loc + Text.byteWidth base.display.toList)

theorem ty_written (loc : Nat) (t : Ty) : (written loc t).ty = t := by
  induction t with
  | pointer base ih => rw [written, ty, ih]
  | int | char | bool | void => rfl

/-- Its own position is that of its last token. -/
theorem getLast?_ofType (loc : Nat) (t : Ty) :
    (Token.ofType loc t).getLast?.map Token.loc = some (written loc t).loc := by
  cases t with
  | pointer base => rw [Token.ofType, List.getLast?_concat]; rfl
  | int | char | bool | void => rfl

/-- A moved type is given by its position, what it is and what it points to. -/
theorem eq_moveTo_iff {a moved : TypeAt} {loc : Nat} :
    moved = a.moveTo loc ↔ moved.loc = loc ∧ moved.ty = a.ty ∧ moved.base? = a.base? := by
  constructor
  · rintro rfl
    cases a <;> exact ⟨rfl, rfl, rfl⟩
  · rintro ⟨rfl, hty, hbase⟩
    cases moved <;> cases a <;> simp_all [ty, base?, moveTo, TypeAt.loc]

end TypeAt

namespace Cursor

/-- A token of the kind that is looked for is found where no blank precedes it. -/
theorem accept_cons {kind : Token.Kind} {t : Token} (ht : t.kind = kind)
    (hkind : kind.isBlank = false) (ts : List Token) :
    accept kind (t :: ts) = .matched t ⟨ts, Nat.lt_succ_self _⟩ := by
  have hskip : skip (t :: ts) = ⟨t :: ts, Nat.le_refl _⟩ := by
    refine Subtype.ext ((skip_val _).trans (List.dropWhile_cons_of_neg ?_))
    simp [Token.isSignificant, ht, hkind]
  rw [accept, peek?, hskip]
  exact if_pos ht

/-- A star makes a pointer at its own position, and the next ones go on from there. -/
theorem stars_cons (type : TypeAt) {star : Token} (hstar : star.kind = .sign .star)
    (ts : List Token) :
    Prod.map id Subtype.val (stars type (star :: ts)) =
      Prod.map id Subtype.val (stars (.pointer type star.loc) ts) := by
  rw [stars, accept_cons hstar rfl ts]
  rfl

/-- The first token of a type is a name, and the stars behind it lead up to the type. -/
theorem stars_ofType (loc : Nat) (t : Ty) :
    ∃ name base behind, Token.ofType loc t = name :: behind ∧ name.kind = .name ∧
      TypeAt.ofName? name.text name.loc = some base ∧
      ∀ rest, Prod.map id Subtype.val (stars base (behind ++ rest)) =
        Prod.map id Subtype.val (stars (TypeAt.written loc t) rest) := by
  induction t with
  | pointer base ih =>
    obtain ⟨name, first, behind, htokens, hkind, hname, hstars⟩ := ih
    refine ⟨name, first, behind ++ [_], by rw [Token.ofType, htokens, List.cons_append], hkind,
      hname, fun rest => ?_⟩
    rw [List.append_assoc, hstars]
    exact stars_cons _ rfl rest
  | int | char | bool | void => exact ⟨_, _, [], rfl, rfl, rfl, fun _ => rfl⟩

/-- All tokens of a type are read, and they give the type. -/
theorem typeName_ofType (eof loc : Nat) (t : Ty) :
    ∃ rest, typeName eof (Token.ofType loc t) = .ok (TypeAt.written loc t, rest) ∧
      rest.val = [] := by
  obtain ⟨name, base, behind, htokens, hkind, hname, hstars⟩ := stars_ofType loc t
  have hbehind : Prod.map id Subtype.val (stars base behind) = (TypeAt.written loc t, []) := by
    rw [← List.append_nil behind, hstars [], stars]
    rfl
  rw [htokens, typeName, expect, accept_cons hkind rfl behind]
  rcases hfound : stars base behind with ⟨type, left⟩
  rw [hfound] at hbehind
  obtain ⟨rfl, hleft⟩ := Prod.mk.inj hbehind
  refine ⟨Parser.Shorter.weaken ⟨behind, Nat.lt_succ_self _⟩ left, ?_, hleft⟩
  dsimp only
  rw [Outcome.ok_bind]
  dsimp only
  rw [hname]
  simp only [hfound]
  rfl

end Cursor

/-- Types with one text are one type, since the text can be read back. -/
theorem Ty.display_inj {a b : Ty} : a.display = b.display ↔ a = b := by
  constructor
  · intro htext
    have hread : ∀ t : Ty, (Cursor.typeName 0 (Token.ofType 0 t)).map Prod.fst =
        .ok (TypeAt.written 0 t) := by
      intro t
      obtain ⟨rest, htype, -⟩ := Cursor.typeName_ofType 0 0 t
      rw [htype]
      rfl
    have htokens : Token.ofType 0 a = Token.ofType 0 b :=
      Except.ok.inj (by rw [← Token.scan_display, htext, Token.scan_display])
    have hwritten : TypeAt.written 0 a = TypeAt.written 0 b :=
      Except.ok.inj (by rw [← hread, htokens, hread])
    rw [← TypeAt.ty_written 0 a, hwritten, TypeAt.ty_written]
  · rintro rfl
    rfl

/-- Two types are the same exactly when their texts are. All of a type's text is read as a type,
which is the same one and stands where the last token does. A moved type is the one type that has
the new position and is the same otherwise, down to the positions of what it points to. -/
theorem TypeAt.display_faithful (a b : TypeAt) (loc : Nat) :
    (a.ty = b.ty ↔ a.ty.display = b.ty.display) ∧
    (∃ tokens last, (Token.scan a.ty.display).result = .ok tokens ∧
      tokens.getLast? = some last ∧
      ∀ eof, ∃ read rest, Cursor.typeName eof tokens = .ok (read, rest) ∧ rest.val = [] ∧
        read.ty = a.ty ∧ read.loc = last.loc) ∧
    (∀ moved : TypeAt, moved = a.moveTo loc ↔
      moved.loc = loc ∧ moved.ty = a.ty ∧ moved.base? = a.base?) ∧
    (a.moveTo loc).ty.size? = a.ty.size? ∧ (a.moveTo loc).ty.width? = a.ty.width? := by
  refine ⟨Ty.display_inj.symm, ?_, fun _ => eq_moveTo_iff, by rw [ty_moveTo], by rw [ty_moveTo]⟩
  obtain ⟨last, hlast, hloc⟩ := Option.map_eq_some_iff.mp (getLast?_ofType 0 a.ty)
  refine ⟨Token.ofType 0 a.ty, last, Token.scan_display a.ty, hlast, fun eof => ?_⟩
  obtain ⟨rest, htype, hrest⟩ := Cursor.typeName_ofType eof 0 a.ty
  exact ⟨written 0 a.ty, rest, htype, hrest, ty_written 0 a.ty, hloc.symm⟩

end ProcLang
