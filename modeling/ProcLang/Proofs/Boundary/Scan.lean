import ProcLang.Proofs.Boundary.Standing

/-! Scanning by byte index comes to the same pieces, and stands between characters before each of
them. -/
namespace ProcLang.Indexed

open Text (bytes byteWidth byteSlice? slice?)
open Token (Cut)

variable {source : String} {pos : Nat} {c : Char} {cs : List Char}

/-- A cut whose length after the first character is counted in bytes. -/
def inBytes (cs : List Char) (k : Cut) : Cut :=
  ⟨k.piece, byteWidth (cs.take k.more)⟩

theorem settled_map_ok (cs : List Char) (piece : Token.Piece) (more : Nat) :
    settled ((Except.ok (Cut.mk piece more)).map (inBytes cs)) =
      pure ⟨piece, byteWidth (cs.take more)⟩ :=
  rfl

theorem settled_ok_bind {α β : Type} (a : α) (f : α → Checked β) : settled (.ok a) >>= f = f a :=
  rfl

/-! ### Numbers and words -/

/-- An ASCII character and those of a class behind it are cut out of the source as they are. -/
theorem Stands.span {p : Char → Bool} (hp : Ascii p) (h : Stands source pos (c :: cs))
    (hc : c.toNat < 128) :
    ∃ ds rest, cs = ds ++ rest ∧ cs.takeWhile p = ds ∧ byteWidth ds = ds.length ∧
      spanFrom source p (pos + 1) = ds.length ∧ Stands source (pos + 1 + ds.length) rest ∧
      slice? source pos (pos + 1 + ds.length) = some (String.ofList (c :: ds)) := by
  obtain ⟨rest, hsplit, hinside, -⟩ := Token.takeWhile_eq_iff.mp (rfl : cs.takeWhile p = _)
  have hascii : ∀ d ∈ c :: cs.takeWhile p, d.toNat < 128 :=
    List.forall_mem_cons.mpr ⟨hc, fun d hd => hp d (hinside d hd)⟩
  have hwidth := Text.byteWidth_ascii hascii
  have hspan := (h.ascii hc).spanFrom_eq hp
  generalize cs.takeWhile p = ds at hsplit hascii hwidth hspan ⊢
  subst hsplit
  have hstop : pos + byteWidth (c :: ds) = pos + 1 + ds.length := by
    rw [hwidth, List.length_cons, Nat.add_right_comm, Nat.add_assoc]
  have hstands : Stands source pos ((c :: ds) ++ rest) := h
  have hmore := Text.byteWidth_ascii (List.forall_mem_cons.mp hascii).2
  refine ⟨ds, rest, rfl, rfl, hmore, hspan, ?_, ?_⟩
  · rw [← hstop]
    exact hstands.append
  · rw [← hstop]
    exact hstands.slice?_eq

theorem cutInteger_eq (h : Stands source pos (c :: cs)) (hc : c.isDigit = true) :
    cutInteger source pos = settled ((Token.cutInteger pos c cs).map (inBytes cs)) := by
  obtain ⟨ds, rest, rfl, hdigits, hwidth, hspan, hstop, htext⟩ :=
    h.span ascii_isDigit (ascii_isDigit c hc)
  rw [cutInteger, hspan, hstop.any_byteAt? ascii_isAlpha, htext, Token.cutInteger, hdigits,
    List.drop_left]
  cases rest.head?.any Char.isAlpha with
  | true => rfl
  | false =>
    rw [if_neg Bool.false_ne_true, if_neg Bool.false_ne_true, settled_map_ok, List.take_left,
      hwidth]
    rfl

theorem cutWord_eq (h : Stands source pos (c :: cs)) (hc : Token.isNameStart c = true) :
    cutWord source pos = settled (.ok (inBytes cs (Token.cutWord pos c cs))) := by
  obtain ⟨ds, rest, rfl, hword, hwidth, hspan, -, htext⟩ :=
    h.span ascii_isNamePart (ascii_isNameStart c hc)
  rw [cutWord, hspan, htext, Token.cutWord, hword, inBytes, List.length_cons, Nat.add_sub_cancel,
    List.take_left, hwidth]
  rfl

/-! ### Comments -/

/-- A comment ends with its line, whatever characters it goes through. -/
theorem cutComment_eq (h : Stands source pos ('#' :: cs)) :
    cutComment source pos = settled ((Token.cutComment pos cs).map (inBytes cs)) := by
  have hsize : (bytes source).length = pos + 1 + byteWidth cs := by
    rw [h.length_bytes, Nat.add_assoc]
    rfl
  have hrest : byteSlice? (bytes source) pos (bytes source).length =
      some (('#' :: cs).flatMap String.utf8EncodeChar) := by
    rw [byteSlice?, if_pos ⟨by omega, Nat.le_refl _⟩, List.take_length, h.drop_bytes]
  have hnewline : Source.newline ∈ ('#' :: cs).flatMap String.utf8EncodeChar ↔ '\n' ∈ cs :=
    (byteOf_mem_encode (d := '\n') (by decide) _).trans (by simp)
  have hlength : ((('#' :: cs).flatMap String.utf8EncodeChar).takeWhile
      (· != Source.newline)).length = 1 + byteWidth (cs.takeWhile (· != '\n')) := by
    rw [← Source.encode_takeWhile, Text.length_encode]
    rfl
  rw [cutComment, hrest, Token.cutComment]
  change (if Source.newline ∈ ('#' :: cs).flatMap String.utf8EncodeChar then _ else _) = _
  by_cases hmem : '\n' ∈ cs
  · have hall : ¬cs.all (· != '\n') = true := by simpa using hmem
    obtain ⟨rest, hsplit, -⟩ :=
      Token.takeWhile_eq_iff.mp (rfl : cs.takeWhile (· != '\n') = _)
    have htake : cs.take (cs.takeWhile (· != '\n')).length = cs.takeWhile (· != '\n') := by
      nth_rewrite 2 [hsplit]
      rw [List.take_left]
    rw [if_pos (hnewline.mpr hmem), if_neg hall, hlength, settled_map_ok, htake,
      Nat.add_sub_cancel_left, ← Nat.add_assoc]
  · have hall : cs.all (· != '\n') = true := by
      rw [List.all_eq_true]
      exact fun d hd => bne_iff_ne.mpr fun heq => hmem (heq ▸ hd)
    rw [if_neg (hnewline.not.mpr hmem), if_pos hall, hsize]
    rfl

/-! ### Character and string literals -/

theorem unescapeByte?_eq (b : UInt8) :
    Token.unescapeByte? b = (Token.unescape? (charOf b)).map byteOf := by
  have hall : ∀ n < 256, Token.unescapeByte? (UInt8.ofNat n) =
      (Token.unescape? (charOf (UInt8.ofNat n))).map byteOf := by
    decide +kernel
  simpa using hall b.toNat b.toNat_lt

theorem unescapeByte?_lead {b : UInt8}
    (h : ((c :: cs).flatMap String.utf8EncodeChar).head? = some b) :
    Token.unescapeByte? b = (Token.unescape? c).map byteOf := by
  have hhigh {d : Char} (hd : 128 ≤ d.toNat) : Token.unescape? d = none := by
    refine Option.eq_none_iff_forall_ne_some.mpr fun value hvalue => ?_
    have hlow := (Token.ascii_of_mem_escapes (Token.unescape?_eq_some.mp hvalue)).1
    exact absurd hlow (Nat.not_lt.mpr hd)
  rw [unescapeByte?_eq]
  rcases lead_cases h with ⟨hascii, rfl⟩ | ⟨hc, hb⟩
  · rw [charOf_byteOf hascii]
  · rw [hhigh hc, hhigh (by rwa [toNat_charOf])]

theorem literalByte_plain {b : UInt8} (h : b ≠ byteOf '\\') :
    literalByte source pos b = pure (b, 0) :=
  if_pos h

/-- An escape is taken whole, or the character that cannot be escaped is shown. -/
theorem literalByte_escape (h : Stands source pos ('\\' :: cs)) :
    literalByte source pos (byteOf '\\') =
      settled ((Token.escape (pos + 1) cs).map fun value => (byteOf value, 1)) := by
  have hbehind : Stands source (pos + 1) cs := h.ascii (by decide)
  rw [literalByte, if_neg (not_not_intro rfl), hbehind.byteAt?_eq]
  cases cs with
  | nil => rfl
  | cons c cs =>
    obtain ⟨b, hb⟩ := exists_lead c cs
    rw [hb, Token.escape]
    dsimp only
    rw [unescapeByte?_lead hb]
    cases Token.unescape? c with
    | none =>
      rw [hbehind.charAt_eq]
      rfl
    | some value => rfl

theorem cutCharacter_escaped (h : Stands source pos ('\'' :: '\\' :: cs)) :
    cutCharacter source pos =
      settled ((Token.cutCharacter pos ('\\' :: cs)).map (inBytes ('\\' :: cs))) := by
  have hinside : Stands source (pos + 1) ('\\' :: cs) := h.ascii (by decide)
  rw [cutCharacter, hinside.byteAt?_ascii (by decide)]
  dsimp only
  rw [literalByte_escape hinside, Token.cutCharacter]
  cases cs with
  | nil => rfl
  | cons c cs =>
    rw [Token.escape]
    cases hknown : Token.unescape? c with
    | none => rfl
    | some value =>
      obtain ⟨hc, hvalue⟩ := Token.ascii_of_mem_escapes (Token.unescape?_eq_some.mp hknown)
      have hclose : byteAt? source (pos + 3) = some (byteOf '\'') ↔ cs.head? = some '\'' :=
        ((hinside.ascii (by decide)).ascii hc).byteAt?_eq_iff (by decide)
      change (if byteAt? source (pos + 3) = some (byteOf '\'') then _ else _) =
        settled ((if cs.head? = some '\'' then _ else _ : Except Fault Cut).map _)
      by_cases hhead : cs.head? = some '\''
      · obtain ⟨rest, rfl⟩ := List.head?_eq_some_iff.mp hhead
        have hwidth : byteWidth ('\\' :: c :: '\'' :: rest |>.take 3) = 3 :=
          Text.byteWidth_ascii (by simp [hc])
        rw [if_pos hhead, if_pos (hclose.mpr hhead), charOf_byteOf hvalue, settled_map_ok, hwidth]
      · rw [if_neg hhead, if_neg (hclose.not.mpr hhead)]
        rfl

theorem cutCharacter_cons {loc : Nat} (hc : c ≠ '\\') :
    Token.cutCharacter loc (c :: cs) =
      if c.toNat < 128 ∧ cs.head? = some '\'' then
        .ok ⟨.token ⟨.character, c.toString, loc⟩, 2⟩
      else .error (.located loc .unendedCharacter) := by
  unfold Token.cutCharacter
  split
  next heq =>
    cases heq
    exact absurd rfl hc
  next heq =>
    cases heq
    simp
  next hclose =>
    rw [if_neg]
    rintro ⟨-, hhead⟩
    obtain ⟨rest, rfl⟩ := List.head?_eq_some_iff.mp hhead
    exact hclose c rest rfl

/-- A character of more than one byte is refused at its second byte, which is no quote. -/
theorem cutCharacter_plain (h : Stands source pos ('\'' :: c :: cs)) (hc : c ≠ '\\') :
    cutCharacter source pos =
      settled ((Token.cutCharacter pos (c :: cs)).map (inBytes (c :: cs))) := by
  have hinside : Stands source (pos + 1) (c :: cs) := h.ascii (by decide)
  have hclose : byteAt? source (pos + 2) = some (byteOf '\'') ↔
      c.toNat < 128 ∧ cs.head? = some '\'' :=
    hinside.byteAt?_succ_eq_iff (by decide)
  obtain ⟨b, hb⟩ := exists_lead c cs
  rw [cutCharacter, hinside.byteAt?_eq, hb]
  dsimp only
  rw [literalByte_plain ((lead_eq_iff hb (by decide)).not.mpr hc), cutCharacter_cons hc]
  change (if byteAt? source (pos + 2) = some (byteOf '\'') then _ else _) = _
  by_cases hboth : c.toNat < 128 ∧ cs.head? = some '\''
  · obtain ⟨hascii, hhead⟩ := hboth
    obtain rfl : b = byteOf c := (lead_eq_iff hb hascii).mpr rfl
    obtain ⟨rest, rfl⟩ := List.head?_eq_some_iff.mp hhead
    have hwidth : byteWidth (c :: '\'' :: rest |>.take 2) = 2 :=
      Text.byteWidth_ascii (by simp [hascii])
    rw [if_pos (hclose.mpr ⟨hascii, hhead⟩), if_pos ⟨hascii, hhead⟩, charOf_byteOf hascii,
      settled_map_ok, hwidth]
  · rw [if_neg (hclose.not.mpr hboth), if_neg hboth]
    rfl

theorem cutCharacter_eq (h : Stands source pos ('\'' :: cs)) :
    cutCharacter source pos = settled ((Token.cutCharacter pos cs).map (inBytes cs)) := by
  cases cs with
  | nil =>
    have hend : byteAt? source (pos + 1) = none := (h.ascii (by decide)).byteAt?_eq
    rw [cutCharacter, hend]
    rfl
  | cons c cs =>
    by_cases hc : c = '\\'
    · subst hc
      exact cutCharacter_escaped h
    · exact cutCharacter_plain h hc

/-- Bytes that are neither quotes nor backslashes stand for themselves, also inside a character. -/
theorem textBody_through {bs rest : List UInt8} (start : Nat)
    (hbs : ∀ b ∈ bs, b ≠ byteOf '"' ∧ b ≠ byteOf '\\')
    (h : (bytes source).drop pos = bs ++ rest) :
    textBody source start pos =
      (fun r => (bs ++ r.1, r.2)) <$> textBody source start (pos + bs.length) := by
  induction bs generalizing pos with
  | nil => exact (id_map _).symm
  | cons b bs ih =>
    obtain ⟨⟨hquote, hbackslash⟩, hbs⟩ := List.forall_mem_cons.mp hbs
    have hbyte : byteAt? source pos = some b := by
      rw [byteAt?, ← List.head?_drop, h]
      rfl
    have hbehind : (bytes source).drop (pos + 1) = bs ++ rest := by
      rw [← List.drop_drop, h]
      rfl
    rw [textBody_some source hbyte, if_neg hquote, literalByte_plain hbackslash, pure_bind]
    dsimp only
    rw [Nat.add_zero, ih hbs hbehind, List.length_cons, Nat.add_right_comm, ← Nat.add_assoc]
    simp only [map_eq_pure_bind, bind_assoc, pure_bind, List.cons_append]

/-- A string literal ends where its characters do, though it is gone through byte by byte. -/
theorem textBody_eq (start : Nat) (h : Stands source pos cs) :
    textBody source start pos = settled ((Token.textBody start pos cs).map fun r =>
      (r.1.flatMap String.utf8EncodeChar, pos + byteWidth (cs.take r.2))) := by
  fun_induction Token.textBody start pos cs with
  | case1 pos =>
    rw [textBody_none source h.byteAt?_eq]
    rfl
  | case2 pos rest =>
    rw [textBody_some source (h.byteAt?_ascii (by decide)), if_pos rfl]
    rfl
  | case3 pos =>
    rw [textBody_some source (h.byteAt?_ascii (by decide)), if_neg (by decide),
      literalByte_escape h]
    rfl
  | case4 pos c cs ih =>
    rw [textBody_some source (h.byteAt?_ascii (by decide)), if_neg (by decide),
      literalByte_escape h, Token.escape, Token.escape]
    cases hknown : Token.unescape? c with
    | none => rfl
    | some value =>
      obtain ⟨hc, hvalue⟩ := Token.ascii_of_mem_escapes (Token.unescape?_eq_some.mp hknown)
      change settled (.ok (byteOf value, 1)) >>= _ = _
      rw [settled_ok_bind]
      dsimp only
      rw [ih ((h.ascii (by decide)).ascii hc)]
      cases Token.textBody start (pos + 2) cs with
      | error fault => rfl
      | ok r =>
        obtain ⟨values, taken⟩ := r
        have hstop : pos + 2 + byteWidth (cs.take taken) =
            pos + byteWidth (('\\' :: c :: cs).take (taken + 2)) := by
          change _ = pos + (1 + (c.utf8Size + byteWidth (cs.take taken)))
          rw [Text.utf8Size_ascii hc]
          omega
        change settled (.ok (_, pos + 2 + byteWidth (cs.take taken))) =
          settled (.ok ((value :: values).flatMap String.utf8EncodeChar, _))
        rw [hstop, List.flatMap_cons, Text.encodeChar_ascii hvalue]
        rfl
  | case5 pos c cs hquote hlast hescape ih =>
    have hbackslash : c ≠ '\\' := by
      rintro rfl
      cases cs with
      | nil => exact hlast rfl rfl
      | cons d cs => exact hescape d cs rfl rfl
    -- Inside a character there is no place to slice at, but none of its bytes is a quote or a
    -- backslash either, so that nothing is sliced before the next character starts.
    have hbytes : ∀ b ∈ String.utf8EncodeChar c, b ≠ byteOf '"' ∧ b ≠ byteOf '\\' := by
      intro b hb
      constructor
      · rintro rfl
        exact hquote ((Text.mem_encodeChar (by decide)).mp hb)
      · rintro rfl
        exact hbackslash ((Text.mem_encodeChar (by decide)).mp hb)
    have hbehind : Stands source (pos + c.utf8Size) cs := h.tail
    rw [textBody_through start hbytes h.drop_bytes, String.length_utf8EncodeChar, ih hbehind]
    cases Token.textBody start (pos + c.utf8Size) cs with
    | error fault => rfl
    | ok r =>
      obtain ⟨values, taken⟩ := r
      have hstop : pos + c.utf8Size + byteWidth (cs.take taken) =
          pos + byteWidth ((c :: cs).take (taken + 1)) :=
        Nat.add_assoc ..
      change settled (.ok (_, pos + c.utf8Size + byteWidth (cs.take taken))) = _
      rw [hstop]
      rfl

theorem cutText_eq (h : Stands source pos ('"' :: cs)) :
    cutText source pos = settled ((Token.cutText pos cs).map (inBytes cs)) := by
  rw [cutText, textBody_eq pos (h.ascii (by decide)), Token.cutText]
  cases Token.textBody pos (pos + 1) cs with
  | error fault => rfl
  | ok r =>
    obtain ⟨values, taken⟩ := r
    change settled (.ok (Cut.mk
      (.token ⟨.text, Text.decodeLossy (values.flatMap String.utf8EncodeChar), pos⟩)
      (pos + 1 + byteWidth (cs.take taken) - (pos + 1)))) = _
    rw [Text.decodeLossy, Text.decodeFrom_flatMap, Nat.add_sub_cancel_left]
    rfl

/-! ### Pieces -/

/-- Punctuation takes as many bytes as characters. -/
theorem byteWidth_of_fixed? {kind : Token.Kind} (h : Token.fixed? (c :: cs) = some kind) :
    byteWidth (cs.take ((kind.chars?.getD []).length - 1)) = (kind.chars?.getD []).length - 1 := by
  by_cases hc : c = '\r'
  · subst hc
    cases h
    rfl
  · obtain ⟨s, hs, ⟨rest, hsplit⟩, -⟩ := Token.longest_of_fixed? hc h
    obtain ⟨d, ds, rfl, -⟩ := Token.exists_head hs
    obtain ⟨rfl, rfl⟩ : d = c ∧ ds ++ rest = cs := List.cons.inj hsplit
    have hascii := (List.forall_mem_cons.mp (ascii_of_chars? hs)).2
    rw [hs, Option.getD_some, List.length_cons, Nat.add_sub_cancel, List.take_left,
      Text.byteWidth_ascii hascii]

/-- Cutting by byte index never slices inside a character, and finds the same piece. -/
theorem cut_eq {b : UInt8} (h : Stands source pos (c :: cs)) (hb : byteAt? source pos = some b) :
    cut source pos b = settled ((Token.cut pos c cs).map (inBytes cs)) := by
  have hlead := h.byteAt?_eq.symm.trans hb
  have hbyte {d : Char} (hd : d.toNat < 128) : b = byteOf d ↔ c = d := lead_eq_iff hlead hd
  rw [cut, h.fixedAt?_eq, Token.cut]
  cases hfixed : Token.fixed? (c :: cs) with
  | some kind => rw [settled_map_ok, byteWidth_of_fixed? hfixed]
  | none =>
    simp only [hbyte (d := '#') (by decide), hbyte (d := '\'') (by decide),
      hbyte (d := '"') (by decide), lead_class ascii_isDigit hlead,
      lead_class ascii_isNameStart hlead, beq_iff_eq]
    split_ifs with hcomment hdigit hquote htext hword
    · subst hcomment
      exact cutComment_eq h
    · exact cutInteger_eq h hdigit
    · subst hquote
      exact cutCharacter_eq h
    · subst htext
      exact cutText_eq h
    · exact cutWord_eq h hword
    · rw [h.charAt_eq]
      rfl

/-- A piece starts with an ASCII character. -/
theorem ascii_of_cut {k : Cut} (h : Token.cut pos c cs = .ok k) : c.toNat < 128 := by
  obtain ⟨piece, more⟩ := k
  cases piece with
  | comment start stop =>
    obtain ⟨_, _, rfl, -⟩ := Token.comment_of_cut h
    decide
  | token t =>
    obtain ⟨body, rest, -, -, hlexeme⟩ := Token.lexeme_of_cut h
    cases hlexeme with
    | fixed _ hs _ => exact ascii_of_chars? hs c List.mem_cons_self
    | carriageReturn => decide
    | integer _ _ hdigits _ => exact ascii_isDigit c (hdigits c List.mem_cons_self)
    | word _ hstart _ _ _ => exact ascii_isNameStart c hstart
    | character => decide
    | text => decide

/-- Behind a piece a character starts again, or the source ends. -/
theorem Stands.behind {k : Cut} (h : Stands source pos (c :: cs))
    (hcut : Token.cut pos c cs = .ok k) :
    Stands source (pos + byteWidth (c :: cs.take k.more)) (cs.drop k.more) ∧
      pos + byteWidth (c :: cs.take k.more) = pos + 1 + (inBytes cs k).more := by
  refine ⟨Stands.append ?_, ?_⟩
  · rwa [List.cons_append, List.take_append_drop]
  · change pos + (c.utf8Size + _) = _
    rw [Text.utf8Size_ascii (ascii_of_cut hcut), Nat.add_assoc]
    rfl

theorem pieces_eq (h : Stands source pos cs) : pieces source pos = some (Token.pieces pos cs) := by
  fun_induction Token.pieces pos cs with
  | case1 pos => exact pieces_none source h.byteAt?_eq
  | case2 pos c cs fault hcut =>
    obtain ⟨b, hb⟩ := exists_lead c cs
    have hbyte := h.byteAt?_eq.trans hb
    rw [pieces_some source hbyte, cut_eq h hbyte, hcut]
    rfl
  | case3 pos c cs piece more hcut rest fault? hrest ih =>
    obtain ⟨b, hb⟩ := exists_lead c cs
    have hbyte := h.byteAt?_eq.trans hb
    obtain ⟨hbehind, hstop⟩ := h.behind hcut
    have hrun : (settled (Except.map (inBytes cs) (.ok ⟨piece, more⟩))).run =
        some (.ok ⟨piece, (inBytes cs ⟨piece, more⟩).more⟩) := rfl
    rw [pieces_some source hbyte, cut_eq h hbyte, hcut, hrun, Option.bind_eq_bind, Option.bind_some]
    dsimp only
    rw [← hstop, ih hbehind, hrest]
    rfl

theorem scan_eq (source : String) : scan source = some (Token.scan source) := by
  rw [scan, pieces_eq (Stands.zero source), Token.scan]
  obtain ⟨parts, fault?⟩ := Token.pieces 0 source.toList
  cases fault? with
  | none => rfl
  | some fault => rfl

/-- Every head of the scanning loop stands between characters. -/
theorem Head.stands (h : Head source pos) : ∃ cs, Stands source pos cs := by
  induction h with
  | first => exact ⟨_, Stands.zero source⟩
  | @behind pos b piece more _ hbyte hfound ih =>
    obtain ⟨cs, hstands⟩ := ih
    cases cs with
    | nil => exact absurd (hbyte.symm.trans hstands.byteAt?_eq) nofun
    | cons c cs =>
      rw [cut_eq hstands hbyte] at hfound
      cases hcut : Token.cut pos c cs with
      | error fault =>
        rw [hcut] at hfound
        cases hfound
      | ok k =>
        rw [hcut] at hfound
        obtain ⟨hbehind, hstop⟩ := hstands.behind hcut
        cases hfound
        exact ⟨_, hstop ▸ hbehind⟩

end ProcLang.Indexed
