import Mathlib.Data.List.TakeWhile
import ProcLang.Proofs.Correctness.Positions
import ProcLang.Proofs.Lexing.Relation

/-! Scanning finds the tokens that cover a source, and finds them whenever there are any. -/
namespace ProcLang.Token

section Fixed

theorem mem_fixedKinds {kind : Kind} {s : List Char} (h : kind.chars? = some s) :
    kind ∈ fixedKinds := by
  cases kind with
  | blank b => cases b <;> decide
  | delimiter d => cases d <;> decide
  | sign s => cases s <;> decide
  | _ => cases h

/-- Longer spellings come first. -/
theorem fixedKinds_sorted : fixedKinds.Pairwise fun kind later =>
    (later.chars?.getD []).length ≤ (kind.chars?.getD []).length := by
  decide

theorem chars?_inj {kind other : Kind} {s : List Char} (h : kind.chars? = some s)
    (h' : other.chars? = some s) : kind = other := by
  have hnodup : (fixedKinds.map Kind.chars?).Nodup := by decide
  exact List.inj_on_of_nodup_map hnodup (mem_fixedKinds h) (mem_fixedKinds h') (h.trans h'.symm)

/-- Punctuation starts with a character that no other lexeme starts with. -/
theorem exists_head {kind : Kind} {s : List Char} (h : kind.chars? = some s) :
    ∃ c cs, s = c :: cs ∧ c ∉ ['\r', '#', '\'', '"'] ∧ isNamePart c = false := by
  cases kind with
  | blank b => cases b <;> cases h <;> exact ⟨_, _, rfl, by decide, by decide⟩
  | delimiter d => cases d <;> cases h <;> exact ⟨_, _, rfl, by decide, by decide⟩
  | sign s => cases s <;> cases h <;> exact ⟨_, _, rfl, by decide, by decide⟩
  | _ => cases h

theorem fixed?_eq_find? {c : Char} (hc : c ≠ '\r') (cs : List Char) :
    fixed? (c :: cs) = fixedKinds.find? fun kind => kind.chars?.any (·.isPrefixOf (c :: cs)) := by
  unfold fixed?
  split
  next heq =>
    cases heq
    exact absurd rfl hc
  next => rfl

theorem any_isPrefixOf {kind : Kind} {cs : List Char} :
    kind.chars?.any (·.isPrefixOf cs) = true ↔ ∃ s, kind.chars? = some s ∧ s <+: cs := by
  simp [Option.any_eq_true]

/-- Of the kinds that are spelled at the front, the one found has the longest spelling. -/
theorem longest_of_fixed? {c : Char} {cs : List Char} {kind : Kind} (hc : c ≠ '\r')
    (h : fixed? (c :: cs) = some kind) :
    ∃ s, kind.chars? = some s ∧ s <+: c :: cs ∧
      ∀ (other : Kind) (s' : List Char), other.chars? = some s' → s' <+: c :: cs →
        s'.length ≤ s.length := by
  rw [fixed?_eq_find? hc, List.find?_eq_some_iff_append] at h
  obtain ⟨hfound, before, after, hsplit, hbefore⟩ := h
  obtain ⟨s, hs, hprefix⟩ := any_isPrefixOf.mp hfound
  refine ⟨s, hs, hprefix, fun other s' hs' hprefix' => ?_⟩
  have hother : other.chars?.any (·.isPrefixOf (c :: cs)) = true :=
    any_isPrefixOf.mpr ⟨s', hs', hprefix'⟩
  have hmem := mem_fixedKinds hs'
  have hsorted := fixedKinds_sorted
  rw [hsplit] at hmem hsorted
  rcases List.mem_append.mp hmem with hmem | hmem
  · have hnot := hbefore other hmem
    rw [hother] at hnot
    cases hnot
  · rcases List.mem_cons.mp hmem with rfl | hmem
    · exact (congrArg List.length (Option.some.inj (hs'.symm.trans hs))).le
    · have hle := (List.pairwise_cons.mp (List.pairwise_append.mp hsorted).2.1).1 other hmem
      simpa [hs, hs'] using hle

theorem fixed?_of_longest {kind : Kind} {s rest : List Char} (hs : kind.chars? = some s)
    (hlongest : ∀ (other : Kind) (s' : List Char), other.chars? = some s' → s' <+: s ++ rest →
      s'.length ≤ s.length) : fixed? (s ++ rest) = some kind := by
  obtain ⟨c, cs, rfl, hc, -⟩ := exists_head hs
  have hreturn : c ≠ '\r' := by simp_all
  have hprefix : c :: cs <+: c :: cs ++ rest := List.prefix_append _ _
  cases hfixed : fixed? (c :: cs ++ rest) with
  | none =>
    rw [List.cons_append, fixed?_eq_find? hreturn, List.find?_eq_none] at hfixed
    exact absurd (any_isPrefixOf.mpr ⟨_, hs, hprefix⟩) (hfixed kind (mem_fixedKinds hs))
  | some found =>
    obtain ⟨s', hs', hprefix', hlongest'⟩ := longest_of_fixed? hreturn hfixed
    have hlength : s'.length = (c :: cs).length :=
      Nat.le_antisymm (hlongest found s' hs' hprefix') (hlongest' kind _ hs hprefix)
    have hsame : s' <+: c :: cs := List.prefix_of_prefix_length_le hprefix' hprefix hlength.le
    obtain rfl := hsame.eq_of_length hlength
    rw [chars?_inj hs' hs]

theorem fixed?_eq_none {c : Char} (h : c ∈ ['#', '\'', '"'] ∨ isNamePart c = true)
    (cs : List Char) : fixed? (c :: cs) = none := by
  have hreturn : c ≠ '\r' := by
    rintro rfl
    revert h
    decide
  cases hfixed : fixed? (c :: cs) with
  | none => rfl
  | some kind =>
    obtain ⟨s, hs, hprefix, -⟩ := longest_of_fixed? hreturn hfixed
    obtain ⟨c', cs', rfl, hother, hpart⟩ := exists_head hs
    obtain rfl : c' = c := (List.cons_prefix_cons.mp hprefix).1
    rcases h with h | h
    · simp_all
    · rw [hpart] at h
      cases h

end Fixed

section Words

theorem WordKind.unique {text : String} {kind other : Kind} (h : WordKind text kind)
    (h' : WordKind text other) : kind = other := by
  cases h with
  | reserved hlisted =>
    cases h' with
    | reserved hlisted' =>
      have hnodup : (Token.reserved.map Prod.fst).Nodup := by decide
      exact congrArg Prod.snd (List.inj_on_of_nodup_map hnodup hlisted hlisted' rfl)
    | name hunlisted => exact absurd hlisted (hunlisted kind)
  | name hunlisted =>
    cases h' with
    | reserved hlisted => exact absurd hlisted (hunlisted other)
    | name _ => rfl

theorem wordKind_ofWord (text : String) : WordKind text (.ofWord text) := by
  unfold Kind.ofWord
  split
  case h_11 =>
    refine .name fun kind hlisted => ?_
    simp_all [reserved]
  all_goals exact .reserved (by simp [reserved])

/-- A class of characters takes as many as it can. -/
theorem takeWhile_eq_iff {p : Char → Bool} {cs ds : List Char} :
    cs.takeWhile p = ds ↔ ∃ rest, cs = ds ++ rest ∧ (∀ c ∈ ds, p c = true) ∧
      ∀ c ∈ rest.head?, p c = false := by
  constructor
  · rintro rfl
    refine ⟨cs.dropWhile p, List.takeWhile_append_dropWhile.symm, fun c hc => ?_, fun c hc => ?_⟩
    · exact List.mem_takeWhile_imp hc
    · have hstop := List.head?_dropWhile_not p cs
      rw [Option.mem_def.mp hc] at hstop
      simpa using hstop
  · rintro ⟨rest, rfl, hinside, hends⟩
    have hstop : rest.takeWhile p = [] := by
      cases rest with
      | nil => rfl
      | cons c rest => simp [hends c rfl]
    rw [List.takeWhile_append_of_pos hinside, hstop, List.append_nil]

theorem cutWord_eq_iff {loc : Nat} {c : Char} {cs : List Char} {k : Cut} :
    cutWord loc c cs = k ↔ ∃ ds rest kind, cs = ds ++ rest ∧ (∀ d ∈ ds, isNamePart d = true) ∧
      (∀ d ∈ rest.head?, isNamePart d = false) ∧ WordKind (String.ofList (c :: ds)) kind ∧
      k = ⟨.token ⟨kind, String.ofList (c :: ds), loc⟩, ds.length⟩ := by
  constructor
  · rintro rfl
    obtain ⟨rest, hsplit, hinside, hends⟩ :=
      takeWhile_eq_iff.mp (rfl : cs.takeWhile isNamePart = _)
    exact ⟨_, rest, _, hsplit, hinside, hends, wordKind_ofWord _, rfl⟩
  · rintro ⟨ds, rest, kind, hsplit, hinside, hends, hkind, rfl⟩
    have hword := takeWhile_eq_iff.mpr ⟨rest, hsplit, hinside, hends⟩
    rw [cutWord, hword, hkind.unique (wordKind_ofWord _)]
    rfl

theorem cutInteger_eq_ok {loc : Nat} {c : Char} {cs : List Char} {k : Cut} :
    cutInteger loc c cs = .ok k ↔ ∃ ds rest, cs = ds ++ rest ∧ (∀ d ∈ ds, d.isDigit = true) ∧
      (∀ d ∈ rest.head?, d.isDigit = false ∧ d.isAlpha = false) ∧
      k = ⟨.token ⟨.integer, String.ofList (c :: ds), loc⟩, ds.length⟩ := by
  constructor
  · intro h
    obtain ⟨rest, hsplit, hinside, hends⟩ :=
      takeWhile_eq_iff.mp (rfl : cs.takeWhile Char.isDigit = _)
    have hdrop : cs.drop (cs.takeWhile Char.isDigit).length = rest := by
      nth_rewrite 2 [hsplit]
      exact List.drop_left
    simp only [cutInteger, hdrop] at h
    split at h
    next => cases h
    next hletter =>
      refine ⟨_, rest, hsplit, hinside, fun d hd => ⟨hends d hd, ?_⟩, (Except.ok.inj h).symm⟩
      rw [Option.mem_def.mp hd] at hletter
      simpa using hletter
  · rintro ⟨ds, rest, rfl, hinside, hends, rfl⟩
    have hdigits : (ds ++ rest).takeWhile Char.isDigit = ds :=
      takeWhile_eq_iff.mpr ⟨rest, rfl, hinside, fun d hd => (hends d hd).1⟩
    have hletter : rest.head?.any Char.isAlpha = false := by
      cases hhead : rest.head? with
      | none => rfl
      | some d => exact (hends d hhead).2
    simp [cutInteger, hdigits, hletter]

end Words

section Comments

theorem cutComment_eq_ok {loc : Nat} {cs : List Char} {k : Cut} :
    cutComment loc cs = .ok k ↔ ∃ body rest, cs = body ++ '\n' :: rest ∧ '\n' ∉ body ∧
      k = ⟨.comment loc (loc + 1 + Text.byteWidth body), body.length⟩ := by
  constructor
  · intro h
    unfold cutComment at h
    split at h
    next => cases h
    next hline =>
      obtain ⟨rest, hsplit, hinside, hends⟩ :=
        takeWhile_eq_iff.mp (rfl : cs.takeWhile (· != '\n') = _)
      have hnot : '\n' ∉ cs.takeWhile (· != '\n') := fun hmem => absurd (hinside _ hmem) (by decide)
      cases rest with
      | nil =>
        rw [List.append_nil] at hsplit
        rw [hsplit] at hline
        exact absurd (List.all_eq_true.mpr hinside) hline
      | cons d rest =>
        obtain rfl : d = '\n' := by simpa using hends d rfl
        exact ⟨_, rest, hsplit, hnot, (Except.ok.inj h).symm⟩
  · rintro ⟨body, rest, rfl, hinside, rfl⟩
    have hline : (body ++ '\n' :: rest).all (· != '\n') = false := by simp
    have hbody : (body ++ '\n' :: rest).takeWhile (· != '\n') = body := by
      refine takeWhile_eq_iff.mpr ⟨'\n' :: rest, rfl, fun c hc => ?_, by simp⟩
      have hc : c ≠ '\n' := fun heq => hinside (heq ▸ hc)
      simpa using hc
    simp only [cutComment, hline, hbody, Bool.false_eq_true, if_false]

end Comments

section Quotes

theorem escape_eq_ok {loc : Nat} {cs : List Char} {value : Char} :
    escape loc cs = .ok value ↔ ∃ c rest, cs = c :: rest ∧ (c, value) ∈ escapes := by
  simp only [← unescape?_eq_some]
  cases cs with
  | nil => simp [escape]
  | cons c cs =>
    rw [escape]
    cases hc : unescape? c <;> simp [hc]

theorem cutCharacter_eq_ok {loc : Nat} {cs : List Char} {k : Cut} :
    cutCharacter loc cs = .ok k ↔ ∃ body rest value, cs = body ++ '\'' :: rest ∧
      QuotedChar body value ∧ k = ⟨.token ⟨.character, value.toString, loc⟩, body.length + 1⟩ := by
  constructor
  · intro h
    unfold cutCharacter at h
    split at h
    next cs =>
      obtain ⟨value, hvalue, hclosed⟩ := Outcome.bind_eq_ok.mp h
      obtain ⟨c, rest, rfl, hknown⟩ := escape_eq_ok.mp hvalue
      split at hclosed
      next hquote =>
        obtain ⟨rest, rfl⟩ : ∃ tail, rest = '\'' :: tail := by
          cases rest with
          | nil => cases hquote
          | cons d tail => exact ⟨tail, by simpa using hquote⟩
        exact ⟨['\\', c], rest, value, rfl, .escaped hknown, (Except.ok.inj hclosed).symm⟩
      next => cases hclosed
    next c rest hunescaped =>
      split at h
      next hascii =>
        have hc : c ≠ '\\' := fun heq => hunescaped (heq ▸ rfl)
        exact ⟨[c], rest, c, rfl, .plain hc hascii, (Except.ok.inj h).symm⟩
      next => cases h
    next => cases h
  · rintro ⟨body, rest, value, rfl, hbody, rfl⟩
    cases hbody with
    | plain _ hascii => simp [cutCharacter, hascii]
    | escaped hknown =>
      simp [cutCharacter, escape, unescape?_eq_some.mpr hknown, Outcome.ok_bind]

theorem quoted_of_textBody {start loc : Nat} {cs values : List Char} {taken : Nat}
    (h : textBody start loc cs = .ok (values, taken)) :
    ∃ body rest, cs = body ++ '"' :: rest ∧ Quoted body values ∧ taken = body.length + 1 := by
  fun_induction textBody start loc cs generalizing values taken with
  | case1 => cases h
  | case2 loc rest =>
    cases h
    exact ⟨[], rest, rfl, .nil, rfl⟩
  | case3 => cases h
  | case4 loc c cs ih =>
    obtain ⟨value, hvalue, h⟩ := Outcome.bind_eq_ok.mp h
    obtain ⟨⟨inner, count⟩, hinner, h⟩ := Outcome.bind_eq_ok.mp h
    cases h
    obtain ⟨_, _, heq, hknown⟩ := escape_eq_ok.mp hvalue
    cases heq
    obtain ⟨body, rest, rfl, hbody, rfl⟩ := ih hinner
    exact ⟨'\\' :: c :: body, rest, rfl, .escaped hknown hbody, rfl⟩
  | case5 loc c cs hquote hlast hescape ih =>
    have hunescaped : c ≠ '\\' := by
      rintro rfl
      cases cs with
      | nil => exact hlast rfl rfl
      | cons d cs => exact hescape d cs rfl rfl
    obtain ⟨⟨inner, count⟩, hinner, h⟩ := Outcome.bind_eq_ok.mp h
    cases h
    obtain ⟨body, rest, rfl, hbody, rfl⟩ := ih hinner
    exact ⟨c :: body, rest, rfl, .plain hunescaped hquote hbody, rfl⟩

theorem textBody_of_quoted {body values : List Char} (h : Quoted body values) (start loc : Nat)
    (rest : List Char) :
    textBody start loc (body ++ '"' :: rest) = .ok (values, body.length + 1) := by
  induction h generalizing loc with
  | nil => rfl
  | plain hunescaped hinside _ ih =>
    rw [List.cons_append, textBody, ih]
    · rfl
    · exact hinside
    · exact fun heq _ => hunescaped heq
    · exact fun _ _ heq _ => hunescaped heq
  | escaped hknown _ ih =>
    simp only [List.cons_append, textBody, escape, unescape?_eq_some.mpr hknown, Outcome.ok_bind,
      ih]
    rfl

theorem cutText_eq_ok {loc : Nat} {cs : List Char} {k : Cut} :
    cutText loc cs = .ok k ↔ ∃ body rest values, cs = body ++ '"' :: rest ∧
      Quoted body values ∧
      k = ⟨.token ⟨.text, String.ofList values, loc⟩, body.length + 1⟩ := by
  constructor
  · intro h
    obtain ⟨⟨values, taken⟩, hbody, h⟩ := Outcome.bind_eq_ok.mp h
    obtain ⟨body, rest, rfl, hquoted, rfl⟩ := quoted_of_textBody hbody
    exact ⟨body, rest, values, rfl, hquoted, (Except.ok.inj h).symm⟩
  · rintro ⟨body, rest, values, rfl, hquoted, rfl⟩
    rw [cutText, textBody_of_quoted hquoted]
    rfl

end Quotes

theorem isNamePart_of_isDigit {c : Char} (h : c.isDigit = true) : isNamePart c = true := by
  simp [isNamePart, Char.isAlphanum, h]

theorem isNamePart_of_isNameStart {c : Char} (h : isNameStart c = true) :
    isNamePart c = true := by
  simp only [isNameStart, isNamePart, Char.isAlphanum, Bool.or_eq_true] at h ⊢
  tauto

theorem isDigit_of_isNameStart {c : Char} (h : isNameStart c = true) : c.isDigit = false := by
  rcases Bool.or_eq_true_iff.mp h with hletter | hunderscore
  · unfold Char.isAlpha Char.isUpper Char.isLower at hletter
    unfold Char.isDigit
    grind
  · obtain rfl := eq_of_beq hunderscore
    rfl

/-- What is cut off as a token is the lexeme of that token. -/
theorem lexeme_of_cut {loc : Nat} {c : Char} {cs : List Char} {t : Token} {more : Nat}
    (h : cut loc c cs = .ok ⟨.token t, more⟩) :
    ∃ body rest, cs = body ++ rest ∧ more = body.length ∧ Lexeme t (c :: body) rest := by
  unfold cut at h
  split at h
  next kind hfixed =>
    -- A carriage return has the kind of a line feed, and is not how that kind is spelled.
    by_cases hreturn : c = '\r'
    · subst hreturn
      cases hfixed
      cases h
      exact ⟨[], cs, rfl, rfl, .carriageReturn loc cs⟩
    · obtain ⟨s, hs, hprefix, hlongest⟩ := longest_of_fixed? hreturn hfixed
      obtain ⟨rest, hsplit⟩ := hprefix
      obtain ⟨_, body, rfl, -⟩ := exists_head hs
      cases hsplit
      have ht : Token.fixed kind loc = ⟨kind, String.ofList (c :: body), loc⟩ := by
        simp [Token.fixed, Kind.spelling?, hs]
      simp only [ht, hs, Option.getD_some, List.length_cons, Nat.add_sub_cancel, Except.ok.injEq,
        Cut.mk.injEq, Piece.token.injEq] at h
      obtain ⟨rfl, rfl⟩ := h
      exact ⟨body, rest, rfl, rfl, .fixed loc hs hlongest⟩
  next =>
    split_ifs at h with hcomment hdigit hquote htext hname
    · obtain ⟨_, _, _, _, heq⟩ := cutComment_eq_ok.mp h
      cases heq
    · obtain ⟨ds, rest, hsplit, hinside, hends, heq⟩ := cutInteger_eq_ok.mp h
      cases heq
      refine ⟨ds, rest, hsplit, rfl, .integer loc (List.cons_ne_nil _ _) ?_ hends⟩
      exact List.forall_mem_cons.mpr ⟨hdigit, hinside⟩
    · obtain ⟨body, rest, value, hsplit, hinside, heq⟩ := cutCharacter_eq_ok.mp h
      cases heq
      obtain rfl := eq_of_beq hquote
      exact ⟨body ++ ['\''], rest, by simp [hsplit], by simp, .character loc rest hinside⟩
    · obtain ⟨body, rest, values, hsplit, hinside, heq⟩ := cutText_eq_ok.mp h
      cases heq
      obtain rfl := eq_of_beq htext
      exact ⟨body ++ ['"'], rest, by simp [hsplit], by simp, .text loc rest hinside⟩
    · obtain ⟨ds, rest, kind, hsplit, hinside, hends, hkind, heq⟩ :=
        cutWord_eq_iff.mp (Except.ok.inj h)
      cases heq
      exact ⟨ds, rest, hsplit, rfl, .word loc hname hinside hends hkind⟩

theorem cut_of_lexeme {t : Token} {cs rest : List Char} (h : Lexeme t cs rest) :
    ∃ c body, cs = c :: body ∧ cut t.loc c (body ++ rest) = .ok ⟨.token t, body.length⟩ := by
  cases h with
  | @fixed kind cs _ loc hs hlongest =>
    obtain ⟨c, body, rfl, -⟩ := exists_head hs
    have hfixed := fixed?_of_longest hs hlongest
    rw [List.cons_append] at hfixed
    refine ⟨c, body, rfl, ?_⟩
    simp [cut, hfixed, Token.fixed, Kind.spelling?, hs]
  | carriageReturn loc => exact ⟨'\r', [], rfl, rfl⟩
  | @integer cs _ loc hnonempty hdigits hends =>
    obtain ⟨c, body, rfl⟩ := List.exists_cons_of_ne_nil hnonempty
    obtain ⟨hdigit, hinside⟩ := List.forall_mem_cons.mp hdigits
    have hcomment : c ≠ '#' := by
      rintro rfl
      cases hdigit
    refine ⟨c, body, rfl, ?_⟩
    rw [cut, fixed?_eq_none (.inr (isNamePart_of_isDigit hdigit))]
    simpa [hcomment, hdigit] using cutInteger_eq_ok.mpr ⟨body, rest, rfl, hinside, hends, rfl⟩
  | @word c body _ kind loc hstarts hinside hends hkind =>
    have hdigit := isDigit_of_isNameStart hstarts
    have hother : c ≠ '#' ∧ c ≠ '\'' ∧ c ≠ '"' := by
      refine ⟨?_, ?_, ?_⟩ <;> rintro rfl <;> cases hstarts
    have hword : cutWord loc c (body ++ rest) = _ :=
      cutWord_eq_iff.mpr ⟨body, rest, kind, rfl, hinside, hends, hkind, rfl⟩
    refine ⟨c, body, rfl, ?_⟩
    rw [cut, fixed?_eq_none (.inr (isNamePart_of_isNameStart hstarts))]
    simp [hother, hdigit, hstarts, hword]
  | @character body value loc _ hinside =>
    refine ⟨'\'', body ++ ['\''], rfl, ?_⟩
    rw [cut, fixed?_eq_none (.inl (by decide))]
    exact cutCharacter_eq_ok.mpr ⟨body, rest, value, by simp, hinside, by simp⟩
  | @text body values loc _ hinside =>
    refine ⟨'"', body ++ ['"'], rfl, ?_⟩
    rw [cut, fixed?_eq_none (.inl (by decide))]
    exact cutText_eq_ok.mpr ⟨body, rest, values, by simp, hinside, by simp⟩

theorem comment_of_cut {loc : Nat} {c : Char} {cs : List Char} {start stop more : Nat}
    (h : cut loc c cs = .ok ⟨.comment start stop, more⟩) :
    ∃ body rest, c = '#' ∧ cs = body ++ '\n' :: rest ∧ more = body.length ∧ '\n' ∉ body := by
  unfold cut at h
  split at h
  next => cases h
  next =>
    split_ifs at h with hcomment hdigit hquote htext hname
    · obtain ⟨body, rest, hsplit, hinside, heq⟩ := cutComment_eq_ok.mp h
      cases heq
      exact ⟨body, rest, eq_of_beq hcomment, hsplit, rfl, hinside⟩
    · obtain ⟨_, _, _, _, _, heq⟩ := cutInteger_eq_ok.mp h
      cases heq
    · obtain ⟨_, _, _, _, _, heq⟩ := cutCharacter_eq_ok.mp h
      cases heq
    · obtain ⟨_, _, _, _, _, heq⟩ := cutText_eq_ok.mp h
      cases heq
    · cases h

theorem cut_of_comment {body : List Char} (h : '\n' ∉ body) (loc : Nat) (rest : List Char) :
    cut loc '#' (body ++ '\n' :: rest) =
      .ok ⟨.comment loc (loc + 1 + Text.byteWidth body), body.length⟩ := by
  rw [cut, fixed?_eq_none (.inl (by decide))]
  exact cutComment_eq_ok.mpr ⟨body, rest, rfl, h, rfl⟩

theorem tiles_of_pieces {loc : Nat} {cs : List Char} (h : (pieces loc cs).2 = none) :
    Tiles loc cs ((pieces loc cs).1.filterMap Piece.token?) := by
  fun_induction pieces loc cs with
  | case1 loc => exact .done loc
  | case2 => cases h
  | case3 loc c cs piece more hcut rest fault? hrest ih =>
    rw [hrest] at ih
    have hothers := ih h
    cases piece with
    | token t =>
      obtain rfl := cut_loc hcut
      obtain ⟨body, after, rfl, rfl, hlexeme⟩ := lexeme_of_cut hcut
      rw [List.take_left, List.drop_left] at hothers
      exact .token hlexeme hothers
    | comment start stop =>
      obtain ⟨body, after, rfl, rfl, rfl, hinside⟩ := comment_of_cut hcut
      rw [List.take_left, List.drop_left] at hothers
      exact .comment hinside hothers

/-- No other tokens cover the same characters, since each lexeme is cut off as it is. -/
theorem pieces_of_tiles {loc : Nat} {cs : List Char} {ts : List Token} (h : Tiles loc cs ts) :
    (pieces loc cs).2 = none ∧ (pieces loc cs).1.filterMap Piece.token? = ts := by
  induction h with
  | done loc => rw [pieces]; exact ⟨rfl, rfl⟩
  | token hlexeme _ ih =>
    obtain ⟨c, body, rfl, hcut⟩ := cut_of_lexeme hlexeme
    rw [List.cons_append, pieces, hcut]
    simp only [List.take_left, List.drop_left]
    exact ⟨ih.1, congrArg _ ih.2⟩
  | @comment loc cs rest ts hinside _ ih =>
    rw [List.cons_append, pieces, cut_of_comment hinside]
    simp only [List.take_left, List.drop_left]
    exact ih

theorem tiles_of_scan {source : String} {ts : List Token} (h : (scan source).result = .ok ts) :
    Tiles 0 source.toList ts := by
  unfold scan at h
  dsimp only at h
  split at h
  next => cases h
  next hnone =>
    cases h
    exact tiles_of_pieces hnone

theorem scan_of_tiles {source : String} {ts : List Token} (h : Tiles 0 source.toList ts) :
    (scan source).result = .ok ts := by
  obtain ⟨hnone, htokens⟩ := pieces_of_tiles h
  simp only [scan, hnone, htokens]

/-- A source has tokens just when lexemes and comments cover it, and they are those lexemes'. They
stand one after the other. -/
theorem scan_iff_tiles (source : String) (ts : List Token) :
    ((scan source).result = .ok ts ↔ Tiles 0 source.toList ts) ∧
      (Tiles 0 source.toList ts → (ts.map Token.loc).Pairwise (· < ·)) := by
  refine ⟨⟨tiles_of_scan, scan_of_tiles⟩, fun h => ?_⟩
  exact scan_sorted (scan_of_tiles h)

end ProcLang.Token
