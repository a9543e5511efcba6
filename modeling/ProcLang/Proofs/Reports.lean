import Mathlib.Data.List.DropRight
import ProcLang.Proofs.Strings.Encoding
import ProcLang.Source.Report

/-! Lines, columns and markers of reports, said by the bytes of the source. Newlines cut the bytes
into lines as they cut the characters, because no other character has the byte of a newline. -/
namespace ProcLang

namespace Text

/-- The byte of an ASCII character is in the encoding of that character only. -/
theorem mem_encodeChar {c d : Char} (hd : d.toNat < 128) :
    UInt8.ofNat d.toNat ∈ String.utf8EncodeChar c ↔ c = d := by
  constructor
  · intro hmem
    by_contra hne
    rcases Nat.lt_or_ge c.toNat 128 with hascii | hhigh
    · rw [encodeChar_ascii hascii, List.mem_singleton] at hmem
      exact byte_ne hascii hd hne hmem.symm
    · have hbyte := high_of_mem_encodeChar hhigh _ hmem
      rw [toNat_byte (by omega)] at hbyte
      omega
  · rintro rfl
    rw [encodeChar_ascii hd]
    exact List.mem_singleton_self _

theorem encodeChar_ne_nil (c : Char) : String.utf8EncodeChar c ≠ [] := by
  intro hnil
  have hlength := String.length_utf8EncodeChar c
  have hpos := c.utf8Size_pos
  rw [hnil, List.length_nil] at hlength
  omega

end Text

namespace Source

open Text

/-- The line of the offset `p` starts at `start`: at the beginning of the source or behind a
newline, with no newline from there up to `p`. -/
structure StartsLine (bs : List UInt8) (p start : Nat) : Prop where
  le : start ≤ p
  begins : start = 0 ∨ bs[start - 1]? = some newline
  inside : ∀ i, start ≤ i → i < p → bs[i]? ≠ some newline

/-- The line that starts at `start`, up to the next newline or to the end. -/
def lineBytes (bs : List UInt8) (start : Nat) : List UInt8 :=
  (bs.drop start).takeWhile (· != newline)

/-- The bytes of a line are those of a text, and carriage returns that end the line. -/
def Trimmed (line text : List UInt8) : Prop :=
  text.getLast? ≠ some 13 ∧ ∃ n, line = text ++ List.replicate n 13

/-- How a position shows the offset `p`, whose line starts at `start`. -/
structure Shows (bs : List UInt8) (p start : Nat) (pos : Position) : Prop where
  starts : StartsLine bs p start
  line : pos.line = 1 + (bs.take p).count newline
  column : start + pos.column = p
  text : Trimmed (lineBytes bs start) (Text.bytes pos.lineText)
  marker : pos.marker.toList = (List.range pos.column).map
    (fun i => if (lineBytes bs start)[i]? = some tab then '\t' else ' ') ++ ['^']

/-! ### Bytes before an offset -/

/-- The whole lines at the front of some bytes. -/
def linesBefore (before : List UInt8) : List UInt8 :=
  (before.reverse.dropWhile (· != newline)).reverse

theorem linesBefore_append_columnBytes (before : List UInt8) :
    linesBefore before ++ columnBytes before = before := by
  unfold linesBefore columnBytes
  rw [← List.reverse_append, List.takeWhile_append_dropWhile, List.reverse_reverse]

theorem newline_notMem_columnBytes (before : List UInt8) : newline ∉ columnBytes before := by
  intro hmem
  unfold columnBytes at hmem
  have hne := List.mem_takeWhile_imp (List.mem_reverse.mp hmem)
  simp at hne

theorem last_linesBefore (before : List UInt8) :
    ∀ b ∈ (linesBefore before).getLast?, b = newline := by
  intro b hb
  unfold linesBefore at hb
  rw [List.getLast?_reverse] at hb
  cases hdrop : before.reverse.dropWhile (· != newline) with
  | nil =>
    rw [hdrop] at hb
    cases hb
  | cons c bs =>
    have hnot := List.head_dropWhile_not (· != newline) (l := before.reverse) (by simp [hdrop])
    simp only [hdrop, List.head_cons, bne_eq_false_iff_eq] at hnot
    rw [hdrop] at hb
    cases hb
    exact hnot

theorem count_linesBefore (before : List UInt8) :
    (linesBefore before).count newline = before.count newline := by
  have hcolumn : (columnBytes before).count newline = 0 :=
    List.count_eq_zero_of_not_mem (newline_notMem_columnBytes before)
  have hsplit := congrArg (List.count newline) (linesBefore_append_columnBytes before)
  rw [List.count_append, hcolumn] at hsplit
  exact hsplit

/-! ### Lines of characters and lines of bytes -/

theorem encode_takeWhile (cs : List Char) :
    (cs.takeWhile (· != '\n')).flatMap String.utf8EncodeChar =
      (cs.flatMap String.utf8EncodeChar).takeWhile (· != newline) := by
  induction cs with
  | nil => rfl
  | cons c cs ih =>
    by_cases hc : c = '\n'
    · subst hc
      rfl
    · have hclear : ∀ b ∈ String.utf8EncodeChar c, (b != newline) = true := by
        intro b hb
        rw [bne_iff_ne]
        rintro rfl
        exact hc ((mem_encodeChar (by decide)).mp hb)
      rw [List.takeWhile_cons_of_pos (by simpa using hc), List.flatMap_cons, List.flatMap_cons, ih,
        List.takeWhile_append_of_pos hclear]

theorem newline_notMem_encode_takeWhile (cs : List Char) :
    newline ∉ (cs.takeWhile (· != '\n')).flatMap String.utf8EncodeChar := by
  intro hmem
  rw [encode_takeWhile] at hmem
  simpa using List.mem_takeWhile_imp hmem

/-- The first newline of the bytes is that of the characters. -/
theorem exists_dropLine {cs : List Char} {lines rest : List UInt8}
    (hsplit : cs.flatMap String.utf8EncodeChar = lines ++ rest) (hmem : newline ∈ lines) :
    ∃ line more cs', cs.dropWhile (· != '\n') = '\n' :: cs' ∧ lines = line ++ newline :: more ∧
      newline ∉ line ∧ cs'.flatMap String.utf8EncodeChar = more ++ rest := by
  have hline := newline_notMem_encode_takeWhile cs
  have hcut := List.takeWhile_append_dropWhile (p := (· != '\n')) (l := cs)
  rw [← hcut, List.flatMap_append] at hsplit
  cases hdrop : cs.dropWhile (· != '\n') with
  | nil =>
    rw [hdrop, List.flatMap_nil, List.append_nil] at hsplit
    exact absurd (hsplit ▸ List.mem_append_left rest hmem) hline
  | cons c cs' =>
    have hnot := List.head_dropWhile_not (· != '\n') (l := cs) (by simp [hdrop])
    simp only [hdrop, List.head_cons, bne_eq_false_iff_eq] at hnot
    subst hnot
    rw [hdrop] at hsplit
    rcases List.append_eq_append_iff.mp hsplit with ⟨tail, hlines, htail⟩ | ⟨tail, hfront, -⟩
    · cases tail with
      | nil =>
        rw [List.append_nil] at hlines
        exact absurd (hlines ▸ hmem) hline
      | cons b more =>
        rw [List.flatMap_cons, List.cons_append] at htail
        obtain ⟨rfl, hmore⟩ := List.cons.inj htail
        exact ⟨_, more, cs', rfl, hlines, hline, hmore⟩
    · exact absurd (hfront ▸ List.mem_append_left tail hmem) hline

/-- Dropping lines of characters drops as many lines of bytes. -/
theorem encode_dropLines {cs : List Char} {lines rest : List UInt8}
    (hsplit : cs.flatMap String.utf8EncodeChar = lines ++ rest)
    (hlast : ∀ b ∈ lines.getLast?, b = newline) :
    (dropLines (lines.count newline) cs).flatMap String.utf8EncodeChar = rest := by
  induction hn : lines.count newline generalizing cs lines with
  | zero =>
    have hnil : lines = [] := by
      rcases List.eq_nil_or_concat lines with hnil | ⟨bs, b, rfl⟩
      · exact hnil
      · rw [List.concat_eq_append] at hlast hn
        have hb : b = newline := hlast b (by simp)
        simp [hb] at hn
    rw [hnil] at hsplit
    exact hsplit
  | succ n ih =>
    have hmem : newline ∈ lines := List.count_pos_iff.mp (by omega)
    obtain ⟨line, more, cs', hdrop, rfl, hline, hmore⟩ := exists_dropLine hsplit hmem
    have hcount : more.count newline = n := by
      rw [List.count_append, List.count_eq_zero_of_not_mem hline, List.count_cons_self] at hn
      omega
    have hlast' : ∀ b ∈ more.getLast?, b = newline := by
      intro b hb
      apply hlast b
      rw [List.getLast?_append, List.getLast?_cons, Option.mem_def.mp hb]
      rfl
    have hstep : dropLines (n + 1) cs = dropLines n cs' := by
      rw [dropLines, hdrop, List.drop_one, List.tail_cons]
    rw [hstep]
    exact ih hmore hlast' hcount

/-- Trimming takes carriage returns off the end, and all of them. -/
theorem trimmed_trimReturns (cs : List Char) :
    Trimmed (cs.flatMap String.utf8EncodeChar)
      ((trimReturns cs).flatMap String.utf8EncodeChar) := by
  constructor
  · intro hlast
    rcases List.eq_nil_or_concat (trimReturns cs) with hnil | ⟨ds, c, hconcat⟩
    · rw [hnil] at hlast
      cases hlast
    · rw [hconcat, List.concat_eq_append, List.flatMap_append, List.flatMap_singleton,
        List.getLast?_append, List.getLast?_eq_some_getLast (encodeChar_ne_nil c)] at hlast
      have hbyte : 13 ∈ String.utf8EncodeChar c :=
        Option.some.inj hlast ▸ List.getLast_mem (encodeChar_ne_nil c)
      have hc : c = '\r' := (mem_encodeChar (by decide)).mp hbyte
      have hnot := List.rdropWhile_last_not (· == '\r') cs
      change ∀ h : trimReturns cs ≠ [], ¬((trimReturns cs).getLast h == '\r') = true at hnot
      simp [hconcat, hc] at hnot
  · have hcut : trimReturns cs ++ (cs.reverse.takeWhile (· == '\r')).reverse = cs := by
      rw [trimReturns, ← List.reverse_append, List.takeWhile_append_dropWhile,
        List.reverse_reverse]
    have hreturns : ∀ c ∈ (cs.reverse.takeWhile (· == '\r')).reverse, c = '\r' := by
      intro c hc
      simpa using List.mem_takeWhile_imp (List.mem_reverse.mp hc)
    obtain ⟨n, hn⟩ : ∃ n, (cs.reverse.takeWhile (· == '\r')).reverse = List.replicate n '\r' :=
      ⟨_, List.eq_replicate_iff.mpr ⟨rfl, hreturns⟩⟩
    refine ⟨n, ?_⟩
    rw [hn] at hcut
    nth_rewrite 1 [← hcut]
    have hreturn : String.utf8EncodeChar '\r' = [13] := rfl
    rw [List.flatMap_append, List.flatMap_replicate, hreturn, List.flatten_replicate_singleton]

/-! ### Positions -/

theorem startsLine_of_append {lines column : List UInt8} (rest : List UInt8)
    (hlast : ∀ b ∈ lines.getLast?, b = newline) (hcolumn : newline ∉ column) :
    StartsLine (lines ++ (column ++ rest)) (lines.length + column.length) lines.length := by
  refine ⟨by omega, ?_, fun i hlow hhigh hbyte => ?_⟩
  · rcases List.eq_nil_or_concat lines with hnil | ⟨bs, b, hconcat⟩
    · left
      rw [hnil, List.length_nil]
    · right
      rw [List.concat_eq_append] at hconcat
      have hb : b = newline := hlast b (by simp [hconcat])
      rw [hconcat, hb]
      simp
  · rw [List.getElem?_append_right hlow, List.getElem?_append_left (by omega)] at hbyte
    exact hcolumn (List.mem_of_getElem? hbyte)

theorem toList_markerOf (column rest : List UInt8) :
    (markerOf column).toList = (List.range column.length).map
      (fun i => if (column ++ rest)[i]? = some tab then '\t' else ' ') ++ ['^'] := by
  rw [markerOf, String.toList_ofList]
  congr 1
  refine List.ext_getElem (by simp) fun i hi _ => ?_
  rw [List.length_map] at hi
  have hbyte : (column ++ rest)[i]? = some column[i] := by
    rw [List.getElem?_append_left hi, List.getElem?_eq_getElem hi]
  simp [hbyte]

theorem exists_shows (source : String) (loc : Nat) :
    ∃ start, Shows (bytes source) (min loc (bytes source).length) start
      (Position.ofOffset source loc) := by
  set before := (bytes source).take loc with hbefore
  set rest := (bytes source).drop loc with hrest
  have hlast := last_linesBefore before
  have hclear := newline_notMem_columnBytes before
  have hsplit : bytes source = linesBefore before ++ (columnBytes before ++ rest) := by
    rw [← List.append_assoc, linesBefore_append_columnBytes, List.take_append_drop]
  have hlength : min loc (bytes source).length =
      (linesBefore before).length + (columnBytes before).length := by
    rw [← List.length_append, linesBefore_append_columnBytes, List.length_take]
  have hdrop : (bytes source).drop (linesBefore before).length = columnBytes before ++ rest := by
    rw [hsplit, List.drop_left]
  refine ⟨(linesBefore before).length, ?_, ?_, hlength.symm, ?_, ?_⟩
  · rw [hlength]
    nth_rewrite 1 [hsplit]
    exact startsLine_of_append rest hlast hclear
  · have htake : (bytes source).take (min loc (bytes source).length) = before := by
      rw [hbefore, List.take_eq_take_iff]
      omega
    rw [htake, Nat.add_comm]
    rfl
  · have htrimmed := trimmed_trimReturns
      ((dropLines (before.count newline) source.toList).takeWhile (· != '\n'))
    rw [encode_takeWhile, ← count_linesBefore, encode_dropLines hsplit hlast] at htrimmed
    rw [lineBytes, hdrop, bytes, Position.ofOffset, lineAt, String.toList_ofList,
      ← count_linesBefore]
    exact htrimmed
  · have hline : (columnBytes before ++ rest).takeWhile (· != newline) =
        columnBytes before ++ rest.takeWhile (· != newline) := by
      refine List.takeWhile_append_of_pos fun b hb => ?_
      rw [bne_iff_ne]
      rintro rfl
      exact hclear hb
    rw [lineBytes, hdrop, hline]
    exact toList_markerOf _ _

/-- Between two offsets with as many newlines before them there is none. -/
theorem ne_newline_of_count_eq {bs : List UInt8} {p q : Nat} (hle : p ≤ q)
    (hcount : (bs.take p).count newline = (bs.take q).count newline) {i : Nat} (hlow : p ≤ i)
    (hhigh : i < q) : bs[i]? ≠ some newline := by
  intro hbyte
  have hsplit : bs.take q = bs.take p ++ (bs.drop p).take (q - p) := by
    rw [← List.take_add, Nat.add_sub_cancel' hle]
  have hnone : ((bs.drop p).take (q - p)).count newline = 0 := by
    rw [hsplit, List.count_append] at hcount
    omega
  have hbetween : ((bs.drop p).take (q - p))[i - p]? = some newline := by
    rw [List.getElem?_take_of_lt (by omega), List.getElem?_drop, Nat.add_sub_cancel' hlow]
    exact hbyte
  exact List.count_eq_zero.mp hnone (List.mem_of_getElem? hbetween)

theorem StartsLine.unique {bs : List UInt8} {p q start start' : Nat} (hle : p ≤ q)
    (h : StartsLine bs p start) (h' : StartsLine bs q start')
    (hcount : (bs.take p).count newline = (bs.take q).count newline) : start = start' := by
  rcases Nat.lt_trichotomy start start' with hlt | heq | hgt
  · have hbyte := h'.begins.resolve_left (by omega)
    have hle' := h'.le
    by_cases hp : start' - 1 < p
    · exact absurd hbyte (h.inside _ (by omega) hp)
    · exact absurd hbyte (ne_newline_of_count_eq hle hcount (by omega) (by omega))
  · exact heq
  · have hbyte := h.begins.resolve_left (by omega)
    have hle' := h.le
    exact absurd hbyte (h'.inside _ (by omega) (by omega))

/-- Later offsets are shown on later lines, or on the same line at later columns. -/
theorem Shows.lt {bs : List UInt8} {p q start start' : Nat} {pos pos' : Position}
    (h : Shows bs p start pos) (h' : Shows bs q start' pos') (hlt : p < q) :
    pos.line < pos'.line ∨ pos.line = pos'.line ∧ pos.column < pos'.column := by
  have hprefix : bs.take p <+: bs.take q := List.take_prefix_take_left (by omega)
  have hcount := hprefix.sublist.count_le newline
  have hline := h.line
  have hline' := h'.line
  by_cases heq : (bs.take p).count newline = (bs.take q).count newline
  · right
    have hstart := StartsLine.unique (by omega) h.starts h'.starts heq
    have hcolumn := h.column
    have hcolumn' := h'.column
    omega
  · left
    omega

theorem Shows.same {bs : List UInt8} {p start start' : Nat} {pos pos' : Position}
    (h : Shows bs p start pos) (h' : Shows bs p start' pos') :
    pos.line = pos'.line ∧ pos.column = pos'.column := by
  have hstart := StartsLine.unique le_rfl h.starts h'.starts rfl
  have hcolumn := h.column
  have hcolumn' := h'.column
  refine ⟨?_, by omega⟩
  rw [h.line, h'.line]

/-- Reports show offsets as they are, those past the end as the end. The line is counted by the
newlines before the offset, the column by the bytes from the start of that line, and the text is
that of the line without carriage returns at its end. The marker has a blank for each byte of the
column, tabs for tabs, and a caret. Lines and columns grow with the offset, and warnings have the
same ones. -/
theorem reports_faithful (source : String) (kind : ErrorKind) (loc : Nat) (message : String) :
    let size := (bytes source).length
    let shown := (ErrorReport.ofOffset source kind loc message).position
    let warning := WarningReport.ofOffset source loc message
    (∃ start, Shows (bytes source) (min loc size) start shown) ∧
    (warning.line = shown.line ∧ warning.column = shown.column) ∧
    ∀ kind' loc' message',
      let shown' := (ErrorReport.ofOffset source kind' loc' message').position
      (min loc size = min loc' size ↔ shown.line = shown'.line ∧ shown.column = shown'.column) ∧
      (min loc size < min loc' size ↔
        shown.line < shown'.line ∨ shown.line = shown'.line ∧ shown.column < shown'.column) := by
  intro size shown warning
  obtain ⟨start, hshown⟩ : ∃ start, Shows (bytes source) (min loc size) start shown :=
    exists_shows source loc
  refine ⟨⟨start, hshown⟩, ⟨rfl, rfl⟩, fun kind' loc' message' => ?_⟩
  intro shown'
  obtain ⟨start', hshown'⟩ : ∃ start, Shows (bytes source) (min loc' size) start shown' :=
    exists_shows source loc'
  rcases Nat.lt_trichotomy (min loc size) (min loc' size) with hlt | heq | hgt
  · have hlater := hshown.lt hshown' hlt
    omega
  · rw [← heq] at hshown'
    have hsame := hshown.same hshown'
    omega
  · have hearlier := hshown'.lt hshown hgt
    omega

end Source

end ProcLang
