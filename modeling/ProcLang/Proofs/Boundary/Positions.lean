import ProcLang.Proofs.Boundary.Scan

/-! The line of an offset starts and ends between characters, wherever the offset is. So no slice of
a source is refused, neither in a scan nor in a report. -/
namespace ProcLang

namespace Source

theorem dropLines_suffix (n : Nat) (cs : List Char) : dropLines n cs <:+ cs := by
  induction n generalizing cs with
  | zero => exact List.suffix_refl cs
  | succ n ih =>
    exact (ih _).trans ((List.drop_suffix 1 _).trans (List.dropWhile_suffix _))

end Source

namespace Indexed

open Text (bytes byteWidth byteSlice? slice?)
open Source (newline Position dropLines linesBefore columnBytes)

theorem lineStart_add_columnBytes (before : List UInt8) :
    lineStart before + (columnBytes before).length = before.length := by
  rw [lineStart, columnBytes, List.length_reverse]
  have hle := (List.takeWhile_sublist (· != newline) (l := before.reverse)).length_le
  rw [List.length_reverse] at hle
  omega

theorem lineStart_eq (before : List UInt8) : lineStart before = (linesBefore before).length := by
  have hsplit := congrArg List.length (Source.linesBefore_append_columnBytes before)
  rw [List.length_append, ← lineStart_add_columnBytes before] at hsplit
  omega

/-- The line of an offset starts between characters, even if the offset is inside of one. -/
theorem stands_lineStart (source : String) (loc : Nat) :
    Stands source (lineStart ((bytes source).take loc))
      (dropLines (((bytes source).take loc).count newline) source.toList) := by
  generalize hbefore : (bytes source).take loc = before
  obtain ⟨rest, hsplit⟩ :
      ∃ rest, bytes source = linesBefore before ++ (columnBytes before ++ rest) := by
    refine ⟨(bytes source).drop loc, ?_⟩
    rw [← List.append_assoc, Source.linesBefore_append_columnBytes, ← hbefore,
      List.take_append_drop]
  -- The bytes of the lines before end with a newline, which is a character of its own, so that as
  -- many lines of characters have these bytes.
  have hencode := Source.encode_dropLines hsplit (Source.last_linesBefore before)
  rw [Source.count_linesBefore] at hencode
  obtain ⟨front, hfront⟩ := Source.dropLines_suffix (before.count newline) source.toList
  refine ⟨front, hfront.symm, ?_⟩
  have htotal : byteWidth front + byteWidth (dropLines (before.count newline) source.toList) =
      (bytes source).length := by
    rw [← Text.byteWidth_append, hfront, bytes, Text.length_encode]
  rw [← Text.length_encode (dropLines _ _), hencode, hsplit, List.length_append,
    List.length_append, List.length_append, ← lineStart_eq] at htotal
  omega

/-- What follows an index where a character starts is cut at its first newline, or not at all. -/
theorem slice?_line (cs : List Char) :
    slice? (String.ofList cs) 0 ((bytes (String.ofList cs)).takeWhile (· != newline)).length =
      some (String.ofList (cs.takeWhile (· != '\n'))) := by
  have hstands : Stands (String.ofList cs) 0
      (cs.takeWhile (· != '\n') ++ cs.dropWhile (· != '\n')) := by
    have hzero := Stands.zero (String.ofList cs)
    rw [String.toList_ofList] at hzero
    rwa [List.takeWhile_append_dropWhile]
  rw [bytes, String.toList_ofList, ← Source.encode_takeWhile, Text.length_encode]
  exact Nat.zero_add (byteWidth _) ▸ hstands.slice?_eq

theorem position_eq (source : String) (loc : Nat) :
    position source loc = some (Position.ofOffset source loc) := by
  have hstands := stands_lineStart source loc
  have hcolumn := lineStart_add_columnBytes ((bytes source).take loc)
  have htake : (bytes source).take (min loc (bytes source).length) = (bytes source).take loc := by
    rw [List.take_eq_take_iff]
    omega
  have hbefore : byteSlice? (bytes source) 0 (min loc (bytes source).length) =
      some ((bytes source).take loc) := by
    rw [byteSlice?, if_pos ⟨Nat.zero_le _, Nat.min_le_right _ _⟩, htake]
    rfl
  rw [List.length_take] at hcolumn
  generalize hlines : (bytes source).take loc = before at *
  have hrest : slice? source (lineStart before) (bytes source).length =
      some (String.ofList (dropLines (before.count newline) source.toList)) := by
    rw [hstands.length_bytes]
    exact Stands.slice?_eq (by rwa [List.append_nil])
  have hmarked : byteSlice? (bytes source) (lineStart before) (min loc (bytes source).length) =
      some (columnBytes before) := by
    rw [byteSlice?, if_pos ⟨by omega, Nat.min_le_right _ _⟩, htake, lineStart_eq]
    nth_rewrite 2 [← Source.linesBefore_append_columnBytes before]
    rw [List.drop_left]
  have hwidth : min loc (bytes source).length - lineStart before = (columnBytes before).length := by
    omega
  simp only [position, hbefore, hrest, hmarked, hwidth, slice?_line, String.toList_ofList,
    Option.bind_eq_bind, Option.bind_some, Option.pure_def]
  subst hlines
  rfl

theorem report_eq (source : String) (fault : Fault) :
    report source fault = some (Source.Report.ofFault source fault) := by
  cases fault with
  | located loc cause =>
    rw [report, position_eq]
    rfl
  | internal breach => rfl

theorem warning_eq (source : String) (loc : Nat) (message : String) :
    warning source loc message = some (Source.WarningReport.ofOffset source loc message) := by
  rw [warning, position_eq]
  rfl

/-- No slice of a source is refused: each is in range, and those of the text are between characters.
Scanning stands between characters before each piece, and comes to the tokens or to the fault
whatever the source holds. Every offset can be shown, also one inside a character or past the
end. -/
theorem slices_on_boundaries (source : String) :
    (∀ pos, Head source pos →
      pos ≤ (bytes source).length ∧ String.Pos.Raw.IsValid source ⟨pos⟩ ∧
      ∀ b, byteAt? source pos = some b → ∃ r, cut source pos b = settled r) ∧
    scan source = some (Token.scan source) ∧
    (∀ loc, let start := lineStart ((bytes source).take loc)
      start ≤ min loc (bytes source).length ∧ String.Pos.Raw.IsValid source ⟨start⟩ ∧
      position source loc = some (Position.ofOffset source loc)) ∧
    (∀ fault, report source fault = some (Source.Report.ofFault source fault)) ∧
    ∀ loc message,
      warning source loc message = some (Source.WarningReport.ofOffset source loc message) := by
  refine ⟨fun pos hhead => ?_, scan_eq source, fun loc => ?_, report_eq source, warning_eq source⟩
  · obtain ⟨cs, hstands⟩ := hhead.stands
    have hsize := hstands.length_bytes
    refine ⟨by omega, hstands.isValid, fun b hb => ?_⟩
    cases cs with
    | nil => exact absurd (hb.symm.trans hstands.byteAt?_eq) nofun
    | cons c cs => exact ⟨_, cut_eq hstands hb⟩
  · have hcolumn := lineStart_add_columnBytes ((bytes source).take loc)
    rw [List.length_take] at hcolumn
    exact ⟨by omega, (stands_lineStart source loc).isValid, position_eq source loc⟩

end Indexed

end ProcLang
