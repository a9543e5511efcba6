import ProcLang.Proofs.Lexing.Bytes
import ProcLang.Source.Report

/-! Scanning a source and locating its offsets by byte index, with a check of every slice. A text
can be cut only between characters, and bytes only where there are any. -/
namespace ProcLang

namespace Text

/-- Some of the bytes. The indices must be in range. -/
def byteSlice? (bs : List UInt8) (start stop : Nat) : Option (List UInt8) :=
  if start ≤ stop ∧ stop ≤ bs.length then some ((bs.take stop).drop start) else none

/-- A part of a text. The indices must be in range and between characters. -/
def slice? (s : String) (start stop : Nat) : Option String :=
  if start ≤ stop ∧ String.Pos.Raw.IsValid s ⟨start⟩ ∧ String.Pos.Raw.IsValid s ⟨stop⟩ then
    some (decodeLossy (((bytes s).take stop).drop start))
  else none

end Text

namespace Indexed

open Text (bytes byteSlice? slice?)
open Token (Cut Piece unescapeByte?)
open Source (newline Position)

/-- What may have no result, where a slice is refused, or end with a fault of the source. -/
abbrev Checked (α : Type) := ExceptT Fault Option α

/-- A result that no slice stands in the way of. -/
def settled (r : Except Fault α) : Checked α :=
  ExceptT.mk (some r)

/-- The character that a byte stands for by itself. -/
def charOf (b : UInt8) : Char :=
  Char.ofNat b.toNat

/-- The byte of an ASCII character. -/
def byteOf (c : Char) : UInt8 :=
  UInt8.ofNat c.toNat

section

variable (source : String)

def byteAt? (pos : Nat) : Option UInt8 :=
  (bytes source)[pos]?

/-- How many bytes of a class follow each other from an index on. -/
def spanFrom (p : Char → Bool) (pos : Nat) : Nat :=
  (((bytes source).drop pos).takeWhile fun b => p (charOf b)).length

/-- The first character of what follows an index. -/
def charAt (pos : Nat) : Checked Char := do
  let rest ← slice? source pos (bytes source).length
  return rest.toList.headD '\x00'

/-- The kind that is spelled from an index on, the longest if there are two. -/
def fixedAt? (pos : Nat) : Option Token.Kind :=
  if byteAt? source pos = some (byteOf '\r') then some (.blank .newline)
  else Token.fixedKinds.find? fun kind =>
    kind.chars?.any fun cs => (cs.map byteOf).isPrefixOf ((bytes source).drop pos)

def cutComment (pos : Nat) : Checked Cut := do
  let rest ← byteSlice? (bytes source) pos (bytes source).length
  if newline ∈ rest then
    let length := (rest.takeWhile (· != newline)).length
    return ⟨.comment pos (pos + length), length - 1⟩
  else throw (.located (bytes source).length .unendedComment)

def cutInteger (pos : Nat) : Checked Cut := do
  let more := spanFrom source Char.isDigit (pos + 1)
  if (byteAt? source (pos + 1 + more)).any fun b => (charOf b).isAlpha then
    throw (.located (pos + 1 + more) .invalidDigit)
  else
    let text ← slice? source pos (pos + 1 + more)
    return ⟨.token ⟨.integer, text, pos⟩, more⟩

def cutWord (pos : Nat) : Checked Cut := do
  let more := spanFrom source Token.isNamePart (pos + 1)
  let text ← slice? source pos (pos + 1 + more)
  return ⟨.token ⟨.ofWord text, text, pos⟩, more⟩

/-- The byte that the one at `pos`, or the escape there, stands for, and how many more bytes it
takes. -/
def literalByte (pos : Nat) (b : UInt8) : Checked (UInt8 × Nat) :=
  if b ≠ byteOf '\\' then return (b, 0)
  else
    match byteAt? source (pos + 1) with
    | none => throw (.located (pos + 1) .unendedEscape)
    | some escaped =>
      match unescapeByte? escaped with
      | some value => return (value, 1)
      | none => do
        let shown ← charAt source (pos + 1)
        throw (.located (pos + 1) (.invalidEscape shown))

def cutCharacter (pos : Nat) : Checked Cut :=
  match byteAt? source (pos + 1) with
  | none => throw (.located pos .unendedCharacter)
  | some b => do
    let (value, more) ← literalByte source (pos + 1) b
    if byteAt? source (pos + 2 + more) = some (byteOf '\'') then
      return ⟨.token ⟨.character, (charOf value).toString, pos⟩, more + 2⟩
    else throw (.located pos .unendedCharacter)

/-- The bytes of a string literal opened at `start`, from `pos` on, and the index behind it. It goes
through characters of more than one byte as through any others. -/
def textBody (start pos : Nat) : Checked (List UInt8 × Nat) :=
  match _hb : byteAt? source pos with
  | none => throw (.located start .unendedText)
  | some b =>
    if b = byteOf '"' then return ([], pos + 1)
    else do
      let (value, more) ← literalByte source pos b
      let (values, stop) ← textBody start (pos + 1 + more)
      return (value :: values, stop)
termination_by (bytes source).length - pos
decreasing_by
  have := (List.getElem?_eq_some_iff.mp _hb).1
  omega

theorem textBody_none {start pos : Nat} (h : byteAt? source pos = none) :
    textBody source start pos = throw (.located start .unendedText) := by
  rw [textBody]
  split
  · rfl
  · simp_all

theorem textBody_some {start pos : Nat} {b : UInt8} (h : byteAt? source pos = some b) :
    textBody source start pos =
      if b = byteOf '"' then return ([], pos + 1)
      else do
        let (value, more) ← literalByte source pos b
        let (values, stop) ← textBody source start (pos + 1 + more)
        return (value :: values, stop) := by
  rw [textBody]
  split
  · simp_all
  · simp_all

def cutText (pos : Nat) : Checked Cut := do
  let (values, stop) ← textBody source pos (pos + 1)
  return ⟨.token ⟨.text, Text.decodeLossy values, pos⟩, stop - (pos + 1)⟩

/-- The piece that starts with the byte `b` at `pos`, and how many more bytes it takes. -/
def cut (pos : Nat) (b : UInt8) : Checked Cut :=
  match fixedAt? source pos with
  | some kind => return ⟨.token (.fixed kind pos), (kind.chars?.getD []).length - 1⟩
  | none =>
    if b = byteOf '#' then cutComment source pos
    else if (charOf b).isDigit then cutInteger source pos
    else if b = byteOf '\'' then cutCharacter source pos
    else if b = byteOf '"' then cutText source pos
    else if Token.isNameStart (charOf b) then cutWord source pos
    else do
      let shown ← charAt source pos
      throw (.located pos (.malformedToken shown))

/-- All pieces from `pos` on, up to the first fault. -/
def pieces (pos : Nat) : Option (List Piece × Option Fault) :=
  match _hb : byteAt? source pos with
  | none => some ([], none)
  | some b => do
    match ← (cut source pos b).run with
    | .error fault => return ([], some fault)
    | .ok ⟨piece, more⟩ =>
      let (rest, fault?) ← pieces (pos + 1 + more)
      return (piece :: rest, fault?)
termination_by (bytes source).length - pos
decreasing_by
  have := (List.getElem?_eq_some_iff.mp _hb).1
  omega

theorem pieces_none {pos : Nat} (h : byteAt? source pos = none) :
    pieces source pos = some ([], none) := by
  rw [pieces]
  split
  · rfl
  · simp_all

theorem pieces_some {pos : Nat} {b : UInt8} (h : byteAt? source pos = some b) :
    pieces source pos = (do
      match ← (cut source pos b).run with
      | .error fault => return ([], some fault)
      | .ok ⟨piece, more⟩ =>
        let (rest, fault?) ← pieces source (pos + 1 + more)
        return (piece :: rest, fault?)) := by
  rw [pieces]
  split
  · simp_all
  · simp_all

/-- The tokens of the source. -/
def scan : Option (Traced (List Token)) := do
  let (parts, fault?) ← pieces source 0
  let comments := parts.filterMap Piece.event?
  match fault? with
  | some fault => return ⟨comments, .error fault⟩
  | none =>
    let tokens := parts.filterMap Piece.token?
    return ⟨comments ++ [.scanned tokens.length], .ok tokens⟩

/-- Where a piece is looked for: at the beginning, and behind each piece that is found. -/
inductive Head : Nat → Prop
  | first : Head 0
  | behind {pos : Nat} {b : UInt8} {piece : Piece} {more : Nat} (head : Head pos)
    (byte : byteAt? source pos = some b)
    (found : (cut source pos b).run = some (.ok ⟨piece, more⟩)) : Head (pos + 1 + more)

/-- The index behind the last newline of some bytes. -/
def lineStart (before : List UInt8) : Nat :=
  before.length - (before.reverse.takeWhile (· != newline)).length

/-- An offset as a reader sees it. -/
def position (loc : Nat) : Option Position := do
  let size := (bytes source).length
  let stop := min loc size
  let before ← byteSlice? (bytes source) 0 stop
  let start := lineStart before
  let rest ← slice? source start size
  let line ← slice? rest 0 ((bytes rest).takeWhile (· != newline)).length
  let column ← byteSlice? (bytes source) start stop
  return {
    line := before.count newline + 1
    column := stop - start
    lineText := String.ofList (Source.trimReturns line.toList)
    marker := Source.markerOf column }

/-- A fault as it is shown. -/
def report : Fault → Option Source.Report
  | .located loc cause => do
    let shown ← position source loc
    return .error ⟨cause.kind, cause.message, loc, shown⟩
  | .internal breach => return .internal breach.message

/-- A warning as it is shown. -/
def warning (loc : Nat) (message : String) : Option Source.WarningReport := do
  let shown ← position source loc
  return ⟨message, loc, shown.line, shown.column⟩

end

end Indexed

end ProcLang
