import ProcLang.Text.Utf8

/-! Lines and columns of byte offsets. -/
namespace ProcLang.Source

def newline : UInt8 := 10

def tab : UInt8 := 9

/-- A byte offset as a reader sees it. Lines count from one. The column is the number of bytes
before the offset on its line. -/
structure Position where
  line : Nat
  column : Nat
  /-- The whole line, without carriage returns at its end. -/
  lineText : String
  /-- A caret below the offset: one blank for each byte before it, tabs kept. -/
  marker : String
  deriving DecidableEq, Repr

/-- What follows the first `n` newlines. -/
def dropLines : Nat → List Char → List Char
  | 0, cs => cs
  | n + 1, cs => dropLines n ((cs.dropWhile (· != '\n')).drop 1)

def trimReturns (cs : List Char) : List Char :=
  (cs.reverse.dropWhile (· == '\r')).reverse

/-- The line with the given number of newlines before it. -/
def lineAt (source : String) (n : Nat) : String :=
  String.ofList (trimReturns ((dropLines n source.toList).takeWhile (· != '\n')))

/-- The bytes that precede an offset on its line. -/
def columnBytes (before : List UInt8) : List UInt8 :=
  (before.reverse.takeWhile (· != newline)).reverse

def markerOf (column : List UInt8) : String :=
  String.ofList (column.map (fun b => if b = tab then '\t' else ' ') ++ ['^'])

namespace Position

/-- Offsets past the end stand for the end. -/
def ofOffset (source : String) (offset : Nat) : Position :=
  let before := (Text.bytes source).take offset
  let column := columnBytes before
  { line := before.count newline + 1
    column := column.length
    lineText := lineAt source (before.count newline)
    marker := markerOf column }

end Position

end ProcLang.Source
