/-! Signed decimal numerals of 64 bits. -/
namespace ProcLang.Text

/-- The value of a numeral without sign: one or more ASCII digits. -/
def digits? (cs : List Char) : Option Nat :=
  if cs.isEmpty || !cs.all Char.isDigit then none
  else some (cs.foldl (fun n c => 10 * n + (c.toNat - '0'.toNat)) 0)

/-- The value of a numeral with at most one sign in front. -/
def integer? : List Char → Option Int
  | '-' :: cs => (digits? cs).map fun n => -(n : Int)
  | '+' :: cs => (digits? cs).map Int.ofNat
  | cs => (digits? cs).map Int.ofNat

/-- The word that a numeral denotes, if the value fits into 64 bits. -/
def int64? (s : String) : Option Int64 :=
  (integer? s.toList).bind fun n =>
    if -0x8000000000000000 ≤ n ∧ n < 0x8000000000000000 then some (Int64.ofInt n) else none

end ProcLang.Text
