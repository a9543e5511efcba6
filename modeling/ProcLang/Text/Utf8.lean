/-! UTF-8: widths, encoding, and decoding that replaces what is ill formed. -/
namespace ProcLang.Text

/-- Bytes that the characters take in UTF-8. -/
def byteWidth (cs : List Char) : Nat :=
  cs.foldr (fun c width => c.utf8Size + width) 0

/-- The UTF-8 encoding of a text. -/
def bytes (s : String) : List UInt8 :=
  s.toList.flatMap String.utf8EncodeChar

/-- A character whose lead byte has been read. The next byte must lie between `low` and `high`;
`more` further bytes follow it. -/
structure Unfinished where
  value : Nat
  low : UInt8
  high : UInt8
  more : Nat

/-- What a byte means between characters. -/
inductive Lead where
  | scalar (c : Char)
  | opens (p : Unfinished)
  | stray

/-- The narrowed ranges after `E0`, `ED`, `F0` and `F4` exclude overlong forms, surrogates and
values past the last code point. -/
def lead (b : UInt8) : Lead :=
  if b < 0x80 then .scalar (Char.ofNat b.toNat)
  else if b < 0xC2 then .stray
  else if b < 0xE0 then .opens ⟨b.toNat - 0xC0, 0x80, 0xBF, 0⟩
  else if b = 0xE0 then .opens ⟨0, 0xA0, 0xBF, 1⟩
  else if b = 0xED then .opens ⟨0xD, 0x80, 0x9F, 1⟩
  else if b < 0xF0 then .opens ⟨b.toNat - 0xE0, 0x80, 0xBF, 1⟩
  else if b = 0xF0 then .opens ⟨0, 0x90, 0xBF, 2⟩
  else if b < 0xF4 then .opens ⟨b.toNat - 0xF0, 0x80, 0xBF, 2⟩
  else if b = 0xF4 then .opens ⟨4, 0x80, 0x8F, 2⟩
  else .stray

/-- Stands for one ill-formed part. -/
def replacement : Char := Char.ofNat 0xFFFD

/-- Decodes after an optional unfinished character. A byte that cannot continue it ends an
ill-formed part and is read again as a lead byte, so each longest such part gives one
`replacement`. -/
def decodeFrom : Option Unfinished → List UInt8 → List Char
  | none, [] => []
  | some _, [] => [replacement]
  | none, b :: bs =>
    match lead b with
    | .scalar c => c :: decodeFrom none bs
    | .opens p => decodeFrom (some p) bs
    | .stray => replacement :: decodeFrom none bs
  | some p, b :: bs =>
    if p.low ≤ b ∧ b ≤ p.high then
      let value := p.value * 64 + (b.toNat - 0x80)
      match p.more with
      | 0 => Char.ofNat value :: decodeFrom none bs
      | more + 1 => decodeFrom (some ⟨value, 0x80, 0xBF, more⟩) bs
    else
      replacement :: match lead b with
        | .scalar c => c :: decodeFrom none bs
        | .opens q => decodeFrom (some q) bs
        | .stray => replacement :: decodeFrom none bs

/-- The text of a byte sequence, with a `replacement` for each longest ill-formed part. -/
def decodeLossy (bs : List UInt8) : String :=
  String.ofList (decodeFrom none bs)

end ProcLang.Text
