import ProcLang.Text.Utf8
import Mathlib.Tactic.IntervalCases

/-! UTF-8: what is encoded is decoded to itself, so nothing is replaced there. -/
namespace ProcLang.Text

theorem byteWidth_append (cs ds : List Char) :
    byteWidth (cs ++ ds) = byteWidth cs + byteWidth ds := by
  induction cs with
  | nil => simp [byteWidth]
  | cons c cs ih =>
    simp only [byteWidth, List.cons_append, List.foldr_cons] at ih ⊢
    omega

/-- Where a text is cut is told by the bytes before the cut. -/
theorem append_inj_of_byteWidth {cs cs' ds ds' : List Char} (h : cs ++ ds = cs' ++ ds')
    (hwidth : byteWidth cs = byteWidth cs') : cs = cs' ∧ ds = ds' := by
  induction cs generalizing cs' with
  | nil =>
    cases cs' with
    | nil => exact ⟨rfl, h⟩
    | cons c cs' =>
      have hpos := c.utf8Size_pos
      simp only [byteWidth, List.foldr_nil, List.foldr_cons] at hwidth
      omega
  | cons c cs ih =>
    cases cs' with
    | nil =>
      have hpos := c.utf8Size_pos
      simp only [byteWidth, List.foldr_nil, List.foldr_cons] at hwidth
      omega
    | cons c' cs' =>
      obtain ⟨rfl, htail⟩ := List.cons.inj h
      obtain ⟨rfl, hrest⟩ := ih htail (Nat.add_left_cancel hwidth)
      exact ⟨rfl, hrest⟩

theorem utf8Size_ascii {c : Char} (h : c.toNat < 128) : c.utf8Size = 1 := by
  have hle : c.val ≤ 0x7F := by
    rw [UInt32.le_iff_toNat_le]
    exact Nat.le_of_lt_succ h
  exact if_pos hle

theorem byteWidth_ascii {cs : List Char} (h : ∀ c ∈ cs, c.toNat < 128) :
    byteWidth cs = cs.length := by
  induction cs with
  | nil => rfl
  | cons c cs ih =>
    obtain ⟨hc, hcs⟩ := List.forall_mem_cons.mp h
    have hwidth : byteWidth (c :: cs) = c.utf8Size + byteWidth cs := rfl
    rw [hwidth, utf8Size_ascii hc, ih hcs, List.length_cons, Nat.add_comm]

theorem length_encode (cs : List Char) :
    (cs.flatMap String.utf8EncodeChar).length = byteWidth cs := by
  induction cs with
  | nil => rfl
  | cons c cs ih =>
    rw [List.flatMap_cons, List.length_append, String.length_utf8EncodeChar, ih]
    rfl

theorem utf8ByteSize_ofList (cs : List Char) : (String.ofList cs).utf8ByteSize = byteWidth cs := by
  rw [← length_encode, ← String.size_toByteArray, String.toByteArray_ofList, List.utf8Encode,
    List.size_toByteArray]

/-- As many bytes as some first characters take end between characters. -/
theorem isValid_of_append {source : String} {before after : List Char}
    (h : source.toList = before ++ after) :
    String.Pos.Raw.IsValid source ⟨byteWidth before⟩ := by
  rw [String.Pos.Raw.isValid_iff_exists_append]
  refine ⟨String.ofList before, String.ofList after, ?_, ?_⟩
  · rw [← String.ofList_append, ← h, String.ofList_toList]
  · rw [String.rawEndPos, utf8ByteSize_ofList]

theorem toNat_byte {n : Nat} (h : n < 256) : (UInt8.ofNat n).toNat = n :=
  UInt8.toNat_ofNat_of_lt' h

theorem lead_scalar {n : Nat} (h : n < 128) : lead (UInt8.ofNat n) = .scalar (Char.ofNat n) := by
  have hlt : UInt8.ofNat n < 0x80 := by
    rw [UInt8.lt_iff_toNat_lt, toNat_byte (by omega)]
    exact h
  rw [lead, if_pos hlt, toNat_byte (by omega)]

theorem lead_two {n : Nat} (hlow : 2 ≤ n) (hhigh : n < 32) :
    lead (UInt8.ofNat (n + 192)) = .opens ⟨n, 0x80, 0xBF, 0⟩ := by
  interval_cases n <;> rfl

theorem lead_three {n : Nat} (h : n < 16) :
    lead (UInt8.ofNat (n + 224)) =
      .opens ⟨n, if n = 0 then 0xA0 else 0x80, if n = 13 then 0x9F else 0xBF, 1⟩ := by
  interval_cases n <;> rfl

theorem lead_four {n : Nat} (h : n < 5) :
    lead (UInt8.ofNat (n + 240)) =
      .opens ⟨n, if n = 0 then 0x90 else 0x80, if n = 4 then 0x8F else 0xBF, 2⟩ := by
  interval_cases n <;> rfl

section

variable {p : Unfinished} {n : Nat}

theorem decodeFrom_lead {b : UInt8} (h : lead b = .opens p) (bs : List UInt8) :
    decodeFrom none (b :: bs) = decodeFrom (some p) bs := by
  rw [decodeFrom, h]

theorem continues {low high : UInt8} (hn : n < 64) (hlow : low.toNat ≤ n + 128)
    (hhigh : n + 128 ≤ high.toNat) :
    low ≤ UInt8.ofNat (n + 128) ∧ UInt8.ofNat (n + 128) ≤ high := by
  rw [UInt8.le_iff_toNat_le, UInt8.le_iff_toNat_le, toNat_byte (by omega)]
  exact ⟨hlow, hhigh⟩

/-- Where the range is not narrowed, every six bits are in it. -/
theorem continues_whole (hn : n < 64) :
    (0x80 : UInt8) ≤ UInt8.ofNat (n + 128) ∧ UInt8.ofNat (n + 128) ≤ 0xBF :=
  continues hn (Nat.le_add_left _ _) (Nat.add_le_add_right (Nat.le_of_lt_succ hn) _)

/-- A byte in range adds its six bits. -/
theorem decodeFrom_next (value more : Nat) {low high : UInt8} (hn : n < 64)
    (h : low ≤ UInt8.ofNat (n + 128) ∧ UInt8.ofNat (n + 128) ≤ high) (bs : List UInt8) :
    decodeFrom (some ⟨value, low, high, more + 1⟩) (UInt8.ofNat (n + 128) :: bs) =
      decodeFrom (some ⟨value * 64 + n, 0x80, 0xBF, more⟩) bs := by
  have hvalue := toNat_byte (n := n + 128) (by omega)
  simp only [decodeFrom, if_pos h, hvalue, Nat.add_sub_cancel]

theorem decodeFrom_last (value : Nat) (hn : n < 64) (bs : List UInt8) :
    decodeFrom (some ⟨value, 0x80, 0xBF, 0⟩) (UInt8.ofNat (n + 128) :: bs) =
      Char.ofNat (value * 64 + n) :: decodeFrom none bs := by
  have hvalue := toNat_byte (n := n + 128) (by omega)
  simp only [decodeFrom, if_pos (continues_whole hn), hvalue, Nat.add_sub_cancel]

end

/-- The second byte of a character in three or four has a narrower range after two of the leads. -/
theorem decodeFrom_second {b low high : UInt8} {m n last more : Nat}
    (h : lead b =
      .opens ⟨m, if m = 0 then low else 0x80, if m = last then high else 0xBF, more + 1⟩)
    (hn : n < 64) (hlow : m = 0 → low.toNat ≤ n + 128) (hhigh : m = last → n + 128 ≤ high.toNat)
    (bs : List UInt8) :
    decodeFrom none (b :: UInt8.ofNat (n + 128) :: bs) =
      decodeFrom (some ⟨m * 64 + n, 0x80, 0xBF, more⟩) bs := by
  rw [decodeFrom_lead h]
  refine decodeFrom_next m more hn (continues hn ?_ ?_) bs
  · split
    next hzero => exact hlow hzero
    next => exact Nat.le_add_left _ _
  · split
    next hlast => exact hhigh hlast
    next => exact Nat.add_le_add_right (Nat.le_of_lt_succ hn) 128

theorem decodeFrom_three {m n : Nat} (hm : m < 16) (hn : n < 64) (hlow : m = 0 → 32 ≤ n)
    (hhigh : m = 13 → n < 32) (bs : List UInt8) :
    decodeFrom none (UInt8.ofNat (m + 224) :: UInt8.ofNat (n + 128) :: bs) =
      decodeFrom (some ⟨m * 64 + n, 0x80, 0xBF, 0⟩) bs :=
  decodeFrom_second (lead_three hm) hn (fun h => Nat.add_le_add_right (hlow h) 128)
    (fun h => Nat.add_le_add_right (Nat.le_of_lt_succ (hhigh h)) 128) bs

theorem decodeFrom_four {m n : Nat} (hm : m < 5) (hn : n < 64) (hlow : m = 0 → 16 ≤ n)
    (hhigh : m = 4 → n < 16) (bs : List UInt8) :
    decodeFrom none (UInt8.ofNat (m + 240) :: UInt8.ofNat (n + 128) :: bs) =
      decodeFrom (some ⟨m * 64 + n, 0x80, 0xBF, 1⟩) bs :=
  decodeFrom_second (lead_four hm) hn (fun h => Nat.add_le_add_right (hlow h) 128)
    (fun h => Nat.add_le_add_right (Nat.le_of_lt_succ (hhigh h)) 128) bs

theorem decodeFrom_encodeChar (c : Char) (bs : List UInt8) :
    decodeFrom none (String.utf8EncodeChar c ++ bs) = c :: decodeFrom none bs := by
  have hvalid : c.val.toNat < 0xD800 ∨ 0xDFFF < c.val.toNat ∧ c.val.toNat < 0x110000 := c.valid
  have hchar : ∀ v, v = c.val.toNat → Char.ofNat v = c := by
    rintro _ rfl
    exact c.ofNat_toNat
  unfold String.utf8EncodeChar
  dsimp only
  generalize c.val.toNat = v at hvalid hchar ⊢
  -- Each byte behind the lead has the six bits of one digit to base 64. That `v` is no surrogate
  -- and that no shorter form would do gives the narrowed ranges of the second byte.
  split
  next h => rw [List.singleton_append, decodeFrom, lead_scalar (by omega), hchar v rfl]
  next h =>
    simp only [List.cons_append, List.nil_append, apply_ite (· ++ bs)]
    split
    next h' =>
      have hlead : v / 64 % 32 = v / 64 := by omega
      rw [hlead, decodeFrom_lead (lead_two (by omega) (by omega)), decodeFrom_last _ (by omega),
        hchar _ (by omega)]
    next h' =>
      split
      next h'' =>
        have hlead : v / 4096 % 16 = v / 4096 := by omega
        rw [hlead, decodeFrom_three (by omega) (by omega) (by omega) (by omega),
          decodeFrom_last _ (by omega), hchar _ (by omega)]
      next h'' =>
        have hlead : v / 262144 % 8 = v / 262144 := by omega
        rw [hlead, decodeFrom_four (by omega) (by omega) (by omega) (by omega),
          decodeFrom_next _ _ (by omega) (continues_whole (by omega)),
          decodeFrom_last _ (by omega), hchar _ (by omega)]

theorem decodeFrom_flatMap (cs : List Char) :
    decodeFrom none (cs.flatMap String.utf8EncodeChar) = cs := by
  induction cs with
  | nil => rfl
  | cons c cs ih => rw [List.flatMap_cons, decodeFrom_encodeChar, ih]

theorem decodeLossy_bytes (s : String) : decodeLossy (bytes s) = s := by
  rw [decodeLossy, bytes, decodeFrom_flatMap, String.ofList_toList]

theorem encodeChar_ascii {c : Char} (h : c.toNat < 128) :
    String.utf8EncodeChar c = [UInt8.ofNat c.toNat] := by
  unfold String.utf8EncodeChar
  exact if_pos (Nat.le_of_lt_succ h)

theorem byte_ne {c d : Char} (hc : c.toNat < 128) (hd : d.toNat < 128) (h : c ≠ d) :
    UInt8.ofNat c.toNat ≠ UInt8.ofNat d.toNat := by
  intro heq
  have hnat := congrArg UInt8.toNat heq
  rw [toNat_byte (by omega), toNat_byte (by omega)] at hnat
  exact h (Char.toNat_inj.mp hnat)

/-- Outside of ASCII, no byte of a character is one that stands for an ASCII character. -/
theorem high_of_mem_encodeChar {c : Char} (h : 128 ≤ c.toNat) :
    ∀ b ∈ String.utf8EncodeChar c, 128 ≤ b.toNat := by
  unfold String.utf8EncodeChar
  have hnot : ¬c.val.toNat ≤ 127 := fun hle => absurd hle (Nat.not_le.mpr h)
  rw [if_neg hnot]
  have hbyte : ∀ k, 128 ≤ k → k < 256 → 128 ≤ (UInt8.ofNat k).toNat := by
    intro k hlow hhigh
    rwa [toNat_byte hhigh]
  generalize c.val.toNat = v
  intro b hb
  split at hb
  · simp only [List.mem_cons, List.not_mem_nil, or_false] at hb
    rcases hb with rfl | rfl <;> exact hbyte _ (by omega) (by omega)
  · split at hb
    · simp only [List.mem_cons, List.not_mem_nil, or_false] at hb
      rcases hb with rfl | rfl | rfl <;> exact hbyte _ (by omega) (by omega)
    · simp only [List.mem_cons, List.not_mem_nil, or_false] at hb
      rcases hb with rfl | rfl | rfl | rfl <;> exact hbyte _ (by omega) (by omega)

end ProcLang.Text
