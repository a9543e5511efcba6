import ProcLang.Proofs.Boundary.Indexed
import ProcLang.Proofs.Reports

/-! What stands at a byte index of a source where a character starts, and how bytes are classed
there. -/
namespace ProcLang.Indexed

open Text (bytes byteWidth byteSlice? slice?)

/-- The characters `cs` are those of the source from the byte `pos` on. -/
def Stands (source : String) (pos : Nat) (cs : List Char) : Prop :=
  ∃ before, source.toList = before ++ cs ∧ byteWidth before = pos

/-! ### Bytes of characters -/

/-- One byte below 128, or at least two from there on. -/
theorem encodeChar_cases (c : Char) :
    c.toNat < 128 ∧ String.utf8EncodeChar c = [byteOf c] ∨
    128 ≤ c.toNat ∧ ∃ b b' bs, String.utf8EncodeChar c = b :: b' :: bs ∧
      ∀ x ∈ b :: b' :: bs, 128 ≤ x.toNat := by
  rcases Nat.lt_or_ge c.toNat 128 with hascii | hhigh
  · exact .inl ⟨hascii, Text.encodeChar_ascii hascii⟩
  · have hbytes := Text.high_of_mem_encodeChar hhigh
    have hlength := String.length_utf8EncodeChar c
    have hsize : c.utf8Size ≠ 1 := by
      rw [Ne, Char.utf8Size_eq_one_iff, UInt32.le_iff_toNat_le]
      exact fun hle => absurd hle (Nat.not_le.mpr hhigh)
    have hpos := c.utf8Size_pos
    match hencode : String.utf8EncodeChar c with
    | [] | [_] =>
      rw [hencode] at hlength
      simp only [List.length_nil, List.length_cons] at hlength
      omega
    | b :: b' :: bs => exact .inr ⟨hhigh, b, b', bs, rfl, hencode ▸ hbytes⟩

theorem charOf_byteOf {c : Char} (h : c.toNat < 128) : charOf (byteOf c) = c := by
  rw [charOf, byteOf, Text.toNat_byte (by omega), Char.ofNat_toNat]

theorem toNat_charOf (b : UInt8) : (charOf b).toNat = b.toNat := by
  have hvalid : b.toNat.isValidChar := .inl (Nat.lt_of_lt_of_le b.toNat_lt (by decide))
  rw [charOf, Char.ofNat, dif_pos hvalid]
  rfl

theorem exists_lead (c : Char) (cs : List Char) :
    ∃ b, ((c :: cs).flatMap String.utf8EncodeChar).head? = some b := by
  rw [List.flatMap_cons]
  rcases encodeChar_cases c with ⟨_, hencode⟩ | ⟨_, b, b', bs, hencode, _⟩
  · exact ⟨_, by rw [hencode]; rfl⟩
  · exact ⟨b, by rw [hencode]; rfl⟩

/-- A byte that a character starts with, and the character, are below 128 together. -/
theorem lead_cases {c : Char} {cs : List Char} {b : UInt8}
    (h : ((c :: cs).flatMap String.utf8EncodeChar).head? = some b) :
    c.toNat < 128 ∧ b = byteOf c ∨ 128 ≤ c.toNat ∧ 128 ≤ b.toNat := by
  rw [List.flatMap_cons] at h
  rcases encodeChar_cases c with ⟨hascii, hencode⟩ | ⟨hhigh, d, d', ds, hencode, hall⟩
  · rw [hencode] at h
    exact .inl ⟨hascii, (Option.some.inj h).symm⟩
  · rw [hencode] at h
    obtain rfl : d = b := Option.some.inj h
    exact .inr ⟨hhigh, hall d List.mem_cons_self⟩

theorem lead_eq_iff {c d : Char} {cs : List Char} {b : UInt8}
    (h : ((c :: cs).flatMap String.utf8EncodeChar).head? = some b) (hd : d.toNat < 128) :
    b = byteOf d ↔ c = d := by
  rcases lead_cases h with ⟨hascii, rfl⟩ | ⟨hhigh, hbyte⟩
  · constructor
    · intro heq
      by_contra hne
      exact Text.byte_ne hascii hd hne heq
    · rintro rfl
      rfl
  · constructor
    · rintro rfl
      rw [byteOf, Text.toNat_byte (by omega)] at hbyte
      omega
    · rintro rfl
      omega

/-- An ASCII byte occurs where its character does. -/
theorem byteOf_mem_encode {d : Char} (hd : d.toNat < 128) (cs : List Char) :
    byteOf d ∈ cs.flatMap String.utf8EncodeChar ↔ d ∈ cs := by
  rw [List.mem_flatMap]
  constructor
  · rintro ⟨c, hc, hbyte⟩
    obtain rfl := (Text.mem_encodeChar hd).mp hbyte
    exact hc
  · exact fun hmem => ⟨d, hmem, (Text.mem_encodeChar hd).mpr rfl⟩

/-- A class of ASCII characters. -/
def Ascii (p : Char → Bool) : Prop :=
  ∀ c, p c = true → c.toNat < 128

theorem Ascii.eq_false {p : Char → Bool} (hp : Ascii p) {c : Char} (hc : 128 ≤ c.toNat) :
    p c = false := by
  cases hpc : p c with
  | false => rfl
  | true => exact absurd (hp c hpc) (Nat.not_lt.mpr hc)

theorem lead_class {p : Char → Bool} (hp : Ascii p) {c : Char} {cs : List Char} {b : UInt8}
    (h : ((c :: cs).flatMap String.utf8EncodeChar).head? = some b) : p (charOf b) = p c := by
  rcases lead_cases h with ⟨hascii, rfl⟩ | ⟨hhigh, hbyte⟩
  · rw [charOf_byteOf hascii]
  · rw [hp.eq_false hhigh, hp.eq_false (by rwa [toNat_charOf])]

theorem ascii_isDigit : Ascii Char.isDigit :=
  fun _ => Token.ascii_of_isDigit

theorem ascii_isAlpha : Ascii Char.isAlpha := by
  intro c h
  rcases Bool.or_eq_true_iff.mp h with hupper | hlower
  · have hle := (of_decide_eq_true hupper).2
    exact Nat.lt_of_le_of_lt (UInt32.le_iff_toNat_le.mp hle) (by decide)
  · have hle := of_decide_eq_true (Bool.and_eq_true_iff.mp hlower).2
    exact Nat.lt_of_le_of_lt (UInt32.le_iff_toNat_le.mp hle) (by decide)

theorem ascii_isNameStart : Ascii Token.isNameStart := by
  intro c h
  rcases Bool.or_eq_true_iff.mp h with hletter | hunderscore
  · exact ascii_isAlpha c hletter
  · rw [eq_of_beq hunderscore]
    decide

theorem ascii_isNamePart : Ascii Token.isNamePart := by
  intro c h
  rw [Token.isNamePart, Char.isAlphanum, Bool.or_right_comm, Bool.or_eq_true] at h
  rcases h with hstart | hdigit
  · exact ascii_isNameStart c hstart
  · exact ascii_isDigit c hdigit

theorem ascii_of_chars? {kind : Token.Kind} {s : List Char} (h : kind.chars? = some s) :
    ∀ c ∈ s, c.toNat < 128 := by
  have hall : ∀ kind ∈ Token.fixedKinds,
      (kind.chars?.getD []).all (·.toNat < 128) = true := by decide
  have hkind := hall kind (Token.mem_fixedKinds h)
  rw [h, Option.getD_some, List.all_eq_true] at hkind
  exact fun c hc => of_decide_eq_true (hkind c hc)

/-- Bytes of a class are as many as the characters of it. -/
theorem length_takeWhile_encode {p : Char → Bool} (hp : Ascii p) (cs : List Char) :
    ((cs.flatMap String.utf8EncodeChar).takeWhile fun b => p (charOf b)).length =
      (cs.takeWhile p).length := by
  induction cs with
  | nil => rfl
  | cons c cs ih =>
    rw [List.flatMap_cons]
    rcases encodeChar_cases c with ⟨hascii, hencode⟩ | ⟨hhigh, d, d', ds, hencode, hall⟩
    · rw [hencode, List.singleton_append, List.takeWhile_cons, List.takeWhile_cons,
        charOf_byteOf hascii]
      split
      · rw [List.length_cons, List.length_cons, ih]
      · rfl
    · have hd : p (charOf d) = false :=
        hp.eq_false (by rw [toNat_charOf]; exact hall d List.mem_cons_self)
      rw [hencode, List.cons_append, List.takeWhile_cons, List.takeWhile_cons, hd,
        hp.eq_false hhigh]
      rfl

/-- ASCII characters are at the front of some characters as their bytes are. -/
theorem isPrefixOf_encode {s : List Char} (hs : ∀ c ∈ s, c.toNat < 128) (cs : List Char) :
    (s.map byteOf).isPrefixOf (cs.flatMap String.utf8EncodeChar) = s.isPrefixOf cs := by
  induction s generalizing cs with
  | nil => rfl
  | cons d s ih =>
    obtain ⟨hd, hs⟩ := List.forall_mem_cons.mp hs
    cases cs with
    | nil => rfl
    | cons c cs =>
      have hlead {b : UInt8} {bs : List UInt8}
          (h : (c :: cs).flatMap String.utf8EncodeChar = b :: bs) : (byteOf d == b) = (d == c) := by
        have hhead : ((c :: cs).flatMap String.utf8EncodeChar).head? = some b := by rw [h]; rfl
        rw [Bool.eq_iff_iff, beq_iff_eq, beq_iff_eq, eq_comm, eq_comm (a := d)]
        exact lead_eq_iff hhead hd
      rcases encodeChar_cases c with ⟨_, hencode⟩ | ⟨hhigh, b, b', bs, hencode, _⟩
      · rw [List.flatMap_cons, hencode] at hlead ⊢
        rw [List.singleton_append, List.map_cons, List.isPrefixOf_cons_cons,
          List.isPrefixOf_cons_cons, hlead rfl, ih hs]
      · have hne : (d == c) = false := by
          rw [beq_eq_false_iff_ne]
          rintro rfl
          omega
        rw [List.flatMap_cons, hencode] at hlead ⊢
        rw [List.cons_append, List.map_cons, List.isPrefixOf_cons_cons,
          List.isPrefixOf_cons_cons, hlead rfl, hne, Bool.false_and, Bool.false_and]

/-! ### Indices where a character starts -/

namespace Stands

variable {source : String} {pos : Nat} {cs : List Char}

theorem zero (source : String) : Stands source 0 source.toList :=
  ⟨[], rfl, rfl⟩

theorem append {ds : List Char} (h : Stands source pos (ds ++ cs)) :
    Stands source (pos + byteWidth ds) cs := by
  obtain ⟨before, hsource, rfl⟩ := h
  exact ⟨before ++ ds, by rw [hsource, List.append_assoc], Text.byteWidth_append before ds⟩

theorem tail {c : Char} (h : Stands source pos (c :: cs)) : Stands source (pos + c.utf8Size) cs :=
  have hbehind : Stands source (pos + byteWidth [c]) cs := append h
  hbehind

theorem ascii {c : Char} (h : Stands source pos (c :: cs)) (hc : c.toNat < 128) :
    Stands source (pos + 1) cs :=
  Text.utf8Size_ascii hc ▸ h.tail

theorem isValid (h : Stands source pos cs) : String.Pos.Raw.IsValid source ⟨pos⟩ := by
  obtain ⟨before, hsource, rfl⟩ := h
  exact Text.isValid_of_append hsource

theorem drop_bytes (h : Stands source pos cs) :
    (bytes source).drop pos = cs.flatMap String.utf8EncodeChar := by
  obtain ⟨before, hsource, rfl⟩ := h
  rw [bytes, hsource, List.flatMap_append, ← Text.length_encode, List.drop_left]

theorem length_bytes (h : Stands source pos cs) :
    (bytes source).length = pos + byteWidth cs := by
  obtain ⟨before, hsource, rfl⟩ := h
  rw [bytes, Text.length_encode, hsource, Text.byteWidth_append]

theorem byteAt?_eq (h : Stands source pos cs) :
    byteAt? source pos = (cs.flatMap String.utf8EncodeChar).head? := by
  rw [byteAt?, ← List.head?_drop, h.drop_bytes]

theorem byteAt?_eq_iff {d : Char} (h : Stands source pos cs) (hd : d.toNat < 128) :
    byteAt? source pos = some (byteOf d) ↔ cs.head? = some d := by
  rw [h.byteAt?_eq]
  cases cs with
  | nil => exact iff_of_false nofun nofun
  | cons c cs =>
    obtain ⟨b, hb⟩ := exists_lead c cs
    rw [hb, Option.some.injEq, List.head?_cons, Option.some.injEq]
    exact lead_eq_iff hb hd

theorem byteAt?_ascii {c : Char} (h : Stands source pos (c :: cs)) (hc : c.toNat < 128) :
    byteAt? source pos = some (byteOf c) :=
  (h.byteAt?_eq_iff hc).mpr rfl

/-- An ASCII byte behind the one that a character starts with belongs to the next character. -/
theorem byteAt?_succ_eq_iff {c d : Char} (h : Stands source pos (c :: cs)) (hd : d.toNat < 128) :
    byteAt? source (pos + 1) = some (byteOf d) ↔ c.toNat < 128 ∧ cs.head? = some d := by
  rcases encodeChar_cases c with ⟨hascii, _⟩ | ⟨hhigh, b, b', bs, hencode, hall⟩
  · rw [(h.ascii hascii).byteAt?_eq_iff hd]
    exact (and_iff_right hascii).symm
  · have hbyte : byteAt? source (pos + 1) = some b' := by
      rw [byteAt?, ← List.getElem?_drop, h.drop_bytes, List.flatMap_cons, hencode]
      rfl
    refine iff_of_false (fun heq => ?_) fun hboth => Nat.not_lt.mpr hhigh hboth.1
    obtain rfl : b' = byteOf d := Option.some.inj (hbyte.symm.trans heq)
    have hvalue := hall (byteOf d) (by simp)
    rw [byteOf, Text.toNat_byte (by omega)] at hvalue
    omega

/-- A source can be cut in front of some characters and behind them. -/
theorem slice?_eq {ds : List Char} (h : Stands source pos (ds ++ cs)) :
    slice? source pos (pos + byteWidth ds) = some (String.ofList ds) := by
  have hbytes : ((bytes source).take (pos + byteWidth ds)).drop pos =
      ds.flatMap String.utf8EncodeChar := by
    rw [List.drop_take, h.drop_bytes, Nat.add_sub_cancel_left, List.flatMap_append,
      ← Text.length_encode, List.take_left]
  rw [slice?, if_pos ⟨Nat.le_add_right _ _, h.isValid, h.append.isValid⟩, hbytes,
    Text.decodeLossy, Text.decodeFrom_flatMap]

theorem charAt_eq {c : Char} (h : Stands source pos (c :: cs)) :
    charAt source pos = pure c := by
  have hslice : slice? source pos (pos + byteWidth (c :: cs)) = some (String.ofList (c :: cs)) :=
    slice?_eq (by rwa [List.append_nil])
  rw [charAt, h.length_bytes, hslice]
  change (pure ((String.ofList (c :: cs)).toList.headD '\x00') : Checked Char) = _
  rw [String.toList_ofList]
  rfl

theorem any_byteAt? {p : Char → Bool} (hp : Ascii p) (h : Stands source pos cs) :
    ((byteAt? source pos).any fun b => p (charOf b)) = cs.head?.any p := by
  rw [h.byteAt?_eq]
  cases cs with
  | nil => rfl
  | cons c cs =>
    obtain ⟨b, hb⟩ := exists_lead c cs
    rw [hb, Option.any_some, lead_class hp hb]
    rfl

theorem spanFrom_eq {p : Char → Bool} (hp : Ascii p) (h : Stands source pos cs) :
    spanFrom source p pos = (cs.takeWhile p).length := by
  rw [spanFrom, h.drop_bytes, length_takeWhile_encode hp]

theorem fixedAt?_eq {c : Char} (h : Stands source pos (c :: cs)) :
    fixedAt? source pos = Token.fixed? (c :: cs) := by
  have hreturn : byteAt? source pos = some (byteOf '\r') ↔ c = '\r' := by
    rw [h.byteAt?_eq_iff (by decide), List.head?_cons, Option.some.injEq]
  rw [fixedAt?]
  by_cases hc : c = '\r'
  · rw [if_pos (hreturn.mpr hc), hc]
    rfl
  · rw [if_neg (hreturn.not.mpr hc), Token.fixed?_eq_find? hc, h.drop_bytes]
    congr 1
    funext kind
    cases hs : kind.chars? with
    | none => rfl
    | some s => exact isPrefixOf_encode (ascii_of_chars? hs) _

end Stands

end ProcLang.Indexed
