import Mathlib.Data.BitVec
import Mathlib.Tactic.Ring
import ProcLang.Ty

/-! Memory of a machine with words of 64 bits: bytes, and numbers that lie in several of them. -/
namespace ProcLang

abbrev Word := BitVec 64

abbrev Memory := Word → BitVec 8

/-- Bytes that a width takes up. -/
def Width.bytes : Width → Nat
  | .byte => 1
  | .word => 2
  | .dword => 4
  | .qword => 8

namespace Memory

/-- The number in `n` bytes from `a` on, the lowest byte first. -/
def read (m : Memory) (a : Word) : Nat → Nat
  | 0 => 0
  | n + 1 => (m a).toNat + 256 * m.read (a + 1) n

/-- Memory with a number in `n` bytes from `a` on. -/
def write (m : Memory) (a : Word) (n v : Nat) : Memory := fun x =>
  if (x - a).toNat < n then BitVec.ofNat 8 (v / 256 ^ (x - a).toNat) else m x

variable {m m' : Memory} {a : Word} {n v : Nat}

theorem read_lt (m : Memory) (a : Word) (n : Nat) : m.read a n < 256 ^ n := by
  induction n generalizing a with
  | zero => simp [read]
  | succ n ih =>
    have hb : (m a).toNat < 256 := (m a).isLt
    have hrest := ih (a + 1)
    rw [read, Nat.pow_succ]
    omega

theorem offset_succ (a : Word) (i : Nat) :
    a + BitVec.ofNat 64 (i + 1) = a + 1 + BitVec.ofNat 64 i := by
  rw [Nat.add_comm, BitVec.ofNat_add, ← BitVec.add_assoc]
  rfl

theorem read_eq_of_bytes (h : ∀ i < n, m (a + BitVec.ofNat 64 i) = m' (a + BitVec.ofNat 64 i)) :
    m.read a n = m'.read a n := by
  induction n generalizing a with
  | zero => rfl
  | succ n ih =>
    have h0 : m a = m' a := by simpa using h 0 (by omega)
    have hrest : m.read (a + 1) n = m'.read (a + 1) n := by
      refine ih fun i hi => ?_
      rw [← offset_succ]
      exact h (i + 1) (by omega)
    rw [read, read, h0, hrest]

/-- Numbers are equal only if all of their bytes are. -/
theorem eq_of_read_eq (h : m.read a n = m'.read a n) :
    ∀ i < n, m (a + BitVec.ofNat 64 i) = m' (a + BitVec.ofNat 64 i) := by
  induction n generalizing a with
  | zero => simp
  | succ n ih =>
    rw [read, read] at h
    have hb : (m a).toNat < 256 := (m a).isLt
    have hb' : (m' a).toNat < 256 := (m' a).isLt
    have h0 : m a = m' a := BitVec.eq_of_toNat_eq (by omega)
    have hrest : m.read (a + 1) n = m'.read (a + 1) n := by omega
    intro i hi
    cases i with
    | zero => simpa using h0
    | succ i =>
      rw [offset_succ]
      exact ih hrest i (by omega)

/-- Bytes that hold the digits of a number are read as that number. -/
theorem read_of_digits
    (h : ∀ i < n, m (a + BitVec.ofNat 64 i) = BitVec.ofNat 8 (v / 256 ^ i)) :
    m.read a n = v % 256 ^ n := by
  induction n generalizing a v with
  | zero => simp [read, Nat.mod_one]
  | succ n ih =>
    have h0 : (m a).toNat = v % 256 := by
      have := h 0 (by omega)
      simp only [BitVec.add_zero, Nat.pow_zero, Nat.div_one] at this
      rw [this, BitVec.toNat_ofNat]
    have hrest : m.read (a + 1) n = v / 256 % 256 ^ n := by
      refine ih fun i hi => ?_
      rw [← offset_succ, h (i + 1) (by omega), Nat.div_div_eq_div_mul, Nat.pow_succ,
        Nat.mul_comm]
    rw [read, h0, hrest, Nat.pow_succ, Nat.mul_comm (256 ^ n) 256, Nat.mod_mul]

theorem add_sub_toNat {i : Nat} (hi : i < 2 ^ 64) (a : Word) :
    (a + BitVec.ofNat 64 i - a).toNat = i := by
  have : a + BitVec.ofNat 64 i - a = BitVec.ofNat 64 i := by ring
  rw [this, BitVec.toNat_ofNat]
  exact Nat.mod_eq_of_lt hi

theorem write_apply_of_lt {i : Nat} (hi : i < n) (hn : n ≤ 2 ^ 64) (m : Memory) (a : Word)
    (v : Nat) : m.write a n v (a + BitVec.ofNat 64 i) = BitVec.ofNat 8 (v / 256 ^ i) := by
  have hoff := add_sub_toNat (by omega : i < 2 ^ 64) a
  simp only [write, hoff, hi, if_true]

theorem read_write (hn : n ≤ 2 ^ 64) (m : Memory) (a : Word) (v : Nat) :
    (m.write a n v).read a n = v % 256 ^ n :=
  read_of_digits fun _ hi => write_apply_of_lt hi hn m a v

/-- The first bytes of a number hold its lowest digits. -/
theorem read_of_le {k : Nat} (hn : n ≤ k) (hk : k ≤ 2 ^ 64) (h : m.read a k = v) :
    m.read a n = v % 256 ^ n := by
  have hlt : v < 256 ^ k := h ▸ read_lt m a k
  have heq : m.read a k = (m.write a k v).read a k := by
    rw [read_write hk, h, Nat.mod_eq_of_lt hlt]
  refine read_of_digits fun i hi => ?_
  rw [eq_of_read_eq heq i (by omega), write_apply_of_lt (by omega) hk]

theorem write_apply_of_not {x : Word} (h : ¬(x - a).toNat < n) : m.write a n v x = m x := by
  simp only [write, h, if_false]

/-- The bytes that are written are those from `a` on. -/
theorem exists_of_mem_write {x : Word} (h : (x - a).toNat < n) :
    ∃ i < n, x = a + BitVec.ofNat 64 i := by
  refine ⟨(x - a).toNat, h, ?_⟩
  rw [BitVec.ofNat_toNat, BitVec.setWidth_eq]
  ring

end Memory

end ProcLang
