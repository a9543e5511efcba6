import ProcLang.Proofs.Machine.Execution

/-! Words on the stack of a running procedure, and the memory around them. -/
namespace ProcLang

open Assembly Machine

/-- The number of the word, counted down from `top`, that a byte belongs to. -/
def slot (top a : Word) : Nat :=
  (top - 1 - a).toNat / 8

theorem slot_word {n i : Nat} (hn : 8 * (n + 1) ≤ 2 ^ 64) (hi : i < 8) (top : Word) :
    slot top (top - BitVec.ofNat 64 (8 * (n + 1)) + BitVec.ofNat 64 i) = n := by
  unfold slot
  bv_omega

theorem slot_of_near {top a : Word} {n : Nat} (hn : 8 * (n + 1) ≤ 2 ^ 64)
    (ha : (a - (top - BitVec.ofNat 64 (8 * (n + 1)))).toNat < 8) : slot top a = n := by
  obtain ⟨i, hi, rfl⟩ := Memory.exists_of_mem_write ha
  exact slot_word hn hi top

/-- The stack of a procedure. It holds `room` words below `top`, the first `low` of which are its
frame. The bytes that only the code itself uses are scratch. -/
structure Area where
  top : Word
  base : Word
  low : Nat
  room : Nat
  Scratch : Word → Prop
  fits : 8 * room ≤ 2 ^ 64
  free : ∀ a, low ≤ slot top a → slot top a < room → Scratch a

namespace Area

variable (f : Area)

/-- The stack pointer when there are `n` words on the stack. -/
def rsp (n : Nat) : Word :=
  f.top - BitVec.ofNat 64 (8 * n)

theorem rsp_sub (n : Nat) : f.rsp n - 8 = f.rsp (n + 1) := by
  unfold rsp
  bv_omega

theorem rsp_add (n : Nat) : f.rsp (n + 1) + 8 = f.rsp n := by
  rw [← rsp_sub]
  bv_omega

variable {f} {n : Nat}

theorem slot_near_rsp (hn : n < f.room) {a : Word} (ha : (a - f.rsp (n + 1)).toNat < 8) :
    slot f.top a = n := by
  have hfits := f.fits
  exact slot_of_near (by omega) ha

/-- Memory that differs from another at most in the storage that the program knows of and in words
above the first `k`. -/
def Keeps (f : Area) (k : Nat) (m m' : Memory) : Prop :=
  ∀ a, f.Scratch a → slot f.top a < k → m' a = m a

theorem Keeps.of_eq {m m' : Memory} (h : m' = m) (k : Nat) : f.Keeps k m m' :=
  fun a _ _ => congrFun h a

theorem Keeps.trans {k : Nat} {m m₁ m₂ : Memory} (h : f.Keeps k m m₁) (h' : f.Keeps k m₁ m₂) :
    f.Keeps k m m₂ :=
  fun a ha hk => (h' a ha hk).trans (h a ha hk)

theorem Keeps.mono {k k' : Nat} {m m' : Memory} (h : f.Keeps k' m m') (hk : k ≤ k') :
    f.Keeps k m m' :=
  fun a ha hlt => h a ha (Nat.lt_of_lt_of_le hlt hk)

theorem keeps_write_rsp (hn : n < f.room) (m : Memory) (v : Nat) :
    f.Keeps n m (m.write (f.rsp (n + 1)) 8 v) := by
  intro a _ hlt
  refine Memory.write_apply_of_not fun hnear => ?_
  have := slot_near_rsp hn hnear
  omega

theorem keeps_write {a : Word} {bytes : Nat}
    (h : ∀ i < bytes, ¬f.Scratch (a + BitVec.ofNat 64 i)) (k : Nat) (m : Memory) (v : Nat) :
    f.Keeps k m (m.write a bytes v) := by
  intro x hx _
  refine Memory.write_apply_of_not fun hnear => ?_
  obtain ⟨i, hi, rfl⟩ := Memory.exists_of_mem_write hnear
  exact h i hi hx

theorem Keeps.read {k : Nat} {m m' : Memory} (h : f.Keeps k m m') (hlow : f.low ≤ n) (hn : n < k)
    (hroom : n < f.room) : m'.read (f.rsp (n + 1)) 8 = m.read (f.rsp (n + 1)) 8 := by
  refine Memory.read_eq_of_bytes fun i hi => ?_
  have hfits := f.fits
  have hslot : slot f.top (f.rsp (n + 1) + BitVec.ofNat 64 i) = n := slot_word (by omega) hi f.top
  exact h _ (f.free _ (by omega) (by omega)) (by omega)

/-- Words on the stack above the first `k`, the first of them on top. -/
def Holds (f : Area) (m : Memory) (k : Nat) : List Word → Prop
  | [] => True
  | v :: vs => m.read (f.rsp (k + vs.length + 1)) 8 = v.toNat ∧ f.Holds m k vs

theorem Holds.of_keeps {k k' : Nat} {vs : List Word} {m m' : Memory} (h : f.Holds m k vs)
    (hk : f.Keeps k' m m') (hlow : f.low ≤ k) (hvs : k + vs.length ≤ k')
    (hroom : k + vs.length ≤ f.room) : f.Holds m' k vs := by
  induction vs with
  | nil => trivial
  | cons v vs ih =>
    rw [List.length_cons] at hvs hroom
    refine ⟨?_, ih h.2 (by omega) (by omega)⟩
    rw [hk.read (by omega) (by omega) (by omega)]
    exact h.1

/-- The word that was pushed as number `j`. -/
theorem Holds.read {k j : Nat} {vs : List Word} {m : Memory} {v : Word} (h : f.Holds m k vs)
    (hv : vs.reverse[j]? = some v) : m.read (f.rsp (k + j + 1)) 8 = v.toNat := by
  induction vs with
  | nil => simp at hv
  | cons w vs ih =>
    rw [List.reverse_cons, List.getElem?_append] at hv
    split at hv
    · exact ih h.2 hv
    · next hj =>
      rw [List.length_reverse] at hj hv
      obtain ⟨hlt, hw⟩ := List.getElem?_eq_some_iff.mp hv
      rw [List.length_singleton] at hlt
      obtain rfl : j = vs.length := by omega
      simp only [Nat.sub_self, List.getElem_singleton] at hw
      exact hw ▸ h.1

/-- A state with words `vs` on the stack above the first `k`, and with memory that the program takes
for `m`. -/
structure Stack (f : Area) (k : Nat) (vs : List Word) (m : Memory) (s : State) : Prop where
  above : f.low ≤ k
  within : k + vs.length ≤ f.room
  rsp : s.regs .rsp = f.rsp (k + vs.length)
  rbp : s.regs .rbp = f.base
  mem : ∀ a, ¬f.Scratch a → s.mem a = m a
  holds : f.Holds s.mem k vs

namespace Stack

variable {k : Nat} {v : Word} {vs : List Word} {m : Memory} {s s' : State} {r : Register}

theorem congr (h : f.Stack k vs m s) (hrsp : s'.regs .rsp = s.regs .rsp)
    (hrbp : s'.regs .rbp = s.regs .rbp) (hmem : s'.mem = s.mem) : f.Stack k vs m s' :=
  { above := h.above
    within := h.within
    rsp := hrsp.trans h.rsp
    rbp := hrbp.trans h.rbp
    mem := hmem ▸ h.mem
    holds := hmem ▸ h.holds }

theorem top_eq (h : f.Stack k (v :: vs) m s) : s.top = v := by
  have hread := h.holds.1
  rw [State.top, h.rsp, List.length_cons, ← Nat.add_assoc, hread, BitVec.ofNat_toNat,
    BitVec.setWidth_eq]

theorem pop (h : f.Stack k (v :: vs) m s) (hrsp : r ≠ .rsp) (hrbp : r ≠ .rbp) :
    f.Stack k vs m (s.pop r) := by
  have hwithin := h.within
  rw [List.length_cons] at hwithin
  have hpointer : s.regs .rsp + 8 = f.rsp (k + vs.length) := by
    rw [h.rsp, List.length_cons, ← Nat.add_assoc, rsp_add]
  refine ⟨h.above, by omega, ?_, ?_, h.mem, h.holds.2⟩
  · rw [State.regs_pop, if_neg hrsp.symm, if_pos rfl, hpointer]
  · rw [State.regs_pop, if_neg hrbp.symm, if_neg (by decide), h.rbp]

theorem keeps_push (h : f.Stack k vs m s) (hroom : k + vs.length < f.room) (v : Word) :
    f.Keeps (k + vs.length) s.mem (s.push v).mem := by
  rw [State.mem_push, h.rsp, rsp_sub]
  exact keeps_write_rsp hroom _ _

theorem push (h : f.Stack k vs m s) (hroom : k + vs.length < f.room) (v : Word) :
    f.Stack k (v :: vs) m (s.push v) := by
  have habove := h.above
  have hpointer : s.regs .rsp - 8 = f.rsp (k + vs.length + 1) := by rw [h.rsp, rsp_sub]
  refine ⟨habove, hroom, ?_, ?_, ?_, ?_, ?_⟩
  · rw [State.regs_push, if_pos rfl, hpointer, List.length_cons, Nat.add_assoc]
  · rw [State.regs_push, if_neg (by decide), h.rbp]
  · intro a ha
    rw [State.mem_push, hpointer, Memory.write_apply_of_not, h.mem a ha]
    intro hnear
    have hslot := slot_near_rsp hroom hnear
    exact ha (f.free a (by omega) (by omega))
  · rw [State.mem_push, hpointer, Memory.read_write (by omega)]
    exact Nat.mod_eq_of_lt v.isLt
  · exact h.holds.of_keeps (h.keeps_push hroom v) habove (by omega) (by omega)

theorem pushAll (h : f.Stack k vs m s) {ws : List Word}
    (hroom : k + vs.length + ws.length ≤ f.room) :
    f.Stack k (ws.reverse ++ vs) m (ws.foldl State.push s) := by
  induction ws generalizing s vs with
  | nil => simpa using h
  | cons w ws ih =>
    rw [List.length_cons] at hroom
    have hpush := h.push (by omega) w
    simpa using ih hpush (by rw [List.length_cons]; omega)

/-- All words may be taken for ones below. -/
theorem lift (h : f.Stack k vs m s) : f.Stack (k + vs.length) [] m s := by
  have habove := h.above
  exact ⟨by omega, h.within, h.rsp, h.rbp, h.mem, trivial⟩

/-- What is kept below a word is still there under it. -/
theorem lower {m' : Memory} (h : f.Stack k vs m s) (h' : f.Stack (k + vs.length) [v] m' s')
    (hkeeps : f.Keeps (k + vs.length) s.mem s'.mem) : f.Stack k (v :: vs) m' s' := by
  have hwithin := h'.within
  rw [List.length_singleton] at hwithin
  exact ⟨h.above, hwithin, h'.rsp, h'.rbp, h'.mem, h'.holds.1,
    h.holds.of_keeps hkeeps h.above (by omega) h.within⟩

/-- Bytes that the program knows of are as it takes them for. -/
theorem read_eq (h : f.Stack k vs m s) {a : Word} {n : Nat}
    (ha : ∀ i < n, ¬f.Scratch (a + BitVec.ofNat 64 i)) : s.mem.read a n = m.read a n :=
  Memory.read_eq_of_bytes fun i hi => h.mem _ (ha i hi)

/-- A store to bytes that the program knows of. -/
theorem write (h : f.Stack k vs m s) {a : Word} {n : Nat}
    (ha : ∀ i < n, ¬f.Scratch (a + BitVec.ofNat 64 i)) (v : Nat) :
    f.Stack k vs (m.write a n v) { s with mem := s.mem.write a n v } := by
  refine ⟨h.above, h.within, h.rsp, h.rbp, ?_, ?_⟩
  · intro x hx
    simp only [Memory.write, h.mem x hx]
  · exact h.holds.of_keeps (keeps_write ha (k + vs.length) s.mem v) h.above le_rfl h.within

end Stack

/-- Code that runs from `s` to its end and leaves `vs` above the first `k` words. -/
def Leaves (f : Area) (labels : Label → Word) (s : State) (code : Code) (k : Nat) (vs : List Word)
    (m : Memory) : Prop :=
  ∃ s', run labels s code = some s' ∧ f.Stack k vs m s' ∧ f.Keeps k s.mem s'.mem

variable {labels : Label → Word} {s : State} {k : Nat} {vs vs' : List Word} {m m' : Memory}

theorem Leaves.of_run {s₁ : State} {first rest : Code} (hrun : run labels s first = some s₁)
    (hkeeps : f.Keeps k s.mem s₁.mem) (h : f.Leaves labels s₁ rest k vs m) :
    f.Leaves labels s (first ++ rest) k vs m := by
  obtain ⟨s₂, hrun', hstack, hkeeps'⟩ := h
  exact ⟨s₂, run_trans hrun hrun', hstack, hkeeps.trans hkeeps'⟩

theorem Leaves.trans {first rest : Code} (h : f.Leaves labels s first k vs m)
    (h' : ∀ s', f.Stack k vs m s' → f.Leaves labels s' rest k vs' m') :
    f.Leaves labels s (first ++ rest) k vs' m' := by
  obtain ⟨s₁, hrun, hstack, hkeeps⟩ := h
  exact .of_run hrun hkeeps (h' s₁ hstack)

/-- Code that leaves a word on top of others. -/
theorem Leaves.above {code : Code} {v : Word} (h : f.Stack k vs m s)
    (h' : f.Leaves labels s code (k + vs.length) [v] m') :
    f.Leaves labels s code k (v :: vs) m' := by
  obtain ⟨s', hrun, hstack, hkeeps⟩ := h'
  exact ⟨s', hrun, h.lower hstack hkeeps, hkeeps.mono (by omega)⟩

end Area

end ProcLang
