import ProcLang.Proofs.Correctness.Frame
import ProcLang.Proofs.Discipline.Code
import ProcLang.Proofs.Machine.Linked

/-! What the code of a call does to registers and memory, up to the body of the callee and back. -/
namespace ProcLang

open Assembly Machine Codegen

namespace Machine

variable {labels : Label → Word} {s : State} {rs : List Register}

theorem run_pops (rs : List Register) (s : State) :
    run labels s (instructions (rs.map .pop)) = some (rs.foldl State.pop s) := by
  induction rs generalizing s with
  | nil => rfl
  | cons r rs ih => exact ih (s.pop r)

namespace State

theorem rsp_pops (hrsp : .rsp ∉ rs) (s : State) :
    (rs.foldl pop s).regs .rsp = s.regs .rsp + BitVec.ofNat 64 (8 * rs.length) := by
  induction rs generalizing s with
  | nil => simp
  | cons r rs ih =>
    rw [List.mem_cons, not_or] at hrsp
    rw [List.foldl_cons, ih hrsp.2, regs_pop, if_neg hrsp.1, if_pos rfl, List.length_cons]
    bv_omega

theorem regs_pops {r : Register} (hr : r ∉ rs) (hrsp : r ≠ .rsp) (s : State) :
    (rs.foldl pop s).regs r = s.regs r := by
  induction rs generalizing s with
  | nil => rfl
  | cons r' rs ih =>
    rw [List.mem_cons, not_or] at hr
    rw [List.foldl_cons, ih hr.2, regs_pop, if_neg hr.1, if_neg hrsp]

theorem mem_pops (rs : List Register) (s : State) : (rs.foldl pop s).mem = s.mem := by
  induction rs generalizing s with
  | nil => rfl
  | cons r rs ih => rw [List.foldl_cons, ih, mem_pop]

/-- The first register gets the word on top of the stack. -/
theorem regs_pops_getElem? (hnodup : rs.Nodup) (hrsp : .rsp ∉ rs) {i : Nat} {r : Register}
    (hr : rs[i]? = some r) (s : State) :
    (rs.foldl pop s).regs r =
      BitVec.ofNat 64 (s.mem.read (s.regs .rsp + BitVec.ofNat 64 (8 * i)) 8) := by
  induction rs generalizing s i with
  | nil => cases hr
  | cons r' rs ih =>
    rw [List.nodup_cons] at hnodup
    rw [List.mem_cons, not_or] at hrsp
    rw [List.foldl_cons]
    cases i with
    | zero =>
      cases hr
      rw [regs_pops hnodup.1 (Ne.symm hrsp.1), regs_pop, if_pos rfl]
      simp [top]
    | succ i =>
      rw [ih hnodup.2 hrsp.2 hr, mem_pop, regs_pop, if_neg hrsp.1, if_pos rfl]
      have haddress : s.regs .rsp + 8 + BitVec.ofNat 64 (8 * i) =
          s.regs .rsp + BitVec.ofNat 64 (8 * (i + 1)) := by
        bv_omega
      rw [haddress]

theorem rsp_pushes (vs : List Word) (s : State) :
    (vs.foldl push s).regs .rsp = s.regs .rsp - BitVec.ofNat 64 (8 * vs.length) := by
  induction vs generalizing s with
  | nil => simp
  | cons v vs ih =>
    rw [List.foldl_cons, ih, regs_push, if_pos rfl, List.length_cons]
    bv_omega

/-- The stack pointer is saved in `r10` and rounded down. -/
def aligned (s : State) : State :=
  ((s.set .r10 (s.regs .rsp)).set .rsp (s.regs .rsp &&& BitVec.ofInt 64 (-16))).forget

theorem and_mask_add (x : Word) : (x &&& BitVec.ofInt 64 (-16)) + (x &&& 15#64) = x := by
  have hdisjoint : BitVec.ofInt 64 (-16) &&& 15#64 = 0#64 := by decide
  have hall : BitVec.ofInt 64 (-16) ||| 15#64 = BitVec.allOnes 64 := by decide
  have hzero : (x &&& BitVec.ofInt 64 (-16)) &&& (x &&& 15#64) = 0#64 := by
    calc (x &&& BitVec.ofInt 64 (-16)) &&& (x &&& 15#64)
        = (x &&& x) &&& (BitVec.ofInt 64 (-16) &&& 15#64) := by ac_rfl
      _ = 0#64 := by rw [hdisjoint, BitVec.and_zero]
  rw [BitVec.add_eq_or_of_and_eq_zero _ _ hzero, ← BitVec.and_or_distrib_left, hall,
    BitVec.and_allOnes]

/-- At most fifteen bytes are left out. -/
theorem aligned_rsp (s : State) :
    s.aligned.regs .rsp = s.regs .rsp - BitVec.ofNat 64 ((s.regs .rsp).toNat % 16) := by
  have hlow : s.regs .rsp &&& 15#64 = BitVec.ofNat 64 ((s.regs .rsp).toNat % 16) := by
    apply BitVec.eq_of_toNat_eq
    have hmask : (15#64).toNat = 2 ^ 4 - 1 := by decide
    rw [BitVec.toNat_and, hmask, Nat.and_two_pow_sub_one_eq_mod, BitVec.toNat_ofNat]
    omega
  change s.regs .rsp &&& BitVec.ofInt 64 (-16) = _
  rw [← hlow]
  exact BitVec.eq_sub_iff_add_eq.mpr (and_mask_add _)

theorem aligned_rsp_mod (s : State) : (s.aligned.regs .rsp).toNat % 16 = 0 := by
  have hmask : (BitVec.ofInt 64 (-16)).toNat % 2 ^ 4 = 0 := by decide
  change (s.regs .rsp &&& BitVec.ofInt 64 (-16)).toNat % 2 ^ 4 = 0
  rw [BitVec.toNat_and, Nat.and_mod_two_pow, hmask, Nat.and_zero]

end State

end Machine

namespace Procedure

variable (q : Procedure) (n : Nat) (s : State) (back : Word)

/-- A call has taken its arguments. -/
def taken : State :=
  (argumentRegisters.take n).foldl State.pop s

/-- A call is about to be made: its stack pointer lies on an aligned stack, twice. -/
def calling : State :=
  [(taken n s).regs .rsp, (taken n s).regs .rsp].foldl State.push (taken n s).aligned

/-- The callee is about to start. -/
def called : State :=
  (calling n s).push back

/-- All that lies on the aligned stack when the body of the callee starts. -/
def callWords : List Word :=
  [(taken n s).regs .rsp, (taken n s).regs .rsp, back] ++ q.frame (called n s back)

variable {q n s back} {labels : Label → Word}

theorem rsp_taken (hn : n ≤ argumentRegisters.length) :
    (taken n s).regs .rsp = s.regs .rsp + BitVec.ofNat 64 (8 * n) := by
  have hrsp : Register.rsp ∉ argumentRegisters.take n :=
    fun hmem => absurd (List.mem_of_mem_take hmem) (by decide)
  rw [taken, State.rsp_pops hrsp, List.length_take_of_le hn]

theorem rsp_called :
    (called n s back).regs .rsp = (taken n s).aligned.regs .rsp - BitVec.ofNat 64 24 := by
  change (taken n s).aligned.regs .rsp - 8 - 8 - 8 = _
  bv_omega

theorem rbp_calling : (calling n s).regs .rbp = s.regs .rbp := by
  have hrbp : Register.rbp ∉ argumentRegisters.take n :=
    fun hmem => absurd (List.mem_of_mem_take hmem) (by decide)
  exact State.regs_pops hrbp (by decide) s

theorem rsp_calling :
    (calling n s).regs .rsp = (taken n s).aligned.regs .rsp - BitVec.ofNat 64 16 := by
  change (taken n s).aligned.regs .rsp - 8 - 8 = _
  bv_omega

theorem top_calling : (calling n s).top = (taken n s).regs .rsp := by
  apply BitVec.eq_of_toNat_eq
  have hread : (calling n s).mem.read ((calling n s).regs .rsp) 8 =
      ((taken n s).regs .rsp).toNat % 256 ^ 8 :=
    Memory.read_write (by omega) _ _ _
  rw [State.top, hread, BitVec.toNat_ofNat]
  omega

/-- Only the two words that are pushed for a call are written. -/
theorem mem_calling {a : Word} (ha : 16 ≤ (a - (calling n s).regs .rsp).toNat) :
    (calling n s).mem a = s.mem a := by
  rw [rsp_calling] at ha
  generalize hbottom : (taken n s).aligned.regs .rsp = bottom at ha
  have hmem : (calling n s).mem = (s.mem.write (bottom - 8) 8 ((taken n s).regs .rsp).toNat).write
      (bottom - 8 - 8) 8 ((taken n s).regs .rsp).toNat := by
    rw [← hbottom, ← State.mem_pops (argumentRegisters.take n) s]
    rfl
  rw [hmem, Memory.write_apply_of_not (by bv_omega), Memory.write_apply_of_not (by bv_omega)]

/-- The stack is aligned at the call. -/
theorem rsp_calling_mod : ((calling n s).regs .rsp).toNat % 16 = 0 := by
  have halign := State.aligned_rsp_mod (taken n s)
  rw [rsp_calling]
  bv_omega

theorem rbp_called : (called n s back).regs .rbp = s.regs .rbp := by
  rw [called, State.regs_push, if_neg (by decide), rbp_calling]

/-- Arguments are in their registers when the callee starts. -/
theorem argument_called {i : Nat} {r : Register} (hi : i < n)
    (hr : argumentRegisters[i]? = some r) :
    (called n s back).regs r =
      BitVec.ofNat 64 (s.mem.read (s.regs .rsp + BitVec.ofNat 64 (8 * i)) 8) := by
  have hmem := List.mem_of_getElem? hr
  have hother : ∀ r ∈ argumentRegisters, r ≠ .rsp ∧ r ≠ .r10 := by decide
  obtain ⟨hrsp, hr10⟩ := hother r hmem
  have hkept : (called n s back).regs r = (taken n s).regs r := by
    simp only [called, calling, List.foldl_cons, List.foldl_nil, State.aligned, State.regs_push,
      State.regs_forget, State.regs_set, if_neg hrsp, if_neg hr10]
  rw [hkept, taken]
  refine State.regs_pops_getElem? ?_ ?_ ?_ s
  · exact List.Nodup.sublist (List.take_sublist n _) (by decide)
  · exact fun hmem => absurd (List.mem_of_mem_take hmem) (by decide)
  · rwa [List.getElem?_take_of_lt hi]

theorem length_callWords (hfew : q.parameters.length ≤ argumentRegisters.length) :
    (callWords q n s back).length = q.frameWords + 3 := by
  rw [callWords, List.length_append, length_frame hfew]
  simp only [List.length_cons, List.length_nil]
  omega

theorem mem_entered_called :
    (q.entered (called n s back)).mem =
      ((callWords q n s back).foldl State.push (taken n s).aligned).mem := by
  rw [callWords, List.foldl_append]
  rfl

theorem rbp_entered (hfew : q.parameters.length ≤ argumentRegisters.length) (s : State) :
    (q.entered s).regs .rbp = s.regs .rsp - BitVec.ofNat 64 (8 * q.frameWords) := by
  have hrsp := State.rsp_pushes (q.frame s) s
  rwa [length_frame hfew] at hrsp

/-- The word that was pushed as number `j` is still there when the body starts. -/
theorem read_called (hfits : 8 * (q.frameWords + 3) ≤ 2 ^ 64)
    (hfew : q.parameters.length ≤ argumentRegisters.length) {j : Nat} {v : Word}
    (hv : (callWords q n s back)[j]? = some v) :
    (q.entered (called n s back)).mem.read
      ((taken n s).aligned.regs .rsp - BitVec.ofNat 64 (8 * (j + 1))) 8 = v.toNat := by
  have hstart : (bareArea ((taken n s).aligned.regs .rsp) ((taken n s).aligned.regs .rbp)
      (q.frameWords + 3) hfits).Stack 0 [] (taken n s).aligned.mem (taken n s).aligned :=
    stack_bareArea _
  have hstack := hstart.pushAll (show 0 + ([] : List Word).length + (callWords q n s back).length ≤
    q.frameWords + 3 by rw [length_callWords hfew]; simp)
  have hread := hstack.holds.read (j := j) (by rwa [List.append_nil, List.reverse_reverse])
  rw [Nat.zero_add] at hread
  rw [mem_entered_called]
  exact hread

/-- A callee finds its arguments in the slots of its parameters, and zero in those of its locals. -/
structure Passed (q : Procedure) (s s' : State) : Prop where
  parameter : ∀ i offset, (Frame.ofProcedure q).parameters[i]? = some offset →
    s'.mem.read (s'.regs .rbp + BitVec.ofNat 64 offset) 8 =
      s.mem.read (s.regs .rsp + BitVec.ofNat 64 (8 * i)) 8
  localVar : ∀ offset ∈ (Frame.ofProcedure q).locals,
    s'.mem.read (s'.regs .rbp + BitVec.ofNat 64 offset) 8 = 0

/-- Slots of a frame, as words pushed on the aligned stack. -/
theorem rbp_add_offset (hfew : q.parameters.length ≤ argumentRegisters.length) {i : Nat}
    (hi : i < q.locals.length + q.parameters.length) :
    (q.entered (called n s back)).regs .rbp + BitVec.ofNat 64
        (wordSize * (q.locals.length + q.parameters.length) - wordSize * (i + 1)) =
      (taken n s).aligned.regs .rsp - BitVec.ofNat 64 (8 * (i + 4 + 1)) := by
  rw [rbp_entered hfew, Program.base_add hi, rsp_called]
  bv_omega

theorem passed_called (hfits : 8 * (q.frameWords + 3) ≤ 2 ^ 64)
    (hfew : q.parameters.length ≤ argumentRegisters.length) (hn : n = q.parameters.length) :
    Passed q s (q.entered (called n s back)) := by
  refine ⟨fun i offset hoffset => ?_, fun offset hoffset => ?_⟩
  · obtain ⟨hi, rfl⟩ := Program.offset_of_parameter hoffset
    obtain ⟨r, hr⟩ : ∃ r, argumentRegisters[i]? = some r :=
      ⟨_, List.getElem?_eq_getElem (by omega)⟩
    have hword : (callWords q n s back)[q.locals.length + i + 4]? =
        some ((called n s back).regs r) := by
      simp [callWords, frame, List.getElem?_append, hi, hr]
    rw [rbp_add_offset hfew (by omega), read_called hfits hfew hword,
      argument_called (by omega) hr, BitVec.toNat_ofNat]
    exact Nat.mod_eq_of_lt (Memory.read_lt _ _ 8)
  · obtain ⟨i, hget⟩ := List.mem_iff_getElem?.mp hoffset
    obtain ⟨hlt, rfl⟩ := Program.offset_of_local hget
    have hword : (callWords q n s back)[i + 4]? = some 0 := by
      simp [callWords, frame, List.getElem?_append, hlt]
    rw [rbp_add_offset hfew (by omega), read_called hfits hfew hword]
    rfl

/-- The three words above the slots: the frame pointer of the caller, where to go back to, and the
stack pointer of the caller. -/
theorem read_above {s' : State} (hfits : 8 * (q.frameWords + 3) ≤ 2 ^ 64)
    (hfew : q.parameters.length ≤ argumentRegisters.length)
    (hkeep : ∀ j < 24, s'.mem ((q.entered (called n s back)).regs .rbp +
        BitVec.ofNat 64 ((Frame.ofProcedure q).size + j)) =
      (q.entered (called n s back)).mem ((q.entered (called n s back)).regs .rbp +
        BitVec.ofNat 64 ((Frame.ofProcedure q).size + j))) :
    s'.mem.read ((called n s back).regs .rsp - 8) 8 = (s.regs .rbp).toNat ∧
      s'.mem.read ((called n s back).regs .rsp) 8 = back.toNat ∧
      s'.mem.read ((called n s back).regs .rsp + 8) 8 = ((taken n s).regs .rsp).toNat := by
  have hsize : (Frame.ofProcedure q).size = 8 * (q.locals.length + q.parameters.length) := rfl
  -- a word above the slots was pushed as one of the first four, and is kept
  have hword : ∀ k v, k < 3 → (callWords q n s back)[3 - k]? = some v →
      s'.mem.read ((taken n s).aligned.regs .rsp - BitVec.ofNat 64 (8 * (3 - k + 1))) 8 =
        v.toNat := by
    intro k v hk hv
    rw [← read_called hfits hfew hv]
    refine Memory.read_eq_of_bytes fun i hi => ?_
    have hbyte := hkeep (8 * k + i) (by omega)
    have haddress : (q.entered (called n s back)).regs .rbp +
        BitVec.ofNat 64 ((Frame.ofProcedure q).size + (8 * k + i)) =
          (taken n s).aligned.regs .rsp - BitVec.ofNat 64 (8 * (3 - k + 1)) +
            BitVec.ofNat 64 i := by
      rw [rbp_entered hfew, rsp_called, hsize, frameWords]
      bv_omega
    rwa [haddress] at hbyte
  have hcaller : (callWords q n s back)[3]? = some (s.regs .rbp) := by
    rw [← rbp_called (n := n) (s := s)]
    rfl
  rw [rsp_called]
  refine ⟨?_, ?_, ?_⟩
  · have := hword 0 _ (by omega) hcaller
    convert this using 2
    bv_omega
  · exact hword 1 back (by omega) rfl
  · have := hword 2 _ (by omega) rfl
    convert this using 2
    bv_omega

/-- The code of a call up to the call itself. -/
def setupCode (n : Nat) : Code :=
  instructions ((argumentRegisters.take n).map .pop ++
    [.move .r10 .rsp, .alignStack, .push .r10, .push .r10])

/-- The code of a call from where the callee comes back to. -/
def resultCode (q : Procedure) : Code :=
  instructions ([.pop .rsp] ++
    (if q.returns.ty.width? = some .byte then [.extendByte] else []) ++ [.push .rax])

theorem callCode_split (q : Procedure) (n : Nat) :
    callCode q n = setupCode n ++
      instructions (if q.isVariadic then [.moveValue .rax 0] else []) ++
      instructions [.call (.procedure q.name)] ++ resultCode q := by
  simp [callCode, setupCode, resultCode, instructions]

theorem callCode_of_fixed (hfixed : q.isVariadic = false) (n : Nat) :
    callCode q n =
      setupCode n ++ instructions [.call (.procedure q.name)] ++ resultCode q := by
  simp [callCode_split, instructions, hfixed]

theorem run_setup (n : Nat) (s : State) : run labels s (setupCode n) = some (calling n s) := by
  rw [setupCode, instructions, List.map_append]
  exact run_trans (run_pops _ s) rfl

variable (labels) in
/-- A callee with a variable number of arguments is told that none is in a vector register. -/
theorem run_variadic (q : Procedure) (n : Nat) (s : State) :
    ∃ s', run labels s (setupCode n ++ instructions (if q.isVariadic then
        [.moveValue .rax 0] else [])) = some s' ∧
      (∀ r, r ≠ .rax → s'.regs r = (calling n s).regs r) ∧ s'.mem = (calling n s).mem := by
  split
  · exact ⟨_, run_trans (run_setup n s) rfl, fun r hr => if_neg hr, rfl⟩
  · exact ⟨_, run_trans (run_setup n s) rfl, fun _ _ => rfl, rfl⟩

/-- What the code of a call makes of the result: of a byte the rest of the register is cleared. -/
def resultWord (q : Procedure) (s : State) : Word :=
  if q.returns.ty.width? = some .byte then BitVec.ofNat 64 ((s.regs .rax).toNat % 256)
  else s.regs .rax

variable (labels) in
/-- Behind the call, the stack pointer of the caller is put back and the result is pushed. -/
theorem run_result (q : Procedure) (s : State) :
    ∃ s' : State, run labels s (resultCode q) = some (s'.push (q.resultWord s)) ∧
      s'.regs .rbp = s.regs .rbp ∧ s'.regs .rsp = s.top ∧ s'.mem = s.mem := by
  unfold resultCode resultWord
  split <;> exact ⟨_, rfl, rfl, rfl, rfl⟩

end Procedure

/-- Slots of one word each that fill all bytes below a size and do not overlap. -/
structure Frame.Tiles (slots : List Nat) (size : Nat) : Prop where
  disjoint : slots.Pairwise fun a b => a + 8 ≤ b ∨ b + 8 ≤ a
  inside : ∀ a ∈ slots, a + 8 ≤ size
  covers : ∀ byte < size, ∃ a ∈ slots, a ≤ byte ∧ byte < a + 8

/-- Slots are counted down from the size, the locals first. -/
theorem Frame.slots_eq (q : Procedure) :
    (ofProcedure q).locals ++ (ofProcedure q).parameters =
      (List.range (q.locals.length + q.parameters.length)).map fun i =>
        8 * (q.locals.length + q.parameters.length) - 8 * (i + 1) := by
  rw [List.range_add, List.map_append, List.map_map]
  rfl

theorem Frame.tiles (q : Procedure) :
    Tiles ((ofProcedure q).locals ++ (ofProcedure q).parameters) (ofProcedure q).size := by
  have hsize : (ofProcedure q).size = 8 * (q.locals.length + q.parameters.length) := rfl
  rw [slots_eq, hsize]
  generalize q.locals.length + q.parameters.length = count
  refine ⟨?_, ?_, ?_⟩
  · rw [List.pairwise_map]
    refine List.Pairwise.imp_of_mem ?_ List.pairwise_lt_range
    intro i j hi hj hlt
    rw [List.mem_range] at hi hj
    omega
  · intro a ha
    obtain ⟨i, hi, rfl⟩ := List.mem_map.mp ha
    rw [List.mem_range] at hi
    omega
  · intro byte hbyte
    refine ⟨8 * (byte / 8), List.mem_map.mpr ⟨count - 1 - byte / 8, ?_, ?_⟩, ?_, ?_⟩
    · rw [List.mem_range]
      omega
    · omega
    · omega
    · omega

end ProcLang
