import ProcLang.Proofs.Calls.Sequence
import ProcLang.Proofs.Correctness.Value
import ProcLang.Proofs.Machine.Trace

/-! What the code of single nodes leaves on the stack, whatever callees do. -/
namespace ProcLang

open Assembly Machine Codegen

namespace Codegen

variable {g : Codegen.Context} {code : Code}

theorem flows_fold (op : BinaryOp) (count : Nat) : flows false (foldCode op count) = true := by
  unfold foldCode
  induction count - 1 with
  | zero => rfl
  | succ n ih =>
    rw [List.replicate_succ, List.flatten_cons]
    exact flows_append rfl ih

theorem flows_pops (rs : List Register) : flows false (instructions (rs.map .pop)) = true := by
  induction rs with
  | nil => rfl
  | cons r rs ih => exact ih

theorem flows_call (q : Procedure) (count : Nat) : flows false (callCode q count) = true := by
  have hvariadic : flows false (instructions (if q.isVariadic then [.moveValue .rax 0] else [])) =
      true := by
    split <;> rfl
  have hresult : flows false q.resultCode = true := by
    unfold Procedure.resultCode
    split <;> rfl
  have hsetup : flows false (Procedure.setupCode count) = true := by
    rw [Procedure.setupCode, instructions, List.map_append]
    exact flows_append (flows_pops _) rfl
  rw [Procedure.callCode_split]
  exact flows_append (flows_append (flows_append hsetup hvariadic) rfl) hresult

theorem flows_literal {l : Literal} (h : literalCode l = .ok code) : flows false code = true := by
  obtain ⟨value, loc⟩ := l
  cases value with
  | integer value =>
    unfold literalCode at h
    dsimp only at h
    split at h
    · next hsmall =>
      cases h
      simp only [isSmall, Bool.and_eq_true, decide_eq_true_eq] at hsmall
      simpa [instructions, flows, Line.flows] using hsmall
    · cases h
      rfl
  | boolean value =>
    cases h
    cases value <;> rfl
  | character _ | text _ =>
    cases h
    rfl

theorem flows_closes {op : Operator} {count : Nat} {type : Option TypeAt}
    (h : Closes g count type op code) : flows false code = true := by
  cases h with
  | @load t w _ _ => cases w <;> rfl
  | call _ _ => exact flows_call _ _
  | plain _ => cases op <;> first | rfl | exact flows_fold _ _

/-- Control passes the code of every expression. -/
theorem flows_composed (h : Composed g code) : flows false code = true := by
  induction h with
  | nil | address a | store w => rfl
  | append _ _ hfirst hrest => exact flows_append hfirst hrest
  | literal h => exact flows_literal h
  | load w a => cases w <;> rfl
  | closes h => exact flows_closes h

end Codegen

theorem distance_of_slot {top a : Word} {n d : Nat} (ha : slot top a < n) (hn : 8 * n ≤ d)
    (hd : d < 2 ^ 64) :
    d - 8 * n ≤ (a - (top - BitVec.ofNat 64 d)).toNat ∧
      (a - (top - BitVec.ofNat 64 d)).toNat < d := by
  have hsplit : a - (top - BitVec.ofNat 64 d) = a - top + BitVec.ofNat 64 d := by ring
  have hlt := (a - top).isLt
  rw [slot_eq] at ha
  rw [hsplit, BitVec.toNat_add, BitVec.toNat_ofNat, Nat.mod_eq_of_lt hd]
  omega

namespace Area

variable {f : Area} {labels : Label → Word} {returns : Label → State → State → Prop}
  {σ : Nat → State} {pc k : Nat} {code first rest : Code} {a v : Word}
  {vs vs' : List Word} {m : Memory} {s : State} {w : Width}

/-- A run through some code leaves `vs` above the first `k` words. -/
def Yields (f : Area) (σ : Nat → State) (pc : Nat) (code : Code) (k : Nat) (vs : List Word) :
    Prop :=
  f.Stack k vs (σ (pc + code.length)).mem (σ (pc + code.length)) ∧
    f.Keeps k (σ pc).mem (σ (pc + code.length)).mem

theorem Stack.own (h : f.Stack k vs m s) : f.Stack k vs s.mem s :=
  { h with mem := fun _ _ => rfl }

theorem Yields.append (h : f.Yields σ pc first k vs)
    (h' : f.Yields σ (pc + first.length) rest k vs') : f.Yields σ pc (first ++ rest) k vs' := by
  unfold Yields at h h' ⊢
  rw [List.length_append, ← Nat.add_assoc]
  exact ⟨h'.1, h.2.trans h'.2⟩

/-- Code that leaves a word on top of others. -/
theorem Yields.above (h : f.Stack k vs (σ pc).mem (σ pc))
    (h' : f.Yields σ pc code (k + vs.length) [v]) : f.Yields σ pc code k (v :: vs) :=
  ⟨h.lower h'.1 h'.2, h'.2.mono (Nat.le_add_right k vs.length)⟩

theorem Yields.of_leaves (ht : Trace labels returns σ pc code)
    (h : f.Leaves labels (σ pc) code k vs m) : f.Yields σ pc code k vs := by
  obtain ⟨s', hrun, hstack, hkeeps⟩ := h
  obtain rfl := ht.eq_of_run hrun
  exact ⟨hstack.own, hkeeps⟩

/-- The frame lies above all words of the area. -/
def Framed (f : Area) : Prop :=
  (f.base - f.top).toNat + 8 * f.room ≤ 2 ^ 64

/-- The words of the area above the stack pointer are on the stack. -/
theorem Framed.onStack (hf : f.Framed) {d : Nat} (hrsp : s.regs .rsp = f.top - BitVec.ofNat 64 d)
    (hrbp : s.regs .rbp = f.base) (hd : d < 8 * f.room) {x : Word}
    (hx : (x - s.regs .rsp).toNat < d) : s.OnStack x := by
  have hframe : (f.base - f.top).toNat + 8 * f.room ≤ 2 ^ 64 := hf
  have hdistance : s.regs .rbp - s.regs .rsp = f.base + BitVec.ofNat 64 d - f.top := by
    rw [hrbp, hrsp]
    ring
  unfold State.OnStack
  rw [hdistance, offset_toNat (by omega)]
  omega

theorem yields_load {place : Address} (ht : Trace labels returns σ pc (loadCode w place))
    (h : f.Stack k [] (σ pc).mem (σ pc)) (hroom : k < f.room) :
    f.Yields σ pc (loadCode w place) k
      [BitVec.ofNat 64 ((σ pc).mem.read (address labels (σ pc) place) w.bytes)] :=
  .of_leaves ht (leaves_read h hroom place)

/-- Control does not get past a division whose quotient does not fit into a word. -/
theorem not_trace_divide {result : Register} {b : Word} (hfault : DivisionFault a b)
    (h : f.Stack k [a, b] m (σ pc)) : ¬Trace labels returns σ pc (divideCode result) := by
  intro ht
  have ha := h.pop (r := .rax) (by decide) (by decide)
  have hready : Trace labels returns σ pc (instructions [.pop .rax, .pop .rcx, .extendSign]) :=
    ht.of_prefix ⟨instructions [.divide, .push result], rfl⟩
  have hstate := hready.eq_of_run rfl
  have hpasses := ht 3 _ rfl
  rw [show pc + 3 = pc + (instructions [.pop .rax, .pop .rcx, .extendSign]).length from rfl,
    hstate] at hpasses
  cases hpasses with
  | line hline =>
    simp [runLine, exec, h.top_eq, ha.top_eq, divide_eq_none hfault] at hline

/-- An operator on values leaves what it denotes in the place of its operands. -/
theorem yields_plain {op : Operator} (hplain : op.isPlain = true) (hcounts : op.Counts vs.length)
    (ht : Trace labels returns σ pc (plainCode op vs.length))
    (h : f.Stack k vs (σ pc).mem (σ pc)) :
    ∃ v, op.denote vs = some v ∧ f.Yields σ pc (plainCode op vs.length) k [v] := by
  rcases Operator.exists_denote hplain hcounts with ⟨v, hv⟩ | ⟨hop, a, b, rfl, hfault⟩
  · exact ⟨v, hv, .of_leaves ht (leaves_plain h hv)⟩
  · rcases hop with rfl | rfl <;> exact absurd ht (not_trace_divide hfault h)

/-- A store that spares the stack leaves alone the words below its operands. -/
theorem yields_store (hf : f.Framed)
    (ht : Trace labels returns σ pc (instructions [.pop .rcx, .pop .rax, .store w, .push .rax]))
    (h : f.Stack k [a, v] (σ pc).mem (σ pc))
    (hspares : ∀ i < w.bytes, ¬f.Scratch (a + BitVec.ofNat 64 i) ∨
      ¬(σ (pc + 2)).OnStack ((σ (pc + 2)).regs .rcx + BitVec.ofNat 64 i)) :
    f.Yields σ pc (instructions [.pop .rcx, .pop .rax, .store w, .push .rax]) k [v] := by
  have ha := h.pop (r := .rcx) (by decide) (by decide)
  have hv := ha.pop (r := .rax) (by decide) (by decide)
  have hwithin := h.within
  simp only [List.length_cons, List.length_nil] at hwithin
  have hpops : Trace labels returns σ pc (instructions [.pop .rcx, .pop .rax]) :=
    ht.of_prefix ⟨instructions [.store w, .push .rax], rfl⟩
  have hstate : σ (pc + 2) = ((σ pc).pop .rcx).pop .rax := hpops.eq_of_run rfl
  have hrcx : (((σ pc).pop .rcx).pop .rax).regs .rcx = a := by simp [h.top_eq]
  rw [hstate, hrcx] at hspares
  have hkeeps : f.Keeps k (σ pc).mem ((σ pc).mem.write a w.bytes v.toNat) := by
    intro x hx hslot
    refine Memory.write_apply_of_not fun hnear => ?_
    obtain ⟨i, hi, rfl⟩ := Memory.exists_of_mem_write hnear
    rcases hspares i hi with hout | hoff
    · exact hout hx
    · have hfits := f.fits
      have hdistance := distance_of_slot hslot le_rfl (show 8 * k < 2 ^ 64 by omega)
      have hrsp : (((σ pc).pop .rcx).pop .rax).regs .rsp = f.top - BitVec.ofNat 64 (8 * k) := hv.rsp
      rw [← hrsp] at hdistance
      exact hoff (hf.onStack hrsp hv.rbp (by omega) hdistance.2)
  have hwritten : f.Stack k [] ((σ pc).mem.write a w.bytes v.toNat)
      { ((σ pc).pop .rcx).pop .rax with mem := (σ pc).mem.write a w.bytes v.toNat } :=
    ⟨hv.above, hv.within, hv.rsp, hv.rbp, fun _ _ => rfl, trivial⟩
  exact .of_leaves ht (leaves_write h hwritten hkeeps)

/-- A caller finds the word on top of its stack and those of the area again. -/
theorem Framed.restored (hf : f.Framed) {s' : State} {d : Nat}
    (hrsp : s.regs .rsp = f.top - BitVec.ofNat 64 d) (hrbp : s.regs .rbp = f.base)
    (hk : 8 * k + 8 ≤ d) (hd : d < 8 * f.room) (h : Restores s s') :
    s'.top = s.top ∧ f.Keeps k s.mem s'.mem := by
  have hfits := f.fits
  constructor
  · have hread : s'.mem.read (s.regs .rsp) 8 = s.mem.read (s.regs .rsp) 8 := by
      refine Memory.read_eq_of_bytes fun i hi => h.mem _ ?_
      refine hf.onStack hrsp hrbp hd ?_
      rw [Memory.add_sub_toNat (by omega)]
      omega
    rw [State.top, State.top, h.rsp, hread]
  · intro x _ hx
    have hnear := distance_of_slot hx (show 8 * k ≤ d by omega) (by omega)
    rw [← hrsp] at hnear
    exact h.mem x (hf.onStack hrsp hrbp hd hnear.2)

/-- Where the stack pointer is at a call, and what is kept up to there. -/
theorem Stack.calling (h : f.Stack k vs m s) (hfew : vs.length ≤ argumentRegisters.length)
    (hroom : k + 4 ≤ f.room) : ∃ d, 8 * k + 16 ≤ d ∧ d < 8 * (k + 4) ∧
      (Procedure.calling vs.length s).regs .rsp = f.top - BitVec.ofNat 64 d ∧
      (Procedure.calling vs.length s).top = f.rsp k ∧
      f.Keeps k s.mem (Procedure.calling vs.length s).mem := by
  have htaken : (Procedure.taken vs.length s).regs .rsp = f.rsp k := by
    rw [Procedure.rsp_taken hfew, h.rsp]
    unfold Area.rsp
    rw [Nat.mul_add, BitVec.ofNat_add]
    ring
  have hrsp : (Procedure.calling vs.length s).regs .rsp =
      f.top - BitVec.ofNat 64 (8 * k + (f.rsp k).toNat % 16 + 16) := by
    rw [Procedure.rsp_calling, State.aligned_rsp, htaken, BitVec.ofNat_add, BitVec.ofNat_add]
    generalize BitVec.ofNat 64 ((f.rsp k).toNat % 16) = extra
    unfold Area.rsp
    ring
  have hfits := f.fits
  refine ⟨_, by omega, by omega, hrsp, Procedure.top_calling.trans htaken, ?_⟩
  intro x _ hx
  have hnear := distance_of_slot hx
    (show 8 * k ≤ 8 * k + (f.rsp k).toNat % 16 + 16 by omega) (by omega)
  rw [← hrsp] at hnear
  exact Procedure.mem_calling (by omega)

/-- A call leaves the result of its callee in the place of its arguments. -/
theorem yields_call (hf : f.Framed)
    (hreturns : ∀ l s s', returns l s s' → Restores s s') {q : Procedure}
    (ht : Trace labels returns σ pc (callCode q vs.length))
    (hfew : vs.length ≤ argumentRegisters.length) (h : f.Stack k vs (σ pc).mem (σ pc))
    (hroom : k + 4 ≤ f.room) : ∃ s s', returns (.procedure q.name) s s' ∧
      f.Yields σ pc (callCode q vs.length) k [q.resultWord s'] := by
  obtain ⟨d, hlow, hhigh, hrsp, htop, hkeeps⟩ := h.calling hfew hroom
  obtain ⟨s₁, hsetup, hregs, hmem⟩ := Procedure.run_variadic labels q vs.length (σ pc)
  rw [Procedure.callCode_split] at ht ⊢
  generalize Procedure.setupCode vs.length ++ instructions (if q.isVariadic then
    [.moveValue .rax 0] else []) = ready at ht hsetup ⊢
  -- the states in front of the call, behind it, and behind the code that takes the result
  have hbefore : σ (pc + ready.length) = s₁ := ht.left.left.eq_of_run hsetup
  have hreturned := ht.left.right.head.returned
  have htaken := ht.right
  rw [hbefore] at hreturned
  have hposition : pc + (ready ++ instructions [.call (.procedure q.name)]).length =
      pc + ready.length + 1 := by
    rw [List.length_append, ← Nat.add_assoc]
    rfl
  unfold Yields
  rw [List.length_append, ← Nat.add_assoc]
  rw [hposition] at htaken ⊢
  obtain ⟨s₃, hrun, hrbp₃, hrsp₃, hmem₃⟩ :=
    Procedure.run_result labels q (σ (pc + ready.length + 1))
  rw [htaken.eq_of_run hrun]
  generalize σ (pc + ready.length + 1) = s₂ at hreturned hrbp₃ hrsp₃ hmem₃ ⊢
  have hrsp₁ : s₁.regs .rsp = f.top - BitVec.ofNat 64 d := (hregs .rsp (by decide)).trans hrsp
  have hrbp₁ : s₁.regs .rbp = f.base := by
    rw [hregs .rbp (by decide), Procedure.rbp_calling, h.rbp]
  have hrestores := hreturns _ _ _ hreturned
  obtain ⟨htop₂, hkeeps₂⟩ := hf.restored (k := k) hrsp₁ hrbp₁ (by omega) (by omega) hrestores
  have hstack : f.Stack k [] s₃.mem s₃ := by
    refine ⟨h.above, by simp; omega, ?_, ?_, fun _ _ => rfl, trivial⟩
    · have htop₁ : s₁.top = (Procedure.calling vs.length (σ pc)).top := by
        rw [State.top, State.top, hmem, hregs .rsp (by decide)]
      rw [hrsp₃, htop₂, htop₁, htop]
      rfl
    · rw [hrbp₃, hrestores.rbp, hrbp₁]
  refine ⟨s₁, s₂, hreturned, (hstack.push (by simp; omega) _).own, ?_⟩
  have hkeeps₁ : f.Keeps k (σ pc).mem s₁.mem := by rwa [hmem]
  have hkeeps₃ : f.Keeps k s₂.mem s₃.mem := .of_eq hmem₃ k
  have hpush := hstack.keeps_push (by simp; omega) (q.resultWord s₂)
  exact ((hkeeps₁.trans hkeeps₂).trans hkeeps₃).trans hpush

end Area

end ProcLang
