import ProcLang.Codegen.Expression
import ProcLang.Proofs.Machine.Execution

/-! Heights of the operand stack, told from code alone. -/
namespace ProcLang.Assembly

open Codegen Machine

/-- The height of the stack after an instruction, in words. Nothing is taken from an empty stack.
There is no telling for instructions that set the stack or frame pointer or leave the procedure, and
none for a push of `r10`, which holds a stack pointer. -/
def Instruction.heightAfter : Instruction → Nat → Option Nat
  | .push r, h => if r = .r10 then none else some (h + 1)
  | .pushValue _, h | .pushZero, h => some (h + 1)
  | .pop _, 0 | .drop _, 0 => none
  | .pop r, h + 1 => if r = .rsp ∨ r = .rbp then none else some h
  | .drop bytes, h + 1 => if bytes = wordSize then some h else none
  | .move r _, h | .moveValue r _, h => if r = .rsp ∨ r = .rbp then none else some h
  | .alignStack, _ | .call _, _ | .ret, _ => none
  | _, h => some h

namespace Line

def heightAfter : Line → Nat → Option Nat
  | .label _, h => some h
  | .instruction i, h => i.heightAfter h

/-- Where a line may jump. -/
def target? : Line → Option Label
  | .instruction (.jump l) | .instruction (.jumpIfEqual l) => some l
  | _ => none

/-- Control may go on to the next line. -/
def passes : Line → Bool
  | .instruction (.jump _) | .instruction .ret => false
  | _ => true

/-- A label or a jump. -/
def isControl (l : Line) : Bool :=
  l.label?.isSome || l.target?.isSome

end Line

theorem heightAfter_of_target? {l : Line} {target : Label} (h : l.target? = some target)
    (height : Nat) : l.heightAfter height = some height := by
  cases l with
  | label _ => cases h
  | instruction i =>
    cases i with
    | jump _ | jumpIfEqual _ => rfl
    | _ => cases h

/-- The lines of a call that save the stack pointer, align it and restore it. -/
def callBlock (variadic : Bool) (callee : Label) : Code :=
  instructions <|
    [.move .r10 .rsp, .alignStack, .push .r10, .push .r10] ++
    (if variadic then [.moveValue .rax 0] else []) ++ [.call callee, .pop .rsp]

/-- A line between the saving and the restoring of the stack pointer. -/
def InCall (code : Code) (pc : Nat) : Prop :=
  ∃ start variadic callee, CodeAt code start (callBlock variadic callee) ∧ start ≤ pc ∧
    pc < start + (callBlock variadic callee).length

/-- Control may go from one line to another. A call comes back to the line behind it. -/
inductive Flows (code : Code) : Nat → Nat → Prop
  | next {pc : Nat} {l : Line} (hat : code[pc]? = some l) (hpasses : l.passes = true) :
      Flows code pc (pc + 1)
  | jump {pc pc' : Nat} {l : Line} {target : Label} (hat : code[pc]? = some l)
      (htarget : l.target? = some target) (hdest : Machine.target? code target = some pc') :
      Flows code pc pc'

/-- Heights for the lines from `first` on, up to `last`, that all ways through the code agree on.
Calls leave the stack as it is; other lines are told one by one. -/
structure Levelled (code : Code) (first last : Nat) (height : Nat → Nat) : Prop where
  start : height first = 0
  stop : height last = 0
  inside : ∀ pc pc', first ≤ pc → pc < last → Flows code pc pc' → first ≤ pc' ∧ pc' ≤ last
  call : ∀ pc pc', first ≤ pc → pc < last → Flows code pc pc' → InCall code pc →
    height pc' = height pc
  line : ∀ pc pc', first ≤ pc → pc < last → Flows code pc pc' → ¬InCall code pc →
    ∃ l, code[pc]? = some l ∧ l.heightAfter (height pc) = some (height pc')
  jump : ∀ pc l target, first ≤ pc → pc < last → code[pc]? = some l → l.target? = some target →
    ∃ pc', Machine.target? code target = some pc'

section

variable {code : Code} {pc : Nat} {labels : Label → Word} {s s' : State}

theorem flows_of_step {pc' : Nat} (h : step labels code pc s = some (pc', s')) :
    Flows code pc pc' := by
  unfold step at h
  cases hat : code[pc]? with
  | none => simp [hat] at h
  | some l =>
    simp only [hat] at h
    cases l with
    | label l =>
      cases h
      exact .next hat rfl
    | instruction i =>
      cases i with
      | jump target =>
        obtain ⟨dest, hdest, heq⟩ := Option.map_eq_some_iff.mp h
        cases heq
        exact .jump hat rfl hdest
      | jumpIfEqual target =>
        dsimp only at h
        split at h
        · cases h
        · split at h
          · obtain ⟨dest, hdest, heq⟩ := Option.map_eq_some_iff.mp h
            cases heq
            exact .jump hat rfl hdest
          · cases h
            exact .next hat rfl
      | ret => cases h
      | _ =>
        obtain ⟨s₁, -, heq⟩ := Option.map_eq_some_iff.mp h
        cases heq
        exact .next hat rfl

/-- What is told of an instruction is what it does to the stack pointer. -/
theorem rsp_of_heightAfter {i : Instruction} {h h' : Nat} (hexec : exec labels s i = some s')
    (hafter : i.heightAfter h = some h') :
    s'.regs .rbp = s.regs .rbp ∧
      s'.regs .rsp + BitVec.ofNat 64 (8 * h') = s.regs .rsp + BitVec.ofNat 64 (8 * h) := by
  have hraise : ∀ (x : Word) (n : Nat),
      x - 8 + BitVec.ofNat 64 (8 * (n + 1)) = x + BitVec.ofNat 64 (8 * n) := by
    intro x n
    bv_omega
  have hlower : ∀ (x : Word) (n : Nat),
      x + 8 + BitVec.ofNat 64 (8 * n) = x + BitVec.ofNat 64 (8 * (n + 1)) := by
    intro x n
    bv_omega
  cases i with
  | push r =>
    rw [Instruction.heightAfter, Option.ite_none_left_eq_some] at hafter
    obtain ⟨-, heq⟩ := hafter
    cases heq
    cases hexec
    exact ⟨rfl, hraise _ h⟩
  | pushValue value =>
    rw [exec, Option.ite_none_right_eq_some] at hexec
    obtain ⟨-, heq⟩ := hexec
    cases heq
    cases hafter
    exact ⟨rfl, hraise _ h⟩
  | pushZero =>
    cases hafter
    cases hexec
    exact ⟨rfl, hraise _ h⟩
  | pop r =>
    cases h with
    | zero => cases hafter
    | succ h =>
      rw [Instruction.heightAfter, Option.ite_none_left_eq_some, not_or] at hafter
      obtain ⟨⟨hrsp, hrbp⟩, heq⟩ := hafter
      cases heq
      cases hexec
      simp only [State.regs_pop, if_neg (Ne.symm hrsp), if_neg (Ne.symm hrbp)]
      exact ⟨rfl, hlower _ h'⟩
  | drop bytes =>
    cases h with
    | zero => cases hafter
    | succ h =>
      rw [Instruction.heightAfter, Option.ite_none_right_eq_some] at hafter
      obtain ⟨rfl, heq⟩ := hafter
      cases heq
      cases hexec
      exact ⟨rfl, hlower _ h'⟩
  | move r source | moveValue r value =>
    rw [Instruction.heightAfter, Option.ite_none_left_eq_some, not_or] at hafter
    obtain ⟨⟨hrsp, hrbp⟩, heq⟩ := hafter
    cases heq
    cases hexec
    simp only [State.regs_set, if_neg (Ne.symm hrsp), if_neg (Ne.symm hrbp), and_self]
  | alignStack | call | ret => cases hafter
  | jump | jumpIfEqual => cases hexec
  | divide =>
    obtain ⟨result, -, rfl⟩ := Option.map_eq_some_iff.mp hexec
    cases hafter
    exact ⟨rfl, rfl⟩
  | set c =>
    obtain ⟨flags, -, rfl⟩ := Option.map_eq_some_iff.mp hexec
    cases hafter
    exact ⟨rfl, rfl⟩
  | _ =>
    cases hafter
    cases hexec
    exact ⟨rfl, rfl⟩

theorem rsp_of_step {pc' : Nat} {l : Line} {h h' : Nat} (hat : code[pc]? = some l)
    (hafter : l.heightAfter h = some h') (hstep : step labels code pc s = some (pc', s')) :
    s'.regs .rbp = s.regs .rbp ∧
      s'.regs .rsp + BitVec.ofNat 64 (8 * h') = s.regs .rsp + BitVec.ofNat 64 (8 * h) := by
  unfold step at hstep
  simp only [hat] at hstep
  cases l with
  | label l =>
    cases hafter
    cases hstep
    exact ⟨rfl, rfl⟩
  | instruction i =>
    cases i with
    | jump target =>
      obtain ⟨dest, -, heq⟩ := Option.map_eq_some_iff.mp hstep
      cases heq
      cases hafter
      exact ⟨rfl, rfl⟩
    | jumpIfEqual target =>
      cases hafter
      dsimp only at hstep
      split at hstep
      · cases hstep
      · split at hstep
        · obtain ⟨dest, -, heq⟩ := Option.map_eq_some_iff.mp hstep
          cases heq
          exact ⟨rfl, rfl⟩
        · cases hstep
          exact ⟨rfl, rfl⟩
    | ret => cases hafter
    | _ =>
      obtain ⟨s₁, hexec, heq⟩ := Option.map_eq_some_iff.mp hstep
      cases heq
      exact rsp_of_heightAfter hexec hafter

theorem InCall.append_left (h : InCall code pc) (before : Code) :
    InCall (before ++ code) (before.length + pc) := by
  obtain ⟨start, variadic, callee, hat, hle, hlt⟩ := h
  refine ⟨before.length + start, variadic, callee, ?_, by omega, by omega⟩
  unfold CodeAt at hat ⊢
  rwa [List.drop_length_add_append]

theorem InCall.append_right (h : InCall code pc) (after : Code) : InCall (code ++ after) pc := by
  obtain ⟨start, variadic, callee, hat, hle, hlt⟩ := h
  refine ⟨start, variadic, callee, ?_, hle, hlt⟩
  obtain ⟨rest, hrest⟩ := hat
  have hstart : start ≤ code.length := by
    have := congrArg List.length hrest
    simp only [List.length_append, List.length_drop] at this
    omega
  refine ⟨rest ++ after, ?_⟩
  rw [List.drop_append_of_le_length hstart, ← hrest, List.append_assoc]

theorem mem_callBlock_of_inCall {l : Line} (h : InCall code pc) (hat : code[pc]? = some l) :
    ∃ variadic callee, l ∈ callBlock variadic callee := by
  obtain ⟨start, variadic, callee, ⟨rest, hrest⟩, hle, hlt⟩ := h
  obtain ⟨k, rfl⟩ := Nat.exists_eq_add_of_le hle
  have hk : k < (callBlock variadic callee).length := by omega
  rw [← List.getElem?_drop, ← hrest, List.getElem?_append_left hk] at hat
  exact ⟨variadic, callee, List.mem_of_getElem? hat⟩

theorem heightAfter_of_mem_callBlock {variadic : Bool} {callee : Label} {l : Line}
    (h : l ∈ callBlock variadic callee) (height : Nat) :
    (l.heightAfter height).getD height = height ∧ l.isControl = false := by
  have hlines : l ∈ callBlock true callee := by
    cases variadic
    · simp only [callBlock, instructions, List.mem_map] at h ⊢
      obtain ⟨i, hi, rfl⟩ := h
      exact ⟨i, by simp at hi ⊢; tauto, rfl⟩
    · exact h
  simp only [callBlock, instructions, if_true, List.map_append, List.map_cons, List.map_nil,
    List.mem_append, List.mem_cons, List.not_mem_nil, or_false] at hlines
  rcases hlines with ((rfl | rfl | rfl | rfl) | rfl) | rfl | rfl
  case inr.inr => cases height <;> exact ⟨rfl, rfl⟩
  all_goals exact ⟨rfl, rfl⟩

end

/-- The height behind some code. Lines without a telling keep it. -/
def level (height : Nat) (code : Code) : Nat :=
  code.foldl (fun h l => (l.heightAfter h).getD h) height

@[simp] theorem level_nil (h : Nat) : level h [] = h := rfl

theorem level_cons (h : Nat) (l : Line) (code : Code) :
    level h (l :: code) = level ((l.heightAfter h).getD h) code := rfl

theorem level_append (h : Nat) (before after : Code) :
    level h (before ++ after) = level (level h before) after :=
  List.foldl_append

/-- Behind the first `k` lines. -/
theorem level_take_succ (h : Nat) {code : Code} {k : Nat} {l : Line} (hk : code[k]? = some l) :
    level h (code.take (k + 1)) =
      (l.heightAfter (level h (code.take k))).getD (level h (code.take k)) := by
  rw [List.take_add_one, hk, level_append]
  rfl

theorem level_callBlock {variadic : Bool} {callee : Label} {part : Code}
    (hpart : part ⊆ callBlock variadic callee) (h : Nat) : level h part = h := by
  induction part with
  | nil => rfl
  | cons l part ih =>
    rw [level_cons, (heightAfter_of_mem_callBlock (hpart (by simp)) h).1]
    exact ih fun l' hl' => hpart (by simp [hl'])

/-- Code that takes the stack from one height to another. Labels and jumps stand at height zero,
and jumps lead to `targets`. -/
inductive Climbs (targets : Label → Prop) : Nat → Code → Nat → Prop
  | nil (h : Nat) : Climbs targets h [] h
  | straight {h h' h'' : Nat} {l : Line} {rest : Code} (hafter : l.heightAfter h = some h')
      (hstraight : l.isControl = false) (hrest : Climbs targets h' rest h'') :
      Climbs targets h (l :: rest) h''
  | control {h' : Nat} {l : Line} {rest : Code} (hafter : l.heightAfter 0 = some 0)
      (htarget : ∀ target, l.target? = some target → targets target)
      (hrest : Climbs targets 0 rest h') : Climbs targets 0 (l :: rest) h'
  | call {h h' : Nat} {rest : Code} (variadic : Bool) (callee : Label)
      (hrest : Climbs targets h rest h') : Climbs targets h (callBlock variadic callee ++ rest) h'

namespace Climbs

variable {targets targets' : Label → Prop} {h h' h'' : Nat} {code first rest : Code}

theorem append (hfirst : Climbs targets h first h') (hrest : Climbs targets h' rest h'') :
    Climbs targets h (first ++ rest) h'' := by
  induction hfirst with
  | nil h => exact hrest
  | straight hafter hstraight _ ih => exact .straight hafter hstraight (ih hrest)
  | control hafter htarget _ ih => exact .control hafter htarget (ih hrest)
  | call variadic callee _ ih =>
    rw [List.append_assoc]
    exact .call variadic callee (ih hrest)

theorem mono (hcode : Climbs targets h code h') (himp : ∀ l, targets l → targets' l) :
    Climbs targets' h code h' := by
  induction hcode with
  | nil h => exact .nil h
  | straight hafter hstraight _ ih => exact .straight hafter hstraight ih
  | control hafter htarget _ ih =>
    exact .control hafter (fun target ht => himp target (htarget target ht)) ih
  | call variadic callee _ ih => exact .call variadic callee ih

/-- Straight code is told by following its instructions. -/
theorem of_instructions {is : List Instruction}
    (hafter : is.foldlM (fun h i => i.heightAfter h) h = some h')
    (hstraight : ∀ i ∈ is, (Line.instruction i).target? = none) :
    Climbs targets h (instructions is) h' := by
  induction is generalizing h with
  | nil =>
    cases hafter
    exact .nil _
  | cons i is ih =>
    rw [List.foldlM_cons, Option.bind_eq_bind, Option.bind_eq_some_iff] at hafter
    obtain ⟨next, hnext, hrest⟩ := hafter
    have hcontrol : (Line.instruction i).isControl = false := by
      simp [Line.isControl, Line.label?, hstraight i (by simp)]
    exact .straight hnext hcontrol (ih hrest fun i hi => hstraight i (by simp [hi]))

theorem level_eq (hcode : Climbs targets h code h') : level h code = h' := by
  induction hcode with
  | nil h => rfl
  | straight hafter _ _ ih => rw [level_cons, hafter, Option.getD_some, ih]
  | control hafter _ _ ih => rw [level_cons, hafter, Option.getD_some, ih]
  | call variadic callee _ ih => rw [level_append, level_callBlock (List.Subset.refl _), ih]

/-- Every line is told, unless it belongs to a call. -/
theorem heightAfter_of_getElem? (hcode : Climbs targets h code h') {k : Nat} {l : Line}
    (hk : code[k]? = some l) :
    InCall code k ∨ l.heightAfter (level h (code.take k)) = some (level h (code.take (k + 1))) := by
  induction hcode generalizing k with
  | nil h => cases hk
  | straight hafter _ _ ih | control hafter _ _ ih =>
    cases k with
    | zero =>
      cases hk
      right
      simp [level_cons, hafter]
    | succ k =>
      rcases ih hk with hcall | hafter'
      · left
        rw [Nat.add_comm]
        exact hcall.append_left [_]
      · right
        simpa only [List.take_succ_cons, level_cons, hafter, Option.getD_some] using hafter'
  | @call h h' rest variadic callee _ ih =>
    by_cases hin : k < (callBlock variadic callee).length
    · exact .inl ⟨0, variadic, callee, List.prefix_append _ _, Nat.zero_le k, by omega⟩
    · obtain ⟨j, rfl⟩ := Nat.exists_eq_add_of_le (Nat.le_of_not_lt hin)
      rw [List.getElem?_append_right (Nat.le_add_right _ _), Nat.add_sub_cancel_left] at hk
      rcases ih hk with hcall | hafter
      · exact .inl (hcall.append_left _)
      · right
        rwa [List.take_length_add_append, Nat.add_assoc, List.take_length_add_append, level_append,
          level_append, level_callBlock (List.Subset.refl _)]

/-- Labels and jumps stand at height zero, and jumps lead to the targets. -/
theorem level_eq_zero (hcode : Climbs targets h code h') {k : Nat} {l : Line}
    (hk : code[k]? = some l) (hl : l.isControl = true) :
    level h (code.take k) = 0 ∧ ∀ target, l.target? = some target → targets target := by
  induction hcode generalizing k with
  | nil h => cases hk
  | straight hafter hstraight _ ih =>
    cases k with
    | zero =>
      cases hk
      rw [hstraight] at hl
      cases hl
    | succ k =>
      simpa only [List.take_succ_cons, level_cons, hafter, Option.getD_some] using ih hk
  | control hafter htarget _ ih =>
    cases k with
    | zero =>
      cases hk
      exact ⟨rfl, htarget⟩
    | succ k =>
      simpa only [List.take_succ_cons, level_cons, hafter, Option.getD_some] using ih hk
  | @call h h' rest variadic callee _ ih =>
    by_cases hin : k < (callBlock variadic callee).length
    · rw [List.getElem?_append_left hin] at hk
      rw [(heightAfter_of_mem_callBlock (List.mem_of_getElem? hk) 0).2] at hl
      cases hl
    · obtain ⟨j, rfl⟩ := Nat.exists_eq_add_of_le (Nat.le_of_not_lt hin)
      rw [List.getElem?_append_right (Nat.le_add_right _ _), Nat.add_sub_cancel_left] at hk
      rw [List.take_length_add_append, level_append, level_callBlock (List.Subset.refl _)]
      exact ih hk

end Climbs

theorem getElem?_of_target? {code : Code} {l : Label} {pc : Nat}
    (h : Machine.target? code l = some pc) : code[pc]? = some (.label l) := by
  obtain ⟨hlt, hl, -⟩ := List.findIdx?_eq_some_iff_getElem.mp h
  rw [List.getElem?_eq_getElem hlt, of_decide_eq_true hl]

theorem exists_target? {code : Code} {l : Label} (h : l ∈ labelsOf code) :
    ∃ pc, Machine.target? code l = some pc := by
  obtain ⟨line, hline, hl⟩ := List.mem_filterMap.mp h
  cases line with
  | instruction i => cases hl
  | label l' =>
    cases hl
    have hsome : (Machine.target? code l).isSome = true := by
      rw [Machine.target?, List.findIdx?_isSome, List.any_eq_true]
      exact ⟨.label l, hline, by simp⟩
    exact Option.isSome_iff_exists.mp hsome

/-- The labels that a body may jump to. -/
def Inside (code : Code) (l : Label) : Prop :=
  l = .exit ∨ l ∈ labelsOf code

section

variable {start body finish : Code} {l : Line} {pc : Nat}

/-- A line of the body, counted from the body's first line. -/
theorem getElem?_body (hfirst : start.length ≤ pc) (hlast : pc < start.length + body.length)
    (hat : (start ++ body ++ finish)[pc]? = some l) : body[pc - start.length]? = some l := by
  rwa [List.append_assoc, List.getElem?_append_right hfirst,
    List.getElem?_append_left (by omega)] at hat

/-- A label that the body may jump to stands in the body, or right behind it. -/
theorem range_of_target? {target : Label} {pc' : Nat}
    (hstart : ∀ l ∈ labelsOf start, ¬Inside body l) (hfinish : labelsOf finish = [])
    (htarget : Inside body target)
    (h : Machine.target? (start ++ body ++ .label .exit :: finish) target = some pc') :
    start.length ≤ pc' ∧ pc' ≤ start.length + body.length := by
  have hat := getElem?_of_target? h
  by_contra hout
  rcases Nat.lt_or_ge pc' start.length with hlt | hge
  · rw [List.append_assoc, List.getElem?_append_left hlt] at hat
    have hmem : target ∈ labelsOf start :=
      List.mem_filterMap.mpr ⟨_, List.mem_of_getElem? hat, rfl⟩
    exact hstart target hmem htarget
  · have hpast : start.length + body.length < pc' := by omega
    obtain ⟨k, rfl⟩ := Nat.exists_eq_add_of_lt hpast
    rw [List.getElem?_append_right (by simp; omega)] at hat
    have hindex : start.length + body.length + k + 1 - (start ++ body).length = k + 1 := by
      simp only [List.length_append]
      omega
    rw [hindex, List.getElem?_cons_succ] at hat
    have hmem : target ∈ labelsOf finish :=
      List.mem_filterMap.mpr ⟨_, List.mem_of_getElem? hat, rfl⟩
    rw [hfinish] at hmem
    cases hmem

/-- Code that climbs from zero to zero tells the height at each of its lines. -/
theorem Climbs.levelled (hbody : Climbs (Inside body) 0 body 0)
    (hstart : ∀ l ∈ labelsOf start, ¬Inside body l) (hfinish : labelsOf finish = []) :
    Levelled (start ++ body ++ .label .exit :: finish) start.length (start.length + body.length)
      fun pc => level 0 (body.take (pc - start.length)) := by
  -- a jump starts at height zero and leads to a label, which stands at height zero
  have hjump : ∀ pc pc' l target, start.length ≤ pc → pc < start.length + body.length →
      (start ++ body ++ .label .exit :: finish)[pc]? = some l → l.target? = some target →
      Machine.target? (start ++ body ++ .label .exit :: finish) target = some pc' →
      (start.length ≤ pc' ∧ pc' ≤ start.length + body.length) ∧
      level 0 (body.take (pc - start.length)) = 0 ∧
      level 0 (body.take (pc' - start.length)) = 0 := by
    intro pc pc' l target hfirst hlast hat htarget hdest
    have hcontrol : l.isControl = true := by simp [Line.isControl, htarget]
    obtain ⟨hzero, htargets⟩ := hbody.level_eq_zero (getElem?_body hfirst hlast hat) hcontrol
    have hrange := range_of_target? hstart hfinish (htargets target htarget) hdest
    refine ⟨hrange, hzero, ?_⟩
    rcases Nat.lt_or_ge pc' (start.length + body.length) with hlt | hge
    · have hlabel := getElem?_body hrange.1 hlt (getElem?_of_target? hdest)
      exact (hbody.level_eq_zero hlabel rfl).1
    · rw [List.take_of_length_le (by omega)]
      exact hbody.level_eq
  -- going on to the next line
  have hnext : ∀ pc l, start.length ≤ pc → pc < start.length + body.length →
      (start ++ body ++ .label .exit :: finish)[pc]? = some l →
      level 0 (body.take (pc + 1 - start.length)) =
        (l.heightAfter (level 0 (body.take (pc - start.length)))).getD
          (level 0 (body.take (pc - start.length))) := by
    intro pc l hfirst hlast hat
    rw [Nat.sub_add_comm hfirst]
    exact level_take_succ 0 (getElem?_body hfirst hlast hat)
  refine ⟨by simp, ?_, ?_, ?_, ?_, ?_⟩
  · rw [Nat.add_sub_cancel_left, List.take_length]
    exact hbody.level_eq
  · intro pc pc' hfirst hlast hflow
    cases hflow with
    | next hat _ => omega
    | jump hat htarget hdest => exact (hjump pc pc' _ _ hfirst hlast hat htarget hdest).1
  · intro pc pc' hfirst hlast hflow hcall
    cases hflow with
    | next hat _ =>
      obtain ⟨variadic, callee, hmem⟩ := mem_callBlock_of_inCall hcall hat
      rw [hnext pc _ hfirst hlast hat]
      exact (heightAfter_of_mem_callBlock hmem _).1
    | jump hat htarget hdest =>
      obtain ⟨-, hzero, hzero'⟩ := hjump pc pc' _ _ hfirst hlast hat htarget hdest
      rw [hzero, hzero']
  · intro pc pc' hfirst hlast hflow hcall
    have hcall' : ¬InCall body (pc - start.length) := by
      intro hbodyCall
      refine hcall ?_
      have := (hbodyCall.append_left start).append_right (.label .exit :: finish)
      rwa [Nat.add_sub_cancel' hfirst] at this
    cases hflow with
    | @next l hat _ =>
      have htold := (hbody.heightAfter_of_getElem? (getElem?_body hfirst hlast hat)).resolve_left
        hcall'
      rw [← Nat.sub_add_comm hfirst] at htold
      exact ⟨l, hat, htold⟩
    | @jump _ l target hat htarget hdest =>
      obtain ⟨-, hzero, hzero'⟩ := hjump pc pc' l target hfirst hlast hat htarget hdest
      refine ⟨l, hat, ?_⟩
      rw [hzero, hzero']
      exact heightAfter_of_target? htarget 0
  · intro pc l target hfirst hlast hat htarget
    have hcontrol : l.isControl = true := by simp [Line.isControl, htarget]
    have hinside := (hbody.level_eq_zero (getElem?_body hfirst hlast hat) hcontrol).2 target htarget
    refine exists_target? ?_
    rcases hinside with rfl | hmem
    · simp [labelsOf, Line.label?]
    · simp only [labelsOf, List.filterMap_append, List.mem_append]
      exact .inl (.inr hmem)

end

end ProcLang.Assembly
