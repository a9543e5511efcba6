import ProcLang.Proofs.Correctness.Statement

/-! Frames of running procedures: where they lie, and how code sets them up and takes them down. -/
namespace ProcLang

open Assembly Machine Codegen Semantics

/-- Words of stack that the code of a statement takes. -/
def Statement.depth (s : Statement) : Nat :=
  (s.expressions.map Expression.depth).foldr max 0

theorem Statement.depth_le {s : Statement} {e : Expression} (he : e ∈ s.expressions) :
    e.depth ≤ s.depth := by
  unfold depth
  generalize s.expressions = es at he
  induction es with
  | nil => cases he
  | cons e' es ih =>
    rw [List.map_cons, List.foldr_cons]
    rcases List.mem_cons.mp he with rfl | he
    · exact le_max_left _ _
    · exact (ih he).trans (le_max_right _ _)

namespace Procedure

/-- Words of a frame: the frame pointer of the caller, the locals and the parameters. -/
def frameWords (q : Procedure) : Nat :=
  1 + q.locals.length + q.parameters.length

/-- Words of stack that a procedure takes. -/
def stackWords (q : Procedure) (body : Statement) : Nat :=
  q.frameWords + body.depth

/-- A byte of the stack that a procedure takes below `top`. -/
def Owns (q : Procedure) (body : Statement) (top a : Word) : Prop :=
  slot top a < q.stackWords body

end Procedure

namespace Program

variable (p : Program) (q : Procedure) (labels : Label → Word) (top : Word)

/-- Where variables lie while a procedure runs that was entered with its stack at `top`. -/
def place : Storage → Word
  | .global index => (p.globals[index]?.map fun d => labels (.global d.name)).getD 0
  | .localVar index => top - BitVec.ofNat 64 (8 * (index + 2))
  | .parameter index => top - BitVec.ofNat 64 (8 * (q.locals.length + index + 2))

/-- A byte of the storage of some variable. -/
def Stores (a : Word) : Prop :=
  ∃ storage d w, (p.context q).declaration? storage = some d ∧ d.type.ty.width? = some w ∧
    (a - p.place q labels top storage).toNat < w.bytes

/-- What a body means depends on where its variables lie. Pointers may lead to these, and to all
memory that is not the procedure's own stack. Characters may be evaluated at any time. -/
def env (body : Statement) : Env where
  place := p.place q labels top
  static := labels
  Permitted a := p.Stores q labels top a ∨ ¬q.Owns body top a
  Legible _ _ := True

/-- Memory as a body finds it: parameters have the values that are passed for them, and locals are
zero. -/
structure Entered (body : Statement) (s : State) (m : Memory) : Prop where
  localVar : ∀ {i : Nat} {d w}, q.locals[i]? = some d → d.type.ty.width? = some w →
    m.read (p.place q labels (s.regs .rsp) (.localVar i)) w.bytes = 0
  parameter : ∀ {i : Nat} {d w r}, q.parameters[i]? = some (.var d) → d.type.ty.width? = some w →
    argumentRegisters[i]? = some r →
    m.read (p.place q labels (s.regs .rsp) (.parameter i)) w.bytes =
      (s.regs r).toNat % 256 ^ w.bytes
  outside : ∀ a, ¬q.Owns body (s.regs .rsp) a → m a = s.mem a

/-- Initialised memory lies outside of the stack that a procedure takes. -/
structure DataOutside (body : Statement) : Prop where
  globals : ∀ d ∈ p.globals, ∀ {w}, d.type.ty.width? = some w → ∀ i < w.bytes,
    ¬q.Owns body top (labels (.global d.name) + BitVec.ofNat 64 i)
  characters : ∀ value loc, .literal ⟨.character value, loc⟩ ∈ body.parts →
    ¬q.Owns body top (labels (.character loc))

variable {p q labels top} {body : Statement}

theorem width_le (w : Width) : w.bytes ≤ 8 := by
  cases w <;> decide

/-- Variables on the stack lie between the saved frame pointer and the operands. -/
theorem slot_of_stores (hfits : 8 * q.stackWords body ≤ 2 ^ 64)
    (hdata : p.DataOutside q labels top body) {a : Word} (h : p.Stores q labels top a)
    (ha : q.Owns body top a) : 1 ≤ slot top a ∧ slot top a < q.frameWords := by
  obtain ⟨storage, d, w, hd, hw, hnear⟩ := h
  have hwidth := width_le w
  have hwords : q.frameWords ≤ q.stackWords body := Nat.le_add_right _ _
  unfold Procedure.frameWords at hwords ⊢
  cases storage with
  | global index =>
    have hg : p.globals[index]? = some d := hd
    simp only [place, hg, Option.map_some, Option.getD_some] at hnear
    obtain ⟨i, hi, rfl⟩ := Memory.exists_of_mem_write hnear
    exact absurd ha (hdata.globals d (List.mem_of_getElem? hg) hw i hi)
  | localVar index =>
    have hl : q.locals[index]? = some d := hd
    have hlt := (List.getElem?_eq_some_iff.mp hl).1
    have hslot : slot top a = index + 1 := slot_of_near (by omega) (hnear.trans_le hwidth)
    omega
  | parameter index =>
    obtain ⟨r, hr, -⟩ := Option.bind_eq_some_iff.mp hd
    have hr' : q.parameters[index]? = some r := hr
    have hlt := (List.getElem?_eq_some_iff.mp hr').1
    have hslot : slot top a = q.locals.length + index + 1 :=
      slot_of_near (by omega) (hnear.trans_le hwidth)
    omega

variable (p q labels top body) in
/-- The stack of a procedure that was entered with its stack at `top`. -/
def area (hfits : 8 * q.stackWords body ≤ 2 ^ 64) (hdata : p.DataOutside q labels top body) :
    Area where
  top := top
  base := top - BitVec.ofNat 64 (8 * q.frameWords)
  low := q.frameWords
  room := q.stackWords body
  Scratch a := q.Owns body top a ∧ ¬p.Stores q labels top a
  fits := hfits
  free _ hlow hroom :=
    ⟨hroom, fun h => absurd (slot_of_stores hfits hdata h hroom).2 (Nat.not_lt.mpr hlow)⟩

variable {hfits : 8 * q.stackWords body ≤ 2 ^ 64} {hdata : p.DataOutside q labels top body}

/-- The frame pointer and an offset of the layout lead to a word of the frame. -/
theorem base_add {i : Nat} (hi : i < q.locals.length + q.parameters.length) :
    top - BitVec.ofNat 64 (8 * q.frameWords) +
        BitVec.ofNat 64 (wordSize * (q.locals.length + q.parameters.length) - wordSize * (i + 1)) =
      top - BitVec.ofNat 64 (8 * (i + 2)) := by
  unfold Procedure.frameWords wordSize
  bv_omega

theorem offset_of_local {i offset : Nat} (h : (Frame.ofProcedure q).locals[i]? = some offset) :
    i < q.locals.length ∧
      wordSize * (q.locals.length + q.parameters.length) - wordSize * (i + 1) = offset := by
  simpa [Frame.ofProcedure, Frame.layout, List.getElem?_eq_some_iff] using h

theorem offset_of_parameter {i offset : Nat}
    (h : (Frame.ofProcedure q).parameters[i]? = some offset) :
    i < q.parameters.length ∧
      wordSize * (q.locals.length + q.parameters.length) -
        wordSize * (q.locals.length + i + 1) = offset := by
  simpa [Frame.ofProcedure, Frame.layout, List.getElem?_eq_some_iff] using h

theorem address_place {v : Variable} {storage : Storage} {a : Address}
    (hb : v.binding = some storage) (ha : (p.codeContext q).address v = .ok a) {s : State}
    (hrbp : s.regs .rbp = top - BitVec.ofNat 64 (8 * q.frameWords)) :
    address labels s a = p.place q labels top storage := by
  unfold Codegen.Context.address at ha
  rw [hb] at ha
  cases storage with
  | global index =>
    cases hg : p.globals[index]? with
    | none => simp [codeContext, hg] at ha
    | some d =>
      simp only [codeContext, hg, Option.map_some, Except.ok.injEq] at ha
      subst ha
      simp [address, place, hg]
  | localVar index =>
    cases hoffset : (Frame.ofProcedure q).locals[index]? with
    | none => simp [codeContext, hoffset] at ha
    | some offset =>
      simp only [codeContext, hoffset, Option.map_some, Except.ok.injEq] at ha
      subst ha
      obtain ⟨hi, rfl⟩ := offset_of_local hoffset
      rw [address, hrbp, base_add (by omega), place]
  | parameter index =>
    cases hoffset : (Frame.ofProcedure q).parameters[index]? with
    | none => simp [codeContext, hoffset] at ha
    | some offset =>
      simp only [codeContext, hoffset, Option.map_some, Except.ok.injEq] at ha
      subst ha
      obtain ⟨hi, rfl⟩ := offset_of_parameter hoffset
      rw [address, hrbp, base_add (by omega), place]

theorem realizes :
    (p.area q labels top body hfits hdata).Realizes labels (p.env q labels top body)
      (p.codeContext q) (p.context q) := by
  refine ⟨rfl, ?_, ?_, ?_⟩
  · intro v storage a hb ha s hrbp
    exact address_place hb ha hrbp
  · intro storage d w hd hw i hi hscratch
    have hwidth := width_le w
    refine hscratch.2 ⟨storage, d, w, hd, hw, ?_⟩
    have hoffset := Memory.add_sub_toNat (by omega : i < 2 ^ 64) (p.place q labels top storage)
    exact hoffset.symm ▸ hi
  · rintro a (hstores | howns) hscratch
    · exact hscratch.2 hstores
    · exact howns hscratch.1

end Program

namespace Codegen

variable {labels : Label → Word}

theorem run_pushZero (ds : List Declaration) (s : State) :
    run labels s (ds.map fun _ => .instruction .pushZero) =
      some ((List.replicate ds.length 0).foldl State.push s) := by
  induction ds generalizing s with
  | nil => rfl
  | cons d ds ih => exact ih (s.push 0)

/-- Parameters are saved by pushing the registers that they are passed in. -/
theorem saveParameters_eq {name : String} {index : Nat} {ps : List Parameter}
    {rs : List Register} {code : Code} (h : saveParameters name index ps rs = .ok code) :
    code = instructions ((rs.take ps.length).map .push) := by
  induction ps generalizing index rs code with
  | nil =>
    cases h
    rfl
  | cons q ps ih =>
    cases q with
    | etcetera loc => cases rs <;> cases h
    | var d =>
      cases rs with
      | nil => cases h
      | cons r rs =>
        rw [saveParameters] at h
        obtain ⟨rest, hrest, h⟩ := Outcome.bind_eq_ok.mp h
        cases h
        rw [ih hrest]
        rfl

theorem run_pushes {rs : List Register} (hrsp : .rsp ∉ rs) {v : Register → Word} {s : State}
    (hv : ∀ r ∈ rs, s.regs r = v r) :
    run labels s (instructions (rs.map .push)) = some ((rs.map v).foldl State.push s) := by
  induction rs generalizing s with
  | nil => rfl
  | cons r rs ih =>
    rw [List.mem_cons, not_or] at hrsp
    rw [List.forall_mem_cons] at hv
    have hregs : ∀ r' ∈ rs, (s.push (s.regs r)).regs r' = v r' := by
      intro r' hr'
      have hne : r' ≠ .rsp := fun heq => hrsp.2 (heq ▸ hr')
      rw [State.regs_push, if_neg hne]
      exact hv.2 r' hr'
    rw [List.map_cons, List.map_cons, List.foldl_cons, ← hv.1]
    exact ih hrsp.2 hregs

theorem run_saveParameters {name : String} {index : Nat} {ps : List Parameter}
    {rs : List Register} {code : Code} (h : saveParameters name index ps rs = .ok code)
    (hrsp : .rsp ∉ rs) {v : Register → Word} {s : State} (hv : ∀ r ∈ rs, s.regs r = v r) :
    run labels s code = some (((rs.take ps.length).map v).foldl State.push s) := by
  rw [saveParameters_eq h]
  exact run_pushes (fun hmem => hrsp (List.mem_of_mem_take hmem))
    fun r hr => hv r (List.mem_of_mem_take hr)

end Codegen

namespace Procedure

/-- A stack that nothing is known about yet. -/
def bareArea (top base : Word) (room : Nat) (hfits : 8 * room ≤ 2 ^ 64) : Area where
  top := top
  base := base
  low := 0
  room := room
  Scratch a := slot top a < room
  fits := hfits
  free _ _ h := h

theorem stack_bareArea {room : Nat} {hfits : 8 * room ≤ 2 ^ 64} (s : State) :
    (bareArea (s.regs .rsp) (s.regs .rbp) room hfits).Stack 0 [] s.mem s :=
  ⟨le_rfl, Nat.zero_le _, by simp [Area.rsp, bareArea], rfl, fun _ _ => rfl, trivial⟩

/-- The words of a frame, in the order in which they are pushed. -/
def frame (q : Procedure) (s : State) : List Word :=
  s.regs .rbp :: (List.replicate q.locals.length 0 ++
    (argumentRegisters.take q.parameters.length).map s.regs)

/-- The state in which a body starts. -/
def entered (q : Procedure) (s : State) : State :=
  ((q.frame s).foldl State.push s).set .rbp ((q.frame s).foldl State.push s |>.regs .rsp)

variable {q : Procedure} {labels : Label → Word} {s : State} {saved : Code}

theorem length_frame (hfew : q.parameters.length ≤ argumentRegisters.length) :
    (q.frame s).length = q.frameWords := by
  simp only [frame, frameWords, List.length_cons, List.length_append, List.length_replicate,
    List.length_map, List.length_take]
  omega

/-- Code that sets up a frame; `saved` pushes the parameters. -/
def prologue (q : Procedure) (saved : Code) : Code :=
  [.label (.procedure q.name), .instruction (.push .rbp)] ++
    q.locals.map (fun _ => .instruction .pushZero) ++ saved ++ instructions [.move .rbp .rsp]

/-- Code that takes down a frame. -/
def epilogue (q : Procedure) : Code :=
  [.label .exit] ++ instructions ([.move .rsp .rbp] ++
    (if 0 < (Frame.ofProcedure q).size then [.drop (Frame.ofProcedure q).size] else []) ++
    [.pop .rbp])

theorem run_prologue
    (hsaved : saveParameters q.name 0 q.parameters argumentRegisters = .ok saved) :
    run labels s (q.prologue saved) = some (q.entered s) := by
  have hpush : run labels s [.label (.procedure q.name), .instruction (.push .rbp)] =
      some (s.push (s.regs .rbp)) := rfl
  have hregs : ∀ r ∈ argumentRegisters,
      ((List.replicate q.locals.length 0).foldl State.push (s.push (s.regs .rbp))).regs r =
        s.regs r := by
    intro r hr
    have hne : r ≠ .rsp := by
      rintro rfl
      simp [argumentRegisters] at hr
    rw [State.regs_foldl_push hne, State.regs_push, if_neg hne]
  have hframe := run_trans (run_trans hpush (run_pushZero q.locals _))
    (run_saveParameters hsaved (by simp [argumentRegisters]) hregs)
  rw [← List.foldl_append] at hframe
  exact run_trans hframe rfl

theorem run_epilogue {top caller : Word}
    (hrbp : s.regs .rbp = top - BitVec.ofNat 64 (8 * q.frameWords))
    (hread : s.mem.read (top - 8) 8 = caller.toNat) :
    ∃ s', run labels s q.epilogue = some s' ∧ s'.regs .rsp = top ∧ s'.regs .rbp = caller ∧
      s'.regs .rax = s.regs .rax ∧ s'.mem = s.mem := by
  have hdrop : ∃ s₁, run labels (s.set .rsp (s.regs .rbp)) (instructions
      (if 0 < (Frame.ofProcedure q).size then [.drop (Frame.ofProcedure q).size] else [])) =
        some s₁ ∧ s₁.regs .rsp = top - 8 ∧ s₁.regs .rax = s.regs .rax ∧ s₁.mem = s.mem := by
    have hsize : (Frame.ofProcedure q).size = 8 * (q.locals.length + q.parameters.length) := rfl
    by_cases hpos : 0 < (Frame.ofProcedure q).size
    · rw [if_pos hpos]
      refine ⟨_, rfl, ?_, rfl, rfl⟩
      change s.regs .rbp + BitVec.ofNat 64 (Frame.ofProcedure q).size = top - 8
      rw [hrbp, hsize, Procedure.frameWords]
      bv_omega
    · rw [if_neg hpos]
      refine ⟨_, rfl, ?_, rfl, rfl⟩
      change s.regs .rbp = top - 8
      rw [hrbp, Procedure.frameWords]
      have hzero : q.locals.length + q.parameters.length = 0 := by omega
      rw [Nat.add_assoc, hzero]
      rfl
  obtain ⟨s₁, hrun, hrsp, hrax, hmem⟩ := hdrop
  have hstart : run labels s ([.label .exit] ++ instructions [.move .rsp .rbp]) =
      some (s.set .rsp (s.regs .rbp)) := rfl
  have hpop : run labels s₁ (instructions [.pop .rbp]) = some (s₁.pop .rbp) := rfl
  refine ⟨s₁.pop .rbp, ?_, ?_, ?_, ?_, hmem⟩
  · have hall := run_trans (run_trans hstart hrun) hpop
    simpa [epilogue, instructions] using hall
  · rw [State.regs_pop, if_neg (by decide), if_pos rfl, hrsp]
    bv_omega
  · rw [State.regs_pop, if_pos rfl, State.top, hrsp, hmem, hread, BitVec.ofNat_toNat,
      BitVec.setWidth_eq]
  · rw [State.regs_pop, if_neg (by decide), if_neg (by decide), hrax]

/-- Setting up a frame only writes to its own words. -/
theorem stack_frame (hfits : 8 * q.frameWords ≤ 2 ^ 64)
    (hfew : q.parameters.length ≤ argumentRegisters.length) (s : State) :
    (bareArea (s.regs .rsp) (s.regs .rbp) q.frameWords hfits).Stack 0 (q.frame s).reverse s.mem
      ((q.frame s).foldl State.push s) := by
  have hlength := length_frame (s := s) hfew
  rw [← List.append_nil (q.frame s).reverse]
  exact (stack_bareArea s).pushAll (by simp [bareArea, hlength])

/-- The word of a frame that was pushed as number `j`. -/
theorem read_entered (hfits : 8 * q.frameWords ≤ 2 ^ 64)
    (hfew : q.parameters.length ≤ argumentRegisters.length) {j : Nat} {v : Word}
    (hv : (q.frame s)[j]? = some v) :
    (q.entered s).mem.read (s.regs .rsp - BitVec.ofNat 64 (8 * (j + 1))) 8 = v.toNat := by
  have hread := (q.stack_frame hfits hfew s).holds.read (j := j) (by rwa [List.reverse_reverse])
  rwa [Nat.zero_add] at hread

end Procedure

namespace Program

variable {p : Program} {q : Procedure} {labels : Label → Word} {s : State} {m : Memory}
  {body : Statement}

/-- A frame holds what a body is meant to find. -/
theorem entered_frame (hfits : 8 * q.stackWords body ≤ 2 ^ 64)
    (hfew : q.parameters.length ≤ argumentRegisters.length) :
    p.Entered q labels body s (q.entered s).mem := by
  have hwords : q.frameWords ≤ q.stackWords body := Nat.le_add_right _ _
  have hword := fun {j v} => Procedure.read_entered (s := s) (j := j) (v := v) (by omega) hfew
  refine ⟨?_, ?_, ?_⟩
  · intro i d w hd hw
    have hlt := (List.getElem?_eq_some_iff.mp hd).1
    have hframe : (q.frame s)[i + 1]? = some 0 := by
      simp [Procedure.frame, List.getElem?_append, hlt]
    rw [place, Memory.read_of_le (width_le w) (by decide) (hword hframe)]
    simp
  · intro i d w r hd hw hr
    have hlt := (List.getElem?_eq_some_iff.mp hd).1
    have hframe : (q.frame s)[q.locals.length + i + 1]? = some (s.regs r) := by
      simp [Procedure.frame, List.getElem?_append, hlt, hr]
    rw [place, Memory.read_of_le (width_le w) (by decide) (hword hframe)]
  · intro a ha
    exact (q.stack_frame (by omega) hfew s).mem a fun hlt => ha (hlt.trans_le hwords)

/-- What a body finds in its own variables is all settled. -/
theorem Entered.eq_of_stores {m' : Memory} (h : p.Entered q labels body s m)
    (h' : p.Entered q labels body s m') (hdata : p.DataOutside q labels (s.regs .rsp) body)
    (hfew : q.parameters.length ≤ argumentRegisters.length) {a : Word}
    (hstores : p.Stores q labels (s.regs .rsp) a) (ha : q.Owns body (s.regs .rsp) a) :
    m a = m' a := by
  obtain ⟨storage, d, w, hd, hw, hnear⟩ := hstores
  obtain ⟨i, hi, rfl⟩ := Memory.exists_of_mem_write hnear
  refine Memory.eq_of_read_eq ?_ i hi
  cases storage with
  | global index =>
    have hg : p.globals[index]? = some d := hd
    simp only [place, hg, Option.map_some, Option.getD_some] at ha
    exact absurd ha (hdata.globals d (List.mem_of_getElem? hg) hw i hi)
  | localVar index =>
    have hl : q.locals[index]? = some d := hd
    rw [h.localVar hl hw, h'.localVar hl hw]
  | parameter index =>
    obtain ⟨r, hr, hd'⟩ := Option.bind_eq_some_iff.mp hd
    have hr' : q.parameters[index]? = some r := hr
    obtain rfl : r = .var d := by
      cases r with
      | var d' =>
        cases hd'
        rfl
      | etcetera loc => cases hd'
    have hlt := (List.getElem?_eq_some_iff.mp hr').1
    obtain ⟨r, hreg⟩ : ∃ r, argumentRegisters[index]? = some r :=
      ⟨_, List.getElem?_eq_getElem (by omega)⟩
    rw [h.parameter hr' hw hreg, h'.parameter hr' hw hreg]

/-- A body starts with its variables as they are meant to be. -/
theorem stack_entered (hfits : 8 * q.stackWords body ≤ 2 ^ 64)
    (hdata : p.DataOutside q labels (s.regs .rsp) body)
    (hfew : q.parameters.length ≤ argumentRegisters.length)
    (hentered : p.Entered q labels body s m) :
    (p.area q labels (s.regs .rsp) body hfits hdata).Stack q.frameWords [] m (q.entered s) := by
  have hwords : q.frameWords ≤ q.stackWords body := Nat.le_add_right _ _
  have hstack := q.stack_frame (by omega) hfew s
  have hrsp : ((q.frame s).foldl State.push s).regs .rsp =
      s.regs .rsp - BitVec.ofNat 64 (8 * q.frameWords) := by
    rw [hstack.rsp, List.length_reverse, Procedure.length_frame hfew, Nat.zero_add]
    rfl
  have hframe : p.Entered q labels body s (q.entered s).mem := entered_frame hfits hfew
  refine ⟨le_rfl, hwords, hrsp, hrsp, fun a ha => ?_, trivial⟩
  by_cases howns : q.Owns body (s.regs .rsp) a
  · have hstores : p.Stores q labels (s.regs .rsp) a := by
      by_contra hno
      exact ha ⟨howns, hno⟩
    exact hframe.eq_of_stores hentered hdata hfew hstores howns
  · rw [hframe.outside a howns, hentered.outside a howns]

end Program

end ProcLang
