import ProcLang.Proofs.Correctness.Operator
import ProcLang.Proofs.Safety.Generate

/-! The code of an expression leaves the word that the expression means. -/
namespace ProcLang

open Assembly Machine Codegen Semantics

namespace Expression

mutual

/-- Words of stack that the code of an expression takes, its result among them. -/
def depth : Expression → Nat
  | .literal _ | .var _ => 1
  | .operation _ _ operands _ _ => max 1 (operandsDepth operands)

/-- The last operand is evaluated first and lies deepest. -/
def operandsDepth : List Expression → Nat
  | [] => 0
  | e :: es => max (operandsDepth es) (es.length + e.depth)

end

end Expression

theorem Semantics.EvalAll.length_eq {env : Env} {es : List Expression} {m m' : Memory}
    {vs : List Word} : EvalAll env es m vs m' → vs.length = es.length
  | .nil _ => rfl
  | .cons others _ => by rw [List.length_cons, List.length_cons, others.length_eq]

namespace Area

/-- The meaning of variables and of pointers agrees with the memory that the code works on. -/
structure Realizes (f : Area) (labels : Label → Word) (env : Env) (g : Codegen.Context)
    (c : Typing.Context) : Prop where
  static : env.static = labels
  address : ∀ {v storage a}, v.binding = some storage → g.address v = .ok a →
    ∀ s : State, s.regs .rbp = f.base → Machine.address labels s a = env.place storage
  storage : ∀ {storage d w}, c.declaration? storage = some d → d.type.ty.width? = some w →
    ∀ i < w.bytes, ¬f.Scratch (env.place storage + BitVec.ofNat 64 i)
  permitted : ∀ a, env.Permitted a → ¬f.Scratch a

/-- A character lies outside of the stack, and holds its value whenever it may be evaluated. -/
structure Stands (f : Area) (labels : Label → Word) (env : Env) (value : UInt8) (loc : Nat) :
    Prop where
  apart : ¬f.Scratch (labels (.character loc))
  holds : ∀ {m}, env.Legible loc m → m (labels (.character loc)) = value.toBitVec

/-- The type of an expression is on record, and a character is in its place. -/
structure Ready (f : Area) (labels : Label → Word) (env : Env) (c : Typing.Context)
    (e : Expression) : Prop where
  recorded : c.Recorded e
  character : ∀ value loc, e = .literal ⟨.character value, loc⟩ → f.Stands labels env value loc

variable {f : Area} {labels : Label → Word} {k : Nat} {m : Memory} {s s' : State} {w : Width}
  {a v : Word}

/-- When characters may be evaluated makes no difference to variables and pointers. -/
theorem Realizes.whileLoaded {env : Env} {g : Codegen.Context} {c : Typing.Context}
    (h : f.Realizes labels env g c) (loaded : Memory) :
    f.Realizes labels (env.whileLoaded loaded) g c :=
  ⟨h.static, h.address, h.storage, h.permitted⟩

/-- A character that was loaded with its value has it whenever it may be evaluated. -/
theorem Stands.of_loaded {env : Env} {value : UInt8} {loc : Nat} {loaded : Memory}
    (hstatic : env.static = labels) (hapart : ¬f.Scratch (labels (.character loc)))
    (hloaded : loaded (labels (.character loc)) = value.toBitVec) :
    f.Stands labels (env.whileLoaded loaded) value loc := by
  subst hstatic
  exact ⟨hapart, fun hlegible => hlegible.trans hloaded⟩

theorem address_congr (hrbp : s'.regs .rbp = s.regs .rbp) (hrcx : s'.regs .rcx = s.regs .rcx)
    (a : Address) : address labels s' a = address labels s a := by
  cases a <;> simp [address, hrbp, hrcx]

variable (labels) in
/-- The accumulator is cleared where a load would keep some of it. -/
theorem run_clear (w : Width) (s : State) : ∃ s',
    run labels s (instructions (if w.needsClear then [.clear] else [])) = some s' ∧
      s'.mem = s.mem ∧ (∀ r, r ≠ .rax → s'.regs r = s.regs r) ∧
      ∀ n < 256 ^ w.bytes, loaded w (s'.regs .rax) n = BitVec.ofNat 64 n := by
  cases w with
  | byte | word =>
    refine ⟨(s.set .rax 0).forget, rfl, rfl, fun r hr => by simp [hr], fun n hn => ?_⟩
    simp [loaded, setLow, Nat.mod_eq_of_lt hn]
  | dword | qword => exact ⟨s, rfl, rfl, fun _ _ => rfl, fun _ _ => rfl⟩

/-- What lies at an address is pushed. -/
theorem leaves_read (h : f.Stack k [] m s) (hroom : k < f.room) (place : Address) :
    f.Leaves labels s (loadCode w place) k
      [BitVec.ofNat 64 (s.mem.read (address labels s place) w.bytes)] m := by
  obtain ⟨s₁, hclear, hmem, hregs, hload⟩ := run_clear labels w s
  have haddress : address labels s₁ place = address labels s place :=
    address_congr (hregs .rbp (by decide)) (hregs .rcx (by decide)) place
  have hlast : run labels s₁ (instructions [.load w place]) = some _ := rfl
  have hcode : loadCode w place = instructions (if w.needsClear then [.clear] else []) ++
      instructions [.load w place] ++ instructions [.push .rax] := by
    simp [loadCode, instructions]
  rw [hcode]
  refine leaves_push (run_trans hclear hlast) (h.congr ?_ ?_ hmem) (.of_eq hmem k) hroom ?_
  · simpa using hregs .rsp (by decide)
  · simpa using hregs .rbp (by decide)
  · rw [State.regs_set, if_pos rfl, haddress, hmem, hload _ (Memory.read_lt s.mem _ _)]

theorem leaves_load {place : Address} (h : f.Stack k [] m s)
    (hroom : k < f.room) (ha : address labels s place = a)
    (hbytes : ∀ i < w.bytes, ¬f.Scratch (a + BitVec.ofNat 64 i)) :
    f.Leaves labels s (loadCode w place) k [BitVec.ofNat 64 (m.read a w.bytes)] m := by
  have hread : f.Leaves labels s (loadCode w place) k
      [BitVec.ofNat 64 (s.mem.read (address labels s place) w.bytes)] m :=
    leaves_read h hroom place
  rwa [ha, h.read_eq hbytes] at hread

/-- A value that is pushed without a register. -/
theorem leaves_value (h : f.Stack k [] m s) (hroom : k < f.room) {value : Int}
    (hsmall : -2 ^ 31 ≤ value ∧ value < 2 ^ 31) :
    f.Leaves labels s (instructions [.pushValue value]) k [BitVec.ofInt 64 value] m := by
  refine ⟨s.push (BitVec.ofInt 64 value), ?_, h.push hroom _, h.keeps_push hroom _⟩
  simp only [instructions, List.map, run_cons, runLine, exec, if_pos hsmall]
  rfl

/-- An address that is pushed. -/
theorem leaves_loadAddress (h : f.Stack k [] m s) (hroom : k < f.room) {place : Address}
    (ha : address labels s place = a) :
    f.Leaves labels s (instructions [.loadAddress place, .push .rax]) k [a] m := by
  have hrun : run labels s (instructions [.loadAddress place]) = some _ := rfl
  refine leaves_push hrun (h.congr (by simp) (by simp) (by simp)) (.of_eq (by simp) k) hroom ?_
  simp [ha]

/-- A store that leaves the words on the stack alone. -/
theorem leaves_write {m' : Memory} (h : f.Stack k [a, v] m s)
    (hwritten : f.Stack k [] m'
      { (s.pop .rcx).pop .rax with mem := s.mem.write a w.bytes v.toNat })
    (hkeeps : f.Keeps k s.mem (s.mem.write a w.bytes v.toNat)) :
    f.Leaves labels s (instructions [.pop .rcx, .pop .rax, .store w, .push .rax]) k [v] m' := by
  have ha := h.pop (r := .rcx) (by decide) (by decide)
  have hrcx : ((s.pop .rcx).pop .rax).regs .rcx = a := by simp [h.top_eq]
  have hrax : ((s.pop .rcx).pop .rax).regs .rax = v := by simp [ha.top_eq]
  have hwithin := h.within
  have hrun : run labels s (instructions [.pop .rcx, .pop .rax, .store w]) =
      some { (s.pop .rcx).pop .rax with mem := s.mem.write a w.bytes v.toNat } := by
    rw [← hrcx, ← hrax]
    rfl
  exact leaves_push hrun hwritten hkeeps (by simp at hwithin ⊢; omega) hrax

theorem leaves_store (h : f.Stack k [a, v] m s)
    (hbytes : ∀ i < w.bytes, ¬f.Scratch (a + BitVec.ofNat 64 i)) :
    f.Leaves labels s (instructions [.pop .rcx, .pop .rax, .store w, .push .rax]) k [v]
      (m.write a w.bytes v.toNat) := by
  have ha := h.pop (r := .rcx) (by decide) (by decide)
  have hv := ha.pop (r := .rax) (by decide) (by decide)
  exact leaves_write h (hv.write hbytes _) (keeps_write hbytes k s.mem _)

theorem leaves_literal {env : Env} {l : Literal} {code : Code} {m' : Memory}
    (hstatic : env.static = labels) (h : Eval env (.literal l) m v m')
    (hcode : literalCode l = .ok code)
    (hcharacter : ∀ value, l.value = .character value → f.Stands labels env value l.loc)
    (hs : f.Stack k [] m s) (hroom : k < f.room) : f.Leaves labels s code k [v] m' := by
  subst hstatic
  cases h with
  | integer value loc =>
    have hvalue : BitVec.ofInt 64 value.toInt = value.toBitVec := BitVec.ofInt_toInt
    unfold literalCode at hcode
    dsimp only at hcode
    split at hcode
    · next hsmall =>
      cases hcode
      simp only [isSmall, Bool.and_eq_true, decide_eq_true_eq] at hsmall
      exact hvalue ▸ leaves_value hs hroom (by omega)
    · cases hcode
      have hrun : run env.static s (instructions [.moveValue .rax value.toInt]) = some _ := rfl
      refine leaves_push hrun (hs.congr (by simp) (by simp) (by simp)) (.of_eq (by simp) k) hroom ?_
      simp [hvalue]
  | boolean value loc =>
    cases hcode
    cases value
    · exact leaves_value hs hroom (by decide)
    · exact leaves_value hs hroom (by decide)
  | @character loc _ value hlegible =>
    cases hcode
    have hstands := hcharacter value rfl
    have hread : m.read (env.static (.character loc)) 1 = value.toNat := by
      simp [Memory.read, hstands.holds hlegible]
    have haddress : address env.static s (.data (.character loc)) = env.static (.character loc) :=
      rfl
    have hbytes : ∀ i < Width.byte.bytes,
        ¬f.Scratch (env.static (.character loc) + BitVec.ofNat 64 i) := by
      intro i hi
      obtain rfl : i = 0 := by simpa [Width.bytes] using hi
      simpa using hstands.apart
    exact hread ▸ leaves_load hs hroom haddress hbytes
  | text bytes loc =>
    cases hcode
    exact leaves_loadAddress hs hroom rfl

section

variable {env : Env} {g : Codegen.Context} {c : Typing.Context}

theorem widthOf_eq {τ : Ty} (h : τ.width? = some w) : widthOf τ = .ok w := by
  rw [widthOf, h]

theorem operandsCode_singleton (e : Expression) : operandsCode g [e] = expressionCode g e := by
  rw [operandsCode, operandsCode]
  cases expressionCode g e <;> rfl

theorem type?_of_type {e : Expression} {t : TypeAt} (h : e.type = .ok t) : e.type? = some t := by
  unfold Expression.type at h
  cases htype : e.type? with
  | none => simp [htype] at h
  | some t' =>
    rw [htype] at h
    cases h
    rfl

theorem type_eq_of_width {e : Expression} {t : TypeAt} (ht : e.type = .ok t)
    (hw : e.width? = some w) : t.ty.width? = some w := by
  rw [Expression.width?, type?_of_type ht] at hw
  exact hw

/-- The storage of a variable holds what is of the type on record. -/
theorem Realizes.bytes (hf : f.Realizes labels env g c) {u : Variable} {storage : Storage}
    (hready : f.Ready labels env c (.var u)) (hb : u.binding = some storage)
    (hw : (Expression.var u).width? = some w) :
    ∀ i < w.bytes, ¬f.Scratch (env.place storage + BitVec.ofNat 64 i) := by
  obtain ⟨t, ht, -, hτ⟩ := hready.recorded
  have hty : t.ty.width? = some w := type_eq_of_width (by simp [Expression.type, ht]) hw
  generalize hσ : t.ty = σ at hτ hty
  cases (hτ σ).mpr rfl with
  | var hb' hd =>
    cases hb.symm.trans hb'
    exact hf.storage hd hty

theorem operation_ready {loc : Nat} {token : Token} {es : List Expression} {op : Option Operator}
    {type : Option TypeAt}
    (h : ∀ e' ∈ (Expression.operation loc token es op type).parts, f.Ready labels env c e') :
    ∀ e ∈ es, ∀ e' ∈ e.parts, f.Ready labels env c e' :=
  fun e he e' he' => h e' (Expression.mem_parts_operation.mpr (.inr ⟨e, he, he'⟩))

/-- Operators on values share their code. -/
theorem expressionCode_operation {loc : Nat} {token : Token} {es : List Expression}
    {op : Operator} {type : Option TypeAt} {vs : List Word} {code : Code}
    (hop : op.denote vs = some v)
    (hcode : expressionCode g (.operation loc token es (some op) type) = .ok code) :
    ∃ operands, operandsCode g es = .ok operands ∧ code = operands ++ plainCode op es.length := by
  cases op with
  | dereference | reference | assignment | call _ => simp [Operator.denote] at hop
  | _ =>
    rw [expressionCode] at hcode
    · obtain ⟨operands, hoperands, hcode⟩ := Outcome.bind_eq_ok.mp hcode
      cases hcode
      exact ⟨operands, hoperands, rfl⟩
    all_goals simp

mutual

theorem leaves_expression (hf : f.Realizes labels env g c) {e : Expression} {m m' : Memory}
    {v : Word} (h : Eval env e m v m') {code : Code} (hcode : expressionCode g e = .ok code)
    (hready : ∀ e' ∈ e.parts, f.Ready labels env c e') {k : Nat} {s : State}
    (hs : f.Stack k [] m s) (hroom : k + e.depth ≤ f.room) : f.Leaves labels s code k [v] m' := by
  cases h with
  | operation loc token type operands result =>
    obtain ⟨rest, hrest, rfl⟩ := expressionCode_operation result hcode
    have hoperands := leaves_operands hf operands hrest (operation_ready hready) hs
      (by simp only [Expression.depth] at hroom; omega)
    refine hoperands.trans fun s' hs' => ?_
    rw [← operands.length_eq]
    exact leaves_plain hs' result
  | integer value loc =>
    rw [expressionCode] at hcode
    exact leaves_literal hf.static (.integer value loc m) hcode (by simp) hs hroom
  | boolean value loc =>
    rw [expressionCode] at hcode
    exact leaves_literal hf.static (.boolean value loc m) hcode (by simp) hs hroom
  | @character loc _ value hlegible =>
    rw [expressionCode] at hcode
    have hself := hready _ (Expression.self_mem_parts _)
    refine leaves_literal hf.static (.character value hlegible) hcode ?_ hs hroom
    rintro _ ⟨⟩
    exact hself.character value loc rfl
  | text bytes loc =>
    rw [expressionCode] at hcode
    exact leaves_literal hf.static (.text bytes loc m) hcode (by simp) hs hroom
  | var _ hb hw =>
    rw [expressionCode] at hcode
    obtain ⟨place, hplace, hcode⟩ := Outcome.bind_eq_ok.mp hcode
    obtain ⟨t, ht, hcode⟩ := Outcome.bind_eq_ok.mp hcode
    rw [widthOf_eq (type_eq_of_width ht hw)] at hcode
    cases hcode
    exact leaves_load hs (by simp only [Expression.depth] at hroom; omega)
      (hf.address hb hplace s hs.rbp) (hf.bytes (hready _ (by simp)) hb hw)
  | @dereference e _ _ a type w loc token pointer hw hpermitted =>
    rw [expressionCode] at hcode
    obtain ⟨pointerCode, hpointer, hcode⟩ := Outcome.bind_eq_ok.mp hcode
    dsimp only at hcode
    rw [widthOf_eq hw] at hcode
    cases hcode
    rw [operandsCode_singleton] at hpointer
    simp only [Expression.depth, Expression.operandsDepth, List.length] at hroom
    rw [List.append_assoc]
    refine (leaves_expression hf pointer hpointer (operation_ready hready _ (by simp)) hs
      (by omega)).trans fun s' hs' => ?_
    have hpop := hs'.pop (r := .rcx) (by decide) (by decide)
    have hrun : run labels s' (instructions [.pop .rcx]) = some (s'.pop .rcx) := rfl
    have haddress : address labels (s'.pop .rcx) .pointer = a := by simp [address, hs'.top_eq]
    exact .of_run hrun (.of_eq rfl k) (leaves_load hpop (by omega) haddress
      fun i hi => hf.permitted _ (hpermitted i hi))
  | reference loc token type place =>
    rw [expressionCode] at hcode
    exact leaves_address hf place hcode (operation_ready hready _ (by simp)) hs
      (by simp [Expression.depth, Expression.operandsDepth] at hroom; omega)
  | @assignment target value _ m₁ m₂ _ a w loc token type evaluated place hw hpermitted =>
    rw [expressionCode] at hcode
    obtain ⟨valueCode, hvalue, hcode⟩ := Outcome.bind_eq_ok.mp hcode
    obtain ⟨targetCode, htarget, hcode⟩ := Outcome.bind_eq_ok.mp hcode
    obtain ⟨t, ht, hcode⟩ := Outcome.bind_eq_ok.mp hcode
    rw [widthOf_eq (type_eq_of_width ht hw)] at hcode
    cases hcode
    have hparts := operation_ready hready
    simp only [Expression.depth, Expression.operandsDepth, List.length] at hroom
    have hbytes : ∀ i < w.bytes, ¬f.Scratch (a + BitVec.ofNat 64 i) := by
      rcases hpermitted with ⟨u, rfl⟩ | hpermits
      · cases place with
        | var _ hb => exact hf.bytes (hparts (.var u) (by simp) (.var u) (by simp)) hb hw
      · exact fun i hi => hf.permitted _ (hpermits i hi)
    refine .trans (.trans (leaves_expression hf evaluated hvalue (hparts _ (by simp)) hs (by omega))
      fun s₁ hs₁ => ?_) fun s₂ hs₂ => leaves_store hs₂ hbytes
    exact .above hs₁ (leaves_address hf place htarget (hparts _ (by simp)) hs₁.lift
      (by simp only [List.length]; omega))

theorem leaves_address (hf : f.Realizes labels env g c) {e : Expression} {m m' : Memory}
    {a : Word} (h : Place env e m a m') {code : Code} (hcode : addressCode g e = .ok code)
    (hready : ∀ e' ∈ e.parts, f.Ready labels env c e') {k : Nat} {s : State}
    (hs : f.Stack k [] m s) (hroom : k + e.depth ≤ f.room) : f.Leaves labels s code k [a] m' := by
  cases h with
  | var _ hb =>
    rw [addressCode] at hcode
    obtain ⟨place, hplace, hcode⟩ := Outcome.bind_eq_ok.mp hcode
    cases hcode
    exact leaves_loadAddress hs (by simp only [Expression.depth] at hroom; omega)
      (hf.address hb hplace s hs.rbp)
  | dereference loc token type pointer =>
    rw [addressCode] at hcode
    exact leaves_expression hf pointer hcode (operation_ready hready _ (by simp)) hs
      (by simp [Expression.depth, Expression.operandsDepth] at hroom; omega)

theorem leaves_operands (hf : f.Realizes labels env g c) {es : List Expression} {m m' : Memory}
    {vs : List Word} (h : EvalAll env es m vs m') {code : Code}
    (hcode : operandsCode g es = .ok code)
    (hready : ∀ e ∈ es, ∀ e' ∈ e.parts, f.Ready labels env c e') {k : Nat} {s : State}
    (hs : f.Stack k [] m s) (hroom : k + Expression.operandsDepth es ≤ f.room) :
    f.Leaves labels s code k vs m' := by
  cases h with
  | nil =>
    cases hcode
    exact ⟨s, rfl, hs, .of_eq rfl k⟩
  | cons others first =>
    rw [operandsCode] at hcode
    obtain ⟨rest, hrest, hcode⟩ := Outcome.bind_eq_ok.mp hcode
    obtain ⟨firstCode, hfirst, hcode⟩ := Outcome.bind_eq_ok.mp hcode
    cases hcode
    rw [Expression.operandsDepth] at hroom
    refine (leaves_operands hf others hrest (fun e he => hready e (by simp [he])) hs
      (by omega)).trans fun s' hs' => ?_
    refine .above hs' (leaves_expression hf first hfirst (hready _ (by simp)) hs'.lift ?_)
    have hlen := others.length_eq
    omega

end

end

end Area

end ProcLang
