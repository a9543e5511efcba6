import ProcLang.Proofs.Correctness.Compile
import ProcLang.Proofs.Correctness.Faults

/-! Compiled expressions compute what they mean, wherever the stack pointer is below the frame. -/
namespace ProcLang

open Assembly Machine Codegen Semantics

theorem slot_eq (top a : Word) : slot top a = (2 ^ 64 - 1 - (a - top).toNat) / 8 := by
  have hdistance : (top - 1 - a).toNat = 2 ^ 64 - 1 - (a - top).toNat := by bv_omega
  rw [slot, hdistance]

theorem offset_toNat {base pointer : Word} {k : Nat} (h : (base - pointer).toNat + k < 2 ^ 64) :
    (base + BitVec.ofNat 64 k - pointer).toNat = (base - pointer).toNat + k := by
  have hcomm : base + BitVec.ofNat 64 k - pointer = base - pointer + BitVec.ofNat 64 k := by ring
  rw [hcomm, BitVec.toNat_add, BitVec.toNat_ofNat, Nat.mod_eq_of_lt (by omega : k < 2 ^ 64),
    Nat.mod_eq_of_lt h]

namespace Procedure

/-- Where the stack of a procedure began that runs in a frame at `rbp`. -/
def top (q : Procedure) (s : State) : Word :=
  s.regs .rbp + BitVec.ofNat 64 (8 * q.frameWords)

/-- The frame, the words on the stack and `room` words below the stack pointer lie apart. -/
def Fits (q : Procedure) (room : Nat) (s : State) : Prop :=
  8 * (q.locals.length + q.parameters.length) + (s.regs .rbp - s.regs .rsp).toNat + 8 * room ≤
    2 ^ 64

instance (q : Procedure) (room : Nat) (s : State) : Decidable (q.Fits room s) :=
  inferInstanceAs (Decidable (_ ≤ _))

theorem Fits.room_le {q : Procedure} {room : Nat} {s : State} (h : q.Fits room s) :
    8 * room ≤ 2 ^ 64 := by
  unfold Fits at h
  omega

end Procedure

namespace Program

variable {p : Program} {q : Procedure} {labels : Label → Word} {s : State} {room : Nat}

/-- What an expression means in a state in which its code may start. Pointers may lead to all but
the `room` words below the stack pointer, and characters may be evaluated at any time. -/
def envAt (p : Program) (q : Procedure) (labels : Label → Word) (room : Nat) (s : State) : Env where
  place := p.place q labels (q.top s)
  static := labels
  Permitted a := room ≤ slot (s.regs .rsp) a
  Legible _ _ := True

/-- A byte of the frame lies above the stack pointer. -/
theorem slot_frame (hfits : q.Fits room s) {index i : Nat}
    (hindex : index < q.locals.length + q.parameters.length) (hi : i < 8) :
    room ≤ slot (s.regs .rsp)
      (q.top s - BitVec.ofNat 64 (8 * (index + 2)) + BitVec.ofNat 64 i) := by
  have hbase : q.top s - BitVec.ofNat 64 (8 * q.frameWords) = s.regs .rbp := by
    unfold Procedure.top
    exact BitVec.add_sub_cancel _ _
  have hplace : q.top s - BitVec.ofNat 64 (8 * q.frameWords) + BitVec.ofNat 64
      (wordSize * (q.locals.length + q.parameters.length) - wordSize * (index + 1)) =
        q.top s - BitVec.ofNat 64 (8 * (index + 2)) :=
    base_add hindex
  rw [hbase] at hplace
  unfold Procedure.Fits at hfits
  unfold wordSize at hplace
  rw [← hplace, BitVec.add_assoc, ← BitVec.ofNat_add, slot_eq, offset_toNat (by omega)]
  omega

/-- Globals lie apart from the words below the stack pointer. -/
def GlobalsApart (p : Program) (labels : Label → Word) (room : Nat) (s : State) : Prop :=
  ∀ d ∈ p.globals, ∀ {w : Width}, d.type.ty.width? = some w → ∀ i < w.bytes,
    room ≤ slot (s.regs .rsp) (labels (.global d.name) + BitVec.ofNat 64 i)

/-- Variables lie apart from the words below the stack pointer. -/
theorem slot_place (hfits : q.Fits room s) (hdata : p.GlobalsApart labels room s)
    {storage : Storage} {d : Declaration} {w : Width}
    (hd : (p.context q).declaration? storage = some d) (hw : d.type.ty.width? = some w) {i : Nat}
    (hi : i < w.bytes) :
    room ≤ slot (s.regs .rsp) (p.place q labels (q.top s) storage + BitVec.ofNat 64 i) := by
  have hwidth := width_le w
  cases storage with
  | global index =>
    have hg : p.globals[index]? = some d := hd
    simp only [place, hg, Option.map_some, Option.getD_some]
    exact hdata d (List.mem_of_getElem? hg) hw i hi
  | localVar index =>
    have hl : q.locals[index]? = some d := hd
    have hlt := (List.getElem?_eq_some_iff.mp hl).1
    exact slot_frame hfits (by omega) (by omega)
  | parameter index =>
    obtain ⟨r, hr, -⟩ := Option.bind_eq_some_iff.mp hd
    have hr' : q.parameters[index]? = some r := hr
    have hlt := (List.getElem?_eq_some_iff.mp hr').1
    exact slot_frame hfits (by omega) (by omega)

theorem realizesAt {hroom : 8 * room ≤ 2 ^ 64} (hfits : q.Fits room s)
    (hdata : p.GlobalsApart labels room s) :
    (Procedure.bareArea (s.regs .rsp) (s.regs .rbp) room hroom).Realizes labels
      (p.envAt q labels room s) (p.codeContext q) (p.context q) := by
  refine ⟨rfl, ?_, ?_, ?_⟩
  · intro v storage a hb ha s' hrbp
    refine address_place hb ha ?_
    show s'.regs .rbp = q.top s - BitVec.ofNat 64 (8 * q.frameWords)
    unfold Procedure.top
    rw [BitVec.add_sub_cancel]
    exact hrbp
  · intro storage d w hd hw i hi hscratch
    exact absurd hscratch (Nat.not_lt.mpr (slot_place hfits hdata hd hw hi))
  · intro a hpermitted hscratch
    exact absurd hscratch (Nat.not_lt.mpr hpermitted)

/-- The code of an expression runs to its end from any state with room for it, and leaves there
what the expression means. Its characters were loaded with their values, and none is evaluated after
it was overwritten. -/
theorem reaches_value (hfits : q.Fits room s) (hdata : p.GlobalsApart labels room s)
    {e : Expression} (hroom : e.depth ≤ room)
    (hparts : ∀ e' ∈ e.parts, (p.context q).Recorded e')
    (hcharacters : ∀ value loc, .literal ⟨.character value, loc⟩ ∈ e.parts →
      room ≤ slot (s.regs .rsp) (labels (.character loc)))
    {loaded : Memory} (hloaded : ∀ value loc, .literal ⟨.character value, loc⟩ ∈ e.parts →
      loaded (labels (.character loc)) = value.toBitVec)
    {code : Code} (hcode : expressionCode (p.codeContext q) e = .ok code) {v : Word} {m : Memory}
    (heval : Eval ((p.envAt q labels room s).whileLoaded loaded) e s.mem v m)
    {whole : Code} {pc : Nat} (hat : CodeAt whole pc code) :
    ∃ s', Reaches labels whole (pc, s) (pc + code.length, s') ∧ s'.regs .rbp = s.regs .rbp ∧
      s'.regs .rsp = s.regs .rsp - 8 ∧ s'.top = v ∧
      ∀ a, room ≤ slot (s.regs .rsp) a → s'.mem a = m a := by
  let f := Procedure.bareArea (s.regs .rsp) (s.regs .rbp) room hfits.room_le
  have hready : ∀ e' ∈ e.parts,
      f.Ready labels ((p.envAt q labels room s).whileLoaded loaded) (p.context q) e' := by
    intro e' he'
    refine ⟨hparts e' he', ?_⟩
    rintro value loc rfl
    refine .of_loaded rfl ?_ (hloaded value loc he')
    intro hscratch
    exact absurd hscratch (Nat.not_lt.mpr (hcharacters value loc he'))
  have hwithin : 0 + e.depth ≤ f.room := by
    show 0 + e.depth ≤ room
    omega
  obtain ⟨s', hrun, hstack, -⟩ := Area.leaves_expression
    ((realizesAt hfits hdata).whileLoaded loaded) heval hcode hready (Procedure.stack_bareArea s)
    hwithin
  refine ⟨s', reaches_of_run hat hrun, hstack.rbp, hstack.rsp, hstack.top_eq, fun a ha => ?_⟩
  exact hstack.mem a (Nat.not_lt.mpr ha)

end Program

/-- An expression of a checked source has code that computes what it means, in memory that the data
were loaded into. -/
theorem exists_code_of_checkSource {source : String} {p : Program} {warnings : List Warning}
    (hcheck : (checkSource source).result = .ok (p, warnings)) {a : Assembly}
    (hgenerate : p.generate = .ok a) {q : Procedure} (hq : q ∈ p.procedures) {body : Statement}
    (hbody : q.body? = some body) {e : Expression} (he : e ∈ body.parts) :
    ∃ code, expressionCode (p.codeContext q) e = .ok code ∧
      ∀ (labels : Label → Word) (s : State) (loaded : Memory), q.Fits e.depth s →
        (∀ d ∈ a.data, ∀ i < d.size,
          e.depth ≤ slot (s.regs .rsp) (labels d.label + BitVec.ofNat 64 i)) →
        (∀ d ∈ a.data, d.LiesIn labels loaded) →
        ∀ v m, Eval ((p.envAt q labels e.depth s).whileLoaded loaded) e s.mem v m →
          ∀ whole pc, CodeAt whole pc code →
            ∃ s', Reaches labels whole (pc, s) (pc + code.length, s') ∧
              s'.regs .rbp = s.regs .rbp ∧ s'.regs .rsp = s.regs .rsp - 8 ∧ s'.top = v ∧
              ∀ a, e.depth ≤ slot (s.regs .rsp) a → s'.mem a = m a := by
  obtain ⟨hwell, hrec⟩ := wellTyped_of_checkSource hcheck
  have hinside : ∀ e' ∈ e.parts, e' ∈ body.parts := fun _ he' => Statement.parts_subset he he'
  have hparts : ∀ e' ∈ e.parts, (p.context q).Recorded e' := fun e' he' =>
    hrec q hq body hbody e' (hinside e' he')
  obtain ⟨t, -, -, hτ⟩ := hparts e e.self_mem_parts
  obtain ⟨code, hcode⟩ :=
    (expressionCode_eq_ok (Program.serves hwell hq) ((hτ t.ty).mpr rfl) hparts).1
  refine ⟨code, hcode, fun labels s loaded hfits hdata hloaded v m heval whole pc hat => ?_⟩
  obtain ⟨hglobals, hcharacters⟩ := Program.forall_data hgenerate
    (P := fun a => e.depth ≤ slot (s.regs .rsp) a) hdata
  exact Program.reaches_value hfits hglobals le_rfl hparts
    (fun value loc hmem => hcharacters q hq body hbody value loc (hinside _ hmem))
    (fun value loc hmem => Program.loaded_character hgenerate hq hbody hloaded (hinside _ hmem))
    hcode heval hat

/-- Expressions of a compiled source have code that computes what they mean. It may start in any
state with its frame at `rbp` and with room for its own words below `rsp`, apart from the data. An
expression without calls has a value unless evaluation divides by zero, overflows in a division,
follows a pointer to those words or comes upon a character whose byte is not the one that the data
were loaded with. The code then runs to its end, with the value pushed and with memory as the
expression leaves it. -/
theorem compile_expression_value {source : String} {r : Compilation}
    (h : (compile source).result = .ok r) :
    ∃ p : Program, (checkSource source).result = .ok (p, r.warnings) ∧
      ∀ q ∈ p.procedures, ∀ body, q.body? = some body → ∀ e ∈ body.parts, e.CallFree →
        ∃ code, expressionCode (p.codeContext q) e = .ok code ∧
          ∀ (labels : Label → Word) (s : State) (loaded : Memory), q.Fits e.depth s →
            (∀ d ∈ r.assembly.data, ∀ i < d.size,
              e.depth ≤ slot (s.regs .rsp) (labels d.label + BitVec.ofNat 64 i)) →
            (∀ d ∈ r.assembly.data, d.LiesIn labels loaded) →
            ((∃ v m, Eval ((p.envAt q labels e.depth s).whileLoaded loaded) e s.mem v m) ↔
              ¬Faults ((p.envAt q labels e.depth s).whileLoaded loaded) e s.mem) ∧
            ∀ v m, Eval ((p.envAt q labels e.depth s).whileLoaded loaded) e s.mem v m →
              ∀ whole pc, CodeAt whole pc code →
                ∃ s', Reaches labels whole (pc, s) (pc + code.length, s') ∧
                  s'.regs .rbp = s.regs .rbp ∧ s'.regs .rsp = s.regs .rsp - 8 ∧ s'.top = v ∧
                  ∀ a, e.depth ≤ slot (s.regs .rsp) a → s'.mem a = m a := by
  obtain ⟨p, hcheck, hgenerate, hwell, hrec⟩ := generate_of_compile h
  refine ⟨p, hcheck, fun q hq body hbody e he hcalls => ?_⟩
  have hmeaningful : ∀ e' ∈ e.parts, Meaningful (p.context q) e' := by
    intro e' he'
    have hinside := Statement.parts_subset he he'
    exact ⟨hrec q hq body hbody e' hinside, counted_of_checkSource hcheck hq hbody e' hinside,
      hcalls e' he'⟩
  obtain ⟨code, hcode, hcomputes⟩ := exists_code_of_checkSource hcheck hgenerate hq hbody he
  refine ⟨code, hcode, fun labels s loaded hfits hdata hloaded => ⟨?_, ?_⟩⟩
  · exact exists_eval_iff (Program.serves hwell hq) hmeaningful s.mem
  · exact hcomputes labels s loaded hfits hdata hloaded

namespace Countdown

/-- A state in the middle of the procedure: its frame at 4096, and two words on the stack. -/
def inside : State where
  regs
    | .rbp => 4096
    | .rsp => 4080
    | _ => 0
  mem := loaded
  flags := none

theorem depth_eq : comparison.depth = 2 := by
  decide

end Countdown

open Countdown in
/-- The characters differ, and the global keeps the second one. -/
theorem compile_expression_value_countdown : ∃ r, (compile source).result = .ok r ∧
    (∀ d ∈ r.assembly.data, d.LiesIn labels inside.mem) ∧
    ∃ code, expressionCode (program.codeContext procedure) comparison = .ok code ∧
      ∃ s', Reaches labels code (0, inside) (code.length, s') ∧ s'.regs .rbp = 4096 ∧
        s'.regs .rsp = 4072 ∧ s'.top = 1 ∧ s'.mem (labels (.global "g")) = 122 := by
  obtain ⟨a, hgenerate, hcompile⟩ := compile_of_checkSource checkSource_eq
  have hdata := data_eq hgenerate
  obtain ⟨p, hcheck, hall⟩ := compile_expression_value hcompile
  rw [checkSource_eq] at hcheck
  cases hcheck
  have hcalls : comparison.CallFree := by decide
  have hmem : comparison ∈ body.parts := by
    refine Statement.mem_parts.mpr ⟨_, ?_, comparison.self_mem_parts⟩
    simp [body, Statement.expressions, Statement.allExpressions]
  obtain ⟨code, hcode, hrun⟩ := hall procedure (by simp [program]) body rfl _ hmem hcalls
  have hfits : procedure.Fits comparison.depth inside := by
    rw [depth_eq]
    decide
  have houtside : ∀ d ∈ a.data, ∀ i < d.size,
      comparison.depth ≤ slot (inside.regs .rsp) (labels d.label + BitVec.ofNat 64 i) := by
    rw [hdata, depth_eq]
    decide
  have hloaded : ∀ d ∈ a.data, d.LiesIn labels inside.mem := by
    rw [hdata]
    decide
  have heval : Eval ((program.envAt procedure labels comparison.depth inside).whileLoaded
      inside.mem) comparison inside.mem _ _ :=
    eval_comparison (by decide) (by decide)
  obtain ⟨s', hreaches, hrbp, hrsp, htop, hafter⟩ := (hrun labels inside inside.mem hfits houtside
    hloaded).2 _ _ heval code 0 List.prefix_rfl
  rw [Nat.zero_add] at hreaches
  refine ⟨_, hcompile, hloaded, code, hcode, s', hreaches, hrbp, hrsp, htop, ?_⟩
  rw [hafter]
  · decide
  · rw [depth_eq]
    decide

namespace OverwrittenOperand

/-- Compares a character with what is written over it. The data lie in the order of the source, so
the character lies in front of the string. -/
def source : String :=
  "proc bool f()return (== 'a' (= (* (+ \"s\" (- 1))) 'z'))"

def pointer : Expression :=
  .operation 34 ⟨.sign .plus, "+", 35⟩
    [.literal ⟨.text [115], 37⟩, .operation 41 ⟨.sign .dash, "-", 42⟩ [.literal ⟨.integer 1, 44⟩]
      (some .negation) (some (.int 41))]
    (some .addition) (some (.pointer (.char 37) 34))

def store : Expression :=
  .operation 28 ⟨.sign .equals, "=", 29⟩
    [.operation 31 ⟨.sign .star, "*", 32⟩ [pointer] (some .dereference) (some (.char 31)),
      .literal ⟨.character 122, 49⟩] (some .assignment) (some (.char 28))

def comparison (value : UInt8) : Expression :=
  .operation 20 ⟨.sign .doubleEquals, "==", 21⟩ [.literal ⟨.character value, 24⟩, store]
    (some .equality) (some (.bool 20))

def body (value : UInt8) : Statement :=
  .ret 13 (some (comparison value))

def procedure (value : UInt8) : Procedure :=
  ⟨"f", 10, .bool 5, [], .internal [] (body value), []⟩

/-- The program, and those that have another character in its place. -/
def program (value : UInt8) : Program :=
  ⟨[], [procedure value], [], [("f", .procedure 0)]⟩

theorem checkSource_eq : (checkSource source).result = .ok (program 97, []) := by
  decide +kernel

theorem checkSource_z :
    (checkSource "proc bool f()return (== 'z' (= (* (+ \"s\" (- 1))) 'z'))").result =
      .ok (program 122, []) := by
  decide +kernel

def data (value : UInt8) : List Datum :=
  [⟨.character 24, .byte, [value.toNat]⟩, ⟨.string 37, .byte, [115, 0]⟩,
    ⟨.character 49, .byte, [122]⟩]

theorem data_eq {value : UInt8} {a : Assembly} (h : (program value).generate = .ok a) :
    a.data = data value :=
  Program.data_of_generate h rfl

theorem depth_eq (value : UInt8) : (comparison value).depth = 3 := rfl

theorem mem_parts (value : UInt8) : comparison value ∈ (body value).parts :=
  Statement.mem_parts.mpr ⟨_, by simp [body, Statement.expressions], Expression.self_mem_parts _⟩

/-- The data, one byte after another. -/
def labels : Label → Word
  | .character 24 => 8192
  | .string _ => 8193
  | _ => 8195

def inside : State where
  regs
    | .rbp | .rsp => 4096
    | _ => 0
  mem := fun a => if a = 8192 then 97 else if a = 8193 then 115 else if a = 8195 then 122 else 0
  flags := none

theorem data_outside (value : UInt8) : ∀ d ∈ data value, ∀ i < d.size,
    (comparison value).depth ≤ slot (inside.regs .rsp) (labels d.label + BitVec.ofNat 64 i) := by
  have hvalue : ∀ i < 1, 3 ≤ slot 4096 (8192 + BitVec.ofNat 64 i) := by decide
  have hstring : ∀ i < 2, 3 ≤ slot 4096 (8193 + BitVec.ofNat 64 i) := by decide
  have hz : ∀ i < 1, 3 ≤ slot 4096 (8195 + BitVec.ofNat 64 i) := by decide
  simp only [data, List.forall_mem_cons, depth_eq]
  exact ⟨hvalue, hstring, hz, by simp⟩

theorem fits (value : UInt8) : (procedure value).Fits (comparison value).depth inside := by
  have hroom : 8 * (0 + 0) + ((4096 : Word) - 4096).toNat + 8 * 3 ≤ 2 ^ 64 := by decide
  exact hroom

theorem permits (value : UInt8) :
    ((program value).envAt (procedure value) labels (comparison value).depth inside).Permits
      8192 1 := by
  have hslot : ∀ i < 1, 3 ≤ slot 4096 (8192 + BitVec.ofNat 64 i) := by decide
  intro i hi
  rw [depth_eq]
  exact hslot i hi

theorem eval_comparison {env : Env} {m : Memory} (value : UInt8) (hstatic : env.static = labels)
    (hpermits : env.Permits 8192 1) (hz : env.Legible 49 m)
    (hvalue : env.Legible 24 (m.write 8192 1 122)) :
    Eval env (comparison value) m (truth (BitVec.ofNat 64 value.toNat == 122))
      (m.write 8192 1 122) := by
  have hpointer : Eval env pointer m 8192 m := by
    have hnegation : Eval env (.operation 41 ⟨.sign .dash, "-", 42⟩ [.literal ⟨.integer 1, 44⟩]
        (some .negation) (some (.int 41))) m (-1) m :=
      .operation 41 _ _ (.cons (.nil m) (.integer 1 44 m)) rfl
    refine .operation 34 _ _ (.cons (.cons (.nil m) hnegation) (.text [115] 37 m)) ?_
    rw [hstatic]
    rfl
  have hstore : Eval env store m 122 (m.write 8192 1 122) :=
    .assignment (w := .byte) 28 _ _ (.character 122 hz) (.dereference 31 _ _ hpointer) rfl
      (.inr hpermits)
  exact .operation 20 _ _ (.cons (.cons (.nil m) hstore) (.character value hvalue)) rfl

/-- As the code of a character does not depend on its value, the code computes what is meant by the
program that has, in place of the character, the one that is there by then. -/
theorem exists_code : ∃ code,
    expressionCode ((program 97).codeContext (procedure 97)) (comparison 97) = .ok code ∧
      ∃ s', Reaches labels code (0, inside) (code.length, s') ∧ s'.top = 1 := by
  obtain ⟨a, hgenerate, -⟩ := compile_of_checkSource checkSource_z
  have hq : procedure 122 ∈ (program 122).procedures := by simp [program]
  obtain ⟨code, hcode, hcomputes⟩ :=
    exists_code_of_checkSource checkSource_z hgenerate hq rfl (mem_parts 122)
  let loaded := inside.mem.write 8192 1 122
  have hlies : ∀ d ∈ a.data, d.LiesIn labels loaded := by
    rw [data_eq hgenerate]
    decide
  have heval : Eval (((program 122).envAt (procedure 122) labels (comparison 122).depth
      inside).whileLoaded loaded) (comparison 122) inside.mem _ _ :=
    eval_comparison 122 rfl (permits 122) (by decide) (by decide)
  obtain ⟨s', hreaches, -, -, htop, -⟩ := hcomputes labels inside loaded (fits 122)
    (data_eq hgenerate ▸ data_outside 122) hlies _ _ heval code 0 List.prefix_rfl
  rw [Nat.zero_add] at hreaches
  exact ⟨code, hcode, s', hreaches, htop⟩

end OverwrittenOperand

open OverwrittenOperand in
/-- An operand may write over a character that is evaluated after it. The comparison means to tell
97 from 122, while the code finds 122 in both places. -/
theorem compile_expression_value_overwritten : ∃ r, (compile source).result = .ok r ∧
    (checkSource source).result = .ok (program 97, r.warnings) ∧
    comparison 97 ∈ (body 97).parts ∧ (comparison 97).CallFree ∧
    (procedure 97).Fits (comparison 97).depth inside ∧
    (∀ d ∈ r.assembly.data, ∀ i < d.size,
      (comparison 97).depth ≤ slot (inside.regs .rsp) (labels d.label + BitVec.ofNat 64 i)) ∧
    (∀ d ∈ r.assembly.data, d.LiesIn labels inside.mem) ∧
    (∃ m, Eval ((program 97).envAt (procedure 97) labels (comparison 97).depth inside)
      (comparison 97) inside.mem 0 m) ∧
    ∃ code, expressionCode ((program 97).codeContext (procedure 97)) (comparison 97) = .ok code ∧
      ∃ s', Reaches labels code (0, inside) (code.length, s') ∧ s'.top = 1 ∧
        ∀ s₂, Reaches labels code (0, inside) (code.length, s₂) → s₂ = s' := by
  obtain ⟨a, hgenerate, hcompile⟩ := compile_of_checkSource checkSource_eq
  obtain ⟨code, hcode, s', hreaches, htop⟩ := exists_code
  refine ⟨_, hcompile, checkSource_eq, mem_parts 97, by decide, fits 97,
    data_eq hgenerate ▸ data_outside 97, ?_,
    ⟨_, eval_comparison 97 rfl (permits 97) trivial trivial⟩, code, hcode, s', hreaches, htop, ?_⟩
  · rw [data_eq hgenerate]
    decide
  · intro s₂ hreaches₂
    have heq := hreaches₂.eq_of_stuck hreaches (step_length s₂) (step_length s')
    exact congrArg Prod.snd heq

end ProcLang
