import ProcLang.Proofs.Correctness.Positions
import ProcLang.Proofs.Correctness.Procedure

/-! Compiled procedures do what their bodies mean. -/
namespace ProcLang

open Assembly Machine Codegen Semantics

namespace Assembly.Datum

/-- Bytes that a datum takes up. -/
def size (d : Datum) : Nat :=
  d.width.bytes * d.values.length

/-- The values of a datum lie in memory, one after another from its label on. -/
def LiesIn (d : Datum) (labels : Label → Word) (m : Memory) : Prop :=
  ∀ i (_ : i < d.values.length),
    m.read (labels d.label + BitVec.ofNat 64 (d.width.bytes * i)) d.width.bytes = d.values[i]

instance (d : Datum) (labels : Label → Word) (m : Memory) : Decidable (d.LiesIn labels m) :=
  inferInstanceAs (Decidable (∀ i (_ : i < d.values.length), _))

end Assembly.Datum

namespace Program

variable {p : Program} {q : Procedure} {body : Statement} {a : Assembly}

/-- Each procedure with a body has its code, in order. -/
theorem forall₂_proceduresCode {qs : List Procedure} {codes : List Code}
    (h : p.proceduresCode qs = .ok codes) :
    List.Forall₂ (fun q code => ∃ body, q.body? = some body ∧
      procedureCode (p.codeContext q) q body = .ok code) (qs.filter (!·.isExternal)) codes := by
  induction qs generalizing codes with
  | nil =>
    cases h
    exact .nil
  | cons r rs ih =>
    rw [proceduresCode] at h
    cases himpl : r.implementation with
    | external =>
      rw [himpl] at h
      rw [List.filter_cons_of_neg (by simp [Procedure.isExternal, himpl])]
      exact ih h
    | internal locals body =>
      rw [himpl] at h
      obtain ⟨first, hfirst, h⟩ := Outcome.bind_eq_ok.mp h
      obtain ⟨rest, hrest, h⟩ := Outcome.bind_eq_ok.mp h
      cases h
      rw [List.filter_cons_of_pos (by simp [Procedure.isExternal, himpl])]
      exact .cons ⟨body, by simp [Procedure.body?, himpl], hfirst⟩ (ih hrest)

theorem isExternal_of_body? (hbody : q.body? = some body) : q.isExternal = false := by
  cases himpl : q.implementation with
  | external => simp [Procedure.body?, himpl] at hbody
  | internal locals body' => simp [Procedure.isExternal, himpl]

theorem exists_proceduresCode {qs : List Procedure} {codes : List Code}
    (h : p.proceduresCode qs = .ok codes) (hq : q ∈ qs) (hbody : q.body? = some body) :
    ∃ code ∈ codes, procedureCode (p.codeContext q) q body = .ok code := by
  have hinternal : q ∈ qs.filter (!·.isExternal) :=
    List.mem_filter.mpr ⟨hq, by simp [isExternal_of_body? hbody]⟩
  obtain ⟨code, hmem, body', hbody', hcode⟩ :=
    exists_of_forall₂ (forall₂_proceduresCode h) hinternal
  cases hbody.symm.trans hbody'
  exact ⟨code, hmem, hcode⟩

/-- What an assembly is made of. -/
theorem generate_parts (h : p.generate = .ok a) :
    p.proceduresCode p.procedures = .ok a.procedures ∧
      a.externals = (p.procedures.filter Procedure.isExternal).map Procedure.name ∧
      ∃ globals, p.globals.mapM globalDatum = .ok globals ∧
        a.data = globals ++ (p.parts.filterMap Expression.literal?).filterMap Literal.datum? := by
  unfold generate at h
  obtain ⟨codes, hcodes, h⟩ := Outcome.bind_eq_ok.mp h
  obtain ⟨globals, hglobals, h⟩ := Outcome.bind_eq_ok.mp h
  cases h
  exact ⟨hcodes, rfl, globals, hglobals, rfl⟩

theorem exists_procedureCode (h : p.generate = .ok a) (hq : q ∈ p.procedures)
    (hbody : q.body? = some body) :
    ∃ code ∈ a.procedures, procedureCode (p.codeContext q) q body = .ok code :=
  exists_proceduresCode (generate_parts h).1 hq hbody

/-- All code comes from a procedure with a body. -/
theorem exists_of_mem_procedures (h : p.generate = .ok a) {code : Code}
    (hcode : code ∈ a.procedures) :
    ∃ q ∈ p.procedures, ∃ body, q.body? = some body ∧
      procedureCode (p.codeContext q) q body = .ok code := by
  have hcodes := (forall₂_proceduresCode (generate_parts h).1).flip
  obtain ⟨q, hq, hfound⟩ := exists_of_forall₂ hcodes hcode
  exact ⟨q, List.mem_of_mem_filter hq, hfound⟩

theorem forall₂_globalDatum {ds : List Declaration} {data : List Datum}
    (h : ds.mapM globalDatum = .ok data) :
    List.Forall₂ (fun d datum => globalDatum d = .ok datum) ds data := by
  induction ds generalizing data with
  | nil =>
    cases h
    exact .nil
  | cons d ds ih =>
    rw [List.mapM_cons] at h
    obtain ⟨first, hfirst, h⟩ := Outcome.bind_eq_ok.mp h
    obtain ⟨rest, hrest, h⟩ := Outcome.bind_eq_ok.mp h
    cases h
    exact .cons hfirst (ih hrest)

theorem data_of_generate (h : p.generate = .ok a) {data : List Datum}
    (hdata : p.generate.map Assembly.data = .ok data) : a.data = data := by
  rw [h] at hdata
  exact Except.ok.inj hdata

/-- The data hold the value of every character. -/
theorem mem_data_of_character (h : p.generate = .ok a) (hq : q ∈ p.procedures)
    (hbody : q.body? = some body) {value : UInt8} {loc : Nat}
    (hmem : .literal ⟨.character value, loc⟩ ∈ body.parts) :
    ⟨.character loc, .byte, [value.toNat]⟩ ∈ a.data := by
  obtain ⟨-, -, globals, -, hall⟩ := generate_parts h
  have hparts : .literal ⟨.character value, loc⟩ ∈ p.parts :=
    mem_parts.mpr ⟨q, hq, body, hbody, hmem⟩
  have hliteral : ⟨.character value, loc⟩ ∈ p.parts.filterMap Expression.literal? :=
    List.mem_filterMap.mpr ⟨_, hparts, rfl⟩
  rw [hall]
  exact List.mem_append_right _ (List.mem_filterMap.mpr ⟨_, hliteral, rfl⟩)

/-- Where the data were loaded, characters have their values. -/
theorem loaded_character (h : p.generate = .ok a) (hq : q ∈ p.procedures)
    (hbody : q.body? = some body) {labels : Label → Word} {loaded : Memory}
    (hloaded : ∀ d ∈ a.data, d.LiesIn labels loaded) {value : UInt8} {loc : Nat}
    (hmem : .literal ⟨.character value, loc⟩ ∈ body.parts) :
    loaded (labels (.character loc)) = value.toBitVec := by
  have hlies := hloaded _ (mem_data_of_character h hq hbody hmem) 0 Nat.one_pos
  apply BitVec.eq_of_toNat_eq
  simpa [Memory.read, Width.bytes] using hlies

/-- Everything that a program knows of by a label is in the data. -/
theorem forall_data (h : p.generate = .ok a) {labels : Label → Word} {P : Word → Prop}
    (hdata : ∀ d ∈ a.data, ∀ i < d.size, P (labels d.label + BitVec.ofNat 64 i)) :
    (∀ d ∈ p.globals, ∀ {w}, d.type.ty.width? = some w → ∀ i < w.bytes,
      P (labels (.global d.name) + BitVec.ofNat 64 i)) ∧
      ∀ q ∈ p.procedures, ∀ body, q.body? = some body → ∀ value loc,
        .literal ⟨.character value, loc⟩ ∈ body.parts → P (labels (.character loc)) := by
  refine ⟨fun d hd w hw i hi => ?_, fun q hq body hbody value loc hmem => ?_⟩
  · obtain ⟨-, -, globals, hglobals, hall⟩ := generate_parts h
    obtain ⟨datum, hmem, hdatum⟩ := exists_of_forall₂ (forall₂_globalDatum hglobals) hd
    rw [globalDatum, Area.widthOf_eq hw] at hdatum
    cases hdatum
    rw [hall] at hdata
    exact hdata _ (List.mem_append_left _ hmem) i (by simpa [Datum.size] using hi)
  · have hdatum := mem_data_of_character h hq hbody hmem
    simpa using hdata _ hdatum 0 (by simp [Datum.size, Width.bytes])

theorem dataOutside (h : p.generate = .ok a) (hq : q ∈ p.procedures) (hbody : q.body? = some body)
    {labels : Label → Word} {top : Word}
    (hdata : ∀ d ∈ a.data, ∀ i < d.size, ¬q.Owns body top (labels d.label + BitVec.ofNat 64 i)) :
    p.DataOutside q labels top body := by
  have hall := forall_data h (P := fun a => ¬q.Owns body top a) hdata
  exact ⟨hall.1, hall.2 q hq body hbody⟩

end Program

theorem generate_of_compile {source : String} {r : Compilation}
    (h : (compile source).result = .ok r) :
    ∃ p : Program, (checkSource source).result = .ok (p, r.warnings) ∧
      p.generate = .ok r.assembly ∧ p.WellTyped ∧ p.Recorded := by
  obtain ⟨⟨p, warnings⟩, hcheck, h⟩ := Traced.bind_eq_ok.mp h
  obtain ⟨a, ha, h⟩ := Traced.bind_eq_ok.mp h
  obtain ⟨_, -, h⟩ := Traced.bind_eq_ok.mp h
  cases h
  exact ⟨p, hcheck, ha, wellTyped_of_checkSource hcheck⟩

/-- Whatever passes the check is compiled. -/
theorem compile_of_checkSource {source : String} {p : Program} {warnings : List Warning}
    (h : (checkSource source).result = .ok (p, warnings)) :
    ∃ a, p.generate = .ok a ∧ (compile source).result = .ok ⟨a, warnings⟩ := by
  obtain ⟨hwell, hrec⟩ := wellTyped_of_checkSource h
  obtain ⟨a, ha⟩ := Program.generate_eq_ok hwell hrec
  exact ⟨a, ha, Traced.bind_eq_ok.mpr ⟨(_, warnings), h, Traced.bind_eq_ok.mpr ⟨a, ha, rfl⟩⟩⟩

/-- The code of a procedure of a checked source does what its body means, in memory that the data
were loaded into. -/
theorem reaches_ret_of_checkSource {source : String} {p : Program} {warnings : List Warning}
    (hcheck : (checkSource source).result = .ok (p, warnings)) {a : Assembly}
    (hgenerate : p.generate = .ok a) {q : Procedure} (hq : q ∈ p.procedures) {body : Statement}
    (hbody : q.body? = some body) {code : Code}
    (hcode : procedureCode (p.codeContext q) q body = .ok code) {labels : Label → Word} {s : State}
    {loaded m m' : Memory} {o : Completion} (hfits : 8 * q.stackWords body ≤ 2 ^ 64)
    (hdata : ∀ d ∈ a.data, ∀ i < d.size,
      ¬q.Owns body (s.regs .rsp) (labels d.label + BitVec.ofNat 64 i))
    (hloaded : ∀ d ∈ a.data, d.LiesIn labels loaded) (hentered : p.Entered q labels body s m)
    (hexec : Exec ((p.env q labels (s.regs .rsp) body).whileLoaded loaded) body m o m') :
    ∃ pc s', Reaches labels code (0, s) (pc, s') ∧ code[pc]? = some (.instruction .ret) ∧
      s'.regs .rsp = s.regs .rsp ∧ s'.regs .rbp = s.regs .rbp ∧
      (∀ v, o = .returned (some v) → s'.regs .rax = v) ∧
      ∀ a, ¬q.Owns body (s.regs .rsp) a → s'.mem a = m' a := by
  obtain ⟨hwell, hrec⟩ := wellTyped_of_checkSource hcheck
  exact Program.reaches_ret hwell hrec hq hbody hcode (controls_nodup hcheck hq hbody) hfits
    (Program.dataOutside hgenerate hq hbody hdata)
    (fun value loc => Program.loaded_character hgenerate hq hbody hloaded) hentered hexec

/-- Every procedure of a compiled source has code that does what its body means. It may be entered
in any state, with its arguments in registers, as long as there is room for its stack apart from the
data. If the body, started with its parameters passed and its locals zero, completes with memory
`m'`, then the code reaches `ret` with the stack and frame pointers of the caller, with the value
that is returned in `rax`, and with memory `m'` outside of its own stack. Characters mean their
values, but the code takes them from memory, where pointers can lead. So no character may be
evaluated whose byte is not the one that the data were loaded with. -/
theorem compile_correct {source : String} {r : Compilation}
    (h : (compile source).result = .ok r) :
    ∃ p : Program, (checkSource source).result = .ok (p, r.warnings) ∧
      ∀ q ∈ p.procedures, ∀ body, q.body? = some body → ∃ code ∈ r.assembly.procedures,
        code.head? = some (.label (.procedure q.name)) ∧
        ∀ (labels : Label → Word) (s : State) (loaded m m' : Memory) (o : Completion),
          8 * q.stackWords body ≤ 2 ^ 64 →
          (∀ d ∈ r.assembly.data, ∀ i < d.size,
            ¬q.Owns body (s.regs .rsp) (labels d.label + BitVec.ofNat 64 i)) →
          (∀ d ∈ r.assembly.data, d.LiesIn labels loaded) →
          p.Entered q labels body s m →
          Exec ((p.env q labels (s.regs .rsp) body).whileLoaded loaded) body m o m' →
          ∃ pc s', Reaches labels code (0, s) (pc, s') ∧ code[pc]? = some (.instruction .ret) ∧
            s'.regs .rsp = s.regs .rsp ∧ s'.regs .rbp = s.regs .rbp ∧
            (∀ v, o = .returned (some v) → s'.regs .rax = v) ∧
            ∀ a, ¬q.Owns body (s.regs .rsp) a → s'.mem a = m' a := by
  obtain ⟨p, hcheck, hgenerate, -, -⟩ := generate_of_compile h
  refine ⟨p, hcheck, fun q hq body hbody => ?_⟩
  obtain ⟨code, hmem, hcode⟩ := Program.exists_procedureCode hgenerate hq hbody
  refine ⟨code, hmem, Program.head?_procedureCode hcode, ?_⟩
  intro labels s loaded m m' o hfits hdata hloaded hentered hexec
  exact reaches_ret_of_checkSource hcheck hgenerate hq hbody hcode hfits hdata hloaded hentered
    hexec

namespace Countdown

/-- Counts an argument down to zero, then compares two characters, one of which a global keeps. -/
def source : String :=
  "[char g]proc bool f(int n)\x7bwhile(< 0 n)(= n(- n 1))return(!= 'a'(= g 'z'))\x7d"

def parameter (loc : Nat) : Expression :=
  .var ⟨"n", loc, some (.parameter 0), some (.int loc)⟩

def condition : Expression :=
  .operation 32 ⟨.sign .leftAngle, "<", 33⟩ [.literal ⟨.integer 0, 35⟩, parameter 37]
    (some .lessThan) (some (.bool 32))

def decrement : Expression :=
  .operation 39 ⟨.sign .equals, "=", 40⟩
    [parameter 42, .operation 43 ⟨.sign .dash, "-", 44⟩
      [parameter 46, .literal ⟨.integer 1, 48⟩] (some .subtraction) (some (.int 43))]
    (some .assignment) (some (.int 39))

def comparison : Expression :=
  .operation 57 ⟨.sign .bangEquals, "!=", 58⟩
    [.literal ⟨.character 97, 61⟩, .operation 64 ⟨.sign .equals, "=", 65⟩
      [.var ⟨"g", 67, some (.global 0), some (.char 67)⟩, .literal ⟨.character 122, 69⟩]
      (some .assignment) (some (.char 64))]
    (some .notEquality) (some (.bool 57))

def body : Statement :=
  .block 26 [.loop 27 condition (.expression decrement), .ret 51 (some comparison)]

def procedure : Procedure :=
  ⟨"f", 18, .bool 13, [.var ⟨"n", .int 20, 24⟩], .internal [] body,
    [("n", .var (.parameter 0))]⟩

def program : Program :=
  ⟨[⟨"g", .char 1, 6⟩], [procedure], [("g", .var (.global 0))], [("f", .procedure 0)]⟩

theorem checkSource_eq : (checkSource source).result = .ok (program, []) := by
  decide +kernel

theorem data_eq {a : Assembly} (h : program.generate = .ok a) :
    a.data = [⟨.global "g", .byte, [0]⟩, ⟨.character 61, .byte, [97]⟩,
      ⟨.character 69, .byte, [122]⟩] :=
  Program.data_of_generate h (by decide +kernel)

theorem stackWords_eq : procedure.stackWords body = 4 := by
  decide

/-- The data, one byte after another. -/
def labels : Label → Word
  | .global _ => 8192
  | .character 61 => 8193
  | _ => 8194

def loaded : Memory := fun a =>
  if a = 8193 then 97 else if a = 8194 then 122 else 0

/-- A state that passes the argument 1. -/
def start : State where
  regs
    | .rdi => 1
    | .rsp => 4096
    | _ => 0
  mem := loaded
  flags := none

section

variable {env : Env} {m : Memory}

theorem eval_parameter (loc : Nat) {v : Word}
    (h : m.read (env.place (.parameter 0)) 8 = v.toNat) : Eval env (parameter loc) m v m := by
  have hvar : Eval env (parameter loc) m _ m := .var m rfl rfl
  have hv : BitVec.ofNat 64 (m.read (env.place (.parameter 0)) 8) = v := by rw [h]; simp
  exact hv ▸ hvar

theorem eval_condition {v : Word} (h : m.read (env.place (.parameter 0)) 8 = v.toNat) :
    Eval env condition m (truth ((0 : Word).slt v)) m :=
  .operation 32 _ _ (.cons (.cons (.nil m) (eval_parameter 37 h)) (.integer 0 35 m)) rfl

theorem eval_decrement {v : Word} (h : m.read (env.place (.parameter 0)) 8 = v.toNat) :
    Eval env decrement m (v - 1) (m.write (env.place (.parameter 0)) 8 (v - 1).toNat) := by
  have hvalue : Eval env (.operation 43 ⟨.sign .dash, "-", 44⟩
      [parameter 46, .literal ⟨.integer 1, 48⟩] (some .subtraction) (some (.int 43))) m (v - 1) m :=
    .operation 43 _ _ (.cons (.cons (.nil m) (.integer 1 48 m)) (eval_parameter 46 h)) rfl
  exact .assignment (w := .qword) 39 _ _ hvalue (.var m rfl) rfl (.inl ⟨_, rfl⟩)

/-- The global gets its character before the other one is looked at. -/
theorem eval_comparison (hz : env.Legible 69 m)
    (ha : env.Legible 61 (m.write (env.place (.global 0)) 1 122)) :
    Eval env comparison m 1 (m.write (env.place (.global 0)) 1 122) := by
  have hassignment : Eval env (.operation 64 ⟨.sign .equals, "=", 65⟩
      [.var ⟨"g", 67, some (.global 0), some (.char 67)⟩, .literal ⟨.character 122, 69⟩]
      (some .assignment) (some (.char 64))) m 122 (m.write (env.place (.global 0)) 1 122) :=
    .assignment (w := .byte) 64 _ _ (.character 122 hz) (.var m rfl) rfl (.inl ⟨_, rfl⟩)
  exact .operation 57 _ _ (.cons (.cons (.nil m) hassignment) (.character 97 ha)) rfl

theorem exec_body (h : m.read (env.place (.parameter 0)) 8 = 1)
    (hz : env.Legible 69 (m.write (env.place (.parameter 0)) 8 0))
    (ha : env.Legible 61 ((m.write (env.place (.parameter 0)) 8 0).write
      (env.place (.global 0)) 1 122)) :
    Exec env body m (.returned (some 1))
      ((m.write (env.place (.parameter 0)) 8 0).write (env.place (.global 0)) 1 122) := by
  have hone : m.read (env.place (.parameter 0)) 8 = (1 : Word).toNat := h
  have hzero : (m.write (env.place (.parameter 0)) 8 0).read (env.place (.parameter 0)) 8 =
      (0 : Word).toNat :=
    Memory.read_write (by omega) _ _ _
  exact .blockCons (.loopStep (eval_condition hone) (by decide) (.expression (eval_decrement hone))
    (.loopDone _ (eval_condition hzero))) (.blockExit [] (.retValue (eval_comparison hz ha)))

end

end Countdown

open Countdown in
theorem compile_correct_countdown : ∃ r, (compile source).result = .ok r ∧
    (∀ d ∈ r.assembly.data, d.LiesIn labels start.mem) ∧
    ∃ code ∈ r.assembly.procedures, ∃ pc s', Reaches labels code (0, start) (pc, s') ∧
      code[pc]? = some (.instruction .ret) ∧ s'.regs .rsp = 4096 ∧ s'.regs .rax = 1 ∧
      s'.mem (labels (.global "g")) = 122 := by
  obtain ⟨a, hgenerate, hcompile⟩ := compile_of_checkSource checkSource_eq
  have hdata := data_eq hgenerate
  obtain ⟨p, hcheck, hall⟩ := compile_correct hcompile
  rw [checkSource_eq] at hcheck
  cases hcheck
  obtain ⟨code, hmem, -, hrun⟩ := hall procedure (by simp [program]) body rfl
  have houtside : ∀ d ∈ a.data, ∀ i < d.size,
      ¬procedure.Owns body (start.regs .rsp) (labels d.label + BitVec.ofNat 64 i) := by
    simp only [hdata, Procedure.Owns, stackWords_eq]
    decide
  have hloaded : ∀ d ∈ a.data, d.LiesIn labels start.mem := by
    rw [hdata]
    decide
  have hentered : program.Entered procedure labels body start (procedure.entered start).mem :=
    Program.entered_frame (by decide) (by decide)
  have hexec : Exec ((program.env procedure labels 4096 body).whileLoaded start.mem) body
      (procedure.entered start).mem _ _ :=
    exec_body (by decide) (by decide) (by decide)
  obtain ⟨pc, s', hreaches, hret, hrsp, -, hrax, hafter⟩ :=
    hrun labels start start.mem _ _ _ (by decide) houtside hloaded hentered hexec
  refine ⟨_, hcompile, hloaded, code, hmem, pc, s', hreaches, hret, hrsp, hrax 1 rfl, ?_⟩
  rw [hafter]
  · decide
  · rw [Procedure.Owns, stackWords_eq]
    decide

namespace Overwritten

/-- Writes over the character that it returns, which lies behind the other data. -/
def source : String :=
  "proc char f()\x7b(= (* (+ \"s\" 3)) 'z') return 'a'\x7d"

def store : Expression :=
  .operation 14 ⟨.sign .equals, "=", 15⟩
    [.operation 17 ⟨.sign .star, "*", 18⟩ [.operation 20 ⟨.sign .plus, "+", 21⟩
      [.literal ⟨.text [115], 23⟩, .literal ⟨.integer 3, 27⟩] (some .addition)
      (some (.pointer (.char 23) 20))] (some .dereference) (some (.char 17)),
      .literal ⟨.character 122, 31⟩] (some .assignment) (some (.char 14))

def body (value : UInt8) : Statement :=
  .block 13 [.expression store, .ret 36 (some (.literal ⟨.character value, 43⟩))]

def procedure (value : UInt8) : Procedure :=
  ⟨"f", 10, .char 5, [], .internal [] (body value), []⟩

/-- The program, and those that return another character in its place. -/
def program (value : UInt8) : Program :=
  ⟨[], [procedure value], [], [("f", .procedure 0)]⟩

theorem checkSource_eq : (checkSource source).result = .ok (program 97, []) := by
  decide +kernel

theorem checkSource_z :
    (checkSource "proc char f()\x7b(= (* (+ \"s\" 3)) 'z') return 'z'\x7d").result =
      .ok (program 122, []) := by
  decide +kernel

def data (value : UInt8) : List Datum :=
  [⟨.string 23, .byte, [115, 0]⟩, ⟨.character 31, .byte, [122]⟩,
    ⟨.character 43, .byte, [value.toNat]⟩]

theorem data_eq {value : UInt8} {a : Assembly} (h : (program value).generate = .ok a) :
    a.data = data value :=
  Program.data_of_generate h rfl

theorem stackWords_eq (value : UInt8) : (procedure value).stackWords (body value) = 4 := rfl

theorem exists_code {value : UInt8} {a : Assembly} (h : (program value).generate = .ok a) :
    ∃ code, a.procedures = [code] ∧ procedureCode ((program value).codeContext (procedure value))
      (procedure value) (body value) = .ok code := by
  have hcodes : List.Forall₂ _ [procedure value] a.procedures :=
    Program.forall₂_proceduresCode (Program.generate_parts h).1
  obtain ⟨code, rest, ⟨_, hbody, hcode⟩, hrest, hcodes⟩ := List.forall₂_cons_left_iff.mp hcodes
  cases hbody
  cases hrest
  exact ⟨code, hcodes, hcode⟩

/-- The data, one byte after another. -/
def labels : Label → Word
  | .string _ => 8192
  | .character 31 => 8194
  | _ => 8195

def start : State where
  regs
    | .rsp => 4096
    | _ => 0
  mem := fun a => if a = 8192 then 115 else if a = 8194 then 122 else if a = 8195 then 97 else 0
  flags := none

theorem exec_body {env : Env} {m : Memory} (value : UInt8) (hstatic : env.static = labels)
    (hpermits : env.Permits 8195 1) (hz : env.Legible 31 m)
    (hvalue : env.Legible 43 (m.write 8195 1 122)) :
    Exec env (body value) m (.returned (some (BitVec.ofNat 64 value.toNat)))
      (m.write 8195 1 122) := by
  have haddress : Eval env (.operation 20 ⟨.sign .plus, "+", 21⟩
      [.literal ⟨.text [115], 23⟩, .literal ⟨.integer 3, 27⟩] (some .addition)
      (some (.pointer (.char 23) 20))) m 8195 m := by
    refine .operation 20 _ _ (.cons (.cons (.nil m) (.integer 3 27 m)) (.text [115] 23 m)) ?_
    rw [hstatic]
    rfl
  have hstore : Eval env store m 122 (m.write 8195 1 122) :=
    .assignment (w := .byte) 14 _ _ (.character 122 hz) (.dereference 17 _ _ haddress) rfl
      (.inr hpermits)
  exact .blockCons (.expression hstore) (.blockExit [] (.retValue (.character value hvalue)))

theorem data_outside (value : UInt8) : ∀ d ∈ data value, ∀ i < d.size,
    ¬(procedure value).Owns (body value) (start.regs .rsp)
      (labels d.label + BitVec.ofNat 64 i) := by
  have hstring : ∀ i < 2, ¬slot 4096 (8192 + BitVec.ofNat 64 i) < 4 := by decide
  have hz : ∀ i < 1, ¬slot 4096 (8194 + BitVec.ofNat 64 i) < 4 := by decide
  have hvalue : ∀ i < 1, ¬slot 4096 (8195 + BitVec.ofNat 64 i) < 4 := by decide
  simp only [data, List.forall_mem_cons, Procedure.Owns, stackWords_eq]
  exact ⟨hstring, hz, hvalue, by simp⟩

theorem permits (value : UInt8) :
    ((program value).env (procedure value) labels 4096 (body value)).Permits 8195 1 := by
  have hslot : ∀ i < 1, ¬slot 4096 (8195 + BitVec.ofNat 64 i) < 4 := by decide
  intro i hi
  right
  rw [Procedure.Owns, stackWords_eq]
  exact hslot i hi

/-- The code of a character does not depend on its value. So the code does what is meant by the
program that has, in place of the character, the one that is there by then. -/
theorem reaches_ret {code : Code}
    (hcode : procedureCode ((program 97).codeContext (procedure 97)) (procedure 97) (body 97) =
      .ok code) :
    ∃ pc s', Reaches labels code (0, start) (pc, s') ∧ code[pc]? = some (.instruction .ret) ∧
      s'.regs .rax = 122 := by
  obtain ⟨a, hgenerate, -⟩ := compile_of_checkSource checkSource_z
  have hq : procedure 122 ∈ (program 122).procedures := by simp [program]
  have hsame : procedureCode ((program 122).codeContext (procedure 122)) (procedure 122)
      (body 122) = .ok code := hcode
  let loaded := start.mem.write 8195 1 122
  have hlies : ∀ d ∈ a.data, d.LiesIn labels loaded := by
    rw [data_eq hgenerate]
    decide
  have hentered : (program 122).Entered (procedure 122) labels (body 122) start
      ((procedure 122).entered start).mem :=
    Program.entered_frame (by decide) (by decide)
  have hexec : Exec (((program 122).env (procedure 122) labels 4096 (body 122)).whileLoaded loaded)
      (body 122) ((procedure 122).entered start).mem _ _ :=
    exec_body 122 rfl (permits 122) (by decide) (by decide)
  obtain ⟨pc, s', hreaches, hret, -, -, hrax, -⟩ := reaches_ret_of_checkSource checkSource_z
    hgenerate hq rfl hsame (by decide) (data_eq hgenerate ▸ data_outside 122) hlies hentered hexec
  exact ⟨pc, s', hreaches, hret, hrax 122 rfl⟩

end Overwritten

open Overwritten in
/-- A pointer may lead out of one literal and into another. The body means to return the character
97, while the code returns what was written over it. -/
theorem compile_correct_overwritten : ∃ r, (compile source).result = .ok r ∧
    (checkSource source).result = .ok (program 97, r.warnings) ∧
    8 * (procedure 97).stackWords (body 97) ≤ 2 ^ 64 ∧
    (∀ d ∈ r.assembly.data, ∀ i < d.size,
      ¬(procedure 97).Owns (body 97) (start.regs .rsp) (labels d.label + BitVec.ofNat 64 i)) ∧
    (∀ d ∈ r.assembly.data, d.LiesIn labels start.mem) ∧
    (∃ m m', (program 97).Entered (procedure 97) labels (body 97) start m ∧
      Exec ((program 97).env (procedure 97) labels (start.regs .rsp) (body 97)) (body 97) m
        (.returned (some 97)) m') ∧
    ∃ code, r.assembly.procedures = [code] ∧ ∃ pc s', Reaches labels code (0, start) (pc, s') ∧
      code[pc]? = some (.instruction .ret) ∧ s'.regs .rax = 122 ∧
      ∀ pc₂ s₂, Reaches labels code (0, start) (pc₂, s₂) →
        code[pc₂]? = some (.instruction .ret) → (pc₂, s₂) = (pc, s') := by
  obtain ⟨a, hgenerate, hcompile⟩ := compile_of_checkSource checkSource_eq
  obtain ⟨code, hcodes, hcode⟩ := exists_code hgenerate
  obtain ⟨pc, s', hreaches, hret, hrax⟩ := reaches_ret hcode
  have hentered : (program 97).Entered (procedure 97) labels (body 97) start
      ((procedure 97).entered start).mem :=
    Program.entered_frame (by decide) (by decide)
  refine ⟨_, hcompile, checkSource_eq, by decide, data_eq hgenerate ▸ data_outside 97, ?_,
    ⟨_, _, hentered, exec_body 97 rfl (permits 97) trivial trivial⟩, code, hcodes, pc, s', hreaches,
    hret, hrax, ?_⟩
  · rw [data_eq hgenerate]
    decide
  · intro pc₂ s₂ hreaches₂ hret₂
    exact hreaches₂.eq_of_stuck hreaches (step_ret hret₂) (step_ret hret)

end ProcLang
