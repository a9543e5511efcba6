import ProcLang.Proofs.Correctness.Frame

/-! The code of a procedure does what its body means. -/
namespace ProcLang

open Assembly Machine Codegen Semantics

namespace Codegen

theorem labelsOf_saveParameters {name : String} {index : Nat} {ps : List Parameter}
    {rs : List Register} {code : Code} (h : saveParameters name index ps rs = .ok code) :
    labelsOf code = [] := by
  rw [saveParameters_eq h, labelsOf_instructions]

theorem labelsOf_pushZero (ds : List Declaration) :
    labelsOf (ds.map fun _ => .instruction .pushZero) = [] := by
  induction ds with
  | nil => rfl
  | cons d ds ih => exact ih

end Codegen

namespace Program

variable {p : Program} {q : Procedure} {body : Statement} {code : Code}

theorem procedureCode_parts (h : procedureCode (p.codeContext q) q body = .ok code) :
    ∃ saved bodyCode, saveParameters q.name 0 q.parameters argumentRegisters = .ok saved ∧
      statementCode (p.codeContext q) body = .ok bodyCode ∧
      code = q.prologue saved ++ bodyCode ++ q.epilogue ++ instructions [.ret] := by
  unfold procedureCode at h
  obtain ⟨saved, hsaved, h⟩ := Outcome.bind_eq_ok.mp h
  obtain ⟨bodyCode, hbody, h⟩ := Outcome.bind_eq_ok.mp h
  cases h
  refine ⟨saved, bodyCode, hsaved, hbody, ?_⟩
  simp only [Procedure.prologue, Procedure.epilogue, instructions, List.map_append,
    List.append_assoc]
  rfl

/-- The code of a procedure starts with its label. -/
theorem head?_procedureCode (h : procedureCode (p.codeContext q) q body = .ok code) :
    code.head? = some (.label (.procedure q.name)) := by
  obtain ⟨saved, bodyCode, -, -, rfl⟩ := procedureCode_parts h
  rfl

theorem getLast?_procedureCode (h : procedureCode (p.codeContext q) q body = .ok code) :
    code.getLast? = some (.instruction .ret) := by
  obtain ⟨saved, bodyCode, -, -, rfl⟩ := procedureCode_parts h
  exact List.getLast?_concat

theorem labelsOf_procedure {saved : Code}
    (hsaved : saveParameters q.name 0 q.parameters argumentRegisters = .ok saved)
    (bodyCode : Code) :
    labelsOf (q.prologue saved ++ bodyCode ++ q.epilogue ++ instructions [.ret]) =
      .procedure q.name :: (labelsOf bodyCode ++ [.exit]) := by
  simp only [Procedure.prologue, Procedure.epilogue, labelsOf_append, labelsOf_label,
    labelsOf_instruction, labelsOf_instructions, labelsOf_pushZero,
    labelsOf_saveParameters hsaved, List.append_nil, List.nil_append, List.cons_append]

/-- Code starts with the label of its procedure. The labels inside are distinct if branches and
loops stand at distinct positions. -/
theorem exists_locals (h : procedureCode (p.codeContext q) q body = .ok code)
    (hnodup : body.controls.Nodup) :
    ∃ ls, labelsOf code = .procedure q.name :: ls ∧ ls.Nodup ∧ ∀ l ∈ ls, l.isLocal := by
  obtain ⟨saved, bodyCode, hsaved, hbody, rfl⟩ := procedureCode_parts h
  have htagged := tagged_statement hbody hnodup
  refine ⟨_, labelsOf_procedure hsaved bodyCode, ?_, fun l hl => ?_⟩
  · rw [← List.concat_eq_append, List.nodup_concat]
    refine ⟨fun hexit => ?_, htagged.nodup⟩
    obtain ⟨loc, -, hloc⟩ := htagged.position _ hexit
    cases hloc
  · rcases List.mem_append.mp hl with hl | hl
    · obtain ⟨loc, -, hloc⟩ := htagged.position l hl
      exact Label.isLocal_of_position? hloc
    · rw [List.mem_singleton.mp hl]
      rfl

/-- Labels of a procedure are distinct if its branches and loops stand at distinct positions. -/
theorem labels_nodup (h : procedureCode (p.codeContext q) q body = .ok code)
    (hnodup : body.controls.Nodup) : (labelsOf code).Nodup := by
  obtain ⟨ls, hlabels, hls, hlocal⟩ := exists_locals h hnodup
  rw [hlabels, List.nodup_cons]
  exact ⟨fun hmem => Bool.noConfusion (hlocal _ hmem), hls⟩

theorem few_parameters (hwell : p.WellTyped) (hq : q ∈ p.procedures) (hbody : q.body? = some body) :
    q.parameters.length ≤ argumentRegisters.length := by
  refine hwell.few q hq ?_
  unfold Procedure.body? at hbody
  cases himpl : q.implementation with
  | external => simp [himpl] at hbody
  | internal locals body' => simp [Procedure.isExternal, himpl]

section

variable {labels : Label → Word} {top : Word} {s : State} {m m' loaded : Memory} {o : Completion}
  {hfits : 8 * q.stackWords body ≤ 2 ^ 64} {hdata : p.DataOutside q labels top body}

theorem admits_body (hrec : p.Recorded) (hq : q ∈ p.procedures) (hbody : q.body? = some body)
    (hloaded : ∀ value loc, .literal ⟨.character value, loc⟩ ∈ body.parts →
      loaded (labels (.character loc)) = value.toBitVec)
    {e : Expression} (he : e ∈ body.expressions) :
    (p.area q labels top body hfits hdata).Admits labels
      ((p.env q labels top body).whileLoaded loaded) (p.context q) e := by
  have hparts : ∀ e' ∈ e.parts, e' ∈ body.parts :=
    fun e' he' => Statement.mem_parts.mpr ⟨e, he, he'⟩
  refine ⟨fun e' he' => ⟨hrec q hq body hbody e' (hparts e' he'), ?_⟩, ?_⟩
  · rintro value loc rfl
    have hmem := hparts _ he'
    refine .of_loaded rfl ?_ (hloaded value loc hmem)
    intro hscratch
    exact hdata.characters value loc hmem hscratch.1
  · exact Nat.add_le_add_left (Statement.depth_le he) _

/-- The saved frame pointer is the first word of the frame, and no variable. -/
theorem read_saved {k : Nat} (hk : 0 < k)
    (hkeeps : (p.area q labels top body hfits hdata).Keeps k m m') :
    m'.read (top - 8) 8 = m.read (top - 8) 8 := by
  refine Memory.read_eq_of_bytes fun i hi => ?_
  have hslot : slot top (top - 8 + BitVec.ofNat 64 i) = 0 := by
    simpa using slot_word (n := 0) (by omega) hi top
  have howns : q.Owns body top (top - 8 + BitVec.ofNat 64 i) := by
    unfold Procedure.Owns Procedure.stackWords Procedure.frameWords
    omega
  refine hkeeps _ ⟨howns, fun hstores => ?_⟩ (hslot ▸ hk)
  have := (slot_of_stores hfits hdata hstores howns).1
  omega

end

section

variable {labels : Label → Word} {s : State} {m m' loaded : Memory} {o : Completion}

/-- The code of a procedure does what its body means, and leaves the stack as it was. The characters
of the body were loaded with their values, and none is evaluated after it was overwritten. -/
theorem reaches_ret (hwell : p.WellTyped) (hrec : p.Recorded) (hq : q ∈ p.procedures)
    (hbody : q.body? = some body) (hcode : procedureCode (p.codeContext q) q body = .ok code)
    (hcontrols : body.controls.Nodup) (hfits : 8 * q.stackWords body ≤ 2 ^ 64)
    (hdata : p.DataOutside q labels (s.regs .rsp) body)
    (hloaded : ∀ value loc, .literal ⟨.character value, loc⟩ ∈ body.parts →
      loaded (labels (.character loc)) = value.toBitVec)
    (hentered : p.Entered q labels body s m)
    (hexec : Exec ((p.env q labels (s.regs .rsp) body).whileLoaded loaded) body m o m') :
    ∃ pc s', Reaches labels code (0, s) (pc, s') ∧ code[pc]? = some (.instruction .ret) ∧
      s'.regs .rsp = s.regs .rsp ∧ s'.regs .rbp = s.regs .rbp ∧
      (∀ v, o = .returned (some v) → s'.regs .rax = v) ∧
      ∀ a, ¬q.Owns body (s.regs .rsp) a → s'.mem a = m' a := by
  have hfew := few_parameters hwell hq hbody
  have hnodup := labels_nodup hcode hcontrols
  obtain ⟨saved, bodyCode, hsaved, hbodyCode, hparts⟩ := procedureCode_parts hcode
  have hat : CodeAt code 0 (q.prologue saved ++ bodyCode ++ q.epilogue ++ instructions [.ret]) :=
    hparts ▸ List.prefix_rfl
  have hexit : target? code .exit = some (0 + (q.prologue saved ++ bodyCode).length) :=
    target?_eq_some hnodup hat.left.right.left.head
  have hframe : 0 < q.frameWords ∧ 8 * q.frameWords ≤ 2 ^ 64 := by
    unfold Procedure.stackWords at hfits
    unfold Procedure.frameWords at hfits ⊢
    omega
  -- the frame is set up, and the body runs to the exit
  have hstart : Reaches labels code (0, s) (_, q.entered s) :=
    reaches_of_run hat.left.left.left (Procedure.run_prologue hsaved)
  obtain ⟨pc, s₁, hreaches, hstack, hkeeps, hleads⟩ :=
    Area.finishes (realizes.whileLoaded loaded) hnodup hexit hexec hbodyCode hat.left.left.right
      (fun e he => admits_body hrec hq hbody hloaded he) (stack_entered hfits hdata hfew hentered)
  rw [Nat.add_assoc, ← List.length_append] at hleads
  obtain ⟨rfl, hrax⟩ := hleads.exit hexit
  -- the frame is taken down, with the caller's frame pointer where it was saved
  have hsavedAt : (q.entered s).mem.read (s.regs .rsp - 8) 8 = (s.regs .rbp).toNat :=
    Procedure.read_entered (j := 0) hframe.2 hfew rfl
  obtain ⟨s₂, hrun, hrsp, hrbp, hrax₂, hmem⟩ := Procedure.run_epilogue hstack.rbp
    ((read_saved hframe.1 hkeeps).trans hsavedAt)
  have hend := reaches_of_run hat.left.right hrun
  refine ⟨_, s₂, (hstart.trans hreaches).trans hend, ?_, hrsp, hrbp, ?_, ?_⟩
  · have hret := hat.right.head
    rwa [List.length_append, ← Nat.add_assoc] at hret
  · intro v hv
    rw [hrax₂, hrax v hv]
  · intro a ha
    rw [hmem]
    exact hstack.mem a fun hscratch => ha hscratch.1

end

end Program

end ProcLang
