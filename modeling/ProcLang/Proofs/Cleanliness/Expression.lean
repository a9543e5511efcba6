import ProcLang.Proofs.Cleanliness.Code
import ProcLang.Proofs.Codegen.Sites

/-! The code of an expression of a narrow type leaves a word that fits the type. -/
namespace ProcLang

open Assembly Machine Codegen

/-- Words that stand for values of a type: a character takes one byte, and a truth value lies below
a bound. -/
def Ty.Clean (bound : Nat) : Ty → Word → Prop
  | .char, v => v.toNat < 256
  | .bool, v => v.toNat < bound
  | _, _ => True

namespace Operator

variable {op : Operator} {vs : List Word} {v : Word} {bits : Nat}

theorem truth_lt (b : Bool) : (truth b).toNat < 2 := by
  cases b <;> decide

/-- Comparisons denote truth values. -/
theorem denote_comparison
    (hop : op ∈ [.equality, .notEquality, .lessThan, .lessThanEquals, .greaterThan,
      .greaterThanEquals]) (h : op.denote vs = some v) : v.toNat < 2 := by
  revert h hop
  fun_cases Operator.denote op vs <;> intro hop h <;> cases h <;>
    first | exact truth_lt _ | simp at hop

/-- Logical operators keep to the bits of their operands. -/
theorem denote_logical (hop : op.IsLogical) (hbits : 1 ≤ bits) (h : op.denote vs = some v)
    (hvs : ∀ u ∈ vs, u.toNat < 2 ^ bits) : v.toNat < 2 ^ bits := by
  unfold IsLogical at hop
  revert h hop
  fun_cases Operator.denote op vs <;> intro hop h <;> cases h <;> try simp at hop
  -- conjunction, disjunction and negation are left
  · next a b =>
    rw [BitVec.toNat_and]
    exact Nat.and_lt_two_pow _ (hvs b (by simp))
  · next a b =>
    rw [BitVec.toNat_or]
    exact Nat.or_lt_two_pow (hvs a (by simp)) (hvs b (by simp))
  · next a =>
    have hone : (1 : Word).toNat < 2 ^ bits := Nat.one_lt_two_pow (by omega)
    rw [BitVec.toNat_xor]
    exact Nat.xor_lt_two_pow (hvs a (by simp)) hone

/-- An operator on values keeps the words of each type clean. -/
theorem clean_denote {signatures : List Signature} {τs : List Ty} {τ : Ty}
    (hrule : op.Rule signatures τs τ) (hbits : 1 ≤ bits) (h : op.denote vs = some v)
    (hvs : List.Forall₂ (Ty.Clean (2 ^ bits)) τs vs) : τ.Clean (2 ^ bits) v := by
  have htwo : 2 ≤ 2 ^ bits := by
    calc 2 = 2 ^ 1 := rfl
      _ ≤ 2 ^ bits := Nat.pow_le_pow_right (by omega) hbits
  cases hrule with
  | relational hfamily hints =>
    have hlt : v.toNat < 2 := by
      refine denote_comparison ?_ h
      unfold IsRelational at hfamily
      exact List.mem_cons_of_mem _ (List.mem_cons_of_mem _ hfamily)
    exact Nat.lt_of_lt_of_le hlt htwo
  | logical hfamily htruths =>
    refine denote_logical hfamily hbits h ?_
    intro u hu
    obtain ⟨τ', hτ', hclean⟩ := exists_of_forall₂ hvs.flip hu
    rw [htruths τ' hτ'] at hclean
    exact hclean
  | equality => exact Nat.lt_of_lt_of_le (denote_comparison (by simp) h) htwo
  | notEquality => exact Nat.lt_of_lt_of_le (denote_comparison (by simp) h) htwo
  | dereference _ | assignment _ | call _ _ => simp [denote] at h
  | _ => trivial

/-- What is clean for the value of an assignment is so for the assignment. -/
theorem clean_assigned {signatures : List Signature} {τ₁ τ₂ τ : Ty} {bound : Nat}
    (hrule : Rule signatures .assignment [τ₁, τ₂] τ) (h : τ₂.Clean bound v) : τ.Clean bound v := by
  cases hrule with
  | assignment => exact h
  | relational hfamily => simp [IsRelational] at hfamily
  | logical hfamily => simp [IsLogical] at hfamily
  | _ => trivial

end Operator

namespace Codegen

variable {g : Codegen.Context} {t t' : Task} {before : Code} {pc : Nat}
  {P : Nat → Expression → Prop}

/-- A property of all values in a task, each with the line where its code starts. -/
def Throughout (g : Codegen.Context) (t : Task) (pc : Nat) (P : Nat → Expression → Prop) : Prop :=
  ∀ before e, Emitted g t before (.value e) → P (pc + before.length) e

theorem Throughout.part (h : Throughout g t pc P) (hpart : Part g t before t') :
    Throughout g t' (pc + before.length) P := by
  intro more e hmore
  have hwhole := h _ e ((Emitted.part .whole hpart).trans hmore)
  rwa [List.nil_append, List.length_append, ← Nat.add_assoc] at hwhole

theorem Throughout.self {e : Expression} (h : Throughout g (.value e) pc P) : P pc e :=
  h [] e .whole

theorem Throughout.var {u : Variable} (h : P pc (.var u)) :
    Throughout g (.value (.var u)) pc P := by
  intro before e hemitted
  rcases hemitted.cases_head with ⟨rfl, heq⟩ | ⟨first, rest, t', hpart, -⟩
  · cases heq
    exact h
  · cases hpart

theorem Throughout.operation {loc : Nat} {token : Token} {es : List Expression} {op : Operator}
    {type : Option TypeAt} (href : op ≠ .reference) (hassign : op ≠ .assignment)
    (h : P pc (.operation loc token es (some op) type))
    (hes : ∀ earlier e later before, es = earlier ++ e :: later →
      operandsCode g later = .ok before → Throughout g (.value e) (pc + before.length) P) :
    Throughout g (.value (.operation loc token es (some op) type)) pc P := by
  intro before e hemitted
  rcases hemitted.cases_head with ⟨rfl, heq⟩ | ⟨first, rest, t', hpart, hrest, rfl⟩
  · cases heq
    exact h
  · cases hpart with
    | operand _ _ hlater =>
      have hinner := hes _ _ _ _ rfl hlater rest e hrest
      rwa [List.length_append, ← Nat.add_assoc]
    | referent => exact absurd rfl href
    | assigned | target _ => exact absurd rfl hassign

/-- An assignment through a pointer, with its code at line `pc`, writes nothing to the stack. -/
def SparesStack (g : Codegen.Context) (σ : Nat → State) (pc : Nat) (e : Expression) : Prop :=
  ∀ loc token target value type, e = .operation loc token [target, value] (some .assignment) type →
    (∀ u, target ≠ .var u) → ∀ first w,
      expressionCode g e = .ok (first ++ instructions [.store w, .push .rax]) → ∀ i < w.bytes,
        ¬(σ (pc + first.length)).OnStack
          ((σ (pc + first.length)).regs .rcx + BitVec.ofNat 64 i)

/-- A truth value that is loaded by an expression, with its code at line `pc`, lies below a
bound. -/
def LoadsBelow (bound : Nat) (c : Typing.Context) (g : Codegen.Context) (labels : Label → Word)
    (σ : Nat → State) (pc : Nat) (e : Expression) : Prop :=
  c.HasType e .bool → ∀ first a,
    expressionCode g e = .ok (first ++ instructions [.load .byte a, .push .rax]) →
      ((σ (pc + first.length)).mem (address labels (σ (pc + first.length)) a)).toNat < bound

end Codegen

namespace Area

variable {f : Area} {labels : Label → Word} {returns : Label → State → State → Prop}
  {σ : Nat → State} {env : Semantics.Env} {g : Codegen.Context} {c : Typing.Context} {bits : Nat}

/-- What is known of callees and of storage while expressions run. -/
structure Hosts (f : Area) (labels : Label → Word) (returns : Label → State → State → Prop)
    (env : Semantics.Env) (g : Codegen.Context) (c : Typing.Context) (bound : Nat) : Prop where
  framed : f.Framed
  realizes : f.Realizes labels env g c
  restores : ∀ l s s', returns l s s' → Restores s s'
  below : ∀ q ∈ g.procedures, q.returns.ty = .bool → ∀ s s', returns (.procedure q.name) s s' →
    (s'.regs .rax).toNat % 256 < bound
  callee : ∀ (index : Nat) q signature, g.procedures[index]? = some q →
    c.signatures[index]? = some signature → signature.returns = q.returns

/-- What is known of a run where the code of an expression starts. -/
structure Site (c : Typing.Context) (g : Codegen.Context) (labels : Label → Word)
    (σ : Nat → State) (bound pc : Nat) (e : Expression) : Prop where
  spares : SparesStack g σ pc e
  loads : LoadsBelow bound c g labels σ pc e

/-- Runs through the code of a task, with room for `depth` words and a call, leave one word. -/
def Settles (f : Area) (labels : Label → Word) (returns : Label → State → State → Prop)
    (σ : Nat → State) (g : Codegen.Context) (c : Typing.Context) (bound : Nat) (t : Task)
    (depth : Nat) (P : Word → Prop) : Prop :=
  ∀ code pc k, t.code g = .ok code → Trace labels returns σ pc code →
    Throughout g t pc (Site c g labels σ bound) → f.Stack k [] (σ pc).mem (σ pc) →
    k + depth + 4 ≤ f.room → ∃ v, f.Yields σ pc code k [v] ∧ P v

/-- A byte that is loaded is clean. -/
theorem clean_load {τ : Ty} {w : Width} {place : Address} {pc bound : Nat}
    (hw : τ.width? = some w) (ht : Trace labels returns σ pc (loadCode w place))
    (hbelow : τ = .bool →
      ((σ (pc + 1)).mem (address labels (σ (pc + 1)) place)).toNat < bound) :
    τ.Clean bound (BitVec.ofNat 64 ((σ pc).mem.read (address labels (σ pc) place) w.bytes)) := by
  have hbyte : ∀ a : Word,
      (BitVec.ofNat 64 ((σ pc).mem.read a 1)).toNat = ((σ pc).mem a).toNat := by
    intro a
    have hlt := ((σ pc).mem a).isLt
    rw [BitVec.toNat_ofNat, Memory.read, Memory.read]
    omega
  cases τ with
  | void | int | pointer _ => trivial
  | char =>
    cases hw
    show (BitVec.ofNat 64 ((σ pc).mem.read _ 1)).toNat < 256
    rw [hbyte]
    exact ((σ pc).mem _).isLt
  | bool =>
    cases hw
    have hclear : Trace labels returns σ pc (instructions [.clear]) :=
      ht.of_prefix ⟨instructions [.load .byte place, .push .rax], rfl⟩
    have hstate : σ (pc + 1) = ((σ pc).set .rax 0).forget := hclear.eq_of_run rfl
    have haddress : address labels (σ (pc + 1)) place = address labels (σ pc) place := by
      rw [hstate]
      exact address_congr (by simp) (by simp) place
    have hmem : (σ (pc + 1)).mem = (σ pc).mem := by
      rw [hstate]
      rfl
    have hlt := hbelow rfl
    rw [haddress, hmem, ← hbyte] at hlt
    exact hlt

theorem settles_literal {l : Literal} {τ : Ty} (hbits : 1 ≤ bits) (h : c.HasType (.literal l) τ) :
    f.Settles labels returns σ g c (2 ^ bits) (.value (.literal l)) 1 (τ.Clean (2 ^ bits)) := by
  intro code pc k hcode ht hsites hs hroom
  change expressionCode g (.literal l) = .ok code at hcode
  rw [expressionCode] at hcode
  have hroom' : k < f.room := by omega
  -- all but characters are the same in every memory
  have hknown : ∀ {v m}, Semantics.Eval ⟨fun _ => 0, labels, fun _ => True, fun _ _ => True⟩
      (.literal l) (σ pc).mem v m → (∀ value, l.value ≠ .character value) →
        f.Yields σ pc code k [v] := by
    intro v m heval hvalue
    exact .of_leaves ht (leaves_literal rfl heval hcode (fun value h => absurd h (hvalue value)) hs
      hroom')
  cases h with
  | integer value loc => exact ⟨_, hknown (.integer value loc _) (by simp), trivial⟩
  | text bytes loc => exact ⟨_, hknown (.text bytes loc _) (by simp), trivial⟩
  | boolean value loc =>
    have htwo : 2 ^ 1 ≤ 2 ^ bits := Nat.pow_le_pow_right (by omega) hbits
    exact ⟨_, hknown (.boolean value loc _) (by simp),
      Nat.lt_of_lt_of_le (Operator.truth_lt value) htwo⟩
  | character value loc =>
    cases hcode
    exact ⟨_, yields_load ht hs hroom', clean_load rfl ht (by simp)⟩

/-- The type on record is the one that an expression has. -/
theorem type_of_recorded {e : Expression} {τ : Ty} {t : TypeAt} (hrec : c.Recorded e)
    (h : c.HasType e τ) (ht : e.type = .ok t) : t.ty = τ := by
  obtain ⟨t', ht', -, hunique⟩ := hrec
  cases ht'.symm.trans (type?_of_type ht)
  exact ((hunique τ).mp h).symm

theorem width_of_widthOf {τ : Ty} {w : Width} (h : widthOf τ = .ok w) : τ.width? = some w := by
  unfold widthOf at h
  split at h
  · next hw =>
    cases h
    exact hw
  · cases h

theorem width_of_type {e : Expression} {t : TypeAt} {w : Width} (ht : e.type = .ok t)
    (hw : widthOf t.ty = .ok w) : e.width? = some w := by
  rw [Expression.width?, type?_of_type ht]
  exact width_of_widthOf hw

theorem settles_var {u : Variable} {τ : Ty} {bound : Nat} (h : c.HasType (.var u) τ)
    (hrec : c.Recorded (.var u)) :
    f.Settles labels returns σ g c bound (.value (.var u)) 1 (τ.Clean bound) := by
  intro code pc k hcode ht hsites hs hroom
  have hloads := hsites.self.loads
  change expressionCode g (.var u) = .ok code at hcode
  rw [LoadsBelow, hcode] at hloads
  rw [expressionCode] at hcode
  obtain ⟨place, -, hcode⟩ := Outcome.bind_eq_ok.mp hcode
  obtain ⟨t, htype, hcode⟩ := Outcome.bind_eq_ok.mp hcode
  obtain ⟨w, hw, hcode⟩ := Outcome.bind_eq_ok.mp hcode
  cases hcode
  have hwidth : τ.width? = some w := type_of_recorded hrec h htype ▸ width_of_widthOf hw
  refine ⟨_, yields_load ht hs (by omega), clean_load hwidth ht ?_⟩
  rintro rfl
  cases hwidth
  exact hloads h (instructions [.clear]) place rfl

/-- A variable lies outside of the stack. -/
theorem settles_var_address (hf : f.Realizes labels env g c) {u : Variable} {bound : Nat}
    (hrec : c.Recorded (.var u)) :
    f.Settles labels returns σ g c bound (.address (.var u)) 1 fun a =>
      ∀ w, (Expression.var u).width? = some w → ∀ i < w.bytes,
        ¬f.Scratch (a + BitVec.ofNat 64 i) := by
  intro code pc k hcode ht hsites hs hroom
  change addressCode g (.var u) = .ok code at hcode
  rw [addressCode] at hcode
  obtain ⟨place, hplace, hcode⟩ := Outcome.bind_eq_ok.mp hcode
  cases hcode
  refine ⟨_, .of_leaves ht (leaves_loadAddress hs (by omega) rfl), ?_⟩
  intro w hw
  obtain ⟨storage, hbinding⟩ := hrec.exists_binding
  rw [hf.address hbinding hplace (σ pc) hs.rbp]
  exact hf.bytes ⟨hrec, by simp⟩ hbinding hw

/-- Operands leave a clean word each. -/
theorem yields_operands {bound : Nat} {es : List Expression} {τs : List Ty}
    (hτs : List.Forall₂ c.HasType es τs)
    (h : ∀ e ∈ es, ∀ τ, c.HasType e τ →
      f.Settles labels returns σ g c bound (.value e) e.depth (τ.Clean bound))
    {code : Code} {pc k : Nat} (hcode : operandsCode g es = .ok code)
    (ht : Trace labels returns σ pc code)
    (hsites : ∀ earlier e later before, es = earlier ++ e :: later →
      operandsCode g later = .ok before →
        Throughout g (.value e) (pc + before.length) (Site c g labels σ bound))
    (hs : f.Stack k [] (σ pc).mem (σ pc)) (hroom : k + Expression.operandsDepth es + 4 ≤ f.room) :
    ∃ vs, f.Yields σ pc code k vs ∧ List.Forall₂ (Ty.Clean bound) τs vs := by
  induction hτs generalizing code with
  | nil =>
    cases hcode
    exact ⟨[], ⟨hs, .of_eq rfl k⟩, .nil⟩
  | @cons e τ es τs hτ hτs ih =>
    rw [operandsCode] at hcode
    obtain ⟨rest, hrest, hcode⟩ := Outcome.bind_eq_ok.mp hcode
    obtain ⟨first, hfirst, hcode⟩ := Outcome.bind_eq_ok.mp hcode
    cases hcode
    rw [Expression.operandsDepth] at hroom
    obtain ⟨vs, hvs, hclean⟩ := ih (fun e he => h e (List.mem_cons_of_mem _ he)) hrest ht.left
      (fun earlier e' later before heq => hsites (e :: earlier) e' later before (by simp [heq]))
      (by omega)
    have hlength : vs.length = es.length := hclean.length_eq.symm.trans hτs.length_eq.symm
    obtain ⟨v, hv, hcleanv⟩ := h e List.mem_cons_self τ hτ _ _ _ hfirst ht.right
      (hsites [] e es rest rfl hrest) hvs.1.lift (by omega)
    exact ⟨v :: vs, hvs.append (.above hvs.1 hv), .cons hcleanv hclean⟩

/-- A call leaves a clean word, whatever its callee leaves in the rest of the register. -/
theorem clean_result {q : Procedure} {bound : Nat} {s : State}
    (hbelow : q.returns.ty = .bool → (s.regs .rax).toNat % 256 < bound) :
    q.returns.ty.Clean bound (q.resultWord s) := by
  unfold Procedure.resultWord
  generalize q.returns.ty = τ at hbelow
  have hbyte : (BitVec.ofNat 64 ((s.regs .rax).toNat % 256)).toNat = (s.regs .rax).toNat % 256 := by
    rw [BitVec.toNat_ofNat]
    omega
  cases τ with
  | void | int | pointer _ => trivial
  | char =>
    show (BitVec.ofNat 64 ((s.regs .rax).toNat % 256)).toNat < 256
    omega
  | bool =>
    show (BitVec.ofNat 64 ((s.regs .rax).toNat % 256)).toNat < bound
    rw [hbyte]
    exact hbelow rfl

/-- What follows the operands leaves a clean word in their place. -/
theorem yields_closes (hf : f.Hosts labels returns env g c (2 ^ bits)) (hbits : 1 ≤ bits)
    {op : Operator} {vs : List Word} {τs : List Ty} {τ : Ty} {type : Option TypeAt} {tail : Code}
    {pc k : Nat} (htail : Closes g vs.length type op tail) (hcounts : op.Counts vs.length)
    (hrule : op.Rule c.signatures τs τ) (hclean : List.Forall₂ (Ty.Clean (2 ^ bits)) τs vs)
    (htype : ∀ t, type = some t → t.ty = τ) (ht : Trace labels returns σ pc tail)
    (hloads : τ = .bool → ∀ first a, tail = first ++ instructions [.load .byte a, .push .rax] →
      ((σ (pc + first.length)).mem (address labels (σ (pc + first.length)) a)).toNat < 2 ^ bits)
    (hs : f.Stack k vs (σ pc).mem (σ pc)) (hroom : k + 4 ≤ f.room) :
    ∃ v, f.Yields σ pc tail k [v] ∧ τ.Clean (2 ^ bits) v := by
  cases htail with
  | @load t w htyped hwidth =>
    have hone : vs.length = 1 := hcounts
    obtain ⟨a, rfl⟩ := List.length_eq_one_iff.mp hone
    have hw : τ.width? = some w := htype t htyped ▸ width_of_widthOf hwidth
    have hpopped := hs.pop (r := .rcx) (by decide) (by decide)
    have hpop : f.Yields σ pc (instructions [.pop .rcx]) k [] :=
      .of_leaves ht.left ⟨(σ pc).pop .rcx, rfl, hpopped, .of_eq rfl k⟩
    refine ⟨_, hpop.append (yields_load ht.right hpop.1 (by omega)), clean_load hw ht.right ?_⟩
    rintro rfl
    cases hw
    exact hloads rfl (instructions [.pop .rcx, .clear]) .pointer rfl
  | @call callee q hcallee hfew =>
    obtain ⟨signature, hsignature, -, rfl⟩ := Operator.rule_call_iff.mp hrule
    obtain ⟨index, rfl, hindex⟩ := Option.bind_eq_some_iff.mp hsignature
    have hq : g.procedures[index]? = some q := hcallee
    obtain ⟨s, s', hreturns, hyields⟩ := yields_call hf.framed hf.restores ht hfew hs hroom
    refine ⟨_, hyields, ?_⟩
    rw [hf.callee index q signature hq hindex]
    exact clean_result fun hbool => hf.below q (List.mem_of_getElem? hq) hbool s s' hreturns
  | plain hplain =>
    obtain ⟨v, hv, hyields⟩ := yields_plain hplain hcounts ht hs
    exact ⟨v, hyields, Operator.clean_denote hrule hbits hv hclean⟩

/-- The word that is assigned is also what an assignment leaves. -/
theorem settles_assignment (hf : f.Hosts labels returns env g c (2 ^ bits)) {loc : Nat}
    {token : Token} {target value : Expression} {type : Option TypeAt} {τ₁ τ₂ τ : Ty}
    (hrule : Operator.Rule c.signatures .assignment [τ₁, τ₂] τ)
    (hvalue : f.Settles labels returns σ g c (2 ^ bits) (.value value) value.depth
      (τ₂.Clean (2 ^ bits)))
    (htarget : f.Settles labels returns σ g c (2 ^ bits) (.address target) target.depth fun a =>
      ∀ u, target = .var u → ∀ w, target.width? = some w → ∀ i < w.bytes,
        ¬f.Scratch (a + BitVec.ofNat 64 i)) :
    f.Settles labels returns σ g c (2 ^ bits)
      (.value (.operation loc token [target, value] (some .assignment) type))
      (Expression.operation loc token [target, value] (some .assignment) type).depth
      (τ.Clean (2 ^ bits)) := by
  intro code pc k hcode ht hsites hs hroom
  have hspares := hsites.self.spares loc token target value type rfl
  change expressionCode g (.operation loc token [target, value] (some .assignment) type) =
    .ok code at hcode
  rw [hcode] at hspares
  obtain ⟨target', value', heq, targetCode, valueCode, w, htargetCode, hvalueCode, ⟨t, htype, hw⟩,
    rfl⟩ := expressionCode_assignment hcode
  cases heq
  simp only [Expression.depth, Expression.operandsDepth, List.length] at hroom
  obtain ⟨v, hv, hclean⟩ := hvalue _ _ _ hvalueCode ht.left.left
    (hsites.part (.assigned loc token target value type)) hs (by omega)
  obtain ⟨a, ha, hout⟩ := htarget _ _ _ htargetCode ht.left.right
    (hsites.part (.target hvalueCode)) hv.1.lift (by simp only [List.length]; omega)
  have hboth := hv.append (.above hv.1 ha)
  refine ⟨v, hboth.append (yields_store hf.framed ht.right hboth.1 fun i hi => ?_),
    Operator.clean_assigned hrule hclean⟩
  by_cases hvar : ∃ u, target = .var u
  · left
    obtain ⟨u, rfl⟩ := hvar
    exact hout u rfl w (width_of_type htype hw) i hi
  · right
    have hcut := hspares (not_exists.mp hvar)
      (valueCode ++ targetCode ++ instructions [.pop .rcx, .pop .rax]) w
      (by simp [instructions]) i hi
    rwa [List.length_append, ← Nat.add_assoc] at hcut

/-- All other operations leave a clean word if their operands do. -/
theorem settles_operation (hf : f.Hosts labels returns env g c (2 ^ bits)) (hbits : 1 ≤ bits)
    {loc : Nat} {token : Token} {es : List Expression} {op : Operator} {type : Option TypeAt}
    {τs : List Ty} {τ : Ty} (href : op ≠ .reference) (hassign : op ≠ .assignment)
    (h : c.HasType (.operation loc token es (some op) type) τ)
    (hrec : c.Recorded (.operation loc token es (some op) type)) (hcounts : op.Counts es.length)
    (hτs : List.Forall₂ c.HasType es τs) (hrule : op.Rule c.signatures τs τ)
    (hes : ∀ e ∈ es, ∀ τ, c.HasType e τ →
      f.Settles labels returns σ g c (2 ^ bits) (.value e) e.depth (τ.Clean (2 ^ bits))) :
    f.Settles labels returns σ g c (2 ^ bits) (.value (.operation loc token es (some op) type))
      (Expression.operation loc token es (some op) type).depth (τ.Clean (2 ^ bits)) := by
  intro code pc k hcode ht hsites hs hroom
  have hloads := hsites.self.loads
  change expressionCode g (.operation loc token es (some op) type) = .ok code at hcode
  rw [LoadsBelow, hcode] at hloads
  obtain ⟨operands, tail, hoperands, htail, rfl⟩ := expressionCode_operands hcode href hassign
  rw [Expression.depth] at hroom
  have hbefore : ∀ earlier e later before, es = earlier ++ e :: later →
      operandsCode g later = .ok before →
        Throughout g (.value e) (pc + before.length) (Site c g labels σ (2 ^ bits)) := by
    rintro earlier e later before rfl hlater
    exact hsites.part (.operand href hassign hlater)
  obtain ⟨vs, hvs, hclean⟩ := yields_operands hτs hes hoperands ht.left hbefore hs (by omega)
  have hlength : es.length = vs.length := hτs.length_eq.trans hclean.length_eq
  rw [hlength] at htail hcounts
  have htype : ∀ t, type = some t → t.ty = τ := by
    rintro t rfl
    exact type_of_recorded hrec h rfl
  have htailLoads : τ = .bool → ∀ first a,
      tail = first ++ instructions [.load .byte a, .push .rax] →
      ((σ (pc + operands.length + first.length)).mem
        (address labels (σ (pc + operands.length + first.length)) a)).toNat < 2 ^ bits := by
    rintro rfl first a rfl
    have hlt := hloads h (operands ++ first) a (by rw [List.append_assoc])
    rwa [List.length_append, ← Nat.add_assoc] at hlt
  obtain ⟨v, hv, hτ⟩ := yields_closes hf hbits htail hcounts hrule hclean htype ht.right htailLoads
    hvs.1 (by omega)
  exact ⟨v, hvs.append hv, hτ⟩

/-- The code of an expression leaves a clean word, and that of an address one that, for a variable,
lies outside of the stack. -/
theorem settles_expression (hf : f.Hosts labels returns env g c (2 ^ bits)) (hbits : 1 ≤ bits)
    {e : Expression} {τ : Ty} (h : c.HasType e τ)
    (hparts : ∀ e' ∈ e.parts, c.Recorded e' ∧ e'.Counted) :
    f.Settles labels returns σ g c (2 ^ bits) (.value e) e.depth (τ.Clean (2 ^ bits)) ∧
      f.Settles labels returns σ g c (2 ^ bits) (.address e) e.depth fun a =>
        ∀ u, e = .var u → ∀ w, e.width? = some w → ∀ i < w.bytes,
          ¬f.Scratch (a + BitVec.ofNat 64 i) := by
  -- values and addresses go together: one is the other's under `reference` and `dereference`
  induction e generalizing τ with
  | literal l =>
    constructor
    · rw [Expression.depth]
      exact settles_literal hbits h
    · intro code pc k hcode
      cases hcode
  | var u =>
    have hrec := (hparts (.var u) (by simp)).1
    rw [Expression.depth]
    refine ⟨settles_var h hrec, ?_⟩
    intro code pc k hcode ht hsites hs hroom
    obtain ⟨a, ha, hout⟩ := settles_var_address hf.realizes hrec code pc k hcode ht hsites hs hroom
    exact ⟨a, ha, fun _ _ => hout⟩
  | operation loc token es op type ih =>
    have hself := hparts _ (Expression.self_mem_parts _)
    have hinside : ∀ e ∈ es, ∀ e' ∈ e.parts, c.Recorded e' ∧ e'.Counted := fun e he e' he' =>
      hparts e' (Expression.mem_parts_operation.mpr (.inr ⟨e, he, he'⟩))
    cases h with
    | @operation _ _ _ op _ τs _ hplaces hτs hrule =>
      have hes : ∀ e ∈ es, ∀ τ, c.HasType e τ →
          f.Settles labels returns σ g c (2 ^ bits) (.value e) e.depth (τ.Clean (2 ^ bits)) :=
        fun e he τ hτ => (ih e he hτ (hinside e he)).1
      have haddress : ∀ e ∈ es, f.Settles labels returns σ g c (2 ^ bits) (.address e) e.depth
          fun a => ∀ u, e = .var u → ∀ w, e.width? = some w → ∀ i < w.bytes,
            ¬f.Scratch (a + BitVec.ofNat 64 i) := by
        intro e he
        obtain ⟨τ', -, hτ'⟩ := exists_of_forall₂ hτs he
        exact (ih e he hτ' (hinside e he)).2
      constructor
      · by_cases href : op = .reference
        · subst href
          intro code pc k hcode ht hsites hs hroom
          obtain ⟨e, rfl, he⟩ := expressionCode_reference hcode
          obtain ⟨τ', rfl, rfl⟩ := Operator.rule_reference_iff.mp hrule
          simp only [Expression.depth, Expression.operandsDepth, List.length] at hroom
          obtain ⟨v, hv, -⟩ := haddress e (by simp) _ _ _ he ht
            (hsites.part (.referent loc token e type)) hs (by omega)
          exact ⟨v, hv, trivial⟩
        by_cases hassign : op = .assignment
        · subst hassign
          intro code pc k hcode
          obtain ⟨target, value, rfl, -⟩ := expressionCode_assignment hcode
          cases hτs with
          | cons htarget hrest =>
            cases hrest with
            | cons hvalue hnil =>
              cases hnil
              exact settles_assignment hf hrule (hes value (by simp) _ hvalue)
                (haddress target (by simp)) code pc k hcode
        exact settles_operation hf hbits href hassign (.operation hplaces hτs hrule) hself.1 hself.2
          hτs hrule hes
      · intro code pc k hcode ht hsites hs hroom
        obtain ⟨hop, e, rfl, he⟩ := addressCode_operation hcode
        cases hop
        obtain ⟨τ', -, hτ'⟩ := exists_of_forall₂ hτs (by simp : e ∈ [e])
        simp only [Expression.depth, Expression.operandsDepth, List.length] at hroom
        obtain ⟨v, hv, -⟩ := hes e (by simp) τ' hτ' _ _ _ he ht
          (hsites.part (.pointer loc token e type)) hs (by omega)
        exact ⟨v, hv, by simp⟩

end Area

end ProcLang
