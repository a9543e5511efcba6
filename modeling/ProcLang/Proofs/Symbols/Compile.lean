import ProcLang.Proofs.Correctness.Compile
import ProcLang.Proofs.Symbols.Label

/-! The symbols of a compiled source are distinct. -/
namespace ProcLang

open Assembly Codegen

namespace Assembly

/-- The symbols of texts that follow a label of some scope. -/
def symbolsIn (scope : List Char) : List (List Char) → List (List Char)
  | [] => []
  | ('.' :: cs) :: rest => (scope ++ '.' :: cs) :: symbolsIn scope rest
  | ('$' :: cs) :: rest => cs :: symbolsIn cs rest
  | cs :: rest => cs :: symbolsIn cs rest

/-- The labels that an assembly defines, from top to bottom. -/
def labels (a : Assembly) : List Label :=
  a.procedures.flatMap labelsOf ++ a.data.map Datum.label

/-- The symbols that an assembly defines. -/
def symbols (a : Assembly) : List (List Char) :=
  symbolsIn [] (a.labels.map fun l => l.text.toList)

/-- The symbols that an assembly takes from elsewhere. -/
def externalSymbols (a : Assembly) : List (List Char) :=
  symbolsIn [] (a.externals.map fun name => (Label.procedure name).text.toList)

section

variable (scope : List Char) (rest : List (List Char))

theorem symbolsIn_procedure (name : String) :
    symbolsIn scope ((Label.procedure name).text.toList :: rest) =
      name.toList :: symbolsIn name.toList rest := by
  rw [Label.toList_text_procedure, symbolsIn]

theorem symbolsIn_locals {ls : List Label} (h : ∀ l ∈ ls, l.isLocal) :
    symbolsIn scope (ls.map (fun l => l.text.toList) ++ rest) =
      ls.map (fun l => scope ++ l.text.toList) ++ symbolsIn scope rest := by
  induction ls with
  | nil => rfl
  | cons l ls ih =>
    obtain ⟨cs, hcs⟩ := Label.exists_text_local (h l (by simp))
    have htail := ih fun l' hl' => h l' (by simp [hl'])
    rw [List.map_cons, List.map_cons, List.cons_append, List.cons_append, hcs, symbolsIn, htail]

/-- Texts with neither a dot nor a dollar sign at the front are symbols in any scope. -/
theorem symbolsIn_plain {texts : List (List Char)}
    (h : ∀ cs ∈ texts, ∃ c cs', cs = c :: cs' ∧ Token.isNamePart c = true) :
    symbolsIn scope texts = texts := by
  induction texts generalizing scope with
  | nil => rfl
  | cons text texts ih =>
    obtain ⟨c, cs, rfl, hc⟩ := h text (by simp)
    have hdot : c ≠ '.' := fun heq => by simp [heq, Token.isNamePart] at hc
    have hdollar : c ≠ '$' := fun heq => by simp [heq, Token.isNamePart] at hc
    rw [symbolsIn, ih _ fun cs' hcs' => h cs' (by simp [hcs'])]
    · simpa using hdot
    · simpa using hdollar

end

/-- The labels of one procedure: its own, and those inside. -/
structure Block where
  name : String
  locals : List Label
  isName : IsName name
  nodup : locals.Nodup
  isLocal : ∀ l ∈ locals, l.isLocal

namespace Block

def labels (b : Block) : List Label :=
  .procedure b.name :: b.locals

def symbols (b : Block) : List (List Char) :=
  b.name.toList :: b.locals.map fun l => b.name.toList ++ l.text.toList

/-- The name of a procedure stands before the first dot of its symbols. -/
theorem takeWhile_of_mem {b : Block} {cs : List Char} (h : cs ∈ b.symbols) :
    cs.takeWhile (· != '.') = b.name.toList := by
  rcases List.mem_cons.mp h with rfl | h
  · simpa using b.isName.takeWhile_append []
  · obtain ⟨l, hl, rfl⟩ := List.mem_map.mp h
    obtain ⟨cs, hcs⟩ := Label.exists_text_local (b.isLocal l hl)
    rw [b.isName.takeWhile_append, hcs, List.takeWhile_cons_of_neg (by simp), List.append_nil]

theorem symbols_nodup (b : Block) : b.symbols.Nodup := by
  refine List.nodup_cons.mpr ⟨fun hmem => ?_, ?_⟩
  · obtain ⟨l, hl, heq⟩ := List.mem_map.mp hmem
    obtain ⟨cs, hcs⟩ := Label.exists_text_local (b.isLocal l hl)
    simp [hcs] at heq
  · refine b.nodup.map_on fun l hl l' hl' heq => ?_
    exact Label.text_inj_local (b.isLocal l hl) (b.isLocal l' hl') (List.append_cancel_left heq)

theorem symbolsIn_blocks (bs : List Block) {rest : List (List Char)}
    (hrest : ∀ scope, symbolsIn scope rest = rest) (scope : List Char) :
    symbolsIn scope ((bs.flatMap labels).map (fun l => l.text.toList) ++ rest) =
      bs.flatMap symbols ++ rest := by
  induction bs generalizing scope with
  | nil => exact hrest scope
  | cons b bs ih =>
    rw [List.flatMap_cons, List.map_append, List.append_assoc, labels, List.map_cons,
      List.cons_append, symbolsIn_procedure, symbolsIn_locals _ _ b.isLocal, ih,
      List.flatMap_cons, List.append_assoc]
    rfl

theorem flatMap_symbols_nodup {bs : List Block} (h : (bs.map Block.name).Nodup) :
    (bs.flatMap symbols).Nodup := by
  refine List.nodup_flatMap.mpr ⟨fun b _ => b.symbols_nodup, ?_⟩
  refine (List.pairwise_map.mp h).imp fun hne cs hcs hcs' => ?_
  have heq := (takeWhile_of_mem hcs).symm.trans (takeWhile_of_mem hcs')
  exact hne (String.toList_inj.mp heq)

end Block

/-- A label of data whose first half is a name. -/
def IsDatum (l : Label) : Prop :=
  ∃ front back, l.halves? = some (front, back) ∧ IsName front

namespace IsDatum

variable {l : Label}

theorem exists_text (h : IsDatum l) :
    ∃ c cs, l.text.toList = c :: cs ∧ Token.isNamePart c = true := by
  obtain ⟨front, back, hhalves, hname⟩ := h
  obtain ⟨c, cs, hfront⟩ := List.exists_cons_of_ne_nil hname.nonempty
  have htext := Label.toList_text_of_halves? hhalves
  rw [hfront, List.cons_append] at htext
  exact ⟨c, _, htext, hname.chars c (by simp [hfront])⟩

/-- No label of data belongs to a procedure: a dollar sign stands before its first dot. -/
theorem notMem_symbols (h : IsDatum l) (b : Block) : l.text.toList ∉ b.symbols := by
  intro hmem
  obtain ⟨front, back, hhalves, hname⟩ := h
  have htake := Block.takeWhile_of_mem hmem
  rw [Label.toList_text_of_halves? hhalves, hname.takeWhile_append,
    List.takeWhile_cons_of_pos (by decide)] at htake
  exact b.isName.notMem (c := '$') rfl (htake ▸ by simp)

end IsDatum

theorem texts_nodup {ls : List Label} (h : ls.Nodup) (hdata : ∀ l ∈ ls, IsDatum l) :
    (ls.map fun l => l.text.toList).Nodup := by
  refine h.map_on fun l hl l' hl' htext => ?_
  obtain ⟨front, back, hhalves, hname⟩ := hdata l hl
  obtain ⟨front', back', hhalves', -⟩ := hdata l' hl'
  exact Label.text_inj_data hhalves hhalves' hname htext

end Assembly

theorem Expression.map_loc_literals_nodup {es : List Expression}
    (h : (es.map Expression.loc).Nodup) :
    ((es.filterMap Expression.literal?).map Literal.loc).Nodup := by
  refine h.sublist ?_
  induction es with
  | nil => exact List.Sublist.refl _
  | cons e es ih =>
    have htail := ih (List.nodup_cons.mp h).2
    cases e with
    | literal l => exact htail.cons_cons _
    | var _ | operation _ _ _ _ _ => exact htail.cons _

namespace Literal

theorem label_datum? {l : Literal} {d : Datum} (h : l.datum? = some d) :
    d.label = .character l.loc ∨ d.label = .string l.loc := by
  obtain ⟨value, loc⟩ := l
  cases value <;> cases h
  · exact .inl rfl
  · exact .inr rfl

theorem map_label_nodup {ls : List Literal} (h : (ls.map Literal.loc).Nodup) :
    ((ls.filterMap Literal.datum?).map Datum.label).Nodup := by
  refine List.pairwise_map.mpr ((List.pairwise_map.mp h).filterMap _ ?_)
  intro l l' hne d hd d' hd' heq
  rcases label_datum? hd with hlabel | hlabel <;>
    rcases label_datum? hd' with hlabel' | hlabel' <;> simp [hlabel, hlabel'] at heq
  all_goals exact hne heq

end Literal

namespace Program

variable {p : Program} {a : Assembly}

/-- The labels in the code of a program, procedure by procedure. -/
theorem exists_blocks (h : p.generate = .ok a) (hnamed : p.Named)
    (hcontrols : ∀ q ∈ p.procedures, ∀ body, q.body? = some body → body.controls.Nodup) :
    ∃ bs : List Block, a.procedures.flatMap labelsOf = bs.flatMap Block.labels ∧
      bs.map Block.name = (p.procedures.filter (!·.isExternal)).map Procedure.name := by
  have hcodes := forall₂_proceduresCode (generate_parts h).1
  have hsub : ∀ q ∈ p.procedures.filter (!·.isExternal), q ∈ p.procedures :=
    fun q => List.mem_of_mem_filter
  generalize p.procedures.filter (!·.isExternal) = qs at hcodes hsub ⊢
  generalize a.procedures = codes at hcodes ⊢
  induction hcodes with
  | nil => exact ⟨[], rfl, rfl⟩
  | @cons q code qs codes hfirst _ ih =>
    obtain ⟨body, hbody, hcode⟩ := hfirst
    have hq := hsub q (by simp)
    obtain ⟨ls, hlabels, hnodup, hlocal⟩ := exists_locals hcode (hcontrols q hq body hbody)
    obtain ⟨bs, hrest, hnames⟩ := ih fun q' hq' => hsub q' (by simp [hq'])
    let b : Block := ⟨q.name, ls, hnamed.isName_procedure q hq, hnodup, hlocal⟩
    refine ⟨b :: bs, ?_, ?_⟩
    · rw [List.flatMap_cons, List.flatMap_cons, hrest, hlabels]
      rfl
    · rw [List.map_cons, List.map_cons, hnames]

theorem map_label_globals {ds : List Declaration} {data : List Datum}
    (h : ds.mapM globalDatum = .ok data) :
    data.map Datum.label = ds.map fun d => .global d.name := by
  have hall := forall₂_globalDatum h
  clear h
  induction hall with
  | nil => rfl
  | @cons d datum ds data hfirst _ ih =>
    obtain ⟨width, -, hdatum⟩ := Outcome.bind_eq_ok.mp hfirst
    cases hdatum
    rw [List.map_cons, List.map_cons, ih]

/-- Labels of data are distinct, and each has a name for its first half. -/
theorem data_labels (h : p.generate = .ok a) (hnamed : p.Named)
    (hpositions : (p.parts.map Expression.loc).Nodup) :
    (a.data.map Datum.label).Nodup ∧ ∀ l ∈ a.data.map Datum.label, IsDatum l := by
  obtain ⟨-, -, globals, hglobals, hdata⟩ := generate_parts h
  have hliterals := Literal.map_label_nodup (Expression.map_loc_literals_nodup hpositions)
  rw [hdata, List.map_append, map_label_globals hglobals]
  refine ⟨List.nodup_append.mpr ⟨?_, hliterals, ?_⟩, fun l hl => ?_⟩
  · have hmap := hnamed.globals.map (f := Label.global) fun _ _ => Label.global.inj
    rwa [List.map_map] at hmap
  · intro l hl l' hl' heq
    obtain ⟨d, -, rfl⟩ := List.mem_map.mp hl
    obtain ⟨datum, hdatum, rfl⟩ := List.mem_map.mp hl'
    obtain ⟨literal, -, hliteral⟩ := List.mem_filterMap.mp hdatum
    rcases Literal.label_datum? hliteral with hlabel | hlabel <;> rw [hlabel] at heq <;> cases heq
  · rcases List.mem_append.mp hl with hl | hl
    · obtain ⟨d, hd, rfl⟩ := List.mem_map.mp hl
      exact ⟨d.name, _, rfl, hnamed.isName_global d hd⟩
    · obtain ⟨datum, hdatum, rfl⟩ := List.mem_map.mp hl
      obtain ⟨literal, -, hliteral⟩ := List.mem_filterMap.mp hdatum
      rcases Literal.label_datum? hliteral with hlabel | hlabel <;> rw [hlabel]
      · exact ⟨"char", _, rfl, by simp, by simp [Token.isNamePart]⟩
      · exact ⟨"string", _, rfl, by simp, by simp [Token.isNamePart]⟩

end Program

namespace Assembly

theorem mem_externalSymbols {a : Assembly} {cs : List Char} (h : cs ∈ a.externalSymbols) :
    ∃ name ∈ a.externals, cs = name.toList := by
  unfold externalSymbols at h
  generalize ([] : List Char) = scope at h
  generalize a.externals = names at h ⊢
  induction names generalizing scope with
  | nil => cases h
  | cons name names ih =>
    rw [List.map_cons, symbolsIn_procedure] at h
    rcases List.mem_cons.mp h with rfl | h
    · exact ⟨name, by simp, rfl⟩
    · obtain ⟨name', hname', heq⟩ := ih _ h
      exact ⟨name', by simp [hname'], heq⟩

end Assembly

namespace Program

variable {p : Program} {a : Assembly}

/-- The symbols of an assembly: those of its procedures, and those of its data. -/
theorem exists_symbols (h : p.generate = .ok a) (hnamed : p.Named)
    (hcontrols : ∀ q ∈ p.procedures, ∀ body, q.body? = some body → body.controls.Nodup)
    (hpositions : (p.parts.map Expression.loc).Nodup) :
    ∃ (bs : List Block) (ls : List Label),
      a.symbols = bs.flatMap Block.symbols ++ ls.map (fun l => l.text.toList) ∧
      bs.map Block.name = (p.procedures.filter (!·.isExternal)).map Procedure.name ∧
      ls.Nodup ∧ ∀ l ∈ ls, IsDatum l := by
  obtain ⟨bs, hblocks, hnames⟩ := exists_blocks h hnamed hcontrols
  obtain ⟨hnodup, hdata⟩ := data_labels h hnamed hpositions
  refine ⟨bs, a.data.map Datum.label, ?_, hnames, hnodup, hdata⟩
  rw [Assembly.symbols, Assembly.labels, hblocks, List.map_append]
  refine Block.symbolsIn_blocks bs (fun scope => symbolsIn_plain scope fun cs hcs => ?_) []
  obtain ⟨l, hl, rfl⟩ := List.mem_map.mp hcs
  exact (hdata l hl).exists_text

theorem symbols_nodup (hnamed : p.Named) {bs : List Block} {ls : List Label}
    (hnames : bs.map Block.name = (p.procedures.filter (!·.isExternal)).map Procedure.name)
    (hnodup : ls.Nodup) (hdata : ∀ l ∈ ls, IsDatum l) :
    (bs.flatMap Block.symbols ++ ls.map fun l => l.text.toList).Nodup := by
  have hinternal : (bs.map Block.name).Nodup := by
    rw [hnames]
    exact hnamed.procedures.sublist (List.filter_sublist.map _)
  refine List.nodup_append.mpr
    ⟨Block.flatMap_symbols_nodup hinternal, texts_nodup hnodup hdata, ?_⟩
  intro cs hcs cs' hcs' heq
  obtain ⟨b, -, hb⟩ := List.mem_flatMap.mp hcs
  obtain ⟨l, hl, rfl⟩ := List.mem_map.mp hcs'
  exact (hdata l hl).notMem_symbols b (heq ▸ hb)

/-- A procedure that is linked in has another name than those with a body, and no dollar sign. -/
theorem notMem_symbols_of_external (hnamed : p.Named) {bs : List Block} {ls : List Label}
    (hnames : bs.map Block.name = (p.procedures.filter (!·.isExternal)).map Procedure.name)
    (hdata : ∀ l ∈ ls, IsDatum l) {q : Procedure} (hq : q ∈ p.procedures) (hext : q.isExternal) :
    q.name.toList ∉ bs.flatMap Block.symbols ++ ls.map fun l => l.text.toList := by
  have hname := hnamed.isName_procedure q hq
  intro hmem
  rcases List.mem_append.mp hmem with hmem | hmem
  · obtain ⟨b, hb, hsymbol⟩ := List.mem_flatMap.mp hmem
    have htake := Block.takeWhile_of_mem hsymbol
    rw [← List.append_nil q.name.toList, hname.takeWhile_append, List.takeWhile_nil,
      List.append_nil] at htake
    have hb' : b.name ∈ (p.procedures.filter (!·.isExternal)).map Procedure.name :=
      hnames ▸ List.mem_map_of_mem hb
    obtain ⟨q', hq', heq⟩ := List.mem_map.mp hb'
    obtain ⟨hmem', hint⟩ := List.mem_filter.mp hq'
    have hsame : q' = q := List.inj_on_of_nodup_map hnamed.procedures hmem' hq
      (heq.trans (String.toList_inj.mp htake.symm))
    simp [hsame, hext] at hint
  · obtain ⟨l, hl, htext⟩ := List.mem_map.mp hmem
    obtain ⟨front, back, hhalves, -⟩ := hdata l hl
    rw [Label.toList_text_of_halves? hhalves] at htext
    exact hname.notMem (c := '$') rfl (htext ▸ by simp)

end Program

/-- No two labels of a compiled source are the same symbol, and none is a symbol that is linked
in. -/
theorem compile_symbols_distinct {source : String} {r : Compilation}
    (h : (compile source).result = .ok r) :
    r.assembly.symbols.Nodup ∧ ∀ cs ∈ r.assembly.externalSymbols, cs ∉ r.assembly.symbols := by
  obtain ⟨p, hcheck, hgenerate, -, -⟩ := generate_of_compile h
  have hcontrols : ∀ q ∈ p.procedures, ∀ body, q.body? = some body → body.controls.Nodup :=
    fun q hq body hbody => controls_nodup hcheck hq hbody
  obtain ⟨tokens, parsed, hstages, hwell, rfl⟩ := exists_stages hcheck
  have hnamed := hstages.named hwell
  obtain ⟨bs, ls, hsymbols, hnames, hnodup, hdata⟩ := Program.exists_symbols hgenerate hnamed
    hcontrols (hstages.checked_positions_nodup hwell)
  rw [hsymbols]
  refine ⟨Program.symbols_nodup hnamed hnames hnodup hdata, fun cs hcs => ?_⟩
  obtain ⟨name, hname, rfl⟩ := Assembly.mem_externalSymbols hcs
  rw [(Program.generate_parts hgenerate).2.1] at hname
  obtain ⟨q, hq, rfl⟩ := List.mem_map.mp hname
  obtain ⟨hmem, hext⟩ := List.mem_filter.mp hq
  exact Program.notMem_symbols_of_external hnamed hnames hdata hmem hext

namespace Sharing

/-- A global is called `char`, which labels of literals start with too. -/
def source : String :=
  "[int char]extern int f(char* s)proc int main()\x7bif(== 'a' 'b')(f \"c\")" ++
  "else(= char 1)while(< char 0)return 2 return char\x7d"

def defined : List String :=
  ["main", "main.ELSE_START_47", "main.POST_IF_ELSE_47", "main.WHILE_START_82",
    "main.POST_WHILE_82", "main.return", "char$global", "char$53", "char$57", "string$64"]

theorem symbols_eq : ((checkSource source).result.bind fun (p, _) => p.generate.map fun a =>
    (a.symbols.map String.ofList, a.externalSymbols.map String.ofList)) =
      .ok (defined, ["f"]) := by
  decide +kernel

end Sharing

open Sharing in
theorem compile_symbols_distinct_sharing : ∃ r, (compile source).result = .ok r ∧
    r.assembly.symbols.map String.ofList = defined ∧
    r.assembly.externalSymbols.map String.ofList = ["f"] ∧
    r.assembly.symbols.Nodup ∧ ∀ cs ∈ r.assembly.externalSymbols, cs ∉ r.assembly.symbols := by
  obtain ⟨⟨p, warnings⟩, hcheck, hsymbols⟩ := Outcome.bind_eq_ok.mp symbols_eq
  obtain ⟨a, hgenerate, hcompile⟩ := compile_of_checkSource hcheck
  dsimp only at hsymbols
  rw [hgenerate] at hsymbols
  obtain ⟨hdefined, hexternal⟩ := Prod.mk.inj (Except.ok.inj hsymbols)
  exact ⟨_, hcompile, hdefined, hexternal, compile_symbols_distinct hcompile⟩

end ProcLang
