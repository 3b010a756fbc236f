import NestedFun.Proofs.DefinitionOrder
import NestedFun.Proofs.GeneratedPrograms

namespace NestedFun

/-!
# The contents of segments

Generating and assembling walk a program separately. The segments hold what was generated all the
same: the code of every function with a body, the data of every variable and every string, each
once and in source order, and nothing that was generated is left over.
-/

def Definition.bodyHead? : Definition → Option FunctionHead
  | .func head body => if body.isEmpty then none else some head
  | .var _ => none

/-- The functions with bodies in a program, each in front of those inside it. -/
def Program.functionHeads (program : Program) : List FunctionHead :=
  (definitionsInside program).filterMap Definition.bodyHead?

def Program.variableHeads (program : Program) : List Variable :=
  (definitionsInside program).filterMap Definition.variable?

theorem Program.mem_functionHeads {program : Program} {head : FunctionHead} :
    head ∈ program.functionHeads ↔ ∃ body, .func head body ∈ definitionsInside program ∧ body ≠ [] := by
  rw [functionHeads, List.mem_filterMap]
  constructor
  · rintro ⟨⟨head', body⟩ | head', hd, hhead⟩
    · rw [Definition.bodyHead?] at hhead
      split at hhead
      · cases hhead
      · rename_i hbody
        cases hhead
        exact ⟨body, hd, by simpa using hbody⟩
    · cases hhead
  · rintro ⟨body, hd, hbody⟩
    exact ⟨_, hd, if_neg (by simpa using hbody)⟩

theorem Program.mem_variableHeads {program : Program} {head : Variable} :
    head ∈ program.variableHeads ↔ .var head ∈ definitionsInside program := by
  rw [variableHeads, List.mem_filterMap]
  constructor
  · rintro ⟨⟨head', body⟩ | head', hd, hhead⟩
    · cases hhead
    · cases hhead
      exact hd
  · exact fun hd => ⟨_, hd, rfl⟩

theorem sublist_bodyHeads (ds : List Definition) :
    ((ds.filterMap Definition.bodyHead?).map fun head => head.id).Sublist
      (ds.map fun d => d.node.id) := by
  induction ds with
  | nil => exact .slnil
  | cons d ds ih =>
      cases d with
      | func head body =>
          cases body with
          | nil => exact ih.cons _
          | cons s body => exact ih.cons_cons _
      | var head => exact ih.cons _

theorem sublist_variables (ds : List Definition) :
    ((ds.filterMap Definition.variable?).map fun head => head.id).Sublist
      (ds.map fun d => d.node.id) := by
  induction ds with
  | nil => exact .slnil
  | cons d ds ih =>
      cases d with
      | func head body => exact ih.cons _
      | var head => exact ih.cons_cons _

/-- The pieces of a list of definitions are those of the definitions that are picked if no other
has one. -/
theorem flatMap_picked {α β : Type} {ds : List Definition} {pick : Definition → Option α}
    {piece : Definition → List β} {Has : α → List β → Prop}
    (hnone : ∀ d ∈ ds, pick d = none → piece d = [])
    (hsome : ∀ d ∈ ds, ∀ a, pick d = some a → Has a (piece d)) :
    ∃ pieces, List.Forall₂ Has (ds.filterMap pick) pieces ∧ ds.flatMap piece = pieces.flatten := by
  induction ds with
  | nil => exact ⟨[], .nil, rfl⟩
  | cons d ds ih =>
      obtain ⟨pieces, hpieces, hflat⟩ := ih
        (fun e he => hnone e (List.mem_cons_of_mem _ he))
        (fun e he => hsome e (List.mem_cons_of_mem _ he))
      rw [List.flatMap_cons, hflat, List.filterMap_cons]
      cases hd : pick d with
      | none =>
          rw [hnone d List.mem_cons_self hd]
          exact ⟨pieces, hpieces, rfl⟩
      | some a => exact ⟨piece d :: pieces, .cons (hsome d List.mem_cons_self a hd) hpieces, rfl⟩

section

variable {program : Program} {T : Target} (h : Translated program T)

include h

/-- The table of code has an entry for each function with a body and for nothing else. -/
theorem Translated.functions_keys_perm :
    T.fragments.functions.keys.Perm (program.functionHeads.map fun head => head.id) := by
  refine (List.perm_ext_iff_of_nodup Std.TreeMap.nodup_keys
    (h.nodup_inside.sublist (sublist_bodyHeads _))).mpr fun id => ?_
  rw [Std.TreeMap.mem_keys, Std.TreeMap.mem_iff_isSome_getElem?, List.mem_map]
  constructor
  · intro hsome
    obtain ⟨code, hcode⟩ := Option.isSome_iff_exists.mp hsome
    obtain ⟨head, body, hmem, rfl⟩ := h.describes.functions id code hcode
    refine ⟨head, Program.mem_functionHeads.mpr ⟨body, hmem, ?_⟩, rfl⟩
    rintro rfl
    cases (h.describes.bodiless head hmem).symm.trans hcode
  · rintro ⟨head, hhead, rfl⟩
    obtain ⟨body, hmem, hbody⟩ := Program.mem_functionHeads.mp hhead
    obtain ⟨env, frame, c, -, -, hcode⟩ := h.describes.function hmem hbody
    rw [hcode]
    rfl

/-- Every variable has an entry in the table of data. -/
theorem Translated.storage_getElem? {head : Variable} (hmem : .var head ∈ definitionsInside program) :
    ∃ data, T.fragments.storage[head.id]? = some data := by
  obtain ⟨env, code, ⟨-, hcoded⟩, -⟩ := h.describes.inside hmem
  split at hcoded
  · exact ⟨_, hcoded.2⟩
  · obtain ⟨offset, n, -, hstorage, -⟩ := hcoded
    exact ⟨_, hstorage⟩

/-- The table of data has an entry for each variable and for nothing else. -/
theorem Translated.storage_keys_perm :
    T.fragments.storage.keys.Perm (program.variableHeads.map fun head => head.id) := by
  refine (List.perm_ext_iff_of_nodup Std.TreeMap.nodup_keys
    (h.nodup_inside.sublist (sublist_variables _))).mpr fun id => ?_
  rw [Std.TreeMap.mem_keys, Std.TreeMap.mem_iff_isSome_getElem?, List.mem_map]
  constructor
  · intro hsome
    obtain ⟨data, hdata⟩ := Option.isSome_iff_exists.mp hsome
    obtain ⟨head, hmem, rfl⟩ := h.describes.storage id data hdata
    exact ⟨head, Program.mem_variableHeads.mpr hmem, rfl⟩
  · rintro ⟨head, hhead, rfl⟩
    obtain ⟨data, hdata⟩ := h.storage_getElem? (Program.mem_variableHeads.mp hhead)
    rw [hdata]
    rfl

/-- The collected code is that of the functions with bodies. -/
theorem Translated.code_flatten : ∃ codes,
    List.Forall₂ (fun head code => T.fragments.functions[head.id]? = some code ∧
      ∃ frame body, T.layout.frames[head.id]? = some frame ∧ code = functionCode head frame body)
      program.functionHeads codes ∧
    (T.fragments.segments (definitionsInside program)).code = codes.flatten := by
  refine flatMap_picked (fun d hd hpick => ?_) (fun d hd head hpick => ?_)
  · cases d with
    | var head => rfl
    | func head body =>
        have hbody : body = [] := by simpa [Definition.bodyHead?] using hpick
        subst hbody
        rw [Fragments.codeOf, Definition.functionKey?, Option.bind_some,
          h.describes.bodiless head hd]
        rfl
  · cases d with
    | var head' => cases hpick
    | func head' body =>
        rw [Definition.bodyHead?] at hpick
        split at hpick
        · cases hpick
        · rename_i hbody
          cases hpick
          obtain ⟨env, frame, c, hframe, -, hcode⟩ := h.describes.function hd (by simpa using hbody)
          rw [Fragments.codeOf, Definition.functionKey?, Option.bind_some, hcode]
          exact ⟨rfl, frame, c, hframe, rfl⟩

/-- The collected data are those of the variables. -/
theorem Translated.data_flatten : ∃ blocks,
    List.Forall₂ (fun head data => T.fragments.storage[head.id]? = some data)
      program.variableHeads blocks ∧
    (T.fragments.segments (definitionsInside program)).data = blocks.flatten := by
  refine flatMap_picked (fun d hd hpick => ?_) (fun d hd head hpick => ?_)
  · cases d with
    | func head body => rfl
    | var head => cases hpick
  · cases d with
    | func head' body => cases hpick
    | var head' =>
        cases hpick
        obtain ⟨data, hdata⟩ := h.storage_getElem? hd
        rw [T.fragments.dataOf_variable hdata]
        exact hdata

/-- The code that was generated is what is collected, in another order. -/
theorem Translated.code_perm :
    T.fragments.code.Perm (T.fragments.segments (definitionsInside program)).code := by
  obtain ⟨codes, hcodes, hflatten⟩ := h.code_flatten
  have hgenerated : T.fragments.code
      = T.fragments.functions.keys.flatMap fun id => T.fragments.functions[id]?.getD [] := by
    rw [← Std.TreeMap.map_fst_toList_eq_keys, List.flatMap_map]
    refine List.flatMap_congr fun entry hentry => ?_
    rw [Std.TreeMap.mem_toList_iff_getElem?_eq_some.mp hentry, Option.getD_some]
  have hcollected : codes.flatten
      = program.functionHeads.flatMap fun head => T.fragments.functions[head.id]?.getD [] := by
    clear hflatten
    generalize program.functionHeads = heads at hcodes ⊢
    induction hcodes with
    | nil => rfl
    | cons hcode _ ih => rw [List.flatten_cons, List.flatMap_cons, ← ih, hcode.1, Option.getD_some]
  rw [hgenerated, hflatten, hcollected,
    ← List.flatMap_map (fun head : FunctionHead => head.id)
      (fun id => T.fragments.functions[id]?.getD [])]
  exact h.functions_keys_perm.flatMap_right _

end

/-- The segments of a program hold its entry and then all that was generated for it with the numbers
from `n` on: the code of the functions with bodies, the data of the variables, and the strings in
the order of their numbers. Every table has just one entry for each of these, and the definitions
are listed as they start in the text. -/
structure Segments.Holds (segments : Segments) (program : Program) (layout : Layout) (n : Nat)
    (fragments : Fragments) : Prop where
  code : ∃ main exit codes, program.frameNamed layout "main" = .ok main ∧
    program.frameNamed layout "exit" = .ok exit ∧
    List.Forall₂ (fun head code => fragments.functions[head.id]? = some code ∧
      ∃ frame body, layout.frames[head.id]? = some frame ∧ code = functionCode head frame body)
      program.functionHeads codes ∧
    segments.code = entryCode main exit ++ codes.flatten
  data : ∃ blocks,
    List.Forall₂ (fun head data => fragments.storage[head.id]? = some data) program.variableHeads blocks ∧
    segments.data = blocks.flatten ++ fragments.strings.flatten
  strings : fragments.strings = textBlocks n program.sites
  functions_keys : fragments.functions.keys.Perm (program.functionHeads.map fun head => head.id)
  storage_keys : fragments.storage.keys.Perm (program.variableHeads.map fun head => head.id)
  nodup_ids : ((definitionsInside program).map fun d => d.node.id).Nodup
  ordered : (definitionsInside program).Pairwise fun d e => d.node.span.start < e.node.span.start

/-- Everything that is generated for a program is assembled, each piece once and in its place. -/
theorem Analysis.assembles {source : Source} {analysis : Analysis} {layout : Layout}
    (hanalyze : analyze source.withSystemDeclarations = .ok analysis)
    (hlayout : analysis.program.layOut = .ok layout) (n : Nat) : ∃ fragments labels segments,
      analysis.program.generate ⟨analysis.resolution.definitions, layout⟩ ⟨n⟩
        = .ok (fragments, labels) ∧
      analysis.program.assemble layout fragments = .ok segments ∧
      segments.Holds analysis.program layout n fragments := by
  obtain ⟨fragments, hgenerated⟩ := analysis.generatedFrom hanalyze hlayout n
  have htranslated := hgenerated.translated
  obtain ⟨program, hprogram, h⟩ := bind_eq_ok hanalyze
  obtain ⟨resolution, -, h⟩ := bind_eq_ok h
  cases h
  obtain ⟨segments, hsegments⟩ := htranslated.assemble_succeeds
  refine ⟨fragments, _, segments, hgenerated.generate, hsegments, ?_⟩
  obtain ⟨main, hmain, h⟩ := bind_eq_ok hsegments
  obtain ⟨exit, hexit, h⟩ := bind_eq_ok h
  obtain ⟨inner, hinner, h⟩ := bind_eq_ok h
  cases h
  obtain rfl := collectDefinitions_eq program hinner
  obtain ⟨codes, hcodes, hcode⟩ := htranslated.code_flatten
  obtain ⟨blocks, hblocks, hdata⟩ := htranslated.data_flatten
  refine ⟨⟨main, exit, codes, hmain, hexit, hcodes, ?_⟩, ⟨blocks, hblocks, ?_⟩, hgenerated.strings,
    htranslated.functions_keys_perm, htranslated.storage_keys_perm, htranslated.nodup_inside,
    Program.definitions_ordered hprogram⟩
  · show entryCode main exit ++ (fragments.segments (definitionsInside program)).code ++ [] = _
    rw [hcode, List.append_nil]
  · show [] ++ (fragments.segments (definitionsInside program)).data ++ fragments.strings.flatten = _
    rw [hdata, List.nil_append]

def segmentsSample : Source :=
  ⟨"var g=1 fun main()=if g then let fun f()=putstr(\"f\") in f() end else let var x=2 in x end end var h=3",
    .memory⟩

theorem Analysis.assembles_sample : ∃ analysis layout fragments labels segments,
    analyze segmentsSample.withSystemDeclarations = .ok analysis ∧
      analysis.program.layOut = .ok layout ∧
      analysis.program.generate ⟨analysis.resolution.definitions, layout⟩ ⟨7⟩
        = .ok (fragments, labels) ∧
      analysis.program.assemble layout fragments = .ok segments ∧
      segments.Holds analysis.program layout 7 fragments ∧
      (analysis.program.functionHeads.map fun head => head.name.text) = ["main", "f"] ∧
      (analysis.program.variableHeads.map fun head => head.name.text) = ["g", "x", "h"] := by
  have hchecks : (analyze segmentsSample.withSystemDeclarations).toOption.any
      (fun analysis : Analysis => analysis.program.layOut.toOption.isSome ∧
        (analysis.program.functionHeads.map fun head => head.name.text) = ["main", "f"] ∧
        (analysis.program.variableHeads.map fun head => head.name.text) = ["g", "x", "h"]) = true := by
    rw [analyze_spelled segmentsSample rfl (by decide +kernel)]
    decide +kernel
  obtain ⟨analysis, hanalyze, hchecks⟩ := (Option.any_eq_true _ _).mp hchecks
  obtain ⟨hsome, hfunctions, hvariables⟩ := of_decide_eq_true hchecks
  obtain ⟨layout, hlayout⟩ := Option.isSome_iff_exists.mp hsome
  obtain ⟨fragments, labels, segments, hgenerate, hassemble, hholds⟩ :=
    Analysis.assembles (toOption_eq_some hanalyze) (toOption_eq_some hlayout) 7
  exact ⟨analysis, layout, fragments, labels, segments, toOption_eq_some hanalyze,
    toOption_eq_some hlayout, hgenerate, hassemble, hholds, hfunctions, hvariables⟩

end NestedFun
