import NestedFun.Proofs.DistinctLabels
import NestedFun.Proofs.Runs

namespace NestedFun

/-!
# Which programs are loaded

The segments of a compiled program are loaded if they find room and if all functions that are
called, and `main`, have bodies or are provided by the system. No label is defined twice, and all
data are written where they find a place.
-/

/-- `main` has no body, or some call refers to a function that has none and is not one of the given
declarations. -/
def Analysis.LeavesUndefined (analysis : Analysis) (declared : List Definition) : Prop :=
  (∃ head, .func head [] ∈ analysis.program ∧ head.name.text = "main") ∨
    ∃ caller node callee arguments head,
      (caller, .call node callee arguments) ∈ definitionsUses analysis.program ∧
      analysis.resolution.definitions[node.id]? = some head.id ∧
      .func head [] ∈ definitionsInside analysis.program ∧ .func head [] ∉ declared

/-- The functions that are declared in every program are those of the system. -/
theorem Declares.system {ds : List Definition} (h : Declares ds systemNames) {head : FunctionHead}
    {body : List Statement} (hmem : .func head body ∈ ds) :
    body = [] ∧ ∃ function : SystemFunction, function.name = head.name.text := by
  have hnames : systemNames.map Prod.fst = SystemFunction.all.map SystemFunction.name := rfl
  have hsystem : ∀ declared ∈ systemNames, ∃ function : SystemFunction,
      function.name = declared.1 := by
    intro declared hdeclared
    have hmem' := List.mem_map_of_mem (f := Prod.fst) hdeclared
    rw [hnames] at hmem'
    obtain ⟨function, -, hfunction⟩ := List.mem_map.mp hmem'
    exact ⟨function, hfunction⟩
  clear hnames
  generalize systemNames = names at h hsystem
  induction h with
  | nil => cases hmem
  | cons hname hlength hothers ih =>
      rcases List.mem_cons.mp hmem with heq | hmem
      · cases heq
        obtain ⟨function, hfunction⟩ := hsystem _ List.mem_cons_self
        exact ⟨rfl, function, hfunction.trans hname.symm⟩
      · exact ih hmem fun declared hdeclared => hsystem declared (List.mem_cons_of_mem _ hdeclared)

/-- The function that a name means stands inside the program. -/
theorem Env.Inside.function {T : Target} {program : Program} {env : Env} (h : env.Inside T program)
    {name : String} {meaning : Meaning} {head : FunctionHead} {body : List Statement}
    (hfind : env.find? name = some meaning) (hentity : meaning.entity = .function head body) :
    .func head body ∈ definitionsInside program := by
  obtain ⟨region, outer, hhome, hlookup⟩ := Env.find?_region hfind
  have hsuffix := (Env.find?_home hfind).1
  rw [hhome] at hsuffix
  rw [hentity] at hlookup
  cases region with
  | parameters head' =>
      obtain ⟨p, -, heq⟩ := List.mem_map.mp (mem_of_lookup hlookup)
      cases heq
  | definitions ds =>
      exact h.subset ds outer hsuffix (mem_entities_function (mem_of_lookup hlookup)).1

/-- A variable at the top level that a name means is a global of the program. -/
theorem Env.Inside.global {T : Target} {program : Program} {env : Env} (h : env.Inside T program)
    {name : String} {meaning : Meaning} {id : NodeId} (hfind : env.find? name = some meaning)
    (hentity : meaning.entity = .variable id) (hdepth : meaning.home.depth = 0) :
    ∃ head, .var head ∈ program ∧ head.id = id := by
  obtain ⟨region, outer, hhome, hlookup⟩ := Env.find?_region hfind
  have hsuffix := (Env.find?_home hfind).1
  rw [hhome] at hsuffix hdepth
  rw [hentity] at hlookup
  cases region with
  | parameters head' => simp at hdepth
  | definitions ds =>
      obtain ⟨head, hmem, -, hid⟩ := mem_entities_variable (mem_of_lookup hlookup)
      have htop := h.top ds outer hsuffix (by rwa [Env.depth_definitions] at hdepth)
      exact ⟨head, htop ▸ hmem, hid.symm⟩

/-- The label of a global is one of the segments. -/
theorem Segments.Labelled.mem_labels_global {segments : Segments} {program : Program}
    {context : Context} {main exit : Frame} {uses : List LabelUse}
    (hlabelled : segments.Labelled program context main exit uses) {head : Variable}
    (hmem : .var head ∈ program) :
    head.name.text ∈ segments.labels := by
  rw [hlabelled.labels.mem_iff]
  apply List.mem_append_right
  apply List.mem_append_right
  exact mem_variableNames.mpr ⟨head, hmem, rfl⟩

namespace Translated

variable {program : Program} {T : Target} (h : Translated program T)

include h

section

variable {segments : Segments} {main exit : Frame} {uses : List LabelUse}
  (hlabelled : segments.Labelled program T.context main exit uses)

include hlabelled

/-- The label of a function is one of the segments if the function has a body. -/
theorem mem_labels_function {head : FunctionHead} {body : List Statement} {frame : Frame}
    (hmem : .func head body ∈ definitionsInside program)
    (hframe : T.layout.frames[head.id]? = some frame) :
    frame.label ∈ segments.labels ↔ body ≠ [] := by
  rw [hlabelled.labels.mem_iff]
  constructor
  · intro hl
    rcases List.mem_append.mp hl with hl | hl
    · exact absurd (isNumbered_of_mem_labelsFrom hl) (h.not_numbered hmem hframe)
    · rcases List.mem_append.mp hl with hl | hl
      · obtain ⟨head', body', frame', hmem', hbody', hframe', heq⟩ := mem_functionLabels.mp hl
        have hid := h.distinct _ _ _ _ hframe hframe' heq
        cases eq_of_mem_nodup h.nodup_inside hmem hmem' hid
        exact hbody'
      · obtain ⟨global, hglobal, heq⟩ := mem_variableNames.mp hl
        exact absurd heq (h.functionLabel_ne hmem hframe hglobal)
  · intro hbody
    apply List.mem_append_right
    apply List.mem_append_left
    exact mem_functionLabels.mpr ⟨head, body, frame, hmem, hbody, hframe, rfl⟩

end

/-- A function has the label of a system function if it is one of those that every program
declares. -/
theorem system_label_iff {own declared : List Definition} (hsplit : program = own ++ declared)
    (hdeclares : Declares declared systemNames) {head : FunctionHead} {body : List Statement}
    {frame : Frame} (hmem : .func head body ∈ definitionsInside program)
    (hframe : T.layout.frames[head.id]? = some frame) :
    (SystemFunction.ofName? frame.label).isSome = true ↔ .func head body ∈ declared := by
  constructor
  · intro hsome
    obtain ⟨function, hfunction⟩ := Option.isSome_iff_exists.mp hsome
    have hname := SystemFunction.ofName?_eq_some hfunction
    obtain ⟨frame', hframe', ⟨hprogram, hlabel⟩ | hdotted⟩ := h.frame hmem
    · cases hframe.symm.trans hframe'
      obtain ⟨parameter, hsystem, -⟩ := mem_systemNames function
      obtain ⟨head', hdeclared, hname', -⟩ := hdeclares.arity _ hsystem
      have hmem' : .func head' [] ∈ program := hsplit ▸ List.mem_append_right own hdeclared
      have heq := h.eq_of_name hprogram hmem' (hlabel.symm.trans (hname.symm.trans hname'.symm))
      exact heq ▸ hdeclared
    · cases hframe.symm.trans hframe'
      exact absurd (hname ▸ hdotted) function.isPlain_name.not_dotted
  · intro hdeclared
    obtain ⟨-, function, hname⟩ := hdeclares.system hdeclared
    have hprogram : .func head body ∈ program := hsplit ▸ List.mem_append_right own hdeclared
    rw [h.label_top hprogram hframe, ← hname, SystemFunction.ofName?_name]
    rfl

/-- A label that an expression refers to is provided, unless the expression is a call of a function
without a body that the system does not provide. -/
theorem missing_of_refers {segments : Segments} {main exit : Frame} {uses : List LabelUse}
    (hlabelled : segments.Labelled program T.context main exit uses) {own declared : List Definition}
    (hsplit : program = own ++ declared) (hdeclares : Declares declared systemNames)
    {caller : FunctionHead} {e : Expression} (huse : (caller, e) ∈ definitionsUses program)
    {l : String} (hrefers : T.context.Refers e l) (hmissing : ¬ segments.Provides l) :
    ∃ node callee arguments head, e = .call node callee arguments ∧
      T.context.definitions[node.id]? = some head.id ∧
      .func head [] ∈ definitionsInside program ∧ .func head [] ∉ declared := by
  obtain ⟨env, hinside, -, hbound⟩ := h.expression_stands huse
  obtain ⟨used, limit, hplaced⟩ := hinside.placed
  cases hrefers with
  | @global node name _ size contents haccess =>
      obtain ⟨meaning, id, hfind, hentity, htable⟩ := hbound
      rw [Context.accessOf, Context.definitionOf_ok htable] at haccess
      have haccess' := Layout.getElem?_of_access haccess
      rcases hplaced.access hfind hentity with ⟨hdepth, -⟩ | ⟨-, offset, _, _, hrelative⟩
      · obtain ⟨head, hmem, rfl⟩ := hinside.global hfind hentity hdepth
        obtain ⟨before, after, ⟨-, hvariable⟩, -⟩ := h.placed.mem hmem
        rw [if_pos rfl, haccess'] at hvariable
        cases hvariable.1
        exact absurd (.inl (hlabelled.mem_labels_global hmem)) hmissing
      · cases haccess'.symm.trans hrelative
  | @callee node name arguments frame hcallee =>
      obtain ⟨⟨meaning, head, body, hfind, hentity, -, htable⟩, -⟩ := hbound
      rw [Context.calleeOf, Context.definitionOf_ok htable] at hcallee
      have hframe := Layout.getElem?_of_frame hcallee
      have hmem := hinside.function hfind hentity
      have hbody : body = [] := by
        by_contra hbody
        exact hmissing (.inl ((h.mem_labels_function hlabelled hmem hframe).mpr hbody))
      subst hbody
      refine ⟨node, name, arguments, head, rfl, htable, hmem, fun hdeclared => hmissing (.inr ?_)⟩
      exact (h.system_label_iff hsplit hdeclares hmem hframe).mpr hdeclared

/-- The label of a function without a body is provided only if the system provides it. -/
theorem missing_of_bodiless {segments : Segments} {main exit : Frame} {uses : List LabelUse}
    (hlabelled : segments.Labelled program T.context main exit uses) {own declared : List Definition}
    (hsplit : program = own ++ declared) (hdeclares : Declares declared systemNames)
    {head : FunctionHead} {frame : Frame} (hmem : .func head [] ∈ definitionsInside program)
    (hframe : T.layout.frames[head.id]? = some frame) (hown : .func head [] ∉ declared) :
    ¬ segments.Provides frame.label := by
  rintro (hl | hl)
  · exact (h.mem_labels_function hlabelled hmem hframe).mp hl rfl
  · exact hown ((h.system_label_iff hsplit hdeclares hmem hframe).mp hl)

/-- The frame of a function at the top level, found by its name. -/
theorem frameNamed_ok {head : FunctionHead} {body : List Statement}
    (hmem : .func head body ∈ program) {name : String} (hname : head.name.text = name)
    {frame : Frame} (hok : program.frameNamed T.layout name = .ok frame) :
    T.layout.frames[head.id]? = some frame ∧ frame.label = name := by
  have hlookup : (Region.definitions program).entities.lookup name = some (.function head body) := by
    refine lookup_of_mem h.nodup (hname ▸ ?_)
    exact List.mem_map_of_mem (f := fun d : Definition => (d.name.text, d.entity)) hmem
  obtain ⟨frame', hframe', -⟩ := h.frame (mem_definitionsInside hmem)
  obtain rfl := Program.frameNamed_ok h.nodup hlookup hframe' hok
  exact ⟨hframe', (h.label_top hmem hframe').trans hname⟩

end Translated

/-- Some label that the code names is not provided exactly if some function that is needed has no
body and is not one of the system's. -/
theorem Analysis.leavesUndefined_iff {analysis : Analysis} {compiled : Compiled}
    (h : Translated analysis.program (compiled.target analysis)) {main exit : Frame}
    {uses : List LabelUse}
    (hmain : analysis.program.frameNamed compiled.layout "main" = .ok main)
    (hexit : analysis.program.frameNamed compiled.layout "exit" = .ok exit)
    (hlabelled : compiled.segments.Labelled analysis.program (compiled.target analysis).context main
      exit uses) {own declared : List Definition} (hsplit : analysis.program = own ++ declared)
    (hdeclares : Declares declared systemNames) :
    (∃ l ∈ compiled.segments.code.names, ¬ compiled.segments.Provides l) ↔
      analysis.LeavesUndefined declared := by
  obtain ⟨mainHead, mainBody, hlookup, -⟩ := h.main
  obtain ⟨hmainMem, hmainName⟩ := mem_entities_function (mem_of_lookup hlookup)
  obtain ⟨hmainFrame, hmainLabel⟩ := h.frameNamed_ok hmainMem hmainName.symm hmain
  constructor
  · rintro ⟨l, hl, hmissing⟩
    rcases hlabelled.named l hl with rfl | rfl | hdefined | ⟨e, he, hrefers⟩
    · have hbody : mainBody = [] := by
        by_contra hbody
        exact hmissing (.inl ((h.mem_labels_function hlabelled (mem_definitionsInside hmainMem)
          hmainFrame).mpr hbody))
      exact .inl ⟨mainHead, hbody ▸ hmainMem, hmainName.symm⟩
    · obtain ⟨exitHead, hdeclared, hexitName, -⟩ :=
        hdeclares.arity ("exit", some "code") List.mem_cons_self
      have hexitMem : .func exitHead [] ∈ analysis.program :=
        hsplit ▸ List.mem_append_right own hdeclared
      obtain ⟨hexitFrame, -⟩ := h.frameNamed_ok hexitMem hexitName hexit
      exact absurd (.inr ((h.system_label_iff hsplit hdeclares (mem_definitionsInside hexitMem)
        hexitFrame).mpr hdeclared)) hmissing
    · exact absurd (.inl hdefined) hmissing
    · obtain ⟨⟨caller, _⟩, huse, rfl⟩ := List.mem_map.mp he
      obtain ⟨node, callee, arguments, head, rfl, hrest⟩ :=
        h.missing_of_refers hlabelled hsplit hdeclares huse hrefers hmissing
      exact .inr ⟨caller, node, callee, arguments, head, huse, hrest⟩
  · rintro (⟨head, hmem, hname⟩ | ⟨caller, node, callee, arguments, head, huse, htable, hmem, hown⟩)
    · obtain ⟨hframe, hlabel⟩ := h.frameNamed_ok hmem hname hmain
      refine ⟨main.label, hlabelled.names_main, ?_⟩
      refine h.missing_of_bodiless hlabelled hsplit hdeclares (mem_definitionsInside hmem) hframe ?_
      intro hdeclared
      obtain ⟨-, function, hfunction⟩ := hdeclares.system hdeclared
      rw [hname] at hfunction
      cases function <;> exact absurd hfunction (by decide)
    · obtain ⟨frame, hframe, -⟩ := h.frame hmem
      refine ⟨frame.label, hlabelled.refers (.call node callee arguments)
        (List.mem_map_of_mem huse) _ (.callee ?_),
        h.missing_of_bodiless hlabelled hsplit hdeclares hmem hframe hown⟩
      rw [Context.calleeOf, Context.definitionOf_ok htable]
      exact Layout.frame_ok hframe

theorem Analysis.sizes_of_compile {analysis : Analysis} {compiled : Compiled}
    (hcompile : analysis.compile = .ok compiled) :
    compiled.segments.codeSize = .ok compiled.codeSize ∧
      compiled.segments.dataSize = .ok compiled.dataSize :=
  (Analysis.compile_ok hcompile).2.2.2

/-- When loading a compiled program succeeds, and when and why it fails. -/
structure Compiled.LoadsIfPossible (compiled : Compiled) (analysis : Analysis)
    (declared : List Definition) (memorySize : Nat) (result : Except LoadError (Image × State)) :
    Prop where
  outOfMemory : (∃ size, result = .error (.fault (.outOfMemory size))) ↔
    usableMemory memorySize < compiled.codeSize + compiled.dataSize
  undefinedLabel : (∃ l, result = .error (.fault (.undefinedLabel l))) ↔
    compiled.codeSize + compiled.dataSize ≤ usableMemory memorySize ∧
      analysis.LeavesUndefined declared
  loaded : (∃ image s, result = .ok (image, s)) ↔
    compiled.codeSize + compiled.dataSize ≤ usableMemory memorySize ∧
      ¬ analysis.LeavesUndefined declared
  not_duplicateLabel : ∀ l, result ≠ .error (.fault (.duplicateLabel l))
  not_invalidAddress : ∀ a, result ≠ .error (.fault (.invalidAddress a))

theorem Segments.LoadOutcome.loadsIfPossible {compiled : Compiled} {analysis : Analysis}
    {declared : List Definition} {memorySize : Nat} {result : Except LoadError (Image × State)}
    (h : compiled.segments.LoadOutcome
      (compiled.codeSize + compiled.dataSize ≤ usableMemory memorySize) result)
    (hundefined : (∃ l ∈ compiled.segments.code.names, ¬ compiled.segments.Provides l) ↔
      analysis.LeavesUndefined declared) :
    compiled.LoadsIfPossible analysis declared memorySize result := by
  cases h with
  | loaded hroom hprovides =>
      have hnone : ¬ analysis.LeavesUndefined declared := by
        rw [← hundefined]
        rintro ⟨l, hl, hmissing⟩
        exact hmissing (hprovides l hl)
      constructor <;> simp [hroom, hnone]
  | undefined hroom hnames hmissing =>
      have hsome := hundefined.mp ⟨_, hnames, hmissing⟩
      constructor <;> simp [hroom, hsome]
  | full hroom => constructor <;> simp [hroom, not_le.mp hroom]

/-- The loader accepts exactly what it should. The last functions of the program are those of the
system, which every program declares. The labels of the segments are all different: those made with
numbers, those of functions and the names of globals; no two functions share a label, and of the
labels that are tried for a function the first free one is found. Loading fails for want of memory,
or else because a function that is needed is neither defined nor one of the system's, or else it
succeeds. -/
structure Compiled.Accepted (compiled : Compiled) (analysis : Analysis)
    (own declared : List Definition) (uses : List LabelUse) : Prop where
  program_eq : analysis.program = own ++ declared
  declares : Declares declared systemNames
  nodup : compiled.segments.labels.Nodup
  labels : compiled.segments.labels.Perm (labelsFrom 0 uses ++
    (functionLabels compiled.layout (definitionsInside analysis.program) ++
      analysis.program.filterMap Definition.variableName?))
  distinct : ∀ (id : NodeId) (frame : Frame) (id' : NodeId) (frame' : Frame),
    compiled.layout.frames[id]? = some frame → compiled.layout.frames[id']? = some frame' →
    frame.label = frame'.label → id = id'
  free : ∀ base taken, ∃ k, freeLabel base taken 0 = numberedLabel base k ∧
    numberedLabel base k ∉ taken ∧ ∀ j < k, numberedLabel base j ∈ taken
  loads : ∀ memorySize input output, compiled.LoadsIfPossible analysis declared memorySize
    (compiled.segments.load memorySize input output)

theorem Analysis.accepted {source : Source} {analysis : Analysis} {compiled : Compiled}
    (hanalyze : analyze source.withSystemDeclarations = .ok analysis)
    (hcompile : analysis.compile = .ok compiled) :
    ∃ own declared uses, compiled.Accepted analysis own declared uses := by
  obtain ⟨h, hsegments⟩ := Translated.of_compile hanalyze hcompile
  obtain ⟨main, exit, uses, hmain, hexit, hlabelled⟩ := h.labelled hcompile
  obtain ⟨own, declared, hsplit, hdeclares⟩ := h.read.declares
  obtain ⟨hcodeSize, hdataSize⟩ := Analysis.sizes_of_compile hcompile
  obtain ⟨-, -, inner, -, -, hcollects, -, hdata⟩ := Program.assemble_ok hsegments
  have hfits : ∀ d ∈ compiled.segments.data, d.item.Fits :=
    fun d hd => (h.describes.datum hcollects (hdata ▸ hd)).1
  have hnodup := h.nodup_labels hlabelled
  have hundefined := Analysis.leavesUndefined_iff h hmain hexit hlabelled hsplit hdeclares
  refine ⟨own, declared, uses, hsplit, hdeclares, hnodup, hlabelled.labels, h.distinct, ?_, ?_⟩
  · intro base taken
    obtain ⟨k, -, hlabel, hbefore⟩ := freeLabel_first base taken 0
    exact ⟨k, hlabel, hlabel ▸ freeLabel_not_mem base taken, fun j => hbefore j (Nat.zero_le j)⟩
  · intro memorySize input output
    exact (Segments.load_outcome hcodeSize hdataSize hfits hnodup memorySize input
      output).loadsIfPossible hundefined

def undefinedSample : Source :=
  ⟨"fun main() = let fun f(n) in f(1) end", .memory⟩

/-- Why loading failed, if for want of memory or of a label. -/
def LoadError.lacks? : Except LoadError (Image × State) → Option (Option String)
  | .error (.fault (.outOfMemory _)) => some none
  | .error (.fault (.undefinedLabel l)) => some (some l)
  | _ => none

theorem undefinedSample_compiles : ∃ analysis compiled,
    analyze undefinedSample.withSystemDeclarations = .ok analysis ∧
      analysis.compile = .ok compiled ∧ compiled.segments.labels = ["main"] ∧
      LoadError.lacks? (compiled.segments.load 47 [] {}) = some none ∧
      LoadError.lacks? (compiled.segments.load 48 [] {}) = some (some "main.f") := by
  have hchecks : ((analyze undefinedSample.withSystemDeclarations).toOption.any
      fun analysis : Analysis => analysis.compile.toOption.any fun compiled : Compiled => decide (
        compiled.segments.labels = ["main"] ∧
        LoadError.lacks? (compiled.segments.load 47 [] {}) = some none ∧
        LoadError.lacks? (compiled.segments.load 48 [] {}) = some (some "main.f"))) = true := by
    rw [analyze_spelled undefinedSample rfl (by decide)]
    decide +kernel
  obtain ⟨analysis, hanalyze, hchecks⟩ := Option.any_eq_true _ _ |>.mp hchecks
  obtain ⟨compiled, hcompile, hchecks⟩ := Option.any_eq_true _ _ |>.mp hchecks
  exact ⟨analysis, compiled, toOption_eq_some hanalyze, toOption_eq_some hcompile,
    of_decide_eq_true hchecks⟩

/-- With little memory the program finds no room, and with more it lacks the function. -/
theorem Analysis.accepted_sample : ∃ analysis compiled,
    analyze undefinedSample.withSystemDeclarations = .ok analysis ∧
      analysis.compile = .ok compiled ∧ compiled.segments.labels = ["main"] ∧
      LoadError.lacks? (compiled.segments.load 47 [] {}) = some none ∧
      LoadError.lacks? (compiled.segments.load 48 [] {}) = some (some "main.f") ∧
      ∃ own declared uses, compiled.Accepted analysis own declared uses := by
  obtain ⟨analysis, compiled, hanalyze, hcompile, hlabels, hsmall, hlarge⟩ :=
    undefinedSample_compiles
  exact ⟨analysis, compiled, hanalyze, hcompile, hlabels, hsmall, hlarge,
    Analysis.accepted hanalyze hcompile⟩

end NestedFun
