import NestedFun.Proofs.Loading
import NestedFun.Proofs.SystemCalls
import NestedFun.Proofs.SystemDeclarations

namespace NestedFun

/-!
# Executable programs

All that is known about a program that was read together with the declarations of the system
functions, compiled and loaded: a call finds a function whose code stands in the image, or a system
function.
-/

structure Translated (program : Program) (T : Target) : Prop where
  read : program.IsRead
  nodup : ((Region.definitions program).entities.map Prod.fst).Nodup
  main : ∃ head body, (Region.definitions program).entities.lookup "main"
    = some (.function head body) ∧ head.parameters = []
  bound : BoundDefinitions T.context.definitions [.definitions program] program
  placed : PlacedDefinitions T.layout 0 0 0 program
  distinct : ∀ (id : NodeId) (frame : Frame) (id' : NodeId) (frame' : Frame),
    T.layout.frames[id]? = some frame → T.layout.frames[id']? = some frame' →
    frame.label = frame'.label → id = id'
  describes : T.Describes program

/-- A program that was compiled and loaded, with the first state of the machine. -/
structure Executable (program : Program) (T : Target) (segments : Segments) (image : Image)
    (s : State) : Prop extends Translated program T where
  assembled : program.assemble T.layout T.fragments = .ok segments
  loaded : segments.Loaded image s

/-- There are no locals outside functions. -/
theorem PlacedDefinitions.after_eq {layout : Layout} {before after : Int} {ds : List Definition}
    (h : PlacedDefinitions layout 0 before after ds) : after = before := by
  induction ds generalizing before with
  | nil => exact h
  | cons d ds ih =>
      obtain ⟨between, hd, hds⟩ := h
      rw [ih hds]
      rcases d with ⟨head, body⟩ | head
      · exact hd.1
      · exact hd.2.2

theorem names_nodup {program : Program}
    (h : ((Region.definitions program).entities.map Prod.fst).Nodup) :
    (program.map fun d => d.name.text).Nodup := by
  simpa [Region.entities, Function.comp_def] using h

def analyzeChars (cs : List Char) : Except CompileError Analysis := do
  let program ← Program.parse cs
  let resolution ← program.resolve
  return ⟨program, resolution⟩

theorem analyze_spelled (source : Source) {cs : List Char}
    (hcontents : source.contents = String.ofList cs) (hlast : cs.getLast? ≠ some '\n') :
    analyze source.withSystemDeclarations
      = analyzeChars (cs ++ '\n' :: Spelled.declarations.chars) := by
  rw [← Source.toList_spelled hcontents hlast]
  rfl

def Compiled.target (compiled : Compiled) (analysis : Analysis) : Target :=
  ⟨⟨analysis.resolution.definitions, compiled.layout⟩, compiled.fragments⟩

/-- Everything in a program that was read and resolved is placed by its layout. -/
theorem Program.IsRead.placed {program : Program} (h : program.IsRead) {resolution : Resolution}
    {layout : Layout} (hresolution : program.resolve = .ok resolution)
    (hlayout : program.layOut = .ok layout) :
    PlacedDefinitions layout 0 0 0 program ∧
      ∀ (id : NodeId) (frame : Frame) (id' : NodeId) (frame' : Frame),
        layout.frames[id]? = some frame → layout.frames[id']? = some frame' →
        frame.label = frame'.label → id = id' := by
  obtain ⟨hnodup, -, -⟩ := program.resolve_bound h.nodup_ids hresolution
  obtain ⟨⟨after, hplaced⟩, hdistinct⟩ := program.layOut_placed hlayout h.wellFormed h.nodup_ids
    (names_nodup hnodup)
  have hafter := hplaced.after_eq
  subst hafter
  exact ⟨hplaced, hdistinct⟩

theorem analyze_ok {source : Source} {analysis : Analysis} (h : analyze source = .ok analysis) :
    Program.parse source.contents.toList = .ok analysis.program ∧
      analysis.program.resolve = .ok analysis.resolution := by
  obtain ⟨program, hprogram, h⟩ := bind_eq_ok h
  obtain ⟨resolution, hresolution, h⟩ := bind_eq_ok h
  cases h
  exact ⟨hprogram, hresolution⟩

/-- A counter gives the numbers of an endless supply as long as it does not run over. -/
theorem Program.generateCounted_ok {program : Program} {context : Context}
    {counter counter' : LabelCounter} {fragments : Fragments}
    (h : program.generateCounted context counter = .ok (fragments, counter')) :
    ∃ n < UInt32.size, program.generate context ⟨counter.next.toNat⟩ = .ok (fragments, ⟨n⟩) ∧
      counter' = ⟨.ofNat n⟩ := by
  obtain ⟨⟨fragments', labels⟩, hgenerate, h⟩ := bind_eq_ok h
  dsimp only at h
  split at h
  · rename_i hlt
    cases h
    exact ⟨labels.next, hlt, hgenerate, rfl⟩
  · cases h

theorem Program.generateCounted_of_lt {program : Program} {context : Context} {counter : LabelCounter}
    {fragments : Fragments} {n : Nat} (hn : n < UInt32.size)
    (h : program.generate context ⟨counter.next.toNat⟩ = .ok (fragments, ⟨n⟩)) :
    program.generateCounted context counter = .ok (fragments, ⟨.ofNat n⟩) :=
  (bind_of_ok h).trans (if_pos hn)

theorem Program.generateCounted_of_le {program : Program} {context : Context} {counter : LabelCounter}
    {fragments : Fragments} {n : Nat} (hn : UInt32.size ≤ n)
    (h : program.generate context ⟨counter.next.toNat⟩ = .ok (fragments, ⟨n⟩)) :
    program.generateCounted context counter = .error .additionOverflow :=
  (bind_of_ok h).trans (if_neg (Nat.not_lt.mpr hn))

/-- What every phase of the back half has produced. -/
theorem Analysis.compile_ok {analysis : Analysis} {compiled : Compiled}
    (h : analysis.compile = .ok compiled) :
    analysis.program.layOut = .ok compiled.layout ∧
      (∃ labels, analysis.program.generate ⟨analysis.resolution.definitions, compiled.layout⟩ {}
        = .ok (compiled.fragments, labels)) ∧
      analysis.program.assemble compiled.layout compiled.fragments = .ok compiled.segments ∧
      compiled.segments.codeSize = .ok compiled.codeSize ∧
      compiled.segments.dataSize = .ok compiled.dataSize := by
  obtain ⟨layout, hlayout, h⟩ := bind_eq_ok h
  obtain ⟨⟨fragments, labels⟩, hfragments, h⟩ := bind_eq_ok h
  obtain ⟨segments, hsegments, h⟩ := bind_eq_ok h
  obtain ⟨codeSize, hcodeSize, h⟩ := bind_eq_ok h
  obtain ⟨dataSize, hdataSize, h⟩ := bind_eq_ok h
  cases h
  obtain ⟨n, -, hgenerate, -⟩ := Program.generateCounted_ok hfragments
  exact ⟨hlayout, ⟨⟨n⟩, hgenerate⟩, hsegments, hcodeSize, hdataSize⟩

/-- What is known about a program whose text was compiled. -/
theorem Translated.of_compile {source : Source} {analysis : Analysis} {compiled : Compiled}
    (hanalyze : analyze source.withSystemDeclarations = .ok analysis)
    (hcompile : analysis.compile = .ok compiled) :
    Translated analysis.program (compiled.target analysis) ∧
      analysis.program.assemble compiled.layout compiled.fragments = .ok compiled.segments := by
  obtain ⟨hprogram, hresolution⟩ := analyze_ok hanalyze
  obtain ⟨hlayout, ⟨labels, hfragments⟩, hsegments, -, -⟩ := Analysis.compile_ok hcompile
  have hread := parse_withSystemDeclarations hprogram
  obtain ⟨hnodup, hbound, hmain⟩ := analysis.program.resolve_bound hread.nodup_ids hresolution
  obtain ⟨hplaced, hdistinct⟩ := hread.placed hresolution hlayout
  have hdescribes := analysis.program.generate_describes hbound hread.wellFormed hread.nodup_ids
    hplaced le_rfl hfragments
  exact ⟨⟨hread, hnodup, hmain, hbound, hplaced, hdistinct, hdescribes⟩, hsegments⟩

/-- What is known about a program that was compiled and loaded. -/
theorem Executable.of_compile {source : Source} {analysis : Analysis} {compiled : Compiled}
    {memorySize : Nat} {input : List UInt8} {output : Output} {image : Image} {s : State}
    (hanalyze : analyze source.withSystemDeclarations = .ok analysis)
    (hcompile : analysis.compile = .ok compiled)
    (hload : compiled.segments.load memorySize input output = .ok (image, s)) :
    Executable analysis.program (compiled.target analysis) compiled.segments image s ∧
      s.memory.size = usableMemory memorySize ∧ s.input = input ∧ s.output = output := by
  obtain ⟨htranslated, hsegments⟩ := Translated.of_compile hanalyze hcompile
  obtain ⟨main, exit, inner, _, _, hcollects, _, hdata⟩ := Program.assemble_ok hsegments
  obtain ⟨hloaded, hsize, hinput, houtput⟩ := Segments.load_ok
    (fun d hd => (htranslated.describes.datum hcollects (hdata ▸ hd)).1) hload
  exact ⟨⟨htranslated, hsegments, hloaded⟩, hsize, hinput, houtput⟩

/-! ## Environments inside a program -/

mutual

theorem Definition.inside_subset {d e : Definition} (h : e ∈ d.inside) : e.inside ⊆ d.inside := by
  cases d with
  | var head =>
      cases List.mem_singleton.mp h
      exact List.Subset.refl _
  | func head body =>
      rcases List.mem_cons.mp h with rfl | h
      · exact List.Subset.refl _
      · exact List.subset_cons_of_subset _ (statementsInside_subset h)

theorem definitionsInside_subset {ds : List Definition} {e : Definition}
    (h : e ∈ definitionsInside ds) : e.inside ⊆ definitionsInside ds := by
  cases ds with
  | nil => cases h
  | cons d ds =>
      rcases List.mem_append.mp h with h | h
      · exact List.subset_append_of_subset_left _ (Definition.inside_subset h)
      · exact List.subset_append_of_subset_right _ (definitionsInside_subset h)

theorem Statement.inside_subset {s : Statement} {e : Definition} (h : e ∈ s.inside) :
    e.inside ⊆ s.inside := by
  cases s with
  | eval node value => cases h
  | assign node target source => cases h
  | branch node condition positive negative =>
      rcases List.mem_append.mp h with h | h
      · exact List.subset_append_of_subset_left _ (statementsInside_subset h)
      · exact List.subset_append_of_subset_right _ (statementsInside_subset h)
  | loop node condition body => exact @statementsInside_subset body _ h
  | block node ds body =>
      rcases List.mem_append.mp h with h | h
      · exact List.subset_append_of_subset_left _ (definitionsInside_subset h)
      · exact List.subset_append_of_subset_right _ (statementsInside_subset h)

theorem statementsInside_subset {ss : List Statement} {e : Definition}
    (h : e ∈ statementsInside ss) : e.inside ⊆ statementsInside ss := by
  cases ss with
  | nil => cases h
  | cons s ss =>
      rcases List.mem_append.mp h with h | h
      · exact List.subset_append_of_subset_left _ (Statement.inside_subset h)
      · exact List.subset_append_of_subset_right _ (statementsInside_subset h)

end

/-- The regions of an environment belong to a program and are coded. -/
structure Env.Inside (T : Target) (program : Program) (env : Env) : Prop where
  coded : ∀ ds outer, (Region.definitions ds :: outer) <:+ env →
    ∃ code, CodedDefinitions T (.definitions ds :: outer) ds code
  subset : ∀ ds outer, (Region.definitions ds :: outer) <:+ env → ds ⊆ definitionsInside program
  top : ∀ ds outer, (Region.definitions ds :: outer) <:+ env → Env.depth outer = 0 → ds = program
  owners : ∀ ds outer, (Region.definitions ds :: outer) <:+ env →
    definitionsOwners (Env.path outer) ds ⊆ definitionsOwners [] program
  parametersOwners : ∀ head outer, (Region.parameters head :: outer) <:+ env →
    ∀ p ∈ head.parameters, (p.id, head.id :: Env.path outer) ∈ definitionsOwners [] program
  placed : ∃ used limit, env.Placed T.layout used limit

namespace Env.Inside

variable {T : Target} {program : Program} {env : Env}

theorem suffix (h : env.Inside T program) {home : Env} (hhome : home <:+ env) :
    home.Inside T program where
  coded ds outer hsuffix := h.coded ds outer (hsuffix.trans hhome)
  subset ds outer hsuffix := h.subset ds outer (hsuffix.trans hhome)
  top ds outer hsuffix := h.top ds outer (hsuffix.trans hhome)
  owners ds outer hsuffix := h.owners ds outer (hsuffix.trans hhome)
  parametersOwners head outer hsuffix := h.parametersOwners head outer (hsuffix.trans hhome)
  placed := by
    obtain ⟨used, limit, hplaced⟩ := h.placed
    exact hplaced.suffix hhome

theorem parameters (h : env.Inside T program) {head : FunctionHead} {used limit : Int}
    (howners : ∀ p ∈ head.parameters, (p.id, head.id :: env.path) ∈ definitionsOwners [] program)
    (hplaced : Env.Placed T.layout (.parameters head :: env) used limit) :
    Inside T program (.parameters head :: env) where
  coded ds outer hsuffix := by
    rcases List.suffix_cons_iff.mp hsuffix with heq | hsuffix
    · cases heq
    · exact h.coded ds outer hsuffix
  subset ds outer hsuffix := by
    rcases List.suffix_cons_iff.mp hsuffix with heq | hsuffix
    · cases heq
    · exact h.subset ds outer hsuffix
  top ds outer hsuffix := by
    rcases List.suffix_cons_iff.mp hsuffix with heq | hsuffix
    · cases heq
    · exact h.top ds outer hsuffix
  owners ds outer hsuffix := by
    rcases List.suffix_cons_iff.mp hsuffix with heq | hsuffix
    · cases heq
    · exact h.owners ds outer hsuffix
  parametersOwners head' outer hsuffix := by
    rcases List.suffix_cons_iff.mp hsuffix with heq | hsuffix
    · cases heq
      exact howners
    · exact h.parametersOwners head' outer hsuffix
  placed := ⟨used, limit, hplaced⟩

theorem definitions (h : env.Inside T program) {ds : List Definition} {code : Code}
    {used limit : Int} (hcode : CodedDefinitions T (.definitions ds :: env) ds code)
    (hsubset : ds ⊆ definitionsInside program) (hdepth : 0 < env.depth)
    (howners : definitionsOwners env.path ds ⊆ definitionsOwners [] program)
    (hplaced : Env.Placed T.layout (.definitions ds :: env) used limit) :
    Inside T program (.definitions ds :: env) where
  coded ds' outer hsuffix := by
    rcases List.suffix_cons_iff.mp hsuffix with heq | hsuffix
    · cases heq
      exact ⟨code, hcode⟩
    · exact h.coded ds' outer hsuffix
  subset ds' outer hsuffix := by
    rcases List.suffix_cons_iff.mp hsuffix with heq | hsuffix
    · cases heq
      exact hsubset
    · exact h.subset ds' outer hsuffix
  top ds' outer hsuffix hzero := by
    rcases List.suffix_cons_iff.mp hsuffix with heq | hsuffix
    · cases heq
      omega
    · exact h.top ds' outer hsuffix hzero
  owners ds' outer hsuffix := by
    rcases List.suffix_cons_iff.mp hsuffix with heq | hsuffix
    · cases heq
      exact howners
    · exact h.owners ds' outer hsuffix
  parametersOwners head outer hsuffix := by
    rcases List.suffix_cons_iff.mp hsuffix with heq | hsuffix
    · cases heq
    · exact h.parametersOwners head outer hsuffix
  placed := ⟨used, limit, hplaced⟩

end Env.Inside

/-- The program as an environment. -/
theorem Translated.inside_program {program : Program} {T : Target} (h : Translated program T) :
    Env.Inside T program [.definitions program] where
  coded ds outer hsuffix := by
    rcases List.suffix_cons_iff.mp hsuffix with heq | hsuffix
    · cases heq
      exact ⟨[], h.describes.coded⟩
    · cases List.suffix_nil.mp hsuffix
  subset ds outer hsuffix := by
    rcases List.suffix_cons_iff.mp hsuffix with heq | hsuffix
    · cases heq
      exact fun d hd => mem_definitionsInside hd
    · cases List.suffix_nil.mp hsuffix
  top ds outer hsuffix _ := by
    rcases List.suffix_cons_iff.mp hsuffix with heq | hsuffix
    · cases heq
      rfl
    · cases List.suffix_nil.mp hsuffix
  owners ds outer hsuffix := by
    rcases List.suffix_cons_iff.mp hsuffix with heq | hsuffix
    · cases heq
      exact List.Subset.refl _
    · cases List.suffix_nil.mp hsuffix
  parametersOwners head outer hsuffix := by
    rcases List.suffix_cons_iff.mp hsuffix with heq | hsuffix
    · cases heq
    · cases List.suffix_nil.mp hsuffix
  placed := ⟨0, 0, .definitions .nil le_rfl h.placed le_rfl⟩

theorem mem_definitionsOwners {ds : List Definition} {outer : List NodeId} {d : Definition}
    (hd : d ∈ ds) {entry : NodeId × List NodeId} (hentry : entry ∈ d.owners outer) :
    entry ∈ definitionsOwners outer ds := by
  induction ds with
  | nil => cases hd
  | cons e ds ih =>
      rw [definitionsOwners]
      rcases List.mem_cons.mp hd with rfl | hd
      · exact List.mem_append_left _ hentry
      · exact List.mem_append_right _ (ih hd)

theorem eq_of_mem_nodup {ds : List Definition} (hnodup : (ds.map fun d => d.node.id).Nodup)
    {d e : Definition} (hd : d ∈ ds) (he : e ∈ ds) (hid : d.node.id = e.node.id) : d = e :=
  List.inj_on_of_nodup_map hnodup hd he hid

theorem Declares.arity {ds : List Definition} {names : List (String × Option String)}
    (h : Declares ds names) : ∀ declared ∈ names, ∃ head, Definition.func head [] ∈ ds ∧
      head.name.text = declared.1 ∧ head.parameters.length = declared.2.toList.length := by
  induction h with
  | nil => exact nofun
  | @cons head definitions declared others hname hlength _ ih =>
      intro declared' hmem
      rcases List.mem_cons.mp hmem with rfl | hmem
      · exact ⟨head, List.mem_cons_self, hname, hlength⟩
      · obtain ⟨head', hd, h⟩ := ih declared' hmem
        exact ⟨head', List.mem_cons_of_mem _ hd, h⟩

/-- Every system function is declared with the parameters that it takes. -/
theorem mem_systemNames (function : SystemFunction) : ∃ parameter,
    (function.name, parameter) ∈ systemNames ∧ parameter.toList.length = function.arity := by
  cases function
  · exact ⟨some "code", by simp [systemNames, SystemFunction.name], rfl⟩
  · exact ⟨none, by simp [systemNames, SystemFunction.name], rfl⟩
  · exact ⟨some "n", by simp [systemNames, SystemFunction.name], rfl⟩
  · exact ⟨none, by simp [systemNames, SystemFunction.name], rfl⟩
  · exact ⟨some "c", by simp [systemNames, SystemFunction.name], rfl⟩
  · exact ⟨some "s", by simp [systemNames, SystemFunction.name], rfl⟩
  · exact ⟨some "size", by simp [systemNames, SystemFunction.name], rfl⟩
  · exact ⟨some "ptr", by simp [systemNames, SystemFunction.name], rfl⟩

theorem SystemFunction.isPlain_name (function : SystemFunction) : IsPlain function.name := by
  cases function <;> exact ⟨by decide, by decide⟩

theorem SystemFunction.ofName?_eq_some {name : String} {function : SystemFunction}
    (h : ofName? name = some function) : function.name = name := by
  have := List.find?_some h
  simpa using this

namespace Translated

variable {program : Program} {T : Target}

theorem nodup_inside (h : Translated program T) :
    ((definitionsInside program).map fun d => d.node.id).Nodup :=
  (covered_definitionsInside program).nodup h.read.nodup_ids

/-- Top-level names are plain. -/
theorem isPlain_name (h : Translated program T) {d : Definition}
    (hd : d ∈ program) : IsPlain d.name.text := by
  have hwell : ∀ ds : List Definition, WellFormedDefinitions ds → d ∈ ds → d.WellFormed := by
    intro ds
    induction ds with
    | nil => exact fun _ hmem => by cases hmem
    | cons e ds ih =>
        intro hwell hmem
        rcases List.mem_cons.mp hmem with rfl | hmem
        · exact hwell.1
        · exact ih hwell.2 hmem
  have hd' := hwell program h.read.wellFormed hd
  cases d with
  | func head body => exact hd'.1.isPlain
  | var head => exact hd'.1.isPlain

/-- Two definitions at the top level with the same name are the same. -/
theorem eq_of_name (h : Translated program T) {d e : Definition}
    (hd : d ∈ program) (he : e ∈ program) (hname : d.name.text = e.name.text) : d = e :=
  List.inj_on_of_nodup_map (names_nodup h.nodup) hd he hname

end Translated

namespace Executable

variable {program : Program} {T : Target} {segments : Segments} {image : Image} {s : State}

/-- The code of a function stands in the image. -/
theorem function_holds (h : Executable program T segments image s) {id : NodeId} {code : Code}
    (hcode : T.fragments.functions[id]? = some code) :
    ∃ a : Int, 0 ≤ a ∧ a + Code.size code ≤ s.memory.dataStart ∧ image.Holds a code := by
  obtain ⟨main, exit, inner, _, _, hcollects, hsegments, _⟩ := Program.assemble_ok h.assembled
  obtain ⟨head, body, hmem, rfl⟩ := h.describes.functions id code hcode
  have hwithin := hcollects.functions head body hmem
  rw [hcode, Option.getD_some] at hwithin
  have hwithin' : code <:+: segments.code := by
    rw [hsegments]
    exact hwithin.trans (List.suffix_append _ _).isInfix
  obtain ⟨a, h₀, hsize, hholds⟩ := h.loaded.holds.infix hwithin'
  exact ⟨a, h₀, by rw [h.loaded.dataStart_eq]; omega, hholds⟩

/-- All data of a program have their sizes. -/
theorem data_fits (h : Executable program T segments image s) :
    ∀ d ∈ segments.data, d.item.Fits := by
  obtain ⟨main, exit, inner, _, _, hcollects, _, hsegments⟩ := Program.assemble_ok h.assembled
  exact fun d hd => (h.describes.datum hcollects (hsegments ▸ hd)).1

/-- The data of a variable are among those of the program. -/
theorem storage_within (h : Executable program T segments image s) {id : NodeId} {data : Data}
    (hdata : T.fragments.storage[id]? = some data) : data <:+: segments.data := by
  obtain ⟨main, exit, inner, _, _, hcollects, _, hsegments⟩ := Program.assemble_ok h.assembled
  obtain ⟨head, hmem, rfl⟩ := h.describes.storage id data hdata
  obtain ⟨data', hdata', hwithin⟩ := hcollects.storage head hmem
  rw [hdata] at hdata'
  cases hdata'
  rw [hsegments]
  exact hwithin.trans (List.prefix_append _ _).isInfix

/-- Data of a program stand somewhere behind its code. -/
theorem addressed_within (h : Executable program T segments image s) {data : Data}
    (hdata : data <:+: segments.data) :
    ∃ a : Int, s.memory.dataStart ≤ a ∧
      a + Data.size data ≤ Code.size segments.code + Data.size segments.data ∧
      ∀ entry ∈ addressed (fun d : Located Datum => d.item.size) a data,
        entry ∈ segments.addressedData (Code.size segments.code) := by
  obtain ⟨front, back, hsplit⟩ := hdata
  have hfits := h.data_fits
  rw [h.loaded.dataStart_eq]
  rw [← hsplit] at hfits ⊢
  have hfront : 0 ≤ Data.size front := Data.size_nonneg fun d hd => hfits d (by simp [hd])
  have hback : 0 ≤ Data.size back := Data.size_nonneg fun d hd => hfits d (by simp [hd])
  have hsizes : Data.size (front ++ data ++ back)
      = Data.size front + Data.size data + Data.size back := by
    simp [Data.size, add_assoc]
  refine ⟨Code.size segments.code + Data.size front, by omega, by omega, fun entry hentry => ?_⟩
  rw [Segments.addressedData, ← hsplit, addressed_append, addressed_append]
  exact List.mem_append_left _ (List.mem_append_right _ hentry)

theorem storage_addressed (h : Executable program T segments image s) {id : NodeId} {data : Data}
    (hdata : T.fragments.storage[id]? = some data) :
    ∃ a : Int, s.memory.dataStart ≤ a ∧
      a + Data.size data ≤ Code.size segments.code + Data.size segments.data ∧
      ∀ entry ∈ addressed (fun d : Located Datum => d.item.size) a data,
        entry ∈ segments.addressedData (Code.size segments.code) :=
  h.addressed_within (h.storage_within hdata)

/-- The text of a string constant is among the data of a program. -/
theorem string_within (h : Executable program T segments image s) {data : Data}
    (hdata : data ∈ T.fragments.strings) : data <:+: segments.data := by
  obtain ⟨main, exit, inner, _, _, hcollects, _, hsegments⟩ := Program.assemble_ok h.assembled
  rw [hsegments]
  exact (List.infix_of_mem_flatten hdata).trans (List.suffix_append _ _).isInfix

/-- A label that the code names but that is no label of a function with a body, no name of a
global and not numbered stands for a system function. -/
theorem system_label (h : Executable program T segments image s) {l : String} {a : Word}
    (hl : image.labels[l]? = some a) (hnumbered : ¬ IsNumbered l)
    (hfunctions : ∀ head body frame, .func head body ∈ definitionsInside program → body ≠ [] →
      T.layout.frames[head.id]? = some frame → l ≠ frame.label)
    (hglobals : ∀ head, .var head ∈ program → l ≠ head.name.text) :
    ∃ function : SystemFunction, function.name = l ∧ a = function.address := by
  obtain ⟨main, exit, inner, _, _, hcollects, hcode, hdata⟩ := Program.assemble_ok h.assembled
  have hsystem := h.loaded.system l (by
    intro i hi hitem
    rw [hcode] at hi
    rcases List.mem_append.mp hi with hi | hi
    · simp only [entryCode, Code.spanning, List.map_cons, List.map_nil, List.mem_cons,
        List.not_mem_nil, or_false] at hi
      rcases hi with rfl | rfl | rfl | rfl | rfl | rfl <;> cases hitem
    · rcases h.describes.label_code hcollects hi hitem with hn | ⟨head, body, frame, hmem, hbody,
        hframe, heq⟩
      · exact hnumbered hn
      · exact hfunctions head body frame hmem hbody hframe heq) (by
    intro d hd hitem
    rw [hdata] at hd
    rcases (h.describes.datum hcollects hd).2 l hitem with hn | ⟨head, hmem, heq⟩
    · exact hnumbered hn
    · exact hglobals head hmem heq)
  rw [hl] at hsystem
  obtain ⟨function, hname, haddress⟩ := Option.map_eq_some_iff.mp hsystem.symm
  exact ⟨function, SystemFunction.ofName?_eq_some hname, haddress.symm⟩

/-- The label of a function without a body stands for a system function if for anything. -/
theorem bodiless (h : Executable program T segments image s) {env : Env}
    (henv : env.Inside T program) {name : String} {meaning : Meaning} {head : FunctionHead}
    {frame : Frame} {a : Word} (hfind : env.find? name = some meaning)
    (hentity : meaning.entity = .function head [])
    (hframe : T.layout.frames[head.id]? = some frame)
    (hfits : frame.Fits meaning.home.depth head) (hl : image.labels[frame.label]? = some a) :
    .func head [] ∈ program ∧ ∃ function : SystemFunction, function.name = head.name.text ∧
      a = function.address ∧ head.parameters.length = function.arity := by
  obtain ⟨region, outer, hhome, hlookup⟩ := Env.find?_region hfind
  have hsuffix := (Env.find?_home hfind).1
  rw [hhome] at hsuffix
  rw [hentity] at hlookup
  have hregion : ∃ ds, region = .definitions ds ∧ Definition.func head [] ∈ ds := by
    cases region with
    | parameters head' =>
        obtain ⟨p, _, heq⟩ := List.mem_map.mp (mem_of_lookup hlookup)
        cases heq
    | definitions ds => exact ⟨ds, rfl, (mem_entities_function (mem_of_lookup hlookup)).1⟩
  obtain ⟨ds, rfl, hds⟩ := hregion
  have hinside : Definition.func head [] ∈ definitionsInside program :=
    henv.subset ds outer hsuffix hds
  have hfunctions : ∀ head' body frame', .func head' body ∈ definitionsInside program →
      body ≠ [] → T.layout.frames[head'.id]? = some frame' → frame.label ≠ frame'.label := by
    intro head' body frame' hmem hbody hframe' heq
    have hid := h.distinct _ _ _ _ hframe hframe' heq
    have := eq_of_mem_nodup h.nodup_inside hinside hmem hid
    cases this
    exact hbody rfl
  rw [hhome] at hfits
  by_cases hdepth : Env.depth (.definitions ds :: outer) = 0
  · have hprogram : ds = program :=
      henv.top ds outer hsuffix (by rwa [Env.depth_definitions] at hdepth)
    subst hprogram
    have hlabel : frame.label = head.name.text := hfits.label_top hdepth
    have hplain := h.isPlain_name hds
    obtain ⟨function, hname, haddress⟩ := h.system_label hl
      (fun hnumbered => (hlabel ▸ hplain : IsPlain frame.label).not_numbered hnumbered) hfunctions (by
        intro head' hmem heq
        have := h.eq_of_name hds hmem (hlabel.symm.trans heq)
        cases this)
    refine ⟨hds, function, hname.trans hlabel, haddress, ?_⟩
    obtain ⟨own, declared, hsplit, hdeclares⟩ := h.read.declares
    obtain ⟨parameter, hmem, harity⟩ := mem_systemNames function
    obtain ⟨head', hdeclared, hname', hlength⟩ := hdeclares.arity _ hmem
    have := h.eq_of_name (e := .func head' []) hds (hsplit ▸ List.mem_append_right own hdeclared)
      ((hname.trans hlabel).symm.trans hname'.symm)
    cases this
    rw [hlength, harity]
  · have hdotted : IsDotted frame.label := hfits.label_inside (by omega)
    obtain ⟨function, hname, _⟩ := h.system_label hl (fun hn => hn.not_dotted hdotted) hfunctions (by
      intro head' hmem heq
      exact (h.isPlain_name hmem).not_dotted (heq ▸ hdotted))
    exact absurd hdotted (hname ▸ function.isPlain_name.not_dotted)

end Executable

/-! ## Calls -/

namespace Executable

variable {program : Program} {T : Target} {segments : Segments} {image : Image} {s : State}

/-- What a name that a function is called by means: a function with its code in the image, or a
system function. -/
theorem callee (h : Executable program T segments image s) {env : Env}
    (henv : env.Inside T program) {name : String} {meaning : Meaning} {head : FunctionHead}
    {body : List Statement} {frame : Frame} {a : Word} (hfind : env.find? name = some meaning)
    (hentity : meaning.entity = .function head body)
    (hframe : T.layout.frames[head.id]? = some frame) (hl : image.labels[frame.label]? = some a) :
    frame.Fits meaning.home.depth head ∧
    ((body ≠ [] ∧ ∃ code, CodedStatements T (.parameters head :: meaning.home) true body code ∧
        T.fragments.functions[head.id]? = some (functionCode head frame code) ∧
        Env.Inside T program (.parameters head :: meaning.home) ∧
        .func head body ∈ definitionsInside program ∧
        (Definition.func head body).owners meaning.home.path ⊆ definitionsOwners [] program ∧
        Env.Placed T.layout (.parameters head :: meaning.home) 0 (frame.localsSize - 8) ∧
        PlacedStatements T.layout (meaning.home.depth + 1) 0 (frame.localsSize - 8) body ∧
        ∃ b : Int, 0 ≤ b ∧ a = .ofInt b ∧
          b + Code.size (functionCode head frame code) ≤ s.memory.dataStart ∧
          image.Holds b (functionCode head frame code)) ∨
      (body = [] ∧ .func head [] ∈ program ∧ ∃ function : SystemFunction,
        function.name = head.name.text ∧ a = function.address ∧ head.parameters.length = function.arity)) := by
  obtain ⟨used, limit, hplaced⟩ := henv.placed
  obtain ⟨frame', hframe', hfits, hparameters, hbody⟩ := hplaced.callee hfind hentity
  rw [hframe] at hframe'
  cases hframe'
  refine ⟨hfits, ?_⟩
  by_cases hempty : body = []
  · subst hempty
    exact .inr ⟨rfl, h.bodiless henv hfind hentity hframe hfits hl⟩
  · left
    obtain ⟨region, outer, hhome, hlookup⟩ := Env.find?_region hfind
    have hsuffix := (Env.find?_home hfind).1
    have hinside := henv.suffix hsuffix
    rw [hhome] at hsuffix
    rw [hentity] at hlookup
    cases region with
    | parameters head' =>
        obtain ⟨p, _, heq⟩ := List.mem_map.mp (mem_of_lookup hlookup)
        cases heq
    | definitions ds =>
        have hds := (mem_entities_function (mem_of_lookup hlookup)).1
        obtain ⟨code, hcode⟩ := henv.coded ds outer hsuffix
        obtain ⟨_, _, hcoded⟩ := hcode.mem hds
        obtain ⟨frame', c, hframe', hc, hfragment⟩ := hcoded hempty
        rw [hframe] at hframe'
        cases hframe'
        obtain ⟨b, h₀, hsize, hholds⟩ := h.function_holds hfragment
        have hlabel : image.labels[frame.label]? = some (.ofInt b) :=
          hholds _ List.mem_cons_self
        rw [hl] at hlabel
        have howners : (Definition.func head body).owners meaning.home.path
            ⊆ definitionsOwners [] program := by
          rw [hhome]
          exact fun entry hentry => henv.owners ds outer hsuffix (mem_definitionsOwners hds hentry)
        have hparametersOwners : ∀ p ∈ head.parameters,
            (p.id, head.id :: meaning.home.path) ∈ definitionsOwners [] program := fun p hp =>
          howners (List.mem_append_left _ (List.mem_cons_of_mem _ (List.mem_map_of_mem hp)))
        exact ⟨hempty, c, hhome ▸ hc, hfragment, hinside.parameters hparametersOwners hparameters,
          henv.subset ds outer hsuffix hds, howners, hparameters, hbody, b, h₀, Option.some.inj hlabel,
          hsize, hholds⟩

/-- The entry calls `main` and then `exit`. -/
theorem entry (h : Executable program T segments image s) :
    ∃ head body main exit, (Region.definitions program).entities.lookup "main"
        = some (.function head body) ∧ head.parameters = [] ∧
      T.layout.frames[head.id]? = some main ∧ main.Fits 0 head ∧
      (∃ a, image.labels[main.label]? = some a) ∧
      exit.label = "exit" ∧ image.labels["exit"]? = some SystemFunction.exit.address ∧
      exit.parametersSize = 8 ∧
      image.Holds 0 (entryCode main exit) ∧
      Code.size (entryCode main exit) ≤ s.memory.dataStart := by
  obtain ⟨head, body, hmain, hparameters⟩ := h.main
  obtain ⟨main, exit, inner, hmainFrame, hexitFrame, _, hcode, _⟩ :=
    Program.assemble_ok h.assembled
  have hplaced : Env.Placed T.layout [.definitions program] 0 0 :=
    .definitions .nil le_rfl h.placed le_rfl
  have hfind : ∀ {name : String} {entity : Entity},
      (Region.definitions program).entities.lookup name = some entity →
      Env.find? [.definitions program] name = some ⟨0, entity, [.definitions program]⟩ := by
    intro name entity hlookup
    rw [Env.find?, hlookup]
  obtain ⟨frame, hframe, hfits, _⟩ := hplaced.callee (hfind hmain) rfl
  obtain rfl := Program.frameNamed_ok h.nodup hmain hframe hmainFrame
  obtain ⟨own, declared, hsplit, hdeclares⟩ := h.read.declares
  obtain ⟨head', hdeclared, hname, hlength⟩ := hdeclares.arity ("exit", some "code")
    List.mem_cons_self
  have hexit : (Region.definitions program).entities.lookup "exit"
      = some (.function head' []) := by
    refine lookup_of_mem h.nodup ?_
    have := List.mem_map_of_mem (f := fun d : Definition => (d.name.text, d.entity))
      (hsplit ▸ List.mem_append_right own hdeclared)
    rwa [show (Definition.func head' []).name.text = "exit" from hname] at this
  obtain ⟨frame', hframe', hfits', _⟩ := hplaced.callee (hfind hexit) rfl
  obtain rfl := Program.frameNamed_ok h.nodup hexit hframe' hexitFrame
  have hholds := h.loaded.holds
  rw [hcode, Image.holds_append] at hholds
  have hcodeHolds := hholds.1
  simp only [entryCode, Code.spanning, List.map_cons, List.map_nil, Image.holds_cons] at hcodeHolds
  obtain ⟨_, ⟨_, hnamed⟩, _, _, ⟨_, a, ha⟩, _⟩ := hcodeHolds
  obtain ⟨-, function, hfunction, haddress, _⟩ := h.bodiless h.inside_program (hfind hexit) rfl hframe'
    hfits' ha
  have hfunction' : function = .exit := by
    rw [hname] at hfunction
    cases function <;> first | rfl | exact absurd hfunction (by decide)
  subst hfunction'
  have hsize := Code.size_nonneg inner.code
  have hlabel : exit.label = "exit" := (hfits'.label_top rfl).trans hname
  refine ⟨head, body, main, exit, hmain, hparameters, hframe, hfits, hnamed, hlabel,
    by rw [← hlabel, ha, haddress], ?_, hholds.1, ?_⟩
  · rw [hfits'.parametersSize_eq, hlength]
    rfl
  · rw [h.loaded.dataStart_eq, hcode, Code.size_append]
    omega

end Executable

end NestedFun
