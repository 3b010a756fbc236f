import NestedFun.Proofs.LayoutSuccess

namespace NestedFun

/-!
# Frames and their locals

The locals of a function fill its frame: every one lies right below the one before it, and the frame
ends where the last one does. The functions and blocks inside take their turn in source order, but what
belongs to a function inside is no local of the functions around it.
-/

/-! ## Functions and their locals -/

def Definition.variable? : Definition → Option Variable
  | .var head => some head
  | .func _ _ => none

mutual

/-- The variables of all blocks in a statement, in source order; those in functions are not among
them. -/
def Statement.locals : Statement → List Variable
  | .eval _ _ | .assign _ _ _ => []
  | .branch _ _ positive negative => statementsLocals positive ++ statementsLocals negative
  | .loop _ _ body => statementsLocals body
  | .block _ definitions body => definitions.filterMap Definition.variable? ++ statementsLocals body

def statementsLocals : List Statement → List Variable
  | [] => []
  | statement :: statements => statement.locals ++ statementsLocals statements

end

/-- A function, and how many functions it is nested in, itself among them. -/
structure NestedFunction where
  level : Nat
  head : FunctionHead
  body : List Statement

mutual

/-- All functions in a definition that stands in so many functions. -/
def Definition.functions (depth : Nat) : Definition → List NestedFunction
  | .func head body => ⟨depth + 1, head, body⟩ :: statementsFunctions (depth + 1) body
  | .var _ => []

def definitionsFunctions (depth : Nat) : List Definition → List NestedFunction
  | [] => []
  | definition :: definitions => definition.functions depth ++ definitionsFunctions depth definitions

def Statement.functions (depth : Nat) : Statement → List NestedFunction
  | .eval _ _ | .assign _ _ _ => []
  | .branch _ _ positive negative =>
    statementsFunctions depth positive ++ statementsFunctions depth negative
  | .loop _ _ body => statementsFunctions depth body
  | .block _ definitions body =>
    definitionsFunctions depth definitions ++ statementsFunctions depth body

def statementsFunctions (depth : Nat) : List Statement → List NestedFunction
  | [] => []
  | statement :: statements => statement.functions depth ++ statementsFunctions depth statements

end

def storageOf (vs : List Variable) : Nat := (vs.map Variable.storage).sum

@[simp] theorem storageOf_nil : storageOf [] = 0 := rfl

@[simp] theorem storageOf_cons (v : Variable) (vs : List Variable) :
    storageOf (v :: vs) = v.storage + storageOf vs := by
  simp [storageOf]

@[simp] theorem storageOf_append (vs ws : List Variable) :
    storageOf (vs ++ ws) = storageOf vs + storageOf ws := by
  simp [storageOf]

theorem Variable.cast_storage (head : Variable) : (head.storage : Int) = 4 * head.words.length := by
  rw [head.storage_eq]
  push_cast
  rfl

/-! ## Locals in a row -/

namespace Layout

/-- A local of a function at some depth stands so many bytes below the header of the frame. -/
def PlacesLocal (layout : Layout) (depth : Nat) (below : Int) (v : Variable) : Prop :=
  layout.accesses[v.id]? = some (.relative (-(8 + below)) depth v.storage (some (.ofVariable v)))

/-- Each variable stands right below the one before it; `before` counts the bytes above the first. -/
def Stacked (layout : Layout) (depth : Nat) (before : Int) : List Variable → Prop
  | [] => True
  | v :: vs => layout.PlacesLocal depth (before + v.storage) v ∧
      layout.Stacked depth (before + v.storage) vs

variable {layout : Layout} {depth : Nat} {before : Int}

theorem Stacked.append {vs ws : List Variable} (h : layout.Stacked depth before vs)
    (h' : layout.Stacked depth (before + storageOf vs) ws) :
    layout.Stacked depth before (vs ++ ws) := by
  induction vs generalizing before with
  | nil => simpa using h'
  | cons v vs ih =>
      refine ⟨h.1, ih h.2 ?_⟩
      rw [storageOf_cons, Nat.cast_add, ← add_assoc] at h'
      exact h'

/-- A variable stands below all those up to it. -/
theorem Stacked.getElem {vs : List Variable} (h : layout.Stacked depth before vs) {i : Nat}
    (hi : i < vs.length) :
    layout.PlacesLocal depth (before + storageOf (vs.take (i + 1))) vs[i] := by
  induction vs generalizing before i with
  | nil => cases hi
  | cons v vs ih =>
      cases i with
      | zero => simpa using h.1
      | succ i =>
          have hrest := ih h.2 (Nat.lt_of_succ_lt_succ hi)
          rw [List.take_succ_cons, storageOf_cons, Nat.cast_add, ← add_assoc]
          exact hrest

def Covers (layout : Layout) (v : Variable) (o : Int) : Prop :=
  ∃ offset depth size contents,
    layout.accesses[v.id]? = some (.relative offset depth size contents) ∧
      offset ≤ o ∧ o < offset + size

theorem PlacesLocal.covers_iff {below o : Int} {v : Variable}
    (h : layout.PlacesLocal depth below v) :
    layout.Covers v o ↔ -(8 + below) ≤ o ∧ o < -(8 + below) + v.storage := by
  constructor
  · rintro ⟨offset, depth', size, contents, haccess, hlow, hhigh⟩
    rw [h] at haccess
    cases haccess
    exact ⟨hlow, hhigh⟩
  · rintro ⟨hlow, hhigh⟩
    exact ⟨_, _, _, _, h, hlow, hhigh⟩

/-- Variables in a row leave no gap. -/
theorem Stacked.covers_iff {vs : List Variable} (h : layout.Stacked depth before vs) (o : Int) :
    (∃ v ∈ vs, layout.Covers v o) ↔ -(8 + before + storageOf vs) ≤ o ∧ o < -(8 + before) := by
  induction vs generalizing before with
  | nil =>
      rw [storageOf_nil]
      simp only [List.not_mem_nil, false_and, exists_false, false_iff]
      omega
  | cons v vs ih =>
      have hrest := ih h.2
      have hfirst : layout.Covers v o ↔ _ := h.1.covers_iff
      rw [storageOf_cons]
      simp only [List.mem_cons, exists_eq_or_imp, hfirst, hrest]
      omega

/-- Variables in a row do not overlap. -/
theorem Stacked.disjoint {vs : List Variable} (h : layout.Stacked depth before vs) :
    vs.Pairwise fun v w => ∀ o, layout.Covers v o → ¬ layout.Covers w o := by
  induction vs generalizing before with
  | nil => exact .nil
  | cons v vs ih =>
      refine .cons (fun w hw o hv hw' => ?_) (ih h.2)
      obtain ⟨hlow, hhigh⟩ := h.1.covers_iff.mp hv
      obtain ⟨-, hbelow⟩ := (h.2.covers_iff o).mp ⟨w, hw, hw'⟩
      omega

/-- Variables in a row are aligned if the first one has words only above it. -/
theorem Stacked.aligned {vs : List Variable} (h : layout.Stacked depth before vs)
    (hbefore : 4 ∣ before) {v : Variable} (hv : v ∈ vs) :
    ∃ below, layout.PlacesLocal depth below v ∧ 4 ∣ below ∧ 4 ∣ (v.storage : Int) := by
  induction vs generalizing before with
  | nil => cases hv
  | cons w vs ih =>
      have hstorage : 4 ∣ (w.storage : Int) := by
        rw [w.cast_storage]
        exact Dvd.intro _ rfl
      have hbelow := hbefore.add hstorage
      rcases List.mem_cons.mp hv with rfl | hv
      · exact ⟨_, h.1, hbelow, hstorage⟩
      · exact ih h.2 hbelow hv

end Layout

section

variable {layout : Layout} {depth : Nat} {before after : Int}

/-- The variables among placed definitions stand in a row. -/
theorem PlacedDefinitions.stacked {ds : List Definition}
    (h : PlacedDefinitions layout depth before after ds) (hdepth : depth ≠ 0) :
    layout.Stacked depth before (ds.filterMap Definition.variable?) ∧
      after = before + storageOf (ds.filterMap Definition.variable?) := by
  induction ds generalizing before with
  | nil => exact ⟨trivial, Eq.trans h (add_zero before).symm⟩
  | cons d ds ih =>
      obtain ⟨between, hd, hds⟩ := h
      obtain ⟨hrest, hafter⟩ := ih hds
      cases d with
      | func head body =>
          obtain ⟨rfl, -⟩ := hd
          exact ⟨hrest, hafter⟩
      | var head =>
          obtain ⟨-, hhead⟩ := hd
          rw [if_neg hdepth] at hhead
          obtain ⟨haccess, hbetween, -⟩ := hhead
          rw [← head.cast_storage] at haccess hbetween
          subst hbetween
          have hplaces : layout.PlacesLocal depth (before + head.storage) head := by
            rw [Layout.PlacesLocal, haccess]
            congr 2
            ring
          refine ⟨⟨hplaces, hrest⟩, ?_⟩
          rw [hafter]
          show _ = before + (storageOf (head :: ds.filterMap Definition.variable?) : Int)
          rw [storageOf_cons, Nat.cast_add, add_assoc]

mutual

theorem Statement.Placed.stacked {s : Statement} {before after : Int}
    (h : s.Placed layout depth before after) (hdepth : depth ≠ 0) :
    layout.Stacked depth before s.locals ∧ after = before + storageOf s.locals := by
  cases s with
  | eval node value => exact ⟨trivial, Eq.trans h (add_zero before).symm⟩
  | assign node target source => exact ⟨trivial, Eq.trans h (add_zero before).symm⟩
  | branch node condition positive negative =>
      obtain ⟨between, hpositive, hnegative⟩ := h
      obtain ⟨hp, rfl⟩ := PlacedStatements.stacked hpositive hdepth
      obtain ⟨hn, rfl⟩ := PlacedStatements.stacked hnegative hdepth
      refine ⟨hp.append hn, ?_⟩
      rw [Statement.locals, storageOf_append, Nat.cast_add, add_assoc]
  | loop node condition body =>
      have hbody : PlacedStatements layout depth before after body := h
      exact hbody.stacked hdepth
  | block node ds body =>
      obtain ⟨between, hds, hbody⟩ := h
      obtain ⟨hd, rfl⟩ := hds.stacked hdepth
      obtain ⟨hb, rfl⟩ := PlacedStatements.stacked hbody hdepth
      refine ⟨hd.append hb, ?_⟩
      rw [Statement.locals, storageOf_append, Nat.cast_add, add_assoc]

theorem PlacedStatements.stacked {ss : List Statement} {before after : Int}
    (h : PlacedStatements layout depth before after ss) (hdepth : depth ≠ 0) :
    layout.Stacked depth before (statementsLocals ss) ∧
      after = before + storageOf (statementsLocals ss) := by
  cases ss with
  | nil => exact ⟨trivial, Eq.trans h (add_zero before).symm⟩
  | cons s ss =>
      obtain ⟨between, hs, hss⟩ := h
      obtain ⟨hfirst, rfl⟩ := Statement.Placed.stacked hs hdepth
      obtain ⟨hrest, rfl⟩ := PlacedStatements.stacked hss hdepth
      refine ⟨hfirst.append hrest, ?_⟩
      rw [statementsLocals, storageOf_append, Nat.cast_add, add_assoc]

end

end

/-! ## Functions where they are placed -/

structure NestedFunction.Placed (layout : Layout) (f : NestedFunction) (frame : Frame) : Prop where
  frame_eq : layout.frames[f.head.id]? = some frame
  depth_eq : frame.depth = f.level
  parametersSize_eq : frame.parametersSize = 4 * (f.head.parameters.length + 1)
  parameters : ParametersPlaced layout f.level 4 f.head.parameters
  body : PlacedStatements layout f.level 0 (frame.localsSize - 8) f.body

mutual

theorem Definition.Placed.functions {layout : Layout} {depth : Nat} {before after : Int}
    {d : Definition} (h : d.Placed layout depth before after) {f : NestedFunction}
    (hf : f ∈ d.functions depth) : f.level ≠ 0 ∧ ∃ frame, f.Placed layout frame := by
  cases d with
  | var head => cases hf
  | func head body =>
      obtain ⟨-, frame, hframe, hfits, hparameters, hbody⟩ := h
      rcases List.mem_cons.mp hf with rfl | hf
      · refine ⟨depth.succ_ne_zero, frame, hframe, hfits.depth_eq, ?_, hparameters, hbody⟩
        rw [hfits.parametersSize_eq]
        ring
      · exact PlacedStatements.functions hbody hf

theorem PlacedDefinitions.functions {layout : Layout} {depth : Nat} {before after : Int}
    {ds : List Definition} (h : PlacedDefinitions layout depth before after ds) {f : NestedFunction}
    (hf : f ∈ definitionsFunctions depth ds) : f.level ≠ 0 ∧ ∃ frame, f.Placed layout frame := by
  cases ds with
  | nil => cases hf
  | cons d ds =>
      obtain ⟨between, hd, hds⟩ := h
      rcases List.mem_append.mp hf with hf | hf
      · exact Definition.Placed.functions hd hf
      · exact PlacedDefinitions.functions hds hf

theorem Statement.Placed.functions {layout : Layout} {depth : Nat} {before after : Int}
    {s : Statement} (h : s.Placed layout depth before after) {f : NestedFunction}
    (hf : f ∈ s.functions depth) : f.level ≠ 0 ∧ ∃ frame, f.Placed layout frame := by
  cases s with
  | eval node value => cases hf
  | assign node target source => cases hf
  | branch node condition positive negative =>
      obtain ⟨between, hpositive, hnegative⟩ := h
      rcases List.mem_append.mp hf with hf | hf
      · exact PlacedStatements.functions hpositive hf
      · exact PlacedStatements.functions hnegative hf
  | loop node condition body =>
      have hbody : PlacedStatements layout depth before after body := h
      exact PlacedStatements.functions hbody hf
  | block node ds body =>
      obtain ⟨between, hds, hbody⟩ := h
      rcases List.mem_append.mp hf with hf | hf
      · exact PlacedDefinitions.functions hds hf
      · exact PlacedStatements.functions hbody hf

theorem PlacedStatements.functions {layout : Layout} {depth : Nat} {before after : Int}
    {ss : List Statement} (h : PlacedStatements layout depth before after ss) {f : NestedFunction}
    (hf : f ∈ statementsFunctions depth ss) : f.level ≠ 0 ∧ ∃ frame, f.Placed layout frame := by
  cases ss with
  | nil => cases hf
  | cons s ss =>
      obtain ⟨between, hs, hss⟩ := h
      rcases List.mem_append.mp hf with hf | hf
      · exact Statement.Placed.functions hs hf
      · exact PlacedStatements.functions hss hf

end

/-- Each parameter stands a word above the one before it. -/
theorem ParametersPlaced.getElem {layout : Layout} {depth : Nat} {offset : Int}
    {ps : List Parameter} (h : ParametersPlaced layout depth offset ps) {i : Nat}
    (hi : i < ps.length) :
    layout.accesses[ps[i].id]? = some (.relative (offset + 4 * i) depth 4 none) := by
  induction ps generalizing offset i with
  | nil => cases hi
  | cons p ps ih =>
      cases i with
      | zero => simpa using h.1
      | succ i =>
          have hrest := ih h.2 (Nat.lt_of_succ_lt_succ hi)
          rw [List.getElem_cons_succ, hrest]
          congr 2
          push_cast
          ring

/-! ## Tiled frames -/

/-- The frame of a function has the depth of the function and room for just its parameters and its
locals. The locals fill the part below the header from top to bottom in source order, without gaps and
overlaps, and all of them are aligned. -/
structure NestedFunction.Tiles (layout : Layout) (f : NestedFunction) (frame : Frame) : Prop where
  frame_eq : layout.frames[f.head.id]? = some frame
  depth_eq : frame.depth = f.level
  parametersSize_eq : frame.parametersSize = 4 * (f.head.parameters.length + 1)
  parameter : ∀ (i : Nat) (h : i < f.head.parameters.length),
    layout.accesses[f.head.parameters[i].id]? = some (.relative (4 * (i + 1)) f.level 4 none)
  localsSize_eq : frame.localsSize = 8 + storageOf (statementsLocals f.body)
  place : ∀ (i : Nat) (h : i < (statementsLocals f.body).length),
    layout.PlacesLocal f.level (storageOf ((statementsLocals f.body).take (i + 1)))
      (statementsLocals f.body)[i]
  covers_iff : ∀ o : Int, (∃ v ∈ statementsLocals f.body, layout.Covers v o) ↔
    -frame.localsSize ≤ o ∧ o < -8
  disjoint : (statementsLocals f.body).Pairwise fun v w =>
    ∀ o, layout.Covers v o → ¬ layout.Covers w o
  aligned : ∀ v ∈ statementsLocals f.body, ∃ below,
    layout.PlacesLocal f.level below v ∧ 4 ∣ below ∧ 4 ∣ (v.storage : Int)

theorem NestedFunction.Placed.tiles {layout : Layout} {f : NestedFunction} {frame : Frame}
    (h : f.Placed layout frame) (hlevel : f.level ≠ 0) : f.Tiles layout frame := by
  obtain ⟨hstacked, hsize⟩ := h.body.stacked hlevel
  rw [zero_add] at hsize
  have hcovers := hstacked.covers_iff
  simp only [add_zero] at hcovers
  refine ⟨h.frame_eq, h.depth_eq, h.parametersSize_eq, fun i hi => ?_, by omega, fun i hi => ?_,
    fun o => ?_, hstacked.disjoint, fun v hv => hstacked.aligned (dvd_zero 4) hv⟩
  · rw [h.parameters.getElem hi]
    congr 2
    ring
  · have hplace := hstacked.getElem hi
    rwa [zero_add] at hplace
  · rw [hcovers]
    omega

/-- A layout has entries for the functions, the parameters and the variables of a program and for
nothing else; the frames of the functions are tiled, and globals are found by their own names. -/
structure Layout.Tiles (layout : Layout) (program : Program) : Prop where
  mem_frames : ∀ id, id ∈ layout.frames ↔ ∃ d ∈ definitionsInside program, id ∈ d.framed
  mem_accesses : ∀ id, id ∈ layout.accesses ↔ ∃ d ∈ definitionsInside program, id ∈ d.stored
  distinct : ((definitionsInside program).flatMap fun d => d.framed ++ d.stored).Nodup
  functions : ∀ f ∈ definitionsFunctions 0 program, ∃ frame, f.Tiles layout frame
  globals : ∀ head, .var head ∈ program → layout.accesses[head.id]?
    = some (.absolute head.name.text head.storage (.ofVariable head))

/-- Only functions of the program have frames. -/
theorem Layout.Tiles.function_of_frame {layout : Layout} {program : Program}
    (h : layout.Tiles program) {id : NodeId} {frame : Frame}
    (hframe : layout.frames[id]? = some frame) :
    ∃ head body, .func head body ∈ definitionsInside program ∧ head.id = id := by
  obtain ⟨d, hd, hid⟩ := (h.mem_frames id).mp
    (Std.TreeMap.mem_iff_isSome_getElem?.mpr (by rw [hframe]; rfl))
  cases d with
  | var head => cases hid
  | func head body => exact ⟨head, body, hd, (List.mem_singleton.mp hid).symm⟩

/-- Everything in a program that was laid out has its place. -/
theorem Program.layOut_places {text : List Char} {program : Program} {resolution : Resolution}
    {layout : Layout} (h : Program.parse text = .ok program)
    (hresolve : program.resolve = .ok resolution) (hlayout : program.layOut = .ok layout) :
    ∃ after, PlacedDefinitions layout 0 0 after program := by
  obtain ⟨r, -, hnumbered⟩ := Program.numbered h
  have hnodup : (definitionIds program).Nodup := hnumbered.ids_eq ▸ List.nodup_range
  obtain ⟨hnames, -, -⟩ := program.resolve_bound hnodup hresolve
  exact (program.layOut_placed hlayout (Program.wellFormed_of_parse h) hnodup
    (names_nodup hnames)).1

theorem Program.layout_tiles {text : List Char} {program : Program} {resolution : Resolution}
    {layout : Layout} (h : Program.parse text = .ok program)
    (hresolve : program.resolve = .ok resolution) (hlayout : program.layOut = .ok layout) :
    layout.Tiles program := by
  obtain ⟨r, -, hnumbered⟩ := Program.numbered h
  obtain ⟨after, hplaced⟩ := Program.layOut_places h hresolve hlayout
  obtain ⟨state, hstate, hend⟩ := bind_eq_ok hlayout
  cases hend
  have hfills := layOutDefinitions_fills program hstate
  refine ⟨fun id => ?_, fun id => ?_, ?_, fun f hf => ?_, fun head hhead => ?_⟩
  · simpa using hfills.mem_frames id
  · simpa using hfills.mem_accesses id
  · rw [← map_definitionsOwners]
    exact hnumbered.nodup_declared
  · obtain ⟨hlevel, frame, hframe⟩ := hplaced.functions hf
    exact ⟨frame, hframe.tiles hlevel⟩
  · obtain ⟨before, after, ⟨-, hglobal⟩, -⟩ := hplaced.mem hhead
    rw [if_pos rfl, ← head.cast_storage] at hglobal
    exact hglobal.1

/-- What was laid out could be counted. -/
theorem Program.counted_of_layOut {text : List Char} {program : Program} {resolution : Resolution}
    {layout : Layout} (h : Program.parse text = .ok program)
    (hresolve : program.resolve = .ok resolution) (hlayout : program.layOut = .ok layout) :
    ∀ d ∈ definitionsInside program, d.Counted := by
  intro d hd
  obtain ⟨after, hplaced⟩ := Program.layOut_places h hresolve hlayout
  obtain ⟨depth, low, high, hd, -⟩ := hplaced.inside le_rfl hd
  cases d with
  | var head => exact hd.1.words_le
  | func head body =>
      obtain ⟨-, frame, -, hfits, -⟩ := hd
      have hlt := hfits.parametersSize_lt
      rw [hfits.parametersSize_eq] at hlt
      rw [Definition.Counted, wordBound]
      omega

/-- A program that was read and resolves can be laid out just if its encodings and its parameters
can be counted. The layout tiles all frames. -/
theorem Program.frames_tiled {text : List Char} {program : Program} {resolution : Resolution}
    (h : Program.parse text = .ok program) (hresolve : program.resolve = .ok resolution) :
    ((∃ layout, program.layOut = .ok layout) ↔ ∀ d ∈ definitionsInside program, d.Counted) ∧
    ∀ layout, program.layOut = .ok layout → layout.Tiles program := by
  refine ⟨⟨?_, fun hcounted => ?_⟩, fun layout => Program.layout_tiles h hresolve⟩
  · rintro ⟨layout, hlayout⟩
    exact Program.counted_of_layOut h hresolve hlayout
  · exact program.layOut_succeeds hresolve
      ⟨hcounted, fun head hhead => Program.wellFormed_initializers h hhead⟩

def branchingSample : List Char :=
  ("fun f(n) = if n then let var x = 2 * 7 fun g() = let var y = 1 in y end in g() end " ++
    "else let var z = \"ab\" in n end end fun main() = f(1)").toList

theorem Program.frames_tiled_sample : ∃ program resolution layout,
    Program.parse branchingSample = .ok program ∧ program.resolve = .ok resolution ∧
      program.layOut = .ok layout ∧ (∀ d ∈ definitionsInside program, d.Counted) ∧
      layout.Tiles program ∧ ((definitionsFunctions 0 program).map fun f =>
        (f.head.name.text, f.level, (statementsLocals f.body).map Variable.storage))
        = [("f", 1, [8, 8]), ("g", 2, [4]), ("main", 1, [])] := by
  have hchecks : (Program.parse branchingSample).toOption.any (fun program =>
      (Program.resolve program).toOption.isSome && program.layOut.toOption.isSome &&
        decide (((definitionsFunctions 0 program).map fun f =>
          (f.head.name.text, f.level, (statementsLocals f.body).map Variable.storage))
            = [("f", 1, [8, 8]), ("g", 2, [4]), ("main", 1, [])])) = true := by
    decide +kernel
  obtain ⟨program, hread, hprogram⟩ := (Option.any_eq_true _ _).mp hchecks
  obtain ⟨hpasses, hfunctions⟩ := Bool.and_eq_true_iff.mp hprogram
  obtain ⟨hresolves, hlaysOut⟩ := Bool.and_eq_true_iff.mp hpasses
  obtain ⟨resolution, hresolution⟩ := Option.isSome_iff_exists.mp hresolves
  obtain ⟨layout, hlayout⟩ := Option.isSome_iff_exists.mp hlaysOut
  have hparse := toOption_eq_some hread
  have hresolve := toOption_eq_some hresolution
  obtain ⟨hiff, htiles⟩ := Program.frames_tiled hparse hresolve
  exact ⟨program, resolution, layout, hparse, hresolve, toOption_eq_some hlayout,
    hiff.mp ⟨layout, toOption_eq_some hlayout⟩, htiles layout (toOption_eq_some hlayout),
    of_decide_eq_true hfunctions⟩

/-- A program that resolves cannot be laid out if a constant is too long to be counted. -/
theorem Program.frames_missing : ∃ program resolution,
    Program.parse (idleText (longConstant wordBound)) = .ok program ∧
      program.resolve = .ok resolution ∧ ∀ layout, program.layOut ≠ .ok layout := by
  obtain ⟨head, main, hparse, hidle⟩ := Program.parse_idleText (decodes_longConstant wordBound)
  obtain ⟨resolution, hresolve⟩ := hidle.resolves
  refine ⟨_, resolution, hparse, hresolve, fun layout hlayout => ?_⟩
  have hcounted : (Contents.ofVariable head).words.length ≤ wordBound + 2 :=
    Program.counted_of_layOut hparse hresolve hlayout (.var head)
      (mem_definitionsInside List.mem_cons_self)
  rw [hidle.length_words, List.length_replicate] at hcounted
  omega

end NestedFun
