import NestedFun.Proofs.Acceptance
import NestedFun.Proofs.MachineHeights
import NestedFun.Proofs.PhraseCode
import NestedFun.Proofs.SegmentContents

namespace NestedFun

/-!
# Heights of the stack in programs

Every function of a program that was read and resolved is generated with a consistent height of the
stack at all positions.
-/

/-- The constants of a translated program are single words, and its calls pass as many arguments as
functions take. -/
theorem Translated.counts {program : Program} {T : Target} (h : Translated program T)
    {head : FunctionHead} {e : Expression} (huse : (head, e) ∈ definitionsUses program) :
    T.context.Counts e := by
  cases e with
  | literal node value =>
      have hread := isRead_definitionsUses h.read.nodup_ids h.read.wellFormed huse
      exact fun hkind => Literal.WellFormed.length_words hread.wellFormed hkind
  | call node name arguments =>
      intro frame hcallee
      obtain ⟨env, hinside, -, hbound⟩ := h.expression_stands huse
      obtain ⟨⟨meaning, callee, body, hfind, hentity, hlength, htable⟩, -⟩ := hbound
      rw [Context.calleeOf, Context.definitionOf_ok htable] at hcallee
      obtain ⟨frame', depth, hframe, hfits, -⟩ :=
        h.placed.frame le_rfl (hinside.function hfind hentity)
      cases (Layout.getElem?_of_frame hcallee).symm.trans hframe
      rw [hfits.parametersSize_eq, hlength]
  | name node name => trivial
  | unary node operator operand => trivial
  | binary node operator left right => trivial

theorem Code.length_instructions (code : Code) : code.instructions.length = code.length :=
  List.length_map _

theorem Code.infix_functionCode (head : FunctionHead) (frame : Frame) (code : Code) :
    code <:+: functionCode head frame code :=
  List.infix_append _ _ _

theorem Code.filterMap_label?_instructions (code : Code) :
    code.instructions.filterMap Instruction.label? = code.labels := by
  rw [instructions, List.filterMap_map]
  rfl

namespace Program.GeneratedFrom

variable {program : Program} {context : Context} {n : Nat} {fragments : Fragments}

/-- The labels in the code of a function are all different. -/
theorem nodup_function_labels (h : program.GeneratedFrom context n fragments) {id : NodeId}
    {code : Code} (hcode : fragments.functions[id]? = some code) : code.labels.Nodup := by
  obtain ⟨u, g, hrun, -, hperm, -⟩ := h.run
  have hglobals : ∀ head, .var head ∈ program → ∃ size contents,
      context.layout.accesses[head.id]? = some (.absolute head.name.text size contents) := by
    intro head hhead
    obtain ⟨before, after, hvariable, -, -⟩ := h.translated.placed.mem hhead
    exact ⟨_, _, hvariable.2.1⟩
  obtain ⟨uses, -, hdefines⟩ := (forM_emit_emits program hglobals hrun).defines
  have hdefined : g.defined.Nodup := by
    rw [Code.labels_nil, List.append_nil] at hdefines
    exact hdefines.nodup_iff.mpr (h.translated.nodup_all_labels n uses)
  have hentry := hperm.mem_iff.mp (Std.TreeMap.mem_toList_iff_getElem?_eq_some.mpr hcode)
  have hsublist : code.Sublist g.code :=
    List.sublist_flatten_of_mem (List.mem_map.mpr ⟨(id, code), hentry, rfl⟩)
  exact hdefined.of_append_left.sublist (hsublist.filterMap _)

end Program.GeneratedFrom

/-- The code of a function of a program: it has heights at all positions, to which the machine keeps,
it calls functions of the program, whose frames hold as many parameters as they take, and everything
in the body stands where the height changes by as much as it should. -/
structure Context.Balances (context : Context) (program : Program) (body : List Statement)
    (frame : Frame) (code : Code) (height : Nat → Int) : Prop where
  heights : frame.Balances code.instructions height
  machine : ∀ image, frame.KeepsHeights code.instructions height image
  calls : ∀ callee, .call callee ∈ code.instructions →
    ∃ (head : FunctionHead) (inner : List Statement),
      .func head inner ∈ definitionsInside program ∧
        context.layout.frames[head.id]? = some callee ∧
        callee.parametersSize = 4 * head.parameters.length + 4
  phrases : ∀ phrase ∈ statementsPhrases true body, ∃ before part behind : Code,
    code = before ++ part ++ behind ∧ phrase.Generates context frame part ∧
      height (before.length + part.length) = height before.length + phrase.growth

theorem Frame.call_around {frame callee : Frame} {body : List Instruction}
    (h : .call callee ∈ frame.around body) : .call callee ∈ body := by
  simpa [Frame.around, Frame.prologue] using h

theorem Program.GeneratedFrom.function_balances {program : Program} {context : Context} {n : Nat}
    {fragments : Fragments} (h : program.GeneratedFrom context n fragments)
    (htiles : context.layout.Tiles program) {head : FunctionHead} {body : List Statement}
    (hmem : .func head body ∈ definitionsInside program) (hbody : body ≠ []) :
    ∃ frame code height, context.layout.frames[head.id]? = some frame ∧
      fragments.functions[head.id]? = some code ∧
      context.Balances program body frame code height := by
  obtain ⟨frame, inner, g, g', hframe, hrun, hcode⟩ := h.function_code hmem hbody
  obtain ⟨env, hstands⟩ := h.translated.function_stands hmem hbody
  obtain ⟨frame', -, hframe', hfits, hsize, -, -⟩ := hstands.code
  cases hframe.symm.trans hframe'
  have hcounts : ∀ use ∈ statementsUses head body, context.Counts use.2 :=
    fun use huse => h.translated.counts (definitionsUses_of_inside hmem huse)
  have hrises : Rises context.layout inner.instructions 4 :=
    generateStatements_rises body hcounts hrun
  have hnodup := h.nodup_function_labels hcode
  rw [← Code.filterMap_label?_instructions, Code.instructions_functionCode] at hnodup
  have hheader : headerSize = 8 := rfl
  obtain ⟨height, hheights, hparts⟩ :=
    @Rises.balances_around _ _ frame hrises (by omega) hfits.localsSize_lt hnodup
  rw [← Code.instructions_functionCode head] at hheights
  refine ⟨frame, functionCode head frame inner, height, hframe, hcode, hheights,
    hheights.keepsHeights, ?_, ?_⟩
  · intro callee hcallee
    rw [Code.instructions_functionCode] at hcallee
    obtain ⟨id, hid⟩ := hrises.1 _ (Frame.call_around hcallee)
    obtain ⟨head', inner', hmem', rfl⟩ := htiles.function_of_frame hid
    obtain ⟨frame', depth, hframe', hfits', -⟩ := h.translated.placed.frame le_rfl hmem'
    cases hid.symm.trans hframe'
    exact ⟨head', inner', hmem', hid, hfits'.parametersSize_eq⟩
  · intro phrase hphrase
    obtain ⟨part, hwithin, hgenerates, hpart⟩ :=
      generateStatements_contain body hcounts hrun hphrase
    obtain ⟨before, behind, hsplit⟩ : ∃ before behind : Code,
        before ++ part ++ behind = functionCode head frame inner :=
      hwithin.trans (Code.infix_functionCode head frame inner)
    have hheight := hparts before.instructions behind.instructions part.instructions phrase.growth
      (by rw [← Code.instructions_functionCode head, ← hsplit, Code.instructions_append,
        Code.instructions_append]) hpart
    rw [Code.length_instructions, Code.length_instructions] at hheight
    exact ⟨before, part, behind, hsplit.symm, hgenerates, hheight⟩

/-- The functions of every program that was read, resolved and laid out have a consistent height of
the stack. -/
theorem Analysis.balances {source : Source} {analysis : Analysis} {layout : Layout}
    (hanalyze : analyze source.withSystemDeclarations = .ok analysis)
    (hlayout : analysis.program.layOut = .ok layout) : ∃ fragments labels,
    analysis.program.generate ⟨analysis.resolution.definitions, layout⟩ {}
        = .ok (fragments, labels) ∧
      ∀ head body, .func head body ∈ definitionsInside analysis.program → body ≠ [] →
        ∃ frame code height, layout.frames[head.id]? = some frame ∧
          fragments.functions[head.id]? = some code ∧
          Context.Balances ⟨analysis.resolution.definitions, layout⟩ analysis.program body frame
            code height := by
  obtain ⟨fragments, hgenerated⟩ := Analysis.generatedFrom hanalyze hlayout 0
  obtain ⟨program, hprogram, hrest⟩ := bind_eq_ok hanalyze
  obtain ⟨resolution, hresolution, hlast⟩ := bind_eq_ok hrest
  cases hlast
  exact ⟨fragments, _, hgenerated.generate, fun head body hmem hbody =>
    hgenerated.function_balances (Program.layout_tiles hprogram hresolution hlayout) hmem hbody⟩

/-- A loop around a call of a function inside another, which branches and writes through a
pointer. -/
def balanceSample : Source :=
  ⟨"fun main()=let var x=3 fun f(p)=if p^ then p^=p^-1 else p end in while x do f(^x) end,x end",
    .memory⟩

theorem Analysis.balances_sample : ∃ analysis layout fragments labels,
    analyze balanceSample.withSystemDeclarations = .ok analysis ∧
      analysis.program.layOut = .ok layout ∧
      analysis.program.generate ⟨analysis.resolution.definitions, layout⟩ {}
        = .ok (fragments, labels) ∧
      (∀ head body, .func head body ∈ definitionsInside analysis.program → body ≠ [] →
        ∃ frame code height, layout.frames[head.id]? = some frame ∧
          fragments.functions[head.id]? = some code ∧
          Context.Balances ⟨analysis.resolution.definitions, layout⟩ analysis.program body frame
            code height) ∧
      (analysis.program.functionHeads.map fun head => head.name.text) = ["main", "f"] := by
  have hchecks : (analyze balanceSample.withSystemDeclarations).toOption.any
      (fun analysis : Analysis => analysis.program.layOut.toOption.isSome ∧
        (analysis.program.functionHeads.map fun head => head.name.text) = ["main", "f"])
        = true := by
    rw [analyze_spelled balanceSample rfl (by decide +kernel)]
    decide +kernel
  obtain ⟨analysis, hanalyze, hchecks⟩ := (Option.any_eq_true _ _).mp hchecks
  obtain ⟨hsome, hfunctions⟩ := of_decide_eq_true hchecks
  obtain ⟨layout, hlayout⟩ := Option.isSome_iff_exists.mp hsome
  obtain ⟨fragments, labels, hgenerate, hbalances⟩ :=
    Analysis.balances (toOption_eq_some hanalyze) (toOption_eq_some hlayout)
  exact ⟨analysis, layout, fragments, labels, toOption_eq_some hanalyze, toOption_eq_some hlayout,
    hgenerate, hbalances, hfunctions⟩

end NestedFun
