import NestedFun.Proofs.LoadOutcome
import NestedFun.Proofs.Surroundings

namespace NestedFun

/-!
# Labels of a program

Every function has a label, and no two have the same. The labels that the segments of a program
define are all different: names at the top level are plain, functions inside others have dotted
labels, and numbered labels have a colon.
-/

/-- Every function inside has a frame, and below the given depth only if it is one of the
definitions. -/
theorem PlacedDefinitions.frame {ds : List Definition} {layout : Layout} {depth : Nat}
    {before after : Int} (h : PlacedDefinitions layout depth before after ds) (hbefore : 0 ≤ before)
    {head : FunctionHead} {body : List Statement} (hmem : .func head body ∈ definitionsInside ds) :
    ∃ frame depth', layout.frames[head.id]? = some frame ∧ frame.Fits depth' head ∧
      (.func head body ∈ ds ∧ depth' = depth ∨ 0 < depth') := by
  obtain ⟨depth', b, a, ⟨-, frame, hframe, hfits, -⟩, -, hdepth⟩ := h.inside hbefore hmem
  exact ⟨frame, depth', hframe, hfits, hdepth⟩

theorem mem_functionLabels {layout : Layout} {ds : List Definition} {l : String} :
    l ∈ functionLabels layout ds ↔ ∃ head body frame, .func head body ∈ ds ∧ body ≠ [] ∧
      layout.frames[head.id]? = some frame ∧ l = frame.label := by
  rw [functionLabels, List.mem_filterMap]
  constructor
  · rintro ⟨⟨head, body⟩ | head, hd, hl⟩
    · rw [Definition.functionLabel?] at hl
      split at hl
      · cases hl
      · rename_i hbody
        obtain ⟨frame, hframe, rfl⟩ := Option.map_eq_some_iff.mp hl
        exact ⟨head, body, frame, hd, by simpa using hbody, hframe, rfl⟩
    · cases hl
  · rintro ⟨head, body, frame, hmem, hbody, hframe, rfl⟩
    refine ⟨_, hmem, ?_⟩
    rw [Definition.functionLabel?, if_neg (by simpa using hbody), hframe]
    rfl

theorem mem_variableNames {ds : List Definition} {l : String} :
    l ∈ ds.filterMap Definition.variableName? ↔ ∃ head, .var head ∈ ds ∧ l = head.name.text := by
  rw [List.mem_filterMap]
  constructor
  · rintro ⟨⟨head, body⟩ | head, hd, hl⟩
    · cases hl
    · cases hl
      exact ⟨head, hd, rfl⟩
  · rintro ⟨head, hd, rfl⟩
    exact ⟨_, hd, rfl⟩

namespace Translated

variable {program : Program} {T : Target} (h : Translated program T)

include h

/-- A function at the top level is labelled by its name, and one inside others by a path. -/
theorem frame {head : FunctionHead} {body : List Statement}
    (hmem : .func head body ∈ definitionsInside program) :
    ∃ frame, T.layout.frames[head.id]? = some frame ∧
      (.func head body ∈ program ∧ frame.label = head.name.text ∨ IsDotted frame.label) := by
  obtain ⟨frame, depth, hframe, hfits, ⟨hprogram, hdepth⟩ | hdepth⟩ :=
    h.placed.frame le_rfl hmem
  · exact ⟨frame, hframe, .inl ⟨hprogram, hfits.label_top hdepth⟩⟩
  · exact ⟨frame, hframe, .inr (hfits.label_inside hdepth)⟩

/-- The label of a function at the top level is its name. -/
theorem label_top {head : FunctionHead} {body : List Statement} (hmem : .func head body ∈ program)
    {frame : Frame} (hframe : T.layout.frames[head.id]? = some frame) :
    frame.label = head.name.text := by
  obtain ⟨before, after, ⟨-, frame', hframe', hfits, -⟩, -⟩ := h.placed.mem hmem
  cases hframe.symm.trans hframe'
  exact hfits.label_top rfl

theorem nodup_functionLabels : (functionLabels T.layout (definitionsInside program)).Nodup := by
  have hlabels : ∀ (d : Definition) l, d.functionLabel? T.layout = some l → ∃ frame : Frame,
      T.layout.frames[d.node.id]? = some frame ∧ frame.label = l := by
    rintro (⟨head, body⟩ | head) l hl
    · rw [Definition.functionLabel?] at hl
      split at hl
      · cases hl
      · exact Option.map_eq_some_iff.mp hl
    · cases hl
  rw [functionLabels, List.Nodup, List.pairwise_filterMap]
  refine (List.pairwise_map.mp h.nodup_inside).imp ?_
  rintro d e hne l hl l' hl' rfl
  obtain ⟨frame, hframe, hlabel⟩ := hlabels d l hl
  obtain ⟨frame', hframe', hlabel'⟩ := hlabels e l hl'
  exact hne (h.distinct _ _ _ _ hframe hframe' (hlabel.trans hlabel'.symm))

theorem nodup_variableNames : (program.filterMap Definition.variableName?).Nodup := by
  have hnames : ∀ (d : Definition) l, d.variableName? = some l → d.name.text = l := by
    rintro (⟨head, body⟩ | head) l hl
    · cases hl
    · exact Option.some.inj hl
  rw [List.Nodup, List.pairwise_filterMap]
  refine (List.pairwise_map.mp (names_nodup h.nodup)).imp ?_
  rintro d e hne l hl l' hl' rfl
  exact hne ((hnames d l hl).trans (hnames e l hl').symm)

/-- Functions and globals do not share labels. -/
theorem functionLabel_ne {head : FunctionHead} {body : List Statement} {frame : Frame}
    (hmem : .func head body ∈ definitionsInside program)
    (hframe : T.layout.frames[head.id]? = some frame) {global : Variable}
    (hglobal : .var global ∈ program) : frame.label ≠ global.name.text := by
  intro heq
  obtain ⟨frame', hframe', ⟨hprogram, hlabel⟩ | hdotted⟩ := h.frame hmem
  · cases hframe.symm.trans hframe'
    cases h.eq_of_name hprogram hglobal (hlabel.symm.trans heq)
  · cases hframe.symm.trans hframe'
    exact (h.isPlain_name hglobal).not_dotted (heq ▸ hdotted)

theorem not_numbered {head : FunctionHead} {body : List Statement} {frame : Frame}
    (hmem : .func head body ∈ definitionsInside program)
    (hframe : T.layout.frames[head.id]? = some frame) : ¬ IsNumbered frame.label := by
  obtain ⟨frame', hframe', ⟨hprogram, hlabel⟩ | hdotted⟩ := h.frame hmem
  · cases hframe.symm.trans hframe'
    exact hlabel ▸ (h.isPlain_name hprogram).not_numbered
  · cases hframe.symm.trans hframe'
    exact fun hnumbered => hnumbered.not_dotted hdotted

/-- Numbered labels and the labels of functions and globals are all different. -/
theorem nodup_all_labels (n : Nat) (uses : List LabelUse) :
    (labelsFrom n uses ++ (functionLabels T.layout (definitionsInside program) ++
      program.filterMap Definition.variableName?)).Nodup := by
  refine List.nodup_append.mpr ⟨nodup_labelsFrom n uses, List.nodup_append.mpr
    ⟨h.nodup_functionLabels, h.nodup_variableNames, ?_⟩, ?_⟩
  · intro l hl l' hl' heq
    obtain ⟨head, body, frame, hmem, -, hframe, rfl⟩ := mem_functionLabels.mp hl
    obtain ⟨global, hglobal, rfl⟩ := mem_variableNames.mp hl'
    exact h.functionLabel_ne hmem hframe hglobal heq
  · rintro l hl l' hl' rfl
    have hnumbered := isNumbered_of_mem_labelsFrom hl
    rcases List.mem_append.mp hl' with hl' | hl'
    · obtain ⟨head, body, frame, hmem, -, hframe, rfl⟩ := mem_functionLabels.mp hl'
      exact h.not_numbered hmem hframe hnumbered
    · obtain ⟨global, hglobal, rfl⟩ := mem_variableNames.mp hl'
      exact (h.isPlain_name hglobal).not_numbered hnumbered

/-- The labels of a program are all different. -/
theorem nodup_labels {segments : Segments} {main exit : Frame} {uses : List LabelUse}
    (hlabelled : segments.Labelled program T.context main exit uses) : segments.labels.Nodup := by
  rw [hlabelled.labels.nodup_iff]
  exact h.nodup_all_labels 0 uses

end Translated

end NestedFun
