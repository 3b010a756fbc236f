import NestedFun.Proofs.Emission
import NestedFun.Proofs.Executable

namespace NestedFun

/-!
# Segments and their fragments

The segments of a program hold the code of every function once, a function before those nested in
it, then the data of every variable once, in source order, and then the strings. So the labels that
the segments define are those that generating has defined.
-/

/-- Definitions pick every entry of a table once. -/
theorem flatMap_table_perm {β : Type} {ds : List Definition} {entries : List (NodeId × List β)}
    {table : Std.TreeMap NodeId (List β)} (key : Definition → Option NodeId)
    (hkey : ∀ d id, key d = some id → id = d.node.id)
    (hnodup : (ds.map fun d => d.node.id).Nodup) (hkeys : (entries.map Prod.fst).Nodup)
    (hcovered : ∀ entry ∈ entries, ∃ d ∈ ds, key d = some entry.1)
    (htable : ∀ id items, table[id]? = some items ↔ (id, items) ∈ entries) :
    (ds.flatMap fun d => ((key d).bind fun id => table[id]?).getD []).Perm
      (entries.flatMap Prod.snd) := by
  let pick (d : Definition) : Option (NodeId × List β) :=
    (key d).bind fun id => (table[id]?).map fun items => (id, items)
  have hpicked : (ds.flatMap fun d => ((key d).bind fun id => table[id]?).getD [])
      = (ds.filterMap pick).flatMap Prod.snd := by
    clear hnodup hcovered
    induction ds with
    | nil => rfl
    | cons d ds ih =>
        rw [List.flatMap_cons, ih, List.filterMap_cons]
        cases hd : key d with
        | none => simp [pick, hd]
        | some id => cases hitems : table[id]? <;> simp [pick, hd, hitems]
  have hfirst : ∀ d entry, pick d = some entry → entry.1 = d.node.id ∧ entry ∈ entries := by
    intro d entry h
    obtain ⟨id, hid, h⟩ := Option.bind_eq_some_iff.mp h
    obtain ⟨items, hitems, rfl⟩ := Option.map_eq_some_iff.mp h
    exact ⟨hkey d id hid, (htable id items).mp hitems⟩
  have hsublist : ((ds.filterMap pick).map Prod.fst).Sublist (ds.map fun d => d.node.id) := by
    clear hnodup hcovered hpicked
    induction ds with
    | nil => exact .slnil
    | cons d ds ih =>
        rw [List.filterMap_cons]
        cases hd : pick d with
        | none => exact ih.cons _
        | some entry =>
            simp only [List.map_cons, (hfirst d entry hd).1]
            exact ih.cons_cons _
  rw [hpicked]
  refine ((List.perm_ext_iff_of_nodup (List.Nodup.of_map _ (hnodup.sublist hsublist))
    (List.Nodup.of_map _ hkeys)).mpr fun entry => ⟨fun hmem => ?_, fun hmem => ?_⟩).flatMap_right _
  · obtain ⟨d, -, hd⟩ := List.mem_filterMap.mp hmem
    exact (hfirst d entry hd).2
  · obtain ⟨d, hd, hid⟩ := hcovered entry hmem
    refine List.mem_filterMap.mpr ⟨d, hd, ?_⟩
    simp only [pick, hid, Option.bind_some, (htable entry.1 entry.2).mpr hmem, Option.map_some]

/-- A table that was filled with entries of different keys. -/
theorem getElem?_foldl_insert_iff {β : Type} {entries : List (NodeId × β)}
    (hkeys : (entries.map Prod.fst).Nodup) (id : NodeId) (item : β) :
    (entries.foldl (fun table entry => table.insert entry.1 entry.2)
      (∅ : Std.TreeMap NodeId β))[id]? = some item ↔ (id, item) ∈ entries := by
  obtain ⟨hin, hout⟩ := getElem?_foldl_insert entries hkeys ∅
  constructor
  · intro h
    by_cases hid : id ∈ entries.map Prod.fst
    · obtain ⟨entry, hentry, rfl⟩ := List.mem_map.mp hid
      cases (hin entry hentry).symm.trans h
      exact hentry
    · rw [hout id hid, Std.TreeMap.getElem?_emptyc] at h
      cases h
  · exact fun hmem => hin (id, item) hmem

/-- The segments of a program, entry aside, hold what was generated for it. -/
theorem Generated.segments_perm {program : Program} {g : Generated}
    (hnodup : ((definitionsInside program).map fun d => d.node.id).Nodup)
    (hgrows : Generated.Grows (definitionsInside program) {} g) :
    (((Fragments.ofGenerated g).segments (definitionsInside program)).code).Perm g.code ∧
      (((Fragments.ofGenerated g).segments (definitionsInside program)).data
        ++ (Fragments.ofGenerated g).strings.flatten).Perm g.data := by
  obtain ⟨⟨functions, hfunctions, hcovered⟩, ⟨storage, hstorage, hcovered'⟩, -⟩ := hgrows
  simp only [List.nil_append] at hfunctions hstorage
  subst hfunctions hstorage
  have hkeys := hcovered.nodup (hnodup.sublist (sublist_functionIds _))
  have hkeys' := hcovered'.nodup (hnodup.sublist (sublist_variableIds _))
  constructor
  · refine flatMap_table_perm Definition.functionKey? ?_ hnodup hkeys ?_ ?_
    · rintro (⟨head, body⟩ | head) id hid
      · cases hid
        rfl
      · cases hid
    · intro entry hentry
      obtain ⟨head, body, hmem, hid⟩ :=
        of_mem_functionIds (hcovered.mem (List.mem_map_of_mem hentry))
      exact ⟨_, hmem, congrArg some hid⟩
    · intro id items
      rw [← getElem?_foldl_insert_iff hkeys, Array.foldl_toList]
      rfl
  · refine List.Perm.append (flatMap_table_perm Definition.variableId? ?_ hnodup hkeys' ?_ ?_)
      (.refl _)
    · rintro (⟨head, body⟩ | head) id hid
      · cases hid
      · cases hid
        rfl
    · intro entry hentry
      obtain ⟨head, hmem, hid⟩ := of_mem_variableIds (hcovered'.mem (List.mem_map_of_mem hentry))
      exact ⟨_, hmem, congrArg some hid⟩
    · intro id items
      rw [← getElem?_foldl_insert_iff hkeys', Array.foldl_toList]
      rfl

def Segments.labels (segments : Segments) : List String :=
  segments.code.labels ++ segments.data.labels

/-- The labels of the segments of a program: those made with numbers, those of functions, and the
names of globals, each once. The code names labels of the segments, those of `main` and `exit`, and
those that expressions refer to. -/
structure Segments.Labelled (segments : Segments) (program : Program) (context : Context)
    (main exit : Frame) (uses : List LabelUse) : Prop where
  labels : segments.labels.Perm (labelsFrom 0 uses ++
    (functionLabels context.layout (definitionsInside program) ++
      program.filterMap Definition.variableName?))
  named : ∀ l ∈ segments.code.names, l = main.label ∨ l = exit.label ∨ l ∈ segments.labels ∨
    ∃ e ∈ usedExpressions (definitionsUses program), context.Refers e l
  names_main : main.label ∈ segments.code.names
  refers : ∀ e ∈ usedExpressions (definitionsUses program), ∀ l, context.Refers e l →
    l ∈ segments.code.names

section

variable (main exit : Frame) (inner : Segments) (strings : Data)

theorem Segments.labels_entry :
    ((⟨entryCode main exit, []⟩ : Segments) ++ inner ++ ⟨[], strings⟩).labels
      = inner.code.labels ++ (inner.data ++ strings : Data).labels := by
  show Code.labels (entryCode main exit ++ inner.code ++ []) ++
    Data.labels ([] ++ inner.data ++ strings) = _
  rw [List.append_nil, Code.labels_append]
  rfl

variable {main exit inner strings}

theorem Segments.mem_names_entry {l : String} :
    l ∈ ((⟨entryCode main exit, []⟩ : Segments) ++ inner ++ ⟨[], strings⟩).code.names ↔
      l = main.label ∨ l = exit.label ∨ l ∈ inner.code.names := by
  have hnames : (entryCode main exit).names = [main.label, exit.label] := rfl
  show l ∈ Code.names (entryCode main exit ++ inner.code ++ []) ↔ _
  simp [hnames]

end

theorem Translated.labelled {analysis : Analysis} {compiled : Compiled}
    (htranslated : Translated analysis.program (compiled.target analysis))
    (hcompile : analysis.compile = .ok compiled) : ∃ main exit uses,
      analysis.program.frameNamed compiled.layout "main" = .ok main ∧
      analysis.program.frameNamed compiled.layout "exit" = .ok exit ∧
      compiled.segments.Labelled analysis.program (compiled.target analysis).context main exit
        uses := by
  obtain ⟨-, ⟨supply, hfragments⟩, hsegments, -, -⟩ := Analysis.compile_ok hcompile
  obtain ⟨layout, fragments, segments, codeSize, dataSize⟩ := compiled
  dsimp only at hfragments hsegments
  obtain ⟨main, exit, hmain, hexit, -, rfl⟩ := Program.assemble_eq hsegments
  obtain ⟨⟨u, g⟩, hrun, h⟩ := bind_eq_ok hfragments
  cases h
  obtain ⟨hread, -, -, hbound, hplaced, -, -⟩ := htranslated
  have hglobals : ∀ head, .var head ∈ analysis.program → ∃ size contents,
      layout.accesses[head.id]? = some (.absolute head.name.text size contents) := by
    intro head hhead
    obtain ⟨before, after, hvariable, -, -⟩ := hplaced.mem hhead
    exact ⟨_, _, hvariable.2.1⟩
  have henv : Env.Placed layout [.definitions analysis.program] 0 0 :=
    .definitions .nil le_rfl hplaced le_rfl
  have hnodup := (covered_definitionsInside analysis.program).nodup hread.nodup_ids
  have hemits := forM_emit_emits analysis.program hglobals hrun
  have hgrows := (forM_emit_coded analysis.program hbound hread.wellFormed henv rfl hplaced hrun).1
  obtain ⟨hcode, hdata⟩ := Generated.segments_perm hnodup hgrows
  obtain ⟨uses, -, hdefines⟩ := hemits.defines
  have hnames : ∀ l, l ∈ g.code.names ↔
      l ∈ ((Fragments.ofGenerated g).segments (definitionsInside analysis.program)).code.names :=
    fun l => ((hcode.filterMap _).mem_iff).symm
  have hlabels := (Segments.labels_entry main exit
    ((Fragments.ofGenerated g).segments (definitionsInside analysis.program)) _).symm ▸
      (hcode.filterMap _).append (hdata.filterMap _)
  refine ⟨main, exit, uses, hmain, hexit, ⟨?_, fun l hl => ?_, ?_, fun e he l hrefers => ?_⟩⟩
  · rw [Code.labels_nil, List.append_nil] at hdefines
    exact hlabels.trans hdefines
  · rcases Segments.mem_names_entry.mp hl with rfl | rfl | hl
    · exact .inl rfl
    · exact .inr (.inl rfl)
    · rw [← hnames, ← List.append_nil g.code] at hl
      rcases hemits.names.named l hl with hl | hl | hl | hl
      · cases hl
      · exact .inr (.inr (.inl (hlabels.mem_iff.mpr hl)))
      · cases hl
      · exact .inr (.inr (.inr hl))
  · exact Segments.mem_names_entry.mpr (.inl rfl)
  · have hl := hemits.names.refers e he l hrefers
    rw [List.append_nil, hnames] at hl
    exact Segments.mem_names_entry.mpr (.inr (.inr hl))

end NestedFun
