import NestedFun.Proofs.CompilationSuccess
import NestedFun.Proofs.DistinctLabels
import NestedFun.Proofs.LabelSites

namespace NestedFun

/-!
# What is generated for a program

Code is generated for every program that was read, resolved and laid out, whatever number its labels
start from. The tables of the fragments hold everything that was generated, and nothing else.
-/

/-! ## Tables -/

/-- A table that was filled with entries of different keys holds these entries. -/
theorem toList_table_perm {β : Type} {entries : List (NodeId × β)}
    (hkeys : (entries.map Prod.fst).Nodup) :
    (entries.foldl (fun table entry => table.insert entry.1 entry.2)
      (∅ : Std.TreeMap NodeId β)).toList.Perm entries := by
  refine (List.perm_ext_iff_of_nodup ?_ (List.Nodup.of_map _ hkeys)).mpr fun entry => ?_
  · refine Std.TreeMap.distinct_keys_toList.imp fun {a b} hne => ?_
    rintro rfl
    exact hne (Std.ReflCmp.compare_self)
  · rw [Std.TreeMap.mem_toList_iff_getElem?_eq_some, getElem?_foldl_insert_iff hkeys]

namespace Fragments

def code (fragments : Fragments) : Code := fragments.functions.toList.flatMap Prod.snd

def data (fragments : Fragments) : Data :=
  fragments.storage.toList.flatMap Prod.snd ++ fragments.strings.flatten

def mentions (fragments : Fragments) : List Mention :=
  fragments.code.mentions ++ fragments.data.mentions

end Fragments

/-- The tables of fragments hold what has been generated. -/
theorem Generated.tables_perm {program : Program} {g : Generated}
    (hnodup : ((definitionsInside program).map fun d => d.node.id).Nodup)
    (hgrows : Generated.Grows (definitionsInside program) {} g) :
    (Fragments.ofGenerated g).functions.toList.Perm g.functions.toList ∧
      (Fragments.ofGenerated g).storage.toList.Perm g.storage.toList := by
  obtain ⟨⟨functions, hfunctions, hcovered⟩, ⟨storage, hstorage, hcovered'⟩, -⟩ := hgrows
  simp only [List.nil_append] at hfunctions hstorage
  have hkeys := hcovered.nodup (hnodup.sublist (sublist_functionIds _))
  have hkeys' := hcovered'.nodup (hnodup.sublist (sublist_variableIds _))
  rw [← hfunctions] at hkeys
  rw [← hstorage] at hkeys'
  have hperm := toList_table_perm hkeys
  have hperm' := toList_table_perm hkeys'
  rw [Array.foldl_toList] at hperm hperm'
  exact ⟨hperm, hperm'⟩

/-- The labels in fragments are those in what has been generated. -/
theorem Generated.mentions_perm {g : Generated}
    (hfunctions : (Fragments.ofGenerated g).functions.toList.Perm g.functions.toList)
    (hstorage : (Fragments.ofGenerated g).storage.toList.Perm g.storage.toList) :
    (Fragments.ofGenerated g).mentions.Perm g.mentions :=
  ((hfunctions.flatMap_right Prod.snd).filterMap _).append
    (((hstorage.flatMap_right Prod.snd).append_right _).filterMap _)

/-! ## Programs -/

/-- The labels of functions and globals are not numbered. -/
theorem Translated.owned_not_numbered {program : Program} {T : Target} (h : Translated program T)
    (htiles : T.layout.Tiles program)
    (hnames : ∀ head, .var head ∈ definitionsInside program → IsName head.name.text) {label : String}
    (howns : T.context.Owns label) : ¬ IsNumbered label := by
  rcases howns with ⟨id, frame, hframe, rfl⟩ | ⟨id, size, contents, haccess⟩
  · obtain ⟨head, body, hd, rfl⟩ := htiles.function_of_frame hframe
    exact h.not_numbered hd hframe
  · obtain ⟨d, hd, hid⟩ := (htiles.mem_accesses id).mp
      (Std.TreeMap.mem_iff_isSome_getElem?.mpr (by rw [haccess]; rfl))
    obtain ⟨depth, before, after, hplaced, -⟩ := h.placed.inside le_rfl hd
    cases d with
    | var head =>
        cases List.mem_singleton.mp hid
        obtain ⟨-, hplaced⟩ := hplaced
        split at hplaced
        · cases haccess.symm.trans hplaced.1
          exact (hnames head hd).isPlain.not_numbered
        · cases haccess.symm.trans hplaced.1
    | func head body =>
        obtain ⟨p, hp, rfl⟩ := List.mem_map.mp hid
        obtain ⟨-, frame, -, -, hparameters, -⟩ := hplaced
        obtain ⟨offset, ho, -, -⟩ := hparameters.mem hp
        cases haccess.symm.trans ho

/-- The fragments that are generated for a program with the numbers from `n` on, and the labels in
them. -/
structure Program.GeneratedFrom (program : Program) (context : Context) (n : Nat)
    (fragments : Fragments) : Prop where
  translated : Translated program ⟨context, fragments⟩
  generate : program.generate context ⟨n⟩ = .ok (fragments, ⟨n + program.sites.length⟩)
  run : ∃ u g, (program.forM (Definition.emit context) : Generation PUnit) { labels := ⟨n⟩ }
      = .ok (u, g) ∧ fragments = .ofGenerated g ∧
    fragments.functions.toList.Perm g.functions.toList ∧
    fragments.storage.toList.Perm g.storage.toList
  nodup_sites : (siteIds program.sites).Nodup
  strings : fragments.strings = textBlocks n program.sites
  mentions : ∃ others : List Mention, (∀ mention ∈ others, context.Owns mention.label) ∧
    fragments.mentions.Perm (mentionsFrom n program.sites ++ others)
  owned : ∀ label, context.Owns label → ¬ IsNumbered label

/-- Code is generated with the numbers from `n` on, whatever `n` is. -/
theorem Analysis.generatedFrom {source : Source} {analysis : Analysis} {layout : Layout}
    (hanalyze : analyze source.withSystemDeclarations = .ok analysis)
    (hlayout : analysis.program.layOut = .ok layout) (n : Nat) : ∃ fragments,
      analysis.program.GeneratedFrom ⟨analysis.resolution.definitions, layout⟩ n fragments := by
  obtain ⟨program, resolution⟩ := analysis
  obtain ⟨hprogram, hresolution⟩ := analyze_ok hanalyze
  have hread := parse_withSystemDeclarations hprogram
  obtain ⟨hnodup, hbound, hmain⟩ := program.resolve_bound hread.nodup_ids hresolution
  obtain ⟨hplaced, hdistinct⟩ := hread.placed hresolution hlayout
  obtain ⟨fragments, labels, hfragments⟩ :=
    @Program.generate_succeeds program ⟨resolution.definitions, layout⟩ ⟨n⟩ hbound hplaced
  have htranslated : Translated program ⟨⟨resolution.definitions, layout⟩, fragments⟩ :=
    ⟨hread, hnodup, hmain, hbound, hplaced, hdistinct, program.generate_describes hbound
      hread.wellFormed hread.nodup_ids hplaced le_rfl hfragments⟩
  obtain ⟨⟨u, g⟩, hrun, hlast⟩ := bind_eq_ok hfragments
  cases hlast
  have henv : Env.Placed layout [.definitions program] 0 0 :=
    .definitions .nil le_rfl hplaced le_rfl
  have hgrows := (@forM_emit_coded program ⟨⟨resolution.definitions, layout⟩, .ofGenerated g⟩ _ _ _ _
    _ _ hbound hread.wellFormed henv rfl hplaced hrun).1
  obtain ⟨hnext, hstrings, others, howns, hmentions⟩ := forM_emit_numbers program hrun
  have hempty : (⟨⟨n⟩, #[], #[], #[]⟩ : Generated).mentions = [] := rfl
  rw [hempty, List.nil_append, Code.mentions_nil, List.append_nil] at hmentions
  obtain ⟨hfunctions, hstorage⟩ := Generated.tables_perm htranslated.nodup_inside
    (show Generated.Grows (definitionsInside program) {} g from ⟨hgrows.functions, hgrows.storage,
      hgrows.strings⟩)
  refine ⟨.ofGenerated g, htranslated, ?_, ⟨u, g, hrun, rfl, hfunctions, hstorage⟩,
    program.covered_sites.nodup hread.nodup_ids, hstrings,
    ⟨others, howns, (Generated.mentions_perm hfunctions hstorage).trans hmentions⟩,
    fun label hlabel => ?_⟩
  · have hsupply : g.labels = ⟨n + program.sites.length⟩ := congrArg LabelSupply.mk hnext
    rw [hfragments, hsupply]
  · exact htranslated.owned_not_numbered (Program.layout_tiles hprogram hresolution hlayout)
      (fun head hhead => (Program.wellFormed_variable hprogram hhead).1) hlabel

end NestedFun
