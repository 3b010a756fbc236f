import NestedFun.Compiler
import NestedFun.Proofs.Coding

namespace NestedFun

/-!
# Assembling fragments

The segments of a program hold the fragment of every definition in it, and nothing else besides the
entry and the strings. The labels in the code are those of functions with bodies and numbered ones;
the labels in the data are the names of globals and numbered ones.
-/

/-! ## What a program declares -/

theorem mem_definitionsInside {d : Definition} {ds : List Definition} (h : d ∈ ds) :
    d ∈ definitionsInside ds := by
  induction ds with
  | nil => cases h
  | cons e ds ih =>
      rw [definitionsInside]
      rcases List.mem_cons.mp h with rfl | h
      · refine List.mem_append_left _ ?_
        cases d <;> simp [Definition.inside]
      · exact List.mem_append_right _ (ih h)

def Definition.framed : Definition → List NodeId
  | .func head _ => [head.id]
  | .var _ => []

/-- The numbers of the accesses that belong to a definition: those of the parameters of a function,
or that of a variable. -/
def Definition.stored : Definition → List NodeId
  | .func head _ => head.parameters.map fun parameter => parameter.id
  | .var head => [head.id]

mutual

theorem Definition.map_owners (d : Definition) (outer : List NodeId) :
    (d.owners outer).map Prod.fst = d.inside.flatMap fun e => e.framed ++ e.stored := by
  cases d with
  | var head => rfl
  | func head body =>
      simp only [Definition.owners, Definition.inside, List.map_append, List.map_cons,
        List.map_map, List.flatMap_cons, Definition.framed, Definition.stored, Function.comp_def,
        map_statementsOwners body (head.id :: outer), List.cons_append, List.nil_append]

theorem map_definitionsOwners (ds : List Definition) (outer : List NodeId) :
    (definitionsOwners outer ds).map Prod.fst
      = (definitionsInside ds).flatMap fun e => e.framed ++ e.stored := by
  cases ds with
  | nil => rfl
  | cons d ds =>
      rw [definitionsOwners, definitionsInside, List.map_append, List.flatMap_append,
        d.map_owners outer, map_definitionsOwners ds outer]

theorem Statement.map_owners (s : Statement) (outer : List NodeId) :
    (s.owners outer).map Prod.fst = s.inside.flatMap fun e => e.framed ++ e.stored := by
  cases s with
  | eval node value => rfl
  | assign node target source => rfl
  | branch node condition positive negative =>
      rw [Statement.owners, Statement.inside, List.map_append, List.flatMap_append,
        map_statementsOwners positive outer, map_statementsOwners negative outer]
  | loop node condition body =>
      rw [Statement.owners, Statement.inside, map_statementsOwners body outer]
  | block node ds body =>
      rw [Statement.owners, Statement.inside, List.map_append, List.flatMap_append,
        map_definitionsOwners ds outer, map_statementsOwners body outer]

theorem map_statementsOwners (ss : List Statement) (outer : List NodeId) :
    (statementsOwners outer ss).map Prod.fst
      = (statementsInside ss).flatMap fun e => e.framed ++ e.stored := by
  cases ss with
  | nil => rfl
  | cons s ss =>
      rw [statementsOwners, statementsInside, List.map_append, List.flatMap_append,
        s.map_owners outer, map_statementsOwners ss outer]

end

mutual

theorem Definition.covered_owners (d : Definition) (outer : List NodeId) :
    Covered ((d.owners outer).map Prod.fst) d.ids := by
  intro id
  cases d with
  | func head body =>
      have hbody := covered_statementsOwners body (head.id :: outer) id
      have hparameters : (head.parameters.map fun p => p.id).count id
          ≤ (head.parameters.flatMap Parameter.ids).count id := by
        induction head.parameters with
        | nil => exact le_rfl
        | cons p ps ih =>
            simp only [List.map_cons, List.flatMap_cons, List.count_cons, List.count_append,
              Parameter.ids, List.count_nil]
            omega
      simp only [Definition.owners, Definition.ids, List.map_cons, List.map_append, List.map_map,
        List.count_cons, List.count_append, List.count_nil, Function.comp_def,
        List.cons_append] at *
      omega
  | var head =>
      simp only [Definition.owners, Definition.ids, Variable.ids, List.map_cons, List.map_nil,
        List.count_cons, List.count_append, List.count_nil]
      omega

theorem covered_definitionsOwners (ds : List Definition) (outer : List NodeId) :
    Covered ((definitionsOwners outer ds).map Prod.fst) (definitionIds ds) := by
  intro id
  cases ds with
  | nil => simp [definitionsOwners]
  | cons d ds =>
      have h₁ := d.covered_owners outer id
      have h₂ := covered_definitionsOwners ds outer id
      simp only [definitionsOwners, definitionIds, List.map_append, List.count_append] at *
      omega

theorem Statement.covered_owners (s : Statement) (outer : List NodeId) :
    Covered ((s.owners outer).map Prod.fst) s.ids := by
  intro id
  cases s with
  | eval node value => simp [Statement.owners]
  | assign node target source => simp [Statement.owners]
  | branch node condition positive negative =>
      have h₁ := covered_statementsOwners positive outer id
      have h₂ := covered_statementsOwners negative outer id
      simp only [Statement.owners, Statement.ids, List.map_append, List.count_append] at *
      omega
  | loop node condition body =>
      have h₁ := covered_statementsOwners body outer id
      simp only [Statement.owners, Statement.ids, List.count_append] at *
      omega
  | block node ds body =>
      have h₁ := covered_definitionsOwners ds outer id
      have h₂ := covered_statementsOwners body outer id
      simp only [Statement.owners, Statement.ids, List.map_append, List.count_append] at *
      omega

theorem covered_statementsOwners (ss : List Statement) (outer : List NodeId) :
    Covered ((statementsOwners outer ss).map Prod.fst) (statementIds ss) := by
  intro id
  cases ss with
  | nil => simp [statementsOwners]
  | cons s ss =>
      have h₁ := s.covered_owners outer id
      have h₂ := covered_statementsOwners ss outer id
      simp only [statementsOwners, statementIds, List.map_append, List.count_append] at *
      omega

end

theorem sublist_declared (ds : List Definition) :
    (ds.map fun e => e.node.id).Sublist (ds.flatMap fun e => e.framed ++ e.stored) := by
  induction ds with
  | nil => exact .slnil
  | cons d ds ih =>
      cases d with
      | func head body => exact .cons_cons _ (ih.trans (List.sublist_append_right _ _))
      | var head => exact ih.cons_cons _

theorem covered_definitionsInside (ds : List Definition) :
    Covered ((definitionsInside ds).map fun e => e.node.id) (definitionIds ds) := by
  intro id
  have hsublist := sublist_declared (definitionsInside ds)
  rw [← map_definitionsOwners ds []] at hsublist
  exact (hsublist.count_le id).trans (covered_definitionsOwners ds [] id)

/-! ## Generating a whole program -/

theorem sublist_functionIds (ds : List Definition) :
    (ds.filterMap Definition.functionId?).Sublist (ds.map fun d => d.node.id) := by
  induction ds with
  | nil => exact .slnil
  | cons d ds ih =>
      cases d with
      | func head body =>
          cases body with
          | nil => exact ih.cons _
          | cons s body => exact ih.cons_cons _
      | var head => exact ih.cons _

theorem sublist_variableIds (ds : List Definition) :
    (ds.filterMap Definition.variableId?).Sublist (ds.map fun d => d.node.id) := by
  induction ds with
  | nil => exact .slnil
  | cons d ds ih =>
      cases d with
      | func head body => exact ih.cons _
      | var head => exact ih.cons_cons _

theorem forM_emit_coded (ds : List Definition) {T : Target} {env : Env} {before after : Int}
    {g g' : Generated} {u : PUnit} (hbound : BoundDefinitions T.context.definitions env ds)
    (hwell : WellFormedDefinitions ds) (henv : env.Placed T.layout 0 0) (hdepth : env.depth = 0)
    (hplaced : PlacedDefinitions T.layout env.depth before after ds)
    (h : (ds.forM (Definition.emit T.context) : Generation PUnit) g = .ok (u, g')) :
    g.Grows (definitionsInside ds) g' ∧ (T.Contains g' → CodedDefinitions T env ds []) := by
  induction ds generalizing g before with
  | nil =>
      cases h
      exact ⟨.refl _, fun _ => rfl⟩
  | cons d ds ih =>
      obtain ⟨g₁, hfirst, hrest⟩ := forM_emit_cons_generated h
      obtain ⟨between, hd, hds⟩ := hplaced
      have hd' : g.Grows d.inside g₁ ∧ (T.Contains g₁ → d.Coded T env []) := by
        cases d with
        | var head => exact emitGlobal_coded hdepth hd hfirst
        | func head body =>
            exact Definition.generate_coded (.func head body) hbound.1 hwell.1 henv hd
              (.inr ⟨head, body, rfl⟩) (Definition.func_emitted hfirst)
      obtain ⟨hgrows, hcoded⟩ := ih hbound.2 hwell.2 hds hrest
      exact ⟨hd'.1.trans hgrows, fun hcontains =>
        ⟨[], [], hd'.2 (hgrows.contains hcontains), hcoded hcontains, rfl⟩⟩

/-- A function without a body has no code. -/
theorem not_mem_functionIds {ds : List Definition} (hnodup : (ds.map fun d => d.node.id).Nodup)
    {head : FunctionHead} (hmem : Definition.func head [] ∈ ds) :
    head.id ∉ ds.filterMap Definition.functionId? := by
  induction ds with
  | nil => cases hmem
  | cons d ds ih =>
      rw [List.map_cons, List.nodup_cons] at hnodup
      have hsub := (sublist_functionIds ds).subset
      rcases List.mem_cons.mp hmem with rfl | hds
      · exact fun h => hnodup.1 (hsub h)
      · intro h
        have hid : head.id ∈ ds.map fun d => d.node.id := List.mem_map.mpr ⟨_, hds, rfl⟩
        rcases d with ⟨head', body⟩ | head'
        · cases body with
          | nil => exact ih hnodup.2 hds h
          | cons s body =>
              rcases List.mem_cons.mp h with heq | h
              · exact hnodup.1 (heq ▸ hid)
              · exact ih hnodup.2 hds h
        · exact ih hnodup.2 hds h

theorem of_mem_functionIds {ds : List Definition} {id : NodeId}
    (h : id ∈ ds.filterMap Definition.functionId?) :
    ∃ head body, Definition.func head body ∈ ds ∧ head.id = id := by
  obtain ⟨d, hd, hid⟩ := List.mem_filterMap.mp h
  rcases d with ⟨head, body⟩ | head
  · rw [Definition.functionId?] at hid
    split at hid
    · cases hid
    · exact ⟨head, body, hd, Option.some.inj hid⟩
  · cases hid

theorem of_mem_variableIds {ds : List Definition} {id : NodeId}
    (h : id ∈ ds.filterMap Definition.variableId?) : ∃ head, Definition.var head ∈ ds ∧ head.id = id := by
  obtain ⟨d, hd, hid⟩ := List.mem_filterMap.mp h
  rcases d with ⟨head, body⟩ | head
  · cases hid
  · exact ⟨head, hd, Option.some.inj hid⟩

structure Target.Describes (T : Target) (program : Program) : Prop where
  coded : CodedDefinitions T [.definitions program] program []
  bodiless : ∀ head, Definition.func head [] ∈ definitionsInside program →
    T.fragments.functions[head.id]? = none
  functions : ∀ (id : NodeId) (code : Code), T.fragments.functions[id]? = some code →
    ∃ head body, Definition.func head body ∈ definitionsInside program ∧ head.id = id
  storage : ∀ (id : NodeId) (data : Data), T.fragments.storage[id]? = some data →
    ∃ head, Definition.var head ∈ definitionsInside program ∧ head.id = id
  strings : ∀ data ∈ T.fragments.strings, ∃ (span : Span) (n : Nat) (words : List Word),
    data = Data.spanning span (.label (dataLabel n) :: words.map .word)

theorem Program.generate_describes (program : Program) {context : Context}
    {fragments : Fragments} {labels labels' : LabelSupply} {after : Int}
    (hbound : BoundDefinitions context.definitions [.definitions program] program)
    (hwell : WellFormedDefinitions program) (hnodup : (definitionIds program).Nodup)
    (hplaced : PlacedDefinitions context.layout 0 0 after program) (hafter : after ≤ 0)
    (h : program.generate context labels = .ok (fragments, labels')) :
    Target.Describes ⟨context, fragments⟩ program := by
  obtain ⟨⟨u, g⟩, hrun, h⟩ := bind_eq_ok h
  cases h
  have hle := hplaced.before_le
  obtain rfl : after = 0 := by omega
  have henv : Env.Placed context.layout [.definitions program] 0 0 :=
    .definitions .nil le_rfl hplaced le_rfl
  obtain ⟨hgrows, hcoded⟩ := forM_emit_coded (T := ⟨context, .ofGenerated g⟩) program hbound hwell
    henv rfl hplaced hrun
  obtain ⟨⟨functions, hfunctions, hcovered⟩, ⟨storage, hstorage, hcovered'⟩,
    ⟨strings, hstrings, hforms⟩⟩ := hgrows
  simp only [List.nil_append] at hfunctions hstorage hstrings
  have hinside := (covered_definitionsInside program).nodup hnodup
  have hkeys := hcovered.nodup (hinside.sublist (sublist_functionIds _))
  have hkeys' := hcovered'.nodup (hinside.sublist (sublist_variableIds _))
  obtain ⟨hin, hout⟩ := getElem?_foldl_insert functions hkeys ∅
  obtain ⟨hin', hout'⟩ := getElem?_foldl_insert storage hkeys' ∅
  have htable : (Fragments.ofGenerated g).functions
      = functions.foldl (fun table entry => table.insert entry.1 entry.2) ∅ := by
    rw [← hfunctions, Array.foldl_toList]
    rfl
  have htable' : (Fragments.ofGenerated g).storage
      = storage.foldl (fun table entry => table.insert entry.1 entry.2) ∅ := by
    rw [← hstorage, Array.foldl_toList]
    rfl
  refine ⟨hcoded ⟨?_, ?_, ?_⟩, ?_, ?_, ?_, ?_⟩
  · intro entry hentry
    rw [hfunctions] at hentry
    show (Fragments.ofGenerated g).functions[entry.1]? = _
    rw [htable]
    exact hin entry hentry
  · intro entry hentry
    rw [hstorage] at hentry
    show (Fragments.ofGenerated g).storage[entry.1]? = _
    rw [htable']
    exact hin' entry hentry
  · exact fun data hdata => hdata
  · intro head hmem
    show (Fragments.ofGenerated g).functions[head.id]? = _
    rw [htable, hout head.id fun hkey => not_mem_functionIds hinside hmem (hcovered.mem hkey)]
    exact Std.TreeMap.getElem?_emptyc
  · intro id code hcode
    change (Fragments.ofGenerated g).functions[id]? = _ at hcode
    by_cases hkey : id ∈ functions.map Prod.fst
    · exact of_mem_functionIds (hcovered.mem hkey)
    · rw [htable, hout id hkey] at hcode
      exact absurd hcode (by simp)
  · intro id data hdata
    change (Fragments.ofGenerated g).storage[id]? = _ at hdata
    by_cases hkey : id ∈ storage.map Prod.fst
    · exact of_mem_variableIds (hcovered'.mem hkey)
    · rw [htable', hout' id hkey] at hdata
      exact absurd hdata (by simp)
  · intro data hdata
    exact hforms data (hstrings ▸ hdata)

/-! ## Collecting -/

/-- The segments hold the fragments of the given definitions, and nothing else. -/
structure Segments.Collects (fragments : Fragments) (ds : List Definition) (segments : Segments) :
    Prop where
  functions : ∀ head body, Definition.func head body ∈ ds →
    (fragments.functions[head.id]?).getD [] <:+: segments.code
  storage : ∀ head, Definition.var head ∈ ds →
    ∃ data, fragments.storage[head.id]? = some data ∧ data <:+: segments.data
  code : ∀ instruction ∈ segments.code, ∃ head body, Definition.func head body ∈ ds ∧
    instruction ∈ (fragments.functions[head.id]?).getD []
  data : ∀ datum ∈ segments.data, ∃ head data, Definition.var head ∈ ds ∧
    fragments.storage[head.id]? = some data ∧ datum ∈ data

def Definition.functionKey? : Definition → Option NodeId
  | .func head _ => some head.id
  | .var _ => none

namespace Fragments

variable (fragments : Fragments)

def codeOf (d : Definition) : Code :=
  (d.functionKey?.bind fun id => fragments.functions[id]?).getD []

def dataOf (d : Definition) : Data :=
  (d.variableId?.bind fun id => fragments.storage[id]?).getD []

theorem dataOf_variable {head : Variable} {data : Data}
    (h : fragments.storage[head.id]? = some data) : fragments.dataOf (.var head) = data := by
  rw [dataOf, Definition.variableId?, Option.bind_some, h, Option.getD_some]

def segments (ds : List Definition) : Segments :=
  ⟨ds.flatMap fragments.codeOf, ds.flatMap fragments.dataOf⟩

theorem segments_append (ds ds' : List Definition) :
    fragments.segments (ds ++ ds') = fragments.segments ds ++ fragments.segments ds' := by
  rw [segments, List.flatMap_append, List.flatMap_append]
  rfl

end Fragments

def Fragments.HasData (fragments : Fragments) (ds : List Definition) : Prop :=
  ∀ head, .var head ∈ ds → ∃ data, fragments.storage[head.id]? = some data

theorem Fragments.HasData.collects {fragments : Fragments} {ds : List Definition}
    (h : fragments.HasData ds) : (fragments.segments ds).Collects fragments ds where
  functions head body hmem := by
    show fragments.codeOf (.func head body) <:+: ds.flatMap fragments.codeOf
    rw [List.flatMap_def]
    exact List.infix_of_mem_flatten (List.mem_map_of_mem hmem)
  storage head hmem := by
    obtain ⟨data, hdata⟩ := h head hmem
    refine ⟨data, hdata, ?_⟩
    show data <:+: ds.flatMap fragments.dataOf
    rw [← fragments.dataOf_variable hdata, List.flatMap_def]
    exact List.infix_of_mem_flatten (List.mem_map_of_mem hmem)
  code instruction hmem := by
    obtain ⟨d, hd, hi⟩ := List.mem_flatMap.mp hmem
    cases d with
    | func head body => exact ⟨head, body, hd, hi⟩
    | var head => cases hi
  data datum hmem := by
    obtain ⟨d, hd, hi⟩ := List.mem_flatMap.mp hmem
    cases d with
    | func head body => cases hi
    | var head =>
        obtain ⟨data, hdata⟩ := h head hd
        rw [fragments.dataOf_variable hdata] at hi
        exact ⟨head, data, hd, hdata, hi⟩

/-- A part of collecting comes to the segments of the given definitions if their data are there, and
to nothing otherwise. -/
def Fragments.Gives (fragments : Fragments) (ds : List Definition)
    (x : Except InternalError Segments) : Prop :=
  ∀ segments, x = .ok segments ↔ fragments.HasData ds ∧ segments = fragments.segments ds

namespace Fragments.Gives

variable {fragments : Fragments} {ds ds' : List Definition} {x y : Except InternalError Segments}

theorem nil : fragments.Gives [] (.ok ⟨[], []⟩) := fun _ =>
  ⟨fun h => ⟨nofun, (Except.ok.inj h).symm⟩, fun h => congrArg Except.ok h.2.symm⟩

theorem function (head : FunctionHead) (body : List Statement) :
    fragments.Gives [.func head body] (.ok ⟨(fragments.functions[head.id]?).getD [], []⟩) := by
  have hsegments : fragments.segments [.func head body]
      = ⟨(fragments.functions[head.id]?).getD [], []⟩ := by
    simp [segments, codeOf, dataOf, Definition.functionKey?, Definition.variableId?]
  intro segments
  rw [hsegments]
  refine ⟨fun h => ⟨fun head' hmem => ?_, (Except.ok.inj h).symm⟩,
    fun h => congrArg Except.ok h.2.symm⟩
  cases List.mem_singleton.mp hmem

theorem variable' (head : Variable) :
    fragments.Gives [.var head] ((Definition.var head).collect fragments) := by
  intro segments
  rw [Definition.collect]
  cases hdata : fragments.storage[head.id]? with
  | some data =>
      have hsegments : fragments.segments [.var head] = ⟨[], data⟩ := by
        simp [Fragments.segments, codeOf, Definition.functionKey?, fragments.dataOf_variable hdata]
      rw [hsegments]
      refine ⟨fun h => ⟨fun head' hmem => ?_, (Except.ok.inj h).symm⟩,
        fun h => congrArg Except.ok h.2.symm⟩
      cases List.mem_singleton.mp hmem
      exact ⟨data, hdata⟩
  | none =>
      constructor
      · intro h
        cases h
      · intro h
        obtain ⟨data, hsome⟩ := h.1 head (List.mem_singleton_self _)
        cases hdata.symm.trans hsome

theorem append (hx : fragments.Gives ds x) (hy : fragments.Gives ds' y) :
    fragments.Gives (ds ++ ds') (do
      let first ← x
      let others ← y
      return first ++ others) := by
  intro segments
  rw [segments_append]
  constructor
  · intro h
    obtain ⟨first, hfirst, h⟩ := bind_eq_ok h
    obtain ⟨others, hothers, h⟩ := bind_eq_ok h
    cases h
    obtain ⟨hdata, rfl⟩ := (hx first).mp hfirst
    obtain ⟨hdata', rfl⟩ := (hy others).mp hothers
    refine ⟨fun head hmem => ?_, rfl⟩
    rcases List.mem_append.mp hmem with hmem | hmem
    · exact hdata head hmem
    · exact hdata' head hmem
  · rintro ⟨hdata, rfl⟩
    have hfirst := (hx _).mpr ⟨fun head hmem => hdata head (List.mem_append_left _ hmem), rfl⟩
    have hothers := (hy _).mpr ⟨fun head hmem => hdata head (List.mem_append_right _ hmem), rfl⟩
    rw [hfirst, hothers]
    rfl

end Fragments.Gives

mutual

theorem Definition.collect_gives (fragments : Fragments) (d : Definition) :
    fragments.Gives d.inside (d.collect fragments) := by
  cases d with
  | var head => exact .variable' head
  | func head body =>
      rw [Definition.collect, Definition.inside, ← List.singleton_append]
      exact .append (.function head body) (collectStatements_gives fragments body)

theorem collectDefinitions_gives (fragments : Fragments) (ds : List Definition) :
    fragments.Gives (definitionsInside ds) (collectDefinitions fragments ds) := by
  cases ds with
  | nil => exact .nil
  | cons d ds =>
      rw [collectDefinitions, definitionsInside]
      exact .append (d.collect_gives fragments) (collectDefinitions_gives fragments ds)

theorem Statement.collect_gives (fragments : Fragments) (s : Statement) :
    fragments.Gives s.inside (s.collect fragments) := by
  cases s with
  | eval node value => exact .nil
  | assign node target source => exact .nil
  | branch node condition positive negative =>
      rw [Statement.collect, Statement.inside]
      exact .append (collectStatements_gives fragments positive)
        (collectStatements_gives fragments negative)
  | loop node condition body =>
      rw [Statement.collect, Statement.inside]
      exact collectStatements_gives fragments body
  | block node ds body =>
      rw [Statement.collect, Statement.inside]
      exact .append (collectDefinitions_gives fragments ds) (collectStatements_gives fragments body)

theorem collectStatements_gives (fragments : Fragments) (ss : List Statement) :
    fragments.Gives (statementsInside ss) (collectStatements fragments ss) := by
  cases ss with
  | nil => exact .nil
  | cons s ss =>
      rw [collectStatements, statementsInside]
      exact .append (s.collect_gives fragments) (collectStatements_gives fragments ss)

end

theorem collectDefinitions_eq (ds : List Definition) {fragments : Fragments} {segments : Segments}
    (h : collectDefinitions fragments ds = .ok segments) :
    segments = fragments.segments (definitionsInside ds) :=
  ((collectDefinitions_gives fragments ds segments).mp h).2

theorem collectDefinitions_succeeds (ds : List Definition) {fragments : Fragments}
    (h : fragments.HasData (definitionsInside ds)) :
    ∃ segments, collectDefinitions fragments ds = .ok segments :=
  ⟨_, (collectDefinitions_gives fragments ds _).mpr ⟨h, rfl⟩⟩

/-! ## Labels in code -/

def Code.NumberedLabels (code : Code) : Prop :=
  ∀ instruction ∈ code, ∀ label, instruction.item = .label label → IsNumbered label

theorem Code.NumberedLabels.append {a b : Code} (ha : a.NumberedLabels) (hb : b.NumberedLabels) :
    Code.NumberedLabels (a ++ b) := by
  intro instruction hmem
  rcases List.mem_append.mp hmem with hmem | hmem
  · exact ha instruction hmem
  · exact hb instruction hmem

theorem Code.numberedLabels_nil : Code.NumberedLabels [] := nofun

theorem Code.numberedLabels_spanning {span : Span} {is : List Instruction}
    (h : ∀ label, .label label ∈ is → IsNumbered label) :
    (Code.spanning span is).NumberedLabels := by
  intro instruction hmem label hlabel
  obtain ⟨i, hi, rfl⟩ := List.mem_map.mp hmem
  exact h label (hlabel ▸ hi)

theorem label_not_mem_frameAddress (hops : Nat) (label : String) :
    Instruction.label label ∉ frameAddress hops := by
  simp [frameAddress, List.mem_replicate]

theorem label_not_mem_placeCode (place : Place) (label : String) :
    Instruction.label label ∉ place.code := by
  cases place <;> simp [Place.code, label_not_mem_frameAddress]

theorem keptZero_numberedLabels (keep : Bool) (span : Span) :
    (keptZero keep span).NumberedLabels := by
  cases keep with
  | true => exact Code.numberedLabels_spanning (by simp)
  | false => exact Code.numberedLabels_nil

section

variable {T : Target} {env : Env}

mutual

theorem Expression.Coded.numberedLabels {e : Expression} {code : Code} (h : e.Coded T env code) :
    code.NumberedLabels := by
  cases e with
  | literal node value =>
      rcases h with ⟨_, w, _, rfl⟩ | ⟨_, n, rfl, _⟩
      · exact Code.numberedLabels_spanning (by simp)
      · exact Code.numberedLabels_spanning (by simp)
  | name node name =>
      obtain ⟨place, _, rfl⟩ := h
      exact Code.numberedLabels_spanning (by simp [label_not_mem_placeCode])
  | call node callee arguments =>
      obtain ⟨meaning, head, body, frame, pushed, _, _, _, _, harguments, rfl⟩ := h
      exact harguments.numberedLabels.append
        (Code.numberedLabels_spanning (by simp [label_not_mem_frameAddress]))
  | unary node operator operand =>
      rw [Expression.Coded] at h
      split at h
      · obtain ⟨c, hc, rfl⟩ := h
        exact hc.numberedLabels.append (Code.numberedLabels_spanning (by simp))
      · obtain ⟨c, hc, rfl⟩ := h
        exact hc.numberedLabels.append (Code.numberedLabels_spanning (by simp))
      · exact h.numberedLabels
      · exact h.numberedLabels
      · obtain ⟨c, hc, _, rfl⟩ := h
        exact hc.numberedLabels.append (Code.numberedLabels_spanning (by simp))
  | binary node operator left right =>
      obtain ⟨r, l, hr, hl, rfl⟩ := h
      exact (hr.numberedLabels.append hl.numberedLabels).append
        (Code.numberedLabels_spanning (by simp))

theorem Expression.AddressCoded.numberedLabels {e : Expression} {code : Code}
    (h : e.AddressCoded T env code) : code.NumberedLabels := by
  cases e with
  | literal node value => exact h.elim
  | name node name =>
      obtain ⟨place, _, rfl⟩ := h
      exact Code.numberedLabels_spanning (by simp [label_not_mem_placeCode])
  | call node callee arguments => exact h.elim
  | unary node operator operand => exact h.2.numberedLabels
  | binary node operator left right => exact h.elim

theorem CodedArguments.numberedLabels {es : List Expression} {code : Code}
    (h : CodedArguments T env es code) : code.NumberedLabels := by
  cases es with
  | nil =>
      cases h
      exact Code.numberedLabels_nil
  | cons e es =>
      obtain ⟨others, first, hothers, hfirst, rfl⟩ := h
      exact hothers.numberedLabels.append hfirst.numberedLabels

end

end

theorem codedStatements_cons {T : Target} {env : Env} {keep : Bool} {s : Statement}
    {ss : List Statement} {code : Code} (h : CodedStatements T env keep (s :: ss) code) :
    (ss = [] ∧ s.Coded T env keep code) ∨ ∃ first others, s.Coded T env false first ∧
      CodedStatements T env keep ss others ∧ code = first ++ others := by
  cases ss with
  | nil => exact .inl ⟨rfl, h⟩
  | cons s' ss => exact .inr h

theorem Variable.Coded.numberedLabels {T : Target} {env : Env} {head : Variable} {code : Code}
    (h : head.Coded T env code) (hdepth : 0 < env.depth) : code.NumberedLabels := by
  rw [Variable.Coded, if_neg (by omega)] at h
  obtain ⟨_, offset, n, _, _, rfl⟩ := h
  exact Code.numberedLabels_spanning (by simp)

mutual

theorem Statement.Coded.numberedLabels {s : Statement} {T : Target} {env : Env} {keep : Bool}
    {code : Code} (h : s.Coded T env keep code) (hdepth : 0 < env.depth) :
    code.NumberedLabels := by
  cases s with
  | eval node value =>
      obtain ⟨c, hc, rfl⟩ := h
      refine hc.numberedLabels.append ?_
      cases keep with
      | true => exact Code.numberedLabels_nil
      | false => exact Code.numberedLabels_spanning (by simp)
  | assign node target source =>
      obtain ⟨v, a, hv, ha, rfl⟩ := h
      exact ((hv.numberedLabels.append ha.numberedLabels).append
        (Code.numberedLabels_spanning (by simp))).append (keptZero_numberedLabels _ _)
  | branch node condition positive negative =>
      obtain ⟨n, p, q, c, hp, hq, hc, rfl⟩ := h
      obtain ⟨h₁, h₂, h₃, h₄⟩ := isNumbered_branchLabels n
      simp only [List.flatten_cons, List.flatten_nil, List.append_nil]
      refine .append (Code.numberedLabels_spanning (by simpa using h₂))
        (.append (hp.numberedLabels hdepth) (.append (Code.numberedLabels_spanning (by simpa using h₃))
        (.append (hq.numberedLabels hdepth) (.append (Code.numberedLabels_spanning (by simpa using h₁))
        (.append hc.numberedLabels (.append (Code.numberedLabels_spanning (by simpa using h₄))
        (keptZero_numberedLabels _ _)))))))
  | loop node condition body =>
      obtain ⟨n, c, p, hc, hp, rfl⟩ := h
      obtain ⟨h₁, h₂, h₃⟩ := isNumbered_loopLabels n
      simp only [List.flatten_cons, List.flatten_nil, List.append_nil]
      exact .append (Code.numberedLabels_spanning (by simpa using h₁))
        (.append hc.numberedLabels (.append (Code.numberedLabels_spanning (by simpa using h₂))
        (.append (hp.numberedLabels hdepth) (.append (Code.numberedLabels_spanning (by simpa using h₃))
        (keptZero_numberedLabels _ _)))))
  | block node ds body =>
      obtain ⟨entry, c, hentry, hc, rfl⟩ := h
      rw [← Env.depth_definitions ds env] at hdepth
      exact (hentry.numberedLabels hdepth).append (hc.numberedLabels hdepth)

theorem CodedStatements.numberedLabels {ss : List Statement} {T : Target} {env : Env} {keep : Bool}
    {code : Code} (h : CodedStatements T env keep ss code) (hdepth : 0 < env.depth) :
    code.NumberedLabels := by
  cases ss with
  | nil =>
      cases h
      exact keptZero_numberedLabels _ _
  | cons s ss =>
      rcases codedStatements_cons h with ⟨_, hs⟩ | ⟨first, others, hs, hss, rfl⟩
      · exact hs.numberedLabels hdepth
      · exact (hs.numberedLabels hdepth).append (hss.numberedLabels hdepth)

theorem CodedDefinitions.numberedLabels {ds : List Definition} {T : Target} {env : Env}
    {code : Code} (h : CodedDefinitions T env ds code) (hdepth : 0 < env.depth) :
    code.NumberedLabels := by
  cases ds with
  | nil =>
      cases h
      exact Code.numberedLabels_nil
  | cons d ds =>
      obtain ⟨first, others, hd, hds, rfl⟩ := h
      refine .append ?_ (hds.numberedLabels hdepth)
      cases d with
      | var head => exact Variable.Coded.numberedLabels hd hdepth
      | func head body =>
          obtain ⟨rfl, _⟩ := hd
          exact Code.numberedLabels_nil

end

/-! ## Everything inside a program -/

theorem CodedDefinitions.mem {T : Target} {env : Env} {ds : List Definition} {code : Code}
    (h : CodedDefinitions T env ds code) {d : Definition} (hd : d ∈ ds) :
    ∃ code, d.Coded T env code := by
  induction ds generalizing code with
  | nil => cases hd
  | cons e ds ih =>
      obtain ⟨first, others, hfirst, hothers, rfl⟩ := h
      rcases List.mem_cons.mp hd with rfl | hd
      · exact ⟨first, hfirst⟩
      · exact ih hothers hd

mutual

/-- Whatever is defined inside a definition is coded for a place inside a function. -/
theorem Definition.Coded.inside {d : Definition} {T : Target} {env : Env} {code : Code}
    (h : d.Coded T env code) {e : Definition} (he : e ∈ d.inside) :
    e = d ∨ ∃ env' code', 0 < Env.depth env' ∧ e.Coded T env' code' := by
  cases d with
  | var head => exact .inl (List.mem_singleton.mp he)
  | func head body =>
      rcases List.mem_cons.mp he with rfl | he
      · exact .inl rfl
      · cases body with
        | nil => cases he
        | cons s body =>
            obtain ⟨frame, c, _, hc, _⟩ := h.2 (by simp)
            exact .inr (CodedStatements.inside hc (by simp) he)

theorem CodedDefinitions.inside {ds : List Definition} {T : Target} {env : Env} {code : Code}
    (h : CodedDefinitions T env ds code) {e : Definition} (he : e ∈ definitionsInside ds) :
    e ∈ ds ∨ ∃ env' code', 0 < Env.depth env' ∧ e.Coded T env' code' := by
  cases ds with
  | nil => cases he
  | cons d ds =>
      obtain ⟨first, others, hd, hds, rfl⟩ := h
      rcases List.mem_append.mp he with he | he
      · rcases Definition.Coded.inside hd he with rfl | h
        · exact .inl List.mem_cons_self
        · exact .inr h
      · rcases CodedDefinitions.inside hds he with h | h
        · exact .inl (List.mem_cons_of_mem _ h)
        · exact .inr h

theorem Statement.Coded.inside {s : Statement} {T : Target} {env : Env} {keep : Bool} {code : Code}
    (h : s.Coded T env keep code) (hdepth : 0 < env.depth) {e : Definition} (he : e ∈ s.inside) :
    ∃ env' code', 0 < Env.depth env' ∧ e.Coded T env' code' := by
  cases s with
  | eval node value => cases he
  | assign node target source => cases he
  | branch node condition positive negative =>
      obtain ⟨n, p, q, c, hp, hq, hc, rfl⟩ := h
      rcases List.mem_append.mp he with he | he
      · exact CodedStatements.inside hp hdepth he
      · exact CodedStatements.inside hq hdepth he
  | loop node condition body =>
      obtain ⟨n, c, p, hc, hp, rfl⟩ := h
      exact CodedStatements.inside hp hdepth he
  | block node ds body =>
      obtain ⟨entry, c, hentry, hc, rfl⟩ := h
      rw [← Env.depth_definitions ds env] at hdepth
      rcases List.mem_append.mp he with he | he
      · rcases CodedDefinitions.inside hentry he with hmem | h
        · obtain ⟨code, hcode⟩ := hentry.mem hmem
          exact ⟨_, code, hdepth, hcode⟩
        · exact h
      · exact CodedStatements.inside hc hdepth he

theorem CodedStatements.inside {ss : List Statement} {T : Target} {env : Env} {keep : Bool}
    {code : Code} (h : CodedStatements T env keep ss code) (hdepth : 0 < env.depth)
    {e : Definition} (he : e ∈ statementsInside ss) :
    ∃ env' code', 0 < Env.depth env' ∧ e.Coded T env' code' := by
  cases ss with
  | nil => cases he
  | cons s ss =>
      rcases codedStatements_cons h with ⟨rfl, hs⟩ | ⟨first, others, hs, hss, rfl⟩
      · rw [statementsInside, statementsInside, List.append_nil] at he
        exact Statement.Coded.inside hs hdepth he
      · rcases List.mem_append.mp he with he | he
        · exact Statement.Coded.inside hs hdepth he
        · exact CodedStatements.inside hss hdepth he

end

namespace Target.Describes

variable {T : Target} {program : Program}

/-- Every definition in a program is coded; those of variables outside functions are at the top
level. -/
theorem inside (h : T.Describes program) {d : Definition} (hd : d ∈ definitionsInside program) :
    ∃ env code, d.Coded T env code ∧ (env.depth = 0 → d ∈ program) := by
  rcases h.coded.inside hd with hmem | ⟨env, code, hdepth, hcode⟩
  · obtain ⟨code, hcode⟩ := h.coded.mem hmem
    exact ⟨_, code, hcode, fun _ => hmem⟩
  · exact ⟨env, code, hcode, fun hzero => by omega⟩

theorem function (h : T.Describes program) {head : FunctionHead} {body : List Statement}
    (hmem : .func head body ∈ definitionsInside program) (hbody : body ≠ []) :
    ∃ env frame c, T.layout.frames[head.id]? = some frame ∧
      CodedStatements T (.parameters head :: env) true body c ∧
      T.fragments.functions[head.id]? = some (functionCode head frame c) := by
  obtain ⟨env, code, ⟨_, hcode⟩, _⟩ := h.inside hmem
  obtain ⟨frame, c, hframe, hc, hfragment⟩ := hcode hbody
  exact ⟨env, frame, c, hframe, hc, hfragment⟩

/-- The labels in collected code. -/
theorem label_code (h : T.Describes program) {segments : Segments}
    (hcollects : segments.Collects T.fragments (definitionsInside program))
    {instruction : Located Instruction} (hmem : instruction ∈ segments.code) {label : String}
    (hlabel : instruction.item = .label label) :
    IsNumbered label ∨ ∃ head body frame, .func head body ∈ definitionsInside program ∧ body ≠ [] ∧
      T.layout.frames[head.id]? = some frame ∧ label = frame.label := by
  obtain ⟨head, body, hd, hfragment⟩ := hcollects.code instruction hmem
  by_cases hbody : body = []
  · subst hbody
    rw [h.bodiless head hd] at hfragment
    cases hfragment
  · obtain ⟨env, frame, c, hframe, hc, hcode⟩ := h.function hd hbody
    rw [hcode, Option.getD_some, functionCode] at hfragment
    have hnumbered := hc.numberedLabels (by simp)
    simp only [Code.spanning, List.map_cons, List.map_nil, List.cons_append, List.nil_append,
      List.mem_cons, List.mem_append, List.not_mem_nil, or_false] at hfragment
    rcases hfragment with rfl | rfl | rfl | hfragment | rfl | rfl
    · cases hlabel
      exact .inr ⟨head, body, frame, hd, hbody, hframe, rfl⟩
    · cases hlabel
    · cases hlabel
    · exact .inl (hnumbered _ hfragment label hlabel)
    · cases hlabel
    · cases hlabel

end Target.Describes

/-! ## Data -/

def Datum.Fits : Datum → Prop
  | .label _ | .word _ => True
  | .reserve size contents => ∃ c, contents = some c ∧ size.toInt = 4 * (c.expand.length : Int)

/-- The labels in collected data, and their sizes. -/
theorem Target.Describes.datum {T : Target} {program : Program} (h : T.Describes program)
    {segments : Segments} (hcollects : segments.Collects T.fragments (definitionsInside program))
    {datum : Located Datum} (hmem : datum ∈ segments.data ++ T.fragments.strings.flatten) :
    datum.item.Fits ∧ ∀ label, datum.item = .label label →
      IsNumbered label ∨ ∃ head, .var head ∈ program ∧ label = head.name.text := by
  have hwords : ∀ (span : Span) (n : Nat) (words : List Word) (data : Data),
      data = Data.spanning span (.label (dataLabel n) :: words.map .word) → datum ∈ data →
      datum.item.Fits ∧ ∀ label, datum.item = .label label →
        IsNumbered label ∨ ∃ head, .var head ∈ program ∧ label = head.name.text := by
    rintro span n words data rfl hdatum
    obtain ⟨d, hd, rfl⟩ := List.mem_map.mp hdatum
    rcases List.mem_cons.mp hd with rfl | hd
    · refine ⟨trivial, fun label hlabel => .inl ?_⟩
      cases hlabel
      exact isNumbered_dataLabel n
    · obtain ⟨w, _, rfl⟩ := List.mem_map.mp hd
      exact ⟨trivial, nofun⟩
  rcases List.mem_append.mp hmem with hmem | hmem
  · obtain ⟨head, data, hd, hdata, hdatum⟩ := hcollects.data datum hmem
    obtain ⟨env, code, ⟨hsized, hcode⟩, hglobal⟩ := h.inside hd
    split at hcode
    · rename_i hdepth
      rw [hcode.2] at hdata
      cases hdata
      obtain ⟨d, hitem, rfl⟩ := List.mem_map.mp hdatum
      simp only [List.mem_cons, List.not_mem_nil, or_false] at hitem
      rcases hitem with rfl | rfl
      · refine ⟨trivial, fun label hlabel => .inr ?_⟩
        cases hlabel
        exact ⟨head, hglobal hdepth, rfl⟩
      · have hlt := hsized.size_lt
        refine ⟨⟨_, rfl, ?_⟩, nofun⟩
        rw [hsized.expand_eq, Word.toInt_ofInt (by omega) hlt]
    · obtain ⟨offset, n, _, hstorage, _⟩ := hcode
      rw [hstorage] at hdata
      cases hdata
      exact hwords _ n _ _ rfl hdatum
  · obtain ⟨data, hdata, hdatum⟩ := List.mem_flatten.mp hmem
    obtain ⟨span, n, words, hform⟩ := h.strings data hdata
    exact hwords span n words data hform hdatum

/-! ## The segments of a program -/

/-- The first function with a name is the one that the name stands for. -/
theorem functionNamed?_eq {ds : List Definition} {name : String} {head : FunctionHead}
    {body : List Statement} (hnodup : ((Region.definitions ds).entities.map Prod.fst).Nodup)
    (h : (Region.definitions ds).entities.lookup name = some (.function head body)) :
    Program.functionNamed? ds name = some head.id := by
  obtain ⟨hmem, rfl⟩ := mem_entities_function (mem_of_lookup h)
  clear h
  induction ds with
  | nil => cases hmem
  | cons d ds ih =>
      obtain ⟨hnot, hnodup'⟩ := List.nodup_cons.mp hnodup
      rcases List.mem_cons.mp hmem with rfl | hds
      · rw [Program.functionNamed?, if_pos rfl]
      · have hin : head.name.text ∈ (Region.definitions ds).entities.map Prod.fst :=
          List.mem_map.mpr ⟨_, List.mem_map_of_mem hds, rfl⟩
        cases d with
        | var head' => exact ih hnodup' hds
        | func head' body' =>
            have hne : head'.name.text ≠ head.name.text := by
              intro heq
              rw [← heq] at hin
              exact hnot hin
            rw [Program.functionNamed?, if_neg hne]
            exact ih hnodup' hds

theorem Program.frameNamed_ok {program : Program} {layout : Layout} {name : String}
    {head : FunctionHead} {body : List Statement} {frame frame' : Frame}
    (hnodup : ((Region.definitions program).entities.map Prod.fst).Nodup)
    (h : (Region.definitions program).entities.lookup name = some (.function head body))
    (hframe : layout.frames[head.id]? = some frame)
    (hok : program.frameNamed layout name = .ok frame') : frame' = frame := by
  rw [frameNamed, functionNamed?_eq hnodup h] at hok
  exact (Except.ok.inj ((Layout.frame_ok hframe).symm.trans hok)).symm

/-- The segments of a program: the code that calls `main`, the fragments of all definitions, and
behind them the strings. -/
theorem Program.assemble_eq {program : Program} {layout : Layout} {fragments : Fragments}
    {segments : Segments} (h : program.assemble layout fragments = .ok segments) :
    ∃ main exit, program.frameNamed layout "main" = .ok main ∧
      program.frameNamed layout "exit" = .ok exit ∧
      fragments.HasData (definitionsInside program) ∧
      segments = ⟨entryCode main exit, []⟩ ++ fragments.segments (definitionsInside program)
        ++ ⟨[], fragments.strings.flatten⟩ := by
  obtain ⟨main, hmain, h⟩ := bind_eq_ok h
  obtain ⟨exit, hexit, h⟩ := bind_eq_ok h
  obtain ⟨inner, hinner, h⟩ := bind_eq_ok h
  cases h
  obtain ⟨hdata, rfl⟩ := (collectDefinitions_gives fragments program inner).mp hinner
  exact ⟨main, exit, hmain, hexit, hdata, rfl⟩

theorem Program.assemble_ok {program : Program} {layout : Layout} {fragments : Fragments}
    {segments : Segments} (h : program.assemble layout fragments = .ok segments) :
    ∃ (main exit : Frame) (inner : Segments), program.frameNamed layout "main" = .ok main ∧
      program.frameNamed layout "exit" = .ok exit ∧
      inner.Collects fragments (definitionsInside program) ∧
      segments.code = entryCode main exit ++ inner.code ∧
      segments.data = inner.data ++ fragments.strings.flatten := by
  obtain ⟨main, exit, hmain, hexit, hdata, rfl⟩ := assemble_eq h
  refine ⟨main, exit, _, hmain, hexit, hdata.collects, ?_, rfl⟩
  show entryCode main exit ++ _ ++ [] = _
  rw [List.append_nil]

end NestedFun
