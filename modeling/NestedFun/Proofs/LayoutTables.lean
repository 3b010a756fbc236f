import NestedFun.Proofs.NodeNumbers
import NestedFun.Proofs.Placement

namespace NestedFun

/-!
# The tables of a layout

A layout has entries for what is declared inside the program and for nothing else: frames of the
functions, and accesses of the variables and parameters, each with its own size.
-/

/-- The bytes of each thing that is stored for a definition, if their number fits a word. -/
def Definition.storedSize? : Definition → Option Int
  | .func _ _ => some wordSize
  | .var head => (Contents.ofVariable head).size?

namespace LayoutState

structure Fills (ds : List Definition) (a b : LayoutState) : Prop where
  mem_frames : ∀ id, id ∈ b.layout.frames ↔ id ∈ a.layout.frames ∨ ∃ d ∈ ds, id ∈ d.framed
  mem_accesses : ∀ id, id ∈ b.layout.accesses ↔ id ∈ a.layout.accesses ∨ ∃ d ∈ ds, id ∈ d.stored
  size_access : ∀ (id : NodeId) (access : Access), b.layout.accesses[id]? = some access →
    a.layout.accesses[id]? = some access ∨
      ∃ d ∈ ds, id ∈ d.stored ∧ d.storedSize? = some access.size

namespace Fills

variable {ds ds' : List Definition} {a b c : LayoutState}

theorem refl (state : LayoutState) : Fills [] state state :=
  ⟨fun _ => by simp, fun _ => by simp, fun _ _ h => .inl h⟩

theorem trans (h : Fills ds a b) (h' : Fills ds' b c) : Fills (ds ++ ds') a c where
  mem_frames id := by
    rw [h'.mem_frames, h.mem_frames]
    simp only [List.mem_append, or_and_right, exists_or, or_assoc]
  mem_accesses id := by
    rw [h'.mem_accesses, h.mem_accesses]
    simp only [List.mem_append, or_and_right, exists_or, or_assoc]
  size_access id access haccess := by
    rcases h'.size_access id access haccess with hold | ⟨d, hd, hnew⟩
    · rcases h.size_access id access hold with hold | ⟨d, hd, hnew⟩
      · exact .inl hold
      · exact .inr ⟨d, List.mem_append_left _ hd, hnew⟩
    · exact .inr ⟨d, List.mem_append_right _ hd, hnew⟩

/-- A new access. -/
theorem mem_addAccess (layout : Layout) (id id' : NodeId) (access : Access) :
    id' ∈ (layout.addAccess id access).accesses ↔ id = id' ∨ id' ∈ layout.accesses := by
  show id' ∈ layout.accesses.insert id access ↔ _
  rw [Std.TreeMap.mem_insert, Std.LawfulEqCmp.compare_eq_iff_eq]

theorem getElem?_addAccess {layout : Layout} {id id' : NodeId} {access access' : Access}
    (h : (layout.addAccess id access).accesses[id']? = some access') :
    (id = id' ∧ access' = access) ∨ layout.accesses[id']? = some access' := by
  have h' : (layout.accesses.insert id access)[id']? = some access' := h
  rw [getElem?_insert] at h'
  split at h'
  · rename_i heq
    exact .inl ⟨heq, (Option.some.inj h').symm⟩
  · exact .inr h'

theorem addVariable {owner : Option Owner} {head : Variable}
    (h : a.addVariable owner head = .ok b) : Fills [.var head] a b := by
  obtain ⟨_, access, locals, hsize, rfl, rfl, -⟩ := addVariable_ok h
  refine ⟨fun id => ?_, fun id => ?_, fun id access' haccess => ?_⟩
  · simp [Definition.framed, Layout.addAccess]
  · rw [mem_addAccess]
    simp only [List.mem_singleton, exists_eq_left, Definition.stored]
    exact ⟨fun h => h.symm.imp_right Eq.symm, fun h => h.symm.imp_left Eq.symm⟩
  · rcases getElem?_addAccess haccess with ⟨rfl, rfl⟩ | hold
    · exact .inr ⟨_, List.mem_singleton_self _, List.mem_singleton_self _, hsize⟩
    · exact .inl hold

end Fills

/-- What the parameters of a function add. -/
theorem addParameters_fills (ps : List Parameter) (state : LayoutState) (depth : Nat)
    (offset : Int) :
    (state.addParameters depth offset ps).layout.frames = state.layout.frames ∧
      (∀ id, id ∈ (state.addParameters depth offset ps).layout.accesses ↔
        id ∈ state.layout.accesses ∨ id ∈ ps.map fun p => p.id) ∧
      ∀ (id : NodeId) (access : Access),
        (state.addParameters depth offset ps).layout.accesses[id]? = some access →
          state.layout.accesses[id]? = some access ∨
            (id ∈ ps.map fun p => p.id) ∧ access.size = wordSize := by
  induction ps generalizing state offset with
  | nil => exact ⟨rfl, fun _ => by simp [addParameters], fun _ _ h => .inl h⟩
  | cons p ps ih =>
      obtain ⟨hframes, hmem, hsize⟩ := ih ⟨state.taken, state.layout.addAccess p.id
        (.relative offset depth wordSize none), state.locals⟩ (offset + wordSize)
      refine ⟨hframes, fun id => ?_, fun id access h => ?_⟩
      · rw [addParameters, hmem, Fills.mem_addAccess, List.map_cons, List.mem_cons]
        tauto
      · rcases hsize id access h with hold | ⟨hid, hsize⟩
        · rcases Fills.getElem?_addAccess hold with ⟨rfl, rfl⟩ | hold
          · exact .inr ⟨List.mem_cons_self, rfl⟩
          · exact .inl hold
        · exact .inr ⟨List.mem_cons_of_mem _ hid, hsize⟩

/-- A function adds what is inside it, its parameters and its frame. -/
theorem Fills.function {state filled : LayoutState} {head : FunctionHead} {body : List Statement}
    {label : String} {depth : Nat} {frame : Frame} {locals : Int}
    (h : Fills (statementsInside body) (LayoutState.addParameters
      ⟨label :: state.taken, state.layout, 0⟩ depth linkSize head.parameters) filled) :
    Fills (Definition.func head body).inside state
      ⟨filled.taken, filled.layout.addFrame head.id frame, locals⟩ := by
  -- the parameters come first, then the body, and the frame last
  obtain ⟨hframes, hmem, hsize⟩ :=
    addParameters_fills head.parameters ⟨label :: state.taken, state.layout, 0⟩ depth linkSize
  refine ⟨fun id => ?_, fun id => ?_, fun id access haccess => ?_⟩
  · show id ∈ filled.layout.frames.insert head.id frame ↔ _
    rw [Std.TreeMap.mem_insert, Std.LawfulEqCmp.compare_eq_iff_eq, h.mem_frames, hframes]
    simp only [Definition.inside, List.mem_cons, exists_eq_or_imp, Definition.framed]
    rw [eq_comm]
    tauto
  · show id ∈ filled.layout.accesses ↔ _
    rw [h.mem_accesses, hmem]
    simp only [Definition.inside, List.mem_cons, exists_eq_or_imp, Definition.stored]
    tauto
  · rcases h.size_access id access haccess with hold | ⟨d, hd, hnew⟩
    · rcases hsize id access hold with hold | ⟨hid, hsize⟩
      · exact .inl hold
      · exact .inr ⟨_, List.mem_cons_self, hid, congrArg some hsize.symm⟩
    · exact .inr ⟨d, List.mem_cons_of_mem _ hd, hnew⟩

end LayoutState

open LayoutState

mutual

theorem Definition.layOut_fills (d : Definition) {owner : Option Owner}
    {state state' : LayoutState} (h : d.layOut owner state = .ok state') :
    Fills d.inside state state' := by
  cases d with
  | var head =>
      rw [Definition.layOut] at h
      exact .addVariable h
  | func head body =>
      obtain ⟨label, depth, filled, -, -, hbody, -, rfl⟩ := layOut_func h
      exact .function (layOutStatements_fills body hbody)

theorem layOutDefinitions_fills (ds : List Definition) {owner : Option Owner}
    {state state' : LayoutState} (h : layOutDefinitions owner state ds = .ok state') :
    Fills (definitionsInside ds) state state' := by
  cases ds with
  | nil =>
      cases h
      exact .refl state
  | cons d ds =>
      rw [layOutDefinitions] at h
      obtain ⟨state₁, hfirst, h⟩ := bind_eq_ok h
      exact (d.layOut_fills hfirst).trans (layOutDefinitions_fills ds h)

theorem Statement.layOut_fills (s : Statement) {owner : Option Owner}
    {state state' : LayoutState} (h : s.layOut owner state = .ok state') :
    Fills s.inside state state' := by
  cases s with
  | eval node value =>
      cases h
      exact .refl state
  | assign node target source =>
      cases h
      exact .refl state
  | branch node condition positive negative =>
      rw [Statement.layOut] at h
      obtain ⟨state₁, hpositive, h⟩ := bind_eq_ok h
      exact (layOutStatements_fills positive hpositive).trans (layOutStatements_fills negative h)
  | loop node condition body =>
      rw [Statement.layOut] at h
      exact layOutStatements_fills body h
  | block node ds body =>
      rw [Statement.layOut] at h
      obtain ⟨state₁, hds, h⟩ := bind_eq_ok h
      exact (layOutDefinitions_fills ds hds).trans (layOutStatements_fills body h)

theorem layOutStatements_fills (ss : List Statement) {owner : Option Owner}
    {state state' : LayoutState} (h : layOutStatements owner state ss = .ok state') :
    Fills (statementsInside ss) state state' := by
  cases ss with
  | nil =>
      cases h
      exact .refl state
  | cons s ss =>
      rw [layOutStatements] at h
      obtain ⟨state₁, hfirst, h⟩ := bind_eq_ok h
      exact (s.layOut_fills hfirst).trans (layOutStatements_fills ss h)

end

/-! ## Numbers of entries -/

/-- No two definitions of a program that was read share an entry. -/
theorem Program.Numbered.stored_unique {program : Program} {count : Nat}
    (h : program.Numbered count) {d e : Definition} (hd : d ∈ definitionsInside program)
    (he : e ∈ definitionsInside program) {id : NodeId} (hid : id ∈ d.stored)
    (hid' : id ∈ e.stored) : d = e := by
  have hnodup := h.nodup_declared
  rw [map_definitionsOwners] at hnodup
  have hsymm : Std.Symm (Function.onFun List.Disjoint fun e : Definition => e.framed ++ e.stored) :=
    ⟨fun _ _ h => h.symm⟩
  by_contra hne
  exact (List.nodup_flatMap.mp hnodup).2.forall hd he hne (List.mem_append_right _ hid)
    (List.mem_append_right _ hid')

end NestedFun
