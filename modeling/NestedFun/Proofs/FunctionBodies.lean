import NestedFun.Proofs.GeneratedPrograms

namespace NestedFun

/-!
# Code of functions

The code of every function among the fragments is what generating its body has yielded, with the
prologue and the epilogue around it.
-/

namespace Generation

variable {α β : Type} {P : NodeId × Code → Prop}

def Adds (P : NodeId × Code → Prop) (x : Generation α) : Prop :=
  ∀ (g : Generated) (a : α) (g' : Generated), x g = .ok (a, g') →
    ∀ entry ∈ g'.functions.toList, entry ∈ g.functions.toList ∨ P entry

/-- A computation that adds no functions. -/
theorem Adds.of_functions_eq {x : Generation α}
    (h : ∀ (g : Generated) (a : α) (g' : Generated), x g = .ok (a, g') →
      g'.functions = g.functions) : x.Adds P := by
  intro g a g' hrun entry hentry
  rw [h g a g' hrun] at hentry
  exact .inl hentry

theorem adds_pure (a : α) : (pure a : Generation α).Adds P :=
  .of_functions_eq fun g a' g' h => by
    cases h
    rfl

theorem adds_lift (x : Except InternalError α) : (liftM x : Generation α).Adds P :=
  .of_functions_eq fun g a g' h => by rw [(lift_ok h).2]

theorem adds_throw (error : InternalError) : (throw error : Generation α).Adds P :=
  .of_functions_eq fun g a g' h => by cases h

/-- What follows a computation may depend on how it ran. -/
theorem Adds.bind_run {x : Generation α} {f : α → Generation β} (hx : x.Adds P)
    (hf : ∀ g a g', x g = .ok (a, g') → (f a).Adds P) : (x >>= f).Adds P := by
  intro g b g'' hrun entry hentry
  obtain ⟨a, g', ha, hb⟩ := bind_ok hrun
  rcases hf g a g' ha g' b g'' hb entry hentry with hentry | hentry
  · exact hx g a g' ha entry hentry
  · exact .inr hentry

theorem Adds.bind {x : Generation α} {f : α → Generation β} (hx : x.Adds P)
    (hf : ∀ a, (f a).Adds P) : (x >>= f).Adds P :=
  hx.bind_run fun _ a _ _ => hf a

theorem Adds.map {x : Generation α} (hx : x.Adds P) (f : α → β) :
    (x >>= fun a => pure (f a)).Adds P :=
  hx.bind fun _ => adds_pure _

theorem adds_freshDataLabel : freshDataLabel.Adds P :=
  .of_functions_eq fun g a g' h => by
    cases h
    rfl

theorem adds_freshBranchLabels : freshBranchLabels.Adds P :=
  .of_functions_eq fun g a g' h => by
    cases h
    rfl

theorem adds_freshLoopLabels : freshLoopLabels.Adds P :=
  .of_functions_eq fun g a g' h => by
    cases h
    rfl

theorem adds_emitVariable (id : NodeId) (data : Data) : (emitVariable id data).Adds P :=
  .of_functions_eq fun g a g' h => by
    cases h
    rfl

theorem adds_emitString (data : Data) : (emitString data).Adds P :=
  .of_functions_eq fun g a g' h => by
    cases h
    rfl

theorem adds_emitFunction {id : NodeId} {code : Code} (h : P (id, code)) :
    (emitFunction id code).Adds P := by
  intro g a g' hrun entry hentry
  cases hrun
  rw [Array.toList_push, List.mem_append, List.mem_singleton] at hentry
  rcases hentry with hentry | rfl
  · exact .inl hentry
  · exact .inr h

end Generation

open Generation

section

variable {context : Context} {frame : Frame} {P : NodeId × Code → Prop}

mutual

theorem Expression.value_adds (e : Expression) : (e.value context frame).Adds P := by
  cases e with
  | literal node value =>
      rw [Expression.value]
      cases value.kind with
      | integer | character => exact adds_pure _
      | string =>
          exact adds_freshDataLabel.bind fun _ => (adds_emitString _).bind fun _ => adds_pure _
  | name node name =>
      rw [Expression.value]
      exact (adds_lift _).map _
  | call node callee arguments =>
      rw [Expression.value]
      exact (adds_lift _).bind fun _ => (argumentValues_adds arguments).bind fun _ =>
        (adds_lift _).map _
  | unary node operator operand =>
      have hvalue := operand.value_adds
      rw [Expression.value]
      cases operator.kind with
      | not | negate | dereference => exact hvalue.map _
      | identity => exact hvalue
      | addressOf => exact operand.address_adds
  | binary node operator left right =>
      rw [Expression.value]
      exact right.value_adds.bind fun _ => left.value_adds.map _

theorem Expression.address_adds (e : Expression) : (e.address context frame).Adds P := by
  cases e with
  | name node name =>
      rw [Expression.address]
      exact adds_lift _
  | unary node operator operand =>
      rw [Expression.address]
      split
      · exact operand.value_adds
      · exact adds_throw _
  | literal node value => exact adds_throw _
  | call node callee arguments => exact adds_throw _
  | binary node operator left right => exact adds_throw _

theorem argumentValues_adds (es : List Expression) : (argumentValues context frame es).Adds P := by
  cases es with
  | nil => exact adds_pure _
  | cons e es =>
      rw [argumentValues]
      exact (argumentValues_adds es).bind fun _ => e.value_adds.map _

end

theorem emitLocal_adds (head : Variable) : (emitLocal context head).Adds P := by
  rw [emitLocal]
  refine (adds_lift _).bind fun access => ?_
  rcases access with ⟨offset, depth, size, _ | contents⟩ | ⟨label, size, contents⟩
  · exact adds_throw _
  · exact adds_freshDataLabel.bind fun _ => (adds_emitVariable _ _).map _
  · exact adds_throw _

theorem emitGlobal_adds (head : Variable) : (emitGlobal context head).Adds P := by
  rw [emitGlobal]
  refine (adds_lift _).bind fun access => ?_
  cases access with
  | relative offset depth size contents => exact adds_throw _
  | absolute label size contents => exact adds_emitVariable _ _

end

def Context.Produces (context : Context) (ds : List Definition) (entry : NodeId × Code) : Prop :=
  ∃ head body frame code g g', .func head body ∈ ds ∧
    context.layout.frames[head.id]? = some frame ∧
    generateStatements context frame true body g = .ok (code, g') ∧
    entry = (head.id, functionCode head frame code)

section

variable {context : Context} {frame : Frame} {ds : List Definition}

mutual

theorem Statement.generate_adds (s : Statement) {frame : Frame} {keep : Bool}
    (hinside : s.inside ⊆ ds) :
    (s.generate context frame keep).Adds (context.Produces ds) := by
  cases s with
  | eval node value =>
      rw [Statement.generate]
      exact value.value_adds.map _
  | assign node target source =>
      rw [Statement.generate]
      exact source.value_adds.bind fun _ => target.address_adds.map _
  | branch node condition positive negative =>
      rw [Statement.generate]
      exact adds_freshBranchLabels.bind fun _ =>
        (generateStatements_adds positive (List.append_subset.mp hinside).1).bind fun _ =>
          (generateStatements_adds negative (List.append_subset.mp hinside).2).bind fun _ =>
            condition.value_adds.map _
  | loop node condition body =>
      rw [Statement.generate]
      exact adds_freshLoopLabels.bind fun _ => condition.value_adds.bind fun _ =>
        (generateStatements_adds body hinside).map _
  | block node definitions body =>
      rw [Statement.generate]
      exact (generateDefinitions_adds definitions (List.append_subset.mp hinside).1).bind fun _ =>
        (generateStatements_adds body (List.append_subset.mp hinside).2).map _

theorem generateStatements_adds (ss : List Statement) {frame : Frame} {keep : Bool}
    (hinside : statementsInside ss ⊆ ds) :
    (generateStatements context frame keep ss).Adds (context.Produces ds) := by
  cases ss with
  | nil => exact adds_pure _
  | cons s ss =>
      have hs := (List.append_subset.mp hinside).1
      have hss := (List.append_subset.mp hinside).2
      cases ss with
      | nil =>
          rw [generateStatements]
          exact s.generate_adds hs
      | cons s' ss =>
          rw [generateStatements]
          · exact (s.generate_adds hs).bind fun _ => (generateStatements_adds (s' :: ss) hss).map _
          · simp

theorem Definition.generate_adds (d : Definition) (hinside : d.inside ⊆ ds) :
    (d.generate context).Adds (context.Produces ds) := by
  cases d with
  | var head =>
      rw [Definition.generate]
      exact emitLocal_adds head
  | func head body =>
      obtain ⟨hfunction, hbody⟩ := List.cons_subset.mp hinside
      rw [Definition.generate]
      split
      · exact adds_pure _
      · refine (adds_lift _).bind_run fun g frame g' hlift => ?_
        have hframe := Layout.getElem?_of_frame (lift_ok hlift).1
        refine (generateStatements_adds body hbody).bind_run fun g₁ code g₂ hrun => ?_
        exact (adds_emitFunction ⟨head, body, frame, code, g₁, g₂, hfunction, hframe, hrun,
          rfl⟩).map _

theorem generateDefinitions_adds (definitions : List Definition)
    (hinside : definitionsInside definitions ⊆ ds) :
    (generateDefinitions context definitions).Adds (context.Produces ds) := by
  cases definitions with
  | nil => exact adds_pure _
  | cons d definitions =>
      rw [generateDefinitions]
      exact (d.generate_adds (List.append_subset.mp hinside).1).bind fun _ =>
        (generateDefinitions_adds definitions (List.append_subset.mp hinside).2).map _

end

theorem Definition.emit_adds (d : Definition) (hinside : d.inside ⊆ ds) :
    (d.emit context).Adds (context.Produces ds) := by
  cases d with
  | var head => exact emitGlobal_adds head
  | func head body => exact ((Definition.func head body).generate_adds hinside).map _

theorem forM_emit_adds (definitions : List Definition)
    (hinside : definitionsInside definitions ⊆ ds) :
    (definitions.forM (Definition.emit context) : Generation PUnit).Adds
      (context.Produces ds) := by
  induction definitions with
  | nil => exact adds_pure _
  | cons d definitions ih =>
      rw [List.forM_eq_forM, List.forM_cons]
      exact (d.emit_adds (List.append_subset.mp hinside).1).bind fun _ =>
        ih (List.append_subset.mp hinside).2

end

/-- Every function with a body has the code of its body. -/
theorem Program.GeneratedFrom.function_code {program : Program} {context : Context} {n : Nat}
    {fragments : Fragments} (h : program.GeneratedFrom context n fragments) {head : FunctionHead}
    {body : List Statement} (hmem : .func head body ∈ definitionsInside program)
    (hbody : body ≠ []) :
    ∃ frame code g g', context.layout.frames[head.id]? = some frame ∧
      generateStatements context frame true body g = .ok (code, g') ∧
      fragments.functions[head.id]? = some (functionCode head frame code) := by
  obtain ⟨env, hstands⟩ := h.translated.function_stands hmem hbody
  obtain ⟨frame, code, -, -, -, -, hfragment⟩ := hstands.code
  obtain ⟨u, g, hrun, -, hperm, -⟩ := h.run
  have hentry := hperm.mem_iff.mp (Std.TreeMap.mem_toList_iff_getElem?_eq_some.mpr hfragment)
  rcases forM_emit_adds program (List.Subset.refl _) _ _ _ hrun _ hentry with hnone | hproduced
  · cases hnone
  · obtain ⟨head', body', frame', code', g₁, g₂, hmem', hframe', hrun', heq⟩ := hproduced
    obtain ⟨hid, hcode⟩ := Prod.mk.inj heq
    have hsame : Definition.func head body = .func head' body' :=
      List.inj_on_of_nodup_map h.translated.nodup_inside hmem hmem' hid
    cases hsame
    exact ⟨frame', code', g₁, g₂, hframe', hrun', hcode ▸ hfragment⟩

end NestedFun
