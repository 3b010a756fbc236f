import NestedFun.Proofs.InitialContents

namespace NestedFun

/-!
# Parts of a program

The expressions of a program together with the functions that they stand in, and the targets of its
assignments. Conditions on programs are conditions on these.
-/

mutual

def Expression.parts : Expression → List Expression
  | .literal node value => [.literal node value]
  | .name node name => [.name node name]
  | .call node callee arguments => .call node callee arguments :: expressionParts arguments
  | .unary node operator operand => .unary node operator operand :: operand.parts
  | .binary node operator left right =>
    .binary node operator left right :: (left.parts ++ right.parts)

def expressionParts : List Expression → List Expression
  | [] => []
  | expression :: expressions => expression.parts ++ expressionParts expressions

end

def Expression.uses (head : FunctionHead) (e : Expression) : List (FunctionHead × Expression) :=
  e.parts.map fun part => (head, part)

mutual

/-- All expressions in a definition, each with the innermost function around it. -/
def Definition.uses : Definition → List (FunctionHead × Expression)
  | .func head body => statementsUses head body
  | .var _ => []

def definitionsUses : List Definition → List (FunctionHead × Expression)
  | [] => []
  | definition :: definitions => definition.uses ++ definitionsUses definitions

def Statement.uses (head : FunctionHead) : Statement → List (FunctionHead × Expression)
  | .eval _ value => value.uses head
  | .assign _ target source => target.uses head ++ source.uses head
  | .branch _ condition positive negative =>
    condition.uses head ++ statementsUses head positive ++ statementsUses head negative
  | .loop _ condition body => condition.uses head ++ statementsUses head body
  | .block _ definitions body => definitionsUses definitions ++ statementsUses head body

def statementsUses (head : FunctionHead) : List Statement → List (FunctionHead × Expression)
  | [] => []
  | statement :: statements => statement.uses head ++ statementsUses head statements

end

mutual

def Definition.targets : Definition → List Expression
  | .func _ body => statementsTargets body
  | .var _ => []

def definitionsTargets : List Definition → List Expression
  | [] => []
  | definition :: definitions => definition.targets ++ definitionsTargets definitions

def Statement.targets : Statement → List Expression
  | .eval _ _ => []
  | .assign _ target _ => [target]
  | .branch _ _ positive negative => statementsTargets positive ++ statementsTargets negative
  | .loop _ _ body => statementsTargets body
  | .block _ definitions body => definitionsTargets definitions ++ statementsTargets body

def statementsTargets : List Statement → List Expression
  | [] => []
  | statement :: statements => statement.targets ++ statementsTargets statements

end

def Expression.IsName : Expression → Prop
  | .name _ _ => True
  | _ => False

instance : DecidablePred Expression.IsName
  | .name _ _ => isTrue trivial
  | .literal _ _ | .call _ _ _ | .unary _ _ _ | .binary _ _ _ _ => isFalse not_false

def Definition.StoresWord : Definition → Prop
  | .func _ _ => True
  | .var head => head.words ≠ []

instance : DecidablePred Definition.StoresWord
  | .func _ _ => isTrue trivial
  | .var head => inferInstanceAs (Decidable (head.words ≠ []))

mutual

theorem Definition.uses_of_inside {d e : Definition} (h : e ∈ d.inside) : e.uses ⊆ d.uses := by
  cases d with
  | var head =>
      cases List.mem_singleton.mp h
      exact List.Subset.refl _
  | func head body =>
      rcases List.mem_cons.mp h with rfl | h
      · exact List.Subset.refl _
      · exact statementsUses_of_inside h

theorem definitionsUses_of_inside {ds : List Definition} {e : Definition}
    (h : e ∈ definitionsInside ds) : e.uses ⊆ definitionsUses ds := by
  cases ds with
  | nil => cases h
  | cons d ds =>
      rcases List.mem_append.mp h with h | h
      · exact List.subset_append_of_subset_left _ (Definition.uses_of_inside h)
      · exact List.subset_append_of_subset_right _ (definitionsUses_of_inside h)

theorem Statement.uses_of_inside {s : Statement} {head : FunctionHead} {e : Definition}
    (h : e ∈ s.inside) : e.uses ⊆ s.uses head := by
  cases s with
  | eval node value => cases h
  | assign node target source => cases h
  | branch node condition positive negative =>
      rcases List.mem_append.mp h with h | h
      · exact List.subset_append_of_subset_left _
          (List.subset_append_of_subset_right _ (statementsUses_of_inside h))
      · exact List.subset_append_of_subset_right _ (statementsUses_of_inside h)
  | loop node condition body =>
      exact List.subset_append_of_subset_right _ (@statementsUses_of_inside body head _ h)
  | block node ds body =>
      rcases List.mem_append.mp h with h | h
      · exact List.subset_append_of_subset_left _ (definitionsUses_of_inside h)
      · exact List.subset_append_of_subset_right _ (statementsUses_of_inside h)

theorem statementsUses_of_inside {ss : List Statement} {head : FunctionHead} {e : Definition}
    (h : e ∈ statementsInside ss) : e.uses ⊆ statementsUses head ss := by
  cases ss with
  | nil => cases h
  | cons s ss =>
      rcases List.mem_append.mp h with h | h
      · exact List.subset_append_of_subset_left _ (Statement.uses_of_inside h)
      · exact List.subset_append_of_subset_right _ (statementsUses_of_inside h)

end

mutual

theorem Definition.targets_of_inside {d e : Definition} (h : e ∈ d.inside) :
    e.targets ⊆ d.targets := by
  cases d with
  | var head =>
      cases List.mem_singleton.mp h
      exact List.Subset.refl _
  | func head body =>
      rcases List.mem_cons.mp h with rfl | h
      · exact List.Subset.refl _
      · exact statementsTargets_of_inside h

theorem definitionsTargets_of_inside {ds : List Definition} {e : Definition}
    (h : e ∈ definitionsInside ds) : e.targets ⊆ definitionsTargets ds := by
  cases ds with
  | nil => cases h
  | cons d ds =>
      rcases List.mem_append.mp h with h | h
      · exact List.subset_append_of_subset_left _ (Definition.targets_of_inside h)
      · exact List.subset_append_of_subset_right _ (definitionsTargets_of_inside h)

theorem Statement.targets_of_inside {s : Statement} {e : Definition} (h : e ∈ s.inside) :
    e.targets ⊆ s.targets := by
  cases s with
  | eval node value => cases h
  | assign node target source => cases h
  | branch node condition positive negative =>
      rcases List.mem_append.mp h with h | h
      · exact List.subset_append_of_subset_left _ (statementsTargets_of_inside h)
      · exact List.subset_append_of_subset_right _ (statementsTargets_of_inside h)
  | loop node condition body => exact @statementsTargets_of_inside body _ h
  | block node ds body =>
      rcases List.mem_append.mp h with h | h
      · exact List.subset_append_of_subset_left _ (definitionsTargets_of_inside h)
      · exact List.subset_append_of_subset_right _ (statementsTargets_of_inside h)

theorem statementsTargets_of_inside {ss : List Statement} {e : Definition}
    (h : e ∈ statementsInside ss) : e.targets ⊆ statementsTargets ss := by
  cases ss with
  | nil => cases h
  | cons s ss =>
      rcases List.mem_append.mp h with h | h
      · exact List.subset_append_of_subset_left _ (Statement.targets_of_inside h)
      · exact List.subset_append_of_subset_right _ (statementsTargets_of_inside h)

end

/-! ## Expressions that were read -/

/-- What is true of every expression that was read: its nodes have numbers of their own, and its
integer and character constants are words. -/
structure Expression.IsRead (e : Expression) : Prop where
  nodup : e.ids.Nodup
  wellFormed : e.WellFormed

mutual

theorem Expression.IsRead.part {e part : Expression} (h : e.IsRead) (hpart : part ∈ e.parts) :
    part.IsRead := by
  cases e with
  | literal node value =>
      cases List.mem_singleton.mp hpart
      exact h
  | name node name =>
      cases List.mem_singleton.mp hpart
      exact h
  | call node callee arguments =>
      rcases List.mem_cons.mp hpart with rfl | hpart
      · exact h
      · exact isRead_expressionParts h.nodup.of_append_left.of_cons h.wellFormed hpart
  | unary node operator operand =>
      rcases List.mem_cons.mp hpart with rfl | hpart
      · exact h
      · exact Expression.IsRead.part ⟨h.nodup.of_append_left, h.wellFormed⟩ hpart
  | binary node operator left right =>
      have hnodup := h.nodup.of_append_left
      rcases List.mem_cons.mp hpart with rfl | hpart
      · exact h
      · rcases List.mem_append.mp hpart with hpart | hpart
        · exact Expression.IsRead.part ⟨hnodup.of_append_left, h.wellFormed.1⟩ hpart
        · exact Expression.IsRead.part ⟨hnodup.of_append_right, h.wellFormed.2⟩ hpart

theorem isRead_expressionParts {es : List Expression} {part : Expression}
    (hnodup : (expressionIds es).Nodup) (hwell : WellFormedExpressions es)
    (hpart : part ∈ expressionParts es) : part.IsRead := by
  cases es with
  | nil => cases hpart
  | cons e es =>
      rcases List.mem_append.mp hpart with hpart | hpart
      · exact Expression.IsRead.part ⟨hnodup.of_append_left, hwell.1⟩ hpart
      · exact isRead_expressionParts hnodup.of_append_right hwell.2 hpart

end

theorem Expression.IsRead.uses {e : Expression} {head : FunctionHead}
    (hnodup : e.ids.Nodup) (hwell : e.WellFormed) {use : FunctionHead × Expression}
    (huse : use ∈ e.uses head) : use.2.IsRead := by
  obtain ⟨part, hpart, rfl⟩ := List.mem_map.mp huse
  exact Expression.IsRead.part ⟨hnodup, hwell⟩ hpart

mutual

theorem Definition.isRead_uses {d : Definition} (hnodup : d.ids.Nodup) (hwell : d.WellFormed)
    {use : FunctionHead × Expression} (huse : use ∈ d.uses) : use.2.IsRead := by
  cases d with
  | var head => cases huse
  | func head body =>
      have hbody : use ∈ statementsUses head body := huse
      exact isRead_statementsUses hnodup.of_append_left.of_cons.of_append_right hwell.2 hbody

theorem isRead_definitionsUses {ds : List Definition} (hnodup : (definitionIds ds).Nodup)
    (hwell : WellFormedDefinitions ds) {use : FunctionHead × Expression}
    (huse : use ∈ definitionsUses ds) : use.2.IsRead := by
  cases ds with
  | nil => cases huse
  | cons d ds =>
      rcases List.mem_append.mp huse with huse | huse
      · exact Definition.isRead_uses hnodup.of_append_left hwell.1 huse
      · exact isRead_definitionsUses hnodup.of_append_right hwell.2 huse

theorem Statement.isRead_uses {s : Statement} {head : FunctionHead} (hnodup : s.ids.Nodup)
    (hwell : s.WellFormed) {use : FunctionHead × Expression} (huse : use ∈ s.uses head) :
    use.2.IsRead := by
  cases s with
  | eval node value => exact Expression.IsRead.uses hnodup.of_append_left hwell huse
  | assign node target source =>
      have hids := hnodup.of_append_left
      rcases List.mem_append.mp huse with huse | huse
      · exact Expression.IsRead.uses hids.of_append_left hwell.1 huse
      · exact Expression.IsRead.uses hids.of_append_right hwell.2 huse
  | branch node condition positive negative =>
      have hids := hnodup.of_append_left
      rcases List.mem_append.mp huse with huse | huse
      · rcases List.mem_append.mp huse with huse | huse
        · exact Expression.IsRead.uses hids.of_append_left.of_append_left hwell.1 huse
        · exact isRead_statementsUses hids.of_append_left.of_append_right hwell.2.1 huse
      · exact isRead_statementsUses hids.of_append_right hwell.2.2 huse
  | loop node condition body =>
      have hids := hnodup.of_append_left
      rcases List.mem_append.mp huse with huse | huse
      · exact Expression.IsRead.uses hids.of_append_left hwell.1 huse
      · exact isRead_statementsUses hids.of_append_right hwell.2 huse
  | block node ds body =>
      have hids := hnodup.of_append_left
      rcases List.mem_append.mp huse with huse | huse
      · exact isRead_definitionsUses hids.of_append_left hwell.1 huse
      · exact isRead_statementsUses hids.of_append_right hwell.2 huse

theorem isRead_statementsUses {ss : List Statement} {head : FunctionHead}
    (hnodup : (statementIds ss).Nodup) (hwell : WellFormedStatements ss)
    {use : FunctionHead × Expression} (huse : use ∈ statementsUses head ss) : use.2.IsRead := by
  cases ss with
  | nil => cases huse
  | cons s ss =>
      rcases List.mem_append.mp huse with huse | huse
      · exact Statement.isRead_uses hnodup.of_append_left hwell.1 huse
      · exact isRead_statementsUses hnodup.of_append_right hwell.2 huse

end

namespace Program

/-- Only variables are assigned to, never what a pointer points to. -/
def AssignsNames (program : Program) : Prop := ∀ target ∈ definitionsTargets program, target.IsName

def StoresWords (program : Program) : Prop := ∀ d ∈ definitionsInside program, d.StoresWord

end Program

end NestedFun
