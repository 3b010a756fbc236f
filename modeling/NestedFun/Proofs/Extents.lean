import NestedFun.Proofs.Nodes
import NestedFun.Proofs.Unnumbered
import Mathlib.Tactic

namespace NestedFun

/-!
# Extents

The nodes of a tree with their places in the text: what every node is made of, in the order in which
its parts stand there. Nothing that has a number is left out; only what sort of node it is does not
matter.
-/

/-- A node with the nodes that it is made of, from left to right. -/
inductive Extent where
  | of (node : Node) (parts : List Extent)

namespace Extent

def node : Extent → Node
  | of node _ => node

def parts : Extent → List Extent
  | of _ parts => parts

def span (extent : Extent) : Span := extent.node.span

def leaf (node : Node) : Extent := .of node []

end Extent

mutual

def Extent.all : Extent → List Extent
  | .of node parts => .of node parts :: allExtents parts

def allExtents : List Extent → List Extent
  | [] => []
  | extent :: extents => extent.all ++ allExtents extents

end

/-! ## The extents of trees -/

def Identifier.extent (name : Identifier) : Extent := .leaf name.toNode

def Literal.extent (literal : Literal) : Extent := .leaf literal.toNode

def Parameter.extent (parameter : Parameter) : Extent := .of parameter.toNode [parameter.name.extent]

/-- The count of an initializer stands in front of its constant. -/
def Initializer.extent (initializer : Initializer) : Extent :=
  .of initializer.toNode (initializer.count.toList.map Literal.extent ++ [initializer.value.extent])

def Variable.extent (head : Variable) : Extent :=
  .of head.toNode (head.name.extent :: head.initializers.map Initializer.extent)

mutual

/-- Operators stand between or in front of their operands; only the one of a dereference is behind. -/
def Expression.extent : Expression → Extent
  | .literal node value => .of node [value.extent]
  | .name node name => .of node [name.extent]
  | .call node callee arguments => .of node (callee.extent :: expressionExtents arguments)
  | .unary node operator operand =>
    .of node (if operator.kind = .dereference then [operand.extent, .leaf operator.toNode]
      else [.leaf operator.toNode, operand.extent])
  | .binary node operator left right => .of node [left.extent, .leaf operator.toNode, right.extent]

def expressionExtents : List Expression → List Extent
  | [] => []
  | expression :: expressions => expression.extent :: expressionExtents expressions

end

mutual

def Definition.extent : Definition → Extent
  | .func head body =>
    .of head.toNode
      (head.name.extent :: (head.parameters.map Parameter.extent ++ statementExtents body))
  | .var head => head.extent

def definitionExtents : List Definition → List Extent
  | [] => []
  | definition :: definitions => definition.extent :: definitionExtents definitions

def Statement.extent : Statement → Extent
  | .eval node value => .of node [value.extent]
  | .assign node target source => .of node [target.extent, source.extent]
  | .branch node condition positive negative =>
    .of node (condition.extent :: (statementExtents positive ++ statementExtents negative))
  | .loop node condition body => .of node (condition.extent :: statementExtents body)
  | .block node definitions body => .of node (definitionExtents definitions ++ statementExtents body)

def statementExtents : List Statement → List Extent
  | [] => []
  | statement :: statements => statement.extent :: statementExtents statements

end

theorem statementExtents_eq_map (statements : List Statement) :
    statementExtents statements = statements.map Statement.extent := by
  induction statements with
  | nil => rfl
  | cons statement statements ih => rw [statementExtents, ih, List.map_cons]

@[simp] theorem Expression.span_extent (e : Expression) : e.extent.span = e.node.span := by
  cases e <;> rfl

@[simp] theorem Statement.span_extent (s : Statement) : s.extent.span = s.node.span := by
  cases s <;> rfl

/-! ## Every numbered node -/

def Extent.ids (extent : Extent) : List NodeId := extent.all.map fun inner => inner.node.id

def extentIds (extents : List Extent) : List NodeId :=
  (allExtents extents).map fun inner => inner.node.id

@[simp] theorem Extent.ids_of (node : Node) (parts : List Extent) :
    (Extent.of node parts).ids = node.id :: extentIds parts := rfl

@[simp] theorem extentIds_nil : extentIds [] = [] := rfl

@[simp] theorem extentIds_cons (extent : Extent) (extents : List Extent) :
    extentIds (extent :: extents) = extent.ids ++ extentIds extents := by
  rw [extentIds, allExtents, List.map_append, Extent.ids, extentIds]

@[simp] theorem extentIds_append (extents extents' : List Extent) :
    extentIds (extents ++ extents') = extentIds extents ++ extentIds extents' := by
  induction extents with
  | nil => rfl
  | cons extent extents ih =>
      rw [List.cons_append, extentIds_cons, extentIds_cons, ih, List.append_assoc]

@[simp] theorem Identifier.ids_extent (name : Identifier) : name.extent.ids = [name.id] := rfl

@[simp] theorem Literal.ids_extent (literal : Literal) : literal.extent.ids = [literal.id] := rfl

@[simp] theorem Extent.ids_leaf (node : Node) : (Extent.leaf node).ids = [node.id] := rfl

theorem extentIds_map_perm {α : Type} {f : α → Extent} {g : α → List NodeId}
    (h : ∀ x, (f x).ids.Perm (g x)) (xs : List α) : (extentIds (xs.map f)).Perm (xs.flatMap g) := by
  induction xs with
  | nil => exact .nil
  | cons x xs ih =>
      rw [List.map_cons, extentIds_cons, List.flatMap_cons]
      exact (h x).append ih

/-- The number of a node comes before those of its parts here and behind them in a tree. -/
theorem ids_of_perm {node : Node} {parts : List Extent} {ids : List NodeId}
    (h : (extentIds parts).Perm ids) : (Extent.of node parts).ids.Perm (ids ++ [node.id]) :=
  (h.cons node.id).trans (List.perm_append_singleton node.id ids).symm

theorem Parameter.perm_extent (parameter : Parameter) : parameter.extent.ids.Perm parameter.ids :=
  ids_of_perm (.refl _)

theorem Initializer.perm_extent (initializer : Initializer) :
    initializer.extent.ids.Perm initializer.ids := by
  have hparts : extentIds (initializer.count.toList.map Literal.extent ++ [initializer.value.extent])
      = (initializer.count.toList.map fun count => count.id) ++ [initializer.value.id] := by
    cases initializer.count <;> rfl
  have h := @ids_of_perm initializer.toNode _ _ (.of_eq hparts)
  rwa [List.append_assoc] at h

theorem Variable.perm_extent (head : Variable) : head.extent.ids.Perm head.ids :=
  ids_of_perm ((extentIds_map_perm Initializer.perm_extent head.initializers).cons head.name.id)

mutual

theorem Expression.perm_extent (e : Expression) : e.extent.ids.Perm e.ids := by
  cases e with
  | literal node value => exact @ids_of_perm node [value.extent] _ (.refl _)
  | name node name => exact @ids_of_perm node [name.extent] _ (.refl _)
  | call node callee arguments => exact ids_of_perm ((expressionExtents_perm arguments).cons callee.id)
  | unary node operator operand =>
      refine List.perm_iff_count.mpr fun id => ?_
      have h := operand.perm_extent.count_eq id
      rw [Expression.extent]
      split <;>
      · simp only [Expression.ids, Extent.ids_of, extentIds_cons, extentIds_nil, Extent.ids_leaf,
          List.count_cons, List.count_append, List.count_nil] at *
        omega
  | binary node operator left right =>
      refine List.perm_iff_count.mpr fun id => ?_
      have h := left.perm_extent.count_eq id
      have h' := right.perm_extent.count_eq id
      simp only [Expression.extent, Expression.ids, Extent.ids_of, extentIds_cons, extentIds_nil,
        Extent.ids_leaf, List.count_cons, List.count_append, List.count_nil] at *
      omega

theorem expressionExtents_perm (es : List Expression) :
    (extentIds (expressionExtents es)).Perm (expressionIds es) := by
  cases es with
  | nil => exact .nil
  | cons e es =>
      rw [expressionExtents, extentIds_cons, expressionIds]
      exact e.perm_extent.append (expressionExtents_perm es)

end

mutual

theorem Definition.perm_extent (d : Definition) : d.extent.ids.Perm d.ids := by
  cases d with
  | var head => exact head.perm_extent
  | func head body =>
      refine ids_of_perm ?_
      rw [extentIds_cons, extentIds_append]
      exact ((extentIds_map_perm Parameter.perm_extent head.parameters).append
        (statementExtents_perm body)).cons head.name.id

theorem definitionExtents_perm (ds : List Definition) :
    (extentIds (definitionExtents ds)).Perm (definitionIds ds) := by
  cases ds with
  | nil => exact .nil
  | cons d ds =>
      rw [definitionExtents, extentIds_cons, definitionIds]
      exact d.perm_extent.append (definitionExtents_perm ds)

theorem Statement.perm_extent (s : Statement) : s.extent.ids.Perm s.ids := by
  cases s with
  | eval node value =>
      refine ids_of_perm ?_
      rw [extentIds_cons, extentIds_nil, List.append_nil]
      exact value.perm_extent
  | assign node target source =>
      refine ids_of_perm ?_
      rw [extentIds_cons, extentIds_cons, extentIds_nil, List.append_nil]
      exact target.perm_extent.append source.perm_extent
  | branch node condition positive negative =>
      refine ids_of_perm ?_
      rw [extentIds_cons, extentIds_append, List.append_assoc]
      exact condition.perm_extent.append
        ((statementExtents_perm positive).append (statementExtents_perm negative))
  | loop node condition body =>
      refine ids_of_perm ?_
      rw [extentIds_cons]
      exact condition.perm_extent.append (statementExtents_perm body)
  | block node definitions body =>
      refine ids_of_perm ?_
      rw [extentIds_append]
      exact (definitionExtents_perm definitions).append (statementExtents_perm body)

theorem statementExtents_perm (ss : List Statement) :
    (extentIds (statementExtents ss)).Perm (statementIds ss) := by
  cases ss with
  | nil => exact .nil
  | cons s ss =>
      rw [statementExtents, extentIds_cons, statementIds]
      exact s.perm_extent.append (statementExtents_perm ss)

end

/-! ## Numbers do not matter -/

mutual

def Extent.unnumbered : Extent → Extent
  | .of node parts => .of node.span.node (extentsUnnumbered parts)

def extentsUnnumbered : List Extent → List Extent
  | [] => []
  | extent :: extents => extent.unnumbered :: extentsUnnumbered extents

end

theorem extentsUnnumbered_append (extents extents' : List Extent) :
    extentsUnnumbered (extents ++ extents')
      = extentsUnnumbered extents ++ extentsUnnumbered extents' := by
  induction extents with
  | nil => rfl
  | cons extent extents ih =>
      rw [List.cons_append, extentsUnnumbered, ih, extentsUnnumbered, List.cons_append]

@[simp] theorem Extent.span_unnumbered (extent : Extent) :
    extent.unnumbered.span = extent.span := by
  cases extent
  rfl

theorem extents_map_unnumbered {α : Type} {f : α → Extent} {g : α → α}
    (h : ∀ x, f (g x) = (f x).unnumbered) (xs : List α) :
    (xs.map g).map f = extentsUnnumbered (xs.map f) := by
  induction xs with
  | nil => rfl
  | cons x xs ih => rw [List.map_cons, List.map_cons, List.map_cons, extentsUnnumbered, ih, h]

theorem Initializer.extent_unnumbered (initializer : Initializer) :
    initializer.unnumbered.extent = initializer.extent.unnumbered := by
  cases hcount : initializer.count <;>
    simp [Initializer.extent, Initializer.unnumbered, hcount] <;> rfl

theorem Variable.extent_unnumbered (head : Variable) :
    head.unnumbered.extent = head.extent.unnumbered := by
  rw [Variable.extent, Variable.extent, Extent.unnumbered, extentsUnnumbered,
    ← extents_map_unnumbered Initializer.extent_unnumbered]
  rfl

mutual

theorem Expression.extent_unnumbered (e : Expression) :
    e.unnumbered.extent = e.extent.unnumbered := by
  cases e with
  | literal | name => rfl
  | call node callee arguments =>
      rw [Expression.unnumbered, Expression.extent, expressionExtents_unnumbered arguments]
      rfl
  | unary node operator operand =>
      have hkind : operator.unnumbered.kind = operator.kind := rfl
      rw [Expression.unnumbered, Expression.extent, Expression.extent, hkind,
        operand.extent_unnumbered, Extent.unnumbered]
      by_cases h : operator.kind = .dereference
      · rw [if_pos h, if_pos h]
        rfl
      · rw [if_neg h, if_neg h]
        rfl
  | binary node operator left right =>
      rw [Expression.unnumbered, Expression.extent, left.extent_unnumbered, right.extent_unnumbered]
      rfl

theorem expressionExtents_unnumbered (es : List Expression) :
    expressionExtents (expressionsUnnumbered es) = extentsUnnumbered (expressionExtents es) := by
  cases es with
  | nil => rfl
  | cons e es =>
      rw [expressionsUnnumbered, expressionExtents, e.extent_unnumbered,
        expressionExtents_unnumbered es]
      rfl

end

mutual

theorem Definition.extent_unnumbered (d : Definition) :
    d.unnumbered.extent = d.extent.unnumbered := by
  cases d with
  | var head => exact head.extent_unnumbered
  | func head body =>
      have hparameters := extents_map_unnumbered (f := Parameter.extent) (g := Parameter.unnumbered)
        (fun _ => rfl) head.parameters
      rw [Definition.unnumbered, Definition.extent, statementExtents_unnumbered body,
        Definition.extent, Extent.unnumbered, extentsUnnumbered, extentsUnnumbered_append,
        ← hparameters]
      rfl

theorem definitionExtents_unnumbered (ds : List Definition) :
    definitionExtents (definitionsUnnumbered ds) = extentsUnnumbered (definitionExtents ds) := by
  cases ds with
  | nil => rfl
  | cons d ds =>
      rw [definitionsUnnumbered, definitionExtents, d.extent_unnumbered,
        definitionExtents_unnumbered ds]
      rfl

theorem Statement.extent_unnumbered (s : Statement) :
    s.unnumbered.extent = s.extent.unnumbered := by
  cases s with
  | eval node value =>
      rw [Statement.unnumbered, Statement.extent, value.extent_unnumbered]
      rfl
  | assign node target source =>
      rw [Statement.unnumbered, Statement.extent, target.extent_unnumbered,
        source.extent_unnumbered]
      rfl
  | branch node condition positive negative =>
      rw [Statement.unnumbered, Statement.extent, condition.extent_unnumbered,
        statementExtents_unnumbered positive, statementExtents_unnumbered negative,
        ← extentsUnnumbered_append]
      rfl
  | loop node condition body =>
      rw [Statement.unnumbered, Statement.extent, condition.extent_unnumbered,
        statementExtents_unnumbered body]
      rfl
  | block node definitions body =>
      rw [Statement.unnumbered, Statement.extent, definitionExtents_unnumbered definitions,
        statementExtents_unnumbered body, ← extentsUnnumbered_append]
      rfl

theorem statementExtents_unnumbered (ss : List Statement) :
    statementExtents (statementsUnnumbered ss) = extentsUnnumbered (statementExtents ss) := by
  cases ss with
  | nil => rfl
  | cons s ss =>
      rw [statementsUnnumbered, statementExtents, s.extent_unnumbered,
        statementExtents_unnumbered ss]
      rfl

end

end NestedFun
