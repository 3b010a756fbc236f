import NestedFun.Proofs.WordArithmetic
import NestedFun.Tree.Basic

namespace NestedFun

/-!
# The nodes of a tree

The numbers of all nodes of a tree, in the order in which a parser gives them, and what holds of
the names and constants in every tree that was read from a text.
-/

def Parameter.ids (parameter : Parameter) : List NodeId := [parameter.name.id, parameter.id]

def Initializer.ids (initializer : Initializer) : List NodeId :=
  (initializer.count.toList.map fun count => count.id) ++ [initializer.value.id, initializer.id]

def Variable.ids (head : Variable) : List NodeId :=
  head.name.id :: head.initializers.flatMap Initializer.ids ++ [head.id]

mutual

def Expression.ids : Expression → List NodeId
  | .literal node value => [value.id, node.id]
  | .name node name => [name.id, node.id]
  | .call node callee arguments => callee.id :: expressionIds arguments ++ [node.id]
  | .unary node operator operand => operand.ids ++ [node.id, operator.id]
  | .binary node operator left right => left.ids ++ right.ids ++ [node.id, operator.id]

def expressionIds : List Expression → List NodeId
  | [] => []
  | expression :: expressions => expression.ids ++ expressionIds expressions

end

mutual

def Definition.ids : Definition → List NodeId
  | .func head body =>
    head.name.id :: head.parameters.flatMap Parameter.ids ++ statementIds body ++ [head.id]
  | .var head => head.ids

def definitionIds : List Definition → List NodeId
  | [] => []
  | definition :: definitions => definition.ids ++ definitionIds definitions

def Statement.ids : Statement → List NodeId
  | .eval node value => value.ids ++ [node.id]
  | .assign node target source => target.ids ++ source.ids ++ [node.id]
  | .branch node condition positive negative =>
    condition.ids ++ statementIds positive ++ statementIds negative ++ [node.id]
  | .loop node condition body => condition.ids ++ statementIds body ++ [node.id]
  | .block node definitions body => definitionIds definitions ++ statementIds body ++ [node.id]

def statementIds : List Statement → List NodeId
  | [] => []
  | statement :: statements => statement.ids ++ statementIds statements

end

/-! ## Definitions inside a tree -/

mutual

def Definition.inside : Definition → List Definition
  | .func head body => .func head body :: statementsInside body
  | .var head => [.var head]

def definitionsInside : List Definition → List Definition
  | [] => []
  | definition :: definitions => definition.inside ++ definitionsInside definitions

def Statement.inside : Statement → List Definition
  | .eval _ _ | .assign _ _ _ => []
  | .branch _ _ positive negative => statementsInside positive ++ statementsInside negative
  | .loop _ _ body => statementsInside body
  | .block _ definitions body => definitionsInside definitions ++ statementsInside body

def statementsInside : List Statement → List Definition
  | [] => []
  | statement :: statements => statement.inside ++ statementsInside statements

end

mutual

/-- The numbers of all functions, variables and parameters that a definition declares, each with those
of the functions around it, the innermost first. -/
def Definition.owners (outer : List NodeId) : Definition → List (NodeId × List NodeId)
  | .func head body =>
    (head.id, outer) :: (head.parameters.map fun parameter => (parameter.id, head.id :: outer))
      ++ statementsOwners (head.id :: outer) body
  | .var head => [(head.id, outer)]

def definitionsOwners (outer : List NodeId) : List Definition → List (NodeId × List NodeId)
  | [] => []
  | definition :: definitions => definition.owners outer ++ definitionsOwners outer definitions

def Statement.owners (outer : List NodeId) : Statement → List (NodeId × List NodeId)
  | .eval _ _ | .assign _ _ _ => []
  | .branch _ _ positive negative =>
    statementsOwners outer positive ++ statementsOwners outer negative
  | .loop _ _ body => statementsOwners outer body
  | .block _ definitions body => definitionsOwners outer definitions ++ statementsOwners outer body

def statementsOwners (outer : List NodeId) : List Statement → List (NodeId × List NodeId)
  | [] => []
  | statement :: statements => statement.owners outer ++ statementsOwners outer statements

end

/-! ## What was read -/

def IsName (text : String) : Prop := ∀ c ∈ text.toList, c.isAlphanum ∨ c = '_'

def Literal.Fits (literal : Literal) : Prop :=
  literal.kind = .integer → decimalValue literal.text.toList < wordBound

structure Literal.WellFormed (literal : Literal) : Prop where
  length_words : literal.kind ≠ .string → literal.words.length = 1
  fits : literal.Fits

/-- Repeat counts are not negative, and they and the constants fit words. -/
structure Initializer.WellFormed (initializer : Initializer) : Prop where
  repeats_nonneg : 0 ≤ initializer.repeats.toInt
  value_fits : initializer.value.Fits
  count_fits : ∀ count, initializer.count = some count → count.Fits

theorem Initializer.wellFormed_single {node : Node} {value : Literal} (hvalue : value.Fits) :
    Initializer.WellFormed ⟨node, none, value⟩ := by
  refine ⟨?_, hvalue, nofun⟩
  show (0 : Int) ≤ (1 : Word).toInt
  decide

/-- A count that was read is not negative. -/
theorem Initializer.wellFormed_repeated {node : Node} {count value : Literal}
    (hkind : count.kind = .integer) (hcount : count.Fits) (hvalue : value.Fits) :
    Initializer.WellFormed ⟨node, some count, value⟩ := by
  refine ⟨?_, hvalue, fun _ heq => Option.some.inj heq ▸ hcount⟩
  have hlt := hcount hkind
  have hrepeats : Initializer.repeats ⟨node, some count, value⟩
      = Word.ofInt (decimalValue count.text.toList) := by
    simp [Initializer.repeats, Literal.words, hkind]
  rw [hrepeats, Word.toInt_ofInt (by omega)]
  · omega
  · exact_mod_cast hlt

mutual

def Expression.WellFormed : Expression → Prop
  | .literal _ value => value.WellFormed
  | .name _ _ => True
  | .call _ _ arguments => WellFormedExpressions arguments
  | .unary _ _ operand => operand.WellFormed
  | .binary _ _ left right => left.WellFormed ∧ right.WellFormed

def WellFormedExpressions : List Expression → Prop
  | [] => True
  | expression :: expressions => expression.WellFormed ∧ WellFormedExpressions expressions

end

mutual

def Definition.WellFormed : Definition → Prop
  | .func head body => IsName head.name.text ∧ WellFormedStatements body
  | .var head => IsName head.name.text ∧ ∀ i ∈ head.initializers, i.WellFormed

def WellFormedDefinitions : List Definition → Prop
  | [] => True
  | definition :: definitions => definition.WellFormed ∧ WellFormedDefinitions definitions

def Statement.WellFormed : Statement → Prop
  | .eval _ value => value.WellFormed
  | .assign _ target source => target.WellFormed ∧ source.WellFormed
  | .branch _ condition positive negative =>
    condition.WellFormed ∧ WellFormedStatements positive ∧ WellFormedStatements negative
  | .loop _ condition body => condition.WellFormed ∧ WellFormedStatements body
  | .block _ definitions body => WellFormedDefinitions definitions ∧ WellFormedStatements body

def WellFormedStatements : List Statement → Prop
  | [] => True
  | statement :: statements => statement.WellFormed ∧ WellFormedStatements statements

end

end NestedFun
