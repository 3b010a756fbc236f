import NestedFun.Proofs.Grammar

namespace NestedFun

/-!
# Trees without numbers

What is left of a tree when the numbers of its nodes are forgotten. Spans stay.
-/

def Identifier.unnumbered (name : Identifier) : Identifier := { name with id := 0 }

def Literal.unnumbered (literal : Literal) : Literal := { literal with id := 0 }

def Parameter.unnumbered (parameter : Parameter) : Parameter :=
  ⟨parameter.span.node, parameter.name.unnumbered⟩

def Initializer.unnumbered (initializer : Initializer) : Initializer :=
  ⟨initializer.span.node, initializer.count.map Literal.unnumbered, initializer.value.unnumbered⟩

def Variable.unnumbered (head : Variable) : Variable :=
  ⟨head.span.node, head.name.unnumbered, head.initializers.map Initializer.unnumbered⟩

def UnaryOperator.unnumbered (operator : UnaryOperator) : UnaryOperator := { operator with id := 0 }

def BinaryOperator.unnumbered (operator : BinaryOperator) : BinaryOperator :=
  { operator with id := 0 }

def FunctionHead.unnumbered (head : FunctionHead) : FunctionHead :=
  ⟨head.span.node, head.name.unnumbered, head.parameters.map Parameter.unnumbered⟩

mutual

def Expression.unnumbered : Expression → Expression
  | .literal node value => .literal node.span.node value.unnumbered
  | .name node name => .name node.span.node name.unnumbered
  | .call node callee arguments =>
    .call node.span.node callee.unnumbered (expressionsUnnumbered arguments)
  | .unary node operator operand => .unary node.span.node operator.unnumbered operand.unnumbered
  | .binary node operator left right =>
    .binary node.span.node operator.unnumbered left.unnumbered right.unnumbered

def expressionsUnnumbered : List Expression → List Expression
  | [] => []
  | expression :: expressions => expression.unnumbered :: expressionsUnnumbered expressions

end

mutual

def Definition.unnumbered : Definition → Definition
  | .func head body => .func head.unnumbered (statementsUnnumbered body)
  | .var head => .var head.unnumbered

def definitionsUnnumbered : List Definition → List Definition
  | [] => []
  | definition :: definitions => definition.unnumbered :: definitionsUnnumbered definitions

def Statement.unnumbered : Statement → Statement
  | .eval node value => .eval node.span.node value.unnumbered
  | .assign node target source => .assign node.span.node target.unnumbered source.unnumbered
  | .branch node condition positive negative =>
    .branch node.span.node condition.unnumbered (statementsUnnumbered positive)
      (statementsUnnumbered negative)
  | .loop node condition body =>
    .loop node.span.node condition.unnumbered (statementsUnnumbered body)
  | .block node definitions body =>
    .block node.span.node (definitionsUnnumbered definitions) (statementsUnnumbered body)

def statementsUnnumbered : List Statement → List Statement
  | [] => []
  | statement :: statements => statement.unnumbered :: statementsUnnumbered statements

end

def Program.unnumbered (program : Program) : Program := definitionsUnnumbered program

/-! ## Spans -/

@[simp] theorem Identifier.span_unnumbered (name : Identifier) : name.unnumbered.span = name.span := rfl

@[simp] theorem Literal.span_unnumbered (literal : Literal) : literal.unnumbered.span = literal.span :=
  rfl

@[simp] theorem Initializer.span_unnumbered (initializer : Initializer) :
    initializer.unnumbered.span = initializer.span := rfl

@[simp] theorem Expression.node_unnumbered (expression : Expression) :
    expression.unnumbered.node = expression.node.span.node := by
  cases expression <;> rfl

@[simp] theorem Statement.node_unnumbered (statement : Statement) :
    statement.unnumbered.node = statement.node.span.node := by
  cases statement <;> rfl

theorem statementsUnnumbered_eq_map (statements : List Statement) :
    statementsUnnumbered statements = statements.map Statement.unnumbered := by
  induction statements with
  | nil => rfl
  | cons statement statements ih => rw [statementsUnnumbered, ih, List.map_cons]

theorem definitionsUnnumbered_eq_map (definitions : List Definition) :
    definitionsUnnumbered definitions = definitions.map Definition.unnumbered := by
  induction definitions with
  | nil => rfl
  | cons definition definitions ih => rw [definitionsUnnumbered, ih, List.map_cons]

/-! ## Trees with other numbers -/

theorem Initializer.repeats_unnumbered (initializer : Initializer) :
    initializer.unnumbered.repeats = initializer.repeats := by
  rw [repeats, repeats, unnumbered]
  cases initializer.count <;> rfl

theorem Literal.words_unnumbered (literal : Literal) : literal.unnumbered.words = literal.words := rfl

theorem Definition.var_of_unnumbered {d : Definition} {head : Variable}
    (h : d.unnumbered = .var head) : ∃ head', d = .var head' ∧ head'.unnumbered = head := by
  cases d with
  | var head' => exact ⟨head', rfl, Definition.var.inj h⟩
  | func => cases h

theorem Definition.func_of_unnumbered {d : Definition} {head : FunctionHead} {body : List Statement}
    (h : d.unnumbered = .func head body) :
    ∃ head' body', d = .func head' body' ∧ head'.unnumbered = head ∧
      statementsUnnumbered body' = body := by
  cases d with
  | var => cases h
  | func head' body' => exact ⟨head', body', rfl, Definition.func.inj h⟩

end NestedFun
