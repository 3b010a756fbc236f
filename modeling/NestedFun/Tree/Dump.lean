import NestedFun.SymbolTable
import NestedFun.Text.Quoted
import NestedFun.Tree.Basic

namespace NestedFun

/-!
# Dumps of syntax trees

A tree written out in full: records with their fields, one part a line. Names and constants are
shown with their numbers in the table of all texts of the program.
-/

/-- A value to be written out: a word, or something with parts. -/
inductive Outline where
  | word (text : String)
  | record (name : String) (fields : List (String × Outline))
  | wrapped (name : String) (parts : List Outline)
  | list (items : List Outline)

namespace Outline

def newLine (level : Nat) : String :=
  String.ofList ('\n' :: List.replicate (4 * level) ' ')

mutual

def render (level : Nat) : Outline → String
  | word text => text
  | record name fields => name ++ " \x7b" ++ renderFields level fields ++ newLine level ++ "\x7d"
  | wrapped name parts => name ++ "(" ++ renderItems level parts ++ newLine level ++ ")"
  | list items =>
    if items.isEmpty then "[]" else "[" ++ renderItems level items ++ newLine level ++ "]"

def renderFields (level : Nat) : List (String × Outline) → String
  | [] => ""
  | (name, value) :: fields =>
    newLine (level + 1) ++ name ++ ": " ++ value.render (level + 1) ++ ","
      ++ renderFields level fields

def renderItems (level : Nat) : List Outline → String
  | [] => ""
  | item :: items =>
    newLine (level + 1) ++ item.render (level + 1) ++ "," ++ renderItems level items

end

def number (n : Nat) : Outline := word (toString n)

end Outline

def Span.outline (span : Span) : Outline :=
  .record "Span" [("start", .number span.start), ("end", .number span.stop)]

def Node.fields (node : Node) : List (String × Outline) :=
  [("id", .wrapped "NodeId" [.number node.id.kept.toNat]), ("span", node.span.outline)]

def symbolOutline (table : SymbolTable) (text : String) : Outline :=
  .wrapped "InternedSymbol" [.number ((table.indexOf? text).getD 0), .word (quotedText text)]

def Identifier.outline (table : SymbolTable) (name : Identifier) : Outline :=
  .record "Identifier" (name.toNode.fields ++ [("symbol", symbolOutline table name.text)])

def LiteralKind.outline : LiteralKind → Outline
  | integer => .word "Integer"
  | character => .word "Char"
  | string => .word "String"

def Literal.outline (table : SymbolTable) (literal : Literal) : Outline :=
  .record "Literal" (literal.toNode.fields ++
    [("kind", literal.kind.outline), ("symbol", symbolOutline table literal.text)])

def Parameter.outline (table : SymbolTable) (parameter : Parameter) : Outline :=
  .record "Parameter" (parameter.toNode.fields ++ [("name", parameter.name.outline table)])

def Initializer.outline (table : SymbolTable) (initializer : Initializer) : Outline :=
  let count := match initializer.count with
    | some count => .wrapped "Some" [count.outline table]
    | none => .word "None"
  .record "Initializer" (initializer.toNode.fields ++
    [("count", count), ("value", initializer.value.outline table)])

def Variable.outline (table : SymbolTable) (head : Variable) : Outline :=
  .record "VariableDefinition" (head.toNode.fields ++
    [("name", head.name.outline table),
     ("initializers", .list (head.initializers.map (Initializer.outline table)))])

def UnaryKind.outline : UnaryKind → Outline
  | not => .word "LogicalNot"
  | identity => .word "Identity"
  | negate => .word "Negate"
  | addressOf => .word "AddressOf"
  | dereference => .word "Deref"

def BinaryKind.outline : BinaryKind → Outline
  | add => .word "Add"
  | subtract => .word "Subtract"
  | multiply => .word "Multiply"
  | divide => .word "Divide"
  | modulus => .word "Modulus"
  | equal => .word "Equals"
  | notEqual => .word "NotEquals"
  | less => .word "LessThan"
  | lessEqual => .word "LessThanOrEqualTo"
  | greater => .word "GreaterThan"
  | greaterEqual => .word "GreaterThanOrEqualTo"
  | and => .word "LogicalAnd"
  | or => .word "LogicalOr"

def UnaryOperator.outline (operator : UnaryOperator) : Outline :=
  .record "UnaryOperator" (operator.toNode.fields ++ [("kind", operator.kind.outline)])

def BinaryOperator.outline (operator : BinaryOperator) : Outline :=
  .record "BinaryOperator" (operator.toNode.fields ++ [("kind", operator.kind.outline)])

/-- A node whose kind is written out under a field of its own. -/
def kindOutline (name : String) (node : Node) (kind : Outline) : Outline :=
  .record name (node.fields ++ [("kind", kind)])

mutual

def Expression.outline (table : SymbolTable) : Expression → Outline
  | .literal node value => kindOutline "Expression" node (.wrapped "Literal" [value.outline table])
  | .name node name => kindOutline "Expression" node (.wrapped "Name" [name.outline table])
  | .call node callee arguments =>
    kindOutline "Expression" node (.record "FunctionCall"
      [("function", callee.outline table), ("arguments", .list (expressionOutlines table arguments))])
  | .unary node operator operand =>
    kindOutline "Expression" node (.record "Unary"
      [("operator", operator.outline), ("operand", operand.outline table)])
  | .binary node operator left right =>
    kindOutline "Expression" node (.record "Binary"
      [("lhs", left.outline table), ("operator", operator.outline), ("rhs", right.outline table)])

def expressionOutlines (table : SymbolTable) : List Expression → List Outline
  | [] => []
  | expression :: expressions => expression.outline table :: expressionOutlines table expressions

end

mutual

def Definition.outline (table : SymbolTable) : Definition → Outline
  | .func head body =>
    .wrapped "Function" [.record "FunctionDefinition" (head.toNode.fields ++
      [("name", head.name.outline table),
       ("parameters", .list (head.parameters.map (Parameter.outline table))),
       ("body", .list (statementOutlines table body))])]
  | .var head => .wrapped "Variable" [head.outline table]

def definitionOutlines (table : SymbolTable) : List Definition → List Outline
  | [] => []
  | definition :: definitions => definition.outline table :: definitionOutlines table definitions

def Statement.outline (table : SymbolTable) : Statement → Outline
  | .eval node value => kindOutline "Statement" node (.wrapped "Expression" [value.outline table])
  | .assign node target source =>
    kindOutline "Statement" node (.record "Assignment"
      [("target", target.outline table), ("source", source.outline table)])
  | .branch node condition positive negative =>
    kindOutline "Statement" node (.record "If"
      [("condition", condition.outline table),
       ("positive", .list (statementOutlines table positive)),
       ("negative", .list (statementOutlines table negative))])
  | .loop node condition body =>
    kindOutline "Statement" node (.record "While"
      [("condition", condition.outline table), ("body", .list (statementOutlines table body))])
  | .block node definitions body =>
    kindOutline "Statement" node (.record "Let"
      [("definitions", .list (definitionOutlines table definitions)),
       ("body", .list (statementOutlines table body))])

def statementOutlines (table : SymbolTable) : List Statement → List Outline
  | [] => []
  | statement :: statements => statement.outline table :: statementOutlines table statements

end

def Literal.texts (literal : Literal) : List String := [literal.text]

def Initializer.texts (initializer : Initializer) : List String :=
  (initializer.count.map Literal.texts).getD [] ++ initializer.value.texts

mutual

def Expression.texts : Expression → List String
  | .literal _ value => value.texts
  | .name _ name => [name.text]
  | .call _ callee arguments => callee.text :: expressionTexts arguments
  | .unary _ _ operand => operand.texts
  | .binary _ _ left right => left.texts ++ right.texts

def expressionTexts : List Expression → List String
  | [] => []
  | expression :: expressions => expression.texts ++ expressionTexts expressions

end

mutual

def Definition.texts : Definition → List String
  | .func head body =>
    head.name.text :: head.parameters.map (fun parameter => parameter.name.text)
      ++ statementTexts body
  | .var head => head.name.text :: head.initializers.flatMap Initializer.texts

def definitionTexts : List Definition → List String
  | [] => []
  | definition :: definitions => definition.texts ++ definitionTexts definitions

def Statement.texts : Statement → List String
  | .eval _ value => value.texts
  | .assign _ target source => target.texts ++ source.texts
  | .branch _ condition positive negative =>
    condition.texts ++ statementTexts positive ++ statementTexts negative
  | .loop _ condition body => condition.texts ++ statementTexts body
  | .block _ definitions body => definitionTexts definitions ++ statementTexts body

def statementTexts : List Statement → List String
  | [] => []
  | statement :: statements => statement.texts ++ statementTexts statements

end

def Program.dump (program : Program) : String :=
  let table := SymbolTable.ofList (definitionTexts program)
  let definitions := definitionOutlines table program
  (Outline.record "Program" [("definitions", .list definitions)]).render 0 ++ "\n"

end NestedFun
