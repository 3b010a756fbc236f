import NestedFun.Proofs.Surroundings

namespace NestedFun

/-!
# Numbers without gaps

The nodes of a program that was read are numbered from zero on, each with a number of its own. So
nothing that is declared and no expression shares its entry in a table with another.
-/

/-! ## Expressions -/

mutual

theorem Expression.covered_parts (e : Expression) :
    Covered (e.parts.map fun part => part.node.id) e.ids := by
  intro id
  cases e with
  | literal node value =>
      simp only [Expression.parts, Expression.ids, List.map_cons, List.map_nil, List.count_cons,
        List.count_nil, Expression.node]
      omega
  | name node name =>
      simp only [Expression.parts, Expression.ids, List.map_cons, List.map_nil, List.count_cons,
        List.count_nil, Expression.node]
      omega
  | call node callee arguments =>
      have h := covered_expressionParts arguments id
      simp only [Expression.parts, Expression.ids, List.map_cons, List.count_cons,
        List.count_append, List.count_nil, Expression.node] at *
      omega
  | unary node operator operand =>
      have h := operand.covered_parts id
      simp only [Expression.parts, Expression.ids, List.map_cons, List.count_cons,
        List.count_append, List.count_nil, Expression.node] at *
      omega
  | binary node operator left right =>
      have h := left.covered_parts id
      have h' := right.covered_parts id
      simp only [Expression.parts, Expression.ids, List.map_cons, List.map_append,
        List.count_cons, List.count_append, List.count_nil, Expression.node] at *
      omega

theorem covered_expressionParts (es : List Expression) :
    Covered ((expressionParts es).map fun part => part.node.id) (expressionIds es) := by
  intro id
  cases es with
  | nil => simp [expressionParts]
  | cons e es =>
      have h := e.covered_parts id
      have h' := covered_expressionParts es id
      simp only [expressionParts, expressionIds, List.map_append, List.count_append] at *
      omega

end

theorem Expression.covered_uses (e : Expression) (head : FunctionHead) :
    Covered ((e.uses head).map fun use => use.2.node.id) e.ids := by
  have h : ((e.uses head).map fun use => use.2.node.id) = e.parts.map fun part => part.node.id := by
    simp [Expression.uses]
  rw [h]
  exact e.covered_parts

mutual

theorem Definition.covered_uses (d : Definition) :
    Covered (d.uses.map fun use => use.2.node.id) d.ids := by
  intro id
  cases d with
  | var head => simp [Definition.uses]
  | func head body =>
      have h := covered_statementsUses body head id
      simp only [Definition.uses, Definition.ids, List.count_cons, List.count_append,
        List.cons_append] at *
      omega

theorem covered_definitionsUses (ds : List Definition) :
    Covered ((definitionsUses ds).map fun use => use.2.node.id) (definitionIds ds) := by
  intro id
  cases ds with
  | nil => simp [definitionsUses]
  | cons d ds =>
      have h := d.covered_uses id
      have h' := covered_definitionsUses ds id
      simp only [definitionsUses, definitionIds, List.map_append, List.count_append] at *
      omega

theorem Statement.covered_uses (s : Statement) (head : FunctionHead) :
    Covered ((s.uses head).map fun use => use.2.node.id) s.ids := by
  intro id
  cases s with
  | eval node value =>
      have h := value.covered_uses head id
      simp only [Statement.uses, Statement.ids, List.count_append] at *
      omega
  | assign node target source =>
      have h := target.covered_uses head id
      have h' := source.covered_uses head id
      simp only [Statement.uses, Statement.ids, List.map_append, List.count_append] at *
      omega
  | branch node condition positive negative =>
      have h := condition.covered_uses head id
      have h' := covered_statementsUses positive head id
      have h'' := covered_statementsUses negative head id
      simp only [Statement.uses, Statement.ids, List.map_append, List.count_append] at *
      omega
  | loop node condition body =>
      have h := condition.covered_uses head id
      have h' := covered_statementsUses body head id
      simp only [Statement.uses, Statement.ids, List.map_append, List.count_append] at *
      omega
  | block node ds body =>
      have h := covered_definitionsUses ds id
      have h' := covered_statementsUses body head id
      simp only [Statement.uses, Statement.ids, List.map_append, List.count_append] at *
      omega

theorem covered_statementsUses (ss : List Statement) (head : FunctionHead) :
    Covered ((statementsUses head ss).map fun use => use.2.node.id) (statementIds ss) := by
  intro id
  cases ss with
  | nil => simp [statementsUses]
  | cons s ss =>
      have h := s.covered_uses head id
      have h' := covered_statementsUses ss head id
      simp only [statementsUses, statementIds, List.map_append, List.count_append] at *
      omega

end

/-! ## The numbers of a program -/

/-- The numbers of all nodes are those below `count`, in the order of the nodes. Functions, variables
and parameters have numbers of their own, and so have expressions. -/
structure Program.Numbered (program : Program) (count : Nat) : Prop where
  ids_eq : definitionIds program = List.range count
  nodup_declared : ((definitionsOwners [] program).map Prod.fst).Nodup
  nodup_used : ((definitionsUses program).map fun use => use.2.node.id).Nodup

/-- Where reading a program ends, the next number is that of its nodes. -/
theorem Program.numbered {text : List Char} {program : Program}
    (h : Program.parse text = .ok program) :
    ∃ r, (Reader.ofText text).definitions = .ok (program, r) ∧ program.Numbered r.nextId := by
  obtain ⟨⟨ds, r⟩, hdefinitions, h⟩ := bind_eq_ok h
  cases h
  obtain ⟨taken, hreads, -⟩ := Reader.definitions_ok _ _ _ hdefinitions
  have hnext : r.nextId = (definitionIds program).length := by
    rw [hreads.nextId_eq]
    exact Nat.zero_add _
  have hids : definitionIds program = List.range r.nextId := by
    rw [hnext, List.range_eq_range']
    exact hreads.ids_eq
  have hnodup : (definitionIds program).Nodup := hids ▸ List.nodup_range
  exact ⟨r, hdefinitions, hids, (covered_definitionsOwners program []).nodup hnodup,
    (covered_definitionsUses program).nodup hnodup⟩

end NestedFun
