import NestedFun.Proofs.Environment
import NestedFun.Proofs.TreeNumbering
import NestedFun.Scope.Resolution

namespace NestedFun

/-!
# Bound names

In a program that resolves, every name means something of the right kind where it stands, and the
table of definitions says what.
-/

/-- The number that a name refers to; for a function also how many parameters it has. -/
def Binding.target : Binding → NodeId × Option Nat
  | .function id _ count => (id, some count)
  | .variable id _ => (id, none)

def Entity.target : Entity → NodeId × Option Nat
  | .function head _ => (head.id, some head.parameters.length)
  | .variable id => (id, none)

theorem Definition.target_binding (definition : Definition) :
    definition.binding.target = definition.entity.target := by
  cases definition <;> rfl

/-- A scope binds the names of a region. -/
def Scope.Matches (scope : Scope) (region : Region) : Prop :=
  ∀ name, (scope.lookup name).map Binding.target
    = (region.entities.lookup name).map Entity.target

abbrev Scopes.Match (scopes : Scopes) (env : Env) : Prop :=
  List.Forall₂ Scope.Matches scopes env

theorem Scopes.Match.find? {scopes : Scopes} {env : Env} (h : scopes.Match env) (name : String) :
    (scopes.find? name).map Binding.target
      = (env.find? name).map fun meaning => meaning.entity.target := by
  induction h with
  | nil => rfl
  | @cons scope region scopes env hscope _ ih =>
      have hname := hscope name
      rw [Scopes.find?, List.findSome?_cons, Env.find?]
      cases hlookup : scope.lookup name with
      | none =>
          rw [hlookup] at hname
          cases hregion : region.entities.lookup name with
          | some entity => simp [hregion] at hname
          | none =>
              simp only [Option.map_map]
              exact ih
      | some binding =>
          rw [hlookup] at hname
          cases hregion : region.entities.lookup name with
          | none => simp [hregion] at hname
          | some entity => simpa [hregion] using hname

/-- The second scope binds distinct further names, to what the given entities say. -/
structure Scope.Adds (scope scope' : Scope) (entities : List (String × Entity)) : Prop where
  nodup : (entities.map Prod.fst).Nodup
  fresh : ∀ name ∈ entities.map Prod.fst, scope.lookup name = none
  lookup_eq : ∀ name, (scope'.lookup name).map Binding.target =
    match entities.lookup name with
    | some entity => some entity.target
    | none => (scope.lookup name).map Binding.target

namespace Scope.Adds

variable {scope scope' : Scope} {entities : List (String × Entity)}

theorem nil (scope : Scope) : Scope.Adds scope scope [] :=
  ⟨List.nodup_nil, by simp, fun _ => rfl⟩

theorem cons {name : String} {binding : Binding} {entity : Entity}
    (hfresh : scope.lookup name = none) (htarget : binding.target = entity.target)
    (h : Scope.Adds ((name, binding) :: scope) scope' entities) :
    Scope.Adds scope scope' ((name, entity) :: entities) := by
  have hne : name ∉ entities.map Prod.fst := by
    intro hmem
    have := h.fresh name hmem
    simp at this
  refine ⟨List.nodup_cons.mpr ⟨hne, h.nodup⟩, ?_, ?_⟩
  · intro other hother
    rcases List.mem_cons.mp hother with rfl | hother
    · exact hfresh
    · have := h.fresh other hother
      rw [List.lookup_cons] at this
      split at this
      · cases this
      · exact this
  · intro other
    rw [h.lookup_eq other, List.lookup_cons, List.lookup_cons]
    cases hother : other == name with
    | false => rfl
    | true =>
        rw [eq_of_beq hother, lookup_eq_none.mpr hne]
        simp [htarget]

theorem matches_region {region : Region}
    (h : Scope.Adds [] scope region.entities) : scope.Matches region := by
  intro name
  rw [h.lookup_eq name]
  cases region.entities.lookup name <;> rfl

end Scope.Adds

theorem bindDefinitions_ok (ds : List Definition) {scope scope' : Scope} {used used' : Nat}
    (h : bindDefinitions scope used ds = .ok (scope', used')) :
    scope.Adds scope' (Region.definitions ds).entities := by
  induction ds generalizing scope used with
  | nil =>
      cases h
      exact .nil _
  | cons d ds ih =>
      rw [bindDefinitions] at h
      split at h
      · cases h
      · rename_i hfresh
        simp only [Option.isSome_iff_ne_none, ne_eq, not_not] at hfresh
        obtain ⟨used₁, _, h⟩ := bind_eq_ok h
        exact .cons hfresh d.target_binding (ih h)

theorem bindParameters_ok (head : FunctionHead) {scope : Scope}
    (h : bindParameters [] head.parameters = .ok scope) :
    Scope.Adds [] scope (Region.parameters head).entities := by
  have hall : ∀ (ps : List Parameter) (scope scope' : Scope),
      bindParameters scope ps = .ok scope' →
      scope.Adds scope' (ps.map fun p => (p.name.text, .variable p.id)) := by
    intro ps
    induction ps with
    | nil =>
        rintro scope scope' h
        cases h
        exact .nil scope
    | cons p ps ih =>
        intro scope scope' h
        rw [bindParameters] at h
        split at h
        · cases h
        · rename_i hfresh
          simp only [Option.isSome_iff_ne_none, ne_eq, not_not] at hfresh
          exact .cons hfresh rfl (ih _ _ h)
  exact hall _ _ _ h

/-! ## Links to definitions -/

def Links.Within (links : Links) (table : Std.TreeMap NodeId NodeId) : Prop :=
  ∀ link ∈ links.definitions, table[link.1]? = some link.2

theorem Links.within_append {a b : Links} {table : Std.TreeMap NodeId NodeId}
    (h : (a ++ b).Within table) : a.Within table ∧ b.Within table :=
  ⟨fun link hlink => h link (List.mem_append_left _ hlink),
    fun link hlink => h link (List.mem_append_right _ hlink)⟩

mutual

/-- The names in an expression mean something of the right kind, which the table knows. -/
def Expression.Bound (table : Std.TreeMap NodeId NodeId) (env : Env) : Expression → Prop
  | .literal _ _ => True
  | .name node name => ∃ meaning id, env.find? name.text = some meaning ∧
      meaning.entity = .variable id ∧ table[node.id]? = some id
  | .call node callee arguments =>
    (∃ meaning head body, env.find? callee.text = some meaning ∧
      meaning.entity = .function head body ∧ head.parameters.length = arguments.length ∧
      table[node.id]? = some head.id) ∧ BoundExpressions table env arguments
  | .unary _ operator operand =>
    (operator.kind = .addressOf → operand.isPlace = true) ∧ operand.Bound table env
  | .binary _ _ left right => left.Bound table env ∧ right.Bound table env

def BoundExpressions (table : Std.TreeMap NodeId NodeId) (env : Env) : List Expression → Prop
  | [] => True
  | expression :: expressions =>
    expression.Bound table env ∧ BoundExpressions table env expressions

end

mutual

def Definition.Bound (table : Std.TreeMap NodeId NodeId) (env : Env) : Definition → Prop
  | .var _ => True
  | .func head body =>
    ((Region.parameters head).entities.map Prod.fst).Nodup ∧
      BoundStatements table (.parameters head :: env) body

def BoundDefinitions (table : Std.TreeMap NodeId NodeId) (env : Env) : List Definition → Prop
  | [] => True
  | definition :: definitions =>
    definition.Bound table env ∧ BoundDefinitions table env definitions

def Statement.Bound (table : Std.TreeMap NodeId NodeId) (env : Env) : Statement → Prop
  | .eval _ value => value.Bound table env
  | .assign _ target source =>
    target.isPlace = true ∧ target.Bound table env ∧ source.Bound table env
  | .branch _ condition positive negative => condition.Bound table env ∧
      BoundStatements table env positive ∧ BoundStatements table env negative
  | .loop _ condition body => condition.Bound table env ∧ BoundStatements table env body
  | .block _ ds body =>
    ((Region.definitions ds).entities.map Prod.fst).Nodup ∧
      BoundDefinitions table (.definitions ds :: env) ds ∧
      BoundStatements table (.definitions ds :: env) body

def BoundStatements (table : Std.TreeMap NodeId NodeId) (env : Env) : List Statement → Prop
  | [] => True
  | statement :: statements => statement.Bound table env ∧ BoundStatements table env statements

end

section

variable {table : Std.TreeMap NodeId NodeId} {scopes : Scopes} {env : Env}

theorem lookUp_ok {name : Identifier} {binding : Binding} (henv : scopes.Match env)
    (h : lookUp scopes name = .ok binding) :
    ∃ meaning, env.find? name.text = some meaning ∧
      meaning.entity.target = binding.target := by
  have hfind := henv.find? name.text
  simp only [lookUp] at h
  split at h
  · rename_i b hb
    cases h
    rw [hb] at hfind
    obtain ⟨meaning, hmeaning, htarget⟩ := Option.map_eq_some_iff.mp hfind.symm
    exact ⟨meaning, hmeaning, htarget⟩
  · cases h

/-! A form that resolves has passed its own checks, and its links are those of its parts with its own. -/

theorem Expression.name_resolved {node : Node} {name : Identifier} {links : Links}
    (h : (Expression.name node name).resolve scopes = .ok links) :
    ∃ id span, lookUp scopes name = .ok (.variable id span) ∧
      links = ⟨[(node.id, id)], [node.id]⟩ := by
  rw [Expression.resolve] at h
  obtain ⟨binding, hbinding, h⟩ := bind_eq_ok h
  rcases binding with ⟨id, span, count⟩ | ⟨id, span⟩
  · cases h
  · cases h
    exact ⟨id, span, hbinding, rfl⟩

theorem Expression.call_resolved {node : Node} {callee : Identifier}
    {arguments : List Expression} {links : Links}
    (h : (Expression.call node callee arguments).resolve scopes = .ok links) :
    ∃ id span others, lookUp scopes callee = .ok (.function id span arguments.length) ∧
      resolveExpressions scopes arguments = .ok others ∧
      links = ⟨[(node.id, id)], []⟩ ++ others := by
  rw [Expression.resolve] at h
  obtain ⟨binding, hbinding, h⟩ := bind_eq_ok h
  rcases binding with ⟨id, span, count⟩ | ⟨id, span⟩
  · simp only at h
    split at h
    · cases h
    · rename_i hcount
      obtain ⟨others, hothers, h⟩ := bind_eq_ok h
      cases h
      exact ⟨id, span, others, not_not.mp hcount ▸ hbinding, hothers, rfl⟩
  · cases h

theorem Expression.unary_resolved {node : Node} {operator : UnaryOperator} {operand : Expression}
    {links : Links} (h : (Expression.unary node operator operand).resolve scopes = .ok links) :
    ∃ others places, operand.resolve scopes = .ok others ∧ links = others ++ ⟨[], places⟩ ∧
      (operator.kind = .addressOf → operand.isPlace = true) := by
  have happend (links : Links) : links = links ++ ⟨[], []⟩ :=
    congrArg₂ Links.mk (List.append_nil _).symm (List.append_nil _).symm
  rw [Expression.resolve] at h
  obtain ⟨others, hothers, h⟩ := bind_eq_ok h
  cases hkind : operator.kind with
  | addressOf =>
      simp only [hkind] at h
      split at h
      · rename_i hplace
        cases h
        exact ⟨links, [], hothers, happend links, fun _ => hplace⟩
      · cases h
  | dereference =>
      simp only [hkind] at h
      cases h
      exact ⟨others, [node.id], hothers, rfl, by simp⟩
  | not | identity | negate =>
      simp only [hkind] at h
      cases h
      exact ⟨links, [], hothers, happend links, by simp⟩

mutual

theorem Expression.resolve_bound (e : Expression) {links : Links} (henv : scopes.Match env)
    (h : e.resolve scopes = .ok links) (hlinks : links.Within table) : e.Bound table env := by
  cases e with
  | literal => trivial
  | name node name =>
      obtain ⟨id, span, hbinding, rfl⟩ := Expression.name_resolved h
      obtain ⟨meaning, hmeaning, htarget⟩ := lookUp_ok henv hbinding
      have htable := hlinks (node.id, id) List.mem_cons_self
      rcases hentity : meaning.entity with id' | ⟨head, body⟩
      · simp only [hentity, Entity.target, Binding.target, Prod.mk.injEq, and_true] at htarget
        subst htarget
        exact ⟨meaning, id', hmeaning, hentity, htable⟩
      · simp [hentity, Entity.target, Binding.target] at htarget
  | call node callee arguments =>
      obtain ⟨id, span, others, hbinding, harguments, rfl⟩ := Expression.call_resolved h
      obtain ⟨meaning, hmeaning, htarget⟩ := lookUp_ok henv hbinding
      obtain ⟨hnode, hothers⟩ := Links.within_append hlinks
      have htable := hnode (node.id, id) List.mem_cons_self
      refine ⟨?_, resolveExpressions_bound arguments henv harguments hothers⟩
      rcases hentity : meaning.entity with id' | ⟨head, body⟩
      · simp [hentity, Entity.target, Binding.target] at htarget
      · simp only [hentity, Entity.target, Binding.target, Prod.mk.injEq,
          Option.some.injEq] at htarget
        obtain ⟨rfl, hcount⟩ := htarget
        exact ⟨meaning, head, body, hmeaning, hentity, hcount, htable⟩
  | unary node operator operand =>
      obtain ⟨others, places, hoperand, rfl, hplace⟩ := Expression.unary_resolved h
      exact ⟨hplace, operand.resolve_bound henv hoperand (Links.within_append hlinks).1⟩
  | binary node operator left right =>
      rw [Expression.resolve] at h
      obtain ⟨leftLinks, hleft, h⟩ := bind_eq_ok h
      obtain ⟨rightLinks, hright, h⟩ := bind_eq_ok h
      cases h
      obtain ⟨h₁, h₂⟩ := Links.within_append hlinks
      exact ⟨left.resolve_bound henv hleft h₁, right.resolve_bound henv hright h₂⟩

theorem resolveExpressions_bound (es : List Expression) {links : Links}
    (henv : scopes.Match env) (h : resolveExpressions scopes es = .ok links)
    (hlinks : links.Within table) : BoundExpressions table env es := by
  cases es with
  | nil => trivial
  | cons e es =>
      rw [resolveExpressions] at h
      obtain ⟨first, hfirst, h⟩ := bind_eq_ok h
      obtain ⟨others, hothers, h⟩ := bind_eq_ok h
      cases h
      obtain ⟨h₁, h₂⟩ := Links.within_append hlinks
      exact ⟨e.resolve_bound henv hfirst h₁, resolveExpressions_bound es henv hothers h₂⟩

end

theorem Scope.Adds.match_cons {scope : Scope} {region : Region}
    (h : Scope.Adds [] scope region.entities) (henv : scopes.Match env) :
    Scopes.Match (scope :: scopes) (region :: env) :=
  .cons h.matches_region henv

mutual

theorem Definition.resolve_bound (d : Definition) {scopes : Scopes} {env : Env} {links : Links}
    (henv : scopes.Match env) (h : d.resolve scopes = .ok links) (hlinks : links.Within table) :
    d.Bound table env := by
  cases d with
  | var head => trivial
  | func head body =>
      rw [Definition.resolve] at h
      obtain ⟨scope, hscope, h⟩ := bind_eq_ok h
      obtain ⟨⟨links', used⟩, hbody, h⟩ := bind_eq_ok h
      cases h
      have hadds := bindParameters_ok head hscope
      exact ⟨hadds.nodup, resolveStatements_bound body (hadds.match_cons henv) hbody hlinks⟩

theorem resolveDefinitions_bound (ds : List Definition) {scopes : Scopes} {env : Env}
    {links : Links} (henv : scopes.Match env) (h : resolveDefinitions scopes ds = .ok links)
    (hlinks : links.Within table) : BoundDefinitions table env ds := by
  cases ds with
  | nil => trivial
  | cons d ds =>
      rw [resolveDefinitions] at h
      obtain ⟨first, hfirst, h⟩ := bind_eq_ok h
      obtain ⟨others, hothers, h⟩ := bind_eq_ok h
      cases h
      obtain ⟨h₁, h₂⟩ := Links.within_append hlinks
      exact ⟨d.resolve_bound henv hfirst h₁, resolveDefinitions_bound ds henv hothers h₂⟩

theorem Statement.resolve_bound (s : Statement) {scopes : Scopes} {env : Env} {used used' : Nat}
    {links : Links} (henv : scopes.Match env) (h : s.resolve scopes used = .ok (links, used'))
    (hlinks : links.Within table) : s.Bound table env := by
  cases s with
  | eval node value =>
      rw [Statement.resolve] at h
      obtain ⟨links', hvalue, h⟩ := bind_eq_ok h
      cases h
      exact value.resolve_bound henv hvalue hlinks
  | assign node target source =>
      rw [Statement.resolve] at h
      obtain ⟨sourceLinks, hsource, h⟩ := bind_eq_ok h
      obtain ⟨targetLinks, htarget, h⟩ := bind_eq_ok h
      split at h
      · rename_i hplace
        cases h
        obtain ⟨h₁, h₂⟩ := Links.within_append hlinks
        exact ⟨hplace, target.resolve_bound henv htarget h₂,
          source.resolve_bound henv hsource h₁⟩
      · cases h
  | branch node condition positive negative =>
      rw [Statement.resolve] at h
      obtain ⟨conditionLinks, hcondition, h⟩ := bind_eq_ok h
      obtain ⟨⟨positiveLinks, used₁⟩, hpositive, h⟩ := bind_eq_ok h
      obtain ⟨⟨negativeLinks, used₂⟩, hnegative, h⟩ := bind_eq_ok h
      cases h
      obtain ⟨h₁, h₃⟩ := Links.within_append hlinks
      obtain ⟨h₁, h₂⟩ := Links.within_append h₁
      exact ⟨condition.resolve_bound henv hcondition h₁,
        resolveStatements_bound positive henv hpositive h₂,
        resolveStatements_bound negative henv hnegative h₃⟩
  | loop node condition body =>
      rw [Statement.resolve] at h
      obtain ⟨conditionLinks, hcondition, h⟩ := bind_eq_ok h
      obtain ⟨⟨bodyLinks, used₁⟩, hbody, h⟩ := bind_eq_ok h
      cases h
      obtain ⟨h₁, h₂⟩ := Links.within_append hlinks
      exact ⟨condition.resolve_bound henv hcondition h₁,
        resolveStatements_bound body henv hbody h₂⟩
  | block node ds body =>
      rw [Statement.resolve] at h
      obtain ⟨⟨scope, used₁⟩, hscope, h⟩ := bind_eq_ok h
      obtain ⟨definitionLinks, hds, h⟩ := bind_eq_ok h
      obtain ⟨⟨bodyLinks, used₂⟩, hbody, h⟩ := bind_eq_ok h
      cases h
      have hadds := bindDefinitions_ok ds hscope
      obtain ⟨h₁, h₂⟩ := Links.within_append hlinks
      exact ⟨hadds.nodup, resolveDefinitions_bound ds (hadds.match_cons henv) hds h₁,
        resolveStatements_bound body (hadds.match_cons henv) hbody h₂⟩

theorem resolveStatements_bound (ss : List Statement) {scopes : Scopes} {env : Env}
    {used used' : Nat} {links : Links} (henv : scopes.Match env)
    (h : resolveStatements scopes used ss = .ok (links, used')) (hlinks : links.Within table) :
    BoundStatements table env ss := by
  cases ss with
  | nil => trivial
  | cons s ss =>
      rw [resolveStatements] at h
      obtain ⟨⟨first, used₁⟩, hfirst, h⟩ := bind_eq_ok h
      obtain ⟨⟨others, used₂⟩, hothers, h⟩ := bind_eq_ok h
      cases h
      obtain ⟨h₁, h₂⟩ := Links.within_append hlinks
      exact ⟨s.resolve_bound henv hfirst h₁, resolveStatements_bound ss henv hothers h₂⟩

end

end

/-! ## No node is linked twice -/

def Links.keys (links : Links) : List NodeId := links.definitions.map Prod.fst

@[simp] theorem Links.keys_append (a b : Links) : (a ++ b).keys = a.keys ++ b.keys :=
  List.map_append

@[simp] theorem Links.keys_single (link : NodeId × NodeId) (places : List NodeId) :
    Links.keys ⟨[link], places⟩ = [link.1] := rfl

@[simp] theorem Links.keys_places (places : List NodeId) : Links.keys ⟨[], places⟩ = [] := rfl

/-- Every number occurs at most as often in the first list as in the second. -/
def Covered (xs ys : List NodeId) : Prop := ∀ id, xs.count id ≤ ys.count id

theorem Covered.nodup {xs ys : List NodeId} (h : Covered xs ys) (hys : ys.Nodup) : xs.Nodup :=
  List.nodup_iff_count_le_one.mpr fun id => (h id).trans (List.nodup_iff_count_le_one.mp hys id)

theorem Covered.mem {xs ys : List NodeId} (h : Covered xs ys) {id : NodeId} (hid : id ∈ xs) :
    id ∈ ys :=
  List.count_pos_iff.mp ((List.count_pos_iff.mpr hid).trans_le (h id))

mutual

theorem Expression.resolve_covered (e : Expression) {scopes : Scopes} {links : Links}
    (h : e.resolve scopes = .ok links) : Covered links.keys e.ids := by
  intro id
  cases e with
  | literal =>
      cases h
      simp [Links.keys]
  | name node name =>
      obtain ⟨target, span, -, rfl⟩ := Expression.name_resolved h
      simp [Links.keys, Expression.ids, List.count_cons]
  | call node callee arguments =>
      obtain ⟨target, span, others, -, harguments, rfl⟩ := Expression.call_resolved h
      have := resolveExpressions_covered arguments harguments id
      simp only [Links.keys_append, Links.keys_single, Expression.ids, List.count_append,
        List.count_cons, List.count_nil] at *
      omega
  | unary node operator operand =>
      obtain ⟨others, places, hoperand, rfl, -⟩ := Expression.unary_resolved h
      have := operand.resolve_covered hoperand id
      simp only [Links.keys_append, Links.keys_places, List.append_nil, Expression.ids,
        List.count_append] at *
      omega
  | binary node operator left right =>
      rw [Expression.resolve] at h
      obtain ⟨leftLinks, hleft, h⟩ := bind_eq_ok h
      obtain ⟨rightLinks, hright, h⟩ := bind_eq_ok h
      cases h
      have h₁ := left.resolve_covered hleft id
      have h₂ := right.resolve_covered hright id
      simp only [Links.keys_append, Expression.ids, List.count_append] at *
      omega

theorem resolveExpressions_covered (es : List Expression) {scopes : Scopes} {links : Links}
    (h : resolveExpressions scopes es = .ok links) : Covered links.keys (expressionIds es) := by
  intro id
  cases es with
  | nil =>
      cases h
      simp [Links.keys]
  | cons e es =>
      rw [resolveExpressions] at h
      obtain ⟨first, hfirst, h⟩ := bind_eq_ok h
      obtain ⟨others, hothers, h⟩ := bind_eq_ok h
      cases h
      have h₁ := e.resolve_covered hfirst id
      have h₂ := resolveExpressions_covered es hothers id
      simp only [Links.keys_append, expressionIds, List.count_append] at *
      omega

end

mutual

theorem Definition.resolve_covered (d : Definition) {scopes : Scopes} {links : Links}
    (h : d.resolve scopes = .ok links) : Covered links.keys d.ids := by
  intro id
  cases d with
  | var head =>
      cases h
      simp [Links.keys]
  | func head body =>
      rw [Definition.resolve] at h
      obtain ⟨scope, hscope, h⟩ := bind_eq_ok h
      obtain ⟨⟨links', used⟩, hbody, h⟩ := bind_eq_ok h
      cases h
      have := resolveStatements_covered body hbody id
      simp only [Definition.ids, List.count_append, List.count_cons] at *
      omega

theorem resolveDefinitions_covered (ds : List Definition) {scopes : Scopes} {links : Links}
    (h : resolveDefinitions scopes ds = .ok links) : Covered links.keys (definitionIds ds) := by
  intro id
  cases ds with
  | nil =>
      cases h
      simp [Links.keys]
  | cons d ds =>
      rw [resolveDefinitions] at h
      obtain ⟨first, hfirst, h⟩ := bind_eq_ok h
      obtain ⟨others, hothers, h⟩ := bind_eq_ok h
      cases h
      have h₁ := d.resolve_covered hfirst id
      have h₂ := resolveDefinitions_covered ds hothers id
      simp only [Links.keys_append, definitionIds, List.count_append] at *
      omega

theorem Statement.resolve_covered (s : Statement) {scopes : Scopes} {used used' : Nat}
    {links : Links} (h : s.resolve scopes used = .ok (links, used')) :
    Covered links.keys s.ids := by
  intro id
  cases s with
  | eval node value =>
      rw [Statement.resolve] at h
      obtain ⟨links', hvalue, h⟩ := bind_eq_ok h
      cases h
      have := value.resolve_covered hvalue id
      simp only [Statement.ids, List.count_append] at *
      omega
  | assign node target source =>
      rw [Statement.resolve] at h
      obtain ⟨sourceLinks, hsource, h⟩ := bind_eq_ok h
      obtain ⟨targetLinks, htarget, h⟩ := bind_eq_ok h
      split at h
      · cases h
        have h₁ := source.resolve_covered hsource id
        have h₂ := target.resolve_covered htarget id
        simp only [Links.keys_append, Statement.ids, List.count_append] at *
        omega
      · cases h
  | branch node condition positive negative =>
      rw [Statement.resolve] at h
      obtain ⟨conditionLinks, hcondition, h⟩ := bind_eq_ok h
      obtain ⟨⟨positiveLinks, used₁⟩, hpositive, h⟩ := bind_eq_ok h
      obtain ⟨⟨negativeLinks, used₂⟩, hnegative, h⟩ := bind_eq_ok h
      cases h
      have h₁ := condition.resolve_covered hcondition id
      have h₂ := resolveStatements_covered positive hpositive id
      have h₃ := resolveStatements_covered negative hnegative id
      simp only [Links.keys_append, Statement.ids, List.count_append] at *
      omega
  | loop node condition body =>
      rw [Statement.resolve] at h
      obtain ⟨conditionLinks, hcondition, h⟩ := bind_eq_ok h
      obtain ⟨⟨bodyLinks, used₁⟩, hbody, h⟩ := bind_eq_ok h
      cases h
      have h₁ := condition.resolve_covered hcondition id
      have h₂ := resolveStatements_covered body hbody id
      simp only [Links.keys_append, Statement.ids, List.count_append] at *
      omega
  | block node ds body =>
      rw [Statement.resolve] at h
      obtain ⟨⟨scope, used₁⟩, hscope, h⟩ := bind_eq_ok h
      obtain ⟨definitionLinks, hds, h⟩ := bind_eq_ok h
      obtain ⟨⟨bodyLinks, used₂⟩, hbody, h⟩ := bind_eq_ok h
      cases h
      have h₁ := resolveDefinitions_covered ds hds id
      have h₂ := resolveStatements_covered body hbody id
      simp only [Links.keys_append, Statement.ids, List.count_append] at *
      omega

theorem resolveStatements_covered (ss : List Statement) {scopes : Scopes} {used used' : Nat}
    {links : Links} (h : resolveStatements scopes used ss = .ok (links, used')) :
    Covered links.keys (statementIds ss) := by
  intro id
  cases ss with
  | nil =>
      cases h
      simp [Links.keys]
  | cons s ss =>
      rw [resolveStatements] at h
      obtain ⟨⟨first, used₁⟩, hfirst, h⟩ := bind_eq_ok h
      obtain ⟨⟨others, used₂⟩, hothers, h⟩ := bind_eq_ok h
      cases h
      have h₁ := s.resolve_covered hfirst id
      have h₂ := resolveStatements_covered ss hothers id
      simp only [Links.keys_append, statementIds, List.count_append] at *
      omega

end

/-! ## The whole program -/

/-- Entries of a table that are put in one after the other and have distinct keys stay. -/
theorem getElem?_foldl_insert {β : Type} (pairs : List (NodeId × β))
    (hnodup : (pairs.map Prod.fst).Nodup) (start : Std.TreeMap NodeId β) :
    (∀ pair ∈ pairs, (pairs.foldl (fun table pair => table.insert pair.1 pair.2) start)[pair.1]?
      = some pair.2) ∧
    ∀ id ∉ pairs.map Prod.fst,
      (pairs.foldl (fun table pair => table.insert pair.1 pair.2) start)[id]? = start[id]? := by
  induction pairs generalizing start with
  | nil => simp
  | cons pair pairs ih =>
      rw [List.map_cons, List.nodup_cons] at hnodup
      obtain ⟨hin, hout⟩ := ih hnodup.2 (start.insert pair.1 pair.2)
      refine ⟨fun other hother => ?_, fun id hid => ?_⟩
      · rcases List.mem_cons.mp hother with rfl | hother
        · rw [List.foldl_cons, hout _ hnodup.1, Std.TreeMap.getElem?_insert_self]
        · exact hin other hother
      · rw [List.map_cons, List.mem_cons, not_or] at hid
        rw [List.foldl_cons, hout id hid.2, Std.TreeMap.getElem?_insert]
        have hne : ¬ compare pair.1 id = .eq := by
          rw [Std.LawfulEqCmp.compare_eq_iff_eq]
          exact fun heq => hid.1 heq.symm
        rw [if_neg hne]

/-- The names of a program that resolves are bound, and `main` is a function without parameters. -/
theorem Program.resolve_bound (program : Program) {resolution : Resolution}
    (hnodup : (definitionIds program).Nodup) (h : program.resolve = .ok resolution) :
    ((Region.definitions program).entities.map Prod.fst).Nodup ∧
      BoundDefinitions resolution.definitions [.definitions program] program ∧
      ∃ head body, (Region.definitions program).entities.lookup "main"
        = some (.function head body) ∧ head.parameters = [] := by
  obtain ⟨⟨scope, used⟩, hscope, h⟩ := bind_eq_ok h
  obtain ⟨u, hmain, h⟩ := bind_eq_ok h
  obtain ⟨links, hlinks, h⟩ := bind_eq_ok h
  cases h
  have hadds := bindDefinitions_ok program hscope
  -- no node is linked twice, so the table keeps every link
  have hcovered := (resolveDefinitions_covered program hlinks).nodup hnodup
  have hwithin : links.Within (Resolution.ofLinks links).definitions :=
    (getElem?_foldl_insert links.definitions hcovered ∅).1
  refine ⟨hadds.nodup,
    resolveDefinitions_bound program (hadds.match_cons List.Forall₂.nil) hlinks hwithin, ?_⟩
  have hname := hadds.matches_region "main"
  simp only [checkMain] at hmain
  split at hmain
  · rename_i id span count hlookup
    split at hmain
    · rename_i hcount
      rw [hlookup] at hname
      rcases hentity : (Region.definitions program).entities.lookup "main" with
        _ | ⟨id'⟩ | ⟨head, body⟩
      · simp [hentity] at hname
      · simp [hentity, Entity.target, Binding.target] at hname
      · simp only [hentity, Entity.target, Binding.target, Option.map_some, Option.some.injEq,
          Prod.mk.injEq] at hname
        exact ⟨head, body, rfl, List.length_eq_zero_iff.mp (hname.2.symm.trans hcount)⟩
    · cases hmain
  · cases hmain
  · cases hmain

end NestedFun
