import NestedFun.Proofs.FrameTiling

namespace NestedFun

/-!
# Lexical scoping

Resolving succeeds for the programs that keep the rules of scopes and for no others, and it finds for
every name and every call the definition that is visible where it stands.
-/

/-! ## What stands where -/

/-- The parts of an expression, each with what surrounds it. -/
def Expression.occurrences (env : Env) (e : Expression) : List (Env × Expression) :=
  e.parts.map fun part => (env, part)

mutual

def Definition.occurrences (env : Env) : Definition → List (Env × Expression)
  | .func head body => statementsOccurrences (.parameters head :: env) body
  | .var _ => []

def definitionsOccurrences (env : Env) : List Definition → List (Env × Expression)
  | [] => []
  | definition :: definitions =>
    definition.occurrences env ++ definitionsOccurrences env definitions

/-- All expressions in a statement. What a block defines is visible in its functions and its
statements. -/
def Statement.occurrences (env : Env) : Statement → List (Env × Expression)
  | .eval _ value => value.occurrences env
  | .assign _ target source => target.occurrences env ++ source.occurrences env
  | .branch _ condition positive negative =>
    condition.occurrences env ++ statementsOccurrences env positive
      ++ statementsOccurrences env negative
  | .loop _ condition body => condition.occurrences env ++ statementsOccurrences env body
  | .block _ definitions body => definitionsOccurrences (.definitions definitions :: env) definitions
      ++ statementsOccurrences (.definitions definitions :: env) body

def statementsOccurrences (env : Env) : List Statement → List (Env × Expression)
  | [] => []
  | statement :: statements =>
    statement.occurrences env ++ statementsOccurrences env statements

end

mutual

def Definition.lets : Definition → List (List Definition)
  | .func _ body => statementsLets body
  | .var _ => []

def definitionsLets : List Definition → List (List Definition)
  | [] => []
  | definition :: definitions => definition.lets ++ definitionsLets definitions

def Statement.lets : Statement → List (List Definition)
  | .eval _ _ | .assign _ _ _ => []
  | .branch _ _ positive negative => statementsLets positive ++ statementsLets negative
  | .loop _ _ body => statementsLets body
  | .block _ definitions body =>
    definitions :: (definitionsLets definitions ++ statementsLets body)

def statementsLets : List Statement → List (List Definition)
  | [] => []
  | statement :: statements => statement.lets ++ statementsLets statements

end

/-! ## The rules -/

/-- What an expression needs of its surroundings: a name stands for a variable, a call is one of a
function that takes as many arguments, and only places have their address taken. -/
def Expression.Scoped (env : Env) : Expression → Prop
  | .name _ used => ∃ meaning id, env.find? used.text = some meaning ∧ meaning.entity = .variable id
  | .call _ callee arguments => ∃ meaning head body, env.find? callee.text = some meaning ∧
      meaning.entity = .function head body ∧ head.parameters.length = arguments.length
  | .unary _ operator operand => operator.kind = .addressOf → operand.isPlace = true
  | .literal _ _ | .binary _ _ _ _ => True

def Expression.Means (env : Env) : Expression → NodeId → Prop
  | .name _ used, id => ∃ meaning, env.find? used.text = some meaning ∧
      meaning.entity = .variable id
  | .call _ callee _, id => ∃ meaning head body, env.find? callee.text = some meaning ∧
      meaning.entity = .function head body ∧ head.id = id
  | .literal _ _, _ | .unary _ _ _, _ | .binary _ _ _ _, _ => False

def Distinct (ds : List Definition) : Prop := (ds.map fun d => d.name.text).Nodup

/-- The rules for functions: parameters have different names, and the variables of all blocks of a
function have room. -/
structure NestedFunction.Scoped (f : NestedFunction) : Prop where
  parameters : (f.head.parameters.map fun parameter => parameter.name.text).Nodup
  locals : storageOf (statementsLocals f.body) ≤ maxStorage

structure KeepsScopes (uses : List (Env × Expression)) (functions : List NestedFunction)
    (blocks : List (List Definition)) (targets : List Expression) : Prop where
  uses : ∀ use ∈ uses, use.2.Scoped use.1
  functions : ∀ f ∈ functions, f.Scoped
  blocks : ∀ ds ∈ blocks, Distinct ds
  targets : ∀ target ∈ targets, target.isPlace = true

structure Program.Scoped (program : Program) : Prop extends
    KeepsScopes (definitionsOccurrences [.definitions program] program)
      (definitionsFunctions 0 program) (definitionsLets program) (definitionsTargets program) where
  distinct : Distinct program
  main : ∃ head body, .func head body ∈ program ∧ head.name.text = "main" ∧ head.parameters = []
  globals : storageOf (program.filterMap Definition.variable?) ≤ maxStorage

theorem keepsScopes_append {uses uses' : List (Env × Expression)}
    {functions functions' : List NestedFunction} {blocks blocks' : List (List Definition)}
    {targets targets' : List Expression} :
    KeepsScopes (uses ++ uses') (functions ++ functions') (blocks ++ blocks') (targets ++ targets') ↔
      KeepsScopes uses functions blocks targets ∧ KeepsScopes uses' functions' blocks' targets' := by
  constructor
  · rintro ⟨huses, hfunctions, hblocks, htargets⟩
    rw [List.forall_mem_append] at huses hfunctions hblocks htargets
    exact ⟨⟨huses.1, hfunctions.1, hblocks.1, htargets.1⟩,
      ⟨huses.2, hfunctions.2, hblocks.2, htargets.2⟩⟩
  · rintro ⟨h, h'⟩
    exact ⟨List.forall_mem_append.mpr ⟨h.uses, h'.uses⟩,
      List.forall_mem_append.mpr ⟨h.functions, h'.functions⟩,
      List.forall_mem_append.mpr ⟨h.blocks, h'.blocks⟩,
      List.forall_mem_append.mpr ⟨h.targets, h'.targets⟩⟩

theorem keepsScopes_nil : KeepsScopes [] [] [] [] := ⟨nofun, nofun, nofun, nofun⟩

/-! ## Success and results -/

/-- Something succeeds just under a condition, and then its result has a property. -/
structure Settles {α : Type} (x : Except CompileError α) (P : Prop) (Q : α → Prop) : Prop where
  iff : (∃ a, x = .ok a) ↔ P
  result : ∀ a, x = .ok a → Q a

namespace Settles

variable {α β : Type} {x : Except CompileError α} {P P' : Prop} {Q Q' : α → Prop}

theorem ok {a : α} (h : Q a) : Settles (.ok a) True Q where
  iff := ⟨fun _ => trivial, fun _ => ⟨a, rfl⟩⟩
  result := by
    rintro _ ⟨⟩
    exact h

theorem error (e : CompileError) : Settles (.error e) False Q where
  iff := ⟨nofun, False.elim⟩
  result := nofun

theorem of_iff (h : Settles x P Q) (hP : P ↔ P') : Settles x P' Q := ⟨h.iff.trans hP, h.result⟩

theorem bind {f : α → Except CompileError β} {R : β → Prop} (h : Settles x P Q)
    (hf : ∀ a, Q a → Settles (f a) P' R) : Settles (x >>= f) (P ∧ P') R := by
  cases x with
  | error e => exact (error e).of_iff ⟨False.elim, fun hP => nomatch h.iff.mpr hP.1⟩
  | ok a =>
      have hP := h.iff.mp ⟨a, rfl⟩
      exact (hf a (h.result a rfl)).of_iff (and_iff_right hP).symm

theorem map {g : α → β} {R : β → Prop} (h : Settles x P Q) (hg : ∀ a, Q a → R (g a)) :
    Settles (x >>= fun a => .ok (g a)) P R :=
  (h.bind fun a ha => ok (hg a ha)).of_iff (iff_of_eq (and_true P))

/-- Failing if something is wrong, and going on otherwise. -/
theorem guard {p : Prop} [Decidable p] {e : CompileError} {f : PUnit → Except CompileError α}
    (h : Settles (f ⟨⟩) P Q) :
    Settles (if p then (throw e : Except CompileError PUnit) >>= f else f ⟨⟩) (¬ p ∧ P) Q := by
  split
  · rename_i hp
    exact (error e).of_iff ⟨False.elim, fun h => h.1 hp⟩
  · rename_i hp
    exact h.of_iff (and_iff_right hp).symm

/-- Succeeding if something is right. -/
theorem check {p : Prop} [Decidable p] {e : CompileError} {a : α} (h : p → Q a) :
    Settles (if p then .ok a else .error e) p Q := by
  split
  · rename_i hp
    exact (ok (h hp)).of_iff (iff_of_true trivial hp)
  · rename_i hp
    exact (error e).of_iff (iff_of_false not_false hp)

end Settles

/-! ## Binding -/

theorem reserve_settles (used : Nat) (d : Definition) :
    Settles (reserve used d) (used + d.storage ≤ maxStorage)
      (fun used' => used' = used + d.storage ∧ used' ≤ maxStorage) :=
  .check fun hle => ⟨rfl, hle⟩

theorem storageOf_variables_cons (d : Definition) (ds : List Definition) :
    storageOf ((d :: ds).filterMap Definition.variable?)
      = d.storage + storageOf (ds.filterMap Definition.variable?) := by
  cases d with
  | func head body => exact (Nat.zero_add _).symm
  | var head => exact storageOf_cons head _

def Scope.Lacks (scope : Scope) (names : List String) : Prop := ∀ name ∈ names, scope.lookup name = none

theorem Scope.lookup_cons_eq_none {scope : Scope} {binding : Binding} {name other : String} :
    List.lookup other ((name, binding) :: scope) = none ↔ other ≠ name ∧ scope.lookup other = none := by
  rw [List.lookup_cons]
  split
  · rename_i heq
    simp [eq_of_beq heq]
  · rename_i heq
    simp only [beq_eq_false_iff_ne] at heq
    exact (and_iff_right heq).symm

/-- Names that are bound one after the other are different and new. -/
theorem Scope.lacks_cons {scope : Scope} {binding : Binding} {name : String} {names : List String} :
    (¬ (scope.lookup name).isSome = true ∧ names.Nodup ∧ Lacks ((name, binding) :: scope) names) ↔
      (name :: names).Nodup ∧ scope.Lacks (name :: names) := by
  simp only [Lacks, Option.not_isSome_iff_eq_none, lookup_cons_eq_none, List.nodup_cons,
    List.forall_mem_cons]
  constructor
  · rintro ⟨hname, hnodup, hnames⟩
    exact ⟨⟨fun hmem => (hnames name hmem).1 rfl, hnodup⟩, hname, fun other h => (hnames other h).2⟩
  · rintro ⟨⟨hname, hnodup⟩, hlacks, hnames⟩
    refine ⟨hlacks, hnodup, fun other h => ⟨?_, hnames other h⟩⟩
    rintro rfl
    exact hname h

theorem bindDefinitions_settles (ds : List Definition) (scope : Scope) {used : Nat}
    (hused : used ≤ maxStorage) :
    Settles (bindDefinitions scope used ds)
      ((Distinct ds ∧ scope.Lacks (ds.map fun d => d.name.text)) ∧
        used + storageOf (ds.filterMap Definition.variable?) ≤ maxStorage)
      (fun found => found.2 = used + storageOf (ds.filterMap Definition.variable?)) := by
  induction ds generalizing scope used with
  | nil => exact .of_iff (.ok rfl) (iff_of_true trivial ⟨⟨List.nodup_nil, nofun⟩, hused⟩)
  | cons d ds ih =>
      rw [bindDefinitions, storageOf_variables_cons, ← Nat.add_assoc]
      refine .of_iff (.guard (.bind (reserve_settles used d) fun used' hused' => by
        obtain ⟨rfl, hle⟩ := hused'
        exact ih _ hle)) ?_
      have hle : used + d.storage + storageOf (ds.filterMap Definition.variable?) ≤ maxStorage →
          used + d.storage ≤ maxStorage := fun h => (Nat.le_add_right _ _).trans h
      have hnames : _ ↔ Distinct (d :: ds) ∧ scope.Lacks ((d :: ds).map fun d => d.name.text) :=
        @Scope.lacks_cons scope d.binding d.name.text (ds.map fun d => d.name.text)
      rw [← hnames, Distinct]
      tauto

theorem bindParameters_settles (parameters : List Parameter) (scope : Scope) :
    Settles (bindParameters scope parameters)
      ((parameters.map fun parameter => parameter.name.text).Nodup ∧
        scope.Lacks (parameters.map fun parameter => parameter.name.text)) (fun _ => True) := by
  induction parameters generalizing scope with
  | nil => exact .of_iff (.ok trivial) (iff_of_true trivial ⟨List.nodup_nil, nofun⟩)
  | cons parameter parameters ih =>
      rw [bindParameters]
      exact .of_iff (.guard (ih _)) Scope.lacks_cons

theorem Scope.lacks_nil (names : List String) : Scope.Lacks [] names := fun _ _ => rfl

/-- The scope of a block binds the names of the block. -/
theorem scope_settles (ds : List Definition) {used : Nat} (hused : used ≤ maxStorage) :
    Settles (bindDefinitions [] used ds)
      (Distinct ds ∧ used + storageOf (ds.filterMap Definition.variable?) ≤ maxStorage)
      (fun found => Scope.Adds [] found.1 (Region.definitions ds).entities ∧
        found.2 = used + storageOf (ds.filterMap Definition.variable?) ∧ found.2 ≤ maxStorage) := by
  have h := bindDefinitions_settles ds [] hused
  have hiff := h.iff.trans (and_congr_left' (and_iff_left (Scope.lacks_nil _)))
  refine ⟨hiff, fun found hfound => ?_⟩
  have hresult := h.result found hfound
  exact ⟨bindDefinitions_ok ds hfound, hresult, hresult ▸ (hiff.mp ⟨found, hfound⟩).2⟩

/-- The scope of a function binds its parameters. -/
theorem parameterScope_settles (head : FunctionHead) :
    Settles (bindParameters [] head.parameters)
      (head.parameters.map fun parameter => parameter.name.text).Nodup
      (fun scope => Scope.Adds [] scope (Region.parameters head).entities) := by
  have h := bindParameters_settles head.parameters []
  refine ⟨h.iff.trans (and_iff_left (Scope.lacks_nil _)), fun scope hscope => ?_⟩
  exact bindParameters_ok head hscope

/-! ## Links -/

/-- Links lead from the names and calls among some expressions to what these mean, and the places are
those among the expressions. -/
structure Links.Describes (links : Links) (uses : List (Env × Expression)) : Prop where
  definitions : ∀ id target, (id, target) ∈ links.definitions ↔
    ∃ use ∈ uses, use.2.node.id = id ∧ use.2.Means use.1 target
  places : ∀ id, id ∈ links.places ↔ ∃ use ∈ uses, use.2.node.id = id ∧ use.2.isPlace = true

namespace Links.Describes

variable {links links' : Links} {uses uses' : List (Env × Expression)}

theorem empty : Links.Describes {} [] where
  definitions := by simp
  places := by simp

theorem append (h : links.Describes uses) (h' : links'.Describes uses') :
    (links ++ links').Describes (uses ++ uses') where
  definitions id target := by
    show _ ∈ links.definitions ++ links'.definitions ↔ _
    simp only [List.mem_append, h.definitions, h'.definitions, or_and_right, exists_or]
  places id := by
    show _ ∈ links.places ++ links'.places ↔ _
    simp only [List.mem_append, h.places, h'.places, or_and_right, exists_or]

theorem congr (h : links.Describes uses) (huses : ∀ use, use ∈ uses ↔ use ∈ uses') :
    links.Describes uses' where
  definitions id target := by simp only [h.definitions, huses]
  places id := by simp only [h.places, huses]

/-- Nothing is linked for an expression that means nothing and is no place. -/
theorem none {env : Env} {e : Expression} (hmeans : ∀ target, ¬ e.Means env target)
    (hplace : e.isPlace = false) : Links.Describes {} [(env, e)] where
  definitions := by simp [hmeans]
  places := by simp [hplace]

/-- What is linked for a single expression. -/
theorem single {env : Env} {e : Expression}
    (hdefinitions : ∀ id target, (id, target) ∈ links.definitions ↔
      e.node.id = id ∧ e.Means env target)
    (hplaces : ∀ id, id ∈ links.places ↔ e.node.id = id ∧ e.isPlace = true) :
    links.Describes [(env, e)] where
  definitions id target := by simp [hdefinitions]
  places id := by simp [hplaces]

end Links.Describes

section

variable {scopes : Scopes} {env : Env}

/-- A name has the binding that is visible. -/
theorem lookUp_of_find? (henv : scopes.Match env) {name : Identifier} {meaning : Meaning}
    (hfind : env.find? name.text = some meaning) :
    ∃ binding, lookUp scopes name = .ok binding ∧ binding.target = meaning.entity.target := by
  have hscopes := henv.find? name.text
  rw [hfind] at hscopes
  obtain ⟨binding, hbinding, htarget⟩ := Option.map_eq_some_iff.mp hscopes
  exact ⟨binding, by rw [lookUp, hbinding], htarget⟩

theorem lookUp_of_none (henv : scopes.Match env) {name : Identifier}
    (hfind : env.find? name.text = none) : ∃ e, lookUp scopes name = .error e := by
  have hscopes := henv.find? name.text
  rw [hfind] at hscopes
  exact ⟨_, by rw [lookUp, Option.map_eq_none_iff.mp hscopes]⟩

theorem Entity.eq_of_target_variable {entity : Entity} {id : NodeId} {span : Span}
    (h : (Binding.variable id span).target = entity.target) : entity = .variable id := by
  rcases entity with id' | ⟨head, body⟩
  · cases h
    rfl
  · cases h

theorem Entity.eq_of_target_function {entity : Entity} {id : NodeId} {span : Span} {count : Nat}
    (h : (Binding.function id span count).target = entity.target) :
    ∃ head body, entity = .function head body ∧ head.id = id ∧ head.parameters.length = count := by
  rcases entity with id' | ⟨head, body⟩
  · cases h
  · cases h
    exact ⟨head, body, rfl, rfl, rfl⟩

theorem Expression.means_name_iff {node : Node} {name : Identifier} {meaning : Meaning}
    {id target : NodeId}
    (hfind : env.find? name.text = some meaning) (hentity : meaning.entity = .variable id) :
    (Expression.name node name).Means env target ↔ id = target := by
  constructor
  · rintro ⟨meaning', hmeaning, hentity'⟩
    cases hfind.symm.trans hmeaning
    exact Entity.variable.inj (hentity.symm.trans hentity')
  · rintro rfl
    exact ⟨meaning, hfind, hentity⟩

theorem Expression.means_call_iff {node : Node} {callee : Identifier} {arguments : List Expression}
    {meaning : Meaning} {head : FunctionHead} {body : List Statement} {target : NodeId}
    (hfind : env.find? callee.text = some meaning) (hentity : meaning.entity = .function head body) :
    (Expression.call node callee arguments).Means env target ↔ head.id = target := by
  constructor
  · rintro ⟨meaning', head', body', hmeaning, hentity', hid⟩
    cases hfind.symm.trans hmeaning
    cases hentity.symm.trans hentity'
    exact hid
  · rintro rfl
    exact ⟨meaning, head, body, hfind, hentity, rfl⟩

end

/-- What comes after a name is looked up settles a condition if it does so for a variable and for a
function, and the condition fails where the name means nothing. -/
theorem lookUp_settles (henv : scopes.Match env) {name : Identifier}
    {next : Binding → Except CompileError Links} {P : Prop} {Q : Links → Prop}
    (hnone : env.find? name.text = none → ¬ P)
    (hvariable : ∀ meaning id span, env.find? name.text = some meaning →
      meaning.entity = .variable id → Settles (next (.variable id span)) P Q)
    (hfunction : ∀ meaning head body span, env.find? name.text = some meaning →
      meaning.entity = .function head body →
      Settles (next (.function head.id span head.parameters.length)) P Q) :
    Settles (lookUp scopes name >>= next) P Q := by
  cases hfind : env.find? name.text with
  | none =>
      obtain ⟨e, he⟩ := lookUp_of_none henv hfind
      rw [he]
      exact .of_iff (.error e) (iff_of_false not_false (hnone hfind))
  | some meaning =>
      obtain ⟨binding, hbinding, htarget⟩ := lookUp_of_find? henv hfind
      rw [hbinding]
      rcases binding with ⟨id, span, count⟩ | ⟨id, span⟩
      · obtain ⟨head, body, hentity, rfl, rfl⟩ := Entity.eq_of_target_function htarget
        exact hfunction meaning head body span hfind hentity
      · exact hvariable meaning id span hfind (Entity.eq_of_target_variable htarget)

mutual

theorem Expression.resolve_settles (e : Expression) {scopes : Scopes} {env : Env}
    (henv : scopes.Match env) : Settles (e.resolve scopes)
      (∀ part ∈ e.parts, part.Scoped env) (fun links => links.Describes (e.occurrences env)) := by
  cases e with
  | literal node value =>
      rw [Expression.parts, List.forall_mem_singleton]
      exact .of_iff (.ok (.none (fun _ => id) rfl)) (iff_of_true trivial trivial)
  | name node name =>
      rw [Expression.resolve, Expression.parts, List.forall_mem_singleton]
      refine lookUp_settles henv ?_ ?_ ?_
      · rintro hfind ⟨meaning, id, hmeaning, -⟩
        cases hfind.symm.trans hmeaning
      · intro meaning id span hfind hentity
        refine .of_iff (.ok (.single (fun other target => ?_) fun other => ?_))
          (iff_of_true trivial ⟨meaning, id, hfind, hentity⟩)
        · rw [Expression.means_name_iff hfind hentity]
          simp [Expression.node, eq_comm]
        · simp [Expression.node, Expression.isPlace, eq_comm]
      · intro meaning head body span hfind hentity
        refine .of_iff (.error _) (iff_of_false not_false ?_)
        rintro ⟨meaning', id', hmeaning, hentity'⟩
        cases hfind.symm.trans hmeaning
        cases hentity.symm.trans hentity'
  | call node callee arguments =>
      rw [Expression.resolve, Expression.parts, List.forall_mem_cons]
      refine lookUp_settles henv ?_ ?_ ?_
      · rintro hfind ⟨⟨meaning, head, body, hmeaning, -⟩, -⟩
        cases hfind.symm.trans hmeaning
      · intro meaning id span hfind hentity
        refine .of_iff (.error _) (iff_of_false not_false ?_)
        rintro ⟨⟨meaning', head, body, hmeaning, hentity', -⟩, -⟩
        cases hfind.symm.trans hmeaning
        cases hentity.symm.trans hentity'
      · intro meaning head body span hfind hentity
        have hcall : Links.Describes ⟨[(node.id, head.id)], []⟩
            [(env, .call node callee arguments)] := by
          refine .single (fun other target => ?_) fun other => ?_
          · rw [Expression.means_call_iff hfind hentity]
            simp [Expression.node, eq_comm]
          · simp [Expression.isPlace]
        show Settles (if arguments.length ≠ head.parameters.length then _ else _) _ _
        refine .of_iff (.guard (.map (resolveExpressions_settles arguments henv) fun links hlinks =>
          ?_)) (and_congr_left' ?_)
        · exact hcall.append hlinks
        constructor
        · exact fun hcount => ⟨meaning, head, body, hfind, hentity, (not_not.mp hcount).symm⟩
        · rintro ⟨meaning', head', body', hmeaning, hentity', hcount⟩
          cases hfind.symm.trans hmeaning
          cases hentity.symm.trans hentity'
          exact not_not_intro hcount.symm
  | unary node operator operand =>
      rw [Expression.resolve, Expression.parts, List.forall_mem_cons, and_comm]
      refine .bind (operand.resolve_settles henv) fun links hlinks => ?_
      have hnone : operator.kind ≠ .dereference →
          links.Describes ((Expression.unary node operator operand).occurrences env) :=
        fun hkind => by
          have hnone : Links.Describes {} [(env, .unary node operator operand)] :=
            .none (fun _ => id) (decide_eq_false hkind)
          exact hnone.append hlinks
      have hothers : ∀ kind, operator.kind = kind → kind ≠ .addressOf → kind ≠ .dereference →
          Settles (.ok links) ((Expression.unary node operator operand).Scoped env)
            (fun links => links.Describes ((Expression.unary node operator operand).occurrences env)) := by
        rintro kind rfl haddress hdereference
        exact .of_iff (.ok (hnone hdereference)) (iff_of_true trivial fun h => absurd h haddress)
      cases hkind : operator.kind with
      | addressOf =>
          exact .of_iff (.check fun _ => hnone (by rw [hkind]; decide))
            ⟨fun hplace _ => hplace, fun h => h hkind⟩
      | dereference =>
          refine .of_iff (.ok ?_) (iff_of_true trivial fun h => absurd (hkind.symm.trans h) (by decide))
          have hself : Links.Describes ⟨[], [node.id]⟩ [(env, .unary node operator operand)] := by
            refine .single (fun other target => ?_) fun other => ?_
            · simp [Expression.Means]
            · simp [Expression.node, Expression.isPlace, hkind, eq_comm]
          exact (hlinks.append hself).congr fun use =>
            List.perm_append_comm.mem_iff
      | not => exact hothers _ hkind (by decide) (by decide)
      | identity => exact hothers _ hkind (by decide) (by decide)
      | negate => exact hothers _ hkind (by decide) (by decide)
  | binary node operator left right =>
      rw [Expression.resolve, Expression.parts, List.forall_mem_cons, List.forall_mem_append]
      refine .of_iff (.bind (left.resolve_settles henv) fun leftLinks hleft =>
        .map (right.resolve_settles henv) fun rightLinks hright => ?_) (and_iff_right trivial).symm
      have hnone : Links.Describes {} [(env, .binary node operator left right)] :=
        .none (fun _ => id) rfl
      rw [Expression.occurrences, Expression.parts, List.map_cons, List.map_append]
      exact hnone.append (hleft.append hright)

theorem resolveExpressions_settles (es : List Expression) {scopes : Scopes} {env : Env}
    (henv : scopes.Match env) : Settles (resolveExpressions scopes es)
      (∀ part ∈ expressionParts es, part.Scoped env)
      (fun links => links.Describes ((expressionParts es).map fun part => (env, part))) := by
  cases es with
  | nil => exact .of_iff (.ok .empty) (iff_of_true trivial nofun)
  | cons e es =>
      rw [resolveExpressions, expressionParts, List.map_append]
      exact .of_iff (.bind (e.resolve_settles henv) fun first hfirst =>
        .map (resolveExpressions_settles es henv) fun others hothers => hfirst.append hothers)
        List.forall_mem_append.symm

end

/-! ## Statements and definitions -/

theorem keepsScopes_function {uses : List (Env × Expression)} {f : NestedFunction}
    {functions : List NestedFunction} {blocks : List (List Definition)} {targets : List Expression} :
    KeepsScopes uses (f :: functions) blocks targets ↔
      f.Scoped ∧ KeepsScopes uses functions blocks targets := by
  constructor
  · rintro ⟨huses, hfunctions, hblocks, htargets⟩
    rw [List.forall_mem_cons] at hfunctions
    exact ⟨hfunctions.1, huses, hfunctions.2, hblocks, htargets⟩
  · rintro ⟨hf, h⟩
    exact ⟨h.uses, List.forall_mem_cons.mpr ⟨hf, h.functions⟩, h.blocks, h.targets⟩

theorem keepsScopes_block {uses : List (Env × Expression)} {ds : List Definition}
    {functions : List NestedFunction} {blocks : List (List Definition)} {targets : List Expression} :
    KeepsScopes uses functions (ds :: blocks) targets ↔
      Distinct ds ∧ KeepsScopes uses functions blocks targets := by
  constructor
  · rintro ⟨huses, hfunctions, hblocks, htargets⟩
    rw [List.forall_mem_cons] at hblocks
    exact ⟨hblocks.1, huses, hfunctions, hblocks.2, htargets⟩
  · rintro ⟨hds, h⟩
    exact ⟨h.uses, h.functions, List.forall_mem_cons.mpr ⟨hds, h.blocks⟩, h.targets⟩

theorem keepsScopes_expression {env : Env} {e : Expression} {uses : List (Env × Expression)}
    {functions : List NestedFunction} {blocks : List (List Definition)} {targets : List Expression} :
    KeepsScopes (e.occurrences env ++ uses) functions blocks targets ↔
      (∀ part ∈ e.parts, part.Scoped env) ∧ KeepsScopes uses functions blocks targets := by
  constructor
  · rintro ⟨huses, hfunctions, hblocks, htargets⟩
    rw [List.forall_mem_append, Expression.occurrences, List.forall_mem_map] at huses
    exact ⟨huses.1, huses.2, hfunctions, hblocks, htargets⟩
  · rintro ⟨he, h⟩
    exact ⟨List.forall_mem_append.mpr ⟨List.forall_mem_map.mpr he, h.uses⟩, h.functions, h.blocks,
      h.targets⟩

theorem keepsScopes_target {target : Expression} :
    KeepsScopes [] [] [] [target] ↔ target.isPlace = true :=
  ⟨fun h => h.targets target List.mem_cons_self,
    fun h => ⟨nofun, nofun, nofun, fun _ hmem => List.mem_singleton.mp hmem ▸ h⟩⟩

/-- What resolving a piece of a function finds: links, and how much storage is used with the variables
of the piece. -/
structure Finds (uses : List (Env × Expression)) (used : Nat) (locals : List Variable)
    (found : Links × Nat) : Prop where
  links : found.1.Describes uses
  used_eq : found.2 = used + storageOf locals
  used_le : found.2 ≤ maxStorage

namespace Finds

variable {uses uses' : List (Env × Expression)} {used used' : Nat} {locals locals' : List Variable}
  {links links' : Links} {found : Links × Nat}

/-- One piece behind the other. -/
theorem append (h : Finds uses used locals (links, used')) (h' : Finds uses' used' locals' found) :
    Finds (uses ++ uses') used (locals ++ locals') (links ++ found.1, found.2) where
  links := h.links.append h'.links
  used_eq := by
    rw [storageOf_append, ← Nat.add_assoc, ← show used' = _ from h.used_eq]
    exact h'.used_eq
  used_le := h'.used_le

/-- An expression in front. -/
theorem cons (hlinks : links.Describes uses) (h : Finds uses' used locals found) :
    Finds (uses ++ uses') used locals (links ++ found.1, found.2) :=
  ⟨hlinks.append h.links, h.used_eq, h.used_le⟩

end Finds

mutual

theorem Definition.resolve_settles (d : Definition) {scopes : Scopes} {env : Env} (depth : Nat)
    (henv : scopes.Match env) : Settles (d.resolve scopes)
      (KeepsScopes (d.occurrences env) (d.functions depth) d.lets d.targets)
      (fun links => links.Describes (d.occurrences env)) := by
  cases d with
  | var head => exact .of_iff (.ok .empty) (iff_of_true trivial keepsScopes_nil)
  | func head body =>
      rw [Definition.resolve, Definition.occurrences, Definition.functions, Definition.lets,
        Definition.targets, keepsScopes_function]
      refine .of_iff (.bind (parameterScope_settles head) fun scope hscope =>
        .map (resolveStatements_settles body (depth + 1) (hscope.match_cons henv) (Nat.zero_le _))
          fun found hfound => hfound.links) ?_
      rw [Nat.zero_add]
      constructor
      · rintro ⟨hparameters, hbody, hlocals⟩
        exact ⟨⟨hparameters, hlocals⟩, hbody⟩
      · rintro ⟨⟨hparameters, hlocals⟩, hbody⟩
        exact ⟨hparameters, hbody, hlocals⟩

theorem resolveDefinitions_settles (ds : List Definition) {scopes : Scopes} {env : Env} (depth : Nat)
    (henv : scopes.Match env) : Settles (resolveDefinitions scopes ds)
      (KeepsScopes (definitionsOccurrences env ds) (definitionsFunctions depth ds)
        (definitionsLets ds) (definitionsTargets ds))
      (fun links => links.Describes (definitionsOccurrences env ds)) := by
  cases ds with
  | nil => exact .of_iff (.ok .empty) (iff_of_true trivial keepsScopes_nil)
  | cons d ds =>
      rw [resolveDefinitions, definitionsOccurrences, definitionsFunctions, definitionsLets,
        definitionsTargets, keepsScopes_append]
      exact .bind (d.resolve_settles depth henv) fun first hfirst =>
        .map (resolveDefinitions_settles ds depth henv) fun others hothers => hfirst.append hothers

theorem Statement.resolve_settles (s : Statement) {scopes : Scopes} {env : Env} (depth : Nat)
    (henv : scopes.Match env) {used : Nat} (hused : used ≤ maxStorage) :
    Settles (s.resolve scopes used)
      (KeepsScopes (s.occurrences env) (s.functions depth) s.lets s.targets ∧
        used + storageOf s.locals ≤ maxStorage)
      (Finds (s.occurrences env) used s.locals) := by
  cases s with
  | eval node value =>
      refine .of_iff (.map (value.resolve_settles henv) fun links hlinks => ⟨hlinks, rfl, hused⟩) ?_
      rw [Statement.occurrences, ← List.append_nil (value.occurrences env), keepsScopes_expression]
      exact ⟨fun h => ⟨⟨h, keepsScopes_nil⟩, hused⟩, fun h => h.1.1⟩
  | assign node target source =>
      rw [Statement.resolve]
      refine .of_iff (.bind (source.resolve_settles henv) fun sourceLinks hsource =>
        .bind (target.resolve_settles henv) fun targetLinks htarget => .check fun _ => ?_) ?_
      · exact ⟨(hsource.append htarget).congr fun use => List.perm_append_comm.mem_iff, rfl, hused⟩
      · rw [Statement.occurrences, Statement.functions, Statement.lets, Statement.targets,
          keepsScopes_expression, ← List.append_nil (source.occurrences env), keepsScopes_expression,
          keepsScopes_target]
        exact ⟨fun h => ⟨⟨h.2.1, h.1, h.2.2⟩, hused⟩, fun h => ⟨h.1.2.1, h.1.1, h.1.2.2⟩⟩
  | branch node condition positive negative =>
      rw [Statement.resolve, Statement.locals, storageOf_append, ← Nat.add_assoc]
      refine .of_iff (.bind (condition.resolve_settles henv) fun conditionLinks hcondition =>
        .bind (resolveStatements_settles positive depth henv hused) fun ⟨links, used'⟩ hpositive => by
          obtain rfl : used' = _ := hpositive.used_eq
          exact .map (resolveStatements_settles negative depth henv hpositive.used_le)
            fun found hnegative => (hpositive.cons hcondition).append hnegative) ?_
      rw [Statement.occurrences, Statement.functions, Statement.lets, Statement.targets,
        List.append_assoc, keepsScopes_expression, keepsScopes_append]
      constructor
      · rintro ⟨hcondition, ⟨hpositive, -⟩, hnegative, hle⟩
        exact ⟨⟨hcondition, hpositive, hnegative⟩, hle⟩
      · rintro ⟨⟨hcondition, hpositive, hnegative⟩, hle⟩
        exact ⟨hcondition, ⟨hpositive, (Nat.le_add_right _ _).trans hle⟩, hnegative, hle⟩
  | loop node condition body =>
      rw [Statement.resolve]
      refine .of_iff (.bind (condition.resolve_settles henv) fun conditionLinks hcondition =>
        .map (resolveStatements_settles body depth henv hused) fun found hbody =>
          hbody.cons hcondition) ?_
      rw [Statement.occurrences, keepsScopes_expression, and_assoc]
      rfl
  | block node ds body =>
      rw [Statement.resolve, Statement.locals, storageOf_append, ← Nat.add_assoc]
      refine .of_iff (.bind (scope_settles ds hused) fun ⟨scope, used'⟩ hscope => by
        obtain ⟨hadds, rfl, hle⟩ := hscope
        exact .bind (resolveDefinitions_settles ds depth (hadds.match_cons henv)) fun links hlinks =>
          .map (resolveStatements_settles body depth (hadds.match_cons henv) hle) fun found hbody =>
            Finds.append ⟨hlinks, rfl, hle⟩ hbody) ?_
      rw [Statement.occurrences, Statement.functions, Statement.lets, Statement.targets,
        keepsScopes_block, keepsScopes_append]
      constructor
      · rintro ⟨⟨hdistinct, -⟩, hds, hbody, hle⟩
        exact ⟨⟨hdistinct, hds, hbody⟩, hle⟩
      · rintro ⟨⟨hdistinct, hds, hbody⟩, hle⟩
        exact ⟨⟨hdistinct, (Nat.le_add_right _ _).trans hle⟩, hds, hbody, hle⟩

theorem resolveStatements_settles (ss : List Statement) {scopes : Scopes} {env : Env} (depth : Nat)
    (henv : scopes.Match env) {used : Nat} (hused : used ≤ maxStorage) :
    Settles (resolveStatements scopes used ss)
      (KeepsScopes (statementsOccurrences env ss) (statementsFunctions depth ss) (statementsLets ss)
        (statementsTargets ss) ∧ used + storageOf (statementsLocals ss) ≤ maxStorage)
      (Finds (statementsOccurrences env ss) used (statementsLocals ss)) := by
  cases ss with
  | nil => exact .of_iff (.ok ⟨.empty, rfl, hused⟩) (iff_of_true trivial ⟨keepsScopes_nil, hused⟩)
  | cons s ss =>
      rw [resolveStatements, statementsLocals, storageOf_append, ← Nat.add_assoc]
      refine .of_iff (.bind (s.resolve_settles depth henv hused) fun ⟨links, used'⟩ hfirst => by
        obtain rfl : used' = _ := hfirst.used_eq
        exact .map (resolveStatements_settles ss depth henv hfirst.used_le) fun found hothers =>
          hfirst.append hothers) ?_
      rw [statementsOccurrences, statementsFunctions, statementsLets, statementsTargets,
        keepsScopes_append]
      constructor
      · rintro ⟨⟨hs, -⟩, hss, hle⟩
        exact ⟨⟨hs, hss⟩, hle⟩
      · rintro ⟨⟨hs, hss⟩, hle⟩
        exact ⟨⟨hs, (Nat.le_add_right _ _).trans hle⟩, hss, hle⟩

end

/-! ## Programs -/

/-- The table of definitions and the set of places that links are put in. -/
theorem Resolution.ofLinks_definitions {links : Links} (hnodup : links.keys.Nodup)
    (id target : NodeId) :
    (ofLinks links).definitions[id]? = some target ↔ (id, target) ∈ links.definitions := by
  obtain ⟨hin, hout⟩ := getElem?_foldl_insert links.definitions hnodup ∅
  constructor
  · intro h
    by_cases hid : id ∈ links.keys
    · obtain ⟨⟨id, target'⟩, hmem, rfl⟩ := List.mem_map.mp hid
      cases (hin _ hmem).symm.trans h
      exact hmem
    · have hnone : (ofLinks links).definitions[id]? = (∅ : Std.TreeMap NodeId NodeId)[id]? := hout id hid
      rw [hnone] at h
      simp at h
  · exact hin (id, target)

theorem mem_foldl_insert (ids : List NodeId) (start : Std.TreeSet NodeId) (id : NodeId) :
    id ∈ ids.foldl (fun places id => places.insert id) start ↔ id ∈ start ∨ id ∈ ids := by
  induction ids generalizing start with
  | nil => simp
  | cons other ids ih =>
      rw [List.foldl_cons, ih, Std.TreeSet.mem_insert, Std.LawfulEqCmp.compare_eq_iff_eq,
        List.mem_cons]
      tauto

/-- What `main` means is looked up in the scope of the program. -/
theorem checkMain_settles {program : Program} {scope : Scope}
    (hadds : Scope.Adds [] scope (Region.definitions program).entities) :
    Settles (checkMain scope)
      (∃ head body, .func head body ∈ program ∧ head.name.text = "main" ∧ head.parameters = [])
      (fun _ => True) := by
  have hlookup : ∀ head body, .func head body ∈ program → head.name.text = "main" →
      (Region.definitions program).entities.lookup "main" = some (.function head body) := by
    intro head body hmem hname
    rw [← hname]
    exact lookup_of_mem hadds.nodup
      (List.mem_map_of_mem (f := fun d : Definition => (d.name.text, d.entity)) hmem)
  have hmain := hadds.matches_region "main"
  rw [checkMain]
  split
  · rename_i id span count hscope
    rw [hscope] at hmain
    obtain ⟨entity, hentity, htarget⟩ := Option.map_eq_some_iff.mp hmain.symm
    obtain ⟨head, body, rfl, -, hcount⟩ := Entity.eq_of_target_function htarget.symm
    obtain ⟨hmem, hname⟩ := mem_entities_function (mem_of_lookup hentity)
    have hiff : (∃ head body, .func head body ∈ program ∧ head.name.text = "main" ∧
        head.parameters = []) ↔ count = 0 := by
      constructor
      · rintro ⟨head', body', hmem', hname', hparameters⟩
        cases hentity.symm.trans (hlookup _ _ hmem' hname')
        rw [← hcount, hparameters]
        rfl
      · rintro rfl
        exact ⟨head, body, hmem, hname.symm, List.eq_nil_of_length_eq_zero hcount⟩
    rw [hiff]
    exact .check fun _ => trivial
  · rename_i id span hscope
    refine .of_iff (.error _) (iff_of_false not_false ?_)
    rintro ⟨head, body, hmem, hname, -⟩
    rw [hscope, hlookup head body hmem hname] at hmain
    cases hmain
  · rename_i hscope
    refine .of_iff (.error _) (iff_of_false not_false ?_)
    rintro ⟨head, body, hmem, hname, -⟩
    rw [hscope, hlookup head body hmem hname] at hmain
    cases hmain

structure Resolution.Describes (resolution : Resolution) (uses : List (Env × Expression)) : Prop where
  definitions : ∀ id target, resolution.definitions[id]? = some target ↔
    ∃ use ∈ uses, use.2.node.id = id ∧ use.2.Means use.1 target
  places : ∀ id, id ∈ resolution.places ↔ ∃ use ∈ uses, use.2.node.id = id ∧ use.2.isPlace = true

theorem Links.Describes.resolution {links : Links} {uses : List (Env × Expression)}
    (h : links.Describes uses) (hnodup : links.keys.Nodup) :
    (Resolution.ofLinks links).Describes uses where
  definitions id target :=
    (Resolution.ofLinks_definitions hnodup id target).trans (h.definitions id target)
  places id := by
    refine (mem_foldl_insert links.places ∅ id).trans ?_
    rw [h.places]
    simp

/-- A program resolves if it keeps the rules of scopes. -/
theorem Program.resolve_settles (program : Program) :
    Settles program.resolve program.Scoped (fun resolution => (definitionIds program).Nodup →
      resolution.Describes (definitionsOccurrences [.definitions program] program)) := by
  have hlinks : ∀ scope, Scope.Adds [] scope (Region.definitions program).entities →
      Settles (resolveDefinitions [scope] program)
        (KeepsScopes (definitionsOccurrences [.definitions program] program)
          (definitionsFunctions 0 program) (definitionsLets program) (definitionsTargets program))
        (fun links => links.Describes (definitionsOccurrences [.definitions program] program) ∧
          Covered links.keys (definitionIds program)) := by
    intro scope hadds
    have h := resolveDefinitions_settles program 0 (hadds.match_cons .nil)
    exact ⟨h.iff, fun links hlinks =>
      ⟨h.result links hlinks, resolveDefinitions_covered program hlinks⟩⟩
  refine .of_iff (.bind (scope_settles program (Nat.zero_le _)) fun found hscope =>
    .bind (checkMain_settles hscope.1) fun _ _ => .map (hlinks found.1 hscope.1)
      fun links hlinks hnodup => hlinks.1.resolution (hlinks.2.nodup hnodup)) ?_
  rw [Nat.zero_add]
  exact ⟨fun ⟨⟨hdistinct, hglobals⟩, hmain, hkeeps⟩ => ⟨hkeeps, hdistinct, hmain, hglobals⟩,
    fun h => ⟨⟨h.distinct, h.globals⟩, h.main, h.toKeepsScopes⟩⟩

/-- A program that was read resolves just if it keeps the rules of scopes. Then the table has entries
for its names and calls and no others, each the definition that is visible there, and the places are
its names and dereferences. -/
theorem Program.resolves_lexically {text : List Char} {program : Program}
    (h : Program.parse text = .ok program) :
    ((∃ resolution, program.resolve = .ok resolution) ↔ program.Scoped) ∧
      ∀ resolution, program.resolve = .ok resolution →
        resolution.Describes (definitionsOccurrences [.definitions program] program) := by
  obtain ⟨r, -, hnumbered⟩ := Program.numbered h
  have hnodup : (definitionIds program).Nodup := hnumbered.ids_eq ▸ List.nodup_range
  exact ⟨program.resolve_settles.iff, fun resolution hresolution =>
    program.resolve_settles.result resolution hresolution hnodup⟩

def hidingSample : List Char :=
  "fun main() = f(1) fun f(x) = let var x = 2 fun g() = x in g() end".toList

theorem Program.resolves_lexically_sample : ∃ program resolution,
    Program.parse hidingSample = .ok program ∧ program.resolve = .ok resolution ∧ program.Scoped ∧
      resolution.Describes (definitionsOccurrences [.definitions program] program) := by
  have hchecks : ((Program.parse hidingSample).toOption.any
      fun program : Program => program.resolve.toOption.isSome) = true := by
    decide +kernel
  obtain ⟨program, hprogram, hresolves⟩ := (Option.any_eq_true _ _).mp hchecks
  obtain ⟨resolution, hresolution⟩ := Option.isSome_iff_exists.mp hresolves
  have hparse := toOption_eq_some hprogram
  have hresolve := toOption_eq_some hresolution
  obtain ⟨hiff, hdescribes⟩ := Program.resolves_lexically hparse
  exact ⟨program, resolution, hparse, hresolve, hiff.mp ⟨resolution, hresolve⟩,
    hdescribes resolution hresolve⟩

end NestedFun
