import NestedFun.Proofs.Executable
import NestedFun.Proofs.Parts

namespace NestedFun

/-!
# What surrounds the parts of a program

Every statement and every function of a translated program stands in an environment that belongs to
the program, in which its names are bound, its variables placed and its code generated.
-/

/-! ## Owners -/

theorem mem_statementsOwners {ss : List Statement} {outer : List NodeId} {s : Statement}
    (hs : s ∈ ss) {entry : NodeId × List NodeId} (hentry : entry ∈ s.owners outer) :
    entry ∈ statementsOwners outer ss := by
  induction ss with
  | nil => cases hs
  | cons t ss ih =>
      rcases List.mem_cons.mp hs with rfl | hs
      · exact List.mem_append_left _ hentry
      · exact List.mem_append_right _ (ih hs)

/-- What is declared has one place in the nest of functions. -/
theorem Program.IsRead.owners_unique {program : Program} (h : program.IsRead) {id : NodeId}
    {outer outer' : List NodeId} (ho : (id, outer) ∈ definitionsOwners [] program)
    (ho' : (id, outer') ∈ definitionsOwners [] program) : outer = outer' := by
  have hnodup := (covered_definitionsOwners program []).nodup h.nodup_ids
  have heq := List.inj_on_of_nodup_map hnodup ho ho' rfl
  exact (Prod.mk.inj heq).2

/-! ## Members of lists -/

theorem mem_statementsInside {ss : List Statement} {s : Statement} (hs : s ∈ ss) {e : Definition}
    (he : e ∈ s.inside) : e ∈ statementsInside ss := by
  induction ss with
  | nil => cases hs
  | cons t ss ih =>
      rcases List.mem_cons.mp hs with rfl | hs
      · exact List.mem_append_left _ he
      · exact List.mem_append_right _ (ih hs)

theorem BoundDefinitions.mem {table : Std.TreeMap NodeId NodeId} {env : Env}
    {ds : List Definition} (h : BoundDefinitions table env ds) {d : Definition} (hd : d ∈ ds) :
    d.Bound table env := by
  induction ds with
  | nil => cases hd
  | cons e ds ih =>
      rcases List.mem_cons.mp hd with rfl | hd
      · exact h.1
      · exact ih h.2 hd

theorem BoundStatements.mem {table : Std.TreeMap NodeId NodeId} {env : Env}
    {ss : List Statement} (h : BoundStatements table env ss) {s : Statement} (hs : s ∈ ss) :
    s.Bound table env := by
  induction ss with
  | nil => cases hs
  | cons t ss ih =>
      rcases List.mem_cons.mp hs with rfl | hs
      · exact h.1
      · exact ih h.2 hs

theorem CodedStatements.mem {T : Target} {env : Env} {keep : Bool} {ss : List Statement}
    {code : Code} (h : CodedStatements T env keep ss code) {s : Statement} (hs : s ∈ ss) :
    ∃ keep code, s.Coded T env keep code := by
  induction ss generalizing code with
  | nil => cases hs
  | cons t ss ih =>
      rcases codedStatements_cons h with ⟨rfl, hlast⟩ | ⟨first, others, hfirst, hothers, -⟩
      · cases List.mem_singleton.mp hs
        exact ⟨_, _, hlast⟩
      · rcases List.mem_cons.mp hs with rfl | hs
        · exact ⟨_, _, hfirst⟩
        · exact ih hothers hs

theorem PlacedStatements.mem {layout : Layout} {depth : Nat} {before after : Int}
    {ss : List Statement} (h : PlacedStatements layout depth before after ss) {s : Statement}
    (hs : s ∈ ss) : ∃ b a, s.Placed layout depth b a ∧ before ≤ b ∧ a ≤ after := by
  induction ss generalizing before with
  | nil => cases hs
  | cons t ss ih =>
      obtain ⟨between, hfirst, hrest⟩ := h
      have hle := hfirst.before_le
      have hle' := hrest.before_le
      rcases List.mem_cons.mp hs with rfl | hs
      · exact ⟨before, between, hfirst, le_rfl, hle'⟩
      · obtain ⟨b, a, hplaced, hb, ha⟩ := ih hrest hs
        exact ⟨b, a, hplaced, by omega, ha⟩

/-! ## Where statements and definitions stand -/

section

variable (T : Target) (program : Program)

/-- An environment belongs to the code of a function of the program. -/
def Env.Around (env : Env) (head : FunctionHead) : Prop :=
  ∃ outer, env.path = head.id :: outer ∧ (head.id, outer) ∈ definitionsOwners [] program

structure Statement.Stands (head : FunctionHead) (env : Env) (s : Statement) : Prop where
  inside : env.Inside T program
  around : env.Around program head
  bound : s.Bound T.context.definitions env
  coded : ∃ keep code, s.Coded T env keep code
  placed : ∃ used limit before after, env.Placed T.layout used limit ∧ used ≤ before ∧
    s.Placed T.layout env.depth before after ∧ after ≤ limit
  subset : s.inside ⊆ definitionsInside program
  owners : s.owners env.path ⊆ definitionsOwners [] program

structure Definition.Stands (env : Env) (d : Definition) : Prop where
  inside : env.Inside T program
  bound : d.Bound T.context.definitions env
  coded : ∃ code, d.Coded T env code
  placed : ∃ used limit before after, env.Placed T.layout used limit ∧
    d.Placed T.layout env.depth before after
  subset : d.inside ⊆ definitionsInside program
  owners : d.owners env.path ⊆ definitionsOwners [] program

/-- What is true of every function with a body: its code is that of its body with a prologue and an
epilogue. -/
structure FunctionStands (env : Env) (head : FunctionHead) (body : List Statement) : Prop where
  statements : ∀ s ∈ body, s.Stands T program head (.parameters head :: env)
  code : ∃ frame code, T.layout.frames[head.id]? = some frame ∧ frame.Fits env.depth head ∧
    0 ≤ frame.localsSize - 8 ∧ CodedStatements T (.parameters head :: env) true body code ∧
    T.fragments.functions[head.id]? = some (functionCode head frame code)

end

variable {T : Target} {program : Program}

/-- Statements in a row stand where each of them stands. -/
theorem statements_stand {head : FunctionHead} {env : Env} {ss : List Statement}
    {used limit before after : Int} (hinside : env.Inside T program)
    (haround : env.Around program head) (hbound : BoundStatements T.context.definitions env ss)
    (hcoded : ∃ keep code, CodedStatements T env keep ss code)
    (henv : env.Placed T.layout used limit) (hused : used ≤ before)
    (hplaced : PlacedStatements T.layout env.depth before after ss) (hlimit : after ≤ limit)
    (hsubset : statementsInside ss ⊆ definitionsInside program)
    (howners : statementsOwners env.path ss ⊆ definitionsOwners [] program) :
    ∀ s ∈ ss, s.Stands T program head env := by
  intro s hs
  obtain ⟨keep, code, hcoded⟩ := hcoded
  obtain ⟨b, a, hs', hb, ha⟩ := hplaced.mem hs
  exact ⟨hinside, haround, hbound.mem hs, hcoded.mem hs,
    ⟨used, limit, b, a, henv, by omega, hs', by omega⟩,
    fun _ he => hsubset (mem_statementsInside hs he),
    fun _ he => howners (mem_statementsOwners hs he)⟩

theorem definitions_stand {env : Env} {ds : List Definition} {code : Code}
    {used limit before after : Int} (hinside : env.Inside T program)
    (hbound : BoundDefinitions T.context.definitions env ds)
    (hcoded : CodedDefinitions T env ds code) (henv : env.Placed T.layout used limit)
    (hplaced : PlacedDefinitions T.layout env.depth before after ds)
    (hsubset : definitionsInside ds ⊆ definitionsInside program)
    (howners : definitionsOwners env.path ds ⊆ definitionsOwners [] program) :
    ∀ d ∈ ds, d.Stands T program env := by
  intro d hd
  obtain ⟨b, a, hd', hb, ha⟩ := hplaced.mem hd
  exact ⟨hinside, hbound.mem hd, hcoded.mem hd, ⟨used, limit, b, a, henv, hd'⟩,
    fun _ he => hsubset (definitionsInside_subset (mem_definitionsInside hd) he),
    fun _ he => howners (mem_definitionsOwners hd he)⟩

namespace Statement.Stands

variable {head : FunctionHead} {env : Env} {node : Node}

theorem branch {condition : Expression} {positive negative : List Statement}
    (h : Statement.Stands T program head env (.branch node condition positive negative)) :
    (∀ s ∈ positive, s.Stands T program head env) ∧
      ∀ s ∈ negative, s.Stands T program head env := by
  obtain ⟨_, hpositive, hnegative⟩ := h.bound
  obtain ⟨keep, code, n, p, q, c, hp, hq, -⟩ := h.coded
  obtain ⟨used, limit, before, after, henv, hused, ⟨between, hplaced, hplaced'⟩, hlimit⟩ := h.placed
  have hle := hplaced.before_le
  have hle' := hplaced'.before_le
  exact ⟨statements_stand h.inside h.around hpositive ⟨_, _, hp⟩ henv hused hplaced (by omega)
      (fun _ he => h.subset (List.mem_append_left _ he))
      (fun _ he => h.owners (List.mem_append_left _ he)),
    statements_stand h.inside h.around hnegative ⟨_, _, hq⟩ henv (by omega) hplaced' hlimit
      (fun _ he => h.subset (List.mem_append_right _ he))
      (fun _ he => h.owners (List.mem_append_right _ he))⟩

theorem loop {condition : Expression} {body : List Statement}
    (h : Statement.Stands T program head env (.loop node condition body)) :
    ∀ s ∈ body, s.Stands T program head env := by
  obtain ⟨_, hbody⟩ := h.bound
  obtain ⟨keep, code, n, c, p, hc, hp, -⟩ := h.coded
  obtain ⟨used, limit, before, after, henv, hused, hplaced, hlimit⟩ := h.placed
  exact statements_stand h.inside h.around hbody ⟨_, _, hp⟩ henv hused hplaced hlimit
    h.subset h.owners

theorem block {ds : List Definition} {body : List Statement}
    (h : Statement.Stands T program head env (.block node ds body)) :
    (∀ d ∈ ds, d.Stands T program (.definitions ds :: env)) ∧
      ∀ s ∈ body, s.Stands T program head (.definitions ds :: env) := by
  obtain ⟨_, hds, hbody⟩ := h.bound
  obtain ⟨keep, code, entry, c, hentry, hc, -⟩ := h.coded
  obtain ⟨used, limit, before, after, henv, hused, ⟨between, hplaced, hplaced'⟩, hlimit⟩ := h.placed
  obtain ⟨outer, hpath, howner⟩ := h.around
  have hle := hplaced.before_le
  have hle' := hplaced'.before_le
  have hdepth : 0 < env.depth := by rw [← Env.length_path, hpath]; exact Nat.succ_pos _
  have henv' : Env.Placed T.layout (.definitions ds :: env) between limit :=
    .definitions henv hused hplaced (by omega)
  have hsubset : definitionsInside ds ⊆ definitionsInside program :=
    fun _ he => h.subset (List.mem_append_left _ he)
  have howners : definitionsOwners env.path ds ⊆ definitionsOwners [] program :=
    fun _ he => h.owners (List.mem_append_left _ he)
  have hinside : Env.Inside T program (.definitions ds :: env) :=
    h.inside.definitions hentry
      (fun d hd => hsubset (mem_definitionsInside hd)) hdepth howners henv'
  have hdepth' : Env.depth (.definitions ds :: env) = env.depth := env.depth_definitions ds
  exact ⟨definitions_stand hinside hds hentry henv' (hdepth' ▸ hplaced) hsubset howners,
    statements_stand hinside ⟨outer, hpath, howner⟩ hbody ⟨_, _, hc⟩ henv' le_rfl
      (hdepth' ▸ hplaced') hlimit (fun _ he => h.subset (List.mem_append_right _ he))
      (fun _ he => h.owners (List.mem_append_right _ he))⟩

end Statement.Stands

/-- The body of a function stands behind its parameters. -/
theorem Definition.Stands.function {env : Env} {head : FunctionHead} {body : List Statement}
    (h : Definition.Stands T program env (.func head body)) (hbody : body ≠ []) :
    FunctionStands T program env head body := by
  obtain ⟨_, hbound⟩ := h.bound
  obtain ⟨code, -, hcode⟩ := h.coded
  obtain ⟨frame, c, hframe, hc, hfragment⟩ := hcode hbody
  obtain ⟨used, limit, before, after, henv, hplaced⟩ := h.placed
  obtain ⟨frame', hframe', hfits, henv', hstatements⟩ := henv.enter hplaced
  obtain rfl : frame = frame' := Option.some.inj (hframe.symm.trans hframe')
  have hinside : Env.Inside T program (.parameters head :: env) :=
    h.inside.parameters (fun p hp => h.owners (List.mem_cons_of_mem _
      (List.mem_append_left _ (List.mem_map.mpr ⟨p, hp, rfl⟩)))) henv'
  refine ⟨statements_stand hinside ⟨env.path, rfl, h.owners List.mem_cons_self⟩ hbound ⟨_, _, hc⟩
    henv' le_rfl (env.depth_parameters head ▸ hstatements) le_rfl
    (fun _ he => h.subset (List.mem_cons_of_mem _ he))
    (fun _ he => h.owners (List.mem_cons_of_mem _ (List.mem_append_right _ he))),
    frame, c, hframe, hfits, hstatements.before_le, hc, hfragment⟩

/-- Everything at the top level stands in the whole program. -/
theorem Translated.definitions_stand (h : Translated program T) :
    ∀ d ∈ program, d.Stands T program [.definitions program] := by
  have hplaced : PlacedDefinitions T.layout (Env.depth [.definitions program]) 0 0 program :=
    h.placed
  exact NestedFun.definitions_stand h.inside_program h.bound h.describes.coded
    (.definitions .nil le_rfl h.placed le_rfl) hplaced (List.Subset.refl _) (List.Subset.refl _)

/-! ## Everything inside stands -/

mutual

theorem Definition.Stands.functions {d : Definition} {env : Env} (h : d.Stands T program env)
    {head : FunctionHead} {body : List Statement} (hmem : .func head body ∈ d.inside)
    (hbody : body ≠ []) : ∃ env', FunctionStands T program env' head body := by
  cases d with
  | var head => cases List.mem_singleton.mp hmem
  | func head' body' =>
      rcases List.mem_cons.mp hmem with heq | hmem
      · cases heq
        exact ⟨env, h.function hbody⟩
      · have hbody' : body' ≠ [] := by
          rintro rfl
          cases hmem
        exact functions_of_statements (h.function hbody').statements hmem hbody

theorem functions_of_definitions {ds : List Definition} {env : Env}
    (h : ∀ d ∈ ds, d.Stands T program env) {head : FunctionHead} {body : List Statement}
    (hmem : .func head body ∈ definitionsInside ds) (hbody : body ≠ []) :
    ∃ env', FunctionStands T program env' head body := by
  cases ds with
  | nil => cases hmem
  | cons d ds =>
      rcases List.mem_append.mp hmem with hmem | hmem
      · exact (h d List.mem_cons_self).functions hmem hbody
      · exact functions_of_definitions (fun e he => h e (List.mem_cons_of_mem _ he)) hmem hbody

theorem Statement.Stands.functions {s : Statement} {outer : FunctionHead} {env : Env}
    (h : s.Stands T program outer env) {head : FunctionHead} {body : List Statement}
    (hmem : .func head body ∈ s.inside) (hbody : body ≠ []) :
    ∃ env', FunctionStands T program env' head body := by
  cases s with
  | eval node value => cases hmem
  | assign node target source => cases hmem
  | branch node condition positive negative =>
      rcases List.mem_append.mp hmem with hmem | hmem
      · exact functions_of_statements h.branch.1 hmem hbody
      · exact functions_of_statements h.branch.2 hmem hbody
  | loop node condition body' => exact functions_of_statements h.loop hmem hbody
  | block node ds body' =>
      rcases List.mem_append.mp hmem with hmem | hmem
      · exact functions_of_definitions h.block.1 hmem hbody
      · exact functions_of_statements h.block.2 hmem hbody

theorem functions_of_statements {ss : List Statement} {outer : FunctionHead} {env : Env}
    (h : ∀ s ∈ ss, s.Stands T program outer env) {head : FunctionHead} {body : List Statement}
    (hmem : .func head body ∈ statementsInside ss) (hbody : body ≠ []) :
    ∃ env', FunctionStands T program env' head body := by
  cases ss with
  | nil => cases hmem
  | cons s ss =>
      rcases List.mem_append.mp hmem with hmem | hmem
      · exact (h s List.mem_cons_self).functions hmem hbody
      · exact functions_of_statements (fun t ht => h t (List.mem_cons_of_mem _ ht)) hmem hbody

end

/-- Every function with a body stands somewhere in a translated program. -/
theorem Translated.function_stands (h : Translated program T) {head : FunctionHead}
    {body : List Statement} (hmem : .func head body ∈ definitionsInside program)
    (hbody : body ≠ []) : ∃ env, FunctionStands T program env head body :=
  functions_of_definitions h.definitions_stand hmem hbody

mutual

theorem Expression.bound_parts {e : Expression} {table : Std.TreeMap NodeId NodeId} {env : Env}
    (h : e.Bound table env) {part : Expression} (hpart : part ∈ e.parts) :
    part.Bound table env := by
  cases e with
  | literal node value =>
      cases List.mem_singleton.mp hpart
      trivial
  | name node name =>
      cases List.mem_singleton.mp hpart
      exact h
  | call node callee arguments =>
      rcases List.mem_cons.mp hpart with rfl | hpart
      · exact h
      · exact bound_expressionParts h.2 hpart
  | unary node operator operand =>
      rcases List.mem_cons.mp hpart with rfl | hpart
      · exact h
      · exact Expression.bound_parts h.2 hpart
  | binary node operator left right =>
      rcases List.mem_cons.mp hpart with rfl | hpart
      · exact h
      · rcases List.mem_append.mp hpart with hpart | hpart
        · exact Expression.bound_parts h.1 hpart
        · exact Expression.bound_parts h.2 hpart

theorem bound_expressionParts {es : List Expression} {table : Std.TreeMap NodeId NodeId}
    {env : Env} (h : BoundExpressions table env es) {part : Expression}
    (hpart : part ∈ expressionParts es) : part.Bound table env := by
  cases es with
  | nil => cases hpart
  | cons e es =>
      rcases List.mem_append.mp hpart with hpart | hpart
      · exact Expression.bound_parts h.1 hpart
      · exact bound_expressionParts h.2 hpart

end

structure Expression.Stands (T : Target) (program : Program) (head : FunctionHead) (env : Env)
    (e : Expression) : Prop where
  inside : env.Inside T program
  around : env.Around program head
  bound : e.Bound T.context.definitions env

theorem Statement.Stands.uses_of_bound {s : Statement} {head : FunctionHead} {env : Env}
    (h : s.Stands T program head env) {e : Expression} (he : e.Bound T.context.definitions env)
    {f : FunctionHead} {part : Expression} (hpart : (f, part) ∈ e.uses head) :
    part.Stands T program f env := by
  obtain ⟨part', hpart', heq⟩ := List.mem_map.mp hpart
  cases heq
  exact ⟨h.inside, h.around, Expression.bound_parts he hpart'⟩

mutual

theorem Definition.Stands.uses {d : Definition} {env : Env} (h : d.Stands T program env)
    {f : FunctionHead} {e : Expression} (hmem : (f, e) ∈ d.uses) :
    ∃ env', e.Stands T program f env' := by
  cases d with
  | var head => cases hmem
  | func head body =>
      have hbody : body ≠ [] := by
        rintro rfl
        cases hmem
      exact uses_of_statements (h.function hbody).statements hmem

theorem uses_of_definitions {ds : List Definition} {env : Env}
    (h : ∀ d ∈ ds, d.Stands T program env) {f : FunctionHead} {e : Expression}
    (hmem : (f, e) ∈ definitionsUses ds) : ∃ env', e.Stands T program f env' := by
  cases ds with
  | nil => cases hmem
  | cons d ds =>
      rcases List.mem_append.mp hmem with hmem | hmem
      · exact (h d List.mem_cons_self).uses hmem
      · exact uses_of_definitions (fun e he => h e (List.mem_cons_of_mem _ he)) hmem

theorem Statement.Stands.uses {s : Statement} {head : FunctionHead} {env : Env}
    (h : s.Stands T program head env) {f : FunctionHead} {e : Expression}
    (hmem : (f, e) ∈ s.uses head) : ∃ env', e.Stands T program f env' := by
  cases s with
  | eval node value => exact ⟨env, h.uses_of_bound h.bound hmem⟩
  | assign node target source =>
      rcases List.mem_append.mp hmem with hmem | hmem
      · exact ⟨env, h.uses_of_bound h.bound.2.1 hmem⟩
      · exact ⟨env, h.uses_of_bound h.bound.2.2 hmem⟩
  | branch node condition positive negative =>
      rcases List.mem_append.mp hmem with hmem | hmem
      · rcases List.mem_append.mp hmem with hmem | hmem
        · exact ⟨env, h.uses_of_bound h.bound.1 hmem⟩
        · exact uses_of_statements h.branch.1 hmem
      · exact uses_of_statements h.branch.2 hmem
  | loop node condition body =>
      rcases List.mem_append.mp hmem with hmem | hmem
      · exact ⟨env, h.uses_of_bound h.bound.1 hmem⟩
      · exact uses_of_statements h.loop hmem
  | block node ds body =>
      rcases List.mem_append.mp hmem with hmem | hmem
      · exact uses_of_definitions h.block.1 hmem
      · exact uses_of_statements h.block.2 hmem

theorem uses_of_statements {ss : List Statement} {head : FunctionHead} {env : Env}
    (h : ∀ s ∈ ss, s.Stands T program head env) {f : FunctionHead} {e : Expression}
    (hmem : (f, e) ∈ statementsUses head ss) : ∃ env', e.Stands T program f env' := by
  cases ss with
  | nil => cases hmem
  | cons s ss =>
      rcases List.mem_append.mp hmem with hmem | hmem
      · exact (h s List.mem_cons_self).uses hmem
      · exact uses_of_statements (fun t ht => h t (List.mem_cons_of_mem _ ht)) hmem

end

/-- Every expression stands somewhere in a translated program. -/
theorem Translated.expression_stands (h : Translated program T) {head : FunctionHead}
    {e : Expression} (hmem : (head, e) ∈ definitionsUses program) :
    ∃ env, e.Stands T program head env :=
  uses_of_definitions h.definitions_stand hmem

end NestedFun
