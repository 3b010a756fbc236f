import NestedFun.Proofs.Binding
import NestedFun.Proofs.NodeSpans
import NestedFun.Proofs.SystemDeclarations

namespace NestedFun

/-!
# Where scope errors are reported

Resolving blames names, parameters, definitions and expressions of the program, or nothing in the text
if there is no function to start at.
-/

theorem bind_eq_error {ε α β : Type} {x : Except ε α} {f : α → Except ε β} {e : ε}
    (h : (x >>= f) = .error e) : x = .error e ∨ ∃ a, x = .ok a ∧ f a = .error e := by
  cases x with
  | error e' =>
      cases h
      exact .inl rfl
  | ok a => exact .inr ⟨a, rfl, h⟩

def Blames {α : Type} (P : CompileError → Prop) (x : Except CompileError α) : Prop :=
  ∀ e, x = .error e → P e

namespace Blames

variable {α β : Type} {P : CompileError → Prop} {x : Except CompileError α}

theorem ok (a : α) : Blames P (.ok a) := nofun

theorem error {e : CompileError} (h : P e) : Blames (α := α) P (.error e) := by
  rintro _ ⟨⟩
  exact h

theorem bind {f : α → Except CompileError β} (hx : Blames P x) (hf : ∀ a, x = .ok a → Blames P (f a)) :
    Blames P (x >>= f) := by
  intro e h
  rcases bind_eq_error h with h | ⟨a, ha, h⟩
  · exact hx e h
  · exact hf a ha e h

/-- Failing if something is wrong, and going on otherwise. -/
theorem guard {p : Prop} [Decidable p] {e : CompileError} {f : PUnit → Except CompileError β}
    (he : P e) (hf : Blames P (f ⟨⟩)) :
    Blames P (if p then (throw e : Except CompileError PUnit) >>= f else f ⟨⟩) := by
  split
  · exact .error he
  · exact hf

end Blames

section

variable {Q : Span → Prop} {P : CompileError → Prop}
  (hP : ∀ span error, Q span → P (scopeError span error))

include hP

/-! ## Scopes -/

theorem reserve_blames {definition : Definition} (used : Nat) (h : definition.Spanned Q) :
    Blames P (reserve used definition) := by
  rw [reserve]
  split
  · exact .ok _
  · refine .error (hP _ _ ?_)
    cases definition with
    | func head body => exact h.1.1
    | var head => exact h.1

omit hP in
theorem Definition.Spanned.name {definition : Definition} (h : definition.Spanned Q) :
    Q definition.name.span := by
  cases definition with
  | func head body => exact h.1.2.1
  | var head => exact h.2

omit hP in
theorem spanned_of_mem {ds : List Definition} (h : SpannedDefinitions Q ds) {d : Definition}
    (hd : d ∈ ds) : d.Spanned Q := by
  induction ds with
  | nil => cases hd
  | cons d' ds ih =>
      rcases List.mem_cons.mp hd with rfl | hd
      · exact h.1
      · exact ih h.2 hd

theorem bindDefinitions_blames (ds : List Definition) (scope : Scope) (used : Nat)
    (h : SpannedDefinitions Q ds) : Blames P (bindDefinitions scope used ds) := by
  induction ds generalizing scope used with
  | nil => exact .ok _
  | cons d ds ih =>
      rw [bindDefinitions]
      exact .guard (hP _ _ h.1.name)
        ((reserve_blames hP used h.1).bind fun used' _ => ih _ used' h.2)

theorem bindParameters_blames (parameters : List Parameter) (scope : Scope)
    (h : ∀ parameter ∈ parameters, parameter.Spanned Q) :
    Blames P (bindParameters scope parameters) := by
  induction parameters generalizing scope with
  | nil => exact .ok _
  | cons parameter parameters ih =>
      obtain ⟨hfirst, hothers⟩ := List.forall_mem_cons.mp h
      rw [bindParameters]
      exact .guard (hP _ _ hfirst.2) (ih _ hothers)

theorem lookUp_blames (scopes : Scopes) {name : Identifier} (h : name.Spanned Q) :
    Blames P (lookUp scopes name) := by
  rw [lookUp]
  split
  · exact .ok _
  · exact .error (hP _ _ h)

end

/-! ## Expressions, statements and definitions -/

mutual

theorem Expression.resolve_blames (hP : ∀ span error, Q span → P (scopeError span error))
    (scopes : Scopes) (e : Expression) (h : e.Spanned Q) :
    Blames P (e.resolve scopes) := by
  cases e with
  | literal node value => exact .ok _
  | name node name =>
      rw [Expression.resolve]
      refine (lookUp_blames hP scopes h.2).bind fun binding _ => ?_
      split
      · exact .ok _
      · exact .error (hP _ _ h.2)
  | call node callee arguments =>
      rw [Expression.resolve]
      refine (lookUp_blames hP scopes h.2.1).bind fun binding _ => ?_
      split
      · exact .error (hP _ _ h.2.1)
      · exact .guard (hP _ _ h.1)
          ((resolveExpressions_blames hP scopes arguments h.2.2).bind fun _ _ => .ok _)
  | unary node operator operand =>
      rw [Expression.resolve]
      refine (operand.resolve_blames hP scopes h.2).bind fun links _ => ?_
      split
      · split
        · exact .ok _
        · exact .error (hP _ _ h.2.node)
      all_goals exact .ok _
  | binary node operator left right =>
      rw [Expression.resolve]
      exact (left.resolve_blames hP scopes h.2.1).bind fun _ _ =>
        (right.resolve_blames hP scopes h.2.2).bind fun _ _ => .ok _

theorem resolveExpressions_blames (hP : ∀ span error, Q span → P (scopeError span error))
    (scopes : Scopes) (es : List Expression)
    (h : SpannedExpressions Q es) : Blames P (resolveExpressions scopes es) := by
  cases es with
  | nil => exact .ok _
  | cons e es =>
      rw [resolveExpressions]
      exact (e.resolve_blames hP scopes h.1).bind fun _ _ =>
        (resolveExpressions_blames hP scopes es h.2).bind fun _ _ => .ok _

end

mutual

theorem Definition.resolve_blames (hP : ∀ span error, Q span → P (scopeError span error))
    (scopes : Scopes) (d : Definition) (h : d.Spanned Q) :
    Blames P (d.resolve scopes) := by
  cases d with
  | var head => exact .ok _
  | func head body =>
      rw [Definition.resolve]
      exact (bindParameters_blames hP head.parameters [] h.1.2.2).bind fun scope _ =>
        (resolveStatements_blames hP (scope :: scopes) 0 body h.2).bind fun _ _ => .ok _

theorem resolveDefinitions_blames (hP : ∀ span error, Q span → P (scopeError span error))
    (scopes : Scopes) (ds : List Definition)
    (h : SpannedDefinitions Q ds) : Blames P (resolveDefinitions scopes ds) := by
  cases ds with
  | nil => exact .ok _
  | cons d ds =>
      rw [resolveDefinitions]
      exact (d.resolve_blames hP scopes h.1).bind fun _ _ =>
        (resolveDefinitions_blames hP scopes ds h.2).bind fun _ _ => .ok _

theorem Statement.resolve_blames (hP : ∀ span error, Q span → P (scopeError span error))
    (scopes : Scopes) (used : Nat) (s : Statement) (h : s.Spanned Q) :
    Blames P (s.resolve scopes used) := by
  cases s with
  | eval node value =>
      rw [Statement.resolve]
      exact (value.resolve_blames hP scopes h.2).bind fun _ _ => .ok _
  | assign node target source =>
      rw [Statement.resolve]
      refine (source.resolve_blames hP scopes h.2.2).bind fun _ _ => ?_
      refine (target.resolve_blames hP scopes h.2.1).bind fun _ _ => ?_
      split
      · exact .ok _
      · exact .error (hP _ _ h.2.1.node)
  | branch node condition positive negative =>
      rw [Statement.resolve]
      refine (condition.resolve_blames hP scopes h.2.1).bind fun _ _ => ?_
      refine (resolveStatements_blames hP scopes used positive h.2.2.1).bind fun found _ => ?_
      exact (resolveStatements_blames hP scopes found.2 negative h.2.2.2).bind fun _ _ => .ok _
  | loop node condition body =>
      rw [Statement.resolve]
      refine (condition.resolve_blames hP scopes h.2.1).bind fun _ _ => ?_
      exact (resolveStatements_blames hP scopes used body h.2.2).bind fun _ _ => .ok _
  | block node definitions body =>
      rw [Statement.resolve]
      refine (bindDefinitions_blames hP definitions [] used h.2.1).bind fun found _ => ?_
      refine (resolveDefinitions_blames hP (found.1 :: scopes) definitions h.2.1).bind fun _ _ => ?_
      exact (resolveStatements_blames hP (found.1 :: scopes) found.2 body h.2.2).bind fun _ _ => .ok _

theorem resolveStatements_blames (hP : ∀ span error, Q span → P (scopeError span error))
    (scopes : Scopes) (used : Nat) (ss : List Statement)
    (h : SpannedStatements Q ss) : Blames P (resolveStatements scopes used ss) := by
  cases ss with
  | nil => exact .ok _
  | cons s ss =>
      rw [resolveStatements]
      refine (s.resolve_blames hP scopes used h.1).bind fun found _ => ?_
      exact (resolveStatements_blames hP scopes found.2 ss h.2).bind fun _ _ => .ok _

end

/-! ## Programs -/

variable {Q : Span → Prop} {P : CompileError → Prop}

def Binding.span : Binding → Span
  | .function _ span _ | .variable _ span => span

theorem Definition.span_binding (d : Definition) : d.binding.span = d.name.span := by
  cases d <;> rfl

theorem bindDefinitions_append (ds ds' : List Definition) (scope : Scope) (used : Nat) :
    bindDefinitions scope used (ds ++ ds') = bindDefinitions scope used ds >>= fun found =>
      bindDefinitions found.1 found.2 ds' := by
  induction ds generalizing scope used with
  | nil => rfl
  | cons d ds ih =>
      rw [List.cons_append, bindDefinitions, bindDefinitions]
      split
      · rfl
      · simp only
        cases reserve used d with
        | error e => rfl
        | ok used' => exact ih _ used'

theorem resolveDefinitions_blames_append (hP : ∀ span error, Q span → P (scopeError span error))
    (scopes : Scopes) (ds : List Definition) {ds' : List Definition} (h : SpannedDefinitions Q ds)
    (h' : Blames P (resolveDefinitions scopes ds')) :
    Blames P (resolveDefinitions scopes (ds ++ ds')) := by
  induction ds with
  | nil => exact h'
  | cons d ds ih =>
      rw [List.cons_append, resolveDefinitions]
      exact (d.resolve_blames hP scopes h.1).bind fun _ _ => (ih h.2).bind fun _ _ => .ok _

/-- Binding puts the definitions in front of what is bound already. -/
theorem bindDefinitions_eq (ds : List Definition) {scope scope' : Scope} {used used' : Nat}
    (h : bindDefinitions scope used ds = .ok (scope', used')) :
    scope' = (ds.map fun d => (d.name.text, d.binding)).reverse ++ scope ∧
      (used ≤ maxStorage → used' ≤ maxStorage) := by
  induction ds generalizing scope used with
  | nil =>
      cases h
      exact ⟨rfl, id⟩
  | cons d ds ih =>
      rw [bindDefinitions] at h
      split at h
      · cases h
      · obtain ⟨used₁, hreserve, h⟩ := bind_eq_ok h
        obtain ⟨hscope, hused⟩ := ih h
        rw [reserve] at hreserve
        split at hreserve
        · rename_i hle
          cases hreserve
          refine ⟨?_, fun _ => hused hle⟩
          rw [hscope, List.map_cons, List.reverse_cons, List.append_assoc]
          rfl
        · cases hreserve

/-- Definitions without bodies and with few parameters can be blamed for their names only. -/
theorem Declares.bindDefinitions_blames {declared : List Definition}
    {names : List (String × Option String)} (h : Declares declared names)
    (hnodup : (names.map Prod.fst).Nodup) {scope : Scope} {used : Nat} (hused : used ≤ maxStorage)
    (hnames : ∀ d ∈ declared, (scope.lookup d.name.text).isSome →
      P (scopeError d.name.span (.duplicateDefinition d.name.text))) :
    Blames P (bindDefinitions scope used declared) := by
  induction h generalizing scope with
  | nil => exact .ok _
  | @cons head definitions declared others hname hlength hothers ih =>
      obtain ⟨hfresh, hnodup'⟩ := List.nodup_cons.mp hnodup
      have hreserve : reserve used (.func head []) = .ok used := if_pos hused
      rw [bindDefinitions]
      split
      · rename_i hbound
        exact .error (hnames _ List.mem_cons_self hbound)
      · simp only [hreserve]
        refine ih hnodup' fun d hd hbound => hnames d (List.mem_cons_of_mem _ hd) ?_
        have hne : d.name.text ≠ head.name.text := by
          intro heq
          apply hfresh
          rw [← hname, ← heq, ← hothers.names_eq]
          exact List.mem_map_of_mem (f := fun d : Definition => d.name.text) hd
        have hbeq : (d.name.text == (Definition.func head []).name.text) = false :=
          beq_eq_false_iff_ne.mpr hne
        rw [List.lookup_cons, hbeq] at hbound
        exact hbound

theorem Declares.resolveDefinitions_blames {declared : List Definition}
    {names : List (String × Option String)} (h : Declares declared names) (scopes : Scopes) :
    Blames P (resolveDefinitions scopes declared) := by
  induction h with
  | nil => exact .ok _
  | @cons head definitions declared others hname hlength hothers ih =>
      rw [resolveDefinitions]
      refine .bind ?_ fun _ _ => ih.bind fun _ _ => .ok _
      rw [Definition.resolve]
      refine .bind ?_ fun _ _ => .bind (.ok _) fun _ _ => .ok _
      -- A single parameter is bound in an empty scope.
      have hle : head.parameters.length ≤ 1 := by
        rw [hlength]
        cases declared.2 <;> simp
      cases hparameters : head.parameters with
      | nil => exact .ok _
      | cons parameter parameters =>
          rw [hparameters] at hle
          obtain rfl : parameters = [] := List.eq_nil_of_length_eq_zero (by simpa using hle)
          exact .ok _

theorem mem_names_of_lookup {ds : List Definition} {name : String} {binding : Binding}
    (h : (ds.map fun d => (d.name.text, d.binding)).reverse.lookup name = some binding) :
    ∃ d ∈ ds, d.name.text = name ∧ d.binding = binding := by
  obtain ⟨front, back, heq, -⟩ := List.lookup_eq_some_iff.mp h
  have hmem : (name, binding) ∈ (ds.map fun d => (d.name.text, d.binding)).reverse := by
    rw [heq]
    exact List.mem_append_right _ List.mem_cons_self
  obtain ⟨d, hd, hpair⟩ := List.mem_map.mp (List.mem_reverse.mp hmem)
  exact ⟨d, hd, congrArg Prod.fst hpair, congrArg Prod.snd hpair⟩

/-- A program whose last definitions are declarations of other names than `main`: they can be blamed
only for a name that the program has defined itself. -/
theorem Program.resolve_blames {own declared : List Definition} {names : List (String × Option String)}
    (hP : ∀ span error, Q span → P (scopeError span error)) (hown : SpannedDefinitions Q own)
    (hdeclares : Declares declared names) (hnodup : (names.map Prod.fst).Nodup)
    (hmain : "main" ∉ names.map Prod.fst) (hnowhere : Q .nowhere)
    (hnames : ∀ d ∈ declared, (∃ d' ∈ own, d'.name.text = d.name.text) →
      P (scopeError d.name.span (.duplicateDefinition d.name.text))) :
    Blames P (Program.resolve (own ++ declared)) := by
  have hnames' := hdeclares.names_eq
  rw [Program.resolve, bindDefinitions_append]
  refine .bind (.bind (bindDefinitions_blames hP own [] 0 hown) fun found hfound => ?_)
    fun all hall => ?_
  · obtain ⟨hscope, hused⟩ := bindDefinitions_eq own hfound
    refine hdeclares.bindDefinitions_blames hnodup (hused (Nat.zero_le _)) fun d hd hbound => ?_
    obtain ⟨binding, hbinding⟩ := Option.isSome_iff_exists.mp hbound
    rw [hscope, List.append_nil] at hbinding
    obtain ⟨d', hd', hname, -⟩ := mem_names_of_lookup hbinding
    exact hnames d hd ⟨d', hd', hname⟩
  · rw [← bindDefinitions_append] at hall
    obtain ⟨hscope, -⟩ := bindDefinitions_eq _ hall
    rw [List.append_nil] at hscope
    refine .bind ?_ fun _ _ => .bind ?_ fun _ _ => .ok _
    · -- The binding of `main` comes from the program itself.
      have hspan : ∀ binding, all.1.lookup "main" = some binding → Q binding.span := by
        intro binding hbinding
        rw [hscope] at hbinding
        obtain ⟨d, hd, hname, rfl⟩ := mem_names_of_lookup hbinding
        rw [d.span_binding]
        rcases List.mem_append.mp hd with hd | hd
        · exact (spanned_of_mem hown hd).name
        · refine absurd ?_ hmain
          rw [← hnames', ← hname]
          exact List.mem_map_of_mem (f := fun d : Definition => d.name.text) hd
      rw [checkMain]
      split
      · rename_i id span count hbinding
        split
        · exact .ok _
        · exact .error (hP _ _ (hspan _ hbinding))
      · rename_i id span hbinding
        exact .error (hP _ _ (hspan _ hbinding))
      · exact .error (hP _ _ hnowhere)
    · exact resolveDefinitions_blames_append hP _ own hown (hdeclares.resolveDefinitions_blames _)

end NestedFun
