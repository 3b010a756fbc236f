import NestedFun.Proofs.StorageSizes

namespace NestedFun

/-!
# Programs that can be laid out

Resolving counts the bytes of the variables just as laying out does, and stops at a limit that is far
from where words overflow. So a program that resolves can be laid out.
-/

/-- The encoding of a variable and the parameters of a function are not too many for a word to count
their sizes. -/
def Definition.Counted : Definition → Prop
  | .var head => (Contents.ofVariable head).words.length ≤ wordBound + 2
  | .func head _ => 4 * (head.parameters.length + 1) < wordBound

structure Countable (ds : List Definition) : Prop where
  counted : ∀ d ∈ ds, d.Counted
  wellFormed : ∀ head, .var head ∈ ds → ∀ i ∈ head.initializers, i.WellFormed

theorem countable_append {ds ds' : List Definition} (h : Countable (ds ++ ds')) :
    Countable ds ∧ Countable ds' :=
  ⟨⟨fun d hd => h.counted d (List.mem_append_left _ hd),
      fun head hhead => h.wellFormed head (List.mem_append_left _ hhead)⟩,
    ⟨fun d hd => h.counted d (List.mem_append_right _ hd),
      fun head hhead => h.wellFormed head (List.mem_append_right _ hhead)⟩⟩

theorem reserve_ok {used used' : Nat} {d : Definition} (h : reserve used d = .ok used') :
    used' = used + d.storage ∧ used' ≤ maxStorage := by
  rw [reserve] at h
  split at h
  · rename_i hle
    cases h
    exact ⟨rfl, hle⟩
  · cases h

/-- What binding a definition and the ones behind it consists of. -/
theorem bindDefinitions_cons {scope scope' : Scope} {used used' : Nat} {d : Definition}
    {ds : List Definition} (h : bindDefinitions scope used (d :: ds) = .ok (scope', used')) :
    scope.lookup d.name.text = none ∧ ∃ between, reserve used d = .ok between ∧
      bindDefinitions ((d.name.text, d.binding) :: scope) between ds = .ok (scope', used') := by
  rw [bindDefinitions] at h
  split at h
  · cases h
  · rename_i hfresh
    obtain ⟨between, hreserve, h⟩ := bind_eq_ok h
    exact ⟨Option.not_isSome_iff_eq_none.mp hfresh, between, hreserve, h⟩

namespace LayoutState

/-- The bytes of locals that have been laid out are those that were reserved in the function. -/
def Counts (state : LayoutState) (owner : Option Owner) (used : Nat) : Prop :=
  ∀ o, owner = some o → state.locals = used

/-- Outside all functions no locals are counted. -/
theorem counts_none (state : LayoutState) (used : Nat) : state.Counts none used := by
  intro o ho
  cases ho

theorem addVariable_succeeds {state : LayoutState} {owner : Option Owner} {head : Variable}
    {used used' : Nat} (hhead : Countable [.var head])
    (hreserve : reserve used (.var head) = .ok used') (hcounts : state.Counts owner used) :
    ∃ state', state.addVariable owner head = .ok state' ∧ state'.Counts owner used' := by
  obtain ⟨hused', hle⟩ := reserve_ok hreserve
  rw [Definition.storage] at hused'
  have hmem : Definition.var head ∈ [Definition.var head] := List.mem_singleton_self _
  have hsize := Contents.size?_ofVariable (hhead.wellFormed head hmem) (hhead.counted _ hmem)
    (by omega)
  cases owner with
  | none =>
      exact ⟨⟨state.taken, state.layout.addAccess head.id
        (.absolute head.name.text head.storage (.ofVariable head)), state.locals⟩,
        by simp only [addVariable, hsize]; rfl, counts_none _ _⟩
  | some owner =>
      have hlt : (used' : Int) ≤ 1073741824 := by exact_mod_cast hle
      have hlocals : fitting (state.locals + head.storage) (.localsOverflow owner.label)
          = .ok (used' : Int) := by
        rw [hcounts owner rfl, ← Nat.cast_add, ← hused']
        exact fitting_of_fits _ (by omega) (by omega)
      have hoffset : fitting (-headerSize - used') (.localsOverflow owner.label)
          = .ok (-headerSize - used') :=
        fitting_of_fits _ (by rw [headerSize, wordSize]; omega) (by rw [headerSize, wordSize]; omega)
      exact ⟨⟨state.taken, state.layout.addAccess head.id (.relative (-headerSize - used') owner.depth
        head.storage (some (.ofVariable head))), used'⟩,
        by simp only [addVariable, hsize, hlocals, hoffset, bind, Except.bind]; rfl, fun _ _ => rfl⟩

theorem locals_addParameters (ps : List Parameter) (state : LayoutState) (depth : Nat)
    (offset : Int) : (state.addParameters depth offset ps).locals = state.locals := by
  induction ps generalizing state offset with
  | nil => rfl
  | cons p ps ih => exact ih _ _

end LayoutState

mutual

theorem Definition.layOut_succeeds (d : Definition) {scopes : Scopes} {links : Links}
    {used used' : Nat} (hreserve : reserve used d = .ok used') (h : d.resolve scopes = .ok links)
    (hcountable : Countable d.inside) {owner : Option Owner} {state : LayoutState}
    (hcounts : state.Counts owner used) :
    ∃ state', d.layOut owner state = .ok state' ∧ state'.Counts owner used' := by
  cases d with
  | var head =>
      rw [Definition.layOut]
      exact LayoutState.addVariable_succeeds hcountable hreserve hcounts
  | func head body =>
      obtain ⟨rfl, -⟩ := reserve_ok hreserve
      obtain ⟨hparameters, hinside⟩ := @countable_append [.func head body] _ hcountable
      have hcount : 4 * (head.parameters.length + 1) < wordBound :=
        hparameters.counted _ (List.mem_singleton_self _)
      rw [Definition.resolve] at h
      obtain ⟨scope, -, h⟩ := bind_eq_ok h
      obtain ⟨⟨bodyLinks, inside⟩, hbody, -⟩ := bind_eq_ok h
      obtain ⟨label, hlabel⟩ :
        ∃ label, label = freeLabel (baseLabel owner head.name.text) state.taken 0 := ⟨_, rfl⟩
      obtain ⟨depth, hdepth⟩ : ∃ depth, depth = (owner.map fun owner => owner.depth).getD 0 + 1 :=
        ⟨_, rfl⟩
      obtain ⟨filled, hfilled, hlocals, hle⟩ := @layOutStatements_succeeds body _ _ _ _ (Nat.zero_le _)
        hbody hinside ⟨label, depth⟩ _
        (LayoutState.locals_addParameters head.parameters ⟨label :: state.taken, state.layout, 0⟩
          depth linkSize)
      have hlt : (inside : Int) ≤ 1073741824 := by exact_mod_cast hle
      exact ⟨_, layOut_func_of_fits hlabel hdepth (by rw [wordBound] at hcount; omega) hfilled
        (by rw [headerSize, wordSize]; omega) (by rw [headerSize, wordSize]; omega), hcounts⟩

theorem layOutDefinitions_succeeds (ds : List Definition) {scope scope' : Scope} {scopes : Scopes}
    {links : Links} {used used' : Nat}
    (hbind : bindDefinitions scope used ds = .ok (scope', used')) (hle : used ≤ maxStorage)
    (h : resolveDefinitions scopes ds = .ok links) (hcountable : Countable (definitionsInside ds))
    (owner : Option Owner) (state : LayoutState) (hcounts : state.Counts owner used) :
    ∃ state', layOutDefinitions owner state ds = .ok state' ∧ state'.Counts owner used' ∧
      used' ≤ maxStorage := by
  cases ds with
  | nil =>
      cases hbind
      exact ⟨state, rfl, hcounts, hle⟩
  | cons d ds =>
      obtain ⟨-, between, hreserve, hbind⟩ := bindDefinitions_cons hbind
      rw [resolveDefinitions] at h
      obtain ⟨first, hfirst, h⟩ := bind_eq_ok h
      obtain ⟨others, hothers, -⟩ := bind_eq_ok h
      obtain ⟨hd, hds⟩ := countable_append hcountable
      obtain ⟨state₁, hstate₁, hcounts₁⟩ := d.layOut_succeeds hreserve hfirst hd hcounts
      rw [layOutDefinitions, hstate₁]
      exact layOutDefinitions_succeeds ds hbind (reserve_ok hreserve).2 hothers hds owner state₁ hcounts₁

theorem Statement.layOut_succeeds (s : Statement) {scopes : Scopes} {links : Links}
    {used used' : Nat} (hle : used ≤ maxStorage)
    (h : s.resolve scopes used = .ok (links, used')) (hcountable : Countable s.inside)
    {owner : Owner} {state : LayoutState} (hlocals : state.locals = used) :
    ∃ state', s.layOut (some owner) state = .ok state' ∧ state'.locals = used' ∧
      used' ≤ maxStorage := by
  cases s with
  | eval node value =>
      rw [Statement.resolve] at h
      obtain ⟨valueLinks, -, h⟩ := bind_eq_ok h
      cases h
      exact ⟨state, rfl, hlocals, hle⟩
  | assign node target source =>
      rw [Statement.resolve] at h
      obtain ⟨sourceLinks, -, h⟩ := bind_eq_ok h
      obtain ⟨targetLinks, -, h⟩ := bind_eq_ok h
      split at h
      · cases h
        exact ⟨state, rfl, hlocals, hle⟩
      · cases h
  | branch node condition positive negative =>
      rw [Statement.resolve] at h
      obtain ⟨conditionLinks, -, h⟩ := bind_eq_ok h
      obtain ⟨⟨positiveLinks, used₁⟩, hpositive, h⟩ := bind_eq_ok h
      obtain ⟨⟨negativeLinks, used₂⟩, hnegative, h⟩ := bind_eq_ok h
      cases h
      obtain ⟨hp, hn⟩ := countable_append hcountable
      obtain ⟨state₁, hstate₁, hlocals₁, hle₁⟩ :=
        layOutStatements_succeeds positive hle hpositive hp hlocals
      rw [Statement.layOut, hstate₁]
      exact layOutStatements_succeeds negative hle₁ hnegative hn hlocals₁
  | loop node condition body =>
      rw [Statement.resolve] at h
      obtain ⟨conditionLinks, -, h⟩ := bind_eq_ok h
      obtain ⟨⟨bodyLinks, used₁⟩, hbody, h⟩ := bind_eq_ok h
      cases h
      rw [Statement.layOut]
      exact layOutStatements_succeeds body hle hbody hcountable hlocals
  | block node ds body =>
      rw [Statement.resolve] at h
      obtain ⟨⟨scope, used₁⟩, hbind, h⟩ := bind_eq_ok h
      obtain ⟨definitionLinks, hds, h⟩ := bind_eq_ok h
      obtain ⟨⟨bodyLinks, used₂⟩, hbody, h⟩ := bind_eq_ok h
      cases h
      obtain ⟨hd, hb⟩ := countable_append hcountable
      obtain ⟨state₁, hstate₁, hcounts₁, hle₁⟩ :=
        layOutDefinitions_succeeds ds hbind hle hds hd (some owner) state fun _ _ => hlocals
      rw [Statement.layOut, hstate₁]
      exact layOutStatements_succeeds body hle₁ hbody hb (hcounts₁ owner rfl)

theorem layOutStatements_succeeds (ss : List Statement) {scopes : Scopes} {links : Links}
    {used used' : Nat} (hle : used ≤ maxStorage)
    (h : resolveStatements scopes used ss = .ok (links, used'))
    (hcountable : Countable (statementsInside ss)) {owner : Owner} {state : LayoutState}
    (hlocals : state.locals = used) :
    ∃ state', layOutStatements (some owner) state ss = .ok state' ∧ state'.locals = used' ∧
      used' ≤ maxStorage := by
  cases ss with
  | nil =>
      cases h
      exact ⟨state, rfl, hlocals, hle⟩
  | cons s ss =>
      rw [resolveStatements] at h
      obtain ⟨⟨first, used₁⟩, hfirst, h⟩ := bind_eq_ok h
      obtain ⟨⟨others, used₂⟩, hothers, h⟩ := bind_eq_ok h
      cases h
      obtain ⟨hs, hss⟩ := countable_append hcountable
      obtain ⟨state₁, hstate₁, hlocals₁, hle₁⟩ := s.layOut_succeeds hle hfirst hs hlocals
      rw [layOutStatements, hstate₁]
      exact layOutStatements_succeeds ss hle₁ hothers hss hlocals₁

end

/-- A program that resolves can be laid out. -/
theorem Program.layOut_succeeds {program : Program} {resolution : Resolution}
    (h : program.resolve = .ok resolution) (hcountable : Countable (definitionsInside program)) :
    ∃ layout, program.layOut = .ok layout := by
  obtain ⟨⟨scope, used⟩, hbind, h⟩ := bind_eq_ok h
  obtain ⟨u, -, h⟩ := bind_eq_ok h
  obtain ⟨links, hlinks, -⟩ := bind_eq_ok h
  obtain ⟨state, hstate, -⟩ :=
    layOutDefinitions_succeeds program hbind (Nat.zero_le _) hlinks hcountable none {}
      (LayoutState.counts_none _ _)
  exact ⟨state.layout, by rw [Program.layOut, hstate]; rfl⟩

end NestedFun
