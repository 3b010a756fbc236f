import NestedFun.Proofs.Binding
import NestedFun.Proofs.Generations
import NestedFun.Proofs.Places
import NestedFun.Segment.Segments

namespace NestedFun

/-!
# Code of a program

What code is generated for every part of a tree, said in terms of the lexical environment. The code
of functions and the data of variables and strings are fragments of their own.
-/

/-- What names refer to, and the fragments that are generated for a program. -/
structure Target where
  context : Context
  fragments : Fragments

abbrev Target.layout (T : Target) : Layout := T.context.layout

def Target.Generates (T : Target) (e : Expression) (code : Code) : Prop :=
  ∃ frame g g', e.value T.context frame g = .ok (code, g')

mutual

def Expression.Coded (T : Target) (env : Env) : Expression → Code → Prop
  | .literal node value, code =>
    (value.kind ≠ .string ∧ ∃ w, value.words = [w] ∧ code = Code.spanning node.span [.push w]) ∨
      (value.kind = .string ∧ ∃ n, code = Code.spanning node.span [.name (dataLabel n)] ∧
        Data.spanning node.span (.label (dataLabel n) :: (value.words ++ [0]).map .word)
          ∈ T.fragments.strings)
  | .name node name, code => ∃ place, env.Finds T.layout name.text place ∧
      code = Code.spanning node.span (place.code ++ [.load])
  | .call node callee arguments, code => ∃ meaning head body frame pushed,
      env.find? callee.text = some meaning ∧ meaning.entity = .function head body ∧
      head.parameters.length = arguments.length ∧ T.layout.frames[head.id]? = some frame ∧
      CodedArguments T env arguments pushed ∧
      code = pushed ++ Code.spanning node.span
        (frameAddress meaning.hops ++ [.name frame.label, .call frame])
  | .unary node operator operand, code =>
    match operator.kind with
    | .not => ∃ c, operand.Coded T env c ∧ code = c ++ Code.spanning node.span [.oper .not]
    | .negate => ∃ c, operand.Coded T env c ∧ code = c ++ Code.spanning node.span [.oper .neg]
    | .identity => operand.Coded T env code
    | .addressOf => operand.AddressCoded T env code
    | .dereference => ∃ c, operand.Coded T env c ∧ T.Generates operand c ∧
        code = c ++ Code.spanning node.span [.load]
  | .binary _ operator left right, code => ∃ r l, right.Coded T env r ∧ left.Coded T env l ∧
      code = r ++ l ++ Code.spanning operator.span [.oper operator.kind.stackOperator]

def Expression.AddressCoded (T : Target) (env : Env) : Expression → Code → Prop
  | .name node name, code => ∃ place, env.Finds T.layout name.text place ∧
      code = Code.spanning node.span place.code
  | .unary _ operator operand, code =>
    operator.kind = .dereference ∧ operand.Coded T env code
  | .literal _ _, _ | .call _ _ _, _ | .binary _ _ _ _, _ => False

/-- Code that leaves the values of arguments, the first on top. -/
def CodedArguments (T : Target) (env : Env) : List Expression → Code → Prop
  | [], code => code = []
  | argument :: arguments, code => ∃ others first, CodedArguments T env arguments others ∧
      argument.Coded T env first ∧ code = others ++ first

end

/-- Code that sets up a variable, and the data that it needs: globals are data, locals are expanded
into the frame. -/
def Variable.Coded (T : Target) (env : Env) (head : Variable) (code : Code) : Prop :=
  head.Sized ∧ if env.depth = 0 then
    T.layout.accesses[head.id]?
        = some (.absolute head.name.text (4 * head.words.length) (.ofVariable head)) ∧
      T.fragments.storage[head.id]? = some (Data.spanning head.span
        [.label head.name.text, .reserve (.ofInt (4 * head.words.length)) (some (.ofVariable head))])
  else
    ∃ offset n, T.layout.accesses[head.id]?
        = some (.relative offset env.depth (4 * head.words.length) (some (.ofVariable head))) ∧
      T.fragments.storage[head.id]? = some (Data.spanning head.span
        (.label (dataLabel n) :: (Contents.ofVariable head).words.map .word)) ∧
      code = Code.spanning head.span
        [.regn .framePointer, .push (.ofInt offset), .oper .add, .name (dataLabel n), .init]

mutual

/-- Code of a statement; `keep` says whether it leaves its value. -/
def Statement.Coded (T : Target) (env : Env) (keep : Bool) : Statement → Code → Prop
  | .eval node value, code => ∃ c, value.Coded T env c ∧
      code = c ++ if keep then [] else Code.spanning node.span [.push 4, .popn]
  | .assign node target source, code => ∃ v a, source.Coded T env v ∧
      target.AddressCoded T env a ∧
      code = v ++ a ++ Code.spanning node.span [.save] ++ keptZero keep node.span
  | .branch node condition positive negative, code => ∃ n p q c,
      CodedStatements T env false positive p ∧ CodedStatements T env false negative q ∧
      condition.Coded T env c ∧ code = List.flatten [
        Code.spanning node.span
          [.name (branchLabels n).condition, .ujmp, .label (branchLabels n).positive],
        p,
        Code.spanning node.span
          [.name (branchLabels n).stop, .ujmp, .label (branchLabels n).negative],
        q,
        Code.spanning node.span
          [.name (branchLabels n).stop, .ujmp, .label (branchLabels n).condition],
        c,
        Code.spanning node.span [.name (branchLabels n).positive, .name (branchLabels n).negative,
          .cjmp, .label (branchLabels n).stop],
        keptZero keep node.span]
  | .loop node condition body, code => ∃ n c p,
      condition.Coded T env c ∧ CodedStatements T env false body p ∧ code = List.flatten [
        Code.spanning node.span [.label (loopLabels n).condition],
        c,
        Code.spanning node.span [.name (loopLabels n).body, .name (loopLabels n).stop, .cjmp,
          .label (loopLabels n).body],
        p,
        Code.spanning node.span
          [.name (loopLabels n).condition, .ujmp, .label (loopLabels n).stop],
        keptZero keep node.span]
  | .block _ ds body, code => ∃ entry c, CodedDefinitions T (.definitions ds :: env) ds entry ∧
      CodedStatements T (.definitions ds :: env) keep body c ∧ code = entry ++ c

def CodedStatements (T : Target) (env : Env) (keep : Bool) : List Statement → Code → Prop
  | [], code => code = keptZero keep .nowhere
  | [statement], code => statement.Coded T env keep code
  | statement :: statements, code => ∃ first others, statement.Coded T env false first ∧
      CodedStatements T env keep statements others ∧ code = first ++ others

def Definition.Coded (T : Target) (env : Env) : Definition → Code → Prop
  | .var head, code => head.Coded T env code
  | .func head body, code => code = [] ∧ (body ≠ [] → ∃ frame c,
      T.layout.frames[head.id]? = some frame ∧
      CodedStatements T (.parameters head :: env) true body c ∧
      T.fragments.functions[head.id]? = some (functionCode head frame c))

def CodedDefinitions (T : Target) (env : Env) : List Definition → Code → Prop
  | [], code => code = []
  | definition :: definitions, code => ∃ first others, definition.Coded T env first ∧
      CodedDefinitions T env definitions others ∧ code = first ++ others

end

/-! ## What generating adds -/

def Definition.functionId? : Definition → Option NodeId
  | .func head body => if body.isEmpty then none else some head.id
  | .var _ => none

def Definition.variableId? : Definition → Option NodeId
  | .func _ _ => none
  | .var head => some head.id

/-- Fragments were added, each for one of the given definitions. -/
structure Generated.Grows (ds : List Definition) (g g' : Generated) : Prop where
  functions : ∃ more, g'.functions.toList = g.functions.toList ++ more ∧
    Covered (more.map Prod.fst) (ds.filterMap Definition.functionId?)
  storage : ∃ more, g'.storage.toList = g.storage.toList ++ more ∧
    Covered (more.map Prod.fst) (ds.filterMap Definition.variableId?)
  strings : ∃ more, g'.strings.toList = g.strings.toList ++ more ∧ ∀ data ∈ more,
    ∃ (span : Span) (n : Nat) (words : List Word),
      data = Data.spanning span (.label (dataLabel n) :: words.map .word)

structure Target.Contains (T : Target) (g : Generated) : Prop where
  functions : ∀ entry ∈ g.functions.toList, T.fragments.functions[entry.1]? = some entry.2
  storage : ∀ entry ∈ g.storage.toList, T.fragments.storage[entry.1]? = some entry.2
  strings : ∀ data ∈ g.strings.toList, data ∈ T.fragments.strings

namespace Generated.Grows

variable {ds ds' : List Definition} {g g' g'' : Generated}

theorem refl (g : Generated) : Grows [] g g :=
  ⟨⟨[], by simp, fun _ => le_refl _⟩, ⟨[], by simp, fun _ => le_refl _⟩, ⟨[], by simp, nofun⟩⟩

theorem trans (h : Grows ds g g') (h' : Grows ds' g' g'') : Grows (ds ++ ds') g g'' := by
  obtain ⟨⟨f, hf, hf'⟩, ⟨v, hv, hv'⟩, ⟨s, hs, hs'⟩⟩ := h
  obtain ⟨⟨f₂, hf₂, hf₂'⟩, ⟨v₂, hv₂, hv₂'⟩, ⟨s₂, hs₂, hs₂'⟩⟩ := h'
  refine ⟨⟨f ++ f₂, by rw [hf₂, hf, List.append_assoc], fun id => ?_⟩,
    ⟨v ++ v₂, by rw [hv₂, hv, List.append_assoc], fun id => ?_⟩,
    ⟨s ++ s₂, by rw [hs₂, hs, List.append_assoc], fun data hdata => ?_⟩⟩
  · have h₁ := hf' id
    have h₂ := hf₂' id
    rw [List.map_append, List.filterMap_append, List.count_append, List.count_append]
    omega
  · have h₁ := hv' id
    have h₂ := hv₂' id
    rw [List.map_append, List.filterMap_append, List.count_append, List.count_append]
    omega
  · rcases List.mem_append.mp hdata with hdata | hdata
    · exact hs' data hdata
    · exact hs₂' data hdata

/-- The order of the definitions does not matter. -/
theorem perm (h : Grows ds g g') (hperm : ds.Perm ds') : Grows ds' g g' := by
  obtain ⟨⟨f, hf, hf'⟩, ⟨v, hv, hv'⟩, hs⟩ := h
  refine ⟨⟨f, hf, fun id => ?_⟩, ⟨v, hv, fun id => ?_⟩, hs⟩
  · rw [← (hperm.filterMap _).count_eq]
    exact hf' id
  · rw [← (hperm.filterMap _).count_eq]
    exact hv' id

theorem function (g : Generated) (head : FunctionHead) {body : List Statement} (code : Code)
    (hbody : body ≠ []) :
    Grows [.func head body] g { g with functions := g.functions.push (head.id, code) } :=
  ⟨⟨[(head.id, code)], by simp, fun _ => by simp [Definition.functionId?, hbody]⟩,
    ⟨[], by simp, fun _ => by simp⟩, ⟨[], by simp, nofun⟩⟩

/-- Nothing is added for a function without a body. -/
theorem declared (g : Generated) (head : FunctionHead) : Grows [.func head []] g g :=
  ⟨⟨[], by simp, fun _ => by simp⟩, ⟨[], by simp, fun _ => by simp⟩, ⟨[], by simp, nofun⟩⟩

theorem variable' (g : Generated) (head : Variable) (data : Data) (labels : LabelSupply) :
    Grows [.var head] g { g with storage := g.storage.push (head.id, data), labels } :=
  ⟨⟨[], by simp, fun _ => by simp⟩, ⟨[(head.id, data)], by simp, fun _ => le_refl _⟩,
    ⟨[], by simp, nofun⟩⟩

theorem string (g : Generated) (span : Span) (n : Nat) (words : List Word)
    (labels : LabelSupply) : Grows [] g { g with
      strings := g.strings.push (Data.spanning span (.label (dataLabel n) :: words.map .word)),
      labels } :=
  ⟨⟨[], by simp, fun _ => le_refl _⟩, ⟨[], by simp, fun _ => le_refl _⟩,
    ⟨[_], by simp, fun data hdata => ⟨span, n, words, List.mem_singleton.mp hdata⟩⟩⟩

theorem labels (g : Generated) (labels : LabelSupply) : Grows [] g { g with labels } :=
  ⟨⟨[], by simp, fun _ => le_refl _⟩, ⟨[], by simp, fun _ => le_refl _⟩, ⟨[], by simp, nofun⟩⟩

theorem contains (h : Grows ds g g') {T : Target} (hcontains : T.Contains g') : T.Contains g := by
  obtain ⟨⟨f, hf, _⟩, ⟨v, hv, _⟩, ⟨s, hs, _⟩⟩ := h
  exact ⟨fun x hx => hcontains.functions x (by rw [hf]; exact List.mem_append_left _ hx),
    fun x hx => hcontains.storage x (by rw [hv]; exact List.mem_append_left _ hx),
    fun x hx => hcontains.strings x (by rw [hs]; exact List.mem_append_left _ hx)⟩

end Generated.Grows

/-! ## Expressions -/

section

variable {T : Target} {env : Env} {used limit : Int} {frame : Frame} {g g' : Generated}
  {code : Code}

theorem Context.definitionOf_ok {context : Context} {id definition : NodeId}
    (h : context.definitions[id]? = some definition) : context.definitionOf id = .ok definition := by
  simp only [definitionOf, h]

theorem Layout.access_ok {layout : Layout} {id : NodeId} {access : Access}
    (h : layout.accesses[id]? = some access) : layout.access id = .ok access := by
  simp only [Layout.access, h]

theorem Layout.frame_ok {layout : Layout} {id : NodeId} {frame : Frame}
    (h : layout.frames[id]? = some frame) : layout.frame id = .ok frame := by
  simp only [Layout.frame, h]

theorem nameAddress_ok {node : Node} {name : Identifier}
    (hbound : (Expression.name node name).Bound T.context.definitions env)
    (henv : env.Placed T.layout used limit) (hframe : frame.depth = env.depth) :
    ∃ place, env.Finds T.layout name.text place ∧
      nameAddress T.context frame node = .ok (Code.spanning node.span place.code) := by
  obtain ⟨meaning, id, hfind, hentity, htable⟩ := hbound
  have hhops := (Env.find?_home hfind).2.1
  have haccessOf : ∀ access, T.layout.accesses[id]? = some access →
      T.context.accessOf node.id = .ok access := by
    intro access haccess
    rw [Context.accessOf, Context.definitionOf_ok htable]
    exact Layout.access_ok haccess
  rcases henv.access hfind hentity with ⟨hdepth, label, size, contents, haccess⟩ |
    ⟨hdepth, offset, size, contents, haccess⟩
  · refine ⟨_, .global hfind hentity hdepth haccess, ?_⟩
    rw [nameAddress, haccessOf _ haccess]
    rfl
  · refine ⟨_, .slot hfind hentity hdepth haccess, ?_⟩
    have hsub : frame.depth - meaning.home.depth = meaning.hops := by omega
    rw [nameAddress, haccessOf _ haccess]
    show (if meaning.home.depth ≤ frame.depth then _ else _) = _
    rw [if_pos (by omega), hsub]
    rfl

theorem callCode_ok {callee : Frame} {node : Node} {hops : Nat}
    (hhops : frame.depth + 1 = hops + callee.depth) :
    callCode frame callee node = .ok (Code.spanning node.span
      (frameAddress hops ++ [.name callee.label, .call callee])) := by
  rw [callCode, if_pos (by omega), show frame.depth + 1 - callee.depth = hops by omega]

mutual

theorem Expression.value_coded (e : Expression) {g g' : Generated} {code : Code}
    (hbound : e.Bound T.context.definitions env) (hwell : e.WellFormed)
    (henv : env.Placed T.layout used limit) (hframe : frame.depth = env.depth)
    (h : e.value T.context frame g = .ok (code, g')) :
    g.Grows [] g' ∧ (T.Contains g' → e.Coded T env code) := by
  cases e with
  | literal node value =>
      rcases Expression.literal_generated h with ⟨hkind, rfl, rfl⟩ | ⟨hkind, rfl, rfl⟩
      · obtain ⟨w, hw⟩ := List.length_eq_one_iff.mp (Literal.WellFormed.length_words hwell hkind)
        exact ⟨.refl g', fun _ => .inl ⟨hkind, w, hw, by rw [hw]; rfl⟩⟩
      · refine ⟨.string g _ _ _ _, fun hcontains => .inr ⟨hkind, g.labels.next, rfl, ?_⟩⟩
        exact hcontains.strings _ (by simp)
  | name node name =>
      obtain ⟨address, haddress, rfl, rfl⟩ := Expression.name_generated h
      obtain ⟨place, hplace, hok⟩ := nameAddress_ok hbound henv hframe
      obtain rfl := Except.ok.inj (hok.symm.trans haddress)
      exact ⟨.refl _, fun _ => ⟨place, hplace, by simp [Code.spanning]⟩⟩
  | call node callee arguments =>
      obtain ⟨⟨meaning, head, body, hfind, hentity, hcount, htable⟩, harguments⟩ := hbound
      obtain ⟨calleeFrame, hcalleeFrame, hfits, _⟩ := henv.callee hfind hentity
      have hcallee : T.context.calleeOf node.id = .ok calleeFrame := by
        rw [Context.calleeOf, Context.definitionOf_ok htable]
        exact Layout.frame_ok hcalleeFrame
      obtain ⟨f, pushed, call, hf, hpushed, hcall, rfl⟩ := Expression.call_generated h
      cases hcallee.symm.trans hf
      have hhops := (Env.find?_home hfind).2.1
      rw [callCode_ok (show frame.depth + 1 = meaning.hops + calleeFrame.depth by
        rw [hfits.depth_eq]; omega)] at hcall
      cases hcall
      obtain ⟨hgrows, hcoded⟩ := argumentValues_coded arguments harguments hwell henv hframe hpushed
      exact ⟨hgrows, fun hcontains => ⟨meaning, head, body, calleeFrame, pushed, hfind, hentity,
        hcount, hcalleeFrame, hcoded hcontains, rfl⟩⟩
  | unary node operator operand =>
      rw [Expression.Coded]
      rcases Expression.unary_generated h with ⟨hkind, hc⟩ | ⟨hkind, hc⟩ | ⟨c, hc, hkind⟩
      · simp only [hkind]
        exact operand.value_coded hbound.2 hwell henv hframe hc
      · simp only [hkind]
        exact operand.address_coded hbound.2 hwell henv hframe hc
      · obtain ⟨hgrows, hcoded⟩ := operand.value_coded hbound.2 hwell henv hframe hc
        refine ⟨hgrows, fun hcontains => ?_⟩
        rcases hkind with ⟨hkind, rfl⟩ | ⟨hkind, rfl⟩ | ⟨hkind, rfl⟩ <;> simp only [hkind]
        · exact ⟨c, hcoded hcontains, rfl⟩
        · exact ⟨c, hcoded hcontains, rfl⟩
        · exact ⟨c, hcoded hcontains, ⟨frame, g, _, hc⟩, rfl⟩
  | binary node operator left right =>
      obtain ⟨r, g₁, l, hr, hl, rfl⟩ := Expression.binary_generated h
      obtain ⟨hgrows₁, hcoded₁⟩ := right.value_coded hbound.2 hwell.2 henv hframe hr
      obtain ⟨hgrows₂, hcoded₂⟩ := left.value_coded hbound.1 hwell.1 henv hframe hl
      exact ⟨hgrows₁.trans hgrows₂, fun hcontains =>
        ⟨r, l, hcoded₁ (hgrows₂.contains hcontains), hcoded₂ hcontains, rfl⟩⟩

theorem Expression.address_coded (e : Expression) {g g' : Generated} {code : Code}
    (hbound : e.Bound T.context.definitions env) (hwell : e.WellFormed)
    (henv : env.Placed T.layout used limit) (hframe : frame.depth = env.depth)
    (h : e.address T.context frame g = .ok (code, g')) :
    g.Grows [] g' ∧ (T.Contains g' → e.AddressCoded T env code) := by
  cases e with
  | literal node value => cases h
  | name node name =>
      obtain ⟨haddress, rfl⟩ := Expression.name_address_generated h
      obtain ⟨place, hplace, hok⟩ := nameAddress_ok hbound henv hframe
      exact ⟨.refl _, fun _ => ⟨place, hplace, Except.ok.inj (haddress.symm.trans hok)⟩⟩
  | call node callee arguments => cases h
  | unary node operator operand =>
      obtain ⟨hkind, hvalue⟩ := Expression.unary_address_generated h
      obtain ⟨hgrows, hcoded⟩ := operand.value_coded hbound.2 hwell henv hframe hvalue
      exact ⟨hgrows, fun hcontains => ⟨hkind, hcoded hcontains⟩⟩
  | binary node operator left right => cases h

theorem argumentValues_coded (es : List Expression) {g g' : Generated} {code : Code}
    (hbound : BoundExpressions T.context.definitions env es) (hwell : WellFormedExpressions es)
    (henv : env.Placed T.layout used limit) (hframe : frame.depth = env.depth)
    (h : argumentValues T.context frame es g = .ok (code, g')) :
    g.Grows [] g' ∧ (T.Contains g' → CodedArguments T env es code) := by
  cases es with
  | nil =>
      cases h
      exact ⟨.refl g, fun _ => rfl⟩
  | cons e es =>
      obtain ⟨others, g₁, first, hothers, hfirst, rfl⟩ := argumentValues_cons_generated h
      obtain ⟨hgrows₁, hcoded₁⟩ := argumentValues_coded es hbound.2 hwell.2 henv hframe hothers
      obtain ⟨hgrows₂, hcoded₂⟩ := e.value_coded hbound.1 hwell.1 henv hframe hfirst
      exact ⟨hgrows₁.trans hgrows₂, fun hcontains =>
        ⟨others, first, hcoded₁ (hgrows₂.contains hcontains), hcoded₂ hcontains, rfl⟩⟩

end

/-! ## Statements -/

theorem mem_toList_push {α : Type} (xs : Array α) (x : α) : x ∈ (xs.push x).toList := by
  simp

theorem emitLocal_coded {head : Variable} {before after : Int} (hdepth : 0 < env.depth)
    (hplaced : head.Placed T.layout env.depth before after)
    (h : emitLocal T.context head g = .ok (code, g')) :
    g.Grows [.var head] g' ∧ (T.Contains g' → head.Coded T env code) := by
  obtain ⟨hsized, hplaced⟩ := hplaced
  rw [if_neg (by omega)] at hplaced
  obtain ⟨offset, depth, size, contents, haccess, rfl, rfl⟩ := emitLocal_generated h
  cases hplaced.1.symm.trans haccess
  refine ⟨.variable' g head _ _, fun hcontains => ?_⟩
  rw [Variable.Coded, if_neg (by omega)]
  exact ⟨hsized, _, g.labels.next, hplaced.1, hcontains.storage _ (mem_toList_push _ _), rfl⟩

theorem emitGlobal_coded {head : Variable} {before after : Int} (hdepth : env.depth = 0)
    (hplaced : head.Placed T.layout env.depth before after) {u : Unit}
    (h : emitGlobal T.context head g = .ok (u, g')) :
    g.Grows [.var head] g' ∧ (T.Contains g' → head.Coded T env []) := by
  obtain ⟨hsized, hplaced⟩ := hplaced
  rw [if_pos hdepth] at hplaced
  obtain ⟨label, size, contents, haccess, rfl⟩ := emitGlobal_generated h
  cases hplaced.1.symm.trans haccess
  refine ⟨.variable' g head _ g.labels, fun hcontains => ?_⟩
  rw [Variable.Coded, if_pos hdepth]
  exact ⟨hsized, hplaced.1, hcontains.storage _ (mem_toList_push _ _)⟩

mutual

theorem Statement.generate_coded (s : Statement) {env : Env} {used limit before after : Int}
    {frame : Frame} {keep : Bool} {g g' : Generated} {code : Code}
    (hbound : s.Bound T.context.definitions env) (hwell : s.WellFormed)
    (henv : env.Placed T.layout used limit)
    (hplaced : s.Placed T.layout env.depth before after) (hused : used ≤ before)
    (hlimit : after ≤ limit) (hdepth : 0 < env.depth) (hframe : frame.depth = env.depth)
    (h : s.generate T.context frame keep g = .ok (code, g')) :
    g.Grows s.inside g' ∧ (T.Contains g' → s.Coded T env keep code) := by
  cases s with
  | eval node value =>
      obtain ⟨c, hc, rfl⟩ := Statement.eval_generated h
      obtain ⟨hgrows, hcoded⟩ := value.value_coded hbound hwell henv hframe hc
      exact ⟨hgrows, fun hcontains => ⟨c, hcoded hcontains, rfl⟩⟩
  | assign node target source =>
      obtain ⟨v, g₁, a, hv, ha, rfl⟩ := Statement.assign_generated h
      obtain ⟨hgrows₁, hcoded₁⟩ := source.value_coded hbound.2.2 hwell.2 henv hframe hv
      obtain ⟨hgrows₂, hcoded₂⟩ := target.address_coded hbound.2.1 hwell.1 henv hframe ha
      exact ⟨hgrows₁.trans hgrows₂, fun hcontains =>
        ⟨v, a, hcoded₁ (hgrows₂.contains hcontains), hcoded₂ hcontains, rfl⟩⟩
  | branch node condition positive negative =>
      obtain ⟨p, g₁, q, g₂, c, hp, hq, hc, rfl⟩ := Statement.branch_generated h
      obtain ⟨between, hpositive, hnegative⟩ := hplaced
      have hle₁ := hpositive.before_le
      have hle₂ := hnegative.before_le
      obtain ⟨hgrows₁, hcoded₁⟩ := generateStatements_coded positive hbound.2.1 hwell.2.1 henv
        hpositive hused (hle₂.trans hlimit) hdepth hframe hp
      obtain ⟨hgrows₂, hcoded₂⟩ := generateStatements_coded negative hbound.2.2 hwell.2.2 henv
        hnegative (hused.trans hle₁) hlimit hdepth hframe hq
      obtain ⟨hgrows₃, hcoded₃⟩ := condition.value_coded hbound.1 hwell.1 henv hframe hc
      have hgrows := ((Generated.Grows.labels g _).trans hgrows₁).trans (hgrows₂.trans hgrows₃)
      refine ⟨by simpa [Statement.inside] using hgrows, fun hcontains => ?_⟩
      have hcontains₃ := hgrows₃.contains hcontains
      exact ⟨g.labels.next, p, q, c, hcoded₁ (hgrows₂.contains hcontains₃), hcoded₂ hcontains₃,
        hcoded₃ hcontains, rfl⟩
  | loop node condition body =>
      obtain ⟨c, g₁, p, hc, hp, rfl⟩ := Statement.loop_generated h
      obtain ⟨hgrows₁, hcoded₁⟩ := condition.value_coded hbound.1 hwell.1 henv hframe hc
      obtain ⟨hgrows₂, hcoded₂⟩ := generateStatements_coded body hbound.2 hwell.2 henv hplaced
        hused hlimit hdepth hframe hp
      have hgrows := ((Generated.Grows.labels g _).trans hgrows₁).trans hgrows₂
      exact ⟨hgrows, fun hcontains => ⟨g.labels.next, c, p,
        hcoded₁ (hgrows₂.contains hcontains), hcoded₂ hcontains, rfl⟩⟩
  | block node ds body =>
      obtain ⟨entry, g₁, c, hentry, hc, rfl⟩ := Statement.block_generated h
      obtain ⟨between, hds, hbody⟩ := hplaced
      have hle := hbody.before_le
      have henv' : Env.Placed T.layout (.definitions ds :: env) between limit :=
        .definitions henv hused hds (hle.trans hlimit)
      rw [← Env.depth_definitions ds env] at hds hbody hdepth hframe
      obtain ⟨hgrows₁, hcoded₁⟩ := generateDefinitions_coded ds hbound.2.1 hwell.1 henv' hds
        hdepth hentry
      obtain ⟨hgrows₂, hcoded₂⟩ := generateStatements_coded body hbound.2.2 hwell.2 henv' hbody
        le_rfl hlimit hdepth hframe hc
      exact ⟨hgrows₁.trans hgrows₂, fun hcontains =>
        ⟨entry, c, hcoded₁ (hgrows₂.contains hcontains), hcoded₂ hcontains, rfl⟩⟩

theorem generateStatements_coded (ss : List Statement) {env : Env}
    {used limit before after : Int} {frame : Frame} {keep : Bool} {g g' : Generated} {code : Code}
    (hbound : BoundStatements T.context.definitions env ss) (hwell : WellFormedStatements ss)
    (henv : env.Placed T.layout used limit)
    (hplaced : PlacedStatements T.layout env.depth before after ss) (hused : used ≤ before)
    (hlimit : after ≤ limit) (hdepth : 0 < env.depth) (hframe : frame.depth = env.depth)
    (h : generateStatements T.context frame keep ss g = .ok (code, g')) :
    g.Grows (statementsInside ss) g' ∧ (T.Contains g' → CodedStatements T env keep ss code) := by
  match ss with
  | [] =>
      cases h
      exact ⟨.refl g, fun _ => rfl⟩
  | [s] =>
      obtain ⟨between, hs, hnil⟩ := hplaced
      cases hnil
      obtain ⟨hgrows, hcoded⟩ := s.generate_coded hbound.1 hwell.1 henv hs hused hlimit hdepth
        hframe (generateStatements_single_generated h)
      exact ⟨by simpa [statementsInside] using hgrows, hcoded⟩
  | s :: s' :: ss =>
      obtain ⟨first, g₁, others, hfirst, hothers, rfl⟩ := generateStatements_cons_generated h
      obtain ⟨between, hs, hss⟩ := hplaced
      have hle₁ := hs.before_le
      have hle₂ := PlacedStatements.before_le hss
      obtain ⟨hgrows₁, hcoded₁⟩ := s.generate_coded hbound.1 hwell.1 henv hs hused
        (hle₂.trans hlimit) hdepth hframe hfirst
      obtain ⟨hgrows₂, hcoded₂⟩ := generateStatements_coded (s' :: ss) hbound.2 hwell.2 henv hss
        (hused.trans hle₁) hlimit hdepth hframe hothers
      exact ⟨hgrows₁.trans hgrows₂, fun hcontains =>
        ⟨first, others, hcoded₁ (hgrows₂.contains hcontains), hcoded₂ hcontains, rfl⟩⟩

theorem Definition.generate_coded (d : Definition) {env : Env} {used limit before after : Int}
    {g g' : Generated} {code : Code} (hbound : d.Bound T.context.definitions env)
    (hwell : d.WellFormed) (henv : env.Placed T.layout used limit)
    (hplaced : d.Placed T.layout env.depth before after)
    (hdepth : 0 < env.depth ∨ ∃ head body, d = .func head body)
    (h : d.generate T.context g = .ok (code, g')) :
    g.Grows d.inside g' ∧ (T.Contains g' → d.Coded T env code) := by
  cases d with
  | var head =>
      rcases hdepth with hdepth | ⟨_, _, hd⟩
      · exact emitLocal_coded hdepth hplaced (Definition.var_generated h)
      · cases hd
  | func head body =>
      obtain ⟨rfl, ⟨rfl, rfl⟩ | ⟨hbody, frame, c, g₁, hframe, hc, rfl⟩⟩ := Definition.func_generated h
      · exact ⟨.declared g' head, fun _ => ⟨rfl, fun hne => absurd rfl hne⟩⟩
      · obtain ⟨frame', hframe', hfits, henv', hplacedBody⟩ := henv.enter hplaced
        obtain rfl := Option.some.inj (hframe.symm.trans hframe')
        rw [← Env.depth_parameters head env] at hplacedBody
        obtain ⟨hgrows, hcoded⟩ := generateStatements_coded body hbound.2 hwell.2 henv' hplacedBody
          le_rfl le_rfl (by simp) (by rw [hfits.depth_eq, Env.depth_parameters]) hc
        have hlast := Generated.Grows.function g₁ head (functionCode head frame c) hbody
        refine ⟨(hgrows.trans hlast).perm ?_, fun hcontains => ⟨rfl, fun _ =>
          ⟨frame, c, hframe, hcoded (hlast.contains hcontains), ?_⟩⟩⟩
        · exact List.perm_append_comm
        · exact hcontains.functions _ (mem_toList_push _ _)

theorem generateDefinitions_coded (ds : List Definition) {env : Env}
    {used limit before after : Int} {g g' : Generated} {code : Code}
    (hbound : BoundDefinitions T.context.definitions env ds) (hwell : WellFormedDefinitions ds)
    (henv : env.Placed T.layout used limit)
    (hplaced : PlacedDefinitions T.layout env.depth before after ds) (hdepth : 0 < env.depth)
    (h : generateDefinitions T.context ds g = .ok (code, g')) :
    g.Grows (definitionsInside ds) g' ∧ (T.Contains g' → CodedDefinitions T env ds code) := by
  cases ds with
  | nil =>
      cases h
      exact ⟨.refl g, fun _ => rfl⟩
  | cons d ds =>
      obtain ⟨first, g₁, others, hfirst, hothers, rfl⟩ := generateDefinitions_cons_generated h
      obtain ⟨between, hd, hds⟩ := hplaced
      obtain ⟨hgrows₁, hcoded₁⟩ := d.generate_coded hbound.1 hwell.1 henv hd (.inl hdepth) hfirst
      obtain ⟨hgrows₂, hcoded₂⟩ := generateDefinitions_coded ds hbound.2 hwell.2 henv hds hdepth
        hothers
      exact ⟨hgrows₁.trans hgrows₂, fun hcontains =>
        ⟨first, others, hcoded₁ (hgrows₂.contains hcontains), hcoded₂ hcontains, rfl⟩⟩

end

end

end NestedFun
