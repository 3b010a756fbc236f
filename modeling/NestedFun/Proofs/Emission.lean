import NestedFun.Proofs.LabelNumbers
import NestedFun.Proofs.Parts

namespace NestedFun

/-!
# Labels of generated code

Which labels generating defines and which it names. Every number that the supply gives out is used
up by one block of data, one branch or one loop, and all its labels end up in the code or the data
once. The labels that are named besides these are those of the globals and functions that the
program refers to.
-/

/-! ## What generating uses up -/

namespace Generated

def code (g : Generated) : Code := g.functions.toList.flatMap Prod.snd

def data (g : Generated) : Data := g.storage.toList.flatMap Prod.snd ++ g.strings.toList.flatten

def defined (g : Generated) : List String := g.code.labels ++ g.data.labels

theorem mem_defined_string {g : Generated} {labels : LabelSupply} {data : Data} {label : String} :
    label ∈ defined ⟨labels, g.functions, g.storage, g.strings.push data⟩ ↔
      label ∈ g.defined ∨ label ∈ data.labels := by
  simp only [defined, code, Generated.data, Array.toList_push, List.flatten_append,
    List.flatten_cons, List.flatten_nil, List.append_nil, Data.labels_append, List.mem_append,
    or_assoc]

theorem mem_defined_variable {g : Generated} {labels : LabelSupply} {id : NodeId} {data : Data}
    {label : String} : label ∈ defined ⟨labels, g.functions, g.storage.push (id, data), g.strings⟩ ↔
      label ∈ g.defined ∨ label ∈ data.labels := by
  simp only [defined, code, Generated.data, Array.toList_push, List.flatMap_append,
    List.flatMap_cons, List.flatMap_nil, List.append_nil, Data.labels_append, List.mem_append]
  grind

theorem code_function (g : Generated) (id : NodeId) (c : Code) :
    Generated.code { g with functions := g.functions.push (id, c) } = g.code ++ c := by
  simp [code]

/-- Generating used up numbers for the labels that it defined or left over, and besides defined
labels `own`. -/
def Defines (g : Generated) (own left : List String) (g' : Generated) : Prop :=
  ∃ uses : List LabelUse, g'.labels.next = g.labels.next + uses.length ∧
    (g'.defined ++ left).Perm (g.defined ++ (labelsFrom g.labels.next uses ++ own))

namespace Defines

variable {g g' g'' : Generated} {own own' left left' : List String}

theorem refl (g : Generated) : Defines g [] [] g :=
  ⟨[], rfl, .refl _⟩

theorem trans (h : Defines g own left g') (h' : Defines g' own' left' g'') :
    Defines g (own ++ own') (left ++ left') g'' := by
  obtain ⟨uses, hnext, hperm⟩ := h
  obtain ⟨uses', hnext', hperm'⟩ := h'
  refine ⟨uses ++ uses', by rw [hnext', hnext, List.length_append, Nat.add_assoc], ?_⟩
  rw [List.perm_iff_count] at *
  intro l
  have h₁ := hperm l
  have h₂ := hperm' l
  rw [hnext] at h₂
  simp only [labelsFrom_append, List.count_append] at *
  omega

/-- The order of labels does not matter. -/
theorem perm (h : Defines g own left g') (hown : own.Perm own') (hleft : left.Perm left') :
    Defines g own' left' g' := by
  obtain ⟨uses, hnext, hperm⟩ := h
  exact ⟨uses, hnext, (hleft.symm.append_left _).trans
    (hperm.trans ((hown.append_left _).append_left _))⟩

/-- A number is taken from the supply. -/
theorem fresh (g : Generated) (use : LabelUse) :
    Defines g [] (use.labels g.labels.next) { g with labels := ⟨g.labels.next + 1⟩ } :=
  ⟨[use], rfl, by simp [labelsFrom, defined, code, data]⟩

/-- Labels that were left over are defined by the code of a function, beside one of its own. -/
theorem function (h : Defines g own left g') (id : NodeId) {code : Code} {label : String}
    (hcode : code.labels.Perm (label :: left)) :
    Defines g (label :: own) [] { g' with functions := g'.functions.push (id, code) } := by
  obtain ⟨uses, hnext, hperm⟩ := h
  refine ⟨uses, hnext, ?_⟩
  rw [List.perm_iff_count] at *
  intro l
  have h₁ := hperm l
  have h₂ := hcode l
  simp only [defined, Generated.code, data, Array.toList_push, List.flatMap_append,
    List.flatMap_cons, List.flatMap_nil, List.append_nil, Code.labels_append, List.count_append,
    List.count_cons] at *
  omega

/-- Labels that were left over are defined by the data of a variable. -/
theorem variable' (h : Defines g own left g') (id : NodeId) {data : Data} {more : List String}
    (hdata : data.labels.Perm (more ++ left)) :
    Defines g (more ++ own) [] { g' with storage := g'.storage.push (id, data) } := by
  obtain ⟨uses, hnext, hperm⟩ := h
  refine ⟨uses, hnext, ?_⟩
  rw [List.perm_iff_count] at *
  intro l
  have h₁ := hperm l
  have h₂ := hdata l
  simp only [defined, code, Generated.data, Array.toList_push, List.flatMap_append,
    List.flatMap_cons, List.flatMap_nil, List.append_nil, Data.labels_append, List.count_append]
    at *
  omega

/-- Labels that were left over are defined by a string. -/
theorem string (h : Defines g own left g') {data : Data} (hdata : data.labels.Perm left) :
    Defines g own [] { g' with strings := g'.strings.push data } := by
  obtain ⟨uses, hnext, hperm⟩ := h
  refine ⟨uses, hnext, ?_⟩
  rw [List.perm_iff_count] at *
  intro l
  have h₁ := hperm l
  have h₂ := hdata l
  simp only [defined, code, Generated.data, Array.toList_push, List.flatten_append,
    List.flatten_cons, List.flatten_nil, List.append_nil, Data.labels_append, List.count_append]
    at *
  omega

end Defines

end Generated

/-- A label that code names on behalf of an expression: that of the global or of the function that
it refers to. -/
inductive Context.Refers (context : Context) : Expression → String → Prop
  | global {node : Node} {name : Identifier} {label : String} {size : Int} {contents : Contents}
      (h : context.accessOf node.id = .ok (.absolute label size contents)) :
      Refers context (.name node name) label
  | callee {node : Node} {name : Identifier} {arguments : List Expression} {frame : Frame}
      (h : context.calleeOf node.id = .ok frame) :
      Refers context (.call node name arguments) frame.label

/-- Generating led from `g` to `g'` and gave `code`. All names in it are defined, or some of the
expressions `uses` refer to them; and all that these refer to are named. -/
structure Generated.Names (context : Context) (g : Generated) (uses : List Expression) (code : Code)
    (g' : Generated) : Prop where
  code_subset : g.code ⊆ g'.code
  defined_subset : g.defined ⊆ g'.defined
  named : ∀ label ∈ (g'.code ++ code).names, label ∈ g.code.names ∨ label ∈ g'.defined ∨
    label ∈ code.labels ∨ ∃ e ∈ uses, context.Refers e label
  refers : ∀ e ∈ uses, ∀ label, context.Refers e label → label ∈ (g'.code ++ code).names

namespace Generated.Names

variable {context : Context} {g g' g'' : Generated} {uses uses' : List Expression}
  {code code' : Code}

theorem names_subset {a b : Code} (h : a ⊆ b) : a.names ⊆ b.names :=
  List.filterMap_subset _ h

/-- Code that names nothing. -/
theorem silent (g : Generated) (hcode : code.names = []) : Names context g [] code g where
  code_subset := List.Subset.refl _
  defined_subset := List.Subset.refl _
  named label hlabel := by
    rw [Code.names_append, hcode, List.append_nil] at hlabel
    exact .inl hlabel
  refers := nofun

/-- Data are added, and the code names only what is defined then. -/
theorem data (hfunctions : g'.functions = g.functions) (hdefined : g.defined ⊆ g'.defined)
    (hnames : code.names ⊆ g'.defined) : Names context g [] code g' where
  code_subset := by
    rw [Generated.code, Generated.code, hfunctions]
    exact List.Subset.refl _
  defined_subset := hdefined
  named label hlabel := by
    rw [Code.names_append, List.mem_append, Generated.code, hfunctions] at hlabel
    exact hlabel.imp_right fun hmem => .inl (hnames hmem)
  refers := nofun

theorem trans (h : Names context g uses code g') (h' : Names context g' uses' code' g'') :
    Names context g (uses ++ uses') (code ++ code') g'' where
  code_subset := List.Subset.trans h.code_subset h'.code_subset
  defined_subset := List.Subset.trans h.defined_subset h'.defined_subset
  named label hlabel := by
    have hfirst (hmem : label ∈ (g'.code ++ code).names) := h.named label hmem
    have hsecond (hmem : label ∈ (g''.code ++ code').names) := h'.named label hmem
    have hdefined := @h'.defined_subset label
    simp only [Code.names_append, Code.labels_append, List.mem_append] at *
    grind
  refers e he label hrefers := by
    have hcode := @names_subset _ _ h'.code_subset label
    rcases List.mem_append.mp he with he | he
    · have := h.refers e he label hrefers
      simp only [Code.names_append, List.mem_append] at *
      grind
    · have := h'.refers e he label hrefers
      simp only [Code.names_append, List.mem_append] at *
      grind

/-- Code is put around other code, or in another order, and names only what it defines besides. -/
theorem wrap (h : Names context g uses code g')
    (hnames : ∀ label ∈ code'.names, label ∈ code.names ∨ label ∈ code'.labels)
    (hkept : code.names ⊆ code'.names) (hlabels : code.labels ⊆ code'.labels) :
    Names context g uses code' g' where
  code_subset := h.code_subset
  defined_subset := h.defined_subset
  named label hlabel := by
    have hnamed := h.named label
    have hnew := hnames label
    have hlabel' := @hlabels label
    simp only [Code.names_append, List.mem_append] at *
    grind
  refers e he label hrefers := by
    have := h.refers e he label hrefers
    have hkept' := @hkept label
    simp only [Code.names_append, List.mem_append] at *
    grind

/-- Only what the expressions refer to matters. -/
theorem congr_uses (h : Names context g uses code g')
    (huses : ∀ label, (∃ e ∈ uses', context.Refers e label) ↔ ∃ e ∈ uses, context.Refers e label) :
    Names context g uses' code g' where
  code_subset := h.code_subset
  defined_subset := h.defined_subset
  named label hlabel := by
    rw [huses label]
    exact h.named label hlabel
  refers e he label hrefers := by
    obtain ⟨e', he', hrefers'⟩ := (huses label).mp ⟨e, he, hrefers⟩
    exact h.refers e' he' label hrefers'

end Generated.Names

/-- What generating code for some expressions or statements has done. -/
structure Generated.Emits (context : Context) (g : Generated) (own : List String)
    (uses : List Expression) (code : Code) (g' : Generated) : Prop where
  defines : g.Defines own code.labels g'
  names : g.Names context uses code g'

namespace Generated.Emits

variable {context : Context} {g g' g'' : Generated} {own own' : List String}
  {uses uses' : List Expression} {code code' : Code}

/-- Code without labels and names. -/
theorem silent (g : Generated) (hlabels : code.labels = []) (hnames : code.names = []) :
    Emits context g [] [] code g :=
  ⟨hlabels ▸ .refl g, .silent g hnames⟩

theorem trans (h : Emits context g own uses code g') (h' : Emits context g' own' uses' code' g'') :
    Emits context g (own ++ own') (uses ++ uses') (code ++ code') g'' :=
  ⟨by simpa using h.defines.trans h'.defines, h.names.trans h'.names⟩

/-- Code without labels and names is put behind. -/
theorem append (h : Emits context g own uses code g') (hlabels : code'.labels = [])
    (hnames : code'.names = []) : Emits context g own uses (code ++ code') g' := by
  simpa using h.trans (silent g' hlabels hnames)

/-- The order of labels does not matter. -/
theorem perm_own (h : Emits context g own uses code g') (hown : own.Perm own') :
    Emits context g own' uses code g' :=
  ⟨h.defines.perm hown (.refl _), h.names⟩

/-- Code without labels that names what one expression refers to. -/
theorem referring (g : Generated) {e : Expression} (hlabels : code.labels = [])
    (hnames : ∀ label, label ∈ code.names ↔ context.Refers e label) :
    Emits context g [] [e] code g where
  defines := hlabels ▸ .refl g
  names := {
    code_subset := List.Subset.refl _
    defined_subset := List.Subset.refl _
    named := by
      intro label hlabel
      rw [Code.names_append, List.mem_append] at hlabel
      rcases hlabel with hlabel | hlabel
      · exact .inl hlabel
      · exact .inr (.inr (.inr ⟨e, List.mem_singleton_self e, (hnames label).mp hlabel⟩))
    refers := by
      intro e' he' label hrefers
      obtain rfl := List.mem_singleton.mp he'
      rw [Code.names_append]
      exact List.mem_append_right _ ((hnames label).mpr hrefers) }

theorem congr_uses (h : Emits context g own uses code g')
    (huses : ∀ label, (∃ e ∈ uses', context.Refers e label) ↔ ∃ e ∈ uses, context.Refers e label) :
    Emits context g own uses' code g' :=
  ⟨h.defines, h.names.congr_uses huses⟩

/-- The labels of a fresh number are put into the code. -/
theorem labelled (use : LabelUse)
    (h : Emits context { g with labels := ⟨g.labels.next + 1⟩ } own uses code g')
    (hlabels : code'.labels.Perm (use.labels g.labels.next ++ code.labels))
    (hnames : ∀ label ∈ code'.names, label ∈ code.names ∨ label ∈ code'.labels)
    (hkept : code.names ⊆ code'.names) : Emits context g own uses code' g' where
  defines := ((Generated.Defines.fresh g use).trans h.defines).perm (.refl _) hlabels.symm
  names := by
    have hsubset : code.labels ⊆ code'.labels := fun label hlabel =>
      hlabels.mem_iff.mpr (List.mem_append_right _ hlabel)
    exact { h.names.wrap hnames hkept hsubset with }

/-- The code of a body becomes that of a function. -/
theorem function (h : Emits context g own uses code g') (id : NodeId) {label : String}
    (hlabels : code'.labels.Perm (label :: code.labels)) (hnames : code'.names = code.names) :
    Emits context g (label :: own) uses []
      { g' with functions := g'.functions.push (id, code') } where
  defines := h.defines.function id hlabels
  names := by
    have hdefined : g'.defined ⊆
        Generated.defined { g' with functions := g'.functions.push (id, code') } := by
      intro l hl
      simp only [Generated.defined, Generated.code_function, Code.labels_append,
        List.mem_append] at hl ⊢
      exact hl.imp_left .inl
    have hplaced : code.labels ⊆
        Generated.defined { g' with functions := g'.functions.push (id, code') } := by
      intro l hl
      simp only [Generated.defined, Generated.code_function, Code.labels_append, List.mem_append]
      exact .inl (.inr (hlabels.mem_iff.mpr (List.mem_cons_of_mem _ hl)))
    constructor
    · rw [Generated.code_function]
      exact List.subset_append_of_subset_left _ h.names.code_subset
    · exact List.Subset.trans h.names.defined_subset hdefined
    · intro l hl
      rw [Generated.code_function, List.append_nil, Code.names_append, hnames,
        ← Code.names_append] at hl
      rcases h.names.named l hl with hl | hl | hl | hl
      · exact .inl hl
      · exact .inr (.inl (hdefined hl))
      · exact .inr (.inl (hplaced hl))
      · exact .inr (.inr (.inr hl))
    · intro e he l hrefers
      rw [Generated.code_function, List.append_nil, Code.names_append, hnames,
        ← Code.names_append]
      exact h.names.refers e he l hrefers

/-- A constant refers to nothing. -/
theorem literal (h : Emits context g own uses code g') (node : Node) (value : Literal) :
    Emits context g own (.literal node value :: uses) code g' := by
  refine h.congr_uses fun label => ?_
  rw [List.exists_mem_cons_iff]
  exact ⟨fun h => h.resolve_left nofun, .inr⟩

/-- An operator refers to nothing itself. -/
theorem unary (h : Emits context g own uses code g') (node : Node) (operator : UnaryOperator)
    (operand : Expression) : Emits context g own (.unary node operator operand :: uses) code g' := by
  refine h.congr_uses fun label => ?_
  rw [List.exists_mem_cons_iff]
  exact ⟨fun h => h.resolve_left nofun, .inr⟩

/-- An operator refers to nothing itself, and its operands can be taken in any order. -/
theorem binary (h : Emits context g own (uses ++ uses') code g') (node : Node)
    (operator : BinaryOperator) (left right : Expression) :
    Emits context g own (.binary node operator left right :: (uses' ++ uses)) code g' := by
  refine h.congr_uses fun label => ?_
  simp only [List.exists_mem_cons_iff, List.mem_append, or_and_right, exists_or]
  exact ⟨fun h => (h.resolve_left nofun).symm, fun h => .inr h.symm⟩

end Generated.Emits

/-- A string with a fresh label. -/
theorem string_emits {context : Context} (g : Generated) (span : Span) (words : List Word) :
    g.Emits context [] [] (Code.spanning span [.name (dataLabel g.labels.next)])
      ⟨⟨g.labels.next + 1⟩, g.functions, g.storage, g.strings.push
        (Data.spanning span (.label (dataLabel g.labels.next) :: words.map .word))⟩ where
  defines := by
    refine (Generated.Defines.fresh g .data).string ?_
    rw [Data.labels_spanning, List.filterMap_cons, filterMap_label?_words]
    exact .refl _
  names := by
    refine .data rfl ?_ ?_
    · exact fun label hlabel => Generated.mem_defined_string.mpr (.inl hlabel)
    · intro label hlabel
      obtain rfl := List.mem_singleton.mp hlabel
      exact Generated.mem_defined_string.mpr (.inr List.mem_cons_self)

theorem Context.accessOf_eq {context : Context} {id : NodeId} {access access' : Access}
    (h : context.accessOf id = .ok access) (h' : context.accessOf id = .ok access') :
    access = access' :=
  Except.ok.inj (h.symm.trans h')

/-- The code of an address names the label of a global. -/
theorem nameAddress_emits {context : Context} {frame : Frame} {node : Node} {name : Identifier}
    {code : Code} (g : Generated) (h : nameAddress context frame node = .ok code) :
    g.Emits context [] [.name node name] code g := by
  obtain ⟨access, haccess, h⟩ := bind_eq_ok h
  cases access with
  | absolute label size contents =>
      cases h
      refine .referring g rfl fun l => ⟨fun hl => ?_, ?_⟩
      · obtain rfl := List.mem_singleton.mp hl
        exact .global haccess
      · rintro (haccess' | _)
        cases Context.accessOf_eq haccess haccess'
        exact List.mem_singleton_self _
  | relative offset depth size contents =>
      simp only at h
      split at h
      · cases h
        have hsilent : g.Emits context [] []
            (Code.spanning node.span (frameAddress (frame.depth - depth) ++
              [.push (.ofInt offset), .oper .add])) g :=
          .silent g (by simp [Instruction.label?]) (by simp [Instruction.name?])
        refine hsilent.congr_uses fun l => ?_
        simp only [List.mem_singleton, exists_eq_left, List.not_mem_nil, false_and, exists_false,
          iff_false]
        rintro (haccess' | _)
        cases Context.accessOf_eq haccess haccess'
      · cases h

theorem callCode_emits {context : Context} {frame callee : Frame} {node : Node} {name : Identifier}
    {arguments : List Expression} {code : Code} (g : Generated)
    (hcallee : context.calleeOf node.id = .ok callee) (h : callCode frame callee node = .ok code) :
    g.Emits context [] [.call node name arguments] code g := by
  rw [callCode] at h
  split at h
  · cases h
    have hnames : ∀ hops, (Code.spanning node.span
        (frameAddress hops ++ [.name callee.label, .call callee])).names = [callee.label] := by
      intro hops
      simp [Instruction.name?]
    refine .referring g (by simp [Instruction.label?]) fun l => ?_
    rw [hnames, List.mem_singleton]
    constructor
    · rintro rfl
      exact .callee hcallee
    · rintro (_ | hcallee')
      cases hcallee.symm.trans hcallee'
      rfl
  · cases h

mutual

theorem Expression.value_emits (e : Expression) {context : Context} {frame : Frame}
    {g g' : Generated} {code : Code} (h : e.value context frame g = .ok (code, g')) :
    g.Emits context [] e.parts code g' := by
  cases e with
  | literal node value =>
      refine .literal ?_ node value
      rcases Expression.literal_generated h with ⟨-, rfl, rfl⟩ | ⟨-, rfl, rfl⟩
      · exact .silent g' (by simp [Instruction.label?]) (by simp [Instruction.name?])
      · exact string_emits g node.span (value.words ++ [0])
  | name node name =>
      obtain ⟨address, haddress, rfl, rfl⟩ := Expression.name_generated h
      exact (nameAddress_emits _ haddress).append rfl rfl
  | call node callee arguments =>
      obtain ⟨calleeFrame, pushed, call, hcallee, hpushed, hcall, rfl⟩ := Expression.call_generated h
      have hcall' : g'.Emits context [] [.call node callee arguments] call g' :=
        callCode_emits g' hcallee hcall
      refine ((argumentValues_emits arguments hpushed).trans hcall').congr_uses fun l => ?_
      rw [Expression.parts, List.exists_mem_cons_iff]
      simp only [List.mem_append, List.mem_singleton, or_and_right, exists_or, exists_eq_left]
      exact or_comm
  | unary node operator operand =>
      refine .unary ?_ node operator operand
      rcases Expression.unary_generated h with
        ⟨-, hc⟩ | ⟨-, hc⟩ | ⟨c, hc, ⟨-, rfl⟩ | ⟨-, rfl⟩ | ⟨-, rfl⟩⟩
      · exact operand.value_emits hc
      · exact operand.address_emits hc
      all_goals exact (operand.value_emits hc).append rfl rfl
  | binary node operator left right =>
      obtain ⟨r, g₁, l, hr, hl, rfl⟩ := Expression.binary_generated h
      have hoperands := (right.value_emits hr).trans (left.value_emits hl)
      exact (hoperands.append rfl rfl).binary node operator left right

theorem Expression.address_emits (e : Expression) {context : Context} {frame : Frame}
    {g g' : Generated} {code : Code} (h : e.address context frame g = .ok (code, g')) :
    g.Emits context [] e.parts code g' := by
  cases e with
  | literal node value => cases h
  | name node name =>
      obtain ⟨haddress, rfl⟩ := Expression.name_address_generated h
      exact nameAddress_emits _ haddress
  | call node callee arguments => cases h
  | unary node operator operand =>
      exact (operand.value_emits (Expression.unary_address_generated h).2).unary node operator operand
  | binary node operator left right => cases h

theorem argumentValues_emits (es : List Expression) {context : Context} {frame : Frame}
    {g g' : Generated} {code : Code} (h : argumentValues context frame es g = .ok (code, g')) :
    g.Emits context [] (expressionParts es) code g' := by
  cases es with
  | nil =>
      cases h
      exact .silent g rfl rfl
  | cons e es =>
      obtain ⟨others, g₁, first, hothers, hfirst, rfl⟩ := argumentValues_cons_generated h
      refine ((argumentValues_emits es hothers).trans (e.value_emits hfirst)).congr_uses fun l => ?_
      simp only [expressionParts, List.mem_append, or_and_right, exists_or]
      exact or_comm

end

def Definition.functionLabel? (layout : Layout) : Definition → Option String
  | .func head body =>
    if body.isEmpty then none else (layout.frames[head.id]?).map fun frame => frame.label
  | .var _ => none

def functionLabels (layout : Layout) (ds : List Definition) : List String :=
  ds.filterMap (Definition.functionLabel? layout)

theorem functionLabels_append (layout : Layout) (ds ds' : List Definition) :
    functionLabels layout (ds ++ ds') = functionLabels layout ds ++ functionLabels layout ds' :=
  List.filterMap_append

def usedExpressions (uses : List (FunctionHead × Expression)) : List Expression :=
  uses.map Prod.snd

@[simp] theorem usedExpressions_append (uses uses' : List (FunctionHead × Expression)) :
    usedExpressions (uses ++ uses') = usedExpressions uses ++ usedExpressions uses' :=
  List.map_append

@[simp] theorem usedExpressions_uses (head : FunctionHead) (e : Expression) :
    usedExpressions (e.uses head) = e.parts := by
  simp [usedExpressions, Expression.uses]

/-- A local variable leaves no label over. -/
theorem emitLocal_emits {context : Context} {head : Variable} {g g' : Generated} {code : Code}
    (h : emitLocal context head g = .ok (code, g')) : g.Emits context [] [] code g' := by
  obtain ⟨offset, depth, size, contents, -, rfl, rfl⟩ := emitLocal_generated h
  have hlabels : (Data.labels (Data.spanning head.span (.label (dataLabel g.labels.next) ::
      contents.words.map .word))).Perm ([] ++ LabelUse.data.labels g.labels.next) := by
    rw [Data.labels_spanning, List.filterMap_cons, filterMap_label?_words]
    exact .refl _
  refine ⟨(Generated.Defines.fresh g .data).variable' head.id hlabels, .data rfl ?_ ?_⟩
  · exact fun label hlabel => Generated.mem_defined_variable.mpr (.inl hlabel)
  · intro label hlabel
    obtain rfl := List.mem_singleton.mp hlabel
    exact Generated.mem_defined_variable.mpr (.inr List.mem_cons_self)

mutual

theorem Statement.generate_emits (s : Statement) {context : Context} {frame : Frame} {keep : Bool}
    {g g' : Generated} {code : Code} (head : FunctionHead)
    (h : s.generate context frame keep g = .ok (code, g')) :
    g.Emits context (functionLabels context.layout s.inside) (usedExpressions (s.uses head)) code
      g' := by
  cases s with
  | eval node value =>
      obtain ⟨c, hc, rfl⟩ := Statement.eval_generated h
      rw [Statement.uses, usedExpressions_uses]
      refine (value.value_emits hc).append ?_ ?_
      · cases keep <;> rfl
      · cases keep <;> rfl
  | assign node target source =>
      obtain ⟨v, g₁, a, hv, ha, rfl⟩ := Statement.assign_generated h
      have hplaced := (source.value_emits hv).trans (target.address_emits ha)
      refine Generated.Emits.congr_uses ((hplaced.append ?_ ?_).append
        (Code.labels_keptZero node.span keep) (Code.names_keptZero node.span keep)) fun l => ?_
      · rfl
      · rfl
      · simp only [Statement.uses, usedExpressions_append, usedExpressions_uses, List.mem_append,
          or_and_right, exists_or]
        exact or_comm
  | branch node condition positive negative =>
      obtain ⟨p, g₁, q, g₂, c, hp, hq, hc, rfl⟩ := Statement.branch_generated h
      have hinside := ((generateStatements_emits positive head hp).trans
        (generateStatements_emits negative head hq)).trans (condition.value_emits hc)
      rw [Statement.inside, functionLabels_append, ← List.append_nil (_ ++ _)]
      refine (hinside.labelled .branch ?_ ?_ ?_).congr_uses fun l => ?_
      · rw [LabelUse.labels_branch, List.perm_iff_count]
        intro l
        simp only [List.flatten_cons, List.flatten_nil, Code.labels_append, Code.labels_spanning,
          Code.labels_keptZero, List.append_nil, List.filterMap_cons, List.filterMap_nil,
          Instruction.label?, List.count_append, List.count_cons, List.count_nil]
        omega
      · intro l hl
        simp [Instruction.name?, Instruction.label?] at hl ⊢
        grind
      · intro l hl
        simp at hl ⊢
        grind
      · simp only [Statement.uses, usedExpressions_append, usedExpressions_uses, List.mem_append,
          or_and_right, exists_or]
        grind
  | loop node condition body =>
      obtain ⟨c, g₁, p, hc, hp, rfl⟩ := Statement.loop_generated h
      have hinside := (condition.value_emits hc).trans (generateStatements_emits body head hp)
      rw [Statement.uses, usedExpressions_append, usedExpressions_uses]
      refine hinside.labelled .loop ?_ ?_ ?_
      · rw [LabelUse.labels_loop, List.perm_iff_count]
        intro l
        simp only [List.flatten_cons, List.flatten_nil, Code.labels_append, Code.labels_spanning,
          Code.labels_keptZero, List.append_nil, List.filterMap_cons, List.filterMap_nil,
          Instruction.label?, List.count_append, List.count_cons, List.count_nil]
        omega
      · intro l hl
        simp [Instruction.name?, Instruction.label?] at hl ⊢
        grind
      · intro l hl
        simp at hl ⊢
        grind
  | block node ds body =>
      obtain ⟨entry, g₁, c, hentry, hc, rfl⟩ := Statement.block_generated h
      rw [Statement.uses, usedExpressions_append, Statement.inside, functionLabels_append]
      exact (generateDefinitions_emits ds hentry).trans (generateStatements_emits body head hc)

theorem generateStatements_emits (ss : List Statement) {context : Context} {frame : Frame}
    {keep : Bool} {g g' : Generated} {code : Code} (head : FunctionHead)
    (h : generateStatements context frame keep ss g = .ok (code, g')) :
    g.Emits context (functionLabels context.layout (statementsInside ss))
      (usedExpressions (statementsUses head ss)) code g' := by
  match ss with
  | [] =>
      cases h
      exact .silent g (Code.labels_keptZero .nowhere keep) (Code.names_keptZero .nowhere keep)
  | [s] =>
      rw [statementsInside, statementsInside, List.append_nil, statementsUses, statementsUses,
        List.append_nil]
      exact s.generate_emits head (generateStatements_single_generated h)
  | s :: s' :: ss =>
      obtain ⟨first, g₁, others, hfirst, hothers, rfl⟩ := generateStatements_cons_generated h
      rw [statementsInside, functionLabels_append, statementsUses, usedExpressions_append]
      exact (s.generate_emits head hfirst).trans (generateStatements_emits (s' :: ss) head hothers)

theorem Definition.generate_emits (d : Definition) {context : Context} {g g' : Generated}
    {code : Code} (h : d.generate context g = .ok (code, g')) :
    g.Emits context (functionLabels context.layout d.inside) (usedExpressions d.uses) code g' := by
  cases d with
  | var head => exact emitLocal_emits (Definition.var_generated h)
  | func head body =>
      obtain ⟨rfl, ⟨rfl, rfl⟩ | ⟨hbody, frame, c, g₁, hframe, hc, rfl⟩⟩ := Definition.func_generated h
      · exact .silent g' rfl rfl
      · rw [Definition.inside, functionLabels, List.filterMap_cons, Definition.functionLabel?,
          if_neg (by rwa [List.isEmpty_iff]), hframe]
        refine (generateStatements_emits body head hc).function head.id ?_ ?_
        · exact .of_eq (Code.labels_functionCode head frame c)
        · exact Code.names_functionCode head frame c

theorem generateDefinitions_emits (ds : List Definition) {context : Context} {g g' : Generated}
    {code : Code} (h : generateDefinitions context ds g = .ok (code, g')) :
    g.Emits context (functionLabels context.layout (definitionsInside ds))
      (usedExpressions (definitionsUses ds)) code g' := by
  cases ds with
  | nil =>
      cases h
      exact .silent g rfl rfl
  | cons d ds =>
      obtain ⟨first, g₁, others, hfirst, hothers, rfl⟩ := generateDefinitions_cons_generated h
      rw [definitionsInside, functionLabels_append, definitionsUses, usedExpressions_append]
      exact (d.generate_emits hfirst).trans (generateDefinitions_emits ds hothers)

end

def Definition.variableName? : Definition → Option String
  | .func _ _ => none
  | .var head => some head.name.text

/-- Globals are stored at labels of their own names. -/
theorem emitGlobal_emits {context : Context} {head : Variable} {g g' : Generated} {u : Unit}
    {size : Int} {contents : Contents}
    (haccess : context.layout.accesses[head.id]? = some (.absolute head.name.text size contents))
    (h : emitGlobal context head g = .ok (u, g')) :
    g.Emits context [head.name.text] [] [] g' := by
  obtain ⟨label, size', contents', haccess', rfl⟩ := emitGlobal_generated h
  cases haccess.symm.trans haccess'
  have hlabels : (Data.labels (Data.spanning head.span [.label head.name.text,
      .reserve (.ofInt size) (some contents)])).Perm ([head.name.text] ++ []) := .refl _
  exact ⟨(Generated.Defines.refl _).variable' head.id hlabels,
    .data rfl (fun l hl => Generated.mem_defined_variable.mpr (.inl hl)) nofun⟩

theorem Definition.emit_emits {d : Definition} {context : Context} {g g' : Generated} {u : Unit}
    (hglobal : ∀ head, d = .var head → ∃ size contents, context.layout.accesses[head.id]?
      = some (.absolute head.name.text size contents))
    (h : d.emit context g = .ok (u, g')) :
    g.Emits context (functionLabels context.layout d.inside ++ d.variableName?.toList)
      (usedExpressions d.uses) [] g' := by
  cases d with
  | var head =>
      obtain ⟨size, contents, haccess⟩ := hglobal head rfl
      exact emitGlobal_emits haccess h
  | func head body =>
      simpa [Definition.variableName?] using
        (Definition.func head body).generate_emits (Definition.func_emitted h)

/-- What generating the definitions of a program has done. -/
theorem forM_emit_emits (ds : List Definition) {context : Context} {g g' : Generated} {u : PUnit}
    (hglobals : ∀ head, .var head ∈ ds → ∃ size contents, context.layout.accesses[head.id]?
      = some (.absolute head.name.text size contents))
    (h : (ds.forM (Definition.emit context) : Generation PUnit) g = .ok (u, g')) :
    g.Emits context (functionLabels context.layout (definitionsInside ds) ++
      ds.filterMap Definition.variableName?) (usedExpressions (definitionsUses ds)) [] g' := by
  induction ds generalizing g with
  | nil =>
      cases h
      exact .silent g' rfl rfl
  | cons d ds ih =>
      obtain ⟨g₁, hfirst, hrest⟩ := forM_emit_cons_generated h
      have hd := Definition.emit_emits (fun head hhead => hglobals head (by simp [hhead])) hfirst
      have hds := ih (fun head hhead => hglobals head (List.mem_cons_of_mem _ hhead)) hrest
      rw [definitionsUses, usedExpressions_append]
      refine (hd.trans hds).perm_own ?_
      have hnames : (d :: ds).filterMap Definition.variableName?
          = d.variableName?.toList ++ ds.filterMap Definition.variableName? := by
        cases d <;> rfl
      rw [definitionsInside, functionLabels_append, hnames, List.perm_iff_count]
      intro l
      simp only [List.count_append]
      omega

end NestedFun
