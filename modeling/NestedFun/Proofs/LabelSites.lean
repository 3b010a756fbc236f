import NestedFun.Proofs.Emission

namespace NestedFun

/-!
# What numbers of labels are taken for

Every branch, every loop, every variable inside a function and every string constant in an
expression takes one number from the supply, in the order in which code is generated for them. The
labels with that number are defined and named in the code and the data of that node, and nowhere
else; all other labels are those of functions and globals.
-/

/-- A part of a program that a number is taken for. -/
inductive LabelSite where
  | text (node : Node) (value : Literal)
  | storage (head : Variable)
  | branch (node : Node)
  | loop (node : Node)

namespace LabelSite

def node : LabelSite → Node
  | text node _ | branch node | loop node => node
  | storage head => head.toNode

def use : LabelSite → LabelUse
  | text _ _ | storage _ => .data
  | branch _ => .branch
  | loop _ => .loop

end LabelSite

mutual

/-- The string constants of an expression; operands and arguments are taken from right to left. -/
def Expression.sites : Expression → List LabelSite
  | .literal node value => if value.kind = .string then [.text node value] else []
  | .name _ _ => []
  | .call _ _ arguments => argumentSites arguments
  | .unary _ _ operand => operand.sites
  | .binary _ _ left right => right.sites ++ left.sites

def argumentSites : List Expression → List LabelSite
  | [] => []
  | argument :: arguments => argumentSites arguments ++ argument.sites

end

mutual

/-- The sites in a statement. The number of a branch or loop is taken before those inside it, and the
condition of a branch comes behind both parts. -/
def Statement.sites : Statement → List LabelSite
  | .eval _ value => value.sites
  | .assign _ target source => source.sites ++ target.sites
  | .branch node condition positive negative =>
    .branch node :: (statementSites positive ++ statementSites negative ++ condition.sites)
  | .loop node condition body => .loop node :: (condition.sites ++ statementSites body)
  | .block _ definitions body => definitionSites definitions ++ statementSites body

def statementSites : List Statement → List LabelSite
  | [] => []
  | statement :: statements => statement.sites ++ statementSites statements

def Definition.sites : Definition → List LabelSite
  | .var head => [.storage head]
  | .func _ body => statementSites body

def definitionSites : List Definition → List LabelSite
  | [] => []
  | definition :: definitions => definition.sites ++ definitionSites definitions

end

/-- The sites in a definition at the top level: globals take no number. -/
def Definition.outerSites : Definition → List LabelSite
  | .var _ => []
  | .func _ body => statementSites body

def Program.sites (program : Program) : List LabelSite := program.flatMap Definition.outerSites

/-! ## Sites are different nodes -/

def siteIds (sites : List LabelSite) : List NodeId := sites.map fun site => site.node.id

@[simp] theorem siteIds_nil : siteIds [] = [] := rfl

@[simp] theorem siteIds_cons (site : LabelSite) (sites : List LabelSite) :
    siteIds (site :: sites) = site.node.id :: siteIds sites := rfl

@[simp] theorem siteIds_append (sites sites' : List LabelSite) :
    siteIds (sites ++ sites') = siteIds sites ++ siteIds sites' := List.map_append

mutual

theorem Expression.covered_sites (e : Expression) : Covered (siteIds e.sites) e.ids := by
  intro id
  cases e with
  | literal node value =>
      rw [Expression.sites]
      split <;> simp only [siteIds_cons, siteIds_nil, LabelSite.node, Expression.ids, List.count_cons,
        List.count_nil] <;> omega
  | name node name => simp [Expression.sites]
  | call node callee arguments =>
      have h := covered_argumentSites arguments id
      simp only [Expression.sites, Expression.ids, List.cons_append, List.count_cons,
        List.count_append] at *
      omega
  | unary node operator operand =>
      have h := operand.covered_sites id
      simp only [Expression.sites, Expression.ids, List.count_append] at *
      omega
  | binary node operator left right =>
      have h := left.covered_sites id
      have h' := right.covered_sites id
      simp only [Expression.sites, Expression.ids, siteIds_append, List.count_append] at *
      omega

theorem covered_argumentSites (es : List Expression) :
    Covered (siteIds (argumentSites es)) (expressionIds es) := by
  intro id
  cases es with
  | nil => simp [argumentSites]
  | cons e es =>
      have h := e.covered_sites id
      have h' := covered_argumentSites es id
      simp only [argumentSites, expressionIds, siteIds_append, List.count_append] at *
      omega

end

mutual

theorem Statement.covered_sites (s : Statement) : Covered (siteIds s.sites) s.ids := by
  intro id
  cases s with
  | eval node value =>
      have h := value.covered_sites id
      simp only [Statement.sites, Statement.ids, List.count_append] at *
      omega
  | assign node target source =>
      have h := target.covered_sites id
      have h' := source.covered_sites id
      simp only [Statement.sites, Statement.ids, siteIds_append, List.count_append] at *
      omega
  | branch node condition positive negative =>
      have h := condition.covered_sites id
      have h' := covered_statementSites positive id
      have h'' := covered_statementSites negative id
      simp only [Statement.sites, Statement.ids, siteIds_cons, siteIds_append, LabelSite.node,
        List.count_cons, List.count_append, List.count_nil] at *
      omega
  | loop node condition body =>
      have h := condition.covered_sites id
      have h' := covered_statementSites body id
      simp only [Statement.sites, Statement.ids, siteIds_cons, siteIds_append, LabelSite.node,
        List.count_cons, List.count_append, List.count_nil] at *
      omega
  | block node ds body =>
      have h := covered_definitionSites ds id
      have h' := covered_statementSites body id
      simp only [Statement.sites, Statement.ids, siteIds_append, List.count_append] at *
      omega

theorem covered_statementSites (ss : List Statement) :
    Covered (siteIds (statementSites ss)) (statementIds ss) := by
  intro id
  cases ss with
  | nil => simp [statementSites]
  | cons s ss =>
      have h := s.covered_sites id
      have h' := covered_statementSites ss id
      simp only [statementSites, statementIds, siteIds_append, List.count_append] at *
      omega

theorem Definition.covered_sites (d : Definition) : Covered (siteIds d.sites) d.ids := by
  intro id
  cases d with
  | var head =>
      simp only [Definition.sites, Definition.ids, Variable.ids, siteIds_cons, siteIds_nil, LabelSite.node,
        List.cons_append, List.count_cons, List.count_append, List.count_nil]
      omega
  | func head body =>
      have h := covered_statementSites body id
      simp only [Definition.sites, Definition.ids, List.cons_append, List.count_cons,
        List.count_append] at *
      omega

theorem covered_definitionSites (ds : List Definition) :
    Covered (siteIds (definitionSites ds)) (definitionIds ds) := by
  intro id
  cases ds with
  | nil => simp [definitionSites]
  | cons d ds =>
      have h := d.covered_sites id
      have h' := covered_definitionSites ds id
      simp only [definitionSites, definitionIds, siteIds_append, List.count_append] at *
      omega

end

/-- No two sites of a program are the same node if all its nodes have different numbers. -/
theorem Program.covered_sites (program : Program) :
    Covered (siteIds program.sites) (definitionIds program) := by
  intro id
  induction program with
  | nil => simp [Program.sites]
  | cons d ds ih =>
      have h : (siteIds d.outerSites).count id ≤ d.ids.count id := by
        cases d with
        | var head => simp [Definition.outerSites]
        | func head body => exact (Definition.func head body).covered_sites id
      simp only [Program.sites, List.flatMap_cons, siteIds_append, definitionIds,
        List.count_append] at *
      omega

/-! ## Where labels occur -/

inductive MentionKind where
  | code | data | name
deriving DecidableEq

structure Mention where
  span : Span
  label : String
  kind : MentionKind
deriving DecidableEq

def Instruction.mention? (span : Span) : Instruction → Option Mention
  | label l => some ⟨span, l, .code⟩
  | name l => some ⟨span, l, .name⟩
  | _ => none

def Datum.mention? (span : Span) : Datum → Option Mention
  | label l => some ⟨span, l, .data⟩
  | _ => none

def Code.mentions (code : Code) : List Mention := code.filterMap fun i => i.item.mention? i.span

def Data.mentions (data : Data) : List Mention := data.filterMap fun d => d.item.mention? d.span

section

variable (span : Span)

@[simp] theorem Code.mentions_append (a b : Code) :
    Code.mentions (a ++ b) = a.mentions ++ b.mentions := List.filterMap_append

@[simp] theorem Data.mentions_append (a b : Data) :
    Data.mentions (a ++ b) = a.mentions ++ b.mentions := List.filterMap_append

@[simp] theorem Code.mentions_nil : Code.mentions [] = [] := rfl

@[simp] theorem Code.mentions_spanning (is : List Instruction) :
    (Code.spanning span is).mentions = is.filterMap (Instruction.mention? span) := by
  rw [Code.mentions, Code.spanning, List.filterMap_map]
  rfl

@[simp] theorem Data.mentions_spanning (ds : List Datum) :
    (Data.spanning span ds).mentions = ds.filterMap (Datum.mention? span) := by
  rw [Data.mentions, Data.spanning, List.filterMap_map]
  rfl

@[simp] theorem filterMap_mention?_words (ws : List Word) :
    (ws.map Datum.word).filterMap (Datum.mention? span) = [] := by
  simp [List.filterMap_map, Datum.mention?]

@[simp] theorem filterMap_mention?_frameAddress (hops : Nat) :
    (frameAddress hops).filterMap (Instruction.mention? span) = [] := by
  simp [frameAddress, List.filterMap_cons, Instruction.mention?]

@[simp] theorem Code.mentions_keptZero (keep : Bool) : (keptZero keep span).mentions = [] := by
  cases keep <;> rfl

theorem Code.mentions_functionCode (head : FunctionHead) (frame : Frame) (code : Code) :
    (functionCode head frame code).mentions = ⟨head.span, frame.label, .code⟩ :: code.mentions := by
  rw [functionCode, mentions_append, mentions_append]
  exact List.append_nil (_ :: code.mentions)

end

/-- The labels that are named on behalf of a number, as often as they are. -/
def LabelUse.named (n : Nat) : LabelUse → List String
  | data => [dataLabel n]
  | branch => [(branchLabels n).condition, (branchLabels n).stop, (branchLabels n).stop,
      (branchLabels n).positive, (branchLabels n).negative]
  | loop => [(loopLabels n).body, (loopLabels n).stop, (loopLabels n).condition]

theorem LabelUse.named_subset (n : Nat) (use : LabelUse) : use.named n ⊆ use.labels n := by
  cases use with
  | data =>
      rw [LabelUse.labels_data]
      exact List.Subset.refl _
  | branch =>
      rw [LabelUse.labels_branch]
      simp [LabelUse.named]
  | loop =>
      rw [LabelUse.labels_loop]
      simp [LabelUse.named]

def LabelUse.place : LabelUse → MentionKind
  | data => .data
  | branch | loop => .code

/-- All occurrences of the labels of a site, if it has taken the number `n`. -/
def LabelSite.mentions (n : Nat) (site : LabelSite) : List Mention :=
  (site.use.labels n).map (⟨site.node.span, ·, site.use.place⟩)
    ++ (site.use.named n).map (⟨site.node.span, ·, .name⟩)

def mentionsFrom (n : Nat) : List LabelSite → List Mention
  | [] => []
  | site :: sites => site.mentions n ++ mentionsFrom (n + 1) sites

theorem mentionsFrom_append (n : Nat) (sites sites' : List LabelSite) :
    mentionsFrom n (sites ++ sites') = mentionsFrom n sites ++ mentionsFrom (n + sites.length) sites' := by
  induction sites generalizing n with
  | nil => rfl
  | cons site sites ih =>
      rw [List.cons_append, mentionsFrom, mentionsFrom, ih, List.append_assoc, List.length_cons,
        Nat.add_right_comm n 1, Nat.add_assoc n]

theorem mem_mentionsFrom {n : Nat} {sites : List LabelSite} {mention : Mention} :
    mention ∈ mentionsFrom n sites ↔
      ∃ (i : Nat) (site : LabelSite), sites[i]? = some site ∧ mention ∈ site.mentions (n + i) := by
  induction sites generalizing n with
  | nil => simp [mentionsFrom]
  | cons site sites ih =>
      rw [mentionsFrom, List.mem_append, ih]
      constructor
      · rintro (h | ⟨i, site', hsite, h⟩)
        · exact ⟨0, site, rfl, h⟩
        · exact ⟨i + 1, site', hsite, by rwa [show n + (i + 1) = n + 1 + i by omega]⟩
      · rintro ⟨_ | i, site', hsite, h⟩
        · cases hsite
          exact .inl h
        · exact .inr ⟨i, site', hsite, by rwa [show n + 1 + i = n + (i + 1) by omega]⟩

theorem LabelSite.label_of_mem_mentions {n : Nat} {site : LabelSite} {mention : Mention}
    (h : mention ∈ site.mentions n) :
    mention.span = site.node.span ∧ mention.label ∈ site.use.labels n := by
  rcases List.mem_append.mp h with h | h
  · obtain ⟨l, hl, rfl⟩ := List.mem_map.mp h
    exact ⟨rfl, hl⟩
  · obtain ⟨l, hl, rfl⟩ := List.mem_map.mp h
    exact ⟨rfl, site.use.named_subset n hl⟩

def textBlocks (n : Nat) : List LabelSite → List Data
  | [] => []
  | .text node value :: sites =>
    Data.spanning node.span (.label (dataLabel n) :: (value.words ++ [0]).map .word)
      :: textBlocks (n + 1) sites
  | _ :: sites => textBlocks (n + 1) sites

theorem textBlocks_append (n : Nat) (sites sites' : List LabelSite) :
    textBlocks n (sites ++ sites') = textBlocks n sites ++ textBlocks (n + sites.length) sites' := by
  induction sites generalizing n with
  | nil => rfl
  | cons site sites ih =>
      have hnumber : n + (sites.length + 1) = n + 1 + sites.length := by omega
      rw [List.cons_append, List.length_cons, hnumber]
      cases site with
      | text node value => rw [textBlocks, textBlocks, ih, List.cons_append]
      | storage head => rw [textBlocks, textBlocks, ih] <;> simp
      | branch node => rw [textBlocks, textBlocks, ih] <;> simp
      | loop node => rw [textBlocks, textBlocks, ih] <;> simp

/-! ## What generating mentions -/

def Generated.mentions (g : Generated) : List Mention := g.code.mentions ++ g.data.mentions

/-- A label that is not numbered: that of a function or of a global. -/
def Context.Owns (context : Context) (label : String) : Prop :=
  (∃ (id : NodeId) (frame : Frame), context.layout.frames[id]? = some frame ∧ label = frame.label) ∨
    ∃ (id : NodeId) (size : Int) (contents : Contents),
      context.layout.accesses[id]? = some (.absolute label size contents)

theorem Context.owns_callee {context : Context} {id : NodeId} {frame : Frame}
    (h : context.calleeOf id = .ok frame) : context.Owns frame.label := by
  obtain ⟨definition, -, h⟩ := bind_eq_ok h
  exact .inl ⟨definition, frame, Layout.getElem?_of_frame h, rfl⟩

theorem Context.owns_access {context : Context} {id : NodeId} {label : String} {size : Int}
    {contents : Contents} (h : context.accessOf id = .ok (.absolute label size contents)) :
    context.Owns label := by
  obtain ⟨definition, -, h⟩ := bind_eq_ok h
  exact .inr ⟨definition, size, contents, Layout.getElem?_of_access h⟩

/-- Generating led from `g` to `g'` and gave `code`. The sites took one number each, their strings
were stored in that order, and all other labels belong to functions and globals. -/
structure Generated.Numbers (context : Context) (g : Generated) (sites : List LabelSite) (code : Code)
    (g' : Generated) : Prop where
  next : g'.labels.next = g.labels.next + sites.length
  strings : g'.strings.toList = g.strings.toList ++ textBlocks g.labels.next sites
  mentions : ∃ others : List Mention, (∀ mention ∈ others, context.Owns mention.label) ∧
    (g'.mentions ++ code.mentions).Perm
      (g.mentions ++ (mentionsFrom g.labels.next sites ++ others))

namespace Generated.Numbers

variable {context : Context} {g g' g'' : Generated} {sites sites' : List LabelSite} {code code' : Code}

/-- Code with labels of functions and globals only. -/
theorem silent (g : Generated) (h : ∀ mention ∈ code.mentions, context.Owns mention.label) :
    Numbers context g [] code g :=
  ⟨rfl, (List.append_nil _).symm, code.mentions, h, .refl _⟩

theorem trans (h : Numbers context g sites code g') (h' : Numbers context g' sites' code' g'') :
    Numbers context g (sites ++ sites') (code ++ code') g'' := by
  obtain ⟨hnext, hstrings, others, howns, hperm⟩ := h
  obtain ⟨hnext', hstrings', others', howns', hperm'⟩ := h'
  refine ⟨by rw [hnext', hnext, List.length_append, Nat.add_assoc], ?_, others ++ others', ?_, ?_⟩
  · rw [hstrings', hstrings, hnext, textBlocks_append, List.append_assoc]
  · exact fun mention hmention => (List.mem_append.mp hmention).elim (howns _) (howns' _)
  · rw [hnext] at hperm'
    rw [List.perm_iff_count] at *
    intro mention
    have h₁ := hperm mention
    have h₂ := hperm' mention
    simp only [mentionsFrom_append, Code.mentions_append, List.count_append] at *
    omega

/-- Code without labels is put behind. -/
theorem append (h : Numbers context g sites code g') (hcode : code'.mentions = []) :
    Numbers context g sites (code ++ code') g' := by
  have hlast : Numbers context g' [] code' g' := silent g' (by simp [hcode])
  simpa using h.trans hlast

/-- A site takes a number, and its labels are put into the code of what it holds. -/
theorem labelled (site : LabelSite) (htext : ∀ node value, site ≠ .text node value)
    (h : Numbers context { g with labels := ⟨g.labels.next + 1⟩ } sites code g')
    (hcode : code'.mentions.Perm (site.mentions g.labels.next ++ code.mentions)) :
    Numbers context g (site :: sites) code' g' := by
  obtain ⟨hnext, hstrings, others, howns, hperm⟩ := h
  refine ⟨?_, ?_, others, howns, ?_⟩
  · simp only [hnext, List.length_cons]
    omega
  · rw [hstrings, textBlocks]
    exact htext
  · rw [List.perm_iff_count] at *
    intro mention
    have h₁ := hperm mention
    have h₂ := hcode mention
    have hlabels : Generated.mentions { g with labels := ⟨g.labels.next + 1⟩ } = g.mentions := rfl
    simp only [hlabels, mentionsFrom, List.count_append] at *
    omega

/-- The code of a body becomes that of a function. -/
theorem function (h : Numbers context g sites code g') {head : FunctionHead} {frame : Frame}
    (hframe : context.layout.frames[head.id]? = some frame) :
    Numbers context g sites []
      { g' with functions := g'.functions.push (head.id, functionCode head frame code) } := by
  obtain ⟨hnext, hstrings, others, howns, hperm⟩ := h
  refine ⟨hnext, hstrings, ⟨head.span, frame.label, .code⟩ :: others, ?_, ?_⟩
  · exact List.forall_mem_cons.mpr ⟨.inl ⟨head.id, frame, hframe, rfl⟩, howns⟩
  · rw [List.perm_iff_count] at *
    intro mention
    have h₁ := hperm mention
    simp only [Generated.mentions, Generated.code_function, Generated.data, Code.mentions_append,
      Code.mentions_functionCode, Code.mentions_nil, List.count_append, List.count_cons,
      List.count_nil] at *
    omega

end Generated.Numbers

/-- What nothing is mentioned in is silent. -/
theorem Context.owns_of_mem_nil {context : Context} {mentions : List Mention} (h : mentions = []) :
    ∀ mention ∈ mentions, context.Owns mention.label := by
  subst h
  exact fun mention hmention => absurd hmention List.not_mem_nil

theorem string_numbers {context : Context} (g : Generated) (node : Node) (value : Literal) :
    g.Numbers context [.text node value] (Code.spanning node.span [.name (dataLabel g.labels.next)])
      ⟨⟨g.labels.next + 1⟩, g.functions, g.storage, g.strings.push (Data.spanning node.span
        (.label (dataLabel g.labels.next) :: (value.words ++ [0]).map .word))⟩ := by
  refine ⟨rfl, Array.toList_push, [], Context.owns_of_mem_nil rfl, ?_⟩
  rw [List.perm_iff_count]
  intro mention
  simp only [Generated.mentions, Generated.code, Generated.data, Array.toList_push,
    List.flatten_append, List.flatten_cons, List.flatten_nil, List.append_nil, Data.mentions_append,
    Data.mentions_spanning, Code.mentions_spanning, List.filterMap_cons, filterMap_mention?_words,
    Datum.mention?, Instruction.mention?, List.filterMap_nil, mentionsFrom, LabelSite.mentions, LabelSite.use,
    LabelSite.node, LabelUse.labels_data, LabelUse.named, LabelUse.place, List.map_cons, List.map_nil,
    List.count_append, List.count_cons, List.count_nil]
  omega

theorem emitLocal_numbers {context : Context} {head : Variable} {g g' : Generated} {code : Code}
    (h : emitLocal context head g = .ok (code, g')) :
    g.Numbers context [.storage head] code g' := by
  obtain ⟨offset, depth, size, contents, -, rfl, rfl⟩ := emitLocal_generated h
  refine ⟨rfl, (List.append_nil _).symm, [], Context.owns_of_mem_nil rfl, ?_⟩
  rw [List.perm_iff_count]
  intro mention
  simp only [Generated.mentions, Generated.code, Generated.data, Array.toList_push,
    List.flatMap_append, List.flatMap_cons, List.flatMap_nil, List.append_nil,
    Data.mentions_append, Data.mentions_spanning, Code.mentions_spanning, List.filterMap_cons,
    filterMap_mention?_words, Datum.mention?, Instruction.mention?, List.filterMap_nil,
    mentionsFrom, LabelSite.mentions, LabelSite.use, LabelSite.node, LabelUse.labels_data, LabelUse.named,
    LabelUse.place, List.map_cons, List.map_nil, List.count_append, List.count_cons, List.count_nil]
  omega

theorem nameAddress_owns {context : Context} {frame : Frame} {node : Node} {code : Code}
    (h : nameAddress context frame node = .ok code) :
    ∀ mention ∈ code.mentions, context.Owns mention.label := by
  obtain ⟨access, haccess, h⟩ := bind_eq_ok h
  cases access with
  | absolute label size contents =>
      cases h
      intro mention hmention
      obtain rfl := List.mem_singleton.mp hmention
      exact Context.owns_access haccess
  | relative offset depth size contents =>
      simp only at h
      split at h
      · cases h
        exact Context.owns_of_mem_nil (by simp [Instruction.mention?])
      · cases h

theorem callCode_owns {context : Context} {frame callee : Frame} {node : Node} {id : NodeId}
    {code : Code} (hcallee : context.calleeOf id = .ok callee)
    (h : callCode frame callee node = .ok code) :
    ∀ mention ∈ code.mentions, context.Owns mention.label := by
  rw [callCode] at h
  split at h
  · cases h
    intro mention hmention
    rw [Code.mentions_spanning, List.filterMap_append, filterMap_mention?_frameAddress] at hmention
    obtain rfl := List.mem_singleton.mp hmention
    exact Context.owns_callee hcallee
  · cases h

/-! ## Expressions -/

mutual

theorem Expression.value_numbers (e : Expression) {context : Context} {frame : Frame}
    {g g' : Generated} {code : Code} (h : e.value context frame g = .ok (code, g')) :
    g.Numbers context e.sites code g' := by
  cases e with
  | literal node value =>
      rw [Expression.sites]
      rcases Expression.literal_generated h with ⟨hkind, rfl, rfl⟩ | ⟨hkind, rfl, rfl⟩
      · rw [if_neg hkind]
        exact .silent g' (Context.owns_of_mem_nil (by simp [List.filterMap_map, Instruction.mention?]))
      · rw [if_pos hkind]
        exact string_numbers g node value
  | name node name =>
      obtain ⟨address, haddress, rfl, rfl⟩ := Expression.name_generated h
      exact (Generated.Numbers.silent _ (nameAddress_owns haddress)).append rfl
  | call node callee arguments =>
      obtain ⟨calleeFrame, pushed, call, hcallee, hpushed, hcall, rfl⟩ := Expression.call_generated h
      rw [Expression.sites, ← List.append_nil (argumentSites arguments)]
      exact (argumentValues_numbers arguments hpushed).trans
        (.silent _ (callCode_owns hcallee hcall))
  | unary node operator operand =>
      rw [Expression.sites]
      rcases Expression.unary_generated h with
        ⟨-, hc⟩ | ⟨-, hc⟩ | ⟨c, hc, ⟨-, rfl⟩ | ⟨-, rfl⟩ | ⟨-, rfl⟩⟩
      · exact operand.value_numbers hc
      · exact operand.address_numbers hc
      all_goals exact (operand.value_numbers hc).append rfl
  | binary node operator left right =>
      obtain ⟨r, g₁, l, hr, hl, rfl⟩ := Expression.binary_generated h
      rw [Expression.sites]
      exact ((right.value_numbers hr).trans (left.value_numbers hl)).append rfl

theorem Expression.address_numbers (e : Expression) {context : Context} {frame : Frame}
    {g g' : Generated} {code : Code} (h : e.address context frame g = .ok (code, g')) :
    g.Numbers context e.sites code g' := by
  cases e with
  | literal node value => cases h
  | name node name =>
      obtain ⟨haddress, rfl⟩ := Expression.name_address_generated h
      exact .silent _ (nameAddress_owns haddress)
  | call node callee arguments => cases h
  | unary node operator operand =>
      rw [Expression.sites]
      exact operand.value_numbers (Expression.unary_address_generated h).2
  | binary node operator left right => cases h

theorem argumentValues_numbers (es : List Expression) {context : Context} {frame : Frame}
    {g g' : Generated} {code : Code} (h : argumentValues context frame es g = .ok (code, g')) :
    g.Numbers context (argumentSites es) code g' := by
  cases es with
  | nil =>
      cases h
      exact .silent g (Context.owns_of_mem_nil rfl)
  | cons e es =>
      obtain ⟨others, g₁, first, hothers, hfirst, rfl⟩ := argumentValues_cons_generated h
      rw [argumentSites]
      exact (argumentValues_numbers es hothers).trans (e.value_numbers hfirst)

end

/-! ## Statements and definitions -/

mutual

theorem Statement.generate_numbers (s : Statement) {context : Context} {frame : Frame} {keep : Bool}
    {g g' : Generated} {code : Code} (h : s.generate context frame keep g = .ok (code, g')) :
    g.Numbers context s.sites code g' := by
  cases s with
  | eval node value =>
      obtain ⟨c, hc, rfl⟩ := Statement.eval_generated h
      rw [Statement.sites]
      exact (value.value_numbers hc).append (by cases keep <;> rfl)
  | assign node target source =>
      obtain ⟨v, g₁, a, hv, ha, rfl⟩ := Statement.assign_generated h
      rw [Statement.sites]
      have hplaced := (source.value_numbers hv).trans (target.address_numbers ha)
      exact (hplaced.append rfl).append (Code.mentions_keptZero node.span keep)
  | branch node condition positive negative =>
      obtain ⟨p, g₁, q, g₂, c, hp, hq, hc, rfl⟩ := Statement.branch_generated h
      rw [Statement.sites]
      refine (((generateStatements_numbers positive hp).trans
        (generateStatements_numbers negative hq)).trans (condition.value_numbers hc)).labelled
          (.branch node) (by simp) ?_
      rw [List.perm_iff_count]
      intro mention
      simp only [List.flatten_cons, List.flatten_nil, Code.mentions_append, Code.mentions_spanning,
        Code.mentions_keptZero, List.append_nil, List.filterMap_cons, List.filterMap_nil,
        Instruction.mention?, LabelSite.mentions, LabelSite.use, LabelSite.node, LabelUse.labels_branch,
        LabelUse.named, LabelUse.place, List.map_cons, List.map_nil, List.count_append,
        List.count_cons, List.count_nil]
      omega
  | loop node condition body =>
      obtain ⟨c, g₁, p, hc, hp, rfl⟩ := Statement.loop_generated h
      rw [Statement.sites]
      refine ((condition.value_numbers hc).trans (generateStatements_numbers body hp)).labelled
        (.loop node) (by simp) ?_
      rw [List.perm_iff_count]
      intro mention
      simp only [List.flatten_cons, List.flatten_nil, Code.mentions_append, Code.mentions_spanning,
        Code.mentions_keptZero, List.append_nil, List.filterMap_cons, List.filterMap_nil,
        Instruction.mention?, LabelSite.mentions, LabelSite.use, LabelSite.node, LabelUse.labels_loop,
        LabelUse.named, LabelUse.place, List.map_cons, List.map_nil, List.count_append,
        List.count_cons, List.count_nil]
      omega
  | block node ds body =>
      obtain ⟨entry, g₁, c, hentry, hc, rfl⟩ := Statement.block_generated h
      rw [Statement.sites]
      exact (generateDefinitions_numbers ds hentry).trans (generateStatements_numbers body hc)

theorem generateStatements_numbers (ss : List Statement) {context : Context} {frame : Frame}
    {keep : Bool} {g g' : Generated} {code : Code}
    (h : generateStatements context frame keep ss g = .ok (code, g')) :
    g.Numbers context (statementSites ss) code g' := by
  match ss with
  | [] =>
      cases h
      exact .silent g (Context.owns_of_mem_nil (Code.mentions_keptZero .nowhere keep))
  | [s] =>
      rw [statementSites, statementSites, List.append_nil]
      exact s.generate_numbers (generateStatements_single_generated h)
  | s :: s' :: ss =>
      obtain ⟨first, g₁, others, hfirst, hothers, rfl⟩ := generateStatements_cons_generated h
      rw [statementSites]
      exact (s.generate_numbers hfirst).trans (generateStatements_numbers (s' :: ss) hothers)

theorem Definition.generate_numbers (d : Definition) {context : Context} {g g' : Generated}
    {code : Code} (h : d.generate context g = .ok (code, g')) :
    g.Numbers context d.sites code g' := by
  cases d with
  | var head =>
      rw [Definition.sites]
      exact emitLocal_numbers (Definition.var_generated h)
  | func head body =>
      rw [Definition.sites]
      obtain ⟨rfl, ⟨rfl, rfl⟩ | ⟨-, frame, c, g₁, hframe, hc, rfl⟩⟩ := Definition.func_generated h
      · exact .silent g' (Context.owns_of_mem_nil rfl)
      · exact (generateStatements_numbers body hc).function hframe

theorem generateDefinitions_numbers (ds : List Definition) {context : Context} {g g' : Generated}
    {code : Code} (h : generateDefinitions context ds g = .ok (code, g')) :
    g.Numbers context (definitionSites ds) code g' := by
  cases ds with
  | nil =>
      cases h
      exact .silent g (Context.owns_of_mem_nil rfl)
  | cons d ds =>
      obtain ⟨first, g₁, others, hfirst, hothers, rfl⟩ := generateDefinitions_cons_generated h
      rw [definitionSites]
      exact (d.generate_numbers hfirst).trans (generateDefinitions_numbers ds hothers)

end

/-- Globals take no number: their labels are their names. -/
theorem emitGlobal_numbers {context : Context} {head : Variable} {g g' : Generated} {u : Unit}
    (h : emitGlobal context head g = .ok (u, g')) : g.Numbers context [] [] g' := by
  obtain ⟨label, size, contents, haccess, rfl⟩ := emitGlobal_generated h
  refine ⟨rfl, (List.append_nil _).symm, [⟨head.span, label, .data⟩], ?_, ?_⟩
  · intro mention hmention
    obtain rfl := List.mem_singleton.mp hmention
    exact .inr ⟨head.id, size, contents, haccess⟩
  · rw [List.perm_iff_count]
    intro mention
    simp only [Generated.mentions, Generated.code, Generated.data, Array.toList_push,
      List.flatMap_append, List.flatMap_cons, List.flatMap_nil, List.append_nil,
      Data.mentions_append, Data.mentions_spanning, Code.mentions_nil, List.filterMap_cons,
      Datum.mention?, List.filterMap_nil, mentionsFrom, List.nil_append, List.count_append,
      List.count_cons, List.count_nil]
    omega

theorem Definition.emit_numbers {d : Definition} {context : Context} {g g' : Generated} {u : Unit}
    (h : d.emit context g = .ok (u, g')) : g.Numbers context d.outerSites [] g' := by
  cases d with
  | var head => exact emitGlobal_numbers h
  | func head body =>
      exact (Definition.func head body).generate_numbers (Definition.func_emitted h)

/-- The sites of a program take all numbers that generating it uses up, one each. -/
theorem forM_emit_numbers (program : Program) {context : Context} {g g' : Generated} {u : PUnit}
    (h : (program.forM (Definition.emit context) : Generation PUnit) g = .ok (u, g')) :
    g.Numbers context program.sites [] g' := by
  induction program generalizing g with
  | nil =>
      cases h
      exact .silent g' (Context.owns_of_mem_nil rfl)
  | cons d ds ih =>
      obtain ⟨g₁, hfirst, hrest⟩ := forM_emit_cons_generated h
      exact (Definition.emit_numbers hfirst).trans (ih hrest)

end NestedFun
