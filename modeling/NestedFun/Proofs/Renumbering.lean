import NestedFun.Proofs.GeneratedPrograms

namespace NestedFun

/-!
# Other numbers in labels

The number that the labels of a program start from shows in its labels only. Generating from another
number takes as many numbers and gives the same code and data with the numbers in labels replaced. So
programs that are generated one behind the other do not share a numbered label. The counter of 32 bits
limits how many numbers can be taken; when it runs over nothing is generated.
-/

/-! ## Relabelling -/

/-- The same instruction with another label; frames keep theirs. -/
def Instruction.relabel (f : String → String) : Instruction → Instruction
  | label l => label (f l)
  | name l => name (f l)
  | i => i

def Datum.relabel (f : String → String) : Datum → Datum
  | label l => label (f l)
  | d => d

def Code.relabel (f : String → String) (code : Code) : Code :=
  code.map fun i => ⟨i.span, i.item.relabel f⟩

def Data.relabel (f : String → String) (data : Data) : Data :=
  data.map fun d => ⟨d.span, d.item.relabel f⟩

def BranchLabels.relabel (f : String → String) (labels : BranchLabels) : BranchLabels :=
  ⟨f labels.condition, f labels.positive, f labels.negative, f labels.stop⟩

def LoopLabels.relabel (f : String → String) (labels : LoopLabels) : LoopLabels :=
  ⟨f labels.condition, f labels.body, f labels.stop⟩

def Generated.relabel (f : String → String) (n : Nat) (g : Generated) : Generated where
  labels := ⟨n⟩
  functions := g.functions.map fun entry => (entry.1, entry.2.relabel f)
  storage := g.storage.map fun entry => (entry.1, entry.2.relabel f)
  strings := g.strings.map fun data => Data.relabel f data

section

variable (f : String → String) (span : Span)

@[simp] theorem Code.relabel_append (a b : Code) :
    Code.relabel f (a ++ b) = a.relabel f ++ b.relabel f := List.map_append

@[simp] theorem Code.relabel_nil : Code.relabel f [] = [] := rfl

@[simp] theorem Code.relabel_flatten (codes : List Code) :
    Code.relabel f codes.flatten = (codes.map (Code.relabel f)).flatten := List.map_flatten

@[simp] theorem Code.relabel_spanning (is : List Instruction) :
    (Code.spanning span is).relabel f = Code.spanning span (is.map (Instruction.relabel f)) := by
  rw [Code.relabel, Code.spanning, Code.spanning, List.map_map, List.map_map]
  rfl

@[simp] theorem Data.relabel_spanning (ds : List Datum) :
    (Data.spanning span ds).relabel f = Data.spanning span (ds.map (Datum.relabel f)) := by
  rw [Data.relabel, Data.spanning, Data.spanning, List.map_map, List.map_map]
  rfl

@[simp] theorem Datum.relabel_comp_word : Datum.relabel f ∘ Datum.word = Datum.word := rfl

@[simp] theorem Instruction.relabel_comp_push :
    Instruction.relabel f ∘ Instruction.push = Instruction.push := rfl

@[simp] theorem map_relabel_frameAddress (hops : Nat) :
    (frameAddress hops).map (Instruction.relabel f) = frameAddress hops := by
  simp [frameAddress, Instruction.relabel]

@[simp] theorem Code.relabel_keptZero (keep : Bool) :
    (keptZero keep span).relabel f = keptZero keep span := by
  cases keep <;> rfl

@[simp] theorem Generated.relabel_functions (n : Nat) (g : Generated) (id : NodeId) (code : Code) :
    Generated.relabel f n { g with functions := g.functions.push (id, code) }
      = { g.relabel f n with functions := (g.relabel f n).functions.push (id, code.relabel f) } := by
  simp [Generated.relabel, Array.map_push]

@[simp] theorem Generated.relabel_storage (n : Nat) (g : Generated) (id : NodeId) (data : Data) :
    Generated.relabel f n { g with storage := g.storage.push (id, data) }
      = { g.relabel f n with storage := (g.relabel f n).storage.push (id, data.relabel f) } := by
  simp [Generated.relabel, Array.map_push]

@[simp] theorem Generated.relabel_strings (n : Nat) (g : Generated) (data : Data) :
    Generated.relabel f n { g with strings := g.strings.push data }
      = { g.relabel f n with strings := (g.relabel f n).strings.push (data.relabel f) } := by
  simp [Generated.relabel, Array.map_push]

end

def Renames (f : String → String) (n n' : Nat) : Prop :=
  ∀ use : LabelUse, (use.labels n).map f = use.labels n'

section

variable {f : String → String} {n n' : Nat} (h : Renames f n n')

include h

theorem Renames.data : f (dataLabel n) = dataLabel n' := by
  have := h .data
  rw [LabelUse.labels_data, LabelUse.labels_data] at this
  exact List.head_eq_of_cons_eq this

theorem Renames.branch : (branchLabels n).relabel f = branchLabels n' := by
  have := h .branch
  rw [LabelUse.labels_branch, LabelUse.labels_branch] at this
  simp only [List.map_cons, List.map_nil, List.cons.injEq, and_true] at this
  obtain ⟨hcondition, hpositive, hnegative, hstop⟩ := this
  rw [BranchLabels.relabel, hcondition, hpositive, hnegative, hstop]

theorem Renames.loop : (loopLabels n).relabel f = loopLabels n' := by
  have := h .loop
  rw [LabelUse.labels_loop, LabelUse.labels_loop] at this
  simp only [List.map_cons, List.map_nil, List.cons.injEq, and_true] at this
  obtain ⟨hcondition, hbody, hstop⟩ := this
  rw [LoopLabels.relabel, hcondition, hbody, hstop]

end

/-! ## Generating with other numbers -/

/-- Wherever `x` succeeds, `x'` does with other numbers: it takes as many, and what it yields and
generates differs in the labels with these numbers only. -/
def Generation.Follows {α β : Type} (f : String → String) (r : α → β) (x : Generation α)
    (x' : Generation β) : Prop :=
  ∀ g a g', x g = .ok (a, g') → ∃ m, g'.labels.next = g.labels.next + m ∧
    ∀ n', (∀ i < m, Renames f (g.labels.next + i) (n' + i)) →
      x' (g.relabel f n') = .ok (r a, g'.relabel f (n' + m))

namespace Generation

variable {f : String → String} {α β γ δ : Type}

theorem follows_pure {r : α → β} {a : α} {b : β} (h : b = r a) :
    Follows f r (pure a : Generation α) (pure b) := by
  rintro g a g' ⟨⟩
  exact ⟨0, rfl, fun n' _ => by rw [h]; rfl⟩

theorem Follows.bind {r : α → β} {s : γ → δ} {x : Generation α} {x' : Generation β}
    {y : α → Generation γ} {y' : β → Generation δ} (hx : Follows f r x x')
    (hy : ∀ a, Follows f s (y a) (y' (r a))) : Follows f s (x >>= y) (x' >>= y') := by
  intro g c g'' h
  obtain ⟨a, g', ha, hc⟩ := bind_ok h
  obtain ⟨m, hm, hx'⟩ := hx g a g' ha
  obtain ⟨m', hm', hy'⟩ := hy a g' c g'' hc
  refine ⟨m + m', by omega, fun n' hrenames => ?_⟩
  have hfirst := hx' n' fun i hi => hrenames i (by omega)
  have hsecond := hy' (n' + m) fun i hi => by
    rw [hm, Nat.add_assoc, Nat.add_assoc]
    exact hrenames (m + i) (by omega)
  show x' (g.relabel f n') >>= (fun r => y' r.1 r.2) = _
  rw [hfirst, ← Nat.add_assoc]
  exact hsecond

/-- What is looked up is the same for both. -/
theorem Follows.lift_bind {s : γ → δ} {x : Except InternalError α} {y : α → Generation γ}
    {y' : α → Generation δ} (hy : ∀ a, x = .ok a → Follows f s (y a) (y' a)) :
    Follows f s ((liftM x : Generation α) >>= y) ((liftM x : Generation α) >>= y') := by
  intro g c g' h
  obtain ⟨a, g₁, ha, hc⟩ := bind_ok h
  obtain ⟨rfl, rfl⟩ := lift_ok ha
  obtain ⟨m, hm, hy'⟩ := hy a rfl g₁ c g' hc
  exact ⟨m, hm, hy'⟩

theorem follows_error {r : α → β} {x : Generation α} {x' : Generation β} {e : InternalError}
    (h : ∀ g, x g = .error e) : Follows f r x x' := by
  intro g a g' hx
  cases (h g).symm.trans hx

/-- A number is taken. -/
theorem follows_fresh {r : α → β} {x : Generation α} {x' : Generation β} (label : Nat → α)
    (label' : Nat → β)
    (hx : ∀ g, x g = .ok (label g.labels.next, { g with labels := ⟨g.labels.next + 1⟩ }))
    (hx' : ∀ g, x' g = .ok (label' g.labels.next, { g with labels := ⟨g.labels.next + 1⟩ }))
    (hr : ∀ n n', Renames f n n' → r (label n) = label' n') : Follows f r x x' := by
  intro g a g' h
  cases (hx g).symm.trans h
  refine ⟨1, rfl, fun n' hrenames => ?_⟩
  rw [hx', hr g.labels.next n' (hrenames 0 Nat.one_pos)]
  rfl

theorem follows_freshDataLabel : Follows f f freshDataLabel freshDataLabel :=
  follows_fresh dataLabel dataLabel (fun _ => rfl) (fun _ => rfl) fun _ _ h => h.data

theorem follows_freshBranchLabels :
    Follows f (BranchLabels.relabel f) freshBranchLabels freshBranchLabels :=
  follows_fresh branchLabels branchLabels (fun _ => rfl) (fun _ => rfl) fun _ _ h => h.branch

theorem follows_freshLoopLabels :
    Follows f (LoopLabels.relabel f) freshLoopLabels freshLoopLabels :=
  follows_fresh loopLabels loopLabels (fun _ => rfl) (fun _ => rfl) fun _ _ h => h.loop

theorem follows_emitFunction (id : NodeId) (code : Code) :
    Follows f (fun u : Unit => u) (emitFunction id code) (emitFunction id (code.relabel f)) := by
  rintro g a g' ⟨⟩
  refine ⟨0, rfl, fun n' _ => ?_⟩
  rw [Nat.add_zero, Generated.relabel_functions]
  rfl

theorem follows_emitVariable (id : NodeId) (data : Data) :
    Follows f (fun u : Unit => u) (emitVariable id data) (emitVariable id (data.relabel f)) := by
  rintro g a g' ⟨⟩
  refine ⟨0, rfl, fun n' _ => ?_⟩
  rw [Nat.add_zero, Generated.relabel_storage]
  rfl

theorem follows_emitString (data : Data) :
    Follows f (fun u : Unit => u) (emitString data) (emitString (data.relabel f)) := by
  rintro g a g' ⟨⟩
  refine ⟨0, rfl, fun n' _ => ?_⟩
  rw [Nat.add_zero, Generated.relabel_strings]
  rfl

end Generation

open Generation

def Context.Keeps (context : Context) (f : String → String) : Prop :=
  ∀ label, context.Owns label → f label = label

section

variable {f : String → String} {context : Context}

/-- The labels of functions and globals are the same for both. -/
theorem nameAddress_relabel (hkeeps : context.Keeps f) {frame : Frame} {node : Node} {code : Code}
    (h : nameAddress context frame node = .ok code) : code.relabel f = code := by
  obtain ⟨access, haccess, h⟩ := bind_eq_ok h
  cases access with
  | absolute label size contents =>
      cases h
      simp [Instruction.relabel, hkeeps label (Context.owns_access haccess)]
  | relative offset depth size contents =>
      simp only at h
      split at h
      · cases h
        simp [Instruction.relabel]
      · cases h

theorem callCode_relabel (hkeeps : context.Keeps f) {frame callee : Frame} {node : Node} {id : NodeId} {code : Code}
    (hcallee : context.calleeOf id = .ok callee) (h : callCode frame callee node = .ok code) :
    code.relabel f = code := by
  rw [callCode] at h
  split at h
  · cases h
    simp [Instruction.relabel, hkeeps callee.label (Context.owns_callee hcallee)]
  · cases h

/-! ### Expressions -/

mutual

theorem Expression.value_follows (e : Expression) (hkeeps : context.Keeps f) (frame : Frame) :
    Follows f (Code.relabel f) (e.value context frame) (e.value context frame) := by
  cases e with
  | literal node value =>
      rw [Expression.value]
      cases value.kind with
      | integer => exact follows_pure (by simp)
      | character => exact follows_pure (by simp)
      | string =>
          refine follows_freshDataLabel.bind fun label => ?_
          have hdata : (Data.spanning node.span
              (.label label :: (value.words ++ [0]).map .word)).relabel f
              = Data.spanning node.span (.label (f label) :: (value.words ++ [0]).map .word) := by
            simp [Datum.relabel]
          refine (hdata ▸ follows_emitString _).bind fun _ => follows_pure ?_
          simp [Instruction.relabel]
  | name node name =>
      rw [Expression.value]
      refine .lift_bind fun address haddress => follows_pure ?_
      rw [Code.relabel_append, nameAddress_relabel hkeeps haddress]
      simp [Instruction.relabel]
  | call node callee arguments =>
      rw [Expression.value]
      refine .lift_bind fun calleeFrame hcallee =>
        (argumentValues_follows arguments hkeeps frame).bind fun pushed =>
          .lift_bind fun call hcall => follows_pure ?_
      rw [Code.relabel_append, callCode_relabel hkeeps hcallee hcall]
  | unary node operator operand =>
      have hvalue := operand.value_follows hkeeps frame
      rw [Expression.value]
      cases operator.kind with
      | not => exact hvalue.bind fun c => follows_pure (by simp [Instruction.relabel])
      | negate => exact hvalue.bind fun c => follows_pure (by simp [Instruction.relabel])
      | identity => exact hvalue
      | addressOf => exact operand.address_follows hkeeps frame
      | dereference => exact hvalue.bind fun c => follows_pure (by simp [Instruction.relabel])
  | binary node operator left right =>
      rw [Expression.value]
      exact (right.value_follows hkeeps frame).bind fun r => (left.value_follows hkeeps frame).bind fun l =>
        follows_pure (by simp [Instruction.relabel])

theorem Expression.address_follows (e : Expression) (hkeeps : context.Keeps f) (frame : Frame) :
    Follows f (Code.relabel f) (e.address context frame) (e.address context frame) := by
  cases e with
  | literal node value => exact follows_error fun _ => rfl
  | name node name =>
      rw [Expression.address]
      intro g code g' h
      obtain ⟨haddress, rfl⟩ := lift_ok h
      refine ⟨0, rfl, fun n' _ => ?_⟩
      rw [haddress, nameAddress_relabel hkeeps haddress]
      rfl
  | call node callee arguments => exact follows_error fun _ => rfl
  | unary node operator operand =>
      rw [Expression.address]
      split
      · exact operand.value_follows hkeeps frame
      · exact follows_error fun _ => rfl
  | binary node operator left right => exact follows_error fun _ => rfl

theorem argumentValues_follows (es : List Expression) (hkeeps : context.Keeps f) (frame : Frame) :
    Follows f (Code.relabel f) (argumentValues context frame es) (argumentValues context frame es) := by
  cases es with
  | nil => exact follows_pure rfl
  | cons e es =>
      rw [argumentValues]
      exact (argumentValues_follows es hkeeps frame).bind fun others => (e.value_follows hkeeps frame).bind fun first =>
        follows_pure (by simp)

end

/-! ### Statements and definitions -/

theorem emitLocal_follows (head : Variable) :
    Follows f (Code.relabel f) (emitLocal context head) (emitLocal context head) := by
  rw [emitLocal]
  refine .lift_bind fun access haccess => ?_
  cases access with
  | absolute label size contents => exact follows_error fun _ => rfl
  | relative offset depth size contents =>
      cases contents with
      | none => exact follows_error fun _ => rfl
      | some contents =>
          refine follows_freshDataLabel.bind fun label => ?_
          have hdata : (Data.spanning head.span
              (.label label :: contents.words.map .word)).relabel f
              = Data.spanning head.span (.label (f label) :: contents.words.map .word) := by
            simp [Datum.relabel]
          refine (hdata ▸ follows_emitVariable head.id _).bind fun _ => follows_pure ?_
          simp [Instruction.relabel]

mutual

theorem Statement.generate_follows (s : Statement) (hkeeps : context.Keeps f) (frame : Frame) (keep : Bool) :
    Follows f (Code.relabel f) (s.generate context frame keep) (s.generate context frame keep) := by
  cases s with
  | eval node value =>
      rw [Statement.generate]
      refine (value.value_follows hkeeps frame).bind fun c => follows_pure ?_
      cases keep <;> simp [Instruction.relabel]
  | assign node target source =>
      rw [Statement.generate]
      refine (source.value_follows hkeeps frame).bind fun v =>
        (target.address_follows hkeeps frame).bind fun a => follows_pure ?_
      simp [Instruction.relabel]
  | branch node condition positive negative =>
      rw [Statement.generate]
      refine follows_freshBranchLabels.bind fun labels =>
        (generateStatements_follows positive hkeeps frame false).bind fun p =>
        (generateStatements_follows negative hkeeps frame false).bind fun q =>
        (condition.value_follows hkeeps frame).bind fun c => follows_pure ?_
      simp [Instruction.relabel, BranchLabels.relabel]
  | loop node condition body =>
      rw [Statement.generate]
      refine follows_freshLoopLabels.bind fun labels =>
        (condition.value_follows hkeeps frame).bind fun c =>
        (generateStatements_follows body hkeeps frame false).bind fun p => follows_pure ?_
      simp [Instruction.relabel, LoopLabels.relabel]
  | block node ds body =>
      rw [Statement.generate]
      exact (generateDefinitions_follows ds hkeeps).bind fun entry =>
        (generateStatements_follows body hkeeps frame keep).bind fun c => follows_pure (by simp)

theorem generateStatements_follows (ss : List Statement) (hkeeps : context.Keeps f) (frame : Frame) (keep : Bool) :
    Follows f (Code.relabel f) (generateStatements context frame keep ss)
      (generateStatements context frame keep ss) := by
  match ss with
  | [] => exact follows_pure (by simp)
  | [s] =>
      rw [generateStatements]
      exact s.generate_follows hkeeps frame keep
  | s :: s' :: ss =>
      rw [generateStatements]
      · exact (s.generate_follows hkeeps frame false).bind fun first =>
          (generateStatements_follows (s' :: ss) hkeeps frame keep).bind fun others =>
            follows_pure (by simp)
      · simp

theorem Definition.generate_follows (d : Definition) (hkeeps : context.Keeps f) :
    Follows f (Code.relabel f) (d.generate context) (d.generate context) := by
  cases d with
  | var head =>
      rw [Definition.generate]
      exact emitLocal_follows head
  | func head body =>
      rw [Definition.generate]
      split
      · exact follows_pure rfl
      · refine .lift_bind fun frame hframe => (generateStatements_follows body hkeeps frame true).bind fun c => ?_
        have hlabel := hkeeps frame.label
          (.inl ⟨head.id, frame, Layout.getElem?_of_frame hframe, rfl⟩)
        have hcode : (functionCode head frame c).relabel f = functionCode head frame (c.relabel f) := by
          simp [functionCode, Instruction.relabel, hlabel]
        exact (hcode ▸ follows_emitFunction head.id (functionCode head frame c)).bind fun _ =>
          follows_pure rfl

theorem generateDefinitions_follows (ds : List Definition) (hkeeps : context.Keeps f) :
    Follows f (Code.relabel f) (generateDefinitions context ds) (generateDefinitions context ds) := by
  cases ds with
  | nil => exact follows_pure rfl
  | cons d ds =>
      rw [generateDefinitions]
      exact (d.generate_follows hkeeps).bind fun first => (generateDefinitions_follows ds hkeeps).bind fun others =>
        follows_pure (by simp)

end

theorem emitGlobal_follows (hkeeps : context.Keeps f) (head : Variable) :
    Follows f (fun u : Unit => u) (emitGlobal context head) (emitGlobal context head) := by
  rw [emitGlobal]
  refine .lift_bind fun access haccess => ?_
  cases access with
  | absolute label size contents =>
      have hlabel := hkeeps label
        (.inr ⟨head.id, size, contents, Layout.getElem?_of_access haccess⟩)
      have hdata : (Data.spanning head.span [.label label, .reserve (.ofInt size) (some contents)]).relabel f
          = Data.spanning head.span [.label label, .reserve (.ofInt size) (some contents)] := by
        simp [Datum.relabel, hlabel]
      have hemit := follows_emitVariable (f := f) head.id
        (Data.spanning head.span [.label label, .reserve (.ofInt size) (some contents)])
      rwa [hdata] at hemit
  | relative offset depth size contents => exact follows_error fun _ => rfl

theorem Definition.emit_follows (d : Definition) (hkeeps : context.Keeps f) :
    Follows f (fun u : Unit => u) (d.emit context) (d.emit context) := by
  cases d with
  | var head => exact emitGlobal_follows hkeeps head
  | func head body =>
      exact ((Definition.func head body).generate_follows hkeeps).bind fun _ => follows_pure rfl

/-- Generating a program from another number gives the same with other labels. -/
theorem forM_emit_follows (ds : List Definition) (hkeeps : context.Keeps f) :
    Follows f (fun u : PUnit => u) (ds.forM (Definition.emit context) : Generation PUnit)
      (ds.forM (Definition.emit context) : Generation PUnit) := by
  induction ds with
  | nil => exact follows_pure rfl
  | cons d ds ih =>
      rw [List.forM_eq_forM, List.forM_cons]
      exact (d.emit_follows hkeeps).bind fun _ => ih

end

/-! ## Replacing numbers -/

/-- The labels with the numbers from `k` on, each with the label that has the number as far behind
`k'` instead. -/
def renumbering (k k' m : Nat) : List (String × String) :=
  (List.range m).flatMap fun i => [LabelUse.data, .branch, .loop].flatMap fun use =>
    (use.labels (k + i)).zip (use.labels (k' + i))

/-- Replaces each of the numbers `k`, …, `k + m - 1` in a label by the one as far behind `k'`. -/
def renumber (k k' m : Nat) (label : String) : String :=
  ((renumbering k k' m).lookup label).getD label

section

variable {k k' m : Nat}

theorem mem_renumbering {label label' : String} :
    (label, label') ∈ renumbering k k' m ↔ ∃ i < m, ∃ use : LabelUse, ∃ front ∈ use.fronts,
      label = front ++ ":" ++ toString (k + i) ∧ label' = front ++ ":" ++ toString (k' + i) := by
  have hzip : ∀ (use : LabelUse) (n n' : Nat), (use.labels n).zip (use.labels n')
      = use.fronts.map fun front => (front ++ ":" ++ toString n, front ++ ":" ++ toString n') := by
    intro use n n'
    rw [LabelUse.labels, LabelUse.labels, List.zip_map']
  have huses : ∀ use : LabelUse, use ∈ [LabelUse.data, .branch, .loop] := by
    intro use
    cases use <;> decide
  simp only [renumbering, List.mem_flatMap, List.mem_range, hzip, List.mem_map, Prod.mk.injEq]
  constructor
  · rintro ⟨i, hi, use, -, front, hfront, rfl, rfl⟩
    exact ⟨i, hi, use, front, hfront, rfl, rfl⟩
  · rintro ⟨i, hi, use, front, hfront, rfl, rfl⟩
    exact ⟨i, hi, use, huses use, front, hfront, rfl, rfl⟩

/-- The numbers in question are replaced. -/
theorem renumber_front {use : LabelUse} {front : String} (hfront : front ∈ use.fronts) {i : Nat}
    (hi : i < m) : renumber k k' m (front ++ ":" ++ toString (k + i))
      = front ++ ":" ++ toString (k' + i) := by
  have hcolons : ∀ use : LabelUse, ∀ front ∈ use.fronts, ':' ∉ front.toList := by
    intro use
    cases use <;> decide
  have hmem : (front ++ ":" ++ toString (k + i), front ++ ":" ++ toString (k' + i))
      ∈ renumbering k k' m := mem_renumbering.mpr ⟨i, hi, use, front, hfront, rfl, rfl⟩
  rw [renumber]
  cases hlookup : (renumbering k k' m).lookup (front ++ ":" ++ toString (k + i)) with
  | none =>
      have hne := List.lookup_eq_none_iff.mp hlookup _ hmem
      simp at hne
  | some label =>
      obtain ⟨j, -, use', front', hfront', heq, hlabel⟩ :=
        mem_renumbering.mp (mem_of_lookup hlookup)
      obtain ⟨rfl, hnumber⟩ := append_colon_inj (hcolons use front hfront) heq
      rw [Option.getD_some, hlabel, show j = i by omega]

theorem renumber_renames {i : Nat} (hi : i < m) : Renames (renumber k k' m) (k + i) (k' + i) := by
  intro use
  rw [LabelUse.labels, LabelUse.labels, List.map_map]
  exact List.map_congr_left fun front hfront => renumber_front hfront hi

/-- Labels of functions and globals are not replaced. -/
theorem renumber_eq_self {label : String} (h : ¬ IsNumbered label) : renumber k k' m label = label := by
  rw [renumber]
  cases hlookup : (renumbering k k' m).lookup label with
  | none => rfl
  | some label' =>
      obtain ⟨i, -, use, front, hfront, rfl, -⟩ := mem_renumbering.mp (mem_of_lookup hlookup)
      have hlabel : front ++ ":" ++ toString (k + i) ∈ use.labels (k + i) :=
        List.mem_map_of_mem hfront
      exact absurd (@isNumbered_of_mem_labelsFrom (k + i) [use] _ (List.mem_append_left _ hlabel)) h

end

/-! ## Programs -/

def Fragments.relabel (f : String → String) (fragments : Fragments) : Fragments where
  functions := fragments.functions.map fun _ => Code.relabel f
  storage := fragments.storage.map fun _ => Data.relabel f
  strings := fragments.strings.map (Data.relabel f)

structure Fragments.Agree (a b : Fragments) : Prop where
  functions : a.functions.toList = b.functions.toList
  storage : a.storage.toList = b.storage.toList
  strings : a.strings = b.strings

/-- Tables with the same entries list them in the same order. -/
theorem toList_map_eq {β : Type} {a b : Std.TreeMap NodeId β} {entries entries' : List (NodeId × β)}
    (f : β → β) (ha : a.toList.Perm entries) (hb : b.toList.Perm entries')
    (hentries : entries' = entries.map fun entry => (entry.1, f entry.2)) :
    b.toList = (a.map fun _ => f).toList := by
  refine (Std.TreeMap.Equiv.of_toList_perm ?_).toList_eq
  rw [Std.TreeMap.toList_map]
  subst hentries
  exact hb.trans (ha.map _).symm

/-- The fragments of a program that was generated from two numbers differ in these only. -/
theorem Program.GeneratedFrom.agree {program : Program} {context : Context} {k k' : Nat}
    {fragments fragments' : Fragments} (h : program.GeneratedFrom context k fragments)
    (h' : program.GeneratedFrom context k' fragments') :
    fragments'.Agree (fragments.relabel (renumber k k' program.sites.length)) := by
  obtain ⟨u, g, hrun, rfl, hfunctions, hstorage⟩ := h.run
  obtain ⟨u', g', hrun', rfl, hfunctions', hstorage'⟩ := h'.run
  have hnext : g.labels.next = k + program.sites.length := (forM_emit_numbers program hrun).next
  obtain ⟨m, hm, hfollows⟩ := forM_emit_follows program
    (f := renumber k k' program.sites.length)
    (fun label hlabel => renumber_eq_self (h.owned label hlabel)) _ _ _ hrun
  have hcount : m = program.sites.length := Nat.add_left_cancel (hm.symm.trans hnext)
  subst hcount
  have hempty : Generated.relabel (renumber k k' program.sites.length) k' { labels := ⟨k⟩ }
      = { labels := ⟨k'⟩ } := by
    simp [Generated.relabel]
  have hsecond := hfollows k' fun i hi => renumber_renames hi
  rw [hempty] at hsecond
  cases hrun'.symm.trans hsecond
  refine ⟨toList_map_eq _ hfunctions hfunctions' ?_, toList_map_eq _ hstorage hstorage' ?_, ?_⟩
  · exact Array.toList_map
  · exact Array.toList_map
  · exact Array.toList_map

/-- A label with a number in it is one of just one site. -/
theorem Program.GeneratedFrom.existsUnique_site {program : Program} {context : Context} {n : Nat}
    {fragments : Fragments} (h : program.GeneratedFrom context n fragments) {mention : Mention}
    (hmention : mention ∈ fragments.mentions) (hnumbered : IsNumbered mention.label) :
    ∃! i : Nat, ∃ site, program.sites[i]? = some site ∧ mention ∈ site.mentions (n + i) := by
  obtain ⟨others, howns, hperm⟩ := h.mentions
  rcases List.mem_append.mp (hperm.mem_iff.mp hmention) with hsite | hother
  · obtain ⟨i, site, hget, hmem⟩ := mem_mentionsFrom.mp hsite
    refine ⟨i, ⟨site, hget, hmem⟩, ?_⟩
    rintro j ⟨site', -, hmem'⟩
    have := LabelUse.number_eq (LabelSite.label_of_mem_mentions hmem).2 (LabelSite.label_of_mem_mentions hmem').2
    omega
  · exact absurd hnumbered (h.owned _ (howns mention hother))

/-! ## Rounds -/

structure Round where
  context : Context
  program : Program

def Round.Accepted (round : Round) : Prop := ∃ source analysis layout,
  analyze (Source.withSystemDeclarations source) = .ok analysis ∧
    analysis.program.layOut = .ok layout ∧
    round = ⟨⟨analysis.resolution.definitions, layout⟩, analysis.program⟩

/-- Generates programs one behind the other with the numbers of one counter. -/
def generateRounds : List Round → LabelCounter →
    Except InternalError (List Fragments × LabelCounter)
  | [], counter => .ok ([], counter)
  | round :: rounds, counter => do
    let (fragments, counter) ← round.program.generateCounted round.context counter
    let (others, counter) ← generateRounds rounds counter
    return (fragments :: others, counter)

def numbersTaken (rounds : List Round) : Nat := (rounds.map fun round => round.program.sites.length).sum

@[simp] theorem numbersTaken_cons (round : Round) (rounds : List Round) :
    numbersTaken (round :: rounds) = round.program.sites.length + numbersTaken rounds := rfl

/-- No label with a number in it occurs in both. -/
def Fragments.Apart (a b : Fragments) : Prop :=
  ∀ x ∈ a.mentions, ∀ y ∈ b.mentions, x.label = y.label → ¬ IsNumbered x.label

def Fragments.NumberedBetween (lo hi : Nat) (fragments : Fragments) : Prop :=
  ∀ mention ∈ fragments.mentions, IsNumbered mention.label →
    ∃ n, lo ≤ n ∧ n < hi ∧ ∃ use : LabelUse, mention.label ∈ use.labels n

theorem Program.GeneratedFrom.numberedBetween {program : Program} {context : Context} {n : Nat}
    {fragments : Fragments} (h : program.GeneratedFrom context n fragments) :
    fragments.NumberedBetween n (n + program.sites.length) := by
  intro mention hmention hnumbered
  obtain ⟨i, ⟨site, hsite, hmem⟩, -⟩ := h.existsUnique_site hmention hnumbered
  obtain ⟨hi, -⟩ := List.getElem?_eq_some_iff.mp hsite
  exact ⟨n + i, by omega, by omega, site.use, (LabelSite.label_of_mem_mentions hmem).2⟩

theorem Fragments.NumberedBetween.apart {a b : Fragments} {lo mid hi : Nat}
    (ha : a.NumberedBetween lo mid) (hb : b.NumberedBetween mid hi) : a.Apart b := by
  intro x hx y hy hlabel hnumbered
  obtain ⟨n, -, hn, use, huse⟩ := ha x hx hnumbered
  obtain ⟨n', hn', -, use', huse'⟩ := hb y hy (hlabel ▸ hnumbered)
  have := LabelUse.number_eq huse (hlabel ▸ huse')
  omega

theorem Fragments.NumberedBetween.mono {a : Fragments} {lo lo' hi hi' : Nat}
    (h : a.NumberedBetween lo hi) (hlo : lo' ≤ lo) (hhi : hi ≤ hi') : a.NumberedBetween lo' hi' := by
  intro mention hmention hnumbered
  obtain ⟨n, hn, hn', huse⟩ := h mention hmention hnumbered
  exact ⟨n, hlo.trans hn, hn'.trans_le hhi, huse⟩

theorem Round.Accepted.generatedFrom {round : Round} (h : round.Accepted) (n : Nat) :
    ∃ fragments, round.program.GeneratedFrom round.context n fragments := by
  obtain ⟨source, analysis, layout, hanalyze, hlayout, rfl⟩ := h
  exact analysis.generatedFrom hanalyze hlayout n

/-- From every value of a counter on, a program takes one number for each site, if there are so many. -/
theorem Program.GeneratedFrom.generateCounted {program : Program} {context : Context}
    {counter : LabelCounter} {fragments : Fragments}
    (h : program.GeneratedFrom context counter.next.toNat fragments) :
    (counter.next.toNat + program.sites.length < UInt32.size →
      program.generateCounted context counter
        = .ok (fragments, ⟨.ofNat (counter.next.toNat + program.sites.length)⟩)) ∧
    (UInt32.size ≤ counter.next.toNat + program.sites.length →
      program.generateCounted context counter = .error .additionOverflow) :=
  ⟨fun hlt => generateCounted_of_lt hlt h.generate, fun hle => generateCounted_of_le hle h.generate⟩

/-- Programs that are generated one behind the other take numbers one behind the other, until the
counter runs over. -/
theorem generateRounds_apart {rounds : List Round} (h : ∀ round ∈ rounds, round.Accepted)
    (counter : LabelCounter) :
    (counter.next.toNat + numbersTaken rounds < UInt32.size → ∃ all,
      generateRounds rounds counter
        = .ok (all, ⟨.ofNat (counter.next.toNat + numbersTaken rounds)⟩) ∧
      (∀ fragments ∈ all, fragments.NumberedBetween counter.next.toNat
        (counter.next.toNat + numbersTaken rounds)) ∧
      all.Pairwise Fragments.Apart) ∧
    (UInt32.size ≤ counter.next.toNat + numbersTaken rounds →
      generateRounds rounds counter = .error .additionOverflow) := by
  induction rounds generalizing counter with
  | nil =>
      refine ⟨fun _ => ⟨[], ?_, fun _ hmem => absurd hmem List.not_mem_nil, .nil⟩, fun hle => ?_⟩
      · show Except.ok ([], counter) = .ok ([], ⟨.ofNat counter.next.toNat⟩)
        rw [UInt32.ofNat_toNat]
      · exact absurd counter.next.toNat_lt (Nat.not_lt.mpr hle)
  | cons round rounds ih =>
      obtain ⟨hround, hrounds⟩ := List.forall_mem_cons.mp h
      obtain ⟨fragments, hgenerated⟩ := hround.generatedFrom counter.next.toNat
      obtain ⟨hsucceeds, hfails⟩ := hgenerated.generateCounted
      rw [numbersTaken_cons, ← Nat.add_assoc]
      rcases Nat.lt_or_ge (counter.next.toNat + round.program.sites.length) UInt32.size with hlt | hge
      · obtain ⟨hsucceeds', hfails'⟩ :=
          ih hrounds ⟨.ofNat (counter.next.toNat + round.program.sites.length)⟩
        rw [UInt32.toNat_ofNat_of_lt' hlt] at hsucceeds' hfails'
        refine ⟨fun hall => ?_, fun hle => ?_⟩
        · obtain ⟨others, hothers, hbetween, hapart⟩ := hsucceeds' hall
          have hfirst := hgenerated.numberedBetween
          refine ⟨fragments :: others, ?_, ?_, ?_⟩
          · exact (bind_of_ok (hsucceeds hlt)).trans (bind_of_ok hothers)
          · refine List.forall_mem_cons.mpr ⟨hfirst.mono le_rfl (Nat.le_add_right _ _), ?_⟩
            exact fun other hother => (hbetween other hother).mono (Nat.le_add_right _ _) le_rfl
          · exact List.pairwise_cons.mpr
              ⟨fun other hother => hfirst.apart (hbetween other hother), hapart⟩
        · refine (bind_of_ok (hsucceeds hlt)).trans ?_
          show (generateRounds rounds _ >>= _) = _
          rw [hfails' hle]
          rfl
      · refine ⟨fun hall => absurd hall (by omega), fun _ => ?_⟩
        rw [generateRounds, hfails hge]
        rfl

/-! ## Starting from any number -/

/-- What is generated for a program from any number on: it takes one number of a counter for each site
as long as there is another one behind it, other numbers change nothing else, all labels with a number
are those of its site, and no other program that is generated behind it has any of them. -/
structure Program.Renumbers (program : Program) (context : Context) (fragments : Nat → Fragments) :
    Prop where
  generate : ∀ counter : LabelCounter, counter.next.toNat + program.sites.length < UInt32.size →
    program.generateCounted context counter = .ok (fragments counter.next.toNat,
      ⟨.ofNat (counter.next.toNat + program.sites.length)⟩)
  overflow : ∀ counter : LabelCounter, UInt32.size ≤ counter.next.toNat + program.sites.length →
    program.generateCounted context counter = .error .additionOverflow
  agree : ∀ k k', (fragments k').Agree
    ((fragments k).relabel (renumber k k' program.sites.length))
  renumber_label : ∀ k k' i, i < program.sites.length → ∀ use : LabelUse, ∀ front ∈ use.fronts,
    renumber k k' program.sites.length (front ++ ":" ++ toString (k + i))
      = front ++ ":" ++ toString (k' + i)
  renumber_owned : ∀ k k' label, context.Owns label →
    renumber k k' program.sites.length label = label
  mentions : ∀ k, ∃ others : List Mention, (∀ mention ∈ others, context.Owns mention.label) ∧
    (fragments k).mentions.Perm (mentionsFrom k program.sites ++ others)
  owned : ∀ label, context.Owns label → ¬ IsNumbered label
  site : ∀ k, ∀ mention ∈ (fragments k).mentions, IsNumbered mention.label →
    ∃! i : Nat, ∃ site, program.sites[i]? = some site ∧ mention ∈ site.mentions (k + i)
  nodup_sites : (siteIds program.sites).Nodup
  rounds : ∀ (counter : LabelCounter) (rounds : List Round), (∀ round ∈ rounds, round.Accepted) →
    counter.next.toNat + numbersTaken (⟨context, program⟩ :: rounds) < UInt32.size →
    ∃ others counter', generateRounds (⟨context, program⟩ :: rounds) counter
        = .ok (fragments counter.next.toNat :: others, counter') ∧
      (fragments counter.next.toNat :: others).Pairwise Fragments.Apart
  rounds_overflow : ∀ (counter : LabelCounter) (rounds : List Round),
    (∀ round ∈ rounds, round.Accepted) →
    UInt32.size ≤ counter.next.toNat + numbersTaken (⟨context, program⟩ :: rounds) →
    generateRounds (⟨context, program⟩ :: rounds) counter = .error .additionOverflow

/-- Code generation depends on the number that labels start from in the numbers of labels only, as long
as the counter does not run over. -/
theorem Analysis.renumbers {source : Source} {analysis : Analysis} {layout : Layout}
    (hanalyze : analyze source.withSystemDeclarations = .ok analysis)
    (hlayout : analysis.program.layOut = .ok layout) : ∃ fragments,
      analysis.program.Renumbers ⟨analysis.resolution.definitions, layout⟩ fragments := by
  choose fragments hgenerated using analysis.generatedFrom hanalyze hlayout
  have haccepted : Round.Accepted ⟨⟨analysis.resolution.definitions, layout⟩, analysis.program⟩ :=
    ⟨source, analysis, layout, hanalyze, hlayout, rfl⟩
  refine ⟨fragments, fun counter => (hgenerated _).generateCounted.1,
    fun counter => (hgenerated _).generateCounted.2, fun k k' => (hgenerated k).agree (hgenerated k'),
    fun k k' i hi use front hfront => renumber_front hfront hi,
    fun k k' label hlabel => renumber_eq_self ((hgenerated 0).owned label hlabel),
    fun k => (hgenerated k).mentions, (hgenerated 0).owned,
    fun k mention hmention hnumbered => (hgenerated k).existsUnique_site hmention hnumbered,
    (hgenerated 0).nodup_sites, fun counter rounds hrounds hlt => ?_, fun counter rounds hrounds => ?_⟩
  · obtain ⟨all, hall, -, hapart⟩ :=
      (generateRounds_apart (List.forall_mem_cons.mpr ⟨haccepted, hrounds⟩) counter).1 hlt
    have hfits : counter.next.toNat + analysis.program.sites.length < UInt32.size := by
      rw [numbersTaken_cons, ← Nat.add_assoc] at hlt
      exact (Nat.le_add_right _ _).trans_lt hlt
    obtain ⟨⟨first, counter'⟩, hfirst, h⟩ := bind_eq_ok hall
    cases ((hgenerated _).generateCounted.1 hfits).symm.trans hfirst
    obtain ⟨⟨others, rest⟩, -, h⟩ := bind_eq_ok h
    cases congrArg (Except.map Prod.fst) h
    exact ⟨others, _, hall, hapart⟩
  · exact (generateRounds_apart (List.forall_mem_cons.mpr ⟨haccepted, hrounds⟩) counter).2

def numberedSample : Source :=
  ⟨"fun main()=let var x=3 in while x do putstr(\"x\"),if x then x=x-1 end end end", .memory⟩

theorem sites_numberedSample : ∃ analysis layout,
    analyze numberedSample.withSystemDeclarations = .ok analysis ∧
      analysis.program.layOut = .ok layout ∧
      (analysis.program.sites.map LabelSite.use) = [.data, .loop, .data, .branch] := by
  have hchecks : (analyze numberedSample.withSystemDeclarations).toOption.any
      (fun analysis : Analysis => analysis.program.layOut.toOption.isSome ∧
        (analysis.program.sites.map LabelSite.use) = [.data, .loop, .data, .branch]) = true := by
    rw [analyze_spelled numberedSample rfl (by decide +kernel)]
    decide +kernel
  obtain ⟨analysis, hanalyze, hchecks⟩ := (Option.any_eq_true _ _).mp hchecks
  obtain ⟨hsome, huses⟩ := of_decide_eq_true hchecks
  obtain ⟨layout, hlayout⟩ := Option.isSome_iff_exists.mp hsome
  exact ⟨analysis, layout, toOption_eq_some hanalyze, toOption_eq_some hlayout, huses⟩

theorem Analysis.renumbers_sample : ∃ analysis layout fragments,
    analyze numberedSample.withSystemDeclarations = .ok analysis ∧
      analysis.program.layOut = .ok layout ∧
      analysis.program.Renumbers ⟨analysis.resolution.definitions, layout⟩ fragments ∧
      (analysis.program.sites.map LabelSite.use) = [.data, .loop, .data, .branch] := by
  obtain ⟨analysis, layout, hanalyze, hlayout, huses⟩ := sites_numberedSample
  obtain ⟨fragments, hrenumbers⟩ := Analysis.renumbers hanalyze hlayout
  exact ⟨analysis, layout, fragments, hanalyze, hlayout, hrenumbers, huses⟩

/-- Four numbers are taken from 0 on, but the last number of a counter is never given out. -/
theorem Analysis.renumbers_not : ∃ analysis layout,
    analyze numberedSample.withSystemDeclarations = .ok analysis ∧
      analysis.program.layOut = .ok layout ∧
      (∃ fragments, analysis.program.generateCounted ⟨analysis.resolution.definitions, layout⟩ ⟨0⟩
        = .ok (fragments, ⟨4⟩)) ∧
      analysis.program.generateCounted ⟨analysis.resolution.definitions, layout⟩ ⟨4294967295⟩
        = .error .additionOverflow := by
  obtain ⟨analysis, layout, hanalyze, hlayout, huses⟩ := sites_numberedSample
  have hlength : analysis.program.sites.length = 4 := by
    rw [← List.length_map (f := LabelSite.use), huses]
    rfl
  obtain ⟨first, hfirst⟩ := analysis.generatedFrom hanalyze hlayout 0
  obtain ⟨last, hlast⟩ := analysis.generatedFrom hanalyze hlayout 4294967295
  obtain ⟨hsucceeds, -⟩ := @Program.GeneratedFrom.generateCounted _ _ ⟨0⟩ _ hfirst
  obtain ⟨-, hfails⟩ := @Program.GeneratedFrom.generateCounted _ _ ⟨4294967295⟩ _ hlast
  rw [hlength] at hsucceeds hfails
  exact ⟨analysis, layout, hanalyze, hlayout, ⟨first, hsucceeds (by decide)⟩, hfails (by decide)⟩

end NestedFun
