import NestedFun.Proofs.InitialContents
import NestedFun.Proofs.LabelForms
import NestedFun.Proofs.TreeNumbering

namespace NestedFun

/-!
# Places of functions and variables

What a layout says about a tree: the locals of a function follow one another downwards from its
header, its parameters upwards from its link, and no two functions share a label.
-/

/-! ## States while laying out -/

theorem fitting_ok {n m : Int} {error : InternalError} (h : fitting n error = .ok m) :
    m = n ∧ -2147483648 ≤ n ∧ n < 2147483648 := by
  rw [fitting] at h
  split at h
  · rename_i hchecked
    cases h
    exact checked?_eq_some hchecked
  · cases h

theorem fitting_of_fits {n : Int} (error : InternalError) (hlow : -2147483648 ≤ n)
    (hhigh : n < 2147483648) : fitting n error = .ok n := by
  rw [fitting, checked?_of_fits hlow hhigh]

def Layout.AgreeOn (ids : List NodeId) (a b : Layout) : Prop :=
  ∀ id ∈ ids, a.frames[id]? = b.frames[id]? ∧ a.accesses[id]? = b.accesses[id]?

theorem Layout.AgreeOn.mono {ids ids' : List NodeId} {a b : Layout} (h : AgreeOn ids a b)
    (hsub : ids' ⊆ ids) : AgreeOn ids' a b := fun id hid => h id (hsub hid)

namespace LayoutState

/-- Only the given nodes may have been laid out, and their functions have labels that were free. -/
structure Advances (ids : List NodeId) (a b : LayoutState) : Prop where
  taken_subset : a.taken ⊆ b.taken
  frames_eq : ∀ id ∉ ids, b.layout.frames[id]? = a.layout.frames[id]?
  accesses_eq : ∀ id ∉ ids, b.layout.accesses[id]? = a.layout.accesses[id]?
  frames_new : ∀ (id : NodeId) (frame : Frame), b.layout.frames[id]? = some frame →
    a.layout.frames[id]? = some frame ∨ frame.label ∉ a.taken

namespace Advances

theorem refl (ids : List NodeId) (state : LayoutState) : Advances ids state state :=
  ⟨fun _ h => h, fun _ _ => rfl, fun _ _ => rfl, fun _ _ h => .inl h⟩

theorem trans {ids : List NodeId} {a b c : LayoutState} (h : Advances ids a b)
    (h' : Advances ids b c) : Advances ids a c where
  taken_subset := List.Subset.trans h.taken_subset h'.taken_subset
  frames_eq id hid := (h'.frames_eq id hid).trans (h.frames_eq id hid)
  accesses_eq id hid := (h'.accesses_eq id hid).trans (h.accesses_eq id hid)
  frames_new id frame hframe := by
    rcases h'.frames_new id frame hframe with hold | hnew
    · exact h.frames_new id frame hold
    · exact .inr fun hmem => hnew (h.taken_subset hmem)

theorem mono {ids ids' : List NodeId} {a b : LayoutState} (h : Advances ids a b)
    (hsub : ids ⊆ ids') : Advances ids' a b where
  taken_subset := h.taken_subset
  frames_eq id hid := h.frames_eq id fun hmem => hid (hsub hmem)
  accesses_eq id hid := h.accesses_eq id fun hmem => hid (hsub hmem)
  frames_new := h.frames_new

/-- What was said about other nodes before is still said. -/
theorem agreeOn {ids others : List NodeId} {a b : LayoutState} {layout : Layout}
    (h : Advances ids a b) (hdisjoint : ids.Disjoint others)
    (hagree : Layout.AgreeOn others layout b.layout) : Layout.AgreeOn others layout a.layout := by
  intro id hid
  have hnot : id ∉ ids := fun hmem => hdisjoint hmem hid
  obtain ⟨hframe, haccess⟩ := hagree id hid
  exact ⟨hframe.trans (h.frames_eq id hnot), haccess.trans (h.accesses_eq id hnot)⟩

end Advances

/-- All labels of functions are taken and different; those taken have a dot or are among the
given names. -/
structure Sound (names : List String) (state : LayoutState) : Prop where
  forms : ∀ label ∈ state.taken, IsDotted label ∨ label ∈ names
  frames_taken : ∀ (id : NodeId) (frame : Frame), state.layout.frames[id]? = some frame → frame.label ∈ state.taken
  distinct : ∀ (id : NodeId) (frame : Frame) (id' : NodeId) (frame' : Frame), state.layout.frames[id]? = some frame →
    state.layout.frames[id']? = some frame' → frame.label = frame'.label → id = id'

theorem Sound.mono {names names' : List String} {state : LayoutState} (h : state.Sound names)
    (hsub : names ⊆ names') : state.Sound names' :=
  ⟨fun label hlabel => (h.forms label hlabel).imp_right (@hsub label), h.frames_taken, h.distinct⟩

theorem getElem?_insert {β : Type} (table : Std.TreeMap NodeId β) (id id' : NodeId) (b : β) :
    (table.insert id b)[id']? = if id = id' then some b else table[id']? := by
  rw [Std.TreeMap.getElem?_insert]
  simp only [Std.LawfulEqCmp.compare_eq_iff_eq]

theorem advances_addAccess (state : LayoutState) (id : NodeId) (access : Access) (locals : Int) :
    Advances [id] state ⟨state.taken, state.layout.addAccess id access, locals⟩ where
  taken_subset := fun _ h => h
  frames_eq _ _ := rfl
  accesses_eq id' hid' := by
    have hne : id ≠ id' := fun heq => hid' (by rw [heq]; exact List.mem_cons_self)
    show (state.layout.accesses.insert id access)[id']? = _
    rw [getElem?_insert, if_neg hne]
  frames_new _ _ h := .inl h

theorem Sound.addAccess {names : List String} {state : LayoutState} (h : state.Sound names)
    (id : NodeId) (access : Access) (locals : Int) :
    Sound names ⟨state.taken, state.layout.addAccess id access, locals⟩ :=
  ⟨h.forms, h.frames_taken, h.distinct⟩

theorem addParameters_spec (ps : List Parameter) (state : LayoutState) (depth : Nat)
    (offset : Int) {names : List String} (h : state.Sound names) :
    Advances (ps.flatMap Parameter.ids) state (state.addParameters depth offset ps) ∧
      (state.addParameters depth offset ps).Sound names ∧
      (state.addParameters depth offset ps).locals = state.locals ∧
      (state.addParameters depth offset ps).taken = state.taken := by
  induction ps generalizing state offset with
  | nil => exact ⟨.refl _ _, h, rfl, rfl⟩
  | cons p ps ih =>
      have hfirst := advances_addAccess state p.id (.relative offset depth wordSize none)
        state.locals
      have hsound := h.addAccess p.id (.relative offset depth wordSize none) state.locals
      obtain ⟨hrest, hsound', hlocals, htaken⟩ := ih _ (offset + wordSize) hsound
      refine ⟨(hfirst.mono ?_).trans (hrest.mono ?_), hsound', hlocals, htaken⟩
      · intro id hid
        rw [List.mem_singleton.mp hid]
        simp [Parameter.ids]
      · intro id hid
        rw [List.flatMap_cons]
        exact List.mem_append_right _ hid

/-- A variable takes as many bytes as its contents: at a label of its own name outside all functions,
below the other locals inside one. -/
theorem addVariable_ok {state state' : LayoutState} {owner : Option Owner} {head : Variable}
    (h : state.addVariable owner head = .ok state') : ∃ size access locals,
      (Contents.ofVariable head).size? = some size ∧ access.size = size ∧
      state' = ⟨state.taken, state.layout.addAccess head.id access, locals⟩ ∧
      (owner = none ∧ access = .absolute head.name.text size (.ofVariable head) ∧
          locals = state.locals ∨
        ∃ o, owner = some o ∧
          access = .relative (-headerSize - locals) o.depth size (some (.ofVariable head)) ∧
          locals = state.locals + size ∧ -2147483648 ≤ -headerSize - locals) := by
  simp only [addVariable] at h
  split at h
  · rename_i size hsize
    split at h
    · cases h
      exact ⟨size, _, _, hsize, rfl, rfl, .inl ⟨rfl, rfl, rfl⟩⟩
    · rename_i o
      obtain ⟨locals, hlocals, h⟩ := bind_eq_ok h
      obtain ⟨offset, hoffset, h⟩ := bind_eq_ok h
      cases h
      obtain ⟨rfl, -, -⟩ := fitting_ok hlocals
      obtain ⟨rfl, hlow, -⟩ := fitting_ok hoffset
      exact ⟨size, _, _, hsize, rfl, rfl, .inr ⟨o, rfl, rfl, rfl, hlow⟩⟩
  · cases h

theorem addVariable_spec {state state' : LayoutState} {owner : Option Owner} {head : Variable}
    (h : state.addVariable owner head = .ok state') {names : List String}
    (hsound : state.Sound names) : Advances head.ids state state' ∧ state'.Sound names := by
  have hsub : [head.id] ⊆ head.ids := by
    intro id hid
    rw [List.mem_singleton.mp hid]
    simp [Variable.ids]
  obtain ⟨size, access, locals, -, -, rfl, -⟩ := addVariable_ok h
  exact ⟨(advances_addAccess state _ _ _).mono hsub, hsound.addAccess _ _ _⟩

/-- Another label is taken. -/
theorem Sound.take {names : List String} {state : LayoutState} (h : state.Sound names)
    {label : String} (hform : IsDotted label ∨ label ∈ names) :
    Sound names ⟨label :: state.taken, state.layout, 0⟩ where
  forms other hother := by
    rcases List.mem_cons.mp hother with rfl | hother
    · exact hform
    · exact h.forms other hother
  frames_taken id frame hframe := List.mem_cons_of_mem _ (h.frames_taken id frame hframe)
  distinct := h.distinct

/-- A frame whose label was taken at the start is added at the end. -/
theorem Sound.addFrame {names : List String} {state filled : LayoutState} {ids : List NodeId}
    {id : NodeId} {frame : Frame} {locals : Int} (hstate : state.Sound names)
    (hfree : frame.label ∉ state.taken)
    (hinside : Advances ids ⟨frame.label :: state.taken, state.layout, 0⟩ filled)
    (hfilled : filled.Sound names) :
    Sound names ⟨filled.taken, filled.layout.addFrame id frame, locals⟩ := by
  have hlookup : ∀ id', (filled.layout.addFrame id frame).frames[id']?
      = if id = id' then some frame else filled.layout.frames[id']? :=
    fun id' => getElem?_insert filled.layout.frames id id' frame
  have hother : ∀ (id' : NodeId) (frame' : Frame), filled.layout.frames[id']? = some frame' →
      frame'.label ≠ frame.label := by
    intro id' frame' hframe' heq
    rcases hinside.frames_new id' frame' hframe' with hold | hnew
    · exact hfree (heq ▸ hstate.frames_taken id' frame' hold)
    · exact hnew (heq ▸ List.mem_cons_self)
  refine ⟨hfilled.forms, ?_, ?_⟩
  · intro id' frame' hframe'
    simp only [hlookup] at hframe'
    split at hframe'
    · cases hframe'
      exact hinside.taken_subset List.mem_cons_self
    · exact hfilled.frames_taken id' frame' hframe'
  · intro id₁ frame₁ id₂ frame₂ h₁ h₂ heq
    simp only [hlookup] at h₁ h₂
    split at h₁
    · rename_i hid₁
      cases h₁
      split at h₂
      · rename_i hid₂
        exact hid₁.symm.trans hid₂
      · exact absurd heq.symm (hother id₂ frame₂ h₂)
    · split at h₂
      · cases h₂
        exact absurd heq (hother id₁ frame₁ h₁)
      · exact hfilled.distinct id₁ frame₁ id₂ frame₂ h₁ h₂ heq

theorem advances_addFrame {state filled : LayoutState} {ids : List NodeId} {id : NodeId}
    {frame : Frame} {locals : Int} (hfree : frame.label ∉ state.taken) (hid : id ∈ ids)
    (hinside : Advances ids ⟨frame.label :: state.taken, state.layout, 0⟩ filled) :
    Advances ids state ⟨filled.taken, filled.layout.addFrame id frame, locals⟩ where
  taken_subset := fun label hlabel => hinside.taken_subset (List.mem_cons_of_mem _ hlabel)
  frames_eq id' hid' := by
    have hne : id ≠ id' := fun heq => hid' (heq ▸ hid)
    show (filled.layout.frames.insert id frame)[id']? = _
    rw [getElem?_insert, if_neg hne]
    exact hinside.frames_eq id' hid'
  accesses_eq := hinside.accesses_eq
  frames_new id' frame' hframe' := by
    have hlookup : (filled.layout.frames.insert id frame)[id']? = some frame' := hframe'
    rw [getElem?_insert] at hlookup
    split at hlookup
    · cases hlookup
      exact .inr hfree
    · rcases hinside.frames_new id' frame' hlookup with hold | hnew
      · exact .inl hold
      · exact .inr fun hmem => hnew (List.mem_cons_of_mem _ hmem)

end LayoutState

open LayoutState

/-- What laying out a function consists of. -/
theorem layOut_func {owner : Option Owner} {state state' : LayoutState} {head : FunctionHead}
    {body : List Statement} (h : (Definition.func head body).layOut owner state = .ok state') :
    ∃ label depth filled, label = freeLabel (baseLabel owner head.name.text) state.taken 0 ∧
      depth = (owner.map fun owner => owner.depth).getD 0 + 1 ∧
      layOutStatements (some ⟨label, depth⟩)
        (LayoutState.addParameters ⟨label :: state.taken, state.layout, 0⟩ depth linkSize
          head.parameters) body = .ok filled ∧
      ((head.parameters.length : Int) * wordSize + linkSize < 2147483648 ∧
        -2147483648 ≤ filled.locals + 8 ∧ filled.locals + 8 < 2147483648) ∧
      state' = ⟨filled.taken, filled.layout.addFrame head.id ⟨head.name.text, label, depth,
        head.parameters.length * wordSize + linkSize, filled.locals + 8⟩, state.locals⟩ := by
  rw [Definition.layOut] at h
  obtain ⟨parameters, hparameters, h⟩ := bind_eq_ok h
  obtain ⟨filled, hfilled, h⟩ := bind_eq_ok h
  obtain ⟨parametersSize, hparametersSize, h⟩ := bind_eq_ok h
  obtain ⟨localsSize, hlocalsSize, h⟩ := bind_eq_ok h
  cases h
  obtain ⟨rfl, -, -⟩ := fitting_ok hparameters
  obtain ⟨rfl, -, hparameters⟩ := fitting_ok hparametersSize
  obtain ⟨rfl, hlow, hhigh⟩ := fitting_ok hlocalsSize
  exact ⟨_, _, filled, rfl, rfl, hfilled, ⟨hparameters, hlow, hhigh⟩, rfl⟩

/-- A function is laid out if its inside is and its sizes fit words. -/
theorem layOut_func_of_fits {owner : Option Owner} {state filled : LayoutState} {head : FunctionHead}
    {body : List Statement} {label : String} {depth : Nat}
    (hlabel : label = freeLabel (baseLabel owner head.name.text) state.taken 0)
    (hdepth : depth = (owner.map fun owner => owner.depth).getD 0 + 1)
    (hparameters : 4 * ((head.parameters.length : Int) + 1) < 2147483648)
    (hbody : layOutStatements (some ⟨label, depth⟩) (LayoutState.addParameters
      ⟨label :: state.taken, state.layout, 0⟩ depth linkSize head.parameters) body = .ok filled)
    (hlow : -2147483648 ≤ filled.locals + headerSize)
    (hhigh : filled.locals + headerSize < 2147483648) :
    (Definition.func head body).layOut owner state
      = .ok ⟨filled.taken, filled.layout.addFrame head.id ⟨head.name.text, label, depth,
        head.parameters.length * wordSize + linkSize, filled.locals + headerSize⟩, state.locals⟩ := by
  have hsum : (head.parameters.length : Int) * (wordSize : Nat) + linkSize
      = 4 * ((head.parameters.length : Int) + 1) := by
    rw [linkSize, wordSize]
    push_cast
    ring
  have hbytes : -2147483648 ≤ (head.parameters.length : Int) * (wordSize : Nat) ∧
      (head.parameters.length : Int) * (wordSize : Nat) < 2147483648 := by
    rw [wordSize]
    omega
  subst hlabel hdepth
  rw [Definition.layOut]
  exact (bind_of_ok (fitting_of_fits _ hbytes.1 hbytes.2)).trans
    ((bind_of_ok hbody).trans
      ((bind_of_ok (fitting_of_fits _ (by omega) (by omega))).trans
        (bind_of_ok (fitting_of_fits _ hlow hhigh))))

/-- The names that laying out a definition may take as labels besides those with a dot. -/
def labelNames (owner : Option Owner) (names : List String) (definition : Definition) :
    List String :=
  match owner with
  | none => definition.name.text :: names
  | some _ => names

theorem subset_labelNames (owner : Option Owner) (names : List String) (d : Definition) :
    names ⊆ labelNames owner names d := by
  cases owner with
  | none => exact fun _ h => List.mem_cons_of_mem _ h
  | some owner => exact fun _ h => h

theorem freeLabel_form (owner : Option Owner) (names taken : List String) (head : FunctionHead)
    (body : List Statement) :
    IsDotted (freeLabel (baseLabel owner head.name.text) taken 0) ∨
      freeLabel (baseLabel owner head.name.text) taken 0
        ∈ labelNames owner names (.func head body) := by
  cases owner with
  | some owner => exact .inl ((isDotted_baseLabel owner _).freeLabel taken)
  | none =>
      obtain ⟨k, _, hlabel, _⟩ := freeLabel_spec head.name.text taken 0
      show IsDotted (freeLabel head.name.text taken 0) ∨ _
      rw [show baseLabel none head.name.text = head.name.text from rfl, hlabel]
      cases k with
      | zero => exact .inr List.mem_cons_self
      | succ k => exact .inl (isDotted_numberedLabel _ (Nat.succ_pos k))

mutual

theorem Definition.layOut_spec (d : Definition) {owner : Option Owner} {names : List String}
    {state state' : LayoutState} (h : d.layOut owner state = .ok state')
    (hsound : state.Sound names) :
    Advances d.ids state state' ∧ state'.Sound (labelNames owner names d) := by
  cases d with
  | var head =>
      rw [Definition.layOut] at h
      obtain ⟨hadvances, hsound'⟩ := addVariable_spec h hsound
      exact ⟨hadvances, hsound'.mono (subset_labelNames owner names _)⟩
  | func head body =>
      obtain ⟨label, depth, filled, hlabel, hdepth, hbody, _, rfl⟩ := layOut_func h
      have hnames := subset_labelNames owner names (.func head body)
      have hform := freeLabel_form owner names state.taken head body
      rw [← hlabel] at hform
      have hfree : label ∉ state.taken := hlabel ▸ freeLabel_not_mem _ _
      obtain ⟨hparameters, hsound₁, hlocals, _⟩ := addParameters_spec head.parameters
        ⟨label :: state.taken, state.layout, 0⟩ depth linkSize ((hsound.mono hnames).take hform)
      obtain ⟨hstatements, hsound₂⟩ := layOutStatements_spec body hbody hsound₁
      have hinside : Advances (Definition.func head body).ids
          ⟨label :: state.taken, state.layout, 0⟩ filled := by
        refine (hparameters.mono ?_).trans (hstatements.mono ?_)
        · intro id hid
          simp [Definition.ids, List.mem_flatMap.mp hid]
        · intro id hid
          simp [Definition.ids, hid]
      have hid : head.id ∈ (Definition.func head body).ids := by simp [Definition.ids]
      exact ⟨advances_addFrame hfree hid hinside,
        (hsound.mono hnames).addFrame hfree hinside hsound₂⟩

theorem layOutDefinitions_spec (ds : List Definition) {owner : Owner} {names : List String}
    {state state' : LayoutState} (h : layOutDefinitions (some owner) state ds = .ok state')
    (hsound : state.Sound names) :
    Advances (definitionIds ds) state state' ∧ state'.Sound names := by
  cases ds with
  | nil =>
      cases h
      exact ⟨.refl _ _, hsound⟩
  | cons d ds =>
      rw [layOutDefinitions] at h
      obtain ⟨state₁, hfirst, h⟩ := bind_eq_ok h
      obtain ⟨h₁, hsound₁⟩ := d.layOut_spec hfirst hsound
      obtain ⟨h₂, hsound₂⟩ := layOutDefinitions_spec ds h hsound₁
      exact ⟨(h₁.mono (List.subset_append_left _ _)).trans
        (h₂.mono (List.subset_append_right _ _)), hsound₂⟩

theorem Statement.layOut_spec (s : Statement) {owner : Owner} {names : List String}
    {state state' : LayoutState} (h : s.layOut (some owner) state = .ok state')
    (hsound : state.Sound names) : Advances s.ids state state' ∧ state'.Sound names := by
  cases s with
  | eval node value =>
      cases h
      exact ⟨.refl _ _, hsound⟩
  | assign node target source =>
      cases h
      exact ⟨.refl _ _, hsound⟩
  | branch node condition positive negative =>
      rw [Statement.layOut] at h
      obtain ⟨state₁, hpositive, h⟩ := bind_eq_ok h
      obtain ⟨h₁, hsound₁⟩ := layOutStatements_spec positive hpositive hsound
      obtain ⟨h₂, hsound₂⟩ := layOutStatements_spec negative h hsound₁
      refine ⟨(h₁.mono ?_).trans (h₂.mono ?_), hsound₂⟩
      · intro id hid
        simp [Statement.ids, hid]
      · intro id hid
        simp [Statement.ids, hid]
  | loop node condition body =>
      rw [Statement.layOut] at h
      obtain ⟨h₁, hsound₁⟩ := layOutStatements_spec body h hsound
      refine ⟨h₁.mono ?_, hsound₁⟩
      intro id hid
      simp [Statement.ids, hid]
  | block node ds body =>
      rw [Statement.layOut] at h
      obtain ⟨state₁, hds, h⟩ := bind_eq_ok h
      obtain ⟨h₁, hsound₁⟩ := layOutDefinitions_spec ds hds hsound
      obtain ⟨h₂, hsound₂⟩ := layOutStatements_spec body h hsound₁
      refine ⟨(h₁.mono ?_).trans (h₂.mono ?_), hsound₂⟩
      · intro id hid
        simp [Statement.ids, hid]
      · intro id hid
        simp [Statement.ids, hid]

theorem layOutStatements_spec (ss : List Statement) {owner : Owner} {names : List String}
    {state state' : LayoutState} (h : layOutStatements (some owner) state ss = .ok state')
    (hsound : state.Sound names) :
    Advances (statementIds ss) state state' ∧ state'.Sound names := by
  cases ss with
  | nil =>
      cases h
      exact ⟨.refl _ _, hsound⟩
  | cons s ss =>
      rw [layOutStatements] at h
      obtain ⟨state₁, hfirst, h⟩ := bind_eq_ok h
      obtain ⟨h₁, hsound₁⟩ := s.layOut_spec hfirst hsound
      obtain ⟨h₂, hsound₂⟩ := layOutStatements_spec ss h hsound₁
      exact ⟨(h₁.mono (List.subset_append_left _ _)).trans
        (h₂.mono (List.subset_append_right _ _)), hsound₂⟩

end

/-! ## Places in a layout -/

/-- The parameters of a function stand one above the other, from an offset on. -/
def ParametersPlaced (layout : Layout) (depth : Nat) : Int → List Parameter → Prop
  | _, [] => True
  | offset, parameter :: parameters =>
    layout.accesses[parameter.id]? = some (.relative offset depth 4 none) ∧
      ParametersPlaced layout depth (offset + 4) parameters

/-- A global stands at a label of its name; a local right below the bytes of locals before it. Both
have room for their words. -/
def Variable.Placed (layout : Layout) (depth : Nat) (before after : Int) (head : Variable) : Prop :=
  head.Sized ∧
    if depth = 0 then
      layout.accesses[head.id]?
          = some (.absolute head.name.text (4 * head.words.length) (.ofVariable head)) ∧
        after = before
    else
      layout.accesses[head.id]?
          = some (.relative (-8 - after) depth (4 * head.words.length) (some (.ofVariable head))) ∧
        after = before + 4 * head.words.length ∧ -2147483648 ≤ -8 - after

structure Frame.Fits (frame : Frame) (depth : Nat) (head : FunctionHead) : Prop where
  name_eq : frame.name = head.name.text
  depth_eq : frame.depth = depth + 1
  parametersSize_eq : frame.parametersSize = 4 * head.parameters.length + 4
  parametersSize_lt : frame.parametersSize < 2147483648
  localsSize_lt : frame.localsSize < 2147483648
  label_top : depth = 0 → frame.label = head.name.text
  label_inside : 0 < depth → IsDotted frame.label

mutual

/-- The places of everything in a definition; `before` and `after` count the bytes of locals. -/
def Definition.Placed (layout : Layout) (depth : Nat) (before after : Int) : Definition → Prop
  | .var head => head.Placed layout depth before after
  | .func head body => after = before ∧ ∃ frame, layout.frames[head.id]? = some frame ∧
      frame.Fits depth head ∧ ParametersPlaced layout (depth + 1) 4 head.parameters ∧
      PlacedStatements layout (depth + 1) 0 (frame.localsSize - 8) body

def PlacedDefinitions (layout : Layout) (depth : Nat) (before after : Int) :
    List Definition → Prop
  | [] => after = before
  | definition :: definitions => ∃ between, definition.Placed layout depth before between ∧
      PlacedDefinitions layout depth between after definitions

def Statement.Placed (layout : Layout) (depth : Nat) (before after : Int) : Statement → Prop
  | .eval _ _ | .assign _ _ _ => after = before
  | .branch _ _ positive negative => ∃ between, PlacedStatements layout depth before between positive
      ∧ PlacedStatements layout depth between after negative
  | .loop _ _ body => PlacedStatements layout depth before after body
  | .block _ definitions body => ∃ between,
      PlacedDefinitions layout depth before between definitions ∧
      PlacedStatements layout depth between after body

def PlacedStatements (layout : Layout) (depth : Nat) (before after : Int) :
    List Statement → Prop
  | [] => after = before
  | statement :: statements => ∃ between, statement.Placed layout depth before between ∧
      PlacedStatements layout depth between after statements

end

theorem addParameters_placed (ps : List Parameter) (state : LayoutState) (depth : Nat)
    (offset : Int) {names : List String} (hsound : state.Sound names)
    (hnodup : (ps.flatMap Parameter.ids).Nodup) {layout : Layout}
    (hagree : Layout.AgreeOn (ps.flatMap Parameter.ids) layout
      (state.addParameters depth offset ps).layout) :
    ParametersPlaced layout depth offset ps := by
  induction ps generalizing state offset with
  | nil => trivial
  | cons p ps ih =>
      rw [List.flatMap_cons] at hnodup hagree
      have hsound' := hsound.addAccess p.id (.relative offset depth wordSize none) state.locals
      obtain ⟨hadvances, _⟩ := addParameters_spec ps _ depth (offset + wordSize) hsound'
      have hp : p.id ∈ p.ids := by simp [Parameter.ids]
      have hdisjoint := List.disjoint_of_nodup_append hnodup
      refine ⟨?_, ih _ _ hsound' hnodup.of_append_right
        (hagree.mono (List.subset_append_right _ _))⟩
      rw [(hagree p.id (List.mem_append_left _ hp)).2]
      refine (hadvances.accesses_eq p.id fun hmem => hdisjoint hp hmem).trans ?_
      show (state.layout.accesses.insert p.id _)[p.id]? = _
      rw [getElem?_insert, if_pos rfl]
      rfl

theorem addVariable_placed {state state' : LayoutState} {owner : Option Owner} {head : Variable}
    (h : state.addVariable owner head = .ok state')
    (hwell : ∀ i ∈ head.initializers, i.WellFormed)
    (howner : ∀ o, owner = some o → 0 < o.depth) {layout : Layout}
    (hagree : Layout.AgreeOn head.ids layout state'.layout) :
    head.Placed layout ((owner.map fun owner => owner.depth).getD 0) state.locals
      state'.locals := by
  obtain ⟨size, access, locals, hsize, -, rfl, hplace⟩ := addVariable_ok h
  obtain ⟨rfl, hsized⟩ := Contents.size?_eq hwell hsize
  have haccess : layout.accesses[head.id]? = some access := by
    rw [(hagree head.id (by simp [Variable.ids])).2]
    show (state.layout.accesses.insert head.id access)[head.id]? = _
    rw [getElem?_insert, if_pos rfl]
  refine ⟨hsized, ?_⟩
  rcases hplace with ⟨rfl, rfl, rfl⟩ | ⟨o, rfl, rfl, rfl, hlow⟩
  · have hzero : (Option.map (fun owner : Owner => owner.depth) none).getD 0 = 0 := rfl
    rw [if_pos hzero]
    exact ⟨haccess, rfl⟩
  · have hdepth := howner o rfl
    rw [if_neg (by simp only [Option.map_some, Option.getD_some]; omega)]
    exact ⟨haccess, rfl, hlow⟩

mutual

theorem Definition.layOut_placed (d : Definition) {owner : Option Owner} {names : List String}
    {state state' : LayoutState} (h : d.layOut owner state = .ok state')
    (hsound : state.Sound names) (hwell : d.WellFormed) (hnodup : d.ids.Nodup)
    (howner : ∀ o, owner = some o → 0 < o.depth) (hname : owner = none → d.name.text ∉ names)
    {layout : Layout} (hagree : Layout.AgreeOn d.ids layout state'.layout) :
    d.Placed layout ((owner.map fun owner => owner.depth).getD 0) state.locals state'.locals := by
  cases d with
  | var head =>
      rw [Definition.layOut] at h
      exact addVariable_placed h hwell.2 howner hagree
  | func head body =>
      obtain ⟨label, depth, filled, hlabel, hdepth, hbody, ⟨hparameters', hlow, hhigh⟩, rfl⟩ := layOut_func h
      have hsubset := subset_labelNames owner names (.func head body)
      have hform := freeLabel_form owner names state.taken head body
      rw [← hlabel] at hform
      obtain ⟨hparameters, hsound₁, hlocals, _⟩ := addParameters_spec head.parameters
        ⟨label :: state.taken, state.layout, 0⟩ depth linkSize ((hsound.mono hsubset).take hform)
      obtain ⟨hstatements, _⟩ := layOutStatements_spec body hbody hsound₁
      have hids : (Definition.func head body).ids
        = [head.name.id] ++ head.parameters.flatMap Parameter.ids ++ statementIds body
          ++ [head.id] := by simp [Definition.ids]
      rw [hids] at hnodup hagree
      have hinner := hnodup.of_append_left
      have hhead := List.disjoint_of_nodup_append hnodup
      -- the frame is added last, so about everything inside the tables agree before
      have hagree' : Layout.AgreeOn ([head.name.id] ++ head.parameters.flatMap Parameter.ids
          ++ statementIds body) layout filled.layout := by
        intro id hid
        obtain ⟨hframe, haccess⟩ := hagree id (List.mem_append_left _ hid)
        refine ⟨hframe.trans ?_, haccess⟩
        show (filled.layout.frames.insert head.id _)[id]? = _
        rw [getElem?_insert, if_neg]
        rintro rfl
        exact hhead hid List.mem_cons_self
      have hbodyPlaced := layOutStatements_placed body hbody hsound₁ hwell.2
        hinner.of_append_right (by show 0 < depth; omega)
        (hagree'.mono (List.subset_append_right _ _))
      have hparametersPlaced := addParameters_placed head.parameters _ depth linkSize
        ((hsound.mono hsubset).take hform) hinner.of_append_left.of_append_right
        (hstatements.agreeOn (List.disjoint_of_subset_right (List.subset_append_right _ _)
          (List.disjoint_of_nodup_append hinner).symm)
          (hagree'.mono fun id hid => by simp [List.mem_flatMap.mp hid]))
      rw [hlocals] at hbodyPlaced
      refine ⟨rfl, ⟨head.name.text, label, depth, head.parameters.length * wordSize + linkSize,
        filled.locals + 8⟩, ?_, ?_, ?_, ?_⟩
      · rw [(hagree head.id (by simp)).1]
        show (filled.layout.frames.insert head.id _)[head.id]? = _
        rw [getElem?_insert, if_pos rfl]
      · refine ⟨rfl, hdepth, ?_, hparameters', hhigh, ?_, ?_⟩
        · show (head.parameters.length : Int) * 4 + 4 = _
          ring
        · intro hzero
          cases owner with
          | some o =>
              have := howner o rfl
              simp only [Option.map_some, Option.getD_some] at hzero
              omega
          | none =>
              refine hlabel.trans (freeLabel_of_not_mem fun hmem => ?_)
              rcases hsound.forms _ hmem with hdot | hmem'
              · exact hwell.1.isPlain.not_dotted hdot
              · exact hname rfl hmem'
        · intro hpos
          cases owner with
          | none => simp at hpos
          | some o =>
              show IsDotted label
              rw [hlabel]
              exact (isDotted_baseLabel o _).freeLabel _
      · rw [← hdepth]
        exact hparametersPlaced
      · rw [← hdepth]
        show PlacedStatements layout depth 0 (filled.locals + 8 - 8) body
        rw [add_sub_cancel_right]
        exact hbodyPlaced

theorem layOutDefinitions_placed (ds : List Definition) {owner : Owner} {names : List String}
    {state state' : LayoutState} (h : layOutDefinitions (some owner) state ds = .ok state')
    (hsound : state.Sound names) (hwell : WellFormedDefinitions ds)
    (hnodup : (definitionIds ds).Nodup) (howner : 0 < owner.depth) {layout : Layout}
    (hagree : Layout.AgreeOn (definitionIds ds) layout state'.layout) :
    PlacedDefinitions layout owner.depth state.locals state'.locals ds := by
  cases ds with
  | nil =>
      cases h
      rfl
  | cons d ds =>
      rw [layOutDefinitions] at h
      obtain ⟨state₁, hfirst, h⟩ := bind_eq_ok h
      obtain ⟨_, hsound₁⟩ := d.layOut_spec hfirst hsound
      obtain ⟨hrest, _⟩ := layOutDefinitions_spec ds h hsound₁
      rw [definitionIds] at hnodup hagree
      have hdisjoint := List.disjoint_of_nodup_append hnodup
      exact ⟨state₁.locals,
        d.layOut_placed hfirst hsound hwell.1 hnodup.of_append_left
          (fun o ho => by cases ho; exact howner) nofun
          (hrest.agreeOn hdisjoint.symm (hagree.mono (List.subset_append_left _ _))),
        layOutDefinitions_placed ds h hsound₁ hwell.2 hnodup.of_append_right howner
          (hagree.mono (List.subset_append_right _ _))⟩

theorem Statement.layOut_placed (s : Statement) {owner : Owner} {names : List String}
    {state state' : LayoutState} (h : s.layOut (some owner) state = .ok state')
    (hsound : state.Sound names) (hwell : s.WellFormed) (hnodup : s.ids.Nodup)
    (howner : 0 < owner.depth) {layout : Layout}
    (hagree : Layout.AgreeOn s.ids layout state'.layout) :
    s.Placed layout owner.depth state.locals state'.locals := by
  cases s with
  | eval node value =>
      cases h
      rfl
  | assign node target source =>
      cases h
      rfl
  | branch node condition positive negative =>
      rw [Statement.layOut] at h
      obtain ⟨state₁, hpositive, h⟩ := bind_eq_ok h
      obtain ⟨_, hsound₁⟩ := layOutStatements_spec positive hpositive hsound
      obtain ⟨hrest, _⟩ := layOutStatements_spec negative h hsound₁
      rw [Statement.ids] at hnodup hagree
      have hnodup' := hnodup.of_append_left
      have hdisjoint := List.disjoint_of_nodup_append hnodup'
      refine ⟨state₁.locals,
        layOutStatements_placed positive hpositive hsound hwell.2.1
          hnodup'.of_append_left.of_append_right howner
          (hrest.agreeOn
            (List.disjoint_of_subset_right (List.subset_append_right _ _) hdisjoint.symm)
            (hagree.mono fun id hid => by simp [hid])),
        layOutStatements_placed negative h hsound₁ hwell.2.2 hnodup'.of_append_right howner
          (hagree.mono fun id hid => by simp [hid])⟩
  | loop node condition body =>
      rw [Statement.layOut] at h
      rw [Statement.ids] at hnodup hagree
      exact layOutStatements_placed body h hsound hwell.2 hnodup.of_append_left.of_append_right
        howner (hagree.mono fun id hid => by simp [hid])
  | block node ds body =>
      rw [Statement.layOut] at h
      obtain ⟨state₁, hds, h⟩ := bind_eq_ok h
      obtain ⟨_, hsound₁⟩ := layOutDefinitions_spec ds hds hsound
      obtain ⟨hrest, _⟩ := layOutStatements_spec body h hsound₁
      rw [Statement.ids] at hnodup hagree
      have hnodup' := hnodup.of_append_left
      have hdisjoint := List.disjoint_of_nodup_append hnodup'
      exact ⟨state₁.locals,
        layOutDefinitions_placed ds hds hsound hwell.1 hnodup'.of_append_left howner
          (hrest.agreeOn hdisjoint.symm (hagree.mono fun id hid => by simp [hid])),
        layOutStatements_placed body h hsound₁ hwell.2 hnodup'.of_append_right howner
          (hagree.mono fun id hid => by simp [hid])⟩

theorem layOutStatements_placed (ss : List Statement) {owner : Owner} {names : List String}
    {state state' : LayoutState} (h : layOutStatements (some owner) state ss = .ok state')
    (hsound : state.Sound names) (hwell : WellFormedStatements ss)
    (hnodup : (statementIds ss).Nodup) (howner : 0 < owner.depth) {layout : Layout}
    (hagree : Layout.AgreeOn (statementIds ss) layout state'.layout) :
    PlacedStatements layout owner.depth state.locals state'.locals ss := by
  cases ss with
  | nil =>
      cases h
      rfl
  | cons s ss =>
      rw [layOutStatements] at h
      obtain ⟨state₁, hfirst, h⟩ := bind_eq_ok h
      obtain ⟨_, hsound₁⟩ := s.layOut_spec hfirst hsound
      obtain ⟨hrest, _⟩ := layOutStatements_spec ss h hsound₁
      rw [statementIds] at hnodup hagree
      have hdisjoint := List.disjoint_of_nodup_append hnodup
      exact ⟨state₁.locals,
        s.layOut_placed hfirst hsound hwell.1 hnodup.of_append_left howner
          (hrest.agreeOn hdisjoint.symm (hagree.mono (List.subset_append_left _ _))),
        layOutStatements_placed ss h hsound₁ hwell.2 hnodup.of_append_right howner
          (hagree.mono (List.subset_append_right _ _))⟩

end

/-! ## The whole program -/

theorem layOutGlobals_placed (ds : List Definition) {names : List String}
    {state state' : LayoutState} (h : layOutDefinitions none state ds = .ok state')
    (hsound : state.Sound names) (hwell : WellFormedDefinitions ds)
    (hnodup : (definitionIds ds).Nodup) (hnames : (ds.map fun d => d.name.text).Nodup)
    (hfresh : ∀ d ∈ ds, d.name.text ∉ names) :
    Advances (definitionIds ds) state state' ∧ (∃ names', state'.Sound names') ∧
      ∀ layout, Layout.AgreeOn (definitionIds ds) layout state'.layout →
        PlacedDefinitions layout 0 state.locals state'.locals ds := by
  induction ds generalizing state names with
  | nil =>
      cases h
      exact ⟨.refl _ _, ⟨names, hsound⟩, fun _ _ => rfl⟩
  | cons d ds ih =>
      rw [layOutDefinitions] at h
      obtain ⟨state₁, hfirst, h⟩ := bind_eq_ok h
      obtain ⟨hadvances, hsound₁⟩ := d.layOut_spec hfirst hsound
      rw [List.map_cons, List.nodup_cons] at hnames
      rw [definitionIds] at hnodup
      have hdisjoint := List.disjoint_of_nodup_append hnodup
      have hfresh₁ : ∀ e ∈ ds, e.name.text ∉ labelNames none names d := by
        intro e he hmem
        rcases List.mem_cons.mp hmem with heq | hmem
        · exact hnames.1 (List.mem_map.mpr ⟨e, he, heq⟩)
        · exact hfresh e (List.mem_cons_of_mem _ he) hmem
      obtain ⟨hrest, hsound', hplaced⟩ := ih h hsound₁ hwell.2 hnodup.of_append_right hnames.2 hfresh₁
      refine ⟨(hadvances.mono (List.subset_append_left _ _)).trans
        (hrest.mono (List.subset_append_right _ _)), hsound', fun layout hagree => ?_⟩
      exact ⟨state₁.locals,
        d.layOut_placed hfirst hsound hwell.1 hnodup.of_append_left nofun
          (fun _ => hfresh d List.mem_cons_self)
          (hrest.agreeOn hdisjoint.symm (hagree.mono (List.subset_append_left _ _))),
        hplaced layout (hagree.mono (List.subset_append_right _ _))⟩

/-- Everything in a program has its place, and no two functions share a label. -/
theorem Program.layOut_placed (program : Program) {layout : Layout}
    (h : program.layOut = .ok layout) (hwell : WellFormedDefinitions program)
    (hnodup : (definitionIds program).Nodup)
    (hnames : (program.map fun d => d.name.text).Nodup) :
    (∃ after, PlacedDefinitions layout 0 0 after program) ∧
      ∀ (id : NodeId) (frame : Frame) (id' : NodeId) (frame' : Frame),
        layout.frames[id]? = some frame → layout.frames[id']? = some frame' →
        frame.label = frame'.label → id = id' := by
  obtain ⟨state, hstate, h⟩ := bind_eq_ok h
  cases h
  have hsound : LayoutState.Sound [] {} := by
    refine ⟨?_, ?_, ?_⟩
    · intro label hlabel
      cases hlabel
    · intro id frame hframe
      simp at hframe
    · intro id frame id' frame' hframe
      simp at hframe
  obtain ⟨_, ⟨names, hsound'⟩, hplaced⟩ :=
    layOutGlobals_placed program hstate hsound hwell hnodup hnames (by simp)
  exact ⟨⟨state.locals, hplaced state.layout fun _ _ => ⟨rfl, rfl⟩⟩, hsound'.distinct⟩

end NestedFun
