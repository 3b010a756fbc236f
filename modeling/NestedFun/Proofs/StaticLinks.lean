import NestedFun.Proofs.Runs
import NestedFun.Proofs.Surroundings

namespace NestedFun

/-!
# Static links

In a running program that assigns to names only, the static link of every active frame is the most
recent frame of the function around it. So the loads with which code reaches a variable further out
end at the frame that the variable belongs to.
-/

structure ActiveFrame where
  address : Word
  function : NodeId

/-- The frames that follow one another from an address on by their saved frame pointers, up to the end
of the memory. -/
inductive Memory.Frames (m : Memory) : Word → List Word → Prop
  | stop : Frames m (.ofInt m.size) []
  | saved {address caller : Word} {others : List Word} (hne : address ≠ .ofInt m.size)
      (hcaller : m.read (address - 4) = .ok caller) (h : Frames m caller others) :
      Frames m address (address :: others)

def Memory.follow (m : Memory) (address : Word) : Nat → Except FaultKind Word
  | 0 => .ok address
  | hops + 1 => m.follow address hops >>= m.read

/-- The innermost function around the declaration of a function, a variable or a parameter. -/
def Program.Encloses (program : Program) (owner id : NodeId) : Prop :=
  ∃ outer, (id, owner :: outer) ∈ definitionsOwners [] program

def mostRecent? (function : NodeId) (frames : List ActiveFrame) : Option ActiveFrame :=
  frames.find? fun A => A.function = function

namespace ActiveFrame

/-- The word at a frame address is 0 for a function at the top level; for a function inside another it
is the most recent one among the older frames of that function. -/
def Linked (A : ActiveFrame) (layout : Layout) (program : Program) (m : Memory)
    (older : List ActiveFrame) : Prop :=
  ∃ frame, layout.frames[A.function]? = some frame ∧ 0 < frame.depth ∧
    (frame.depth = 1 → m.read A.address = .ok 0) ∧
    (1 < frame.depth → ∃ outer B, program.Encloses outer A.function ∧
      mostRecent? outer older = some B ∧ m.read A.address = .ok B.address)

/-- Where a function names a variable that is not at the top level, its code starts at the frame pointer
and loads as often as the depths differ; this leads to the most recent frame of the function that
declares the variable. -/
def Reaches (A : ActiveFrame) (context : Context) (program : Program) (m : Memory)
    (older : List ActiveFrame) : Prop :=
  ∀ head node name id offset depth size contents,
    (head, Expression.name node name) ∈ definitionsUses program → head.id = A.function →
    context.definitions[node.id]? = some id →
    context.layout.accesses[id]? = some (.relative offset depth size contents) →
    ∃ frame owner B, context.layout.frames[head.id]? = some frame ∧
      nameAddress context frame node = .ok (Code.spanning node.span
        (frameAddress (frame.depth - depth) ++ [.push (.ofInt offset), .oper .add])) ∧
      program.Encloses owner id ∧ mostRecent? owner (A :: older) = some B ∧
      m.follow A.address (frame.depth - depth) = .ok B.address

end ActiveFrame

/-- The frames on the stack are those of the active functions, and their static links are right. -/
structure State.HasStaticLinks (s : State) (context : Context) (program : Program)
    (active : List ActiveFrame) : Prop where
  frames : s.memory.Frames s.fp (active.map ActiveFrame.address)
  functions : List.Forall₂ (fun A label => ∃ frame, context.layout.frames[A.function]? = some frame ∧
    frame.label = label) active s.callStack
  linked : ∀ newer A older, active = newer ++ A :: older →
    A.Linked context.layout program s.memory older
  reaches : ∀ newer A older, active = newer ++ A :: older →
    A.Reaches context program s.memory older

/-! ## Frames of a chain -/

def Activation.frame? (A : Activation) : Option ActiveFrame :=
  A.path.head?.map fun id => ⟨.ofInt A.address, id⟩

theorem Activation.frame?_of_path {A : Activation} {id : NodeId} {outer : List NodeId}
    (h : A.path = id :: outer) : A.frame? = some ⟨.ofInt A.address, id⟩ := by
  rw [frame?, h]
  rfl

theorem Activation.frame?_entry {A : Activation} (h : A.path = []) : A.frame? = none := by
  rw [frame?, h]
  rfl

namespace Chain

variable {T : Target} {program : Program} {image : Image} {m : Memory} {A : Activation}
  {older activations : List Activation}

theorem of_append {newer : List Activation}
    (h : Chain T program image m (newer ++ A :: older)) :
    Chain T program image m (A :: older) := by
  induction newer with
  | nil => exact h
  | cons X newer ih =>
      rw [List.cons_append] at h
      generalize hrest : newer ++ A :: older = rest at h ih
      cases h with
      | entry => exact absurd hrest (by simp)
      | call outer => exact ih outer

/-- The memory around the address of a frame can be read. -/
theorem read_at (h : Chain T program image m activations) {X : Activation}
    (hX : X ∈ activations) (hpath : X.path ≠ []) (hlt : m.size < 2147483648) {a : Int}
    (hstart : m.dataStart ≤ a) (ha : a ≤ X.address) : m.read (.ofInt a) = .ok (m.word a) := by
  have hsize := (h.le_size X hX).2 hpath
  have hparameters := ((h.stands X hX).sizes hpath).2.2
  exact m.read_ofInt (by omega) (by omega) hstart (by omega)

/-- From the frame pointer the saved frame pointers lead through all frames. -/
theorem frames (h : Chain T program image m (A :: older)) (hlt : m.size < 2147483648)
    (hlow : A.path ≠ [] → m.dataStart ≤ A.address - 8) :
    m.Frames (.ofInt A.address)
      (((A :: older).filterMap Activation.frame?).map ActiveFrame.address) := by
  generalize hall : A :: older = activations at h
  induction h generalizing A older with
  | entry hstands hpath hlocals =>
      cases hall
      rw [List.filterMap_cons_none (Activation.frame?_entry hpath)]
      exact .stop
  | @call X B older' σ code outer hstands hpath htail hsuffix hflows haddress hslots hlink hframe
      hreturn ih =>
      cases hall
      have hchain := Chain.call outer hstands hpath htail hsuffix hflows haddress hslots hlink hframe
        hreturn
      obtain ⟨id, rest, hcons⟩ := List.exists_cons_of_ne_nil hpath
      have hlow' := hlow hpath
      have hsizes := hstands.sizes hpath
      have hend := (hchain.le_size X List.mem_cons_self).2 hpath
      rw [List.filterMap_cons_some (Activation.frame?_of_path hcons)]
      refine .saved ?_ ?_ (ih (fun hpathB => ?_) rfl)
      · intro heq
        have := Word.ofInt_inj (by omega) (by omega) (by omega) (by omega) heq
        omega
      · rw [Word.ofInt_sub_four, hchain.read_at List.mem_cons_self hpath hlt (by omega) (by omega),
          hframe]
      · have hB := (outer.stands B List.mem_cons_self).sizes hpathB
        have hapart := hchain.apart B List.mem_cons_self
        omega

/-- The functions of the frames are those on the call stack. -/
theorem functions (h : Chain T program image m activations) :
    List.Forall₂ (fun A label => ∃ frame, T.layout.frames[A.function]? = some frame ∧
      frame.label = label) (activations.filterMap Activation.frame?) (activeLabels activations) := by
  induction h with
  | entry hstands hpath hlocals =>
      rw [List.filterMap_cons_none (Activation.frame?_entry hpath)]
      exact .nil
  | @call A B older σ code outer hstands hpath htail hsuffix hflows haddress hslots hlink hframe
      hreturn ih =>
      obtain ⟨id, rest, hcons⟩ := List.exists_cons_of_ne_nil hpath
      rw [List.filterMap_cons_some (Activation.frame?_of_path hcons)]
      exact .cons ⟨A.frame, (hstands.function id (by rw [hcons]; rfl)).1, rfl⟩ ih

/-- The most recent frame of a function is where a static link to the function leads. -/
theorem mostRecent (h : Chain T program image m (A :: older)) (hread : program.IsRead)
    {id : NodeId} {path : List NodeId} (hpath : id :: path <:+ A.path) :
    ∃ B, mostRecent? id ((A :: older).filterMap Activation.frame?) = some B ∧
      B.address = .ofInt (linkTo (A :: older) (id :: path)) := by
  obtain ⟨X, hX, hXpath, hlink, -⟩ := h.linkTo_spec rfl hpath
  have howner := ((h.stands X hX).owners id path hXpath).1
  have hsame : ∀ Y ∈ A :: older, (Y.frame?.any fun B => B.function = id) = true
      ↔ decide (Y.path = id :: path) = true := by
    intro Y hY
    rw [decide_eq_true_iff]
    cases hYpath : Y.path with
    | nil => simp [Activation.frame?_entry hYpath]
    | cons id' path' =>
        have howner' := ((h.stands Y hY).owners id' path' hYpath).1
        simp only [Activation.frame?_of_path hYpath, Option.any_some, decide_eq_true_eq,
          List.cons.injEq]
        constructor
        · rintro rfl
          exact ⟨rfl, hread.owners_unique howner' howner⟩
        · exact fun heq => heq.1
  have hfind : ((A :: older).find? fun Y => Y.frame?.any fun B => B.function = id)
      = (A :: older).find? fun Y => Y.path = id :: path :=
    List.find?_congr fun Y hY => Bool.eq_iff_iff.mpr (hsame Y hY)
  obtain ⟨Z, hZ⟩ : ∃ Z, ((A :: older).find? fun Y => decide (Y.path = id :: path)) = some Z := by
    rw [← Option.isSome_iff_exists, List.find?_isSome]
    exact ⟨X, hX, decide_eq_true hXpath⟩
  have hZpath : Z.path = id :: path := by simpa using List.find?_some hZ
  refine ⟨⟨.ofInt Z.address, id⟩, ?_, ?_⟩
  · rw [mostRecent?, List.find?_filterMap, hfind, hZ]
    exact Activation.frame?_of_path hZpath
  · rw [linkTo, if_neg (List.cons_ne_nil _ _), hZ]
    rfl

/-- The static link of the innermost frame is right. -/
theorem linked (h : Chain T program image m (A :: older)) (hread : program.IsRead)
    (hlt : m.size < 2147483648) {id : NodeId} {outer : List NodeId} (hpath : A.path = id :: outer)
    (hlow : m.dataStart ≤ A.address) :
    ActiveFrame.Linked ⟨.ofInt A.address, id⟩ T.layout program m
      (older.filterMap Activation.frame?) := by
  have hne : A.path ≠ [] := hpath ▸ List.cons_ne_nil _ _
  have hstands := h.stands A List.mem_cons_self
  obtain ⟨howner, hdepth⟩ := hstands.owners id outer hpath
  have hword := h.read_at List.mem_cons_self hne hlt hlow le_rfl
  rw [hpath, List.length_cons] at hdepth
  refine ⟨A.frame, (hstands.function id (by rw [hpath]; rfl)).1, by omega, ?_, ?_⟩
  · intro hone
    have houter : outer = [] := List.eq_nil_of_length_eq_zero (by omega)
    show m.read (.ofInt A.address) = _
    cases h with
    | entry _ hempty => exact absurd hempty hne
    | call houterChain _ _ _ _ _ _ _ hlink =>
        rw [hword, hlink, hpath, houter]
        rfl
  · intro hmore
    obtain ⟨g, rest, rfl⟩ : ∃ g rest, outer = g :: rest :=
      List.exists_cons_of_ne_nil fun hnil => by
        rw [hnil] at hdepth
        exact absurd hmore (by rw [hdepth]; decide)
    cases h with
    | entry _ hempty => exact absurd hempty hne
    | call houterChain _ _ htail _ _ _ _ hlink =>
        rw [hpath] at htail hlink
        obtain ⟨B, hB, haddress⟩ := houterChain.mostRecent hread htail
        refine ⟨g, B, ⟨rest, howner⟩, hB, ?_⟩
        rw [haddress, hword, hlink]
        rfl

/-- Loads lead from the innermost frame to the frames of the functions around its function. -/
theorem follow (h : Chain T program image m (A :: older)) (hlt : m.size < 2147483648)
    (hlow : m.dataStart ≤ A.address) {hops : Nat} (hhops : hops < A.path.length) :
    m.follow (.ofInt A.address) hops = .ok (.ofInt (linkTo (A :: older) (A.path.drop hops))) := by
  induction hops with
  | zero =>
      rw [List.drop_zero, linkTo_self A older (List.ne_nil_of_length_pos hhops)]
      rfl
  | succ hops ih =>
      have hdrop := List.drop_eq_getElem_cons (l := A.path) (i := hops) (by omega)
      obtain ⟨X, hX, hXpath, hlink, hword⟩ := h.linkTo_spec rfl (hdrop ▸ List.drop_suffix hops A.path)
      have hle : A.address ≤ X.address := by
        rcases List.mem_cons.mp hX with rfl | hX
        · exact le_rfl
        · have hapart := h.apart X hX
          have hlocals := (h.stands X (List.mem_cons_of_mem _ hX)).locals_nonneg
          have hparameters := (h.stands A List.mem_cons_self).parameters_nonneg
          omega
      have hread := h.read_at hX (hXpath ▸ List.cons_ne_nil _ _) hlt (hlow.trans hle) le_rfl
      rw [Memory.follow, ih (by omega), hdrop, hlink]
      exact hread.trans (congrArg Except.ok hword)

end Chain

/-- The functions around the declaration of the variable that a name means. -/
theorem Env.Inside.variable_owners {T : Target} {program : Program} {env : Env}
    (h : env.Inside T program) {name : String} {meaning : Meaning} {id : NodeId}
    (hfind : env.find? name = some meaning) (hentity : meaning.entity = .variable id) :
    (id, meaning.home.path) ∈ definitionsOwners [] program := by
  obtain ⟨region, outer, hhome, hlookup⟩ := Env.find?_region hfind
  have hsuffix := (Env.find?_home hfind).1
  rw [hhome] at hsuffix ⊢
  rw [hentity] at hlookup
  cases region with
  | parameters head =>
      obtain ⟨p, hp, heq⟩ := List.mem_map.mp (mem_of_lookup hlookup)
      cases heq
      exact h.parametersOwners head outer hsuffix p hp
  | definitions ds =>
      obtain ⟨head, hd, _, rfl⟩ := mem_entities_variable (mem_of_lookup hlookup)
      exact h.owners ds outer hsuffix (mem_definitionsOwners hd List.mem_cons_self)

/-- The variables that a function names are in reach of its innermost frame. -/
theorem Chain.reaches {T : Target} {program : Program} {image : Image} {m : Memory}
    {A : Activation} {older : List Activation} (h : Chain T program image m (A :: older))
    (htranslated : Translated program T) (hlt : m.size < 2147483648) {id : NodeId}
    {outer : List NodeId} (hpath : A.path = id :: outer) (hlow : m.dataStart ≤ A.address) :
    ActiveFrame.Reaches ⟨.ofInt A.address, id⟩ T.context program m
      (older.filterMap Activation.frame?) := by
  intro head node name v offset depth size contents huse hhead hdefinition haccess
  cases hhead
  obtain ⟨env, hstands⟩ := htranslated.expression_stands huse
  obtain ⟨used, limit, henv⟩ := hstands.inside.placed
  obtain ⟨meaning, id', hfind, hentity, htable⟩ := hstands.bound
  obtain rfl : v = id' := Option.some.inj (hdefinition.symm.trans htable)
  have hA := h.stands A List.mem_cons_self
  obtain ⟨howner, hdepth⟩ := hA.owners head.id outer hpath
  obtain ⟨outer', hpath', howner'⟩ := hstands.around
  -- the function has one place in the nest of functions
  have hsame : env.path = A.path := by
    rw [hpath', hpath, htranslated.read.owners_unique howner howner']
  have hframeDepth : A.frame.depth = env.depth := by rw [hdepth, ← hsame, Env.length_path]
  obtain ⟨_, hhops, hdrop⟩ := Env.find?_home hfind
  obtain ⟨hdepth₀, hdepth₁⟩ : 0 < depth ∧ meaning.home.depth = depth := by
    rcases henv.access hfind hentity with ⟨_, _, _, _, haccess'⟩ | ⟨hpos, _, _, _, haccess'⟩
    · rw [haccess] at haccess'
      cases haccess'
    · rw [haccess] at haccess'
      cases haccess'
      exact ⟨hpos, rfl⟩
  have hsub : A.frame.depth - depth = meaning.hops := by omega
  have hlength : meaning.hops < A.path.length := by rw [← hsame, Env.length_path]; omega
  obtain ⟨owner, rest, hhome⟩ : ∃ owner rest, meaning.home.path = owner :: rest :=
    List.exists_cons_of_ne_nil fun hnil => by
      have := meaning.home.length_path
      rw [hnil, List.length_nil] at this
      omega
  have hvariable := hstands.inside.variable_owners hfind hentity
  rw [hsame, hhome] at hdrop
  rw [hhome] at hvariable
  obtain ⟨B, hB, haddress⟩ := h.mostRecent htranslated.read (hdrop ▸ List.drop_suffix _ _)
  refine ⟨A.frame, owner, B, (hA.function head.id (by rw [hpath]; rfl)).1, ?_, ⟨rest, hvariable⟩, ?_,
    ?_⟩
  · have haccessOf : T.context.accessOf node.id = .ok (.relative offset depth size contents) := by
      rw [Context.accessOf, Context.definitionOf_ok htable]
      exact Layout.access_ok haccess
    rw [nameAddress, haccessOf]
    show (if depth ≤ A.frame.depth then _ else _) = _
    rw [if_pos (by omega)]
    rfl
  · rw [List.filterMap_cons_some (Activation.frame?_of_path hpath)] at hB
    exact hB
  · rw [hsub, h.follow hlt hlow hlength, hdrop, haddress]

/-- Where frames stand in the list of all frames. -/
theorem exists_of_frames {activations : List Activation} {newer older : List ActiveFrame}
    {F : ActiveFrame} (h : activations.filterMap Activation.frame? = newer ++ F :: older) :
    ∃ front A rest, activations = front ++ A :: rest ∧ A.frame? = some F ∧
      rest.filterMap Activation.frame? = older := by
  obtain ⟨front, back, rfl, -, hback⟩ := List.filterMap_eq_append_iff.mp h
  obtain ⟨skipped, A, rest, rfl, -, hA, hrest⟩ := List.filterMap_eq_cons_iff.mp hback
  exact ⟨front ++ skipped, A, rest, by rw [List.append_assoc], hA, hrest⟩

/-- The frames of a program in control have the right static links. -/
theorem InControl.hasStaticLinks {T : Target} {program : Program} {segments : Segments}
    {image : Image} {s : State} (h : InControl T program segments image s)
    (htranslated : Translated program T) :
    ∃ active, s.HasStaticLinks T.context program active := by
  obtain ⟨A, older, base, σ, code, hrunning, -⟩ := h
  have hchain := hrunning.chain
  have hlt := hrunning.stack.size_lt
  have hstart := hrunning.stack.start_le
  have hheap := hrunning.stack.heap_le
  have hbase := hrunning.base_nonneg
  have hlow : s.memory.dataStart ≤ A.address := by omega
  have hmember : ∀ newer F rest, (A :: older).filterMap Activation.frame? = newer ++ F :: rest →
      ∃ X others, Chain T program image s.memory (X :: others) ∧
        X.path = F.function :: X.path.tail ∧ F = ⟨.ofInt X.address, F.function⟩ ∧
        s.memory.dataStart ≤ X.address ∧ others.filterMap Activation.frame? = rest := by
    intro newer F rest heq
    obtain ⟨front, X, others, hsplit, hX, hothers⟩ := exists_of_frames heq
    obtain ⟨id, hid, rfl⟩ := Option.map_eq_some_iff.mp hX
    have hmem : X ∈ A :: older := hsplit ▸ List.mem_append_right _ List.mem_cons_self
    refine ⟨X, others, (hsplit ▸ hchain).of_append, (List.cons_head?_tail hid).symm, rfl, ?_,
      hothers⟩
    exact hlow.trans (hrunning.address_le_of_mem hmem).1
  refine ⟨(A :: older).filterMap Activation.frame?, ?_, ?_, ?_, ?_⟩
  · rw [hrunning.fp_eq]
    exact hchain.frames hlt fun hpath => by have := hrunning.base_le hpath; omega
  · rw [hrunning.callStack_eq]
    exact hchain.functions
  · intro newer F rest heq
    obtain ⟨X, others, hX, hpath, hF, hlowX, rfl⟩ := hmember newer F rest heq
    rw [hF]
    exact hX.linked htranslated.read hlt hpath hlowX
  · intro newer F rest heq
    obtain ⟨X, others, hX, hpath, hF, hlowX, rfl⟩ := hmember newer F rest heq
    rw [hF]
    exact hX.reaches htranslated hlt hpath hlowX

namespace Started

variable {source : Source} {memorySize : Nat} {input : List UInt8} {output : Output}
  {analysis : Analysis} {compiled : Compiled} {image : Image} {s₀ s : State}

/-- While a program runs that assigns to names only, the saved frame pointers lead through the frames
of all active functions, every static link is the most recent frame of the function around, and the
loads in front of a variable end at the most recent frame of the function that declares it. -/
theorem static_links (h : Started source memorySize input output analysis compiled image s₀)
    (hassigns : analysis.program.AssignsNames) (hstores : analysis.program.StoresWords) {n : Nat}
    (hrun : runFor image n s₀ = (.running, s)) :
    ∃ active, s.HasStaticLinks (compiled.target analysis).context analysis.program active :=
  (h.inControl hassigns hstores hrun).hasStaticLinks h.executable.toTranslated

/-- After thirty steps of a program with a function inside another. -/
theorem static_links_sample : ∃ analysis compiled image s₀ s,
    Started nestedSample 400 [] {} analysis compiled image s₀ ∧
      analysis.program.AssignsNames ∧ analysis.program.StoresWords ∧
      runFor image 30 s₀ = (.running, s) ∧
      ∃ active, s.HasStaticLinks (compiled.target analysis).context analysis.program active := by
  obtain ⟨analysis, compiled, image, s₀, s, h, hassigns, hstores, hrun⟩ := nestedSample_runs
  exact ⟨analysis, compiled, image, s₀, s, h, hassigns, hstores, hrun,
    h.static_links hassigns hstores hrun⟩

end Started

end NestedFun
