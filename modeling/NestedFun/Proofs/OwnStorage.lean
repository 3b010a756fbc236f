import NestedFun.Proofs.DirectValues
import NestedFun.Proofs.FrameTiling
import NestedFun.Proofs.StackNeed

namespace NestedFun

/-!
# The storage of a name

The address that is put together for a name is the start of the storage that was set aside for the
variable or parameter, and loading and saving there touch four bytes. They belong to that storage if it
is not empty; a variable whose initializers stand for no words has none, and its four bytes belong to
something else.
-/

namespace Scene

def startOf (S : Scene) : Access → Except FaultKind Word
  | .absolute label _ _ => S.image.addressOf label
  | .relative offset depth _ _ => do
    return (← S.memory.follow S.fp (S.depth - depth)) + .ofInt offset

def Stores (S : Scene) (access : Access) (i : Int) : Prop :=
  ∃ a, S.startOf access = .ok a ∧ Memory.Block a.toInt access.size i

/-- What is read at the start of some storage is in it, and what is written there changes nothing
else. -/
structure AccessesOwn (S : Scene) (access : Access) : Prop where
  reads : ∀ a, S.startOf access = .ok a → ∀ m m' : Memory,
    Memory.Differs (fun i => ¬ S.Stores access i) m m' → m'.read a = m.read a
  writes : ∀ a, S.startOf access = .ok a → ∀ (v : Word) (m m' : Memory), m.write a v = .ok m' →
    Memory.Differs (S.Stores access) m m'

theorem accessesOwn (S : Scene) {access : Access} (hsize : 4 ≤ access.size) :
    S.AccessesOwn access := by
  have hstores : ∀ a, S.startOf access = .ok a → ∀ i, Memory.Block a.toInt 4 i →
      S.Stores access i := by
    intro a ha i hi
    refine ⟨a, ha, ?_⟩
    simp only [Memory.Block] at hi ⊢
    omega
  refine ⟨fun a ha m m' hdiffers => ?_, fun a ha v m m' hwrite => ?_⟩
  · exact hdiffers.read_eq fun _ i hi => not_not_intro (hstores a ha i hi)
  · rw [Memory.write] at hwrite
    split at hwrite
    · rename_i hholds
      cases hwrite
      have hnonneg : 0 ≤ a.toInt := (Int.natCast_nonneg _).trans hholds.1
      exact (Memory.Differs.store m v hnonneg).mono (hstores a ha)
    · cases hwrite

end Scene

/-- A name stands for something that is stored for a definition of the program. -/
structure Compiled.NamesStored (compiled : Compiled) (analysis : Analysis) (node : Node)
    (d : Definition) (access : Access) : Prop where
  inside : d ∈ definitionsInside analysis.program
  stored : ∃ id ∈ d.stored, analysis.resolution.definitions[node.id]? = some id ∧
    compiled.layout.accesses[id]? = some access
  size_eq : d.storedSize? = some access.size

/-- The storage of what a name stands for starts at the address of the name. -/
theorem Compiled.NamesStored.startOf_eq {compiled : Compiled} {analysis : Analysis} {node : Node}
    {d : Definition} {access : Access} (h : compiled.NamesStored analysis node d access) {S : Scene}
    (hS : S.context = (compiled.target analysis).context) : S.startOf access = S.addressOf node := by
  obtain ⟨id, -, htable, haccess⟩ := h.stored
  have hfound : S.context.access? node = some access := by
    rw [hS, Context.access?]
    exact Option.bind_eq_some_iff.mpr ⟨id, htable, haccess⟩
  rw [Scene.addressOf, hfound]
  cases access <;> rfl

/-- What is stored for a definition has room for a word unless it is a variable without words. -/
theorem Definition.storesWord_iff {d : Definition} {size : Int} (h : d.storedSize? = some size)
    (hwell : ∀ head, d = .var head → ∀ i ∈ head.initializers, i.WellFormed) :
    d.StoresWord ↔ 4 ≤ size := by
  cases d with
  | func head body =>
      cases h
      exact ⟨fun _ => by decide, fun _ => trivial⟩
  | var head =>
      obtain ⟨rfl, -⟩ := Contents.size?_eq (hwell head rfl) h
      have hlength := List.length_pos_iff (l := head.words)
      show head.words ≠ [] ↔ _
      rw [← hlength]
      omega

/-- The storage that a layout gives a definition. -/
theorem Program.storedFor {program : Program} {layout : Layout} (h : program.layOut = .ok layout)
    {id : NodeId} {access : Access} (haccess : layout.accesses[id]? = some access) :
    ∃ d ∈ definitionsInside program, id ∈ d.stored ∧ d.storedSize? = some access.size := by
  obtain ⟨state, hstate, hend⟩ := bind_eq_ok h
  cases hend
  rcases (layOutDefinitions_fills program hstate).size_access id access haccess with hold | hnew
  · simp at hold
  · exact hnew

/-- The innermost function of a placed environment has a frame of the depth there. -/
theorem Env.Placed.frame {layout : Layout} {env : Env} {used limit : Int}
    (h : env.Placed layout used limit) {id : NodeId} (hid : env.path.head? = some id) :
    ∃ frame, layout.frames[id]? = some frame ∧ frame.depth = env.depth := by
  induction h with
  | nil => cases hid
  | @parameters env used limit head frame outer hframe hfits hparameters hsize ih =>
      cases hid
      exact ⟨frame, hframe, by rw [hfits.depth_eq, Env.depth_parameters]⟩
  | @definitions env used limit before after ds outer hused hplaced hlimit ih =>
      rw [Env.depth_definitions]
      exact ih hid

theorem Expression.temporaries_name_le (node : Node) (name : Identifier) (context : Context) :
    (Expression.name node name).temporaries context ≤ 2 := by
  rw [Expression.temporaries]
  split <;> omega

namespace Started

variable {source : Source} {memorySize : Nat} {input : List UInt8} {output : Output}
  {analysis : Analysis} {compiled : Compiled} {image : Image} {s₀ : State}

/-- Every name of a variable or parameter, read or assigned to, has code that puts together where its
storage starts. If that has room for a word, what is read or written there lies inside. The storage of
different variables of a function does not overlap and lies below the header of the frame. -/
theorem names_stored (h : Started source memorySize input output analysis compiled image s₀) :
    compiled.layout.Tiles analysis.program ∧
    ∀ head node name, (head, .name node name) ∈ definitionsUses analysis.program →
      ∃ d access frame code, compiled.NamesStored analysis node d access ∧
        compiled.layout.frames[head.id]? = some frame ∧
        nameAddress (compiled.target analysis).context frame node = .ok code ∧
        (∀ (s : State) (sp pc : Int) (text : NodeId → Word) (S : Scene),
          S = s.scene ⟨(compiled.target analysis).context, image, frame.depth⟩ text →
          s.pc = .ofInt pc → s.StackAt sp → s.heapEnd.toInt ≤ sp - 8 → S.Linked →
          image.Holds pc code → Brings image s sp (pc + code.size) s (S.startOf access)) ∧
        (d.StoresWord → ∀ S : Scene, S.AccessesOwn access) := by
  obtain ⟨program, hparse, hrest⟩ := bind_eq_ok h.analyzed
  obtain ⟨resolution, hresolve, hrest⟩ := bind_eq_ok hrest
  cases hrest
  obtain ⟨layout, hlayout, hrest⟩ := bind_eq_ok h.compiles
  obtain rfl : layout = compiled.layout := by
    obtain ⟨⟨fragments, labels⟩, -, hrest⟩ := bind_eq_ok hrest
    obtain ⟨segments, -, hrest⟩ := bind_eq_ok hrest
    obtain ⟨codeSize, -, hrest⟩ := bind_eq_ok hrest
    obtain ⟨dataSize, -, hrest⟩ := bind_eq_ok hrest
    cases hrest
    rfl
  refine ⟨Program.layout_tiles hparse hresolve hlayout, fun head node name hmem => ?_⟩
  obtain ⟨env, hstands⟩ := h.executable.expression_stands hmem
  obtain ⟨meaning, id, hfind, hentity, htable⟩ := hstands.bound
  obtain ⟨used, limit, henv⟩ := hstands.inside.placed
  obtain ⟨outer, hpath, -⟩ := hstands.around
  obtain ⟨frame, hframe, hdepth⟩ := henv.frame (by rw [hpath]; rfl)
  obtain ⟨place, -, haddress⟩ := nameAddress_ok (T := compiled.target ⟨program, resolution⟩)
    hstands.bound henv hdepth
  obtain ⟨access, haccess⟩ : ∃ access, compiled.layout.accesses[id]? = some access := by
    rcases henv.access hfind hentity with ⟨-, _, _, _, haccess⟩ | ⟨-, _, _, _, haccess⟩
    · exact ⟨_, haccess⟩
    · exact ⟨_, haccess⟩
  obtain ⟨d, hinside, hstored, hsize⟩ := Program.storedFor hlayout haccess
  have hnames : compiled.NamesStored ⟨program, resolution⟩ node d access :=
    ⟨hinside, ⟨id, hstored, htable, haccess⟩, hsize⟩
  refine ⟨d, access, frame, _, hnames, hframe, haddress, ?_, fun hword S => S.accessesOwn ?_⟩
  · rintro s sp pc text S hS hpc hstack hroom hlinked hcode
    have hstart : S.startOf access = S.addressOf node := hnames.startOf_eq (by rw [hS]; rfl)
    have hneed := Expression.temporaries_name_le node name S.context
    have hshows : S.Shows s sp := by
      subst hS
      exact ⟨hstack, by rw [← hstack.toInt_sp]; rfl, rfl, rfl, .refl _ _⟩
    rw [hstart]
    have hfree : S.freeStart ≤ sp - 4 * (Expression.name node name).temporaries S.context := by
      rw [← hshows.heapEnd_eq]
      omega
    subst hS
    exact hshows.address hlinked hfree hpc rfl haddress hcode
  · refine (Definition.storesWord_iff hsize ?_).mp hword
    rintro v rfl
    exact Program.wellFormed_initializers hparse hinside

def nameOf? : Expression → Option (Node × Identifier)
  | .name node name => some (node, name)
  | _ => none

theorem nameOf?_eq_some {e : Expression} {node : Node} {name : Identifier}
    (h : nameOf? e = some (node, name)) : e = .name node name := by
  unfold nameOf? at h
  split at h
  · cases h
    rfl
  · cases h

/-- The pointer to `x` is put together in front of the first assignment. -/
theorem names_stored_sample : ∃ analysis compiled image s₀ head node name d access
    code, ∃ (s : State) (S : Scene), Started pointerSample 180 [] {} analysis compiled image s₀ ∧
      compiled.layout.Tiles analysis.program ∧
      (head, .name node name) ∈ definitionsUses analysis.program ∧
      compiled.NamesStored analysis node d access ∧ d.StoresWord ∧ (∀ S : Scene, S.AccessesOwn access) ∧
      S.startOf access = .ok 164 ∧ Brings image s 160 (54 + Code.size code) s (S.startOf access) := by
  have hchecks : (start? pointerSample 180 [] {}).any (fun r =>
      decide (r.1.program.StoresWords) && ((definitionsUses r.1.program)[2]?).any fun use =>
        (nameOf? use.2).any fun name => (r.2.1.layout.frames[use.1.id]?).any fun frame =>
          (nameAddress (r.2.1.target r.1).context frame name.1).toOption.any fun code =>
            let s := (runFor r.2.2.1 15 r.2.2.2).2
            let S := s.scene ⟨(r.2.1.target r.1).context, r.2.2.1, frame.depth⟩ fun _ => 0
            decide ((s.pc = .ofInt 54 ∧ s.sp = .ofInt 160 ∧
                (s.memory.dataStart : Int) ≤ s.heapEnd.toInt ∧ s.heapEnd.toInt ≤ 160 ∧
                160 ≤ s.memory.size ∧ s.memory.size < 2147483648) ∧ s.heapEnd.toInt ≤ 160 - 8 ∧
              frame.depth = 1 ∧ (S.memory.Holds S.fp ∧ S.Apart S.fp) ∧ r.2.2.1.Holds 54 code ∧
              (S.addressOf name.1).toOption = some 164)) = true := by
    rw [start?_spelled pointerSample rfl (by decide)]
    decide +kernel
  obtain ⟨analysis, compiled, image, s₀, h, htest⟩ := exists_started hchecks
  obtain ⟨hstores, htest⟩ := Bool.and_eq_true_iff.mp htest
  obtain ⟨⟨head, e⟩, huse, htest⟩ := (Option.any_eq_true _ _).mp htest
  obtain ⟨⟨node, name⟩, hname, hplace⟩ := (Option.any_eq_true _ _).mp htest
  obtain rfl := nameOf?_eq_some hname
  obtain ⟨frame, hframe, hplace⟩ := (Option.any_eq_true _ _).mp hplace
  obtain ⟨code, hcode, hplace⟩ := (Option.any_eq_true _ _).mp hplace
  have hmem := List.mem_of_getElem? huse
  obtain ⟨⟨hpc, hsp, hstart, hheap, hsize, hlt⟩, hroom, hdepth, ⟨hholdsLink, hlink⟩, hholds, haddress⟩ :=
    of_decide_eq_true hplace
  obtain ⟨htiles, hnames⟩ := h.names_stored
  obtain ⟨d, access, frame', code', hstored, hframe', hcode', hbrings, hown⟩ := hnames head node name hmem
  obtain rfl : frame = frame' := Option.some.inj (hframe.symm.trans hframe')
  obtain rfl : code = code' := Except.ok.inj ((toOption_eq_some hcode).symm.trans hcode')
  have hword : d.StoresWord := of_decide_eq_true hstores d hstored.inside
  have hlinked : ((runFor image 15 s₀).2.scene
      ⟨(compiled.target analysis).context, image, frame.depth⟩ fun _ => 0).Linked := by
    intro n hn
    have hn' : n < frame.depth := hn
    obtain rfl : n = 0 := by omega
    exact ⟨_, rfl, hholdsLink, hlink⟩
  exact ⟨analysis, compiled, image, s₀, head, node, name, d, access, code, _, _, h, htiles, hmem,
    hstored, hword, hown hword, (hstored.startOf_eq rfl).trans (toOption_eq_some haddress),
    hbrings _ 160 54 _ _ rfl hpc ⟨hsp, hstart, hheap, by exact_mod_cast hsize, hlt⟩ hroom hlinked hholds⟩

def wordlessSample : Source :=
  ⟨"fun main() = let var y = 5 var s = \"\" in s = 7, y end", .memory⟩

/-- What is assigned to the variable without words is read as the value of the other. -/
theorem wordlessSample_exits : ∃ analysis compiled image s₀ s,
    Started wordlessSample 200 [] {} analysis compiled image s₀ ∧
      Ends image s₀ (.exited 7) s := by
  have hchecks : (start? wordlessSample 200 [] {}).any (fun r =>
      decide ((runFor r.2.2.1 40 r.2.2.2).1 = .exited 7)) = true := by
    rw [start?_spelled wordlessSample rfl (by decide)]
    decide +kernel
  obtain ⟨analysis, compiled, image, s₀, h, htest⟩ := exists_started hchecks
  exact ⟨analysis, compiled, image, s₀, _, h, Outcome.noConfusion, 40,
    Prod.ext (of_decide_eq_true htest) rfl⟩

end Started

end NestedFun
