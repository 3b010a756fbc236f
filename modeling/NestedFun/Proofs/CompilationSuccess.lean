import NestedFun.Proofs.CodeAddresses
import NestedFun.Proofs.FrameTiling
import NestedFun.Proofs.GenerationSuccess
import NestedFun.Proofs.Parts
import NestedFun.Proofs.Positions

namespace NestedFun

/-!
# Programs that compile

A program that was read and resolved is laid out, its code is generated and its segments are
assembled, whatever it is. The only thing that can go wrong is that a segment does not fit the address
space. The numbers on the way fit words if the text is not too long.
-/

/-! ## Numbers in a layout -/

/-- The offset, the size and the lengths in the encoding of what is accessed fit words, and so does
the offset behind it. -/
def Access.InRange : Access → Prop
  | .relative offset _ size contents => -wordBound ≤ offset ∧ 0 ≤ size ∧ offset + size < wordBound ∧
      ∀ c, contents = some c → c.words.length < wordBound
  | .absolute _ size contents => 0 ≤ size ∧ size < wordBound ∧ contents.words.length < wordBound

/-- The sizes of a frame fit words and leave room for the static link and the header. -/
structure Frame.InRange (frame : Frame) : Prop where
  linkSize_le : linkSize ≤ frame.parametersSize
  parametersSize_lt : frame.parametersSize < wordBound
  headerSize_le : headerSize ≤ frame.localsSize
  localsSize_lt : frame.localsSize < wordBound

structure Layout.InRange (layout : Layout) : Prop where
  frames : ∀ (id : NodeId) (frame : Frame), layout.frames[id]? = some frame → frame.InRange
  accesses : ∀ (id : NodeId) (access : Access), layout.accesses[id]? = some access → access.InRange

section

variable {layout : Layout}

/-- The numbers of a frame that is placed, if the function does not have too many parameters. -/
theorem Definition.Placed.frame_inRange {head : FunctionHead} {body : List Statement} {depth : Nat}
    {before after : Int} (h : (Definition.func head body).Placed layout depth before after)
    (hparameters : head.parameters.length ≤ 536870908) {frame : Frame}
    (hframe : layout.frames[head.id]? = some frame) : frame.InRange := by
  obtain ⟨-, frame', hframe', hfits, -, hbody⟩ := h
  cases hframe.symm.trans hframe'
  have hle := hbody.before_le
  have hsize := hfits.parametersSize_eq
  have hlt := hfits.localsSize_lt
  constructor <;> simp only [linkSize, headerSize, wordSize, wordBound] <;> omega

/-- The numbers of what is stored for a definition that is placed. -/
theorem Definition.Placed.access_inRange {d : Definition} {depth : Nat} {before after : Int}
    (h : d.Placed layout depth before after) (hbefore : 0 ≤ before)
    (hparameters : ∀ head body, d = .func head body → head.parameters.length ≤ 536870908)
    (hwords : ∀ head, d = .var head → (Contents.ofVariable head).words.length < wordBound)
    {id : NodeId} (hid : id ∈ d.stored) {access : Access}
    (haccess : layout.accesses[id]? = some access) : access.InRange := by
  cases d with
  | var head =>
      cases List.mem_singleton.mp hid
      obtain ⟨hsized, h⟩ := h
      have hwords := hwords head rfl
      simp only [wordBound] at hwords
      have hsize := hsized.size_lt
      split at h
      · cases haccess.symm.trans h.1
        exact ⟨by omega, by rw [wordBound]; omega, by rw [wordBound]; omega⟩
      · obtain ⟨hplaced, hafter, hlow⟩ := h
        cases haccess.symm.trans hplaced
        refine ⟨?_, ?_, ?_, fun c hc => ?_⟩
        · rw [wordBound]
          omega
        · omega
        · simp only [wordBound]
          omega
        · cases hc
          simp only [wordBound]
          omega
  | func head body =>
      obtain ⟨p, hp, rfl⟩ := List.mem_map.mp hid
      obtain ⟨-, frame, -, -, hplaced, -⟩ := h
      obtain ⟨o, ho, hlow, hhigh⟩ := hplaced.mem hp
      have hcount := hparameters head body rfl
      cases haccess.symm.trans ho
      refine ⟨?_, by decide, ?_, fun c hc => by cases hc⟩ <;> simp only [wordBound] <;> omega

/-- The numbers in the layout of a program fit words if no function has too many parameters and no
encoding too many words. -/
theorem Layout.Tiles.inRange {program : Program} (h : layout.Tiles program)
    (hplaced : PlacedDefinitions layout 0 0 0 program)
    (hparameters : ∀ head body, .func head body ∈ definitionsInside program →
      head.parameters.length ≤ 536870908)
    (hwords : ∀ head, .var head ∈ definitionsInside program →
      (Contents.ofVariable head).words.length < wordBound) : layout.InRange := by
  refine ⟨fun id frame hframe => ?_, fun id access haccess => ?_⟩
  · obtain ⟨head, body, hd, rfl⟩ := h.function_of_frame hframe
    obtain ⟨depth, before, after, hdefinition, -⟩ := hplaced.inside le_rfl hd
    exact hdefinition.frame_inRange (hparameters head body hd) hframe
  · obtain ⟨d, hd, hid⟩ := (h.mem_accesses id).mp (Std.TreeMap.mem_iff_isSome_getElem?.mpr (by rw [haccess]; rfl))
    obtain ⟨depth, before, after, hdefinition, hbefore, -⟩ := hplaced.inside le_rfl hd
    exact hdefinition.access_inRange hbefore (fun head body heq => hparameters head body (heq ▸ hd))
      (fun head heq => hwords head (heq ▸ hd)) hid haccess

end

/-! ## Sizes of segments -/

/-- Sizes can be summed up if none is negative and the sum fits a word. -/
theorem totalSize_eq {sizes : List Int} (hsizes : ∀ size ∈ sizes, 0 ≤ size)
    (hlt : sizes.sum < wordBound) : totalSize sizes = .ok sizes.sum := by
  have hfold : ∀ (sizes : List Int) (total : Int), (∀ size ∈ sizes, 0 ≤ size) → 0 ≤ total →
      total + sizes.sum < wordBound →
      sizes.foldlM (fun total size => checked? (total + size)) total = some (total + sizes.sum) := by
    intro sizes
    induction sizes with
    | nil =>
        intro total _ _ _
        simp
    | cons size sizes ih =>
        intro total hsizes htotal hlt
        obtain ⟨hsize, hrest⟩ := List.forall_mem_cons.mp hsizes
        have hnonneg := List.sum_nonneg hrest
        rw [List.sum_cons, ← add_assoc] at hlt ⊢
        simp only [wordBound] at hlt
        rw [List.foldlM_cons, checked?_of_fits (by omega) (by omega)]
        exact ih (total + size) hrest (by omega) hlt
  rw [totalSize, hfold sizes 0 hsizes le_rfl (by rwa [zero_add]), zero_add]

/-! ## Compiling -/

/-- A text has at least as many bytes as characters. -/
theorem String.length_toList_le (s : String) : s.toList.length ≤ s.utf8ByteSize := by
  have hlength : ∀ cs : List Char, cs.length ≤ byteLength cs := by
    intro cs
    induction cs with
    | nil => exact Nat.zero_le _
    | cons c cs ih =>
        have hpos := c.utf8Size_pos
        rw [List.length_cons, byteLength_cons]
        omega
  rw [String.utf8ByteSize_eq_byteLength]
  exact hlength s.toList

/-- The declarations of the system functions add little to a text. -/
theorem Source.length_withSystemDeclarations_le (source : Source) :
    source.withSystemDeclarations.contents.toList.length ≤ source.size + 1000 := by
  obtain ⟨cs, hcs, hcontents⟩ := source.toList_withSystemDeclarations
  have hlength := String.length_toList_le source.contents
  have hdeclarations : systemDeclarations.toList.length ≤ 999 := by decide +kernel
  have hle : cs.length ≤ source.contents.toList.length := by
    rcases hcs with hcs | hcs <;> simp [hcs]
  rw [hcontents, List.length_append, List.length_cons, Source.size]
  omega

/-- The functions at the top level that the entry of a program calls have frames. -/
theorem Program.frameNamed_succeeds {program : Program} {layout : Layout}
    (hnodup : ((Region.definitions program).entities.map Prod.fst).Nodup)
    (hplaced : PlacedDefinitions layout 0 0 0 program) {head : FunctionHead} {body : List Statement}
    (hmem : .func head body ∈ program) :
    ∃ frame, program.frameNamed layout head.name.text = .ok frame := by
  have hlookup : (Region.definitions program).entities.lookup head.name.text
      = some (.function head body) :=
    lookup_of_mem hnodup
      (List.mem_map_of_mem (f := fun d : Definition => (d.name.text, d.entity)) hmem)
  obtain ⟨before, after, ⟨-, frame, hframe, -⟩, -⟩ := hplaced.mem hmem
  exact ⟨frame, by rw [frameNamed, functionNamed?_eq hnodup hlookup]; exact Layout.frame_ok hframe⟩

/-- A program can be assembled once its code has been generated. -/
theorem Translated.assemble_succeeds {program : Program} {T : Target} (h : Translated program T) :
    ∃ segments, program.assemble T.layout T.fragments = .ok segments := by
  obtain ⟨mainHead, mainBody, hlookup, -⟩ := h.main
  obtain ⟨hmainMem, hmainName⟩ := mem_entities_function (mem_of_lookup hlookup)
  obtain ⟨own, declared, hsplit, hdeclares⟩ := h.read.declares
  obtain ⟨exitHead, hexit, hexitName, -⟩ :=
    hdeclares.arity ("exit", some "code") List.mem_cons_self
  obtain ⟨main, hmain⟩ := Program.frameNamed_succeeds h.nodup h.placed hmainMem
  obtain ⟨exit, hexit⟩ := Program.frameNamed_succeeds h.nodup h.placed
    (hsplit ▸ List.mem_append_right own hexit)
  rw [← hmainName] at hmain
  rw [hexitName] at hexit
  obtain ⟨inner, hinner⟩ := @collectDefinitions_succeeds program T.fragments
    fun head hhead => by
      obtain ⟨env, code, ⟨-, hcoded⟩, -⟩ := h.describes.inside hhead
      split at hcoded
      · exact ⟨_, hcoded.2⟩
      · obtain ⟨offset, n, -, hstorage, -⟩ := hcoded
        exact ⟨_, hstorage⟩
  exact ⟨_, by rw [Program.assemble, hmain, hexit, hinner]; rfl⟩

end NestedFun
