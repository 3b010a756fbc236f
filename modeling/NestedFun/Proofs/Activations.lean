import NestedFun.Proofs.Flow

namespace NestedFun

/-!
# Activations

The stack of a running program is a chain of frames, one for each active routine. Below every frame
but the outermost stand its header and the operands that its caller had left, and its static link is
the frame of the most recent activation of the function around it.
-/

namespace Routine

/-- The address of the code that a routine's code ends with. -/
def addressOf (R : Routine) (code : Code) : Int := R.start + Code.size R.code - Code.size code

/-- A routine whose code stands in an image; all but the entry are functions of the program. -/
structure Stands (T : Target) (program : Program) (image : Image) (R : Routine) : Prop where
  start_nonneg : 0 ≤ R.start
  start_lt : R.start < 2147483648
  holds : image.Holds R.start R.code
  flows : ∃ b, Flows T program R b [] R.code
  locals_nonneg : 0 ≤ R.frame.localsSize
  parameters_nonneg : 0 ≤ R.frame.parametersSize
  function : ∀ id, R.path.head? = some id → T.layout.frames[id]? = some R.frame ∧
    8 ≤ R.frame.localsSize ∧ R.frame.localsSize < 2147483648 ∧ 4 ≤ R.frame.parametersSize ∧
    image.labels[R.frame.label]? = some (.ofInt R.start) ∧
    ∃ span, T.fragments.functions[id]? = some (⟨span, .label R.frame.label⟩ :: R.code)
  owners : ∀ id outer, R.path = id :: outer → (id, outer) ∈ definitionsOwners [] program ∧
    R.frame.depth = R.path.length
  entry : R.path = [] → R.start = 0 ∧ ∃ main exit, R.code = entryCode main exit

/-- Code that the code of a routine ends with stands in the image. -/
theorem Stands.holds_suffix {T : Target} {program : Program} {image : Image} {R : Routine}
    (h : R.Stands T program image) {code : Code} (hsuffix : code <:+ R.code) :
    image.Holds (R.addressOf code) code := by
  obtain ⟨front, hfront⟩ := hsuffix
  have hholds := h.holds
  rw [← hfront, Image.holds_append] at hholds
  have haddress : R.addressOf code = R.start + Code.size front := by
    rw [addressOf, ← hfront, Code.size_append]
    omega
  rw [haddress]
  exact hholds.2

theorem addressOf_self (R : Routine) : R.addressOf R.code = R.start := by
  rw [addressOf]
  omega

/-- Behind an instruction stands the next one. -/
theorem addressOf_cons (R : Routine) (i : Located Instruction) (code : Code) :
    R.addressOf code = R.addressOf (i :: code) + i.item.size := by
  rw [addressOf, addressOf, Code.size_cons]
  omega

end Routine

theorem suffix_of_cons {i : Located Instruction} {rest code : Code} (h : i :: rest <:+ code) :
    rest <:+ code :=
  (List.suffix_cons i rest).trans h

namespace Flows

variable {T : Target} {program : Program} {R : Routine} {b : Int} {σ : List Slot} {code : Code}

/-- Behind every label the operand stack is empty. -/
theorem after_label (h : Flows T program R b σ code) {front rest : Code} {span : Span} {l : String}
    (hcode : code = front ++ ⟨span, .label l⟩ :: rest) :
    Flows T program R R.frame.localsSize [] rest := by
  induction h generalizing front with
  | label h ih =>
      rcases List.cons_eq_append_iff.mp hcode with ⟨rfl, hcons⟩ | ⟨front, rfl, hcons⟩
      · cases hcons
        exact h
      · exact ih hcons
  | push h ih | name h ih | regn _ h ih | reserve _ h ih | drop h ih | locate h ih | binary _ h ih
  | unary _ h ih | follow _ h ih | load _ h ih | dereference _ h ih | save _ h ih
  | call _ _ _ _ _ h ih | jump _ h ih | branch _ _ h ih | init _ _ _ _ _ h ih =>
      rcases List.cons_eq_append_iff.mp hcode with ⟨rfl, hcons⟩ | ⟨front, rfl, hcons⟩
      · cases hcons
      · exact ih hcons
  | exit | retn _ =>
      rcases List.cons_eq_append_iff.mp hcode with ⟨rfl, hcons⟩ | ⟨front, rfl, hcons⟩
      · cases hcons
      · simp at hcons
  | forget h ih | outermost _ h ih => exact ih hcode

/-- There is an instruction to fetch. -/
theorem live (h : Flows T program R b σ code) {image : Image} {a : Int}
    (hholds : image.Holds a code) : (image.fetch? (.ofInt a)).isSome := by
  induction h with
  | label h ih =>
      rw [Image.holds_cons] at hholds
      exact ih (by simpa [Instruction.size] using hholds.2)
  | name h ih =>
      rw [Image.holds_cons] at hholds
      exact Option.isSome_of_eq_some hholds.1.1
  | forget h ih | outermost _ h ih => exact ih hholds
  | _ =>
      rw [Image.holds_cons] at hholds
      exact Option.isSome_of_eq_some hholds.1

end Flows

/-- Jumping to a label of a routine arrives at code of the routine where the operand stack is
empty. -/
theorem Routine.Stands.label {T : Target} {program : Program} {image : Image} {R : Routine}
    (h : R.Stands T program image) {span : Span} {l : String} (hl : ⟨span, .label l⟩ ∈ R.code) :
    ∃ rest, rest <:+ R.code ∧ image.labels[l]? = some (.ofInt (R.addressOf rest)) ∧
      Flows T program R R.frame.localsSize [] rest := by
  obtain ⟨front, rest, hsplit⟩ := List.append_of_mem hl
  obtain ⟨b, hflows⟩ := h.flows
  have hsuffix : (⟨span, .label l⟩ :: rest : Code) <:+ R.code := hsplit ▸ List.suffix_append _ _
  have hholds := h.holds_suffix hsuffix
  rw [Image.holds_cons] at hholds
  refine ⟨rest, suffix_of_cons hsuffix, ?_, hflows.after_label hsplit⟩
  rw [R.addressOf_cons ⟨span, .label l⟩ rest]
  simpa [Image.Has, Instruction.size] using hholds.1

namespace Executable

variable {program : Program} {T : Target} {segments : Segments} {image : Image} {s : State}

/-- A function that is called by a name is a routine whose code stands in the image, or a system
function. -/
theorem routine (h : Executable program T segments image s) (hassigns : program.AssignsNames)
    (hstores : program.StoresWords) {env : Env} (henv : env.Inside T program) {name : String}
    {meaning : Meaning} {head : FunctionHead} {body : List Statement} {frame : Frame} {a : Word}
    (hfind : env.find? name = some meaning) (hentity : meaning.entity = .function head body)
    (hframe : T.layout.frames[head.id]? = some frame) (hl : image.labels[frame.label]? = some a) :
    (∃ R : Routine, R.Stands T program image ∧ R.path = head.id :: meaning.home.path ∧
        R.frame = frame ∧ a = .ofInt R.start ∧ Flows T program R 8 [] R.code) ∨
      ∃ function : SystemFunction, a = function.address ∧
        head.parameters.length = function.arity := by
  obtain ⟨hfits, ⟨hbody, code, hcode, hfragment, hinside, hmem, howners, hplaced, hstatements, b, h₀, hb, hsize,
    hholds⟩ | ⟨_, _, function, _, haddress, harity⟩⟩ := h.callee henv hfind hentity hframe hl
  · left
    have hlt := h.loaded.size_lt
    have hstart := h.loaded.heap_le
    have hstop := h.loaded.data_le
    have hdata := Data.size_nonneg h.data_fits
    have hdataStart := h.loaded.dataStart_eq
    have hlocals := hstatements.before_le
    have hnonneg := Code.size_nonneg (functionCode head frame code)
    let R : Routine := ⟨head.id :: meaning.home.path, frame,
      Code.spanning head.span [.push (.ofInt (headerSize - frame.localsSize)), .popn] ++ (code ++
        Code.spanning head.span [.push (.ofInt (frame.parametersSize - linkSize)), .retn frame]), b⟩
    have hfunction : functionCode head frame code = ⟨head.span, .label frame.label⟩ :: R.code := by
      simp [functionCode, R, Code.spanning]
    have hsuits : Env.Suits T program (.parameters head :: meaning.home) head R :=
      ⟨hinside, rfl, rfl, hstores⟩
    have huses := definitionsUses_of_inside hmem
    have htargets := definitionsTargets_of_inside hmem
    have hsubset := definitionsInside_subset hmem
    have hflows : Flows T program R 8 [] R.code := by
      refine .push (.reserve (Nat.succ_pos _) (hcode.flows hsuits huses
        (fun d hd => hsubset (List.mem_cons_of_mem _ hd))
        (fun entry hentry => howners (List.mem_append_right _ hentry))
        (fun target ht => hassigns target (htargets ht)) hplaced rfl le_rfl
        (by rwa [Env.depth_parameters]) le_rfl (List.suffix_append _ _) ?_))
      exact .push (.retn (Nat.succ_pos _))
    rw [hfunction, Image.holds_cons] at hholds
    have hparameters := hfits.parametersSize_eq
    refine ⟨R, ⟨h₀, by show b < 2147483648; omega, ?_, ⟨8, hflows⟩,
      by show 0 ≤ frame.localsSize; omega, by show 0 ≤ frame.parametersSize; omega, ?_, ?_,
      fun hpath => absurd hpath (List.cons_ne_nil _ _)⟩, rfl, rfl, hb, hflows⟩
    · simpa [Instruction.size] using hholds.2
    · intro id hid
      cases hid
      refine ⟨hframe, by show 8 ≤ frame.localsSize; omega, hfits.localsSize_lt,
        by show 4 ≤ frame.parametersSize; omega, hholds.1, head.span, ?_⟩
      rw [hfragment, hfunction]
    · intro id outer hpath
      cases hpath
      refine ⟨howners List.mem_cons_self, ?_⟩
      show frame.depth = meaning.home.path.length + 1
      rw [hfits.depth_eq, Env.length_path]
  · exact .inr ⟨function, haddress, harity⟩

/-- The entry is a routine outside all functions. -/
theorem entryRoutine (h : Executable program T segments image s) :
    ∃ R : Routine, R.Stands T program image ∧ R.path = [] ∧ R.frame.localsSize = 0 ∧ R.start = 0 ∧
      Flows T program R 0 [] R.code := by
  obtain ⟨head, body, main, exit, hmain, hparameters, hframe, hfits, ⟨a, ha⟩, hlabel, hexit, hsize,
    hholds, _⟩ := h.entry
  let R : Routine := ⟨[], ⟨"", "", 0, 0, 0⟩, entryCode main exit, 0⟩
  have hfind : Env.find? [.definitions program] "main"
      = some ⟨0, .function head body, [.definitions program]⟩ := by
    rw [Env.find?, hmain]
  have hflows : Flows T program R 0 [] R.code := by
    refine .push (.outermost rfl (.name ?_))
    have hcall : Flows T program R 0 (.label main.label :: .link 0 ::
        (List.replicate head.parameters.length .word ++ []))
        (Code.spanning .nowhere [.call main, .push 0, .name exit.label, .call exit]) :=
      .call rfl h.inside_program hfind rfl hframe (.push (.name (.exit hlabel hsize)))
    rw [hparameters] at hcall
    exact hcall
  exact ⟨R, ⟨le_rfl, by show (0 : Int) < _; decide, hholds, ⟨0, hflows⟩, le_rfl, le_rfl,
    fun _ hhead => absurd hhead (Option.some_ne_none _).symm,
    fun _ _ hpath => absurd hpath (List.cons_ne_nil _ _).symm, fun _ => ⟨rfl, main, exit, rfl⟩⟩,
    rfl, rfl, rfl, hflows⟩

end Executable

end NestedFun
