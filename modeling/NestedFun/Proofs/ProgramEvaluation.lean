import NestedFun.Proofs.Runs
import NestedFun.Proofs.StatementEvaluation

namespace NestedFun

/-!
# Evaluations of programs

A compiled program without pointers does what its evaluation says. The run takes the same result from
it whatever the size of the memory is, as long as the stack does not meet the heap.
-/

def Program.PointerFree (program : Program) (table : Std.TreeMap NodeId NodeId) : Prop :=
  ∀ part ∈ definitionsUses program, part.2.PointerFree program table

/-- What a run does that has the result of an evaluation: it exits with the value of the program, or
with the code that the program exits with, or fails in the same way. -/
def Follows (image : Image) (stack : List String) (s : State) :
    EStateM.Result Halt Store Word → Prop
  | .ok w store | .error (.exited w) store =>
    ∃ s', Ends image s (.exited w) s' ∧ s'.output = store.output
  | .error (.faulted kind) store =>
    ∃ s', Ends image s (.faulted ⟨kind, stack⟩) s' ∧ s'.output = store.output
  | .error .unfinished _ | .error .undescribed _ => False

/-- The room that a run needs on the stack when the call of `main` needs so much: behind it there is
still the call of `exit`. -/
def needWithExit (need : Int) : EStateM.Result Halt Store Word → Int
  | .ok _ _ => max need 12
  | .error _ _ => need

section

variable {T : Target} {program : Program} {segments : Segments} {image image₀ : Image}
  {s s₀ : State}

/-- However many calls and rounds of loops there may be inside one another, the code does what
evaluation says. -/
theorem Executable.bounded (h : Executable program T segments image s)
    (hfree : program.PointerFree T.context.definitions) (hstores : program.StoresWords) (n : Nat) :
    Bounded T program segments image n (evaluateUpTo n) := by
  induction n with
  | zero =>
      exact ⟨⟨s, h⟩, hfree, hstores, fun _ _ _ _ _ _ _ _ _ _ _ _ _ _ s hs =>
        .inr ⟨0, s, le_rfl, rfl, hs.ready.output_eq⟩⟩
  | succ n ih =>
      exact ⟨⟨s, h⟩, hfree, hstores, fun _ _ _ _ _ _ _ hstanding =>
        statements_compute _ ih hstanding⟩

/-- At the start the variables of the program have their initial values. -/
theorem Executable.ready (h : Executable program T segments image s) (hstores : program.StoresWords) :
    Ready T segments image [(.definitions program, 0)] s.memory.size 0 0 0 []
      ⟨[.ofDefinitions program], s.input, s.output⟩ s := by
  have hloaded := h.loaded
  have hdata := Data.size_nonneg h.data_fits
  have hstop := hloaded.data_le
  have hheap := hloaded.heap_le
  have hstart := hloaded.dataStart_eq
  constructor
  · exact hloaded.pc_eq
  · exact fun hdepth => absurd hdepth (lt_irrefl 0)
  · exact ⟨by simp [hloaded.sp_eq], by omega, by simpa using hheap, by simp, hloaded.size_lt⟩
  · exact .top (h.sited_program hstores) (fun i hi => h.reserves_program hi hstores)
      (by rw [Segments.dataStop]; omega) (by rw [Segments.dataStop]; omega)
  · refine .cons (Record.holds_ofDefinitions fun head hd => ?_) .nil
    obtain ⟨x, _, _, _, _, hsite, _, _, _, _, _, _, _, _, hwords⟩ := h.site_global hd
    obtain ⟨w, words, hcons⟩ := List.exists_cons_of_ne_nil (hstores _ (mem_definitionsInside hd))
    rw [hcons] at hwords ⊢
    exact ⟨x, hsite, hwords.1⟩
  · trivial
  · intro entry hentry v hv
    have hholds := hloaded.data entry hentry
    rw [hv] at hholds
    exact hholds
  · exact hstart
  · exact hstop
  · rfl
  · rfl

/-- Outside functions the frame around the program is 0. -/
theorem pushesLink_program (span : Span) :
    PushesLink T program segments [.definitions program] 0 0 [.definitions program]
      (Code.spanning span [.push 0]) := by
  rintro σ more store image sites anchor pc s hs fronts p tail rfl hhome
  have henv := hs.env_eq
  rw [List.map_append, hhome] at henv
  obtain rfl : fronts = [] := by
    rw [← List.map_eq_nil_iff (f := Prod.fst)]
    exact List.append_left_eq_self.mp henv
  obtain ⟨⟨r, a⟩, rest, heq, rfl, hrest⟩ := List.map_eq_cons_iff.mp hhome
  obtain ⟨rfl, rfl⟩ := List.cons.inj heq
  obtain rfl := List.map_eq_nil_iff.mp hrest
  have hsited := hs.ready.sited
  obtain rfl : a = 0 := by
    cases hsited with
    | top => rfl
  exact hs.ready.moves_push hs.data_fits hs.holds

theorem Translated.known_program (h : Translated program T) :
    Env.Known T program [.definitions program] where
  toInside := h.inside_program
  bound ds outer hsuffix := by
    rcases List.suffix_cons_iff.mp hsuffix with heq | hsuffix
    · cases heq
      exact h.bound
    · cases List.suffix_nil.mp hsuffix

/-- The call of `main` computes what its evaluation says. -/
theorem Executable.computes_main (h : Executable program T segments image s)
    (hfree : program.PointerFree T.context.definitions) (hstores : program.StoresWords)
    {head : FunctionHead} {body : List Statement} {main : Frame}
    (hmain : (Region.definitions program).entities.lookup "main" = some (.function head body))
    (hparameters : head.parameters = []) (hframe : T.layout.frames[head.id]? = some main)
    (hlabel : ∃ w, image.labels[main.label]? = some w) (n : Nat) :
    Computes T program segments (n + 1) [.definitions program] 0 0 []
      (Code.spanning .nowhere [.push 0, .name main.label, .call main])
      (Eval.call (evaluateUpTo n) "main" []) (fun w => [w]) := by
  have hfind : Env.find? [.definitions program] "main"
      = some ⟨0, .function head body, [.definitions program]⟩ := by
    rw [Env.find?, hmain]
  have hnames : ∀ d ∈ program, d.node.id = head.id → d.name.text ≠ "putstr" ∧ d.name.text ≠ "new" := by
    intro d hd hid
    obtain ⟨hmem, hname⟩ := mem_entities_function (mem_of_lookup hmain)
    obtain rfl := eq_of_mem_nodup h.nodup_inside (mem_definitionsInside hd)
      (mem_definitionsInside hmem) hid
    rw [show (Definition.func head body).name.text = "main" from hname.symm]
    decide
  have hlength : head.parameters.length = ([] : List Word).length := congrArg List.length hparameters
  exact (h.bounded hfree hstores n).call h.known_program (pushesLink_program .nowhere) hfind rfl
    hframe hlength hnames hlabel

/-- The call of `exit` ends the program with the word on the stack. -/
theorem Ready.exits {sites : List Site} {anchor used limit pc : Int} {w : Word} {store : Store}
    {exit : Frame} (h : Ready T segments image sites anchor used limit pc [w] store s)
    (hfits : ∀ d ∈ segments.data, d.item.Fits)
    (hcode : image.Holds pc (Code.spanning .nowhere [.push 0, .name exit.label, .call exit]))
    (hlabel : image.labels[exit.label]? = some SystemFunction.exit.address)
    (hsize : exit.parametersSize = 8) :
    Attains image s (anchor - limit - 12)
      (∃ s', Ends image s (.exited w) s' ∧ s'.output = store.output) := by
  have hname := ((Image.holds_cons _ _ _ _).mp hcode).2
  have hcall := ((Image.holds_cons _ _ _ _).mp hname).2
  have hmoves := (h.moves_push hfits hcode).trans fun s₁ h₁ => h₁.moves_name hfits hname hlabel
  have hlevel : anchor - limit - 12 = min (anchor - limit - 12) (anchor - limit - 0) := by omega
  rw [hlevel]
  refine Attains.bind hmoves fun s₂ hleads _ hs₂ => ?_
  have hready : Ready T segments image sites anchor used limit _
      (SystemFunction.exit.address :: 0 :: ([w] ++ [])) store s₂ := hs₂.1
  refine (hready.calls_system hfits hcall rfl hsize (by decide) (by decide)).imp ?_
  rintro ⟨s', hends, houtput⟩
  exact ⟨s', hleads.ends hends, houtput⟩

theorem Executable.poised (h : Executable program T segments image s)
    (hstores : program.StoresWords) {main exit : Frame} (hcode : image.Holds 0 (entryCode main exit)) :
    Poised T program segments [.definitions program] 0 0 []
      (Code.spanning .nowhere [.push 0, .name main.label, .call main])
      ⟨[.ofDefinitions program], s.input, s.output⟩ image [(.definitions program, 0)]
      s.memory.size 0 s := by
  have hsplit : entryCode main exit
      = Code.spanning .nowhere [.push 0, .name main.label, .call main]
        ++ Code.spanning .nowhere [.push 0, .name exit.label, .call exit] := rfl
  rw [hsplit, Image.holds_append] at hcode
  refine ⟨⟨⟨s, h⟩, rfl, hcode.1, ?_⟩, h.ready hstores⟩
  exact Option.isSome_of_eq_some ((Image.holds_cons _ _ _ _).mp hcode.2).1

/-- Behind the call of `main` a run ends with its value. Where `main` does not return this needs no
more stack. -/
theorem Executable.follows_main (h : Executable program T segments image s) {main exit : Frame}
    (hcode : image.Holds 0 (entryCode main exit))
    (hlabel : image.labels[exit.label]? = some SystemFunction.exit.address)
    (hsize : exit.parametersSize = 8) {need : Int} {stack : List String}
    {result : EStateM.Result Halt Store Word}
    (hmain : Attains image s (s.memory.size - 0 - need) (Achieves image stack s (fun w store s' =>
      Ready T segments image [(.definitions program, 0)] s.memory.size 0 0
          (0 + Code.size (Code.spanning .nowhere [.push 0, .name main.label, .call main])) [w] store s' ∧
        Kept T segments image [(.definitions program, 0)] (s.memory.size - 0) s s') result)) :
    Attains image s (s.memory.size - needWithExit need result) (Follows image stack s result) := by
  have hsplit : entryCode main exit
      = Code.spanning .nowhere [.push 0, .name main.label, .call main]
        ++ Code.spanning .nowhere [.push 0, .name exit.label, .call exit] := rfl
  rw [hsplit, Image.holds_append] at hcode
  rw [sub_zero] at hmain
  rcases result with ⟨w, store⟩ | ⟨_ | _ | _ | _, store⟩
  · have hlevel : (s.memory.size : Int) - max need 12
        = min (s.memory.size - need) (s.memory.size - 0 - 12) := by omega
    rw [needWithExit, hlevel]
    refine Attains.bind hmain fun s' hleads _ hs' => ?_
    refine (hs'.1.exits h.data_fits hcode.2 hlabel hsize).imp ?_
    rintro ⟨s'', hends, houtput⟩
    exact ⟨s'', hleads.ends hends, houtput⟩
  · exact hmain
  · rw [Achieves, h.loaded.callStack_eq, List.append_nil] at hmain
    exact hmain
  · exact hmain
  · exact hmain

/-- A program without pointers does what its evaluation says. How much stack that takes does not
depend on the size of the memory. -/
theorem Executable.follows (h : Executable program T segments image₀ s₀)
    (hfree : program.PointerFree T.context.definitions) (hstores : program.StoresWords)
    (fuel : Nat) (input : List UInt8) (output : Output) :
    Describes (program.evaluate fuel input output)
      (fun written => ∀ image s, Executable program T segments image s → s.input = input →
        s.output = output → Overruns image s ∨ Lasts image fuel written s)
      (∃ need stack, ∀ image s, Executable program T segments image s → s.input = input →
        s.output = output → Attains image s (s.memory.size - need)
          (Follows image stack s (program.evaluate fuel input output))) := by
  obtain ⟨head, body, main, _, hmain, hparameters, hframe, -, hlabel, -⟩ := h.entry
  have hcomputes := h.computes_main hfree hstores hmain hparameters hframe hlabel fuel
    ⟨[.ofDefinitions program], input, output⟩ (.cons (Record.fits_ofDefinitions program) .nil)
  change Describes (program.evaluate fuel input output) _ _ at hcomputes
  have hentry : ∀ {image : Image} {s : State}, Executable program T segments image s → ∃ exit,
      image.Holds 0 (entryCode main exit) ∧
        image.labels[exit.label]? = some SystemFunction.exit.address ∧ exit.parametersSize = 8 := by
    intro image s h
    obtain ⟨_, _, _, exit, hmain', -, hframe', -, -, hexit, hlabel, hsize, hcode, -⟩ := h.entry
    cases hmain.symm.trans hmain'
    cases hframe.symm.trans hframe'
    exact ⟨exit, hcode, hexit ▸ hlabel, hsize⟩
  refine hcomputes.imp (fun _ hlasts image s h' hinput houtput => ?_) ?_
  · obtain ⟨exit, hcode, -⟩ := hentry h'
    subst hinput houtput
    exact (hlasts image _ _ _ s (h'.poised hstores hcode)).imp id fun hlasts =>
      hlasts.mono fuel.le_succ
  · rintro ⟨-, need, stack, hneed⟩
    refine ⟨needWithExit need (program.evaluate fuel input output), stack,
      fun image s h' hinput houtput => ?_⟩
    obtain ⟨exit, hcode, hlabel', hsize⟩ := hentry h'
    subst hinput houtput
    exact h'.follows_main hcode hlabel' hsize (hneed image _ _ _ s (h'.poised hstores hcode))

end

end NestedFun
