import NestedFun.Proofs.FinishedEvaluations
import NestedFun.Proofs.ProgramEvaluation

namespace NestedFun

/-!
# Compiler correctness

A run of a compiled program without pointers agrees with the evaluation of the program unless the
stack meets the heap. As the evaluation knows no memory, a run that ends in another way ends in the
same way in a larger memory.
-/

/-- A run agrees with the evaluations of a program, unless the stack meets the heap. Where an
evaluation is finished the run ends with its result; where it is not the run gets to the same output
and takes as many steps as calls and rounds of loops were allowed. If a run ends so does evaluation. -/
structure State.Agrees (s : State) (image : Image) (program : Program) : Prop where
  described : ∀ fuel store, program.evaluate fuel s.input s.output ≠ .error .undescribed store
  finishes : ∀ fuel, Finished (program.evaluate fuel s.input s.output) →
    Overruns image s ∨ ∃ stack, Follows image stack s (program.evaluate fuel s.input s.output)
  continues : ∀ fuel store, program.evaluate fuel s.input s.output = .error .unfinished store →
    Overruns image s ∨ Lasts image fuel store.output s
  ends : ∀ o s', Ends image s o s' →
    Overruns image s ∨ ∃ fuel, Finished (program.evaluate fuel s.input s.output)

instance (program : Program) (table : Std.TreeMap NodeId NodeId) :
    (e : Expression) → Decidable (e.PointerFree program table)
  | .literal _ value => inferInstanceAs (Decidable (value.kind ≠ .string))
  | .unary _ operator _ =>
    inferInstanceAs (Decidable (operator.kind ≠ .addressOf ∧ operator.kind ≠ .dereference))
  | .call node _ _ => inferInstanceAs (Decidable (∀ d ∈ program, table[node.id]? = some d.node.id →
      d.name.text ≠ "putstr" ∧ d.name.text ≠ "new"))
  | .name _ _ | .binary _ _ _ _ => inferInstanceAs (Decidable True)

instance (program : Program) (table : Std.TreeMap NodeId NodeId) :
    Decidable (program.PointerFree table) :=
  inferInstanceAs (Decidable (∀ part ∈ definitionsUses program, part.2.PointerFree program table))

theorem Describes.cases {α : Type} {result : EStateM.Result Halt Store α}
    {unfinished : Output → Prop} {finished : Prop} (h : Describes result unfinished finished) :
    (∃ store, result = .error .unfinished store ∧ unfinished store.output) ∨
      Finished result ∧ finished := by
  rcases result with _ | ⟨_ | _ | _ | _, store⟩
  · exact .inr ⟨nofun, h⟩
  · exact .inr ⟨nofun, h⟩
  · exact .inr ⟨nofun, h⟩
  · exact .inl ⟨store, rfl, h⟩
  · exact h.elim

/-- Runs that follow the same evaluation end in the same way. -/
theorem Follows.same {image image' : Image} {stack : List String} {s s' t : State} {o : Outcome}
    {result : EStateM.Result Halt Store Word} (h : Follows image stack s result)
    (h' : Follows image' stack s' result) (hends : Ends image s o t) :
    ∃ t', Ends image' s' o t' ∧ t'.output = t.output := by
  rcases result with ⟨w, store⟩ | ⟨_ | _ | _ | _, store⟩
  · obtain ⟨u, hu, houtput⟩ := h
    obtain ⟨u', hu', houtput'⟩ := h'
    obtain ⟨rfl, rfl⟩ := hends.unique hu
    exact ⟨u', hu', houtput'.trans houtput.symm⟩
  · obtain ⟨u, hu, houtput⟩ := h
    obtain ⟨u', hu', houtput'⟩ := h'
    obtain ⟨rfl, rfl⟩ := hends.unique hu
    exact ⟨u', hu', houtput'.trans houtput.symm⟩
  · obtain ⟨u, hu, houtput⟩ := h
    obtain ⟨u', hu', houtput'⟩ := h'
    obtain ⟨rfl, rfl⟩ := hends.unique hu
    exact ⟨u', hu', houtput'.trans houtput.symm⟩
  · exact h.elim
  · exact h.elim

def addingSample : Source :=
  ⟨"var x = 2 fun add(n) = x = x + n, x fun main() = add(getchr())", .memory⟩

/-- A run of the program in two memories, of which the larger one is not needed. -/
theorem addingSample_runs : ∃ analysis compiled image s₀ image' s₀' s,
    Started addingSample 160 [65] {} analysis compiled image s₀ ∧
      Started addingSample 200 [65] {} analysis compiled image' s₀' ∧
      analysis.program.PointerFree analysis.resolution.definitions ∧
      analysis.program.StoresWords ∧ Ends image s₀ (.exited 67) s := by
  have hchecks : (start? addingSample 160 [65] {}).any (fun r =>
      decide (r.1.program.PointerFree r.1.resolution.definitions ∧ r.1.program.StoresWords ∧
        (runFor r.2.2.1 40 r.2.2.2).1 = .exited 67 ∧
        (r.2.1.segments.load 200 [65] {}).toOption.isSome)) = true := by
    rw [start?_spelled addingSample rfl (by decide)]
    decide +kernel
  obtain ⟨analysis, compiled, image, s₀, h, htest⟩ := exists_started hchecks
  obtain ⟨hfree, hstores, hrun, hload⟩ := of_decide_eq_true htest
  obtain ⟨⟨image', s₀'⟩, hload⟩ := Option.isSome_iff_exists.mp hload
  have hends : Ends image s₀ (.exited 67) (runFor image 40 s₀).2 :=
    ⟨Outcome.noConfusion, 40, Prod.ext hrun rfl⟩
  exact ⟨analysis, compiled, image, s₀, image', s₀', _, h,
    ⟨h.analyzed, h.compiles, toOption_eq_some hload⟩, hfree, hstores, hends⟩

namespace Started

variable {source : Source} {memorySize memorySize' : Nat} {input : List UInt8} {output : Output}
  {analysis : Analysis} {compiled : Compiled} {image image' : Image} {s s₀ s₀' : State} {o : Outcome}

/-- What is true of the evaluations of a program that was loaded. -/
theorem follows (h : Started source memorySize input output analysis compiled image s₀)
    (hfree : analysis.program.PointerFree analysis.resolution.definitions)
    (hstores : analysis.program.StoresWords) (fuel : Nat) :
    Describes (analysis.program.evaluate fuel input output)
      (fun written => Overruns image s₀ ∨ Lasts image fuel written s₀)
      (∃ need stack, ∀ memorySize image s,
        Started source memorySize input output analysis compiled image s →
        Attains image s (s.memory.size - need)
          (Follows image stack s (analysis.program.evaluate fuel input output))) := by
  have hloaded := fun {memorySize image s}
    (h : Started source memorySize input output analysis compiled image s) =>
      Executable.of_compile h.analyzed h.compiles h.loads
  obtain ⟨hexecutable, -, hinput, houtput⟩ := hloaded h
  refine (hexecutable.follows hfree hstores fuel input output).imp
    (fun written hlasts => hlasts image s₀ hexecutable hinput houtput) ?_
  rintro ⟨need, stack, hneed⟩
  refine ⟨need, stack, fun memorySize image s h => ?_⟩
  obtain ⟨hexecutable, -, hinput, houtput⟩ := hloaded h
  exact hneed image s hexecutable hinput houtput

/-- A run of a program without pointers agrees with its evaluations, and for every evaluation that is
finished there is a size of the free memory with which the stack does not meet the heap. -/
theorem agrees_with_evaluation
    (h : Started source memorySize input output analysis compiled image s₀)
    (hfree : analysis.program.PointerFree analysis.resolution.definitions)
    (hstores : analysis.program.StoresWords) :
    s₀.Agrees image analysis.program ∧
      ∀ fuel, Finished (analysis.program.evaluate fuel input output) →
        ∃ need stack, ∀ memorySize image s,
          Started source memorySize input output analysis compiled image s →
          s.heapEnd.toInt + need ≤ s.memory.size →
          Follows image stack s (analysis.program.evaluate fuel input output) := by
  obtain ⟨-, -, rfl, rfl⟩ := Executable.of_compile h.analyzed h.compiles h.loads
  refine ⟨⟨fun fuel store hresult => ?_, fun fuel hfinished => ?_, fun fuel store hresult => ?_,
    fun o s' hends => ?_⟩, fun fuel hfinished => ?_⟩
  · have hfollows := h.follows hfree hstores fuel
    rw [hresult] at hfollows
    exact hfollows
  · rcases (h.follows hfree hstores fuel).cases with ⟨store, heq, -⟩ | ⟨-, need, stack, hneed⟩
    · exact absurd heq (hfinished store)
    · have hattains := hneed _ _ _ h
      by_cases hlevel : s₀.heapEnd.toInt ≤ s₀.memory.size - need
      · exact .inr ⟨stack, hattains.fits hlevel⟩
      · exact .inl (hattains.overruns (by omega))
  · have hfollows := h.follows hfree hstores fuel
    rw [hresult] at hfollows
    exact hfollows
  · obtain ⟨ho, n, hrun⟩ := hends
    rcases (h.follows hfree hstores n).cases with ⟨store, -, hover | hlasts⟩ | ⟨hfinished, -⟩
    · exact .inl hover
    · exact absurd (hlasts.not_ends hrun) ho
    · exact .inr ⟨n, hfinished⟩
  · rcases (h.follows hfree hstores fuel).cases with ⟨store, heq, -⟩ | ⟨-, need, stack, hneed⟩
    · exact absurd heq (hfinished store)
    · exact ⟨need, stack, fun memorySize image s h hroom => (hneed _ _ _ h).fits (by omega)⟩

theorem agrees_with_evaluation_sample : ∃ analysis compiled image s₀,
    Started addingSample 160 [65] {} analysis compiled image s₀ ∧
      analysis.program.PointerFree analysis.resolution.definitions ∧
      analysis.program.StoresWords ∧ s₀.Agrees image analysis.program ∧
      ∀ fuel, Finished (analysis.program.evaluate fuel [65] {}) →
        ∃ need stack, ∀ memorySize image s,
          Started addingSample memorySize [65] {} analysis compiled image s →
          s.heapEnd.toInt + need ≤ s.memory.size →
          Follows image stack s (analysis.program.evaluate fuel [65] {}) := by
  obtain ⟨analysis, compiled, image, s₀, _, _, _, h, -, hfree, hstores, -⟩ := addingSample_runs
  exact ⟨analysis, compiled, image, s₀, h, hfree, hstores, h.agrees_with_evaluation hfree hstores⟩

/-- If a run of a program without pointers ends, but not because the stack meets the heap, it ends in
the same way and with the same output in a larger memory. -/
theorem same_with_more_memory
    (h : Started source memorySize input output analysis compiled image s₀)
    (h' : Started source memorySize' input output analysis compiled image' s₀')
    (hle : memorySize ≤ memorySize')
    (hfree : analysis.program.PointerFree analysis.resolution.definitions)
    (hstores : analysis.program.StoresWords) (hends : Ends image s₀ o s)
    (hroom : ∀ a b stack, o ≠ .faulted ⟨.stackOverflow a b, stack⟩) :
    ∃ s', Ends image' s₀' o s' ∧ s'.output = s.output := by
  have hover : ¬ Overruns image s₀ := by
    rintro ⟨a, b, stack, t, hover⟩
    exact hroom a b stack (hends.unique hover).1
  obtain ⟨ho, n, hrun⟩ := id hends
  rcases (h.follows hfree hstores n).cases with ⟨store, -, hover' | hlasts⟩ | ⟨-, need, stack, hneed⟩
  · exact absurd hover' hover
  · exact absurd (hlasts.not_ends hrun) ho
  · have hheap : s₀'.heapEnd = s₀.heapEnd := by
      rw [Segments.load_heapEnd h'.loads, Segments.load_heapEnd h.loads]
    have hsize : s₀.memory.size ≤ s₀'.memory.size := by
      rw [(Executable.of_compile h.analyzed h.compiles h.loads).2.1,
        (Executable.of_compile h'.analyzed h'.compiles h'.loads).2.1]
      exact usableMemory_mono hle
    have hattains := hneed _ _ _ h
    have hlevel : s₀.heapEnd.toInt ≤ s₀.memory.size - need := by
      by_contra hlevel
      exact hover (hattains.overruns (by omega))
    exact (hattains.fits hlevel).same ((hneed _ _ _ h').fits (by rw [hheap]; omega)) hends

theorem same_with_more_memory_sample : ∃ analysis compiled image s₀ image' s₀' s,
    Started addingSample 160 [65] {} analysis compiled image s₀ ∧
      Started addingSample 200 [65] {} analysis compiled image' s₀' ∧ 160 ≤ 200 ∧
      analysis.program.PointerFree analysis.resolution.definitions ∧
      analysis.program.StoresWords ∧ Ends image s₀ (.exited 67) s ∧
      (∀ a b stack, Outcome.exited 67 ≠ .faulted ⟨.stackOverflow a b, stack⟩) ∧
      ∃ s', Ends image' s₀' (.exited 67) s' ∧ s'.output = s.output := by
  obtain ⟨analysis, compiled, image, s₀, image', s₀', s, h, h', hfree, hstores, hends⟩ :=
    addingSample_runs
  have hroom : ∀ a b stack, Outcome.exited 67 ≠ .faulted ⟨.stackOverflow a b, stack⟩ :=
    fun _ _ _ => Outcome.noConfusion
  exact ⟨analysis, compiled, image, s₀, image', s₀', s, h, h', by decide, hfree, hstores, hends, hroom,
    h.same_with_more_memory h' (by decide) hfree hstores hends hroom⟩

end Started

end NestedFun
