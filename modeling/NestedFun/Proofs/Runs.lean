import NestedFun.Proofs.Preservation

namespace NestedFun

/-!
# Runs of compiled programs

A program that was compiled and loaded is in control in its first state, and so in every state that
it reaches.
-/

/-- A program was read with the declarations of the system functions, compiled, and loaded. -/
structure Started (source : Source) (memorySize : Nat) (input : List UInt8) (output : Output)
    (analysis : Analysis) (compiled : Compiled) (image : Image) (s : State) : Prop where
  analyzed : analyze source.withSystemDeclarations = .ok analysis
  compiles : analysis.compile = .ok compiled
  loads : compiled.segments.load memorySize input output = .ok (image, s)

def start? (source : Source) (memorySize : Nat) (input : List UInt8) (output : Output) :
    Option (Analysis × Compiled × Image × State) := do
  let analysis ← (analyze source.withSystemDeclarations).toOption
  let compiled ← analysis.compile.toOption
  let (image, s) ← (compiled.segments.load memorySize input output).toOption
  return (analysis, compiled, image, s)

theorem started_of_start? {source : Source} {memorySize : Nat} {input : List UInt8}
    {output : Output} {analysis : Analysis} {compiled : Compiled} {image : Image} {s : State}
    (h : start? source memorySize input output = some (analysis, compiled, image, s)) :
    Started source memorySize input output analysis compiled image s := by
  obtain ⟨analysis', hanalysis, h⟩ := Option.bind_eq_some_iff.mp h
  obtain ⟨compiled', hcompiled, h⟩ := Option.bind_eq_some_iff.mp h
  obtain ⟨⟨image', s'⟩, hload, h⟩ := Option.bind_eq_some_iff.mp h
  cases h
  exact ⟨toOption_eq_some hanalysis, toOption_eq_some hcompiled, toOption_eq_some hload⟩

theorem start?_spelled (source : Source) {cs : List Char}
    (hcontents : source.contents = String.ofList cs) (hlast : cs.getLast? ≠ some '\n')
    (memorySize : Nat) (input : List UInt8) (output : Output) :
    start? source memorySize input output
      = (analyzeChars (cs ++ '\n' :: Spelled.declarations.chars)).toOption.bind fun analysis =>
        analysis.compile.toOption.bind fun compiled =>
          (compiled.segments.load memorySize input output).toOption.bind fun loaded =>
            some (analysis, compiled, loaded.1, loaded.2) := by
  rw [start?, analyze_spelled source hcontents hlast]
  rfl

/-- A text that passes a test once it is compiled and loaded. -/
theorem exists_started {source : Source} {memorySize : Nat} {input : List UInt8} {output : Output}
    {test : Analysis × Compiled × Image × State → Bool}
    (h : (start? source memorySize input output).any test = true) :
    ∃ analysis compiled image s, Started source memorySize input output analysis compiled image s ∧
      test (analysis, compiled, image, s) = true := by
  cases hstart : start? source memorySize input output with
  | none => simp [hstart] at h
  | some r =>
      obtain ⟨analysis, compiled, image, s⟩ := r
      rw [hstart] at h
      exact ⟨analysis, compiled, image, s, started_of_start? hstart, h⟩

instance (program : Program) : Decidable program.AssignsNames :=
  inferInstanceAs (Decidable (∀ target ∈ definitionsTargets program, target.IsName))

instance (program : Program) : Decidable program.StoresWords :=
  inferInstanceAs (Decidable (∀ d ∈ definitionsInside program, d.StoresWord))

section

variable {T : Target} {program : Program} {segments : Segments} {image : Image} {s s₀ : State}

/-- The first state of a program is in control. -/
theorem Executable.inControl (h : Executable program T segments image s) :
    InControl T program segments image s := by
  obtain ⟨R, hstands, hpath, hlocals, hstart, hflows⟩ := h.entryRoutine
  have hloaded := h.loaded
  have hstartLe := Data.size_nonneg h.data_fits
  have hdata := hloaded.data_le
  have hsize := hloaded.dataStart_eq
  have hheap := hloaded.heap_le
  refine ⟨⟨R, s.memory.size⟩, [], 0, [], R.code, ?_, hflows⟩
  refine ⟨.entry hstands hpath hlocals, List.suffix_refl _, ?_, hloaded.fp_eq,
    ⟨?_, by omega, ?_, ?_, hloaded.size_lt⟩, le_rfl, fun hne => absurd hpath hne, trivial,
    hloaded.callStack_eq, ?_, hsize, hdata⟩
  · rw [hloaded.pc_eq]
    show _ = Word.ofInt (R.addressOf R.code)
    rw [R.addressOf_self, hstart]
  · simp [hloaded.sp_eq]
  · show s.heapEnd.toInt ≤ (s.memory.size : Int) - 0 - 4 * ((0 : Nat) : Int)
    omega
  · show (s.memory.size : Int) - 0 - 4 * ((0 : Nat) : Int) ≤ _
    omega
  · intro entry hentry v hv
    have hholds := hloaded.data entry hentry
    rw [hv] at hholds
    exact hholds

theorem InControl.step (hexecutable : Executable program T segments image s₀)
    (hassigns : program.AssignsNames) (hstores : program.StoresWords)
    (h : InControl T program segments image s) :
    Controlled T program segments image s (Exec.step image s) := by
  obtain ⟨A, older, base, σ, code, hrunning, hflows⟩ := h
  exact hrunning.step hexecutable hassigns hstores hflows

/-- A running program is in control however many steps it has taken. -/
theorem InControl.run (hexecutable : Executable program T segments image s₀)
    (hassigns : program.AssignsNames) (hstores : program.StoresWords) {n : Nat} {s' : State}
    (h : InControl T program segments image s) (hrun : runFor image n s = (.running, s')) :
    InControl T program segments image s' := by
  induction n generalizing s with
  | zero =>
      cases hrun
      exact h
  | succ n ih =>
      have hstep := h.step hexecutable hassigns hstores
      rw [runFor] at hrun
      cases hresult : Exec.step image s with
      | ok value s'' =>
          rw [hresult] at hstep hrun
          cases value with
          | none => exact ih hstep hrun
          | some code => cases hrun
      | error kind s'' =>
          rw [hresult] at hrun
          cases hrun

end

def nestedSample : Source :=
  ⟨"fun main() = let var x = 1 fun f(n) = x = n, x in f(2)^ end", .memory⟩

theorem nestedSample_runs : ∃ analysis compiled image s₀ s,
    Started nestedSample 400 [] {} analysis compiled image s₀ ∧
      analysis.program.AssignsNames ∧ analysis.program.StoresWords ∧
      runFor image 30 s₀ = (.running, s) := by
  have hchecks : (start? nestedSample 400 [] {}).any (fun r =>
      decide (r.1.program.AssignsNames ∧ r.1.program.StoresWords ∧
        (runFor r.2.2.1 30 r.2.2.2).1 = .running)) = true := by
    rw [start?_spelled nestedSample rfl (by decide)]
    decide +kernel
  obtain ⟨analysis, compiled, image, s₀, h, htest⟩ := exists_started hchecks
  obtain ⟨hassigns, hstores, hrun⟩ := of_decide_eq_true htest
  exact ⟨analysis, compiled, image, s₀, _, h, hassigns, hstores, Prod.ext hrun rfl⟩

namespace Started

variable {source : Source} {memorySize : Nat} {input : List UInt8} {output : Output}
  {analysis : Analysis} {compiled : Compiled} {image : Image} {s s₀ : State}

theorem executable (h : Started source memorySize input output analysis compiled image s) :
    Executable analysis.program (compiled.target analysis) compiled.segments image s :=
  (Executable.of_compile h.analyzed h.compiles h.loads).1

theorem inControl (h : Started source memorySize input output analysis compiled image s₀)
    (hassigns : analysis.program.AssignsNames) (hstores : analysis.program.StoresWords) {n : Nat}
    (hrun : runFor image n s₀ = (.running, s)) :
    InControl (compiled.target analysis) analysis.program compiled.segments image s :=
  h.executable.inControl.run h.executable hassigns hstores hrun

/-- A program that assigns to names only never loses control. In every state that it reaches the
stack ends above the heap, and if its next step fails, then because the stack or the heap is full,
because of a division by zero or of the console, or because a dereference or the output of a text
reads at an address that holds no word. -/
theorem keeps_control (h : Started source memorySize input output analysis compiled image s₀)
    (hassigns : analysis.program.AssignsNames) (hstores : analysis.program.StoresWords) {n : Nat}
    (hrun : runFor image n s₀ = (.running, s)) :
    s.heapEnd ≤ s.sp ∧ ∀ kind s', Exec.step image s = .error kind s' →
      kind.Orderly (compiled.target analysis) analysis.program image s := by
  have hcontrol := h.inControl hassigns hstores hrun
  have hstep := hcontrol.step h.executable hassigns hstores
  obtain ⟨A, older, base, σ, code, hrunning, -⟩ := hcontrol
  refine ⟨Int32.le_iff_toInt_le.mpr ?_, fun kind s' hfails => ?_⟩
  · rw [hrunning.stack.toInt_sp]
    exact hrunning.stack.heap_le
  · rw [hfails] at hstep
    exact hstep

/-- After thirty steps of a program with a function inside another. -/
theorem keeps_control_sample : ∃ analysis compiled image s₀ s,
    Started nestedSample 400 [] {} analysis compiled image s₀ ∧
      analysis.program.AssignsNames ∧ analysis.program.StoresWords ∧
      runFor image 30 s₀ = (.running, s) ∧ s.heapEnd ≤ s.sp ∧
      ∀ kind s', Exec.step image s = .error kind s' →
        kind.Orderly (compiled.target analysis) analysis.program image s := by
  obtain ⟨analysis, compiled, image, s₀, s, h, hassigns, hstores, hrun⟩ := nestedSample_runs
  exact ⟨analysis, compiled, image, s₀, s, h, hassigns, hstores, hrun,
    h.keeps_control hassigns hstores hrun⟩

end Started

end NestedFun
