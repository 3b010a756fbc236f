import NestedFun.Proofs.MachineSteps

namespace NestedFun

/-!
# How much stack a run needs

A piece of code needs the stack to grow down to some address. If the heap ends below it the code
does its work, and otherwise it ends in a stack overflow. For code that runs one piece after the
other the lower of the addresses counts.
-/

section

variable {image : Image} {s s' : State} {m n : Nat} {o : Outcome}

theorem runFor_succ_of_step (h : Exec.step image s = .ok none s') (n : Nat) :
    runFor image (n + 1) s = runFor image n s' := by
  rw [runFor, h]

theorem runFor_add (h : runFor image m s = (.running, s')) (n : Nat) :
    runFor image (m + n) s = runFor image n s' := by
  induction m generalizing s with
  | zero =>
      cases h
      rw [Nat.zero_add]
  | succ m ih =>
      rw [Nat.add_right_comm, runFor]
      rw [runFor] at h
      split at h
      · rename_i heq
        exact ih h
      · cases h
      · cases h

/-- Once a run has ended it stays as it is. -/
theorem runFor_of_ended (h : runFor image n s = (o, s')) (ho : o ≠ .running) (hle : n ≤ m) :
    runFor image m s = (o, s') := by
  induction n generalizing s m with
  | zero =>
      cases h
      exact absurd rfl ho
  | succ n ih =>
      obtain ⟨m, rfl⟩ := Nat.exists_eq_add_of_le' (Nat.one_le_of_lt hle)
      rw [runFor] at h ⊢
      split at h
      · exact ih h (by omega)
      · exact h
      · exact h

end

def Leads (image : Image) (s s' : State) : Prop := ∃ n, runFor image n s = (.running, s')

def Ends (image : Image) (s : State) (o : Outcome) (s' : State) : Prop :=
  o ≠ .running ∧ ∃ n, runFor image n s = (o, s')

def Overruns (image : Image) (s : State) : Prop :=
  ∃ a b stack s', Ends image s (.faulted ⟨.stackOverflow a b, stack⟩) s'

/-- The machine gets to a state with some output, after at least so many steps. -/
def Lasts (image : Image) (n : Nat) (output : Output) (s : State) : Prop :=
  ∃ m s', n ≤ m ∧ runFor image m s = (.running, s') ∧ s'.output = output

section

variable {image : Image} {s s' s'' : State} {n : Nat} {o o' : Outcome} {output : Output}

theorem Leads.refl (image : Image) (s : State) : Leads image s s := ⟨0, rfl⟩

theorem Leads.of_step (h : Exec.step image s = .ok none s') : Leads image s s' :=
  ⟨1, runFor_succ_of_step h 0⟩

theorem Leads.trans (h : Leads image s s') (h' : Leads image s' s'') : Leads image s s'' := by
  obtain ⟨m, hm⟩ := h
  obtain ⟨n, hn⟩ := h'
  exact ⟨m + n, by rw [runFor_add hm, hn]⟩

theorem Leads.ends (h : Leads image s s') (h' : Ends image s' o s'') : Ends image s o s'' := by
  obtain ⟨m, hm⟩ := h
  obtain ⟨ho, n, hn⟩ := h'
  exact ⟨ho, m + n, by rw [runFor_add hm, hn]⟩

theorem Leads.overruns (h : Leads image s s') (h' : Overruns image s') : Overruns image s := by
  obtain ⟨a, b, stack, s'', hends⟩ := h'
  exact ⟨a, b, stack, s'', h.ends hends⟩

theorem Ends.of_error {kind : FaultKind} (h : Exec.step image s = .error kind s') :
    Ends image s (.faulted ⟨kind, s'.callStack⟩) s' :=
  ⟨nofun, 1, by rw [runFor, h]⟩

theorem Ends.of_exit {code : Word} (h : Exec.step image s = .ok (some code) s') :
    Ends image s (.exited code) s' :=
  ⟨nofun, 1, by rw [runFor, h]⟩

/-- A run ends in one way only. -/
theorem Ends.unique (h : Ends image s o s') (h' : Ends image s o' s'') : o = o' ∧ s' = s'' := by
  obtain ⟨ho, m, hm⟩ := h
  obtain ⟨ho', n, hn⟩ := h'
  have h₁ := runFor_of_ended hm ho (Nat.le_max_left m n)
  have h₂ := runFor_of_ended hn ho' (Nat.le_max_right m n)
  exact Prod.mk.inj (h₁.symm.trans h₂)

theorem Overruns.of_overflows (h : Overflows (Exec.step image s)) : Overruns image s := by
  obtain ⟨a, b, s', hstep⟩ := h
  exact ⟨a, b, _, s', .of_error hstep⟩

theorem Lasts.mono {m : Nat} (h : Lasts image n output s) (hle : m ≤ n) : Lasts image m output s := by
  obtain ⟨k, s', hk, hs'⟩ := h
  exact ⟨k, s', hle.trans hk, hs'⟩

theorem Leads.lasts (h : Leads image s s') (h' : Lasts image n output s') : Lasts image n output s := by
  obtain ⟨m, hm⟩ := h
  obtain ⟨k, t, hk, ht, houtput⟩ := h'
  exact ⟨m + k, t, by omega, by rw [runFor_add hm, ht], houtput⟩

theorem Lasts.of_step (hstep : Exec.step image s = .ok none s') (h : Lasts image n output s') :
    Lasts image (n + 1) output s := by
  obtain ⟨k, t, hk, ht, houtput⟩ := h
  exact ⟨k + 1, t, by omega, by rw [runFor_succ_of_step hstep, ht], houtput⟩

/-- On the way to another state the machine takes a step. -/
theorem Leads.lasts_succ (h : Leads image s s') (hne : s ≠ s') (h' : Lasts image n output s') :
    Lasts image (n + 1) output s := by
  obtain ⟨m, hm⟩ := h
  obtain ⟨k, t, hk, ht, houtput⟩ := h'
  cases m with
  | zero =>
      cases hm
      exact absurd rfl hne
  | succ m => exact ⟨m + 1 + k, t, by omega, by rw [runFor_add hm, ht], houtput⟩

/-- A run that lasts longer than it takes to end does not end. -/
theorem Lasts.not_ends (h : Lasts image n output s) (hrun : runFor image n s = (o, s')) :
    o = .running := by
  obtain ⟨m, t, hle, ht, -⟩ := h
  by_contra ho
  rw [runFor_of_ended hrun ho hle] at ht
  exact ho (Prod.mk.inj ht).1

end

/-- If the stack may grow down to a level something is attained; otherwise it meets the heap. -/
structure Attains (image : Image) (s : State) (level : Int) (goal : Prop) : Prop where
  fits : s.heapEnd.toInt ≤ level → goal
  overruns : level < s.heapEnd.toInt → Overruns image s

def Arrives (image : Image) (s : State) (P : State → Prop) : Prop :=
  ∃ s', Leads image s s' ∧ s'.heapEnd = s.heapEnd ∧ P s'

namespace Attains

variable {image : Image} {s s' : State} {level level' : Int} {goal goal' : Prop}
  {P : State → Prop}

theorem imp (h : Attains image s level goal) (hgoal : goal → goal') :
    Attains image s level goal' :=
  ⟨fun hlevel => hgoal (h.fits hlevel), h.overruns⟩

/-- One piece of code after the other. -/
theorem bind (h : Attains image s level (Arrives image s P))
    (h' : ∀ s', Leads image s s' → s'.heapEnd = s.heapEnd → P s' →
      Attains image s' level' goal) :
    Attains image s (min level level') goal := by
  constructor
  · intro hlevel
    obtain ⟨s', hleads, hheap, hs'⟩ := h.fits (by omega)
    exact (h' s' hleads hheap hs').fits (by rw [hheap]; omega)
  · intro hlevel
    by_cases hfirst : s.heapEnd.toInt ≤ level
    · obtain ⟨s', hleads, hheap, hs'⟩ := h.fits hfirst
      exact hleads.overruns ((h' s' hleads hheap hs').overruns (by rw [hheap]; omega))
    · exact h.overruns (by omega)

theorem trans {P' : State → Prop} (h : Attains image s level (Arrives image s P))
    (h' : ∀ s', P s' → s'.heapEnd = s.heapEnd → Attains image s' level' (Arrives image s' P')) :
    Attains image s (min level level') (Arrives image s P') := by
  refine h.bind fun s' hleads hheap hs' => (h' s' hs' hheap).imp ?_
  rintro ⟨s'', hleads', hheap', hs''⟩
  exact ⟨s'', hleads.trans hleads', hheap'.trans hheap, hs''⟩

/-- One step that needs room. -/
theorem of_needsRoom (h : NeedsRoom s level (Exec.step image s) (.ok none s'))
    (hheap : s'.heapEnd = s.heapEnd) :
    Attains image s level (Arrives image s fun t => t = s' ∧ t.heapEnd.toInt ≤ level) where
  fits hroom := ⟨s', .of_step (h.fits hroom), hheap, rfl, hheap ▸ hroom⟩
  overruns hover := .of_overflows (h.overflows hover)

/-- A step that needs no room. -/
theorem step (hstep : Exec.step image s = .ok none s') (hheap : s'.heapEnd = s.heapEnd)
    (h : Attains image s' level goal) : Attains image s level goal :=
  ⟨fun hlevel => h.fits (by rwa [hheap]),
    fun hlevel => (Leads.of_step hstep).overruns (h.overruns (by rwa [hheap]))⟩

end Attains

end NestedFun
