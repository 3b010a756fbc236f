import NestedFun.Proofs.RecordPlacement
import NestedFun.Proofs.StackNeed

namespace NestedFun

/-!
# Code that computes

Code computes what an evaluation says: where the evaluation has a result the machine arrives behind
the code, with other operands on the stack and the records changed in the same way; where it stops
the machine stops. How much stack that takes depends on the evaluation alone, not on the size of the
memory.
-/

def Image.Live (image : Image) (a : Int) : Prop := (image.fetch? (.ofInt a)).isSome

/-- Code stands at an address, so there is an instruction if there is one behind it. -/
theorem Image.Holds.live {image : Image} {a : Int} {code : Code} (h : image.Holds a code)
    (hlive : image.Live (a + code.size)) : image.Live a := by
  induction code generalizing a with
  | nil => simpa using hlive
  | cons i code ih =>
      rw [Image.holds_cons] at h
      obtain ⟨span, i⟩ := i
      cases i with
      | label l =>
          simp only [Instruction.size, Nat.cast_zero, add_zero] at h
          refine ih h.2 ?_
          simpa [Instruction.size] using hlive
      | name l => exact Option.isSome_of_eq_some h.1.1
      | _ => exact Option.isSome_of_eq_some h.1

section

variable (T : Target) (program : Program) (segments : Segments)

/-- A state at an address, with operands on the stack of the current frame and records in memory. -/
structure Ready (image : Image) (sites : List Site) (anchor used limit : Int) (pc : Int)
    (σ : List Word) (store : Store) (s : State) : Prop where
  pc_eq : s.pc = .ofInt pc
  fp_eq : 0 < Env.depth (sites.map Prod.fst) → s.fp = .ofInt (anchor + 8)
  stack : s.StackAt (anchor - limit - 4 * σ.length)
  sited : Sited T segments image s.memory sites anchor used limit
  holds : RecordsHold T image s.memory sites store.records
  words : s.memory.HasWords (anchor - limit - 4 * σ.length) σ
  intact : segments.Intact s.memory
  dataStart_eq : (s.memory.dataStart : Int) = Code.size segments.code
  data_le : segments.dataStop ≤ s.heapEnd.toInt
  input_eq : s.input = store.input
  output_eq : s.output = store.output

/-- From one state to the other only variables and the free part of the stack have changed. -/
structure Kept (image : Image) (sites : List Site) (top : Int) (s s' : State) : Prop where
  fp_eq : s'.fp = s.fp
  callStack_eq : s'.callStack = s.callStack
  differs : Memory.Differs (Changes T segments image sites top) s.memory s'.memory

/-- Code stands in the memory of the program, with the surroundings of an environment. -/
structure Installed (env : Env) (code : Code) (image : Image) (sites : List Site) (pc : Int) :
    Prop where
  executable : ∃ s₀, Executable program T segments image s₀
  env_eq : sites.map Prod.fst = env
  holds : image.Holds pc code
  live : image.Live (pc + code.size)

structure Poised (env : Env) (used limit : Int) (σ : List Word) (code : Code) (store : Store)
    (image : Image) (sites : List Site) (anchor pc : Int) (s : State) : Prop
    extends Installed T program segments env code image sites pc where
  ready : Ready T segments image sites anchor used limit pc σ store s

end

/-- A result that describes what a program does: one thing holds of the output if the evaluation is
not finished, the other holds if it is. -/
def Describes {α : Type} (result : EStateM.Result Halt Store α) (unfinished : Output → Prop)
    (finished : Prop) : Prop :=
  match result with
  | .error .unfinished store => unfinished store.output
  | .error .undescribed _ => False
  | _ => finished

theorem Describes.imp {α : Type} {result : EStateM.Result Halt Store α}
    {unfinished unfinished' : Output → Prop} {finished finished' : Prop}
    (h : Describes result unfinished finished)
    (hunfinished : ∀ output, unfinished output → unfinished' output)
    (hfinished : finished → finished') : Describes result unfinished' finished' := by
  rcases result with _ | ⟨_ | _ | _ | _, _⟩
  · exact hfinished h
  · exact hfinished h
  · exact hfinished h
  · exact hunfinished _ h
  · exact h

def Achieves {α : Type} (image : Image) (stack : List String) (s : State)
    (arrived : α → Store → State → Prop) : EStateM.Result Halt Store α → Prop
  | .ok v store => Arrives image s (arrived v store)
  | .error (.exited code) store => ∃ s', Ends image s (.exited code) s' ∧ s'.output = store.output
  | .error (.faulted kind) store =>
    ∃ s', Ends image s (.faulted ⟨kind, stack ++ s.callStack⟩) s' ∧ s'.output = store.output
  | .error .unfinished _ | .error .undescribed _ => False

/-- What the machine does from a later state it does from an earlier one. -/
theorem Achieves.of_leads {α : Type} {image : Image} {stack stack' : List String} {s s' : State}
    {arrived arrived' : α → Store → State → Prop} {result : EStateM.Result Halt Store α}
    (h : Achieves image stack' s' arrived' result) (hleads : Leads image s s')
    (hheap : s'.heapEnd = s.heapEnd) (hstack : stack' ++ s'.callStack = stack ++ s.callStack)
    (harrived : ∀ v store s'', result = .ok v store → arrived' v store s'' → arrived v store s'') :
    Achieves image stack s arrived result := by
  rcases result with ⟨v, store⟩ | ⟨_ | _ | _ | _, store⟩
  · obtain ⟨s'', hleads', hheap', hs''⟩ := h
    exact ⟨s'', hleads.trans hleads', hheap'.trans hheap, harrived _ _ _ rfl hs''⟩
  · obtain ⟨s'', hends, houtput⟩ := h
    exact ⟨s'', hleads.ends hends, houtput⟩
  · obtain ⟨s'', hends, houtput⟩ := h
    rw [hstack] at hends
    exact ⟨s'', hleads.ends hends, houtput⟩
  · exact h
  · exact h

section

variable (T : Target) (program : Program) (segments : Segments) {α : Type} (n : Nat) (env : Env)
  (used limit : Int)

/-- From a store on, code computes what an evaluation says; if the evaluation is not finished it gets
to the same output and takes at least `n` steps. -/
def ComputesFrom (σ : List Word) (code : Code) (f : Eval α) (σ' : α → List Word) (store : Store) :
    Prop :=
  Describes (f store)
    (fun output => ∀ image sites anchor pc s,
      Poised T program segments env used limit σ code store image sites anchor pc s →
      Overruns image s ∨ Lasts image n output s)
    ((∀ v store', f store = .ok v store' → RecordsFit env store'.records) ∧
      ∃ need stack, ∀ image sites anchor pc s,
        Poised T program segments env used limit σ code store image sites anchor pc s →
        Attains image s (anchor - limit - need) (Achieves image stack s (fun v store' s' =>
          Ready T segments image sites anchor used limit (pc + code.size) (σ' v) store' s' ∧
          Kept T segments image sites (anchor - used) s s') (f store)))

def Computes (σ : List Word) (code : Code) (f : Eval α) (σ' : α → List Word) : Prop :=
  ∀ store, RecordsFit env store.records →
    ComputesFrom T program segments n env used limit σ code f σ' store

/-- From a store on, code computes what an evaluation says between two of its positions. -/
def ComputesBetween (code : Code) (i j : Int) (σ : List Word) (f : Eval α) (σ' : α → List Word)
    (store : Store) : Prop :=
  Describes (f store)
    (fun output => ∀ image sites anchor pc s, Installed T program segments env code image sites pc →
      Ready T segments image sites anchor used limit (pc + i) σ store s →
      Overruns image s ∨ Lasts image n output s)
    ((∀ v store', f store = .ok v store' → RecordsFit env store'.records) ∧
      ∃ need stack, ∀ image sites anchor pc s,
        Installed T program segments env code image sites pc →
        Ready T segments image sites anchor used limit (pc + i) σ store s →
        Attains image s (anchor - limit - need) (Achieves image stack s (fun v store' s' =>
          Ready T segments image sites anchor used limit (pc + j) (σ' v) store' s' ∧
          Kept T segments image sites (anchor - used) s s') (f store)))

end

namespace Kept

variable {T : Target} {segments : Segments} {image : Image} {sites : List Site} {top : Int}
  {s s' s'' : State}

theorem trans (h : Kept T segments image sites top s s') (h' : Kept T segments image sites top s' s'') :
    Kept T segments image sites top s s'' :=
  ⟨h'.fp_eq.trans h.fp_eq, h'.callStack_eq.trans h.callStack_eq, h.differs.trans h'.differs⟩

end Kept

def Code.HasAt (code : Code) (i : Int) (piece : Code) : Prop :=
  ∃ front back, code = front ++ (piece ++ back) ∧ i = front.size

namespace Code.HasAt

variable {code c c' : Code} {i : Int}

theorem self (code : Code) : code.HasAt 0 code := ⟨[], [], by simp, rfl⟩

theorem append (h : code.HasAt i (c ++ c')) : code.HasAt i c ∧ code.HasAt (i + c.size) c' := by
  obtain ⟨front, back, rfl, rfl⟩ := h
  exact ⟨⟨front, c' ++ back, by simp, rfl⟩, ⟨front ++ c, back, by simp, (Code.size_append _ _).symm⟩⟩

end Code.HasAt

/-- A piece of code that is installed. -/
theorem Installed.at_position {T : Target} {program : Program} {segments : Segments} {env : Env}
    {code c : Code} {i : Int} {image : Image} {sites : List Site} {pc : Int}
    (h : Installed T program segments env code image sites pc) (hpiece : code.HasAt i c) :
    Installed T program segments env c image sites (pc + i) := by
  obtain ⟨front, back, rfl, rfl⟩ := hpiece
  obtain ⟨hexecutable, henv, hcode, hlive⟩ := h
  rw [Image.holds_append, Image.holds_append] at hcode
  rw [Code.size_append, Code.size_append, ← add_assoc, ← add_assoc] at hlive
  exact ⟨hexecutable, henv, hcode.2.1, hcode.2.2.live hlive⟩

section

variable {T : Target} {program : Program} {segments : Segments} {α β : Type} {n : Nat} {env : Env}
  {used limit i j k : Int} {σ : List Word} {c₁ c₂ code c : Code} {f : Eval α}
  {g : α → Eval β} {σ₁ : α → List Word} {σ₂ : β → List Word} {store : Store}

theorem ComputesBetween.bind
    (hf : ComputesBetween T program segments n env used limit code i j σ f σ₁ store)
    (hg : ∀ v store', f store = .ok v store' → RecordsFit env store'.records →
      ComputesBetween T program segments n env used limit code j k (σ₁ v) (g v) σ₂ store') :
    ComputesBetween T program segments n env used limit code i k σ (f >>= g) σ₂ store := by
  rw [ComputesBetween] at hf ⊢
  rw [Eval.bind_eq]
  cases hresult : f store with
  | ok v store' =>
      rw [hresult] at hf
      obtain ⟨hfits, need, stack, hneed⟩ := hf
      refine (hg v store' hresult (hfits v store' rfl)).imp (fun _ hlasts image sites anchor pc s hs hready => ?_) ?_
      · have hattains := hneed image sites anchor pc s hs hready
        by_cases hroom : s.heapEnd.toInt ≤ anchor - limit - need
        · obtain ⟨s', hleads, hheap, hready', hkept⟩ := hattains.fits hroom
          rcases hlasts image sites anchor pc s' hs hready' with hover | hlasts
          · exact .inl (hleads.overruns hover)
          · exact .inr (hleads.lasts hlasts)
        · exact .inl (hattains.overruns (by omega))
      · rintro ⟨hfits', need', stack', hneed'⟩
        refine ⟨hfits', max need need', stack', fun image sites anchor pc s hs hready => ?_⟩
        have hattains := hneed image sites anchor pc s hs hready
        rw [show anchor - limit - max need need'
          = min (anchor - limit - need) (anchor - limit - need') by omega]
        refine hattains.bind fun s' hleads hheap hs' => ?_
        refine (hneed' image sites anchor pc s' hs hs'.1).imp fun hachieves => ?_
        exact hachieves.of_leads hleads hheap (by rw [hs'.2.callStack_eq])
          fun w store'' s'' _ hs'' => ⟨hs''.1, hs'.2.trans hs''.2⟩
  | error e store' =>
      rw [hresult] at hf
      cases e with
      | exited code =>
          obtain ⟨-, need, stack, hneed⟩ := hf
          exact ⟨nofun, need, stack, hneed⟩
      | faulted kind =>
          obtain ⟨-, need, stack, hneed⟩ := hf
          exact ⟨nofun, need, stack, hneed⟩
      | unfinished => exact hf
      | undescribed => exact hf

/-- What a piece of code computes is computed between its ends in the whole. -/
theorem ComputesFrom.between
    (h : ComputesFrom T program segments n env used limit σ c f σ₁ store) (hcode : code.HasAt i c) :
    ComputesBetween T program segments n env used limit code i (i + c.size) σ f σ₁ store := by
  refine h.imp (fun _ hlasts image sites anchor pc s hs hready => ?_) ?_
  · exact hlasts image sites anchor _ s ⟨hs.at_position hcode, hready⟩
  · rintro ⟨hfits, need, stack, hneed⟩
    refine ⟨hfits, need, stack, fun image sites anchor pc s hs hready => ?_⟩
    rw [← add_assoc]
    exact hneed image sites anchor _ s ⟨hs.at_position hcode, hready⟩

theorem ComputesBetween.computesFrom
    (h : ComputesBetween T program segments n env used limit code 0 code.size σ f σ₁ store) :
    ComputesFrom T program segments n env used limit σ code f σ₁ store := by
  refine h.imp (fun _ hlasts image sites anchor pc s hs => ?_) ?_
  · exact hlasts image sites anchor pc s hs.toInstalled (by rw [add_zero]; exact hs.ready)
  · rintro ⟨hfits, need, stack, hneed⟩
    refine ⟨hfits, need, stack, fun image sites anchor pc s hs => ?_⟩
    exact hneed image sites anchor pc s hs.toInstalled (by rw [add_zero]; exact hs.ready)

/-- One piece of code after the other, of which the second relies on what the first evaluates to. -/
theorem Computes.bind_of {P : α → Prop} (hP : ∀ store v store', f store = .ok v store' → P v)
    (hf : Computes T program segments n env used limit σ c₁ f σ₁)
    (hg : ∀ v, P v → Computes T program segments n env used limit (σ₁ v) c₂ (g v) σ₂) :
    Computes T program segments n env used limit σ (c₁ ++ c₂) (f >>= g) σ₂ := by
  intro store hfits
  obtain ⟨hfirst, hsecond⟩ := Code.HasAt.append (Code.HasAt.self (c₁ ++ c₂))
  refine (((hf store hfits).between hfirst).bind fun v store' hv hfits' => ?_).computesFrom
  rw [Code.size_append, ← zero_add (c₁.size + c₂.size), ← add_assoc]
  exact (hg v (hP store v store' hv) store' hfits').between hsecond

theorem Computes.bind (hf : Computes T program segments n env used limit σ c₁ f σ₁)
    (hg : ∀ v, Computes T program segments n env used limit (σ₁ v) c₂ (g v) σ₂) :
    Computes T program segments n env used limit σ (c₁ ++ c₂) (f >>= g) σ₂ :=
  .bind_of (P := fun _ => True) (fun _ _ _ _ => trivial) hf fun v _ => hg v

end

/-- Code that enters other surroundings, computes something there and comes back. On the way there
the machine takes a step if a function is called. -/
theorem ComputesFrom.of_inner {T : Target} {program : Program} {segments : Segments} {m n : Nat}
    {env env' : Env} {used limit used' limit' : Int} {σ τ : List Word}
    {code code' : Code} {f g : Eval Word} {σ' τ' : Word → List Word} {store store₁ : Store}
    {post : Store → Store} (extra : List String) (need₁ need₂ δ : Int)
    (hf : f store = match g store₁ with
      | .ok w store' => .ok w (post store')
      | .error halt store' => .error halt store')
    (hinner : ComputesFrom T program segments m env' used' limit' τ code' g τ' store₁)
    (hsteps : n ≤ m ∨ n ≤ m + 1 ∧ extra ≠ [])
    (hpost : ∀ store', RecordsFit env' store'.records → RecordsFit env (post store').records)
    (henter : ∀ image sites anchor pc s,
      Poised T program segments env used limit σ code store image sites anchor pc s →
      ∃ sites' anchor' pc', anchor' - limit' = anchor - limit - δ ∧
        Attains image s (anchor - limit - need₁) (Arrives image s fun s₁ =>
          Poised T program segments env' used' limit' τ code' store₁ image sites' anchor' pc' s₁ ∧
          s₁.callStack = extra ++ s.callStack ∧
          ∀ w store' s₂, RecordsFit env' store'.records →
            Ready T segments image sites' anchor' used' limit' (pc' + code'.size) (τ' w) store' s₂ →
            Kept T segments image sites' (anchor' - used') s₁ s₂ →
            Attains image s₂ (anchor - limit - need₂) (Arrives image s₂ fun s₃ =>
              Ready T segments image sites anchor used limit (pc + code.size) (σ' w) (post store') s₃ ∧
              Kept T segments image sites (anchor - used) s s₃))) :
    ComputesFrom T program segments n env used limit σ code f σ' store := by
  rw [ComputesFrom] at hinner ⊢
  cases hresult : g store₁ with
  | ok w store' =>
      rw [hresult] at hinner hf
      rw [hf]
      obtain ⟨hfits, need, stack, hneed⟩ := hinner
      refine ⟨fun w' store'' heq => ?_, max need₁ (max (δ + need) need₂), [],
        fun image sites anchor pc s hs => ?_⟩
      · cases heq
        exact hpost store' (hfits w store' rfl)
      · obtain ⟨sites', anchor', pc', hlevel, hattains⟩ := henter image sites anchor pc s hs
        rw [show anchor - limit - max need₁ (max (δ + need) need₂)
          = min (anchor - limit - need₁) (min (anchor' - limit' - need) (anchor - limit - need₂))
            by omega]
        refine hattains.bind fun s₁ hleads₁ hheap₁ hs₁ => ?_
        refine (hneed image sites' anchor' pc' s₁ hs₁.1).bind fun s₂ hleads₂ hheap₂ hs₂ => ?_
        refine (hs₁.2.2 w store' s₂ (hfits w store' rfl) hs₂.1 hs₂.2).imp ?_
        rintro ⟨s₃, hleads₃, hheap₃, hs₃⟩
        exact ⟨s₃, hleads₁.trans (hleads₂.trans hleads₃), hheap₃.trans (hheap₂.trans hheap₁), hs₃⟩
  | error halt store' =>
      rw [hresult] at hinner hf
      rw [hf]
      -- where the inner code stops, the outer code stops
      have hstops : ∀ {arrived : Word → Store → State → Prop} {image sites anchor pc s need stack},
          Poised T program segments env used limit σ code store image sites anchor pc s →
          (∀ image sites anchor pc s,
            Poised T program segments env' used' limit' τ code' store₁ image sites anchor pc s →
            Attains image s (anchor - limit' - need) (Achieves image stack s (fun v store'' s' =>
              Ready T segments image sites anchor used' limit' (pc + code'.size) (τ' v) store'' s' ∧
              Kept T segments image sites (anchor - used') s s') (.error halt store'))) →
          Attains image s (anchor - limit - max need₁ (δ + need))
            (Achieves image (stack ++ extra) s arrived (.error halt store')) := by
        intro arrived image sites anchor pc s need stack hs hneed
        obtain ⟨sites', anchor', pc', hlevel, hattains⟩ := henter image sites anchor pc s hs
        rw [show anchor - limit - max need₁ (δ + need)
          = min (anchor - limit - need₁) (anchor' - limit' - need) by omega]
        refine hattains.bind fun s₁ hleads hheap hs₁ => ?_
        refine (hneed image sites' anchor' pc' s₁ hs₁.1).imp fun hachieves => ?_
        exact hachieves.of_leads hleads hheap (by rw [hs₁.2.1, List.append_assoc]) nofun
      cases halt with
      | exited exitCode =>
          obtain ⟨-, need, stack, hneed⟩ := hinner
          exact ⟨nofun, _, _, fun image sites anchor pc s hs => hstops hs hneed⟩
      | faulted kind =>
          obtain ⟨-, need, stack, hneed⟩ := hinner
          exact ⟨nofun, _, _, fun image sites anchor pc s hs => hstops hs hneed⟩
      | unfinished =>
          intro image sites anchor pc s hs
          obtain ⟨sites', anchor', pc', hlevel, hattains⟩ := henter image sites anchor pc s hs
          by_cases hroom : s.heapEnd.toInt ≤ anchor - limit - need₁
          · obtain ⟨s₁, hleads, hheap, hs₁⟩ := hattains.fits hroom
            rcases hinner image sites' anchor' pc' s₁ hs₁.1 with hover | hlasts
            · exact .inl (hleads.overruns hover)
            · right
              rcases hsteps with hle | ⟨hle, hextra⟩
              · exact (hleads.lasts hlasts).mono hle
              · refine (hleads.lasts_succ ?_ hlasts).mono hle
                rintro rfl
                exact hextra (List.self_eq_append_left.mp hs₁.2.1)
          · exact .inl (hattains.overruns (by omega))
      | undescribed => exact hinner

end NestedFun
