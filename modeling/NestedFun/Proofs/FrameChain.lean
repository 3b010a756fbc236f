import NestedFun.Proofs.Activations

namespace NestedFun

/-!
# The chain of frames

Seen from the innermost activation, every frame stands below the operands of its caller. Changes to
variables and below the stack leave the chain as it is, and following static links from a frame
leads to the most recent activations of the functions around it.
-/

structure Activation extends Routine where
  address : Int

def Activation.Owns (A : Activation) (i : Int) : Prop :=
  (A.address - A.frame.localsSize ≤ i ∧ i < A.address - 8) ∨
    (A.address + 4 ≤ i ∧ i < A.address + A.frame.parametersSize)

/-- The address that a static link to a function holds while the given routines are active, the
innermost first: the frame of its most recent activation. Outside all functions it is 0. -/
def linkTo (activations : List Activation) (path : List NodeId) : Int :=
  if path = [] then 0
  else ((activations.find? fun A => A.path = path).map Activation.address).getD 0

theorem linkTo_nil (activations : List Activation) : linkTo activations [] = 0 := rfl

theorem linkTo_self (A : Activation) (older : List Activation) (h : A.path ≠ []) :
    linkTo (A :: older) A.path = A.address := by
  simp [linkTo, h]

theorem linkTo_cons_of_ne {A : Activation} {path : List NodeId} (h : A.path ≠ path)
    (older : List Activation) : linkTo (A :: older) path = linkTo older path := by
  rw [linkTo, linkTo, List.find?_cons_of_neg (by simpa using h)]

def Slot.Holds (image : Image) (path : List NodeId) (activations : List Activation) :
    Slot → Word → Prop
  | .word, _ => True
  | .exactly v, w => w = v
  | .label l, w => image.labels[l]? = some w
  | .link hops, w => w = .ofInt (linkTo activations (path.drop hops))
  | .place hops offset, w => w = .ofInt (linkTo activations (path.drop hops) + offset)

def HasSlots (image : Image) (path : List NodeId) (activations : List Activation) (m : Memory) :
    Int → List Slot → Prop
  | _, [] => True
  | a, slot :: slots => slot.Holds image path activations (m.word a) ∧
      HasSlots image path activations m (a + 4) slots

theorem HasSlots.of_differs {image : Image} {path : List NodeId} {activations : List Activation}
    {changed : Int → Prop} {m m' : Memory} (hdiffers : Memory.Differs changed m m') {a : Int}
    {slots : List Slot} (h₀ : 0 ≤ a) (ha : ∀ i, Memory.Block a (4 * slots.length) i → ¬ changed i)
    (h : HasSlots image path activations m a slots) :
    HasSlots image path activations m' a slots := by
  induction slots generalizing a with
  | nil => trivial
  | cons slot slots ih =>
      simp only [List.length_cons, Nat.cast_add, Nat.cast_one] at ha
      refine ⟨?_, ih (by omega) (fun i hi => ha i ?_) h.2⟩
      · rw [hdiffers.word_eq h₀ fun i hi => ha i (by simp only [Memory.Block] at *; omega)]
        exact h.1
      · simp only [Memory.Block] at *
        omega

theorem HasSlots.append {image : Image} {path : List NodeId} {activations : List Activation}
    {m : Memory} {a : Int} {slots slots' : List Slot}
    (h : HasSlots image path activations m a (slots ++ slots')) :
    HasSlots image path activations m (a + 4 * slots.length) slots' := by
  induction slots generalizing a with
  | nil => simpa using h
  | cons slot slots ih =>
      have hrest := ih h.2
      rw [List.length_cons]
      rwa [show a + 4 + 4 * (slots.length : Int) = a + 4 * ((slots.length + 1 : Nat) : Int) by
        push_cast
        ring] at hrest

section

variable (T : Target) (program : Program) (image : Image)

/-- The frames of active routines. The entry has none and stands at the end of the memory; every
other routine was called by the one below it, to which it returns with one more operand. -/
inductive Chain (m : Memory) : List Activation → Prop
  | entry {R : Routine} (hstands : R.Stands T program image) (hpath : R.path = [])
      (hlocals : R.frame.localsSize = 0) : Chain m [⟨R, m.size⟩]
  | call {A B : Activation} {older : List Activation} {σ : List Slot} {code : Code}
      (outer : Chain m (B :: older)) (hstands : A.Stands T program image)
      (hpath : A.path ≠ []) (htail : A.path.tail <:+ B.path) (hsuffix : code <:+ B.code)
      (hflows : Flows T program B.toRoutine B.frame.localsSize (.word :: σ) code)
      (haddress : A.address + A.frame.parametersSize + 4 * σ.length
        = B.address - B.frame.localsSize)
      (hslots : HasSlots image B.path (B :: older) m (A.address + A.frame.parametersSize) σ)
      (hlink : m.word A.address = .ofInt (linkTo (B :: older) A.path.tail))
      (hframe : m.word (A.address - 4) = .ofInt B.address)
      (hreturn : m.word (A.address - 8) = .ofInt (B.addressOf code)) :
      Chain m (A :: B :: older)

end

namespace Routine.Stands

variable {T : Target} {program : Program} {image : Image} {R : Routine}

theorem sizes (h : R.Stands T program image) (hpath : R.path ≠ []) :
    8 ≤ R.frame.localsSize ∧ R.frame.localsSize < 2147483648 ∧ 4 ≤ R.frame.parametersSize := by
  obtain ⟨id, path, hcons⟩ := List.exists_cons_of_ne_nil hpath
  obtain ⟨_, h₁, h₂, h₃, _⟩ := h.function id (by rw [hcons]; rfl)
  exact ⟨h₁, h₂, h₃⟩

end Routine.Stands

namespace Chain

variable {T : Target} {program : Program} {image : Image} {m m' : Memory} {A : Activation}
  {older : List Activation}

theorem stands {activations : List Activation} (h : Chain T program image m activations) :
    ∀ X ∈ activations, X.Stands T program image := by
  induction h with
  | entry hstands hpath hlocals =>
      intro X hX
      cases List.mem_singleton.mp hX
      exact hstands
  | call outer hstands hpath htail hsuffix hflows haddress hslots hlink hframe hreturn ih =>
      intro X hX
      rcases List.mem_cons.mp hX with rfl | hX
      · exact hstands
      · exact ih X hX

/-- Frames stand one above the other. -/
theorem apart (h : Chain T program image m (A :: older)) : ∀ X ∈ older,
    A.address + A.frame.parametersSize ≤ X.address - X.frame.localsSize := by
  generalize hall : A :: older = activations at h
  induction h generalizing A older with
  | entry hstands hpath hlocals =>
      cases hall
      exact nofun
  | @call A' B older' σ code outer hstands hpath htail hsuffix hflows haddress hslots hlink hframe
      hreturn ih =>
      cases hall
      intro X hX
      rcases List.mem_cons.mp hX with rfl | hX
      · omega
      · have hrest := ih rfl X hX
        have hB := outer.stands B List.mem_cons_self
        have hlocals := hB.locals_nonneg
        have hparameters := hB.parameters_nonneg
        omega

/-- All frames stand in the memory, with the parameters. -/
theorem le_size {activations : List Activation} (h : Chain T program image m activations) :
    ∀ X ∈ activations, X.address ≤ m.size ∧
      (X.path ≠ [] → X.address + X.frame.parametersSize ≤ m.size) := by
  induction h with
  | entry hstands hpath hlocals =>
      intro X hX
      cases List.mem_singleton.mp hX
      exact ⟨le_rfl, fun hne => absurd hpath hne⟩
  | @call A B older σ code outer hstands hpath htail hsuffix hflows haddress hslots hlink hframe
      hreturn ih =>
      intro X hX
      rcases List.mem_cons.mp hX with rfl | hX
      · have hB := (ih B List.mem_cons_self).1
        have hlocals := (outer.stands B List.mem_cons_self).locals_nonneg
        have hsizes := hstands.sizes hpath
        exact ⟨by omega, fun _ => by omega⟩
      · exact ih X hX

/-- What older routines own stands above the parameters of the innermost one. -/
theorem le_of_owns (h : Chain T program image m (A :: older)) {X : Activation} (hX : X ∈ older)
    {i : Int} (hi : X.Owns i) : A.address + A.frame.parametersSize ≤ i := by
  have hapart := h.apart X hX
  have hlocals := (h.stands X (List.mem_cons_of_mem _ hX)).locals_nonneg
  simp only [Activation.Owns] at hi
  omega

/-- The chain does not change with variables, nor with what is below the innermost header. -/
theorem of_differs {activations : List Activation} (h : Chain T program image m activations)
    {changed : Int → Prop} (hdiffers : Memory.Differs changed m m') (low : Int) (h₀ : 0 ≤ low)
    (hlow : ∀ A, activations.head? = some A → A.path ≠ [] → low ≤ A.address - 8)
    (hchanged : ∀ i, changed i → i < low ∨ ∃ X ∈ activations, X.Owns i) :
    Chain T program image m' activations := by
  induction h generalizing low with
  | entry hstands hpath hlocals =>
      rw [← hdiffers.size_eq]
      exact .entry hstands hpath hlocals
  | @call A B older σ code outer hstands hpath htail hsuffix hflows haddress hslots hlink hframe
      hreturn ih =>
      have hall := Chain.call outer hstands hpath htail hsuffix hflows haddress hslots hlink hframe
        hreturn
      have hlow' := hlow A rfl hpath
      obtain ⟨hlocals, _, hparameters⟩ := hstands.sizes hpath
      have hB := outer.stands B List.mem_cons_self
      have hlocals' := hB.locals_nonneg
      -- what changes is below, or belongs to one of the two innermost activations or to an older one
      have hcases : ∀ i, changed i → i < low ∨ A.Owns i ∨ B.Owns i ∨ ∃ X ∈ older, X.Owns i := by
        intro i hi
        rcases hchanged i hi with hi | ⟨X, hX, hi⟩
        · exact .inl hi
        · rcases List.mem_cons.mp hX with rfl | hX
          · exact .inr (.inl hi)
          · rcases List.mem_cons.mp hX with rfl | hX
            · exact .inr (.inr (.inl hi))
            · exact .inr (.inr (.inr ⟨X, hX, hi⟩))
      have hown : ∀ i, A.Owns i → (i < A.address - 8 ∨ A.address + 4 ≤ i) ∧
          i < A.address + A.frame.parametersSize := by
        intro i hi
        simp only [Activation.Owns] at hi
        omega
      have hownB : ∀ i, B.Owns i → B.address - B.frame.localsSize ≤ i := by
        intro i hi
        simp only [Activation.Owns] at hi
        omega
      have holder : ∀ X ∈ older, ∀ i, X.Owns i → B.address - B.frame.localsSize ≤ i := by
        intro X hX i hi
        have hle := outer.le_of_owns hX hi
        have := hB.parameters_nonneg
        omega
      -- between the header of one frame and the locals of the next, only parameters change
      have hkept : ∀ i, A.address - 8 ≤ i → i < B.address - B.frame.localsSize →
          i < A.address + 4 ∨ A.address + A.frame.parametersSize ≤ i → ¬ changed i := by
        intro i h₁ h₂ h₃ hi
        rcases hcases i hi with hi | hi | hi | ⟨X, hX, hi⟩
        · omega
        · have := hown i hi
          omega
        · have := hownB i hi
          omega
        · have := holder X hX i hi
          omega
      have hword : ∀ a, A.address - 8 ≤ a → a ≤ A.address → m'.word a = m.word a := by
        intro a h₁ h₂
        refine hdiffers.word_eq (by omega) fun i hi => ?_
        simp only [Memory.Block] at hi
        exact hkept i (by omega) (by omega) (.inl (by omega))
      have houter : Chain T program image m' (B :: older) := by
        refine ih (B.address - B.frame.localsSize) (by omega) ?_ ?_
        · intro B' hB' hpath'
          cases hB'
          have := (hB.sizes hpath').1
          show B.address - B.frame.localsSize ≤ _
          omega
        · intro i hi
          rcases hcases i hi with hi | hi | hi | ⟨X, hX, hi⟩
          · exact .inl (by omega)
          · exact .inl (by have := hown i hi; omega)
          · exact .inr ⟨B, List.mem_cons_self, hi⟩
          · exact .inr ⟨X, List.mem_cons_of_mem _ hX, hi⟩
      refine .call houter hstands hpath htail hsuffix hflows haddress ?_
        ((hword _ (by omega) le_rfl).trans hlink) ((hword _ (by omega) (by omega)).trans hframe)
        ((hword _ le_rfl (by omega)).trans hreturn)
      refine hslots.of_differs hdiffers (by omega) fun i hi => ?_
      simp only [Memory.Block] at hi
      exact hkept i (by omega) (by omega) (.inr (by omega))

/-- Static links lead to the most recent activations of the functions further out. -/
theorem linkTo_spec {activations : List Activation} (h : Chain T program image m activations)
    (hA : activations.head? = some A) {id : NodeId} {path : List NodeId}
    (hpath : id :: path <:+ A.path) :
    ∃ X ∈ activations, X.path = id :: path ∧ linkTo activations (id :: path) = X.address ∧
      m.word X.address = .ofInt (linkTo activations path) := by
  induction h generalizing A with
  | entry hstands hempty hlocals =>
      cases hA
      rw [hempty] at hpath
      exact absurd hpath (by simp)
  | @call A' B older σ code outer hstands hne htail hsuffix hflows haddress hslots hlink hframe
      hreturn ih =>
      obtain rfl : A' = A := Option.some.inj hA
      have hne' : A'.path ≠ path := by
        intro heq
        have := hpath.length_le
        rw [heq, List.length_cons] at this
        omega
      rw [linkTo_cons_of_ne hne']
      by_cases heq : A'.path = id :: path
      · refine ⟨A', List.mem_cons_self, heq, heq ▸ linkTo_self A' _ hne, ?_⟩
        rw [hlink, heq]
        rfl
      · rw [linkTo_cons_of_ne heq]
        have hnext : id :: path <:+ B.path := by
          refine List.IsSuffix.trans ?_ htail
          obtain ⟨id', rest, hcons⟩ := List.exists_cons_of_ne_nil hne
          rw [hcons] at hpath heq ⊢
          rcases List.suffix_cons_iff.mp hpath with h | h
          · exact absurd h.symm heq
          · exact h
        obtain ⟨X, hX, hrest⟩ := ih rfl hnext
        exact ⟨X, List.mem_cons_of_mem _ hX, hrest⟩

/-- The frame that so many static links lead to. -/
theorem frameAt (h : Chain T program image m (A :: older)) {hops : Nat} {frame : Frame}
    (hframe : T.layout.frameAt A.path hops = some frame) :
    ∃ X ∈ A :: older, X.frame = frame ∧ X.path ≠ [] ∧
      linkTo (A :: older) (A.path.drop hops) = X.address := by
  obtain ⟨id, hid, hframe⟩ := Option.bind_eq_some_iff.mp hframe
  obtain ⟨hlt, hget⟩ := List.getElem?_eq_some_iff.mp hid
  have hdrop : A.path.drop hops = id :: A.path.drop (hops + 1) := by
    rw [List.drop_eq_getElem_cons hlt, hget]
  obtain ⟨X, hX, hpath, hlink, _⟩ := h.linkTo_spec rfl (hdrop ▸ List.drop_suffix _ _)
  refine ⟨X, hX, ?_, by simp [hpath], by rw [hdrop, hlink]⟩
  have hfunction := ((h.stands X hX).function id (by rw [hpath]; rfl)).1
  exact Option.some.inj (hfunction.symm.trans hframe)

end Chain

end NestedFun
