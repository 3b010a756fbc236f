import NestedFun.Proofs.Expansion
import NestedFun.Proofs.FrameChain

namespace NestedFun

/-!
# Running programs stay in control

What holds of every state in which a program can be while it runs: the chain of frames, the operands
of the innermost routine, and the data that the program was loaded with. Every step preserves it.
-/

namespace Segments

def placedData (segments : Segments) : List (Int × Located Datum) :=
  segments.addressedData (Code.size segments.code)

def dataStop (segments : Segments) : Int := Code.size segments.code + Data.size segments.data

/-- A byte belongs to a variable at the top level. -/
def Reserves (segments : Segments) (i : Int) : Prop :=
  ∃ entry ∈ segments.placedData, ∃ size contents, entry.2.item = .reserve size contents ∧
    Memory.Block entry.1 size.toInt i

/-- The data that are no variables are as they were loaded. -/
def Intact (segments : Segments) (m : Memory) : Prop :=
  ∀ entry ∈ segments.placedData, ∀ v, entry.2.item = .word v → m.word entry.1 = v

end Segments

/-- Different data stand apart. -/
theorem addressed_apart {data : Data} (h : ∀ d ∈ data, d.item.Fits) {a : Int} :
    ∀ e ∈ addressed (fun d : Located Datum => d.item.size) a data,
      ∀ e' ∈ addressed (fun d : Located Datum => d.item.size) a data,
        e = e' ∨ e.1 + e.2.item.size ≤ e'.1 ∨ e'.1 + e'.2.item.size ≤ e.1 := by
  induction data generalizing a with
  | nil => exact nofun
  | cons d data ih =>
      have hdata := fun e he => h e (List.mem_cons_of_mem _ he)
      have hrest := le_of_mem_addressed hdata (a := a + d.item.size)
      intro e he e' he'
      rcases List.mem_cons.mp he with rfl | he
      · rcases List.mem_cons.mp he' with rfl | he'
        · exact .inl rfl
        · exact .inr (.inl (hrest e' he').1)
      · rcases List.mem_cons.mp he' with rfl | he'
        · exact .inr (.inr (hrest e he).1)
        · exact ih hdata e he e' he'

theorem Segments.Reserves.lt {segments : Segments} {i : Int} (h : segments.Reserves i)
    (hfits : ∀ d ∈ segments.data, d.item.Fits) : i < segments.dataStop := by
  obtain ⟨entry, hentry, size, contents, hitem, hblock⟩ := h
  have hbounds := le_of_mem_addressed hfits entry hentry
  rw [hitem] at hbounds
  simp only [Memory.Block, Datum.size] at *
  simp only [dataStop]
  omega

namespace Segments.Intact

variable {segments : Segments} {m m' : Memory}

theorem of_differs (h : segments.Intact m) (hfits : ∀ d ∈ segments.data, d.item.Fits)
    {changed : Int → Prop} (hdiffers : Memory.Differs changed m m')
    (hchanged : ∀ i, changed i → segments.Reserves i ∨ segments.dataStop ≤ i) :
    segments.Intact m' := by
  intro entry hentry v hv
  have hbounds := le_of_mem_addressed hfits entry hentry
  have hsize : entry.2.item.size = 4 := by rw [hv]; rfl
  have h₀ := Code.size_nonneg segments.code
  rw [hdiffers.word_eq (by omega) fun i hi => ?_]
  · exact h entry hentry v hv
  · intro hi'
    simp only [Memory.Block] at hi
    rcases hchanged i hi' with ⟨entry', hentry', size, contents, hitem, hblock⟩ | hstop
    · have hsize' : entry'.2.item.size = size.toInt := by rw [hitem]; rfl
      simp only [Memory.Block] at hblock
      rcases addressed_apart hfits entry hentry entry' hentry' with rfl | hapart
      · rw [hv] at hitem
        cases hitem
      · omega
    · simp only [dataStop] at hstop
      omega

/-- Words that were loaded behind one another stand behind one another. -/
theorem hasWords (h : segments.Intact m) {ws : List Word} (span : Span) {a : Int}
    (hws : ∀ entry ∈ addressed (fun d : Located Datum => d.item.size) a
      (Data.spanning span (ws.map .word)), entry ∈ segments.placedData) : m.HasWords a ws := by
  induction ws generalizing a with
  | nil => trivial
  | cons w ws ih =>
      exact ⟨h (a, ⟨span, .word w⟩) (hws _ List.mem_cons_self) w rfl,
        ih fun entry hentry => hws entry (List.mem_cons_of_mem _ hentry)⟩

end Segments.Intact

/-- Words behind a label stand among the data at the address of the label. -/
theorem Executable.words_addressed {T : Target} {program : Program} {segments : Segments}
    {image : Image} {s₀ : State} (h : Executable program T segments image s₀) {span : Span} {n : Nat}
    {words : List Word}
    (hwithin : Data.spanning span (.label (dataLabel n) :: words.map .word) <:+: segments.data) :
    ∃ x : Int, image.labels[dataLabel n]? = some (.ofInt x) ∧ Code.size segments.code ≤ x ∧
      x + 4 * words.length ≤ segments.dataStop ∧ ∀ m, segments.Intact m → m.HasWords x words := by
  obtain ⟨x, hx, hxle, hentries⟩ := h.addressed_within hwithin
  have hsizes : Data.size (Data.spanning span (.label (dataLabel n) :: words.map .word))
      = 4 * (words.length : Int) := by
    rw [← Data.size_words span]
    exact (Data.size_cons ⟨span, .label (dataLabel n)⟩ _).trans (zero_add _)
  have hstart := h.loaded.dataStart_eq
  refine ⟨x, h.loaded.data _ (hentries (x, ⟨span, .label (dataLabel n)⟩) List.mem_cons_self),
    by omega, by rw [← hsizes]; exact hxle, fun m hm => ?_⟩
  refine hm.hasWords span fun entry hentry => hentries entry (List.mem_cons_of_mem _ ?_)
  show entry ∈ addressed _ (x + 0) _
  rwa [add_zero]

/-- The encoding of a local variable stands among the data at the address of its label. -/
theorem Executable.encoding_addressed {T : Target} {program : Program} {segments : Segments}
    {image : Image} {s₀ : State} (h : Executable program T segments image s₀) {head : Variable} {n : Nat}
    (hstorage : T.fragments.storage[head.id]? = some (Data.spanning head.span
      (.label (dataLabel n) :: (Contents.ofVariable head).words.map .word))) :
    ∃ x : Int, image.labels[dataLabel n]? = some (.ofInt x) ∧ Code.size segments.code ≤ x ∧
      x + 4 * (Contents.ofVariable head).words.length ≤ segments.dataStop ∧
      ∀ m, segments.Intact m → m.HasWords x (Contents.ofVariable head).words :=
  h.words_addressed (h.storage_within hstorage)

def activeLabels : List Activation → List String
  | [] | [_] => []
  | A :: B :: older => A.frame.label :: activeLabels (B :: older)

section

variable (T : Target) (program : Program) (segments : Segments) (image : Image)

/-- A state in which the innermost of the active routines goes on with some code. Its operands, of
which something is known, end `base` bytes below its frame. -/
structure Running (s : State) (A : Activation) (older : List Activation) (base : Int)
    (σ : List Slot) (code : Code) : Prop where
  chain : Chain T program image s.memory (A :: older)
  suffix : code <:+ A.code
  pc_eq : s.pc = .ofInt (A.addressOf code)
  fp_eq : s.fp = .ofInt A.address
  stack : s.StackAt (A.address - base - 4 * σ.length)
  base_nonneg : 0 ≤ base
  base_le : A.path ≠ [] → 8 ≤ base
  slots : HasSlots image A.path (A :: older) s.memory (A.address - base - 4 * σ.length) σ
  callStack_eq : s.callStack = activeLabels (A :: older)
  intact : segments.Intact s.memory
  dataStart_eq : (s.memory.dataStart : Int) = Code.size segments.code
  data_le : segments.dataStop ≤ s.heapEnd.toInt

end

namespace Running

variable {T : Target} {program : Program} {segments : Segments} {image : Image} {s s' : State}
  {A : Activation} {older : List Activation} {base : Int} {σ : List Slot} {code rest : Code}
  {i : Located Instruction}

theorem address_le (h : Running T program segments image s A older base σ code) :
    A.address ≤ s.memory.size :=
  (h.chain.le_size A List.mem_cons_self).1

/-- The instruction that is carried out next. -/
theorem fetch (h : Running T program segments image s A older base σ (i :: rest))
    (hlabel : ∀ l, i.item ≠ .label l) : image.fetch? s.pc = some i.item := by
  have hholds := (h.chain.stands A List.mem_cons_self).holds_suffix h.suffix
  rw [Image.holds_cons] at hholds
  rw [h.pc_eq]
  exact hholds.1.fetch hlabel

/-- What the memory and the stack have to be like for the innermost routine to go on. -/
theorem next (h : Running T program segments image s A older base σ (i :: rest))
    (hfits : ∀ d ∈ segments.data, d.item.Fits) {base' : Int} {σ' : List Slot}
    {changed : Int → Prop} (hdiffers : Memory.Differs changed s.memory s'.memory)
    (hchanged : ∀ j, changed j → segments.Reserves j ∨
      (segments.dataStop ≤ j ∧ (j < A.address - base' ∨ ∃ X ∈ A :: older, X.Owns j)))
    (hpc : s'.pc = .ofInt (A.addressOf rest)) (hfp : s'.fp = s.fp)
    (hstack : s'.StackAt (A.address - base' - 4 * σ'.length)) (hbase : 0 ≤ base')
    (hbase' : A.path ≠ [] → 8 ≤ base')
    (hslots : HasSlots image A.path (A :: older) s'.memory (A.address - base' - 4 * σ'.length) σ')
    (hcallStack : s'.callStack = s.callStack) (hheap : s.heapEnd.toInt ≤ s'.heapEnd.toInt) :
    Running T program segments image s' A older base' σ' rest := by
  have hdata := h.data_le
  have hlow := hstack.heap_le
  have h₀ := hstack.nonneg
  refine ⟨?_, suffix_of_cons h.suffix, hpc, hfp.trans h.fp_eq, hstack, hbase, hbase', hslots,
    hcallStack.trans h.callStack_eq, ?_, ?_, by omega⟩
  · refine h.chain.of_differs hdiffers (A.address - base') (by omega) ?_ ?_
    · intro A' hA' hpath
      cases hA'
      have := hbase' hpath
      omega
    · intro j hj
      rcases hchanged j hj with hj | ⟨_, hj | hj⟩
      · exact .inl (by have := hj.lt hfits; omega)
      · exact .inl hj
      · exact .inr hj
  · refine h.intact.of_differs hfits hdiffers fun j hj => ?_
    rcases hchanged j hj with hj | ⟨hj, _⟩
    · exact .inl hj
    · exact .inr hj
  · rw [hdiffers.dataStart_eq]
    exact h.dataStart_eq

theorem advanced_pc (h : Running T program segments image s A older base σ (i :: rest)) :
    (s.advanced i.item).pc = .ofInt (A.addressOf rest) := by
  show s.pc + .ofInt i.item.size = _
  rw [h.pc_eq, Word.ofInt_add, ← A.addressOf_cons i rest]

/-- What is known about the operands that are left. -/
theorem slots_append {popped : List Slot}
    (h : Running T program segments image s A older base (popped ++ σ) code) :
    HasSlots image A.path (A :: older) s.memory (A.address - base - 4 * σ.length) σ := by
  have hslots := h.slots.append
  rwa [List.length_append, show A.address - base - 4 * ((popped.length + σ.length : Nat) : Int)
    + 4 * (popped.length : Int) = A.address - base - 4 * (σ.length : Int) by
      push_cast
      ring] at hslots

/-- Some operands are replaced by a word. -/
theorem pushed (popped : List Slot)
    (h : Running T program segments image s A older base (popped ++ σ) (i :: rest))
    (hfits : ∀ d ∈ segments.data, d.item.Fits) {slot : Slot} {v : Word} {a : Int}
    (ha : a = A.address - base - 4 * σ.length - 4) (hroom : s.heapEnd.toInt ≤ a)
    (hv : slot.Holds image A.path (A :: older) v) :
    Running T program segments image ((s.advanced i.item).pushed a v) A older base (slot :: σ)
      rest := by
  have hdata := h.data_le
  have hstart := h.stack.start_le
  have hsize := h.address_le
  have hbase := h.base_nonneg
  have hdiffers := Memory.Differs.store s.memory (a := a) v (by omega)
  have haddress : a = A.address - base - 4 * ((slot :: σ).length : Int) := by
    rw [ha, List.length_cons]
    push_cast
    ring
  refine h.next hfits hdiffers (fun j hj => .inr ?_) h.advanced_pc rfl ?_ hbase h.base_le ?_ rfl
    le_rfl
  · simp only [Memory.Block] at hj
    exact ⟨by omega, .inl (by omega)⟩
  · rw [← haddress]
    exact (h.stack.advanced i.item).pushed v hroom (by show a ≤ (s.memory.size : Int); omega)
  · rw [← haddress]
    refine ⟨?_, ?_⟩
    · show slot.Holds image A.path (A :: older) ((s.memory.store a v).word a)
      rw [Memory.word_store_same _ _ (by omega) (by omega)]
      exact hv
    · rw [show a + 4 = A.address - base - 4 * (σ.length : Int) by omega]
      refine h.slots_append.of_differs hdiffers (by omega) fun j hj => ?_
      simp only [Memory.Block] at *
      omega

/-- Some operands are dropped. -/
theorem dropped (popped : List Slot)
    (h : Running T program segments image s A older base (popped ++ σ) (i :: rest))
    (hfits : ∀ d ∈ segments.data, d.item.Fits) {base' a : Int}
    (ha : a = A.address - base' - 4 * σ.length) (hroom : s.heapEnd.toInt ≤ a) (hbase : 0 ≤ base')
    (hbase' : A.path ≠ [] → 8 ≤ base') (hsame : base' = base ∨ σ = []) :
    Running T program segments image ((s.advanced i.item).withTop a) A older base' σ rest := by
  have hsize := h.address_le
  refine h.next hfits (Memory.Differs.refl (fun _ => False) _) nofun h.advanced_pc rfl ?_ hbase hbase'
    ?_ rfl le_rfl
  · rw [← ha]
    exact (h.stack.advanced i.item).withTop hroom (by show a ≤ (s.memory.size : Int); omega)
  · rcases hsame with rfl | rfl
    · exact h.slots_append
    · trivial

/-- Control goes to other code of the routine, with no operands. -/
theorem jumped (h : Running T program segments image s A older base σ (i :: rest)) {code : Code}
    {a : Int} (ha : a = A.address - base) (hsuffix : code <:+ A.code) :
    Running T program segments image
      { (s.advanced i.item).withTop a with pc := .ofInt (A.addressOf code) } A older base [] code := by
  have hsize := h.address_le
  have hheap := h.stack.heap_le
  have hbase := h.base_nonneg
  refine ⟨h.chain, hsuffix, rfl, h.fp_eq, ⟨?_, h.stack.start_le, ?_, ?_, h.stack.size_lt⟩, hbase,
    h.base_le, trivial, h.callStack_eq, h.intact, h.dataStart_eq, h.data_le⟩
  · rw [ha]
    simp [State.withTop]
  · show s.heapEnd.toInt ≤ _
    simp only [List.length_nil]
    omega
  · show _ ≤ (s.memory.size : Int)
    simp only [List.length_nil]
    omega

end Running

/-! ## Steps -/

def State.AtDereference (s : State) (T : Target) (program : Program) (image : Image) : Prop :=
  ∃ head node operator operand c front rest frame a,
    (head, Expression.unary node operator operand) ∈ definitionsUses program ∧
      operator.kind = .dereference ∧ T.Generates operand c ∧
      T.fragments.functions[head.id]?
        = some (front ++ c ++ Code.spanning node.span [.load] ++ rest) ∧
      T.layout.frames[head.id]? = some frame ∧ image.labels[frame.label]? = some (.ofInt a) ∧
      s.pc = .ofInt (a + Code.size (front ++ c))

def State.AtTextOutput (s : State) (image : Image) : Prop :=
  ∃ frame, image.fetch? s.pc = some (.call frame) ∧
    s.memory.read s.sp = .ok SystemFunction.putstr.address

/-- A fault that can stop a program although it is in control. -/
def FaultKind.Orderly (T : Target) (program : Program) (image : Image) (s : State) :
    FaultKind → Prop
  | .stackOverflow _ _ | .outOfMemory _ | .divisionByZero | .console _ => True
  | .invalidAddress _ => s.AtDereference T program image ∨ s.AtTextOutput image
  | .invalidJump _ | .undefinedLabel _ | .duplicateLabel _ | .frameMismatch _ _ _ => False

section

variable (T : Target) (program : Program) (segments : Segments) (image : Image)

def InControl (s : State) : Prop :=
  ∃ A older base σ code, Running T program segments image s A older base σ code ∧
    Flows T program A.toRoutine base σ code

/-- A step from a state stays in control, ends the program, or is stopped by an orderly fault. -/
def Controlled (s : State) : EStateM.Result FaultKind State (Option Word) → Prop
  | .ok none s' => InControl T program segments image s'
  | .ok (some _) _ => True
  | .error kind _ => kind.Orderly T program image s

end

theorem Controlled.of_overflows {T : Target} {program : Program} {segments : Segments}
    {image : Image} {s : State} {r : EStateM.Result FaultKind State (Option Word)}
    (h : Overflows r) : Controlled T program segments image s r := by
  obtain ⟨a, b, s', rfl⟩ := h
  trivial

namespace Running

variable {T : Target} {program : Program} {segments : Segments} {image : Image} {s s₀ : State}
  {A : Activation} {older : List Activation} {base : Int} {σ : List Slot} {rest : Code}
  {i : Located Instruction} {span : Span} {slot : Slot} {v : Word}

theorem skip_label {l : String}
    (h : Running T program segments image s A older base σ (⟨span, .label l⟩ :: rest)) :
    Running T program segments image s A older base σ rest := by
  refine ⟨h.chain, suffix_of_cons h.suffix, ?_, h.fp_eq, h.stack, h.base_nonneg, h.base_le, h.slots,
    h.callStack_eq, h.intact, h.dataStart_eq, h.data_le⟩
  rw [h.pc_eq, A.addressOf_cons ⟨span, .label l⟩ rest]
  simp [Instruction.size]

/-- An instruction that pushes a word. -/
theorem step_pushing (h : Running T program segments image s A older base σ (i :: rest))
    (hfits : ∀ d ∈ segments.data, d.item.Fits) (hlabel : ∀ l, i.item ≠ .label l)
    (hperform : NeedsRoom (s.advanced i.item) (A.address - base - 4 * σ.length - 4)
      (Exec.perform image i.item (s.advanced i.item))
      (.ok none ((s.advanced i.item).pushed (A.address - base - 4 * σ.length - 4) v)))
    (hv : slot.Holds image A.path (A :: older) v)
    (hflows : Flows T program A.toRoutine base (slot :: σ) rest) :
    Controlled T program segments image s (Exec.step image s) := by
  rw [Exec.step_eq (h.fetch hlabel)]
  rcases hperform.cases with hover | ⟨hroom, hok⟩
  · exact .of_overflows hover
  · rw [hok]
    exact ⟨A, older, base, slot :: σ, rest, h.pushed [] hfits rfl hroom hv, hflows⟩

/-- An instruction that replaces operands by a word. -/
theorem step_replacing (popped : List Slot)
    (h : Running T program segments image s A older base (popped ++ σ) (i :: rest))
    (hfits : ∀ d ∈ segments.data, d.item.Fits) (hlabel : ∀ l, i.item ≠ .label l) {a : Int}
    (ha : a = A.address - base - 4 * σ.length - 4) (hroom : s.heapEnd.toInt ≤ a)
    (hperform : Exec.perform image i.item (s.advanced i.item)
      = .ok none ((s.advanced i.item).pushed a v))
    (hv : slot.Holds image A.path (A :: older) v)
    (hflows : Flows T program A.toRoutine base (slot :: σ) rest) :
    Controlled T program segments image s (Exec.step image s) := by
  rw [Exec.step_eq (h.fetch hlabel), hperform]
  exact ⟨A, older, base, slot :: σ, rest, h.pushed popped hfits ha hroom hv, hflows⟩

/-- The frames of all active routines stand above that of the innermost one. -/
theorem address_le_of_mem (h : Running T program segments image s A older base σ rest)
    {X : Activation} (hX : X ∈ A :: older) :
    A.address ≤ X.address ∧
      A.address - A.frame.localsSize ≤ X.address - X.frame.localsSize := by
  rcases List.mem_cons.mp hX with rfl | hX
  · exact ⟨le_rfl, le_rfl⟩
  · have h₁ := h.chain.apart X hX
    have h₂ := (h.chain.stands A List.mem_cons_self).parameters_nonneg
    have h₃ := (h.chain.stands A List.mem_cons_self).locals_nonneg
    have h₄ := (h.chain.stands X (List.mem_cons_of_mem _ hX)).locals_nonneg
    omega

/-- Where a place stands: in a variable at the top level or in a frame. -/
theorem place (h : Running T program segments image s A older A.frame.localsSize σ rest)
    (hexecutable : Executable program T segments image s₀) {place : Place}
    (hplace : place.Valid T A.path) {w : Word}
    (hw : place.toSlot.Holds image A.path (A :: older) w) :
    ∃ a : Int, w = .ofInt a ∧ s.memory.dataStart ≤ a ∧ a + 4 ≤ s.memory.size ∧
      ∀ j, Memory.Block a 4 j → segments.Reserves j ∨
        (segments.dataStop ≤ j ∧ ∃ X ∈ A :: older, X.Owns j) := by
  have hstart := h.stack.start_le
  have hheap := h.stack.heap_le
  have hstop := h.stack.le_size
  have hdata := h.data_le
  cases place with
  | slot hops offset =>
      obtain ⟨frame, hframe, hword⟩ := hplace
      obtain ⟨X, hX, rfl, hpath, hlink⟩ := h.chain.frameAt hframe
      obtain ⟨hsize, hparameters⟩ := h.chain.le_size X hX
      have hlocals := (h.chain.stands X hX).sizes hpath
      have hle := (h.address_le_of_mem hX).2
      have hparameters := hparameters hpath
      refine ⟨X.address + offset, by rw [← hlink]; exact hw, ?_, ?_, fun j hj => .inr ⟨?_, X, hX, ?_⟩⟩
      · rcases hword with hword | hword <;> omega
      · rcases hword with hword | hword <;> omega
      · simp only [Memory.Block] at hj
        rcases hword with hword | hword <;> omega
      · simp only [Memory.Block, Activation.Owns, Frame.HasWord] at *
        omega
  | global label =>
      obtain ⟨head, hwords, hsized, hstorage⟩ := hplace
      obtain ⟨a, ha, hle, hentries⟩ := hexecutable.storage_addressed hstorage
      have hlength := List.length_pos_of_ne_nil hwords
      have hlt := hsized.size_lt
      have hint : (Word.ofInt (4 * head.words.length)).toInt = 4 * head.words.length :=
        Word.toInt_ofInt (by omega) hlt
      have hlabel : image.labels[label]? = some (.ofInt a) :=
        hexecutable.loaded.data _ (hentries (a, ⟨head.span, .label label⟩) List.mem_cons_self)
      have hw' : image.labels[label]? = some w := hw
      have hreserve := hentries (a, ⟨head.span, .reserve (.ofInt (4 * head.words.length))
        (some (.ofVariable head))⟩) (by simp [Data.spanning, addressed, Datum.size])
      have hsize : Data.size (Data.spanning head.span [.label label,
          .reserve (.ofInt (4 * head.words.length)) (some (.ofVariable head))])
          = 4 * head.words.length := by
        simp [Data.size, Data.spanning, Datum.size, hint]
      rw [hsize] at hle
      have hstart₀ := hexecutable.loaded.dataStart_eq
      have hstart' := h.dataStart_eq
      simp only [Segments.dataStop] at hdata
      refine ⟨a, Option.some.inj (hw'.symm.trans hlabel), by omega, by omega, fun j hj => .inl ?_⟩
      refine ⟨_, hreserve, _, _, rfl, ?_⟩
      simp only [Memory.Block, hint] at *
      omega

theorem le_of_owns (h : Running T program segments image s A older base σ rest) {X : Activation}
    (hX : X ∈ A :: older) {j : Int} (hj : X.Owns j) : A.address - A.frame.localsSize ≤ j := by
  have hA := h.chain.stands A List.mem_cons_self
  have hlocals := hA.locals_nonneg
  have hparameters := hA.parameters_nonneg
  rcases List.mem_cons.mp hX with rfl | hX
  · simp only [Activation.Owns] at hj
    omega
  · have := h.chain.le_of_owns hX hj
    omega

/-- Variables are changed and operands dropped. -/
theorem stored (popped : List Slot)
    (h : Running T program segments image s A older A.frame.localsSize (popped ++ σ) (i :: rest))
    (hfits : ∀ d ∈ segments.data, d.item.Fits) {m' : Memory} {changed : Int → Prop}
    (hdiffers : Memory.Differs changed s.memory m')
    (hchanged : ∀ j, changed j → segments.Reserves j ∨
      (segments.dataStop ≤ j ∧ ∃ X ∈ A :: older, X.Owns j))
    {a : Int} (ha : a = A.address - A.frame.localsSize - 4 * σ.length) :
    Running T program segments image { s.advanced i.item with memory := m', sp := .ofInt a } A older
      A.frame.localsSize σ rest := by
  have hheap := h.stack.heap_le
  have hstart := h.stack.start_le
  have hdata := h.data_le
  have hsize := h.address_le
  have hlt := h.stack.size_lt
  have hbase := h.base_nonneg
  have hpopped : (σ.length : Int) ≤ ((popped ++ σ).length : Int) := by
    rw [List.length_append]
    omega
  have hdataStart := hdiffers.dataStart_eq
  have hsizeEq := hdiffers.size_eq
  refine h.next hfits hdiffers (fun j hj => ?_) h.advanced_pc rfl
    ⟨by rw [← ha], ?_, ?_, ?_, ?_⟩ hbase h.base_le ?_ rfl le_rfl
  · rcases hchanged j hj with hj | ⟨hstop, hj⟩
    · exact .inl hj
    · exact .inr ⟨hstop, .inr hj⟩
  · show (m'.dataStart : Int) ≤ s.heapEnd.toInt
    omega
  · show s.heapEnd.toInt ≤ _
    omega
  · show _ ≤ (m'.size : Int)
    omega
  · show m'.size < _
    omega
  · refine h.slots_append.of_differs hdiffers (by omega) fun j hj hj' => ?_
    simp only [Memory.Block] at hj
    rcases hchanged j hj' with hj' | ⟨_, X, hX, hj'⟩
    · have := hj'.lt hfits
      omega
    · have := h.le_of_owns hX hj'
      omega

/-- An assignment to a variable. -/
theorem step_save {place : Place} (h : Running T program segments image s A older
      A.frame.localsSize (place.toSlot :: .word :: σ) (⟨span, .save⟩ :: rest))
    (hexecutable : Executable program T segments image s₀) (hplace : place.Valid T A.path)
    (hflows : Flows T program A.toRoutine A.frame.localsSize σ rest) :
    Controlled T program segments image s (Exec.step image s) := by
  obtain ⟨a, ha, hstart, hstop, howns⟩ := h.place hexecutable hplace h.slots.1
  have hstack := h.stack
  have hsize := h.address_le
  have hbase := h.base_nonneg
  simp only [List.length_cons, Nat.cast_add, Nat.cast_one] at hstack ha
  have hperform : Exec.perform image .save (s.advanced .save) = _ :=
    Exec.perform_save image (hstack.advanced .save) (by show _ ≤ (s.memory.size : Int); omega) ha hstart hstop
  rw [Exec.step_eq (h.fetch nofun), hperform]
  refine ⟨A, older, _, σ, rest, ?_, hflows⟩
  exact h.stored [place.toSlot, .word] hexecutable.data_fits
    (.store _ _ (by omega)) howns (by omega)

/-- The setting up of a local variable. -/
theorem step_init {head : Variable} {n : Nat} {offset : Int}
    (h : Running T program segments image s A older A.frame.localsSize
      (.label (dataLabel n) :: .place 0 offset :: σ) (⟨span, .init⟩ :: rest))
    (hexecutable : Executable program T segments image s₀) (hdepth : 0 < A.path.length)
    (hstorage : T.fragments.storage[head.id]? = some (Data.spanning head.span
      (.label (dataLabel n) :: (Contents.ofVariable head).words.map .word)))
    (hlow : -A.frame.localsSize ≤ offset) (hhigh : offset + 4 * head.words.length ≤ -8)
    (hflows : Flows T program A.toRoutine A.frame.localsSize σ rest) :
    Controlled T program segments image s (Exec.step image s) := by
  obtain ⟨a, hlabel, ha, hle, hencoding⟩ := hexecutable.encoding_addressed hstorage
  obtain ⟨hname, hplace, _⟩ := h.slots
  have hname' : image.labels[dataLabel n]? = some _ := hname
  have hdestination : s.memory.word (A.address - A.frame.localsSize
      - 4 * ((Slot.label (dataLabel n) :: .place 0 offset :: σ).length : Int) + 4)
      = .ofInt (A.address + offset) := by
    rw [show A.address = linkTo (A :: older) (A.path.drop 0) from
      (linkTo_self A older (List.ne_nil_of_length_pos hdepth)).symm] at hplace ⊢
    exact hplace
  have hwords := hencoding s.memory h.intact
  have hstack := h.stack
  have hsize := h.address_le
  have hbase := h.base_nonneg
  have hdata := h.data_le
  have hstart := h.dataStart_eq
  simp only [Segments.dataStop] at hdata hle
  simp only [List.length_cons, Nat.cast_add, Nat.cast_one] at hstack hdestination hname'
  have hheap := hstack.heap_le
  have hperform : Exec.perform image .init (s.advanced .init) = _ :=
    Exec.perform_init (hstack.advanced .init) (by show _ ≤ (s.memory.size : Int); omega)
    (Option.some.inj (hname'.symm.trans hlabel)) hdestination hwords
    (by show (s.memory.dataStart : Int) ≤ _; omega) (by omega)
    (by show _ ≤ (s.memory.size : Int); omega)
  rw [Exec.step_eq (h.fetch nofun), hperform]
  refine ⟨A, older, _, σ, rest, ?_, hflows⟩
  refine h.stored [.label (dataLabel n), .place 0 offset] hexecutable.data_fits
    (Memory.differs_storeAll s.memory head.words (by omega)) (fun j hj => .inr ?_) (by omega)
  simp only [Memory.Block] at hj
  refine ⟨by simp only [Segments.dataStop]; omega, A, List.mem_cons_self, .inl ⟨by omega, by omega⟩⟩

/-- The state at the entry of a routine: the frame starts at the static link that was pushed for it,
with the header below. -/
theorem entered {R : Routine} {n hops : Nat} (h : Running T program segments image s A older
      A.frame.localsSize (.label R.frame.label :: .link hops :: (List.replicate n .word ++ σ))
      (⟨span, .call R.frame⟩ :: rest))
    (hfits : ∀ d ∈ segments.data, d.item.Fits) (hstands : R.Stands T program image)
    (hpath : R.path ≠ []) (htail : R.path.tail = A.path.drop hops)
    (hparameters : R.frame.parametersSize = 4 * n + 4)
    (hflows : Flows T program A.toRoutine A.frame.localsSize (.word :: σ) rest) {a : Int}
    (ha : a = A.address - A.frame.localsSize - 4 * σ.length - 4 * n - 4) {s' : State}
    (hdiffers : Memory.Differs (Memory.Block (a - 8) 8) s.memory s'.memory)
    (hframe : s'.memory.word (a - 4) = s.fp)
    (hreturn : s'.memory.word (a - 8) = .ofInt (A.addressOf rest)) (hpc : s'.pc = .ofInt R.start)
    (hfp : s'.fp = .ofInt a) (hsp : s'.sp = .ofInt (a - 8)) (hheapEnd : s'.heapEnd = s.heapEnd)
    (hroom : s.heapEnd.toInt ≤ a - 8) (hcallStack : s'.callStack = R.frame.label :: s.callStack) :
    Running T program segments image s' ⟨R, a⟩ (A :: older) 8 [] R.code := by
  have hsize := h.address_le
  have hbase := h.base_nonneg
  have hstart := h.stack.start_le
  have hlt := h.stack.size_lt
  have hdata := h.data_le
  have hdataStart := hdiffers.dataStart_eq
  have hsizeEq := hdiffers.size_eq
  obtain ⟨_, hlink, hslots⟩ := h.slots
  have hlength : A.address - A.frame.localsSize - 4 * ((Slot.label R.frame.label :: .link hops ::
      (List.replicate n .word ++ σ)).length : Int) = a - 4 := by
    simp only [List.length_cons, List.length_append, List.length_replicate]
    push_cast
    omega
  rw [hlength, show a - 4 + 4 = a by omega] at hlink hslots
  have hslots := hslots.append
  rw [List.length_replicate] at hslots
  -- only the header is written, which is below the frame of the caller
  have houter : Chain T program image s'.memory (A :: older) := by
    refine h.chain.of_differs hdiffers (A.address - A.frame.localsSize) (by omega) ?_ ?_
    · intro A' hA' hpath'
      cases hA'
      have := h.base_le hpath'
      omega
    · intro j hj
      simp only [Memory.Block] at hj
      exact .inl (by omega)
  have hslots' : HasSlots image A.path (A :: older) s'.memory (a + R.frame.parametersSize) σ := by
    rw [hparameters, show a + (4 * (n : Int) + 4) = a + 4 + 4 * n by omega]
    refine hslots.of_differs hdiffers (by omega) fun j hj => ?_
    simp only [Memory.Block] at *
    omega
  have hlink' : s'.memory.word a = .ofInt (linkTo (A :: older) R.path.tail) := by
    rw [htail, ← show s.memory.word a = _ from hlink]
    refine hdiffers.word_eq (by omega) fun j hj => ?_
    simp only [Memory.Block] at *
    omega
  have hchain : Chain T program image s'.memory (⟨R, a⟩ :: A :: older) :=
    .call houter hstands hpath (htail ▸ List.drop_suffix _ _) (suffix_of_cons h.suffix) hflows
      (by show a + R.frame.parametersSize + _ = _; omega) hslots' hlink' (hframe.trans h.fp_eq) hreturn
  refine ⟨hchain, List.suffix_refl _, ?_, hfp, ⟨?_, ?_, ?_, ?_, ?_⟩, by decide, fun _ => le_rfl,
    trivial, ?_, ?_, ?_, ?_⟩
  · rw [hpc, R.addressOf_self]
  · simp [hsp]
  · rw [hheapEnd]
    omega
  · rw [hheapEnd]
    show s.heapEnd.toInt ≤ a - 8 - 4 * ((0 : Nat) : Int)
    omega
  · show a - 8 - 4 * ((0 : Nat) : Int) ≤ _
    omega
  · omega
  · rw [hcallStack, h.callStack_eq]
    rfl
  · refine h.intact.of_differs hfits hdiffers fun j hj => .inr ?_
    simp only [Memory.Block] at hj
    omega
  · rw [hdataStart]
    exact h.dataStart_eq
  · rw [hheapEnd]
    exact hdata

/-- A call of a routine. -/
theorem step_enter {R : Routine} {n hops : Nat} (h : Running T program segments image s A older
      A.frame.localsSize (.label R.frame.label :: .link hops :: (List.replicate n .word ++ σ))
      (⟨span, .call R.frame⟩ :: rest))
    (hfits : ∀ d ∈ segments.data, d.item.Fits) (hstands : R.Stands T program image)
    (hpath : R.path ≠ []) (htail : R.path.tail = A.path.drop hops)
    (hparameters : R.frame.parametersSize = 4 * n + 4)
    (htarget : image.labels[R.frame.label]? = some (.ofInt R.start))
    (hcode : Flows T program R 8 [] R.code)
    (hflows : Flows T program A.toRoutine A.frame.localsSize (.word :: σ) rest) :
    Controlled T program segments image s (Exec.step image s) := by
  obtain ⟨a, ha⟩ : ∃ a : Int, a = A.address - A.frame.localsSize - 4 * σ.length - 4 * n - 4 :=
    ⟨_, rfl⟩
  have hstack := h.stack
  have hname := h.slots.1
  have hlength : A.address - A.frame.localsSize - 4 * ((Slot.label R.frame.label :: .link hops ::
      (List.replicate n .word ++ σ)).length : Int) = a - 4 := by
    simp only [List.length_cons, List.length_append, List.length_replicate]
    push_cast
    omega
  rw [hlength] at hstack hname
  have hword : s.memory.word (a - 4) = .ofInt R.start := Option.some.inj (hname.symm.trans htarget)
  have hsize := h.address_le
  have hbase := h.base_nonneg
  have hstart := hstack.start_le
  have hheap := hstack.heap_le
  have h₀ := hstands.start_nonneg
  -- addresses of system functions are negative, that of the routine is not
  have hsystem : SystemFunction.ofAddress? (s.memory.word (a - 4)) = none := by
    rw [hword]
    refine SystemFunction.ofAddress?_of_nonneg ?_
    rw [Word.toInt_ofInt (by omega) hstands.start_lt]
    exact h₀
  have hlive : (image.fetch? (s.memory.word (a - 4))).isSome := by
    rw [hword]
    exact hcode.live hstands.holds
  have hperform := Exec.perform_call (hstack.advanced (.call R.frame))
    (by show _ ≤ (s.memory.size : Int); omega) R.frame hsystem hlive
  rw [Exec.step_eq (h.fetch nofun)]
  rcases hperform.cases with hover | ⟨hroom, hok⟩
  · exact .of_overflows hover
  · replace hroom : s.heapEnd.toInt ≤ a - 4 - 4 := hroom
    rw [hok, show a - 4 + 4 = a by omega]
    have hstore := Memory.Differs.store s.memory (a := a - 4) s.fp (by omega)
    have hstore' := Memory.Differs.store (s.memory.store (a - 4) s.fp) (a := a - 8)
      (s.advanced (.call R.frame)).pc (by omega)
    have hdiffers : Memory.Differs (Memory.Block (a - 8) 8) s.memory
        ((s.memory.store (a - 4) s.fp).store (a - 8) (s.advanced (.call R.frame)).pc) := by
      refine (hstore.mono fun j hj => ?_).trans (hstore'.mono fun j hj => ?_)
      · simp only [Memory.Block] at *
        omega
      · simp only [Memory.Block] at *
        omega
    have hframe : ((s.memory.store (a - 4) s.fp).store (a - 8)
        (s.advanced (.call R.frame)).pc).word (a - 4) = s.fp := by
      rw [Memory.word_store_of_disjoint _ _ (by omega) (by omega) (by omega)]
      exact Memory.word_store_same _ _ (by omega) (by omega)
    have hreturn : ((s.memory.store (a - 4) s.fp).store (a - 8)
        (s.advanced (.call R.frame)).pc).word (a - 8) = .ofInt (A.addressOf rest) := by
      rw [Memory.word_store_same _ _ (by omega) (by rw [Memory.size_store]; omega)]
      exact h.advanced_pc
    have hentered : Running T program segments image ((s.advanced (.call R.frame)).called a
        (s.memory.word (a - 4)) R.frame.label) ⟨R, a⟩ (A :: older) 8 [] R.code := by
      refine h.entered hfits hstands hpath htail hparameters hflows ha ?_ ?_ ?_ ?_ ?_ ?_ ?_ ?_ ?_
      · exact hdiffers
      · exact hframe
      · exact hreturn
      · exact hword
      · simp only [State.called]
      · simp only [State.called]
      · simp only [State.called, State.advanced]
      · omega
      · simp only [State.called, State.advanced]
    exact ⟨⟨R, a⟩, A :: older, 8, [], R.code, hentered, hcode⟩

end Running

end NestedFun
