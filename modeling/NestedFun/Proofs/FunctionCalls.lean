import NestedFun.Proofs.SystemEvaluation

namespace NestedFun

/-!
# Calls of functions

A call puts the frame of a function on top of the arguments and makes room for the locals; a return
takes all of that away and leaves the result. In between the function has changed only variables and
what stands below the operands of its caller.
-/

section

variable {T : Target} {program : Program} {segments : Segments} {image : Image}
  {sites front tail : List Site} {p : Site} {anchor used limit pc a b : Int} {σ values : List Word}
  {store : Store} {s s' : State} {span : Span} {head : FunctionHead} {frame : Frame} {code : Code}

/-- The state in which the statements of a function begin, seen from the state of its call. -/
structure Entered (T : Target) (segments : Segments) (image : Image) (sites : List Site)
    (frame : Frame) (a start stop : Int) (store : Store) (s s' : State) : Prop where
  ready : Ready T segments image sites (a - 8) 0 (frame.localsSize - 8) start [] store s'
  callStack_eq : s'.callStack = frame.label :: s.callStack
  differs : Memory.Differs (fun i => segments.dataStop ≤ i ∧ i < a) s.memory s'.memory
  frame_eq : s'.memory.word (a - 4) = s.fp
  return_eq : s'.memory.word (a - 8) = .ofInt stop

/-- The step that calls a function needs room for the header. -/
theorem Ready.step_call
    (h : Ready T segments image sites anchor used limit pc (.ofInt b :: σ) store s)
    (hcode : image.Holds pc [⟨span, .call frame⟩]) (h₀ : 0 ≤ b) (hlt : b < 2147483648)
    (hlive : image.Live b) (ha : a = anchor - limit - 4 * σ.length) :
    NeedsRoom s (a - 8) (Exec.step image s)
      (.ok none ((s.advanced (.call frame)).called a (.ofInt b) frame.label)) := by
  obtain ⟨h₀', hdata, hheapLe, hused, hle, hsize⟩ := h.room
  have hstack := h.stack
  have hword := h.words.1
  have htop : anchor - limit - 4 * ((Word.ofInt b :: σ).length : Int) = a - 4 := by
    rw [ha, List.length_cons]
    push_cast
    ring
  rw [htop] at hstack hword hheapLe
  have hsystem : SystemFunction.ofAddress? ((s.advanced (.call frame)).memory.word (a - 4)) = none := by
    show SystemFunction.ofAddress? (s.memory.word (a - 4)) = none
    rw [hword]
    apply SystemFunction.ofAddress?_of_nonneg
    rwa [Word.toInt_ofInt (by omega) hlt]
  have hlive' : (image.fetch? ((s.advanced (.call frame)).memory.word (a - 4))).isSome := by
    show (image.fetch? (s.memory.word (a - 4))).isSome
    rw [hword]
    exact hlive
  have hperform := Exec.perform_call (hstack.advanced (.call frame))
    (by show _ ≤ (s.memory.size : Int); omega) frame hsystem hlive'
  rw [show (s.advanced (.call frame)).memory.word (a - 4) = _ from hword,
    show a - 4 + 4 = a by omega, show a - 4 - 4 = a - 8 by omega] at hperform
  exact Exec.step_needsRoom (h.fetch hcode nofun) hperform

/-- The state in which the statements of a function begin. -/
theorem Ready.entered
    (h : Ready T segments image (front ++ p :: tail) anchor used limit pc
      (.ofInt b :: .ofInt p.2 :: (values ++ σ)) store s)
    (hfits : ∀ d ∈ segments.data, d.item.Fits)
    (hframe : T.layout.frames[head.id]? = some frame) (hlocals : 8 ≤ frame.localsSize)
    (hsize : frame.parametersSize = 4 * head.parameters.length + 4) {depth : Nat}
    (hparameters : ParametersPlaced T.layout depth 4 head.parameters)
    (hlength : head.parameters.length = values.length) {inner outer : List Record}
    (hrecords : store.records = inner ++ outer) (hfront : front.length = inner.length)
    (ha : a = anchor - limit - 4 * (values ++ σ).length - 4) {start stop : Int}
    (hdiffers : Memory.Differs (fun i => segments.dataStop ≤ i ∧ i < a) s.memory s'.memory)
    (hcaller : s'.memory.word (a - 4) = s.fp) (hreturn : s'.memory.word (a - 8) = .ofInt stop)
    (hpc : s'.pc = .ofInt start) (hfp : s'.fp = .ofInt a)
    (hsp : s'.sp = .ofInt (a - frame.localsSize)) (hheap : s'.heapEnd = s.heapEnd)
    (hroom : s.heapEnd.toInt ≤ a - frame.localsSize)
    (hcallStack : s'.callStack = frame.label :: s.callStack) (hinput : s'.input = s.input)
    (houtput : s'.output = s.output) :
    Entered T segments image ((.parameters head, a) :: p :: tail) frame a start stop
      { store with records := .ofParameters head.parameters values :: outer } s s' := by
  obtain ⟨h₀, hdata, hheapLe, hused, hle, hstop⟩ := h.room
  obtain ⟨-, hlink, hvalues⟩ := h.words
  rw [Memory.hasWords_append] at hvalues
  obtain ⟨anchor', used', limit', houter, hanchor⟩ := h.sited.suffix
  have hbounds := houter.bounds
  have htop : anchor - limit - 4 * ((Word.ofInt b :: .ofInt p.2 :: (values ++ σ)).length : Int)
      = a - 4 := by
    rw [ha, List.length_cons, List.length_cons]
    push_cast
    ring
  rw [htop, show a - 4 + 4 = a by omega] at hlink hvalues
  rw [List.length_append] at ha
  push_cast at ha
  -- what stands at and above the link is as it was
  have hlink' : s'.memory.word a = .ofInt p.2 := by
    rw [← hlink]
    refine hdiffers.word_eq (by omega) fun i hi hi' => ?_
    simp only [Memory.Block] at hi
    omega
  have hvalues' : s'.memory.HasWords (a + 4) values := by
    refine Memory.HasWords.of_differs hdiffers (by omega) (fun i hi hi' => ?_) hvalues.1
    simp only [Memory.Block] at hi
    omega
  have hholds : RecordsHold T image s.memory (p :: tail) outer := by
    have hdrop := List.forall₂_drop front.length h.holds
    rw [List.drop_left, hrecords, hfront, List.drop_left] at hdrop
    exact hdrop
  have houter' : Sited T segments image s'.memory (p :: tail) anchor' used' limit' :=
    houter.of_differs (hdiffers.mono fun i hi => .inl ⟨hi.1, by omega⟩)
  have hregion : (Region.parameters head).Sited T image a (a + 4) (a + frame.parametersSize) := by
    rw [hsize, show a + (4 * (head.parameters.length : Int) + 4)
      = a + 4 + 4 * head.parameters.length by ring]
    exact sited_parameters hparameters
  refine ⟨?_, hcallStack, hdiffers, hcaller, hreturn⟩
  constructor
  · exact hpc
  · intro _
    rw [hfp, sub_add_cancel]
  · refine ⟨?_, ?_, ?_, ?_, ?_⟩
    · rw [hsp]
      congr 1
      simp only [List.length_nil]
      omega
    · rw [hdiffers.dataStart_eq, hheap]
      exact h.stack.start_le
    · rw [hheap]
      simp only [List.length_nil]
      omega
    · rw [hdiffers.size_eq]
      simp only [List.length_nil]
      omega
    · rw [hdiffers.size_eq]
      exact h.stack.size_lt
  · exact .parameters houter' hframe hlocals (by omega) hregion hlink' (by omega) (by omega)
  · refine .cons (Record.holds_ofParameters hlength hparameters hvalues') ?_
    refine RecordsHold.of_differs hholds hdiffers (fun i hi => houter.nonneg hi) fun i hi hi' => ?_
    rcases houter.hasByte_bounds hi with hi | hi <;> omega
  · trivial
  · exact h.intact.of_differs hfits hdiffers fun i hi => .inr hi.1
  · rw [hdiffers.dataStart_eq]
    exact h.dataStart_eq
  · rw [hheap]
    exact h.data_le
  · exact hinput.trans h.input_eq
  · exact houtput.trans h.output_eq

/-- Room for the locals is made at the entry of a function. -/
theorem State.StackAt.reserves (h : s.StackAt (a - 8)) (hpc : s.pc = .ofInt b)
    (hfunction : image.Holds b (functionCode head frame code)) (hlocals : 8 ≤ frame.localsSize)
    (hlt : frame.localsSize < 2147483648) :
    Attains image s (min (a - 12) (a - frame.localsSize)) (Arrives image s fun t =>
      s.SameFrame t ∧ t.memory = s.memory.store (a - 12) (.ofInt (headerSize - frame.localsSize)) ∧
        t.pc = .ofInt (b + Code.size (Code.spanning head.span [.label frame.label,
          .push (.ofInt (headerSize - frame.localsSize)), .popn])) ∧
        t.sp = .ofInt (a - frame.localsSize) ∧ s.heapEnd.toInt ≤ a - 12 ∧
        t.heapEnd.toInt ≤ a - frame.localsSize) := by
  have hheader : headerSize = 8 := rfl
  rw [hheader]
  rw [functionCode, hheader, Image.holds_append, Image.holds_append] at hfunction
  obtain ⟨v, hv⟩ : ∃ v : Word, v = .ofInt (8 - frame.localsSize) := ⟨_, rfl⟩
  have hint : v.toInt = 8 - frame.localsSize := by
    rw [hv]
    exact Word.toInt_ofInt (by omega) (by omega)
  have hcode := hfunction.1.1
  rw [← hv] at hcode ⊢
  simp only [Code.spanning, List.map_cons, List.map_nil, Image.holds_cons] at hcode
  obtain ⟨-, hpush, hpopn, -⟩ := hcode
  have hlabel : b + ((Instruction.label frame.label).size : Int) = b := add_zero b
  rw [hlabel] at hpush hpopn
  have h₀ := h.nonneg
  have hstart := h.start_le
  have hle := h.le_size
  have hpushed := Exec.step_needsRoom (hpc ▸ hpush) (Exec.perform_push image (h.advanced _) v)
  rw [show a - 8 - 4 = a - 12 by omega] at hpushed
  refine (Attains.of_needsRoom hpushed rfl).trans ?_
  rintro t ⟨ht, hroom⟩ hheap
  rw [hheap] at hroom
  have hmemory : t.memory = s.memory.store (a - 12) v := ht ▸ rfl
  have hsame : s.SameFrame t := ht ▸ ⟨rfl, rfl, rfl, rfl, rfl⟩
  have hsize : t.memory.size = s.memory.size := by rw [hmemory, Memory.size_store]
  have hpc' : t.pc = .ofInt (b + (Instruction.push v).size) := by
    rw [ht]
    show s.pc + .ofInt (Instruction.push v).size = _
    rw [hpc, Word.ofInt_add]
  have hstack : t.StackAt (a - 12) := by
    rw [ht]
    exact (h.advanced _).pushed v hroom
      (by show _ ≤ (s.memory.size : Int); omega)
  have hword : (t.memory.word (a - 12)).toInt = 8 - frame.localsSize := by
    rw [hmemory, Memory.word_store_same _ _ (by omega) (by omega)]
    exact hint
  have hmoved := Exec.step_needsRoom (hpc' ▸ hpopn) (Exec.perform_popn image (hstack.advanced .popn)
    (by show _ ≤ (t.memory.size : Int); omega) hword (by show _ ≤ (t.memory.size : Int); omega)
    (by omega))
  rw [show a - 12 + 4 + (8 - frame.localsSize) = a - frame.localsSize by omega] at hmoved
  refine (Attains.of_needsRoom hmoved rfl).imp ?_
  rintro ⟨t', hleads, hheap', ht', hroom'⟩
  refine ⟨t', hleads, hheap', hsame.trans (ht' ▸ ⟨rfl, rfl, rfl, rfl, rfl⟩), ?_, ?_, ?_, hroom, hroom'⟩
  · rw [ht', ← hmemory]
    rfl
  · rw [ht']
    show t.pc + .ofInt (Instruction.popn).size = _
    rw [hpc', Word.ofInt_add]
    congr 1
    rw [add_assoc]
    rfl
  · rw [ht']
    rfl

/-- A function is entered. -/
theorem Ready.enters
    (h : Ready T segments image (front ++ p :: tail) anchor used limit pc
      (.ofInt b :: .ofInt p.2 :: (values ++ σ)) store s)
    (hfits : ∀ d ∈ segments.data, d.item.Fits)
    (hcode : image.Holds pc [⟨span, .call frame⟩]) (h₀ : 0 ≤ b) (hlt : b < 2147483648)
    (hfunction : image.Holds b (functionCode head frame code))
    (hframe : T.layout.frames[head.id]? = some frame) (hlocals : 8 ≤ frame.localsSize)
    {depth : Nat} (hfitsFrame : frame.Fits depth head) {depth' : Nat}
    (hparameters : ParametersPlaced T.layout depth' 4 head.parameters)
    (hlength : head.parameters.length = values.length) {inner outer : List Record}
    (hrecords : store.records = inner ++ outer) (hfront : front.length = inner.length)
    (ha : a = anchor - limit - 4 * (values ++ σ).length - 4) :
    Attains image s (min (a - 8) (min (a - 12) (a - frame.localsSize)))
      (Arrives image s (Entered T segments image ((.parameters head, a) :: p :: tail) frame a
        (b + Code.size (Code.spanning head.span [.label frame.label,
          .push (.ofInt (headerSize - frame.localsSize)), .popn]))
        (pc + Code.size [⟨span, .call frame⟩])
        { store with records := .ofParameters head.parameters values :: outer } s)) := by
  have hlive : image.Live b := by
    have hcode' := hfunction
    rw [functionCode, Image.holds_append, Image.holds_append] at hcode'
    simp only [Code.spanning, List.map_cons, List.map_nil, Image.holds_cons] at hcode'
    obtain ⟨⟨⟨-, hpush, -⟩, -⟩, -⟩ := hcode'
    rw [show b + ((Instruction.label frame.label).size : Int) = b from add_zero b] at hpush
    exact Option.isSome_of_eq_some hpush
  have hcall := h.step_call hcode h₀ hlt hlive
    (a := a) (by rw [ha, List.length_cons]; push_cast; ring)
  obtain ⟨h₀', hdata, hheapLe, hused, hle, hsize⟩ := h.room
  have hlower : a ≤ s.memory.size := by omega
  have hstart := h.stack.start_le
  refine (Attains.of_needsRoom hcall (by simp only [State.called, State.advanced])).trans ?_
  rintro t ⟨ht, hroom⟩ hheap
  rw [hheap] at hroom
  have hmemory : t.memory = (s.memory.store (a - 4) s.fp).store (a - 8)
      (.ofInt (pc + (Instruction.call frame).size)) := by
    rw [ht, ← h.advanced_pc (.call frame)]
    simp only [State.called, State.advanced]
  have hstored := Memory.Differs.store s.memory (a := a - 4) s.fp (by omega)
  have hdiffers : Memory.Differs (Memory.Block (a - 8) 8) s.memory t.memory := by
    rw [hmemory]
    refine (hstored.mono fun i hi => ?_).trans ((Memory.Differs.store _ _ (by omega)).mono fun i hi => ?_)
    · simp only [Memory.Block] at *
      omega
    · simp only [Memory.Block] at *
      omega
  have hsize' := hdiffers.size_eq
  have hstack : t.StackAt (a - 8) := by
    refine ⟨by rw [ht, State.called], ?_, ?_, ?_, ?_⟩
    · rw [hdiffers.dataStart_eq, hheap]
      exact hstart
    · rwa [hheap]
    · omega
    · rw [hsize']
      exact h.stack.size_lt
  refine (hstack.reserves (by rw [ht, State.called]) hfunction hlocals hfitsFrame.localsSize_lt).imp ?_
  rintro ⟨t', hleads, hheap', hsame, hmemory', hpc, hsp, hroom', hroom''⟩
  rw [hheap] at hroom'
  have hlast := Memory.Differs.store t.memory (a := a - 12) (.ofInt (headerSize - frame.localsSize))
    (by omega)
  rw [← hmemory'] at hlast
  refine ⟨t', hleads, hheap', ?_⟩
  refine h.entered hfits hframe hlocals hfitsFrame.parametersSize_eq hparameters hlength hrecords hfront
    ha ?_ ?_ ?_ hpc (hsame.fp_eq.trans (by rw [ht, State.called])) hsp (hheap'.trans hheap)
    (by rwa [← hheap, ← hheap']) (hsame.callStack_eq.trans (by rw [ht, State.called, State.advanced]))
    (hsame.input_eq.trans (by rw [ht, State.called, State.advanced]))
    (hsame.output_eq.trans (by rw [ht, State.called, State.advanced]))
  · refine (hdiffers.mono fun i hi => ?_).trans (hlast.mono fun i hi => ?_)
    · simp only [Memory.Block] at hi
      omega
    · simp only [Memory.Block] at hi
      omega
  · rw [hlast.word_eq (by omega) fun i hi => by simp only [Memory.Block] at *; omega, hmemory,
      Memory.word_store_of_disjoint _ _ (by omega) (by omega) (by omega)]
    exact Memory.word_store_same _ _ (by omega) (by omega)
  · rw [hlast.word_eq (by omega) fun i hi => by simp only [Memory.Block] at *; omega, hmemory,
      Memory.word_store_same _ _ (by omega) (by rw [Memory.size_store]; omega), Code.size_cons,
      Code.size_nil, add_zero]

/-- What a function returns with is as it was when the function began. -/
theorem Entered.header_kept {start stop : Int} {store₁ : Store} {s₁ s₂ : State}
    (he : Entered T segments image ((.parameters head, a) :: p :: tail) frame a start stop store₁ s s₁)
    (hkept : Kept T segments image ((.parameters head, a) :: p :: tail) (a - 8) s₁ s₂)
    (ha : 8 ≤ a) : s₂.memory.word (a - 4) = s.fp ∧ s₂.memory.word (a - 8) = .ofInt stop := by
  have hword : ∀ c, a - 8 ≤ c → c ≤ a → s₂.memory.word c = s₁.memory.word c := by
    intro c hlow hhigh
    refine hkept.differs.word_eq (by omega) fun i hi => ?_
    simp only [Memory.Block] at hi
    have hheader := he.ready.sited.not_changes_header (i := i) (by omega) (by omega)
    rwa [sub_zero] at hheader
  exact ⟨(hword _ (by omega) (by omega)).trans he.frame_eq,
    (hword _ (by omega) (by omega)).trans he.return_eq⟩

/-- A function changes only variables and what stands below the operands of its caller. -/
theorem Entered.differs_kept {start stop top : Int} {store₁ : Store} {s₁ s₂ : State}
    (he : Entered T segments image ((.parameters head, a) :: p :: tail) frame a start stop store₁ s s₁)
    (hkept : Kept T segments image ((.parameters head, a) :: p :: tail) (a - 8) s₁ s₂)
    (hregion : (Region.parameters head).Sited T image a (a + 4) (a + frame.parametersSize))
    (hlow : segments.dataStop ≤ a) (hsize : 4 ≤ frame.parametersSize)
    (htop : a + frame.parametersSize ≤ top) :
    Memory.Differs (Changes T segments image (p :: tail) top) s.memory s₂.memory :=
  (he.differs.mono fun i hi => .inl ⟨hi.1, by omega⟩).trans (hkept.differs.mono fun i hi =>
    Sited.changes_of_parameters hregion hlow (by omega) htop hi)

/-- The state behind the return from a function. -/
theorem Entered.left {start stop : Int} {store₁ store₂ : Store} {s₁ s₂ s₃ : State} {w : Word}
    {pcEnd : Int} {τ : List Word}
    (he : Entered T segments image ((.parameters head, a) :: p :: tail) frame a start stop store₁ s s₁)
    (h : Ready T segments image (front ++ p :: tail) anchor used limit pc
      (.ofInt b :: .ofInt p.2 :: (values ++ σ)) store s)
    (hfits : ∀ d ∈ segments.data, d.item.Fits)
    (hready : Ready T segments image ((.parameters head, a) :: p :: tail) (a - 8) 0
      (frame.localsSize - 8) pcEnd τ store₂ s₂)
    (hkept : Kept T segments image ((.parameters head, a) :: p :: tail) (a - 8) s₁ s₂)
    (hregion : (Region.parameters head).Sited T image a (a + 4) (a + frame.parametersSize))
    (hsize : frame.parametersSize = 4 * values.length + 4) {inner outer : List Record}
    (hrecords : store.records = inner ++ outer) (hfront : front.length = inner.length)
    (ha : a = anchor - limit - 4 * (values ++ σ).length - 4)
    (hmemory : s₃.memory = s₂.memory.store (a + frame.parametersSize - 4) w)
    (hpc : s₃.pc = s₂.memory.word (a - 8)) (hfp : s₃.fp = s₂.memory.word (a - 4))
    (hsp : s₃.sp = .ofInt (a + frame.parametersSize - 4)) (hheap : s₃.heapEnd = s₂.heapEnd)
    (hcallStack : s₃.callStack = s₂.callStack.tail) (hinput : s₃.input = s₂.input)
    (houtput : s₃.output = s₂.output) :
    Ready T segments image (front ++ p :: tail) anchor used limit stop (w :: σ)
        { store₂ with records := inner ++ store₂.records.tail } s₃ ∧
      Kept T segments image (front ++ p :: tail) (anchor - used) s s₃ := by
  obtain ⟨h₀, hdata, hheapLe, hused, hle, hstop⟩ := h.room
  obtain ⟨-, hdata₂, hheapLe₂, -, hlocals, hstop₂⟩ := hready.room
  obtain ⟨-, -, hvalues⟩ := h.words
  rw [Memory.hasWords_append] at hvalues
  obtain ⟨anchor', used', limit', houter, hanchor⟩ := h.sited.suffix
  have hbounds := houter.bounds
  have htop : anchor - limit - 4 * ((Word.ofInt b :: .ofInt p.2 :: (values ++ σ)).length : Int)
      = a - 4 := by
    rw [ha, List.length_cons, List.length_cons]
    push_cast
    ring
  rw [htop] at hvalues
  rw [List.length_append] at ha
  push_cast at ha
  obtain ⟨top, htop⟩ : ∃ top : Int, top = anchor - limit - 4 * σ.length := ⟨_, rfl⟩
  have hlast := Memory.Differs.store s₂.memory (a := a + frame.parametersSize - 4) w (by omega)
  rw [← hmemory] at hlast
  -- everything that has changed is below the operands that are left, or belongs to variables
  have hinside : Memory.Differs (Changes T segments image (p :: tail) top) s.memory s₂.memory :=
    he.differs_kept hkept hregion (by omega) (by omega) (by omega)
  have hdiffers : Memory.Differs (Changes T segments image (p :: tail) top) s.memory s₃.memory :=
    hinside.trans (hlast.mono fun i hi => by
      simp only [Memory.Block] at hi
      exact .inl ⟨by omega, by omega⟩)
  have hchanges : ∀ i, Changes T segments image (p :: tail) top i →
      Changes T segments image (front ++ p :: tail) (anchor - used) i := by
    rintro i (hi | hi)
    · exact .inl ⟨hi.1, by omega⟩
    · exact .inr (hasByte_append.mpr (.inr hi))
  obtain ⟨hcaller, hreturn⟩ := he.header_kept hkept (by omega)
  rw [← hfp] at hcaller
  rw [← hpc] at hreturn
  have hhigh : ∀ i, HasByte T image (p :: tail) i → top ≤ i → anchor - limit ≤ i := by
    intro i hi hle
    rcases houter.hasByte_bounds hi with hi | hi <;> omega
  have hcons : anchor - limit - 4 * ((w :: σ).length : Int) = a + frame.parametersSize - 4 := by
    rw [List.length_cons]
    push_cast
    omega
  refine ⟨?_, hcaller, ?_, hdiffers.mono hchanges⟩
  · constructor
    · exact hreturn
    · exact fun hdepth => hcaller.trans (h.fp_eq hdepth)
    · rw [hcons]
      refine ⟨hsp, ?_, ?_, ?_, ?_⟩
      · rw [hlast.dataStart_eq, hheap]
        exact hready.stack.start_le
      · rw [hheap]
        omega
      · rw [hdiffers.size_eq]
        omega
      · rw [hdiffers.size_eq]
        exact h.stack.size_lt
    · exact h.sited.of_differs (hdiffers.mono hchanges)
    · have hholds := h.holds
      rw [hrecords] at hholds
      refine hholds.append_of_differs h.sited hfront (by omega) hdiffers ?_
      have hrest : RecordsHold T image s₂.memory (p :: tail) store₂.records.tail := by
        have := List.forall₂_drop 1 hready.holds
        rwa [List.drop_one, List.drop_one, List.tail_cons] at this
      refine RecordsHold.of_differs hrest hlast (fun i hi => houter.nonneg hi) fun i hi hi' => ?_
      simp only [Memory.Block] at hi'
      rcases houter.hasByte_bounds hi with hi | hi <;> omega
    · rw [hcons]
      refine ⟨?_, ?_⟩
      · rw [hmemory]
        refine Memory.word_store_same _ _ (by omega) ?_
        rw [hinside.size_eq]
        omega
      · rw [show a + frame.parametersSize - 4 + 4 = top by omega]
        have hσ := hvalues.2
        rw [show a - 4 + 4 + 4 + 4 * (values.length : Int) = top by omega] at hσ
        refine Memory.HasWords.of_differs hdiffers (by omega) (fun i hi hi' => ?_) hσ
        simp only [Memory.Block] at hi
        rcases hi' with hi' | hi'
        · omega
        · have := hhigh i hi' hi.1
          omega
    · refine h.intact.of_differs hfits hdiffers fun i hi => ?_
      rcases hi with hi | hi
      · exact .inr hi.1
      · rcases houter.hasByte_bounds hi with hi | hi
        · exact .inl hi.1
        · exact .inr (by omega)
    · rw [hlast.dataStart_eq]
      exact hready.dataStart_eq
    · rw [hheap]
      exact hready.data_le
    · exact hinput.trans hready.input_eq
    · exact houtput.trans hready.output_eq
  · rw [hcallStack, hkept.callStack_eq, he.callStack_eq, List.tail_cons]

/-- A function is left. -/
theorem Entered.leaves {start stop : Int} {store₁ store₂ : Store} {s₁ s₂ : State} {w : Word}
    {pcEnd : Int}
    (he : Entered T segments image ((.parameters head, a) :: p :: tail) frame a start stop store₁ s s₁)
    (h : Ready T segments image (front ++ p :: tail) anchor used limit pc
      (.ofInt b :: .ofInt p.2 :: (values ++ σ)) store s)
    (hfits : ∀ d ∈ segments.data, d.item.Fits)
    (hready : Ready T segments image ((.parameters head, a) :: p :: tail) (a - 8) 0
      (frame.localsSize - 8) pcEnd [w] store₂ s₂)
    (hkept : Kept T segments image ((.parameters head, a) :: p :: tail) (a - 8) s₁ s₂)
    (hlocals : 8 ≤ frame.localsSize)
    (hregion : (Region.parameters head).Sited T image a (a + 4) (a + frame.parametersSize))
    (hsize : frame.parametersSize = 4 * values.length + 4) {inner outer : List Record}
    (hrecords : store.records = inner ++ outer) (hfront : front.length = inner.length)
    (ha : a = anchor - limit - 4 * (values ++ σ).length - 4)
    (hcode : image.Holds pcEnd (Code.spanning head.span
      [.push (.ofInt (frame.parametersSize - linkSize)), .retn frame]))
    (hlive : image.Live stop) :
    Attains image s₂ (a - frame.localsSize - 8) (Arrives image s₂ fun s₃ =>
      Ready T segments image (front ++ p :: tail) anchor used limit stop (w :: σ)
          { store₂ with records := inner ++ store₂.records.tail } s₃ ∧
        Kept T segments image (front ++ p :: tail) (anchor - used) s s₃) := by
  have hpush := hready.moves_push hfits hcode
  rw [Moves, show a - 8 - (frame.localsSize - 8) - (4 * (([w] : List Word).length : Int) + 4)
    = a - frame.localsSize - 8 by rw [List.length_singleton]; push_cast; ring] at hpush
  refine hpush.imp ?_
  rintro ⟨s₃, hleads, hheap, hready', hkept'⟩
  rw [sub_zero] at hkept'
  have hkept₁ := hkept.trans hkept'
  obtain ⟨h₀, hdata, hheapLe, hused, hle, hstop⟩ := h.room
  obtain ⟨-, hdata', hheapLe', -, -, hstop'⟩ := hready'.room
  have hstack := hready'.stack
  obtain ⟨hkeptWord, hw, -⟩ := hready'.words
  have htop : a - 8 - (frame.localsSize - 8) - 4 * (([.ofInt (frame.parametersSize - linkSize), w]
      : List Word).length : Int) = a - frame.localsSize - 8 := by
    simp only [List.length_cons, List.length_nil]
    push_cast
    ring
  rw [htop] at hstack hkeptWord hw hheapLe'
  rw [List.length_append] at ha
  push_cast at ha
  have hmemorySize : (s₃.memory.size : Int) = s.memory.size := by
    rw [hkept₁.differs.size_eq, he.differs.size_eq]
  obtain ⟨-, hreturn⟩ := he.header_kept hkept₁ (by omega)
  have hlive' : (image.fetch? (s₃.memory.word (a - 8))).isSome := by
    rw [hreturn]
    exact hlive
  have hfp : s₃.fp = .ofInt a := by
    rw [hready'.fp_eq (by simp), sub_add_cancel]
  have hperform := Exec.perform_retn (hstack.advanced (.retn frame)) hfp hkeptWord (by omega) hlocals
    (by simp only [linkSize, wordSize]; omega)
    (by show _ ≤ (s₃.memory.size : Int); simp only [linkSize, wordSize]; omega) hlive'
  have hstep := (hready'.step_eq ((image.holds_cons _ _ _).mp hcode).2 (fun _ => Instruction.noConfusion)).trans hperform
  refine ⟨_, hleads.trans (.of_step hstep), hheap, ?_⟩
  have hdestination : a + (frame.parametersSize - linkSize) = a + frame.parametersSize - 4 := by
    rw [linkSize, wordSize]
    push_cast
    ring
  rw [hdestination]
  refine he.left h hfits hready' hkept₁ hregion hsize hrecords hfront ?_ ?_ rfl rfl rfl rfl rfl rfl rfl
  · rw [List.length_append]
    push_cast
    omega
  · show s₃.memory.store _ (s₃.memory.word _) = _
    rw [hw]

end

end NestedFun
