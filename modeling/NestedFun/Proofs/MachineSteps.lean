import NestedFun.Machine.Step
import NestedFun.Proofs.MemoryLaws

namespace NestedFun

/-!
# What single instructions do

The effect of every instruction on a state whose stack ends between the heap and the end of the
memory. Instructions that push either find room or report a stack overflow.
-/

/-- The stack ends at `sp`, between the heap and the end of the memory. -/
structure State.StackAt (s : State) (sp : Int) : Prop where
  sp_eq : s.sp = .ofInt sp
  start_le : s.memory.dataStart ≤ s.heapEnd.toInt
  heap_le : s.heapEnd.toInt ≤ sp
  le_size : sp ≤ s.memory.size
  size_lt : s.memory.size < 2147483648

namespace State

def pushed (s : State) (a : Int) (v : Word) : State :=
  { s with memory := s.memory.store a v, sp := .ofInt a }

def withMemory (s : State) (m : Memory) : State := { s with memory := m }

def withTop (s : State) (a : Int) : State := { s with sp := .ofInt a }

def advanced (s : State) (i : Instruction) : State := { s with pc := s.pc + .ofInt i.size }

namespace StackAt

variable {s : State} {sp : Int}

theorem nonneg (h : s.StackAt sp) : 0 ≤ sp := by
  have h₁ := h.start_le
  have h₂ := h.heap_le
  omega

theorem lt (h : s.StackAt sp) : sp < 2147483648 := by
  have h₁ := h.le_size
  have h₂ := h.size_lt
  omega

theorem toInt_sp (h : s.StackAt sp) : s.sp.toInt = sp := by
  have h₀ := h.nonneg
  rw [h.sp_eq, Word.toInt_ofInt (by omega) h.lt]

theorem withTop (h : s.StackAt sp) {a : Int} (h₁ : s.heapEnd.toInt ≤ a)
    (h₂ : a ≤ s.memory.size) : (s.withTop a).StackAt a :=
  ⟨rfl, h.start_le, h₁, h₂, h.size_lt⟩

theorem pushed (h : s.StackAt sp) {a : Int} (v : Word) (h₁ : s.heapEnd.toInt ≤ a)
    (h₂ : a ≤ s.memory.size) : (s.pushed a v).StackAt a := by
  refine ⟨rfl, h.start_le, h₁, ?_, ?_⟩
  · simpa [State.pushed] using h₂
  · simpa [State.pushed] using h.size_lt

theorem advanced (h : s.StackAt sp) (i : Instruction) : (s.advanced i).StackAt sp :=
  ⟨h.sp_eq, h.start_le, h.heap_le, h.le_size, h.size_lt⟩

end StackAt

end State

/-- From one state to the other only the program counter, the stack pointer and the memory have
changed. -/
structure State.SameFrame (s t : State) : Prop where
  fp_eq : t.fp = s.fp
  heapEnd_eq : t.heapEnd = s.heapEnd
  callStack_eq : t.callStack = s.callStack
  input_eq : t.input = s.input
  output_eq : t.output = s.output

theorem State.SameFrame.trans {s t t' : State} (h : s.SameFrame t) (h' : t.SameFrame t') :
    s.SameFrame t' :=
  ⟨h'.fp_eq.trans h.fp_eq, h'.heapEnd_eq.trans h.heapEnd_eq, h'.callStack_eq.trans h.callStack_eq,
    h'.input_eq.trans h.input_eq, h'.output_eq.trans h.output_eq⟩

def Overflows {α : Type} (r : EStateM.Result FaultKind State α) : Prop :=
  ∃ a b s, r = .error (.stackOverflow a b) s

/-- Something succeeds if there is room on the stack down to an address; otherwise the stack meets
the heap. -/
structure NeedsRoom {α : Type} (s : State) (a : Int) (r r' : EStateM.Result FaultKind State α) :
    Prop where
  overflows : a < s.heapEnd.toInt → Overflows r
  fits : s.heapEnd.toInt ≤ a → r = r'

theorem NeedsRoom.cases {α : Type} {s : State} {a : Int} {r r' : EStateM.Result FaultKind State α}
    (h : NeedsRoom s a r r') : Overflows r ∨ s.heapEnd.toInt ≤ a ∧ r = r' := by
  by_cases hroom : s.heapEnd.toInt ≤ a
  · exact .inr ⟨hroom, h.fits hroom⟩
  · exact .inl (h.overflows (by omega))

namespace Exec

variable {α β : Type} {s s' : State} {sp : Int}

theorem bind_ok {x : Exec α} {f : α → Exec β} {a : α} (h : x s = .ok a s') :
    (x >>= f) s = f a s' := by
  show EStateM.bind x f s = f a s'
  rw [EStateM.bind, h]

theorem bind_error {x : Exec α} {f : α → Exec β} {kind : FaultKind} (h : x s = .error kind s') :
    (x >>= f) s = .error kind s' := by
  show EStateM.bind x f s = .error kind s'
  rw [EStateM.bind, h]

theorem of_bind_ok {x : Exec α} {f : α → Exec β} {b : β} (h : (x >>= f) s = .ok b s') :
    ∃ a t, x s = .ok a t ∧ f a t = .ok b s' := by
  cases hx : x s with
  | ok a t => exact ⟨a, t, rfl, (bind_ok hx).symm.trans h⟩
  | error kind t => cases (bind_error hx).symm.trans h

theorem bind_overflows {x : Exec α} {f : α → Exec β} (h : Overflows (x s)) :
    Overflows ((x >>= f) s) := by
  obtain ⟨a, b, s', h⟩ := h
  exact ⟨a, b, s', bind_error h⟩

theorem bind_needsRoom {x : Exec α} {f : α → Exec β} {s₀ : State} {a : Int} {v : α}
    (h : NeedsRoom s₀ a (x s) (.ok v s')) : NeedsRoom s₀ a ((x >>= f) s) (f v s') :=
  ⟨fun hover => bind_overflows (h.overflows hover), fun hroom => bind_ok (h.fits hroom)⟩

theorem get_run (s : State) : (get : Exec State) s = .ok s s := rfl

theorem modify_run (f : State → State) (s : State) :
    (modify f : Exec PUnit) s = .ok () (f s) := rfl

theorem modifyGet_run {γ : Type} (f : State → γ × State) (s : State) :
    (modifyGet f : Exec γ) s = .ok (f s).1 (f s).2 := rfl

theorem read_ok {a v : Word} (h : read a s = .ok v s') : s' = s := by
  simp only [read] at h
  split at h
  · cases h
    rfl
  · cases h

theorem pop_ok {v : Word} (h : pop s = .ok v s') : s' = { s with sp := s.sp + 4 } := by
  simp only [pop] at h
  split at h
  · cases h
    rfl
  · cases h

/-- What is popped was on top of the stack. -/
theorem read_of_pop {v : Word} (h : pop s = .ok v s') : s.memory.read s.sp = .ok v := by
  simp only [pop] at h
  split at h
  · rename_i hread
    cases h
    exact hread
  · cases h

theorem jump_ok {image : Image} {target : Word} (h : jump image target s = .ok () s') :
    s' = { s with pc := target } := by
  simp only [jump] at h
  split at h
  · cases h
    rfl
  · cases h

theorem push_run (h : s.StackAt sp) (v : Word) :
    NeedsRoom s (sp - 4) (push v s) (.ok () (s.pushed (sp - 4) v)) := by
  have h₀ := h.nonneg
  have hlt := h.lt
  have hstart := h.start_le
  have hsize := h.le_size
  have hsp : s.sp - 4 = .ofInt (sp - 4) := by rw [h.sp_eq, Word.ofInt_sub_four]
  have hint : (Word.ofInt (sp - 4)).toInt = sp - 4 := Word.toInt_ofInt (by omega) (by omega)
  simp only [push, hsp]
  constructor
  · intro hover
    rw [if_pos (by rw [Int32.lt_iff_toInt_lt, hint]; exact hover)]
    exact ⟨_, _, _, rfl⟩
  · intro hroom
    rw [if_neg (by rw [Int32.lt_iff_toInt_lt, hint]; omega),
      if_pos ((s.memory.holds_ofInt (by omega) (by omega)).mpr ⟨by omega, by omega⟩), hint]
    rfl

theorem read_at {a : Int} (hstart : s.memory.dataStart ≤ a) (hstop : a + 4 ≤ s.memory.size)
    (hsize : s.memory.size < 2147483648) : read (.ofInt a) s = .ok (s.memory.word a) s := by
  simp only [read]
  rw [s.memory.read_ofInt (by omega) (by omega) hstart hstop]

theorem write_at {a : Int} (v : Word) (hstart : s.memory.dataStart ≤ a)
    (hstop : a + 4 ≤ s.memory.size) (hsize : s.memory.size < 2147483648) :
    write (.ofInt a) v s = .ok () (s.withMemory (s.memory.store a v)) := by
  simp only [write]
  rw [if_pos ((s.memory.holds_ofInt (by omega) (by omega)).mpr ⟨hstart, hstop⟩),
    Word.toInt_ofInt (by omega) (by omega)]
  rfl

theorem pop_run (h : s.StackAt sp) (hroom : sp + 4 ≤ s.memory.size) :
    pop s = .ok (s.memory.word sp) (s.withTop (sp + 4)) := by
  have hstart := h.start_le
  have hheap := h.heap_le
  simp only [pop, h.sp_eq]
  rw [s.memory.read_ofInt h.nonneg h.lt (by omega) hroom]
  simp only [Word.ofInt_add_four]
  rfl

/-- Popping from a stack that has been popped from already. -/
theorem pop_withTop (h : s.StackAt sp) {a b : Int} (hab : b = a + 4) (hlow : sp ≤ a)
    (hroom : b ≤ s.memory.size) : pop (s.withTop a) = .ok (s.memory.word a) (s.withTop b) := by
  have hheap := h.heap_le
  have h₁ := h.withTop (a := a) (by omega) (by omega)
  rw [pop_run h₁ (by show a + 4 ≤ (s.memory.size : Int); omega), hab]
  rfl

theorem moveTop_run (h : s.StackAt sp) {d : Word} {n : Int} (hd : d.toInt = n)
    (htop : sp + n ≤ s.memory.size) (hlow : -2147483648 ≤ sp + n) :
    NeedsRoom s (sp + n) (moveTop d s) (.ok () (s.withTop (sp + n))) := by
  have hsize := h.size_lt
  have hfits : fitsWord (sp + n) = true := (fitsWord_iff _).mpr ⟨hlow, by omega⟩
  simp only [moveTop, h.toInt_sp, hd, hfits]
  rw [if_neg (by simpa using htop)]
  constructor
  · intro hover
    rw [if_pos hover]
    exact ⟨_, _, _, rfl⟩
  · intro hroom
    rw [if_neg (by omega)]
    rfl

theorem jump_run {image : Image} {target : Word} (h : (image.fetch? target).isSome) :
    jump image target s = .ok () { s with pc := target } := by
  simp only [jump]
  rw [if_pos h]

/-- A step fetches an instruction and carries it out behind the moved program counter. -/
theorem step_eq {image : Image} {i : Instruction} (h : image.fetch? s.pc = some i) :
    step image s = perform image i (s.advanced i) := by
  simp only [step]
  rw [bind_ok (get_run s)]
  simp only [h]
  rfl

/-- Where no instruction starts, nothing happens. -/
theorem step_of_fetch_none {image : Image} (h : image.fetch? s.pc = none) :
    step image s = .error (.invalidJump s.pc) s := by
  simp only [step]
  rw [bind_ok (get_run s)]
  simp only [h]
  rfl

theorem step_needsRoom {image : Image} {i : Instruction} {a : Int}
    {r : EStateM.Result FaultKind State (Option Word)} (h : image.fetch? s.pc = some i)
    (hperform : NeedsRoom (s.advanced i) a (perform image i (s.advanced i)) r) :
    NeedsRoom s a (step image s) r := by
  rw [step_eq h]
  exact ⟨hperform.overflows, hperform.fits⟩

variable (image : Image)

theorem perform_push (h : s.StackAt sp) (v : Word) :
    NeedsRoom s (sp - 4) (perform image (.push v) s) (.ok none (s.pushed (sp - 4) v)) :=
  bind_needsRoom (push_run h v)

theorem perform_regn (h : s.StackAt sp) :
    NeedsRoom s (sp - 4) (perform image (.regn .framePointer) s)
      (.ok none (s.pushed (sp - 4) s.fp)) := by
  have hget : perform image (.regn .framePointer) s
      = (push s.fp >>= fun _ => pure none) s := rfl
  rw [hget]
  exact bind_needsRoom (push_run h s.fp)

theorem perform_name (h : s.StackAt sp) {l : String} {v : Word}
    (hl : image.labels[l]? = some v) :
    NeedsRoom s (sp - 4) (perform image (.name l) s) (.ok none (s.pushed (sp - 4) v)) := by
  have hpush : perform image (.name l) s = (push v >>= fun _ => pure none) s := by
    simp only [perform, Image.addressOf, hl]
  rw [hpush]
  exact bind_needsRoom (push_run h v)

/-- Moving the top of the stack by a number that was on top of it. -/
theorem perform_popn (h : s.StackAt sp) {n : Int} (hroom : sp + 4 ≤ s.memory.size)
    (hn : (s.memory.word sp).toInt = n) (htop : sp + 4 + n ≤ s.memory.size)
    (hlow : -2147483648 ≤ sp + 4 + n) :
    NeedsRoom s (sp + 4 + n) (perform image .popn s) (.ok none (s.withTop (sp + 4 + n))) := by
  have hheap := h.heap_le
  have hmove : perform image .popn s
      = (moveTop (s.memory.word sp) >>= fun _ => pure none) (s.withTop (sp + 4)) :=
    bind_ok (pop_run h hroom)
  have hmoved := moveTop_run (h.withTop (by omega) hroom) hn htop hlow
  rw [hmove]
  exact ⟨(bind_needsRoom hmoved).overflows, (bind_needsRoom hmoved).fits⟩

/-- Loading from an address that can be read. -/
theorem perform_load_ok (h : s.StackAt sp) (hroom : sp + 4 ≤ s.memory.size) {v : Word}
    (hread : s.memory.read (s.memory.word sp) = .ok v) :
    perform image .load s = .ok none (s.pushed sp v) := by
  have hheap := h.heap_le
  have h₁ := h.withTop (a := sp + 4) (by omega) hroom
  have hread' : read (s.memory.word sp) (s.withTop (sp + 4)) = .ok v (s.withTop (sp + 4)) := by
    simp only [read, State.withTop, hread]
  have hpush := (push_run h₁ v).fits (by
    show s.heapEnd.toInt ≤ sp + 4 - 4
    omega)
  show (pop >>= fun address => _) s = _
  rw [bind_ok (pop_run h hroom), bind_ok hread']
  refine (bind_ok hpush).trans ?_
  rw [show sp + 4 - 4 = sp by omega]
  rfl

/-- Loading from an address that cannot be read. -/
theorem perform_load_error (h : s.StackAt sp) (hroom : sp + 4 ≤ s.memory.size) {kind : FaultKind}
    (hread : s.memory.read (s.memory.word sp) = .error kind) :
    perform image .load s = .error kind (s.withTop (sp + 4)) := by
  have hread' : read (s.memory.word sp) (s.withTop (sp + 4))
      = .error kind (s.withTop (sp + 4)) := by
    simp only [read, State.withTop, hread]
  show (pop >>= fun address => _) s = _
  rw [bind_ok (pop_run h hroom)]
  exact bind_error hread'

/-- Loading from an address in the data or above. -/
theorem perform_load (h : s.StackAt sp) (hroom : sp + 4 ≤ s.memory.size) {a : Int}
    (ha : s.memory.word sp = .ofInt a) (hstart : s.memory.dataStart ≤ a)
    (hstop : a + 4 ≤ s.memory.size) :
    perform image .load s = .ok none (s.pushed sp (s.memory.word a)) := by
  have hsize := h.size_lt
  refine perform_load_ok image h hroom ?_
  rw [ha, s.memory.read_ofInt (by omega) (by omega) hstart hstop]

/-- Loading from any address: it succeeds or reports the address as invalid. -/
theorem perform_load_cases (h : s.StackAt sp) (hroom : sp + 4 ≤ s.memory.size) :
    (∃ v, perform image .load s = .ok none (s.pushed sp v)) ∨
      ∃ a s', perform image .load s = .error (.invalidAddress a) s' := by
  by_cases hholds : s.memory.Holds (s.memory.word sp)
  · have hread : s.memory.read (s.memory.word sp) = .ok _ := if_pos hholds
    exact .inl ⟨_, perform_load_ok image h hroom hread⟩
  · have hread : s.memory.read (s.memory.word sp) = .error _ := if_neg hholds
    exact .inr ⟨_, _, perform_load_error image h hroom hread⟩

/-- Storing to an address in the data or above. -/
theorem perform_save (h : s.StackAt sp) (hroom : sp + 8 ≤ s.memory.size) {a : Int}
    (ha : s.memory.word sp = .ofInt a) (hstart : s.memory.dataStart ≤ a)
    (hstop : a + 4 ≤ s.memory.size) :
    perform image .save s = .ok none
      { s with memory := s.memory.store a (s.memory.word (sp + 4)), sp := .ofInt (sp + 8) } := by
  have hheap := h.heap_le
  have h₂ := h.withTop (a := sp + 8) (by omega) hroom
  have hpop := pop_withTop h (a := sp + 4) (b := sp + 8) (by omega) (by omega) hroom
  show (pop >>= fun address => _) s = _
  rw [bind_ok (pop_run h (by omega)), ha, bind_ok hpop]
  exact bind_ok (write_at _ hstart hstop h₂.size_lt)

/-- An operator of two operands; the right one is on top. -/
theorem perform_binary (h : s.StackAt sp) (hroom : sp + 8 ≤ s.memory.size) {o : Operator}
    (ho : o.isUnary = false) {r : Word}
    (hr : o.apply (s.memory.word (sp + 4)) (s.memory.word sp) = .ok r) :
    perform image (.oper o) s = .ok none (s.pushed (sp + 4) r) := by
  have hheap := h.heap_le
  have h₂ := h.withTop (a := sp + 8) (by omega) hroom
  have hpop := pop_withTop h (a := sp + 4) (b := sp + 8) (by omega) (by omega) hroom
  have hpush := (push_run h₂ r).fits (by
    show s.heapEnd.toInt ≤ sp + 8 - 4
    omega)
  rw [show sp + 8 - 4 = sp + 4 by omega] at hpush
  have hoperate : operate o s = .ok () (s.pushed (sp + 4) r) := by
    rw [operate, bind_ok (pop_run h (by omega)), ho]
    simp only [Bool.false_eq_true, if_false]
    rw [bind_ok hpop, hr]
    exact hpush
  exact bind_ok hoperate

/-- An operator of two operands for which it has no result. -/
theorem perform_binary_error (h : s.StackAt sp) (hroom : sp + 8 ≤ s.memory.size) {o : Operator}
    (ho : o.isUnary = false) {kind : FaultKind}
    (hr : o.apply (s.memory.word (sp + 4)) (s.memory.word sp) = .error kind) :
    perform image (.oper o) s = .error kind (s.withTop (sp + 8)) := by
  have hheap := h.heap_le
  have hpop := pop_withTop h (a := sp + 4) (b := sp + 8) (by omega) (by omega) hroom
  have hoperate : operate o s = .error kind (s.withTop (sp + 8)) := by
    rw [operate, bind_ok (pop_run h (by omega)), ho]
    simp only [Bool.false_eq_true, if_false]
    rw [bind_ok hpop, hr]
    rfl
  exact bind_error hoperate

/-- An operator of one operand. -/
theorem perform_unary (h : s.StackAt sp) (hroom : sp + 4 ≤ s.memory.size) {o : Operator}
    (ho : o.isUnary = true) {r : Word} (hr : o.apply 0 (s.memory.word sp) = .ok r) :
    perform image (.oper o) s = .ok none (s.pushed sp r) := by
  have hheap := h.heap_le
  have h₁ := h.withTop (a := sp + 4) (by omega) hroom
  have hpush := (push_run h₁ r).fits (by
    show s.heapEnd.toInt ≤ sp + 4 - 4
    omega)
  rw [show sp + 4 - 4 = sp by omega] at hpush
  have hoperate : operate o s = .ok () (s.pushed sp r) := by
    rw [operate, bind_ok (pop_run h hroom), ho]
    have hpure : (pure 0 : Exec Word) (s.withTop (sp + 4)) = .ok 0 (s.withTop (sp + 4)) := rfl
    simp only [if_true]
    rw [bind_ok hpure, hr]
    exact hpush
  exact bind_ok hoperate

/-- A jump to an instruction. -/
theorem perform_ujmp (h : s.StackAt sp) (hroom : sp + 4 ≤ s.memory.size)
    (hlive : (image.fetch? (s.memory.word sp)).isSome) :
    perform image .ujmp s = .ok none { s.withTop (sp + 4) with pc := s.memory.word sp } := by
  show (pop >>= fun target => _) s = _
  rw [bind_ok (pop_run h hroom)]
  exact bind_ok (jump_run hlive)

/-- A jump to one of two instructions. -/
theorem perform_cjmp (h : s.StackAt sp) (hroom : sp + 12 ≤ s.memory.size) {target : Word}
    (htarget : target = if s.memory.word (sp + 8) ≠ 0 then s.memory.word (sp + 4)
      else s.memory.word sp)
    (hlive : (image.fetch? target).isSome) :
    perform image .cjmp s = .ok none { s.withTop (sp + 12) with pc := target } := by
  have hheap := h.heap_le
  have hpop₁ := pop_withTop h (a := sp + 4) (b := sp + 8) (by omega) (by omega) (by omega)
  have hpop₂ := pop_withTop h (a := sp + 8) (b := sp + 12) (by omega) (by omega) hroom
  show (pop >>= fun negative => _) s = _
  rw [bind_ok (pop_run h (by omega)), bind_ok hpop₁, bind_ok hpop₂, ← htarget]
  exact bind_ok (jump_run hlive)

end Exec

/-- The state at the entry of a called function, whose frame starts where the stack ended. -/
def State.called (s : State) (a : Int) (target : Word) (label : String) : State :=
  { s with
    memory := (s.memory.store (a - 4) s.fp).store (a - 8) s.pc
    pc := target
    sp := .ofInt (a - 8)
    fp := .ofInt a
    callStack := label :: s.callStack }

/-- The state after a return: the frame is gone, and the result stands at the end of the stack. -/
def State.returned (s : State) (frameAddress a : Int) (result : Word) : State :=
  { s with
    memory := s.memory.store a result
    pc := s.memory.word (frameAddress - 8)
    sp := .ofInt a
    fp := s.memory.word (frameAddress - 4)
    callStack := s.callStack.tail }

namespace Exec

variable {s : State} {sp : Int} {image : Image}

/-- A call of a function that is no system function. The address popped makes room for the first
of the two words pushed. -/
theorem perform_call (h : s.StackAt sp) (hroom : sp + 4 ≤ s.memory.size) (frame : Frame)
    (hsystem : SystemFunction.ofAddress? (s.memory.word sp) = none)
    (hlive : (image.fetch? (s.memory.word sp)).isSome) :
    NeedsRoom s (sp - 4) (perform image (.call frame) s)
      (.ok none (s.called (sp + 4) (s.memory.word sp) frame.label)) := by
  have hheap := h.heap_le
  have h₁ := h.withTop (a := sp + 4) (by omega) hroom
  let s₁ : State := { s.withTop (sp + 4) with callStack := frame.label :: s.callStack }
  let s₂ : State := { s₁ with pc := s.memory.word sp }
  let s₃ : State := { s₂ with fp := .ofInt (sp + 4) }
  have henter : enter frame.label (s.withTop (sp + 4)) = .ok () s₁ := rfl
  have hget : (get : Exec State) s₁ = .ok s₁ s₁ := rfl
  have hjump : jump image (s.memory.word sp) s₁ = .ok () s₂ := jump_run hlive
  have hmodify : (modify fun s => { s with fp := s.sp } : Exec PUnit) s₂ = .ok () s₃ := rfl
  have hs₃ : s₃.StackAt (sp + 4) := ⟨rfl, h₁.start_le, h₁.heap_le, h₁.le_size, h₁.size_lt⟩
  have hpush := (push_run hs₃ s.fp).fits (by
    show s.heapEnd.toInt ≤ sp + 4 - 4
    omega)
  have hs₄ : (s₃.pushed (sp + 4 - 4) s.fp).StackAt (sp + 4 - 4) :=
    hs₃.pushed s.fp (by show s.heapEnd.toInt ≤ _; omega) (by
      show sp + 4 - 4 ≤ (s.memory.size : Int)
      omega)
  have hcall : perform image (.call frame) s
      = ((push s.fp >>= fun _ => push s.pc >>= fun _ => pure (none : Option Word)) : Exec _) s₃ := by
    show (pop >>= fun target => _) s = _
    rw [bind_ok (pop_run h hroom), call, bind_ok henter]
    simp only [hsystem]
    rw [bind_ok hget, bind_ok hjump, bind_ok hmodify]
    rfl
  rw [hcall, bind_ok hpush]
  have hlast := push_run hs₄ s.pc
  rw [show sp + 4 - 4 - 4 = sp - 4 by omega] at hlast
  have hdone := bind_needsRoom (f := fun _ => (pure none : Exec (Option Word))) hlast
  refine ⟨hdone.overflows, fun hroom' => (hdone.fits hroom').trans ?_⟩
  rw [show sp - 4 = sp + 4 - 8 by omega]
  rfl

/-- A return whose frame is in order. -/
theorem perform_retn (h : s.StackAt sp) {frame : Frame} {fp kept : Int} (hfp : s.fp = .ofInt fp)
    (hkept : s.memory.word sp = .ofInt kept) (hframe : fp - frame.localsSize = sp + 8)
    (hlocals : 8 ≤ frame.localsSize) (hkept₀ : 0 ≤ kept) (htop : fp + kept + 4 ≤ s.memory.size)
    (hlive : (image.fetch? (s.memory.word (fp - 8))).isSome) :
    perform image (.retn frame) s
      = .ok none (s.returned fp (fp + kept) (s.memory.word (sp + 4))) := by
  have hheap := h.heap_le
  have hstart := h.start_le
  have hsize := h.size_lt
  have h₂ := h.withTop (a := sp + 8) (by omega) (by omega)
  have hpop := pop_withTop h (a := sp + 4) (b := sp + 8) (by omega) (by omega) (by omega)
  have hexpected : ¬ (s.withTop (sp + 8)).sp
      ≠ (s.withTop (sp + 8)).fp - Word.ofInt frame.localsSize := by
    show ¬ Word.ofInt (sp + 8) ≠ s.fp - _
    rw [hfp, Word.ofInt_sub, hframe]
    simp
  have hcaller : read ((s.withTop (sp + 8)).fp - 4) (s.withTop (sp + 8))
      = .ok (s.memory.word (fp - 4)) (s.withTop (sp + 8)) := by
    show read (s.fp - 4) _ = _
    rw [hfp, Word.ofInt_sub_four]
    exact read_at (by show (s.memory.dataStart : Int) ≤ _; omega)
      (by show _ ≤ (s.memory.size : Int); omega) h₂.size_lt
  have hreturn : read ((s.withTop (sp + 8)).fp - 8) (s.withTop (sp + 8))
      = .ok (s.memory.word (fp - 8)) (s.withTop (sp + 8)) := by
    show read (s.fp - 8) _ = _
    rw [hfp, Word.ofInt_sub_eight]
    exact read_at (by show (s.memory.dataStart : Int) ≤ _; omega)
      (by show _ ≤ (s.memory.size : Int); omega) h₂.size_lt
  have hdestination : (s.withTop (sp + 8)).fp + s.memory.word sp = .ofInt (fp + kept) := by
    show s.fp + _ = _
    rw [hfp, hkept, Word.ofInt_add]
  let s₁ : State := (s.withTop (sp + 8)).withMemory
    (s.memory.store (fp + kept) (s.memory.word (sp + 4)))
  let s₂ : State := { s₁ with sp := .ofInt (fp + kept), fp := s.memory.word (fp - 4) }
  let s₃ : State := { s₂ with callStack := s.callStack.tail }
  have hwrite : write (.ofInt (fp + kept)) (s.memory.word (sp + 4)) (s.withTop (sp + 8))
      = .ok () s₁ :=
    write_at _ (by show (s.memory.dataStart : Int) ≤ _; omega)
      (by show _ ≤ (s.memory.size : Int); omega) h₂.size_lt
  have hmodify : (modify fun s => { s with sp := .ofInt (fp + kept), fp := s₂.fp } : Exec PUnit) s₁
      = .ok () s₂ := modify_run _ _
  have hleave : leave s₂ = .ok () s₃ := modify_run _ _
  have hjump : jump image (s.memory.word (fp - 8)) s₃
      = .ok () (s.returned fp (fp + kept) (s.memory.word (sp + 4))) := jump_run hlive
  have hret : ret image frame s
      = .ok () (s.returned fp (fp + kept) (s.memory.word (sp + 4))) := by
    rw [ret, bind_ok (pop_run h (by omega)), bind_ok hpop, bind_ok (get_run _)]
    simp only [if_neg hexpected]
    rw [bind_ok hcaller, bind_ok hreturn, hdestination, bind_ok hwrite, bind_ok hmodify,
      bind_ok hleave, hjump]
  exact bind_ok hret

end Exec

end NestedFun
