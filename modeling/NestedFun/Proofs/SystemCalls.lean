import NestedFun.Proofs.MachineSteps

namespace NestedFun

/-!
# Calls of system functions

What a system function can change and how it can fail, and how its result replaces the arguments.
-/

namespace SystemFunction

def arity : SystemFunction → Nat
  | getint | getchr => 0
  | exit | putint | putchr | putstr | new | del => 1

def CanFail (function : SystemFunction) : FaultKind → Prop
  | .console _ => True
  | .outOfMemory _ => function = .new
  | .invalidAddress _ => function = .putstr
  | _ => False

theorem ofName?_name (function : SystemFunction) : ofName? function.name = some function := by
  cases function <;> decide

theorem ofAddress?_address (function : SystemFunction) :
    ofAddress? function.address = some function := by
  cases function <;> rfl

/-- System functions stand at negative addresses. -/
theorem ofAddress?_of_nonneg {w : Word} (h : 0 ≤ w.toInt) : ofAddress? w = none := by
  apply List.find?_eq_none.mpr
  intro function _ heq
  have hw : function.address = w := by simpa using heq
  subst hw
  cases function <;> exact absurd h (by decide)

end SystemFunction

/-- Nothing differs but input, output and the end of the heap. -/
structure State.SameStack (s s' : State) : Prop where
  memory_eq : s'.memory = s.memory
  pc_eq : s'.pc = s.pc
  sp_eq : s'.sp = s.sp
  fp_eq : s'.fp = s.fp
  callStack_eq : s'.callStack = s.callStack

theorem State.SameStack.refl (s : State) : s.SameStack s := ⟨rfl, rfl, rfl, rfl, rfl⟩

namespace Exec

variable {s : State} {sp : Int}

theorem emit_run (bytes : List UInt8) (s : State) :
    (∃ output, s.output.write bytes = (output, true) ∧
        emit bytes s = .ok () { s with output }) ∨
      ∃ output, s.output.write bytes = (output, false) ∧
        emit bytes s = .error (.console .outputFull) { s with output } := by
  rcases hw : s.output.write bytes with ⟨output, complete⟩
  rw [emit, bind_ok (modifyGet_run _ _)]
  simp only [hw]
  cases complete with
  | true => exact .inl ⟨output, rfl, rfl⟩
  | false => exact .inr ⟨output, rfl, rfl⟩

theorem takeLine_run (s : State) :
    takeLine s = .ok (splitLine s.input).1 { s with input := (splitLine s.input).2 } := rfl

theorem takeByte_run (s : State) :
    takeByte s = .ok s.input.head? { s with input := s.input.tail } := rfl

/-- Texts are written until the end, a full output, or a position that holds no word. -/
theorem emitText_cases (address : Word) (s : State) :
    (∃ output, emitText address s = .ok () { s with output }) ∨
      ∃ kind s', emitText address s = .error kind s' ∧ SystemFunction.putstr.CanFail kind := by
  have hcopy : ∀ (output : Output) (i : Nat) (kind : FaultKind),
      (s.memory.copyText output i).2 = .error kind → SystemFunction.putstr.CanFail kind := by
    intro output i
    fun_induction Memory.copyText s.memory output i with
    | case1 => simp
    | case2 _ _ _ _ _ _ _ ih => exact ih
    | case3 =>
        rintro kind h
        cases h
        trivial
    | case4 =>
        rintro kind h
        cases h
        rfl
  simp only [emitText]
  split
  · rcases hc : s.memory.copyText s.output address.toInt.toNat with ⟨output, result⟩
    cases result with
    | ok => exact .inl ⟨output, rfl⟩
    | error kind => exact .inr ⟨kind, _, rfl, hcopy s.output _ kind (by rw [hc])⟩
  · exact .inr ⟨_, _, rfl, rfl⟩

/-- Allocation moves the end of the heap up, at most to the end of the stack. -/
theorem allocate_cases (h : s.StackAt sp) (size : Word) :
    (∃ heapEnd : Word, s.heapEnd.toInt ≤ heapEnd.toInt ∧ heapEnd.toInt ≤ sp ∧
        allocate size s = .ok s.heapEnd { s with heapEnd }) ∨
      allocate size s = .error (.outOfMemory size) s := by
  have h₀ := h.nonneg
  have hlt := h.lt
  have hstart := h.start_le
  simp only [allocate]
  by_cases hbad : (size < 0 || !fitsWord (size.toInt + 3)) = true
  · right
    rw [if_pos hbad]
  · rw [if_neg hbad]
    simp only [Bool.or_eq_true, decide_eq_true_eq, Bool.not_eq_true', not_or,
      Bool.not_eq_false] at hbad
    obtain ⟨hneg, hfits⟩ := hbad
    have hsize₀ : 0 ≤ size.toInt := by
      have h := fun hlt => hneg (Int32.lt_iff_toInt_lt.mpr hlt)
      exact not_lt.mp h
    have hsize₁ := ((fitsWord_iff _).mp hfits).2
    have halign := Word.toInt_alignUp hsize₀ (by omega)
    rw [h.toInt_sp]
    split
    · rename_i hstop
      left
      refine ⟨_, ?_, ?_, rfl⟩
      · rw [Word.toInt_ofInt (by omega) (by omega)]
        omega
      · rw [Word.toInt_ofInt (by omega) (by omega)]
        exact hstop
    · exact .inr rfl

/-- The outcome of a system function: a result, or one of its faults. -/
theorem system_cases (h : s.StackAt sp) (function : SystemFunction)
    (harg : function.arity = 1 → sp + 8 ≤ s.memory.size) :
    (∃ v s', system function (read (s.sp + 4)) s = .ok v s' ∧ s.SameStack s' ∧
        s.heapEnd.toInt ≤ s'.heapEnd.toInt ∧ s'.heapEnd.toInt ≤ sp) ∨
      ∃ kind s', system function (read (s.sp + 4)) s = .error kind s' ∧
        function.CanFail kind := by
  have hheap := h.heap_le
  have hstart := h.start_le
  have hread : function.arity = 1 →
      read (s.sp + 4) s = .ok (s.memory.word (sp + 4)) s := by
    intro hone
    have := harg hone
    rw [h.sp_eq, Word.ofInt_add_four]
    exact read_at (by omega) (by omega) h.size_lt
  cases function with
  | exit => exact .inl ⟨_, s, hread rfl, .refl s, le_refl _, hheap⟩
  | getint =>
      simp only [system]
      rw [bind_ok (takeLine_run s)]
      cases readInteger (splitLine s.input).1 with
      | ok v => exact .inl ⟨v, _, rfl, ⟨rfl, rfl, rfl, rfl, rfl⟩, le_refl _, hheap⟩
      | error e => exact .inr ⟨.console e, _, rfl, trivial⟩
  | putint =>
      simp only [system]
      rw [bind_ok (hread rfl)]
      rcases emit_run (s.memory.word (sp + 4)).numeral.toUTF8.toList s with
        ⟨output, _, hok⟩ | ⟨output, _, herror⟩
      · rw [bind_ok hok]
        exact .inl ⟨0, _, rfl, ⟨rfl, rfl, rfl, rfl, rfl⟩, le_refl _, hheap⟩
      · rw [bind_error herror]
        exact .inr ⟨_, _, rfl, trivial⟩
  | getchr =>
      simp only [system]
      rw [bind_ok (takeByte_run s)]
      cases s.input.head? with
      | some b => exact .inl ⟨_, _, rfl, ⟨rfl, rfl, rfl, rfl, rfl⟩, le_refl _, hheap⟩
      | none => exact .inl ⟨_, _, rfl, ⟨rfl, rfl, rfl, rfl, rfl⟩, le_refl _, hheap⟩
  | putchr =>
      simp only [system]
      rw [bind_ok (hread rfl)]
      rcases emit_run [(s.memory.word (sp + 4)).toUInt32.toUInt8] s with
        ⟨output, _, hok⟩ | ⟨output, _, herror⟩
      · rw [bind_ok hok]
        exact .inl ⟨0, _, rfl, ⟨rfl, rfl, rfl, rfl, rfl⟩, le_refl _, hheap⟩
      · rw [bind_error herror]
        exact .inr ⟨_, _, rfl, trivial⟩
  | putstr =>
      simp only [system]
      rw [bind_ok (hread rfl)]
      rcases emitText_cases (s.memory.word (sp + 4)) s with ⟨output, hok⟩ | ⟨kind, s', he, hk⟩
      · rw [bind_ok hok]
        exact .inl ⟨0, _, rfl, ⟨rfl, rfl, rfl, rfl, rfl⟩, le_refl _, hheap⟩
      · rw [bind_error he]
        exact .inr ⟨kind, s', rfl, hk⟩
  | new =>
      simp only [system]
      rw [bind_ok (hread rfl)]
      rcases allocate_cases h (s.memory.word (sp + 4)) with ⟨heapEnd, hlow, hhigh, hok⟩ | herror
      · exact .inl ⟨_, _, hok, ⟨rfl, rfl, rfl, rfl, rfl⟩, hlow, hhigh⟩
      · exact .inr ⟨_, _, herror, rfl⟩
  | del => exact .inl ⟨0, s, rfl, .refl s, le_refl _, hheap⟩

end Exec

/-- The state inside a call: the stack ends behind the address that was called. -/
def State.entered (s : State) (a : Int) (label : String) : State :=
  { s with sp := .ofInt a, callStack := label :: s.callStack }

/-- The state after a system function: its result has taken the place of link and arguments. -/
def State.answered (s : State) (a : Int) (result : Word) : State :=
  { s with memory := s.memory.store a result, sp := .ofInt a, callStack := s.callStack.tail }

namespace Exec

variable {s : State} {sp : Int} {image : Image}

theorem entered_stackAt (h : s.StackAt sp) (hroom : sp + 4 ≤ s.memory.size) (label : String) :
    (s.entered (sp + 4) label).StackAt (sp + 4) :=
  ⟨rfl, h.start_le, by have := h.heap_le; show s.heapEnd.toInt ≤ _; omega, hroom, h.size_lt⟩

/-- A call of a system function starts with the system function. -/
theorem perform_call_eq (image : Image) (h : s.StackAt sp) (hroom : sp + 4 ≤ s.memory.size) (frame : Frame)
    {function : SystemFunction}
    (htarget : SystemFunction.ofAddress? (s.memory.word sp) = some function) :
    perform image (.call frame) s = callSystem function frame (s.entered (sp + 4) frame.label) := by
  show (pop >>= fun target => _) s = _
  rw [bind_ok (pop_run h hroom), call, enter, bind_ok (modify_run _ _)]
  simp only [htarget]
  rfl

theorem callSystem_error {function : SystemFunction} {frame : Frame} {kind : FaultKind}
    {s' : State} (hsystem : system function (read (s.sp + 4)) s = .error kind s') :
    callSystem function frame s = .error kind s' := by
  rw [callSystem, bind_ok (get_run _)]
  exact bind_error hsystem

theorem callSystem_exit {frame : Frame} {v : Word} {s' : State}
    (hsystem : system .exit (read (s.sp + 4)) s = .ok v s') :
    callSystem .exit frame s = .ok (some v) s' := by
  rw [callSystem, bind_ok (get_run _)]
  exact bind_ok hsystem

/-- All system functions but one return; the result replaces the link and the arguments. -/
theorem callSystem_ok (h : s.StackAt sp) {function : SystemFunction} {frame : Frame} {v : Word}
    {s' : State} (hsystem : system function (read (s.sp + 4)) s = .ok v s')
    (hexit : function ≠ .exit) (hmemory : s'.memory = s.memory) (hsize : 4 ≤ frame.parametersSize)
    (hroom : sp + frame.parametersSize ≤ s.memory.size) :
    callSystem function frame s
      = .ok none (s'.answered (sp + frame.parametersSize - 4) v) := by
  have hheap := h.heap_le
  have hstart := h.start_le
  have hlt := h.size_lt
  have hdestination : s.sp + .ofInt (frame.parametersSize - linkSize)
      = .ofInt (sp + frame.parametersSize - 4) := by
    rw [h.sp_eq, Word.ofInt_add]
    congr 1
    simp only [linkSize, wordSize]
    omega
  have hwrite := write_at (s := s') (a := sp + frame.parametersSize - 4) v
    (by rw [hmemory]; omega) (by rw [hmemory]; omega) (by rw [hmemory]; exact hlt)
  rw [callSystem, bind_ok (get_run _), bind_ok hsystem]
  simp only [hexit, if_false]
  rw [hdestination, bind_ok hwrite, bind_ok (modify_run _ _), leave, bind_ok (modify_run _ _)]
  rfl

end Exec

end NestedFun
