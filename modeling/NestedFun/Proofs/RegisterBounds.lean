import NestedFun.Proofs.CodeAddresses
import NestedFun.Proofs.SystemCalls

namespace NestedFun

/-!
# Bounds of the registers

Whatever segments are loaded, the stack pointer, the end of the heap and the program counter stay
where they belong, and the bytes of the code stay as they are: after any number of steps, those that
fail and those that end the program included.
-/

/-- The state that an action leaves, whether it fails or not. -/
def Exec.after {α : Type} (x : Exec α) (s : State) : State :=
  match x s with
  | .ok _ s' | .error _ s' => s'

def Exec.Keeps {α : Type} (P : State → Prop) (x : Exec α) : Prop :=
  ∀ s, P s → P (x.after s)

/-- A state in bounds, seen from an earlier one: the code and the extent of the memory are the same,
and the heap has not become smaller. -/
structure State.Bounded (image : Image) (first s : State) : Prop where
  size_eq : s.memory.size = first.memory.size
  size_lt : s.memory.size < 2147483648
  dataStart_eq : s.memory.dataStart = first.memory.dataStart
  code_eq : ∀ i < s.memory.dataStart, s.memory.byte i = first.memory.byte i
  start_le_sp : s.memory.dataStart ≤ s.sp.toInt
  sp_le : s.sp.toInt ≤ s.memory.size
  start_le_heap : s.memory.dataStart ≤ s.heapEnd.toInt
  heap_grows : first.heapEnd.toInt ≤ s.heapEnd.toInt
  heap_whole : 4 ∣ s.heapEnd.toInt
  heap_le : s.heapEnd.toInt ≤ s.memory.size
  goes_on : (image.fetch? s.pc).isSome ∨ s.pc.toInt = s.memory.dataStart

namespace State.Bounded

variable {image : Image} {first s : State}

theorem self (h : Bounded image first s) : Bounded image s s :=
  { h with
    size_eq := rfl
    dataStart_eq := rfl
    code_eq := fun _ _ => rfl
    heap_grows := le_rfl }

theorem setWord (h : Bounded image first s) {a : Word} (ha : s.memory.dataStart ≤ a.toInt)
    (v : Word) : Bounded image first { s with memory := s.memory.setWord a.toInt.toNat v } where
  size_eq := (s.memory.size_setWord _ v).trans h.size_eq
  size_lt := by simpa using h.size_lt
  dataStart_eq := h.dataStart_eq
  code_eq i hi := by
    have hi : i < s.memory.dataStart := hi
    exact (s.memory.byte_setWord_of_outside v (.inl (by omega))).trans (h.code_eq i hi)
  start_le_sp := h.start_le_sp
  sp_le := by simpa using h.sp_le
  start_le_heap := h.start_le_heap
  heap_grows := h.heap_grows
  heap_whole := h.heap_whole
  heap_le := by simpa using h.heap_le
  goes_on := h.goes_on

theorem withSp (h : Bounded image first s) {sp : Word} (h₁ : s.memory.dataStart ≤ sp.toInt)
    (h₂ : sp.toInt ≤ s.memory.size) : Bounded image first { s with sp } :=
  { h with start_le_sp := h₁, sp_le := h₂ }

theorem withHeapEnd (h : Bounded image first s) {heapEnd : Word}
    (h₁ : s.heapEnd.toInt ≤ heapEnd.toInt) (h₂ : heapEnd.toInt ≤ s.memory.size)
    (h₄ : 4 ∣ heapEnd.toInt) : Bounded image first { s with heapEnd } :=
  { h with
    start_le_heap := h.start_le_heap.trans h₁
    heap_grows := h.heap_grows.trans h₁
    heap_whole := h₄
    heap_le := h₂ }

end State.Bounded

namespace Exec

variable {α β : Type}

section

variable {P : State → Prop}

theorem after_ok {x : Exec α} {s s' : State} {a : α} (h : x s = .ok a s') : x.after s = s' := by
  rw [after, h]

theorem after_error {x : Exec α} {s s' : State} {kind : FaultKind} (h : x s = .error kind s') :
    x.after s = s' := by
  rw [after, h]

theorem keeps_pure (a : α) : Keeps P (pure a : Exec α) := fun _ h => h

theorem keeps_throw (kind : FaultKind) : Keeps P (throw kind : Exec α) := fun _ h => h

theorem keeps_get : Keeps P (get : Exec State) := fun _ h => h

theorem keeps_modify {f : State → State} (hf : ∀ s, P s → P (f s)) :
    Keeps P (modify f : Exec PUnit) := hf

theorem keeps_modifyGet {f : State → α × State} (hf : ∀ s, P s → P (f s).2) :
    Keeps P (modifyGet f : Exec α) := hf

theorem keeps_bind {x : Exec α} {f : α → Exec β} (hx : Keeps P x) (hf : ∀ a, Keeps P (f a)) :
    Keeps P (x >>= f) := by
  intro s hs
  have h := hx s hs
  cases hrun : x s with
  | ok a s' =>
      rw [after_ok hrun] at h
      have hbind : (x >>= f).after s = (f a).after s' := by
        rw [after, bind_ok hrun, after]
      rw [hbind]
      exact hf a s' h
  | error kind s' =>
      rw [after_error hrun] at h
      rw [after_error (bind_error hrun)]
      exact h

theorem keeps_read (a : Word) : Keeps P (read a) := by
  intro s hs
  rw [after, read]
  cases s.memory.read a <;> exact hs

end

section

variable {image : Image} {first : State}

theorem keeps_write (a v : Word) : Keeps (State.Bounded image first) (write a v) := by
  intro s hs
  rw [after, write]
  by_cases ha : s.memory.Holds a
  · rw [if_pos ha]
    exact hs.setWord ha.1 v
  · rw [if_neg ha]
    exact hs

/-- What comes behind a write can rely on the address. -/
theorem keeps_write_bind {a v : Word} {x : Exec β}
    (hx : ∀ s, State.Bounded image first s → s.memory.Holds a →
      State.Bounded image first (x.after s)) :
    Keeps (State.Bounded image first) (write a v >>= fun _ => x) := by
  intro s hs
  by_cases ha : s.memory.Holds a
  · have hrun : write a v s = .ok () { s with memory := s.memory.setWord a.toInt.toNat v } := by
      rw [write, if_pos ha]
    have hbind : (write a v >>= fun _ => x).after s
        = x.after { s with memory := s.memory.setWord a.toInt.toNat v } := by
      rw [after, bind_ok hrun, after]
    rw [hbind]
    exact hx _ (hs.setWord ha.1 v) ⟨ha.1, (s.memory.size_setWord _ v).symm ▸ ha.2⟩
  · have hrun : write a v s = .error (.invalidAddress a) s := by rw [write, if_neg ha]
    rw [after_error (bind_error hrun)]
    exact hs

theorem keeps_push (v : Word) : Keeps (State.Bounded image first) (push v) := by
  intro s hs
  simp only [after, push]
  by_cases hroom : s.sp - 4 < s.heapEnd
  · rw [if_pos hroom]
    exact hs
  · rw [if_neg hroom]
    by_cases ha : s.memory.Holds (s.sp - 4)
    · rw [if_pos ha]
      have hstop : (s.sp - 4).toInt + 4 ≤ s.memory.size := ha.2
      exact (hs.withSp ha.1 (by omega)).setWord ha.1 v
    · rw [if_neg ha]
      exact hs

theorem keeps_pop : Keeps (State.Bounded image first) pop := by
  intro s hs
  simp only [after, pop, Memory.read]
  by_cases ha : s.memory.Holds s.sp
  · rw [if_pos ha]
    have hstop : s.sp.toInt + 4 ≤ s.memory.size := ha.2
    have hlow := hs.start_le_sp
    have hsize := hs.size_lt
    have hsp : (s.sp + 4).toInt = s.sp.toInt + 4 := by
      rw [← Word.ofInt_toInt s.sp, Word.ofInt_add_four, Word.toInt_ofInt (by omega) (by omega),
        Word.ofInt_toInt]
    exact hs.withSp (by omega) (by omega)
  · rw [if_neg ha]
    exact hs

theorem keeps_moveTop (distance : Word) :
    Keeps (State.Bounded image first) (moveTop distance) := by
  intro s hs
  simp only [after, moveTop]
  split
  · rename_i h
    split at h
    · cases h
    · split at h
      · cases h
      · rename_i hfits hroom
        cases h
        simp only [Bool.or_eq_true, Bool.not_eq_true', decide_eq_true_eq, not_or, not_lt,
          Bool.not_eq_false, fitsWord_iff] at hfits
        have hsp := Word.toInt_ofInt hfits.1.1 hfits.1.2
        have hheap := hs.start_le_heap
        exact hs.withSp (by omega) (by omega)
  · rename_i h
    split at h
    · cases h
      exact hs
    · split at h
      · cases h
        exact hs
      · cases h

theorem keeps_jump (target : Word) : Keeps (State.Bounded image first) (jump image target) := by
  intro s hs
  rw [after, jump]
  by_cases h : (image.fetch? target).isSome
  · rw [if_pos h]
    exact { hs with goes_on := .inl h }
  · rw [if_neg h]
    exact hs

theorem keeps_emit (bytes : List UInt8) : Keeps (State.Bounded image first) (emit bytes) := by
  intro s hs
  obtain ⟨output, -, h⟩ | ⟨output, -, h⟩ := emit_run bytes s
  · rw [after_ok h]
    exact { hs with }
  · rw [after_error h]
    exact { hs with }

theorem keeps_emitText (a : Word) : Keeps (State.Bounded image first) (emitText a) := by
  intro s hs
  rw [after, emitText]
  by_cases ha : s.memory.Holds a
  · rw [if_pos ha]
    rcases s.memory.copyText s.output a.toInt.toNat with ⟨output, _ | _⟩ <;> exact { hs with }
  · rw [if_neg ha]
    exact hs

theorem keeps_allocate (size : Word) : Keeps (State.Bounded image first) (allocate size) := by
  intro s hs
  rw [after, allocate]
  by_cases hfits : (size < 0 || !fitsWord (size.toInt + 3)) = true
  · rw [if_pos hfits]
    exact hs
  · rw [if_neg hfits]
    simp only [Bool.or_eq_true, Bool.not_eq_true', decide_eq_true_eq, not_or,
      Bool.not_eq_false, fitsWord_iff] at hfits
    have hnonneg : 0 ≤ size.toInt := Int32.le_iff_toInt_le.mp (Int32.not_lt.mp hfits.1)
    have hsize := Word.toInt_alignUp hnonneg (by omega)
    dsimp only
    by_cases hroom : s.heapEnd.toInt + size.alignUp.toInt ≤ s.sp.toInt
    · rw [if_pos hroom]
      have hstart := hs.start_le_heap
      have hstop := hs.sp_le
      have hlt := hs.size_lt
      have hheap := Word.toInt_ofInt (n := s.heapEnd.toInt + size.alignUp.toInt) (by omega)
        (by omega)
      have hwhole := hs.heap_whole
      exact hs.withHeapEnd (by omega) (by omega) (by omega)
    · rw [if_neg hroom]
      exact hs

/-- Keeping bounds does not depend on the registers that are not bounded. -/
theorem keeps_takeLine : Keeps (State.Bounded image first) takeLine :=
  keeps_modifyGet fun _ h => { h with }

theorem keeps_takeByte : Keeps (State.Bounded image first) takeByte :=
  keeps_modifyGet fun _ h => { h with }

theorem keeps_enter (label : String) : Keeps (State.Bounded image first) (enter label) :=
  keeps_modify fun _ h => { h with }

theorem keeps_leave : Keeps (State.Bounded image first) leave :=
  keeps_modify fun _ h => { h with }

theorem keeps_system (function : SystemFunction) (a : Word) :
    Keeps (State.Bounded image first) (system function (read a)) := by
  cases function with
  | exit => exact keeps_read a
  | getint =>
      refine keeps_bind keeps_takeLine fun line => ?_
      cases readInteger line with
      | ok value => exact keeps_pure value
      | error error => exact keeps_throw _
  | putint =>
      exact keeps_bind (keeps_read a) fun _ => keeps_bind (keeps_emit _) fun _ => keeps_pure _
  | getchr =>
      refine keeps_bind keeps_takeByte fun b => ?_
      cases b with
      | some b => exact keeps_pure _
      | none => exact keeps_pure _
  | putchr =>
      exact keeps_bind (keeps_read a) fun _ => keeps_bind (keeps_emit _) fun _ => keeps_pure _
  | putstr =>
      exact keeps_bind (keeps_read a) fun _ => keeps_bind (keeps_emitText _) fun _ => keeps_pure _
  | new => exact keeps_bind (keeps_read a) fun size => keeps_allocate size
  | del => exact keeps_pure _

/-- A result written below the top becomes the top. -/
theorem keeps_settle {a v : Word} {f : State → State} {x : Exec β}
    (hf : ∀ s, State.Bounded image first { s with sp := a } → State.Bounded image first (f s))
    (hx : Keeps (State.Bounded image first) x) :
    Keeps (State.Bounded image first) (write a v >>= fun _ => modify f >>= fun _ => x) := by
  refine keeps_write_bind fun s hs ha => ?_
  have hstop : a.toInt + 4 ≤ s.memory.size := ha.2
  have h := hx (f s) (hf s (hs.withSp ha.1 (by omega)))
  rwa [after, bind_ok (modify_run f s)]

theorem keeps_callSystem (function : SystemFunction) (frame : Frame) :
    Keeps (State.Bounded image first) (callSystem function frame) := by
  refine keeps_bind keeps_get fun s => keeps_bind (keeps_system function _) fun result => ?_
  dsimp only
  split
  · exact keeps_pure _
  · exact keeps_settle (fun _ h => h) (keeps_bind keeps_leave fun _ => keeps_pure _)

theorem keeps_call (target : Word) (frame : Frame) :
    Keeps (State.Bounded image first) (call image target frame) := by
  refine keeps_bind (keeps_enter _) fun _ => ?_
  split
  · exact keeps_callSystem _ frame
  · exact keeps_bind keeps_get fun s => keeps_bind (keeps_jump target) fun _ =>
      keeps_bind (keeps_modify fun _ h => { h with }) fun _ => keeps_bind (keeps_push _) fun _ =>
        keeps_bind (keeps_push _) fun _ => keeps_pure none

theorem keeps_ret (frame : Frame) : Keeps (State.Bounded image first) (ret image frame) := by
  refine keeps_bind keeps_pop fun kept => keeps_bind keeps_pop fun result =>
    keeps_bind keeps_get fun s => ?_
  dsimp only
  split
  · exact keeps_bind (keeps_throw _) fun _ => keeps_bind (keeps_read _) fun callerFrame =>
      keeps_bind (keeps_read _) fun returnAddress =>
        keeps_settle (fun _ h => { h with }) (keeps_bind keeps_leave fun _ => keeps_jump _)
  · exact keeps_bind (keeps_read _) fun callerFrame =>
      keeps_bind (keeps_read _) fun returnAddress =>
        keeps_settle (fun _ h => { h with }) (keeps_bind keeps_leave fun _ => keeps_jump _)

theorem keeps_operate (operator : Operator) :
    Keeps (State.Bounded image first) (operate operator) := by
  refine keeps_bind keeps_pop fun y => ?_
  dsimp only
  split
  · refine keeps_bind (keeps_pure 0) fun x => ?_
    split
    · exact keeps_push _
    · exact keeps_throw _
  · refine keeps_bind keeps_pop fun x => ?_
    split
    · exact keeps_push _
    · exact keeps_throw _

theorem keeps_copyWords (n : Nat) (source target : Word) :
    Keeps (State.Bounded image first) (copyWords n source target) := by
  induction n generalizing source target with
  | zero => exact keeps_pure target
  | succ n ih =>
      exact keeps_bind (keeps_read _) fun _ => keeps_bind (keeps_write _ _) fun _ => ih _ _

theorem keeps_copyRepeated (length : Nat) (source : Word) (n : Nat) (target : Word) :
    Keeps (State.Bounded image first) (copyRepeated length source n target) := by
  induction n generalizing target with
  | zero => exact keeps_pure target
  | succ n ih => exact keeps_bind (keeps_copyWords length source target) fun _ => ih _

theorem keeps_expandGroups (n : Nat) (source target : Word) :
    Keeps (State.Bounded image first) (expandGroups n source target) := by
  induction n generalizing source target with
  | zero => exact keeps_pure _
  | succ n ih =>
      exact keeps_bind (keeps_read _) fun _ => keeps_bind (keeps_read _) fun _ =>
        keeps_bind (keeps_copyRepeated _ _ _ _) fun _ => ih _ _

/-- No instruction leaves the bounds, however it is used. -/
theorem keeps_perform (i : Instruction) :
    Keeps (State.Bounded image first) (perform image i) := by
  have none' {x : Exec Unit} (hx : Keeps (State.Bounded image first) x) :
      Keeps (State.Bounded image first) (x >>= fun _ => (pure none : Exec (Option Word))) :=
    keeps_bind hx fun _ => keeps_pure none
  cases i with
  | label l => exact keeps_pure none
  | push v => exact none' (keeps_push v)
  | popn => exact keeps_bind keeps_pop fun n => none' (keeps_moveTop n)
  | regn register => exact keeps_bind keeps_get fun s => none' (keeps_push s.fp)
  | oper operator => exact none' (keeps_operate operator)
  | load =>
      exact keeps_bind keeps_pop fun a => keeps_bind (keeps_read a) fun v => none' (keeps_push v)
  | save =>
      exact keeps_bind keeps_pop fun a => keeps_bind keeps_pop fun v => none' (keeps_write a v)
  | name l =>
      simp only [perform]
      cases image.addressOf l with
      | ok a => exact none' (keeps_push a)
      | error kind => exact none' (keeps_throw kind)
  | call frame => exact keeps_bind keeps_pop fun target => keeps_call target frame
  | retn frame => exact none' (keeps_ret frame)
  | ujmp => exact keeps_bind keeps_pop fun target => none' (keeps_jump target)
  | cjmp =>
      exact keeps_bind keeps_pop fun negative => keeps_bind keeps_pop fun positive =>
        keeps_bind keeps_pop fun condition => none' (keeps_jump _)
  | init =>
      exact keeps_bind keeps_pop fun encoding => keeps_bind keeps_pop fun destination =>
        none' (keeps_bind (keeps_read _) fun groups => keeps_expandGroups _ _ _)

end

end Exec

theorem State.Bounded.step {image : Image} {first s : State}
    (hcode : image.Contiguous s.memory.dataStart) (h : State.Bounded image first s) :
    State.Bounded image first ((Exec.step image).after s) := by
  cases hfetch : image.fetch? s.pc with
  | none =>
      rw [Exec.after_error (Exec.step_of_fetch_none hfetch)]
      exact h
  | some i =>
      have hnext : State.Bounded image first (s.advanced i) :=
        { h with goes_on := hcode s.pc i hfetch }
      rw [Exec.after, Exec.step_eq hfetch]
      exact Exec.keeps_perform i _ hnext

/-- The states that a machine can come to: by steps that go well, fail or end the program, in one run
or in several. -/
inductive Reaches (image : Image) (s : State) : State → Prop
  | start : Reaches image s s
  | step {s' : State} (h : Reaches image s s') : Reaches image s ((Exec.step image).after s')

theorem State.Bounded.reaches {image : Image} {first s s' : State}
    (hcode : image.Contiguous s.memory.dataStart) (h : State.Bounded image first s)
    (hreaches : Reaches image s s') : State.Bounded image first s' := by
  induction hreaches with
  | start => exact h
  | step _ ih =>
      refine ih.step ?_
      rw [ih.dataStart_eq, ← h.dataStart_eq]
      exact hcode

/-- A run of any length ends in such a state, whatever its outcome. -/
theorem Reaches.runFor {image : Image} {s s' : State} (h : Reaches image s s') (n : Nat) :
    Reaches image s (runFor image n s').2 := by
  induction n generalizing s' with
  | zero => exact h
  | succ n ih =>
      have hstep := h.step
      rw [NestedFun.runFor]
      cases hrun : Exec.step image s' with
      | ok code s₁ =>
          rw [Exec.after_ok hrun] at hstep
          cases code with
          | none => exact ih hstep
          | some code => exact hstep
      | error kind s₁ =>
          rw [Exec.after_error hrun] at hstep
          exact hstep

section

variable {segments : Segments} {memorySize : Nat} {input : List UInt8} {output : Output}
  {image : Image} {s₀ s : State}

theorem Segments.Starts.bounded (h : segments.Starts memorySize image s)
    (hdata : 0 ≤ Data.size segments.data) : State.Bounded image s s := by
  have hcode := Code.size_nonneg segments.code
  have hroom := h.room
  have hlt := usableMemory_lt memorySize
  have hmod := usableMemory_mod memorySize
  have hsize := h.size_eq
  have hstart := h.dataStart_eq
  have hheap := h.toInt_heapEnd hdata
  have hsp : s.sp.toInt = usableMemory memorySize := by
    rw [h.sp_eq, Word.toInt_ofInt (by omega) (by omega)]
  refine ⟨rfl, by omega, rfl, fun _ _ => rfl, by omega, by omega, by omega, le_rfl, by omega,
    by omega, ?_⟩
  rw [h.pc_eq]
  obtain ⟨code, labels⟩ := image
  obtain rfl : code = (codeBytes segments.code).toArray := h.code_eq
  rcases codeBytes_head segments.code with hnil | ⟨i, hi⟩
  · right
    have hlength := length_codeBytes segments.code
    rw [hnil, List.length_nil] at hlength
    show (0 : Int) = _
    omega
  · left
    rw [Image.fetch?_codeBytes.mpr ⟨le_rfl, hi⟩]
    rfl

/-- A state of a machine that keeps to its places: the stack pointer between the code and the end of
the memory, the heap between the data and the end of the memory, the program counter at an
instruction or at the end of the code, and the code as it was at first. -/
structure Segments.Confines (segments : Segments) (memorySize : Nat) (image : Image)
    (first s : State) : Prop where
  code_le_sp : Code.size segments.code ≤ s.sp.toInt
  sp_le : s.sp.toInt ≤ usableMemory memorySize
  heap_whole : 4 ∣ s.heapEnd.toInt
  data_le_heap : (Code.size segments.code + Data.size segments.data + 3) / 4 * 4 ≤ s.heapEnd.toInt
  heap_le : s.heapEnd.toInt ≤ usableMemory memorySize
  at_instruction : (∃ entry ∈ segments.addressedCode, entry.2.item.size ≠ 0 ∧
      s.pc.toInt = entry.1 ∧ image.fetch? s.pc = some entry.2.item) ∨
    s.pc.toInt = Code.size segments.code
  size_eq : s.memory.size = usableMemory memorySize
  code_kept : ∀ i : Nat, i < Code.size segments.code → s.memory.byte i = first.memory.byte i

/-- Whatever code is loaded and however its steps end, the registers stay in their places, the heap
never shrinks, and nothing is written to the code. -/
theorem Segments.stays_confined (hsizes : ∀ d ∈ segments.data, 0 ≤ d.item.size)
    (hload : segments.load memorySize input output = .ok (image, s₀)) (h : Reaches image s₀ s) :
    segments.Confines memorySize image s₀ s ∧
      ∀ s', Reaches image s s' → s.heapEnd.toInt ≤ s'.heapEnd.toInt := by
  have hdata : 0 ≤ Data.size segments.data :=
    List.sum_nonneg (by simpa using hsizes)
  have hstarts := Segments.load_starts hload
  have hcode := hstarts.contiguous hdata
  have hfirst := hstarts.bounded hdata
  have hs := hfirst.reaches hcode h
  have hcode' : image.Contiguous s.memory.dataStart := by rwa [hs.dataStart_eq]
  refine ⟨?_, fun s' h' => (hs.self.reaches hcode' h').heap_grows⟩
  have hstart := hstarts.dataStart_eq
  have hsize := hstarts.size_eq
  have hheap := hstarts.toInt_heapEnd hdata
  have hstart' := hs.dataStart_eq
  have hsize' := hs.size_eq
  have hlow := hs.start_le_sp
  have hhigh := hs.sp_le
  have hgrows := hs.heap_grows
  have hheapLe := hs.heap_le
  refine ⟨by omega, by omega, hs.heap_whole, by omega, by omega, ?_, by omega,
    fun i hi => hs.code_eq i (by omega)⟩
  rcases hs.goes_on with hlive | hend
  · obtain ⟨i, hi⟩ := Option.isSome_iff_exists.mp hlive
    exact .inl (hstarts.addressed_of_fetch hi)
  · right
    omega

end

/-- A return without a frame, then a jump back to it. -/
def lostReturn : Segments :=
  ⟨Code.spanning .nowhere
    [.push 8, .push 4, .label "f", .retn ⟨"f", "f", 1, 4, 8⟩, .push 7, .name "f", .ujmp],
    Data.spanning .nowhere [.label "x", .reserve 4 (some ⟨[1, 2, 1, 5]⟩)]⟩

theorem lostReturn_loads : ∃ image s₀, lostReturn.load 61 [] {} = .ok (image, s₀) ∧
    (runFor image 9 s₀).1 = .faulted ⟨.frameMismatch "f" 52 60, []⟩ ∧
    (runFor image 9 (runFor image 9 s₀).2).1 = .faulted ⟨.invalidAddress 60, []⟩ := by
  have hchecks : (lostReturn.load 61 [] {}).toOption.any (fun r => decide
      ((runFor r.1 9 r.2).1 = .faulted ⟨.frameMismatch "f" 52 60, []⟩ ∧
        (runFor r.1 9 (runFor r.1 9 r.2).2).1 = .faulted ⟨.invalidAddress 60, []⟩)) = true := by
    decide +kernel
  cases hload : lostReturn.load 61 [] {} with
  | error error =>
      rw [hload] at hchecks
      cases hchecks
  | ok r =>
      rw [hload] at hchecks
      obtain ⟨hfirst, hsecond⟩ := of_decide_eq_true hchecks
      exact ⟨r.1, r.2, rfl, hfirst, hsecond⟩

/-- A run that fails, and a second one that goes on behind the failure and fails again. -/
theorem Segments.stays_confined_sample : ∃ image s₀,
    lostReturn.load 61 [] {} = .ok (image, s₀) ∧
    (runFor image 9 s₀).1 = .faulted ⟨.frameMismatch "f" 52 60, []⟩ ∧
    (∀ d ∈ lostReturn.data, 0 ≤ d.item.size) ∧
    Reaches image s₀ (runFor image 9 (runFor image 9 s₀).2).2 ∧
    lostReturn.Confines 61 image s₀ (runFor image 9 (runFor image 9 s₀).2).2 ∧
    ∀ s', Reaches image (runFor image 9 (runFor image 9 s₀).2).2 s' →
      (runFor image 9 (runFor image 9 s₀).2).2.heapEnd.toInt ≤ s'.heapEnd.toInt := by
  obtain ⟨image, s₀, hload, hfirst, -⟩ := lostReturn_loads
  have hsizes : ∀ d ∈ lostReturn.data, 0 ≤ d.item.size := by decide
  have hreaches : Reaches image s₀ (runFor image 9 (runFor image 9 s₀).2).2 :=
    (Reaches.start.runFor 9).runFor 9
  exact ⟨image, s₀, hload, hfirst, hsizes, hreaches,
    Segments.stays_confined hsizes hload hreaches⟩

end NestedFun
