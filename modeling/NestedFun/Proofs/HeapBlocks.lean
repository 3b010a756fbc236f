import NestedFun.Proofs.RegisterBounds

namespace NestedFun

/-!
# Blocks of the heap

Along a run of any loaded segments, `new` gives out blocks that stand apart from one another between
the data and the stack. What is pushed later on is written to none of them: where the stack would
meet the heap, the push fails and changes nothing.
-/

/-- The start of a call: the address is taken from the stack, and its function becomes active. -/
def Exec.called (frame : Frame) : Exec Word := do
  let target ← pop
  enter frame.label
  return target

/-- A block of the heap: where it starts, how many bytes were asked for, and where the stack ended
at that time. -/
structure HeapBlock where
  start : Word
  size : Word
  top : Word
deriving DecidableEq

def HeapBlock.Covers (block : HeapBlock) (i : Int) : Prop :=
  block.start.toInt ≤ i ∧ i < block.start.toInt + block.size.toInt

/-- A block starts at a word behind the data and ends below the stack of the time when it was given
out. -/
structure HeapBlock.Stands (segments : Segments) (block : HeapBlock) : Prop where
  whole : 4 ∣ block.start.toInt
  data_le : Code.size segments.code + Data.size segments.data ≤ block.start.toInt
  size_nonneg : 0 ≤ block.size.toInt
  le_top : block.start.toInt + block.size.toInt ≤ block.top.toInt

namespace State

/-- The next instruction calls `new`: the number of bytes that it asks for, and the state in which
room is looked for. -/
def request? (image : Image) (s : State) : Option (Word × State) :=
  match image.fetch? s.pc with
  | some (.call frame) =>
    match Exec.called frame (s.advanced (.call frame)) with
    | .ok target t =>
      if SystemFunction.ofAddress? target = some .new then
        match Exec.read (t.sp + 4) t with
        | .ok size t => some (size, t)
        | .error _ _ => none
      else none
    | .error _ _ => none
  | _ => none

def block? (image : Image) (s : State) : Option HeapBlock :=
  (s.request? image).bind fun (size, t) =>
    match Exec.allocate size t with
    | .ok start _ => some ⟨start, size, t.sp⟩
    | .error _ _ => none

/-- There is no room for a number of bytes: it is negative, it is no word when it is rounded up to
whole words, or the stack ends too low. -/
def Lacks (t : State) (size : Word) : Prop :=
  size.toInt < 0 ∨ 2147483648 ≤ (size.toInt + 3) / 4 * 4 ∨
    t.sp.toInt < t.heapEnd.toInt + (size.toInt + 3) / 4 * 4

instance (t : State) (size : Word) : Decidable (t.Lacks size) :=
  inferInstanceAs (Decidable (_ ∨ _))

/-- In the next step the machine comes to push a word, in some state within the step: the operand of
an instruction, or one of the two words of a call's header. -/
inductive Pushing (image : Image) (s : State) : Word → State → Prop
  | push {v : Word} (h : image.fetch? s.pc = some (.push v)) :
      Pushing image s v (s.advanced (.push v))
  | regn (h : image.fetch? s.pc = some (.regn .framePointer)) :
      Pushing image s s.fp (s.advanced (.regn .framePointer))
  | name {l : String} {a : Word} (h : image.fetch? s.pc = some (.name l))
      (hl : image.addressOf l = .ok a) : Pushing image s a (s.advanced (.name l))
  | oper {o : Operator} {x y r : Word} {t t' : State} (h : image.fetch? s.pc = some (.oper o))
      (hy : Exec.pop (s.advanced (.oper o)) = .ok y t)
      (hx : (if o.isUnary then pure 0 else Exec.pop : Exec Word) t = .ok x t')
      (hr : o.apply x y = .ok r) : Pushing image s r t'
  | load {a v : Word} {t : State} (h : image.fetch? s.pc = some .load)
      (ha : Exec.pop (s.advanced .load) = .ok a t) (hv : Exec.read a t = .ok v t) :
      Pushing image s v t
  | callerFrame {frame : Frame} {target : Word} {t t' : State}
      (h : image.fetch? s.pc = some (.call frame))
      (hcalled : Exec.called frame (s.advanced (.call frame)) = .ok target t)
      (htarget : SystemFunction.ofAddress? target = none)
      (hjump : Exec.jump image target t = .ok () t') :
      Pushing image s s.fp { t' with fp := t'.sp }
  | returnAddress {frame : Frame} {target : Word} {t t' t'' : State}
      (h : image.fetch? s.pc = some (.call frame))
      (hcalled : Exec.called frame (s.advanced (.call frame)) = .ok target t)
      (htarget : SystemFunction.ofAddress? target = none)
      (hjump : Exec.jump image target t = .ok () t')
      (hpush : Exec.push s.fp { t' with fp := t'.sp } = .ok () t'') :
      Pushing image s (s.advanced (.call frame)).pc t''

end State

namespace State

def afterSteps (image : Image) (s : State) : Nat → State
  | 0 => s
  | n + 1 => (Exec.step image).after (s.afterSteps image n)

def blocksAfter (image : Image) (s : State) : Nat → List HeapBlock
  | 0 => []
  | n + 1 => ((s.afterSteps image n).block? image).toList ++ s.blocksAfter image n

theorem reaches_afterSteps (image : Image) (s : State) (n : Nat) :
    Reaches image s (s.afterSteps image n) := by
  induction n with
  | zero => exact .start
  | succ n ih => exact ih.step

/-- A push in the next step: it fails exactly if the stack would grow into the heap, it changes
nothing then, and it never changes a byte of the blocks. -/
structure PushesBeside (image : Image) (blocks : List HeapBlock) (s : State) (v : Word)
    (t : State) : Prop where
  fails_iff : (∃ kind t', Exec.push v t = .error kind t') ↔ t.sp.toInt - 4 < t.heapEnd.toInt
  failure : ∀ kind t', Exec.push v t = .error kind t' →
    kind = .stackOverflow (t.sp - 4) t.heapEnd ∧ t' = t ∧ Exec.step image s = .error kind t
  kept : ∀ block ∈ blocks, ∀ i : Nat, block.Covers i →
    ((Exec.push v).after t).memory.byte i = t.memory.byte i ∧
      ((Exec.step image).after s).memory.byte i = s.memory.byte i

/-- A call of `new` in the next step: it fails exactly if there is no room, and then the heap stays
as it is. Otherwise it gives out a block, whose address is the result of the call. -/
structure LooksForRoom (image : Image) (s : State) (size : Word) (t : State) : Prop where
  heap_eq : t.heapEnd = s.heapEnd
  fails_iff : (∃ t', Exec.step image s = .error (.outOfMemory size) t') ↔ t.Lacks size
  failure : t.Lacks size → Exec.step image s = .error (.outOfMemory size) t
  gives : ¬ t.Lacks size → s.block? image = some ⟨s.heapEnd, size, t.sp⟩
  returns : ¬ t.Lacks size → ∀ frame, image.fetch? s.pc = some (.call frame) →
    t.memory.Holds (t.sp + .ofInt (frame.parametersSize - linkSize)) →
    ∃ u, Exec.step image s = .ok none u ∧ u.memory.read u.sp = .ok s.heapEnd

end State

/-! ## Looking for room -/

namespace Exec

variable {s t : State} {size : Word}

theorem allocate_of_lacks (h : t.Lacks size) :
    allocate size t = .error (.outOfMemory size) t := by
  rw [allocate]
  by_cases hbad : (size < 0 || !fitsWord (size.toInt + 3)) = true
  · rw [if_pos hbad]
  · rw [if_neg hbad]
    simp only [Bool.or_eq_true, Bool.not_eq_true', decide_eq_true_eq, not_or,
      Bool.not_eq_false, fitsWord_iff] at hbad
    have hnonneg : 0 ≤ size.toInt := Int32.le_iff_toInt_le.mp (Int32.not_lt.mp hbad.1)
    have hsize := Word.toInt_alignUp hnonneg (by omega)
    rcases h with h | h | h
    · omega
    · omega
    · dsimp only
      rw [if_neg (by omega)]

theorem allocate_of_not_lacks (h : ¬ t.Lacks size) :
    allocate size t = .ok t.heapEnd
      { t with heapEnd := .ofInt (t.heapEnd.toInt + (size.toInt + 3) / 4 * 4) } := by
  simp only [State.Lacks, not_or, not_lt, not_le] at h
  obtain ⟨hnonneg, hfits, hroom⟩ := h
  have hsize := Word.toInt_alignUp hnonneg (by omega)
  have hbad : ¬ (size < 0 || !fitsWord (size.toInt + 3)) = true := by
    simp only [Bool.or_eq_true, Bool.not_eq_true', decide_eq_true_eq, not_or,
      Bool.not_eq_false, fitsWord_iff]
    exact ⟨Int32.not_lt.mpr (Int32.le_iff_toInt_le.mpr hnonneg), by omega, by omega⟩
  rw [allocate, if_neg hbad]
  dsimp only
  rw [hsize, if_pos hroom]

theorem called_ok {frame : Frame} {target : Word} (h : called frame s = .ok target t) :
    ∃ p, pop s = .ok target p ∧ enter frame.label p = .ok () t := by
  obtain ⟨v, p, hpop, hrest⟩ := of_bind_ok h
  obtain ⟨_, p', henter, hlast⟩ := of_bind_ok hrest
  cases hlast
  exact ⟨p, hpop, henter⟩

theorem called_eq {frame : Frame} {target : Word} (h : called frame s = .ok target t) :
    t = { s with sp := s.sp + 4, callStack := frame.label :: s.callStack } := by
  obtain ⟨p, hpop, henter⟩ := called_ok h
  obtain rfl := pop_ok hpop
  cases henter
  rfl

/-- A call goes on with what the address stands for. -/
theorem perform_called {image : Image} {frame : Frame} {target : Word}
    (h : called frame s = .ok target t) :
    (∀ function, SystemFunction.ofAddress? target = some function →
      perform image (.call frame) s = callSystem function frame t) ∧
    (SystemFunction.ofAddress? target = none → ∀ t', jump image target t = .ok () t' →
      perform image (.call frame) s
        = (push t.fp >>= fun _ => push t.pc >>= fun _ => pure none : Exec (Option Word))
          { t' with fp := t'.sp }) := by
  obtain ⟨p, hpop, henter⟩ := called_ok h
  have hcall : perform image (.call frame) s = call image target frame p := bind_ok hpop
  rw [hcall, call, bind_ok henter]
  constructor
  · intro function hfunction
    simp only [hfunction]
  · intro hnone t' hjump
    simp only [hnone]
    rw [bind_ok (get_run t), bind_ok hjump, bind_ok (modify_run _ _)]

/-- The return of a system function: its result takes the place of link and arguments. -/
def settle (frame : Frame) (top result : Word) : Exec (Option Word) := do
  write (top + .ofInt (frame.parametersSize - linkSize)) result
  modify fun s => { s with sp := top + .ofInt (frame.parametersSize - linkSize) }
  leave
  return none

theorem settle_of_holds {frame : Frame} {top : Word} (result : Word)
    (h : s.memory.Holds (top + .ofInt (frame.parametersSize - linkSize))) :
    settle frame top result s = .ok none
      { s with
        memory := s.memory.setWord
          (top + Word.ofInt (frame.parametersSize - linkSize)).toInt.toNat result
        sp := top + .ofInt (frame.parametersSize - linkSize)
        callStack := s.callStack.tail } := by
  have hwrite : write (top + .ofInt (frame.parametersSize - linkSize)) result s = .ok () { s with
      memory := s.memory.setWord
        (top + Word.ofInt (frame.parametersSize - linkSize)).toInt.toNat result } := by
    rw [write, if_pos h]
  rw [settle, bind_ok hwrite, bind_ok (modify_run _ _), leave, bind_ok (modify_run _ _)]
  rfl

theorem settle_of_not_holds {frame : Frame} {top : Word} (result : Word)
    (h : ¬ s.memory.Holds (top + .ofInt (frame.parametersSize - linkSize))) :
    settle frame top result s
      = .error (.invalidAddress (top + .ofInt (frame.parametersSize - linkSize))) s := by
  have hwrite : write (top + .ofInt (frame.parametersSize - linkSize)) result s
      = .error (.invalidAddress (top + .ofInt (frame.parametersSize - linkSize))) s := by
    rw [write, if_neg h]
  exact bind_error hwrite

theorem settle_heapEnd (frame : Frame) (top result : Word) (s : State) :
    ((settle frame top result).after s).heapEnd = s.heapEnd := by
  by_cases h : s.memory.Holds (top + .ofInt (frame.parametersSize - linkSize))
  · rw [after_ok (settle_of_holds result h)]
  · rw [after_error (settle_of_not_holds result h)]

theorem settle_not_outOfMemory (frame : Frame) (top result size : Word) (s s' : State) :
    settle frame top result s ≠ .error (.outOfMemory size) s' := by
  by_cases h : s.memory.Holds (top + .ofInt (frame.parametersSize - linkSize))
  · rw [settle_of_holds result h]
    intro heq
    cases heq
  · rw [settle_of_not_holds result h]
    intro heq
    cases heq

theorem settle_returns {frame : Frame} {top : Word} (result : Word)
    (h : s.memory.Holds (top + .ofInt (frame.parametersSize - linkSize))) :
    ∃ u, settle frame top result s = .ok none u ∧ u.memory.read u.sp = .ok result := by
  refine ⟨_, settle_of_holds result h, ?_⟩
  have hstart := h.1
  have hstop := h.2
  simp only [wordSize] at hstop
  rw [Memory.read, if_pos ⟨h.1, by simpa using h.2⟩, Memory.getWord_setWord_same _ _ (by omega)]

end Exec

/-! ## Calls of `new` -/

section

variable {image : Image} {s t : State} {size : Word}

theorem State.request?_ok (h : s.request? image = some (size, t)) :
    ∃ frame target, image.fetch? s.pc = some (.call frame) ∧
      Exec.called frame (s.advanced (.call frame)) = .ok target t ∧
      SystemFunction.ofAddress? target = some .new ∧ Exec.read (t.sp + 4) t = .ok size t := by
  rw [request?] at h
  split at h
  · rename_i frame hfetch
    split at h
    · rename_i target t' hcalled
      split at h
      · rename_i htarget
        split at h
        · rename_i size' t'' hread
          obtain rfl := Exec.read_ok hread
          cases h
          exact ⟨frame, target, hfetch, hcalled, htarget, hread⟩
        · cases h
      · cases h
    · cases h
  · cases h

/-- A call of `new` looks for room and returns what it has found. -/
theorem Exec.step_request (h : s.request? image = some (size, t)) :
    ∃ frame, image.fetch? s.pc = some (.call frame) ∧
      Exec.step image s = (Exec.allocate size >>= Exec.settle frame t.sp) t := by
  obtain ⟨frame, target, hfetch, hcalled, htarget, hread⟩ := State.request?_ok h
  refine ⟨frame, hfetch, ?_⟩
  rw [Exec.step_eq hfetch, (Exec.perform_called hcalled).1 _ htarget, Exec.callSystem,
    Exec.bind_ok (Exec.get_run t)]
  have hsystem : Exec.system .new (Exec.read (t.sp + 4)) t = Exec.allocate size t :=
    Exec.bind_ok hread
  cases hallocate : Exec.allocate size t with
  | ok start t' =>
      rw [Exec.bind_ok (hsystem.trans hallocate), Exec.bind_ok hallocate]
      rfl
  | error kind t' =>
      rw [Exec.bind_error (hsystem.trans hallocate), Exec.bind_error hallocate]

theorem State.block?_of_request (h : s.request? image = some (size, t)) :
    s.block? image = if t.Lacks size then none else some ⟨t.heapEnd, size, t.sp⟩ := by
  rw [block?, h]
  by_cases hroom : t.Lacks size
  · rw [if_pos hroom]
    simp only [Option.bind_some, Exec.allocate_of_lacks hroom]
  · rw [if_neg hroom]
    simp only [Option.bind_some, Exec.allocate_of_not_lacks hroom]

theorem State.looksForRoom (h : s.request? image = some (size, t)) :
    s.LooksForRoom image size t := by
  obtain ⟨frame, target, hfetch, hcalled, -, -⟩ := State.request?_ok h
  obtain ⟨frame', hfetch', hstep⟩ := Exec.step_request h
  obtain rfl : frame = frame' := by
    rw [hfetch] at hfetch'
    cases hfetch'
    rfl
  have hheap : t.heapEnd = s.heapEnd := by rw [Exec.called_eq hcalled]; rfl
  have hfails : t.Lacks size → Exec.step image s = .error (.outOfMemory size) t := fun hroom =>
    hstep.trans (Exec.bind_error (Exec.allocate_of_lacks hroom))
  refine ⟨hheap, ⟨?_, fun hroom => ⟨t, hfails hroom⟩⟩, hfails, fun hroom => ?_,
    fun hroom frame' hfetch' hholds => ?_⟩
  · rintro ⟨t', herror⟩
    by_contra hroom
    rw [hstep, Exec.bind_ok (Exec.allocate_of_not_lacks hroom)] at herror
    exact Exec.settle_not_outOfMemory _ _ _ _ _ _ herror
  · rw [State.block?_of_request h, if_neg hroom, hheap]
  · rw [hfetch] at hfetch'
    cases hfetch'
    rw [hstep, Exec.bind_ok (Exec.allocate_of_not_lacks hroom), ← hheap]
    exact Exec.settle_returns t.heapEnd hholds

/-- Where a block is given out the heap ends behind it afterwards. -/
theorem State.block?_spec {block : HeapBlock} (h : s.block? image = some block) :
    ∃ t, s.request? image = some (block.size, t) ∧ ¬ t.Lacks block.size ∧
      block.start = s.heapEnd ∧ block.top = t.sp ∧
      ((Exec.step image).after s).heapEnd
        = .ofInt (s.heapEnd.toInt + (block.size.toInt + 3) / 4 * 4) := by
  cases hrequest : s.request? image with
  | none =>
      rw [block?, hrequest] at h
      cases h
  | some request =>
      obtain ⟨size, t⟩ := request
      have hheap := (looksForRoom hrequest).heap_eq
      rw [block?_of_request hrequest] at h
      split at h
      · cases h
      · rename_i hroom
        cases h
        obtain ⟨frame, -, hstep⟩ := Exec.step_request hrequest
        refine ⟨t, rfl, hroom, hheap, rfl, ?_⟩
        rw [Exec.after, hstep, Exec.bind_ok (Exec.allocate_of_not_lacks hroom)]
        exact (Exec.settle_heapEnd frame t.sp t.heapEnd _).trans (by rw [← hheap])

end

/-! ## Pushing -/

section

variable {image : Image} {first s t : State} {v : Word}

def State.Beside (heapEnd : Word) (memory : Memory) (s : State) : Prop :=
  s.heapEnd = heapEnd ∧ ∀ i : Nat, (i : Int) < heapEnd.toInt → s.memory.byte i = memory.byte i

namespace Exec

variable {heapEnd : Word} {memory : Memory}

theorem keeps_beside_push (v : Word) : Keeps (State.Beside heapEnd memory) (push v) := by
  rintro s ⟨rfl, hs⟩
  simp only [after, push]
  by_cases hroom : s.sp - 4 < s.heapEnd
  · rw [if_pos hroom]
    exact ⟨rfl, hs⟩
  · rw [if_neg hroom]
    rw [Int32.lt_iff_toInt_lt, not_lt] at hroom
    by_cases ha : s.memory.Holds (s.sp - 4)
    · rw [if_pos ha]
      exact ⟨rfl, fun i hi =>
        (s.memory.byte_setWord_of_outside v (.inl (by omega))).trans (hs i hi)⟩
    · rw [if_neg ha]
      exact ⟨rfl, hs⟩

/-- A push fails exactly where the stack would grow into the heap. -/
theorem push_of_bounded (h : State.Bounded image first t) (v : Word) :
    (t.sp.toInt - 4 < t.heapEnd.toInt ∧
        push v t = .error (.stackOverflow (t.sp - 4) t.heapEnd) t) ∨
      (t.heapEnd.toInt ≤ t.sp.toInt - 4 ∧ ∃ t', push v t = .ok () t') := by
  have hlow := h.start_le_sp
  have hhigh := h.sp_le
  have hlt := h.size_lt
  have hheap := h.start_le_heap
  have hsp : (t.sp - 4).toInt = t.sp.toInt - 4 := by
    rw [← Word.ofInt_toInt t.sp, Word.ofInt_sub_four, Word.toInt_ofInt (by omega) (by omega),
      Word.ofInt_toInt]
  by_cases hroom : t.sp - 4 < t.heapEnd
  · left
    simp only [push, if_pos hroom]
    rw [Int32.lt_iff_toInt_lt, hsp] at hroom
    exact ⟨hroom, trivial⟩
  · right
    have hholds : t.memory.Holds (t.sp - 4) := by
      rw [Int32.lt_iff_toInt_lt, hsp] at hroom
      exact ⟨by omega, by simp only [wordSize]; omega⟩
    simp only [push, if_neg hroom, if_pos hholds]
    rw [Int32.lt_iff_toInt_lt, hsp, not_lt] at hroom
    exact ⟨hroom, _, rfl⟩

end Exec

namespace State.Pushing

/-- From the push on, the step pushes at most one more word. -/
theorem step_eq (h : s.Pushing image v t) : ∃ rest : Exec (Option Word),
    (rest = pure none ∨ ∃ w, rest = (Exec.push w >>= fun _ => pure none)) ∧
      Exec.step image s = (Exec.push v >>= fun _ => rest) t := by
  cases h with
  | push h => exact ⟨pure none, .inl rfl, Exec.step_eq h⟩
  | regn h => exact ⟨pure none, .inl rfl, Exec.step_eq h⟩
  | name h hl =>
      refine ⟨pure none, .inl rfl, (Exec.step_eq h).trans ?_⟩
      simp only [Exec.perform, hl]
  | @oper o x y r t₁ _ h hy hx hr =>
      refine ⟨pure none, .inl rfl, (Exec.step_eq h).trans ?_⟩
      have hoperate : Exec.operate o (s.advanced (.oper o)) = Exec.push v t := by
        rw [Exec.operate, Exec.bind_ok hy]
        cases ho : o.isUnary with
        | true =>
            rw [ho] at hx
            rw [if_pos rfl] at hx ⊢
            refine (Exec.bind_ok hx).trans ?_
            simp only [hr]
        | false =>
            rw [ho] at hx
            rw [if_neg Bool.false_ne_true] at hx ⊢
            refine (Exec.bind_ok hx).trans ?_
            simp only [hr]
      rw [Exec.perform]
      cases hpush : Exec.push v t with
      | ok u t' => rw [Exec.bind_ok (hoperate.trans hpush), Exec.bind_ok hpush]
      | error kind t' => rw [Exec.bind_error (hoperate.trans hpush), Exec.bind_error hpush]
  | load h ha hv =>
      refine ⟨pure none, .inl rfl, (Exec.step_eq h).trans ?_⟩
      rw [Exec.perform, Exec.bind_ok ha, Exec.bind_ok hv]
  | @callerFrame frame _ _ _ h hcalled htarget hjump =>
      refine ⟨Exec.push (s.advanced (.call frame)).pc >>= fun _ => pure none, .inr ⟨_, rfl⟩,
        (Exec.step_eq h).trans ?_⟩
      rw [(Exec.perform_called hcalled).2 htarget _ hjump, Exec.called_eq hcalled]
      rfl
  | returnAddress h hcalled htarget hjump hpush =>
      refine ⟨pure none, .inl rfl, (Exec.step_eq h).trans ?_⟩
      rw [(Exec.perform_called hcalled).2 htarget _ hjump, Exec.called_eq hcalled]
      exact Exec.bind_ok hpush

/-- Up to the push the memory and the heap stay as they are, or as they are behind the first word
of a header. -/
theorem beside (h : s.Pushing image v t) : State.Beside s.heapEnd s.memory t := by
  cases h with
  | push h => exact ⟨rfl, fun _ _ => rfl⟩
  | regn h => exact ⟨rfl, fun _ _ => rfl⟩
  | name h hl => exact ⟨rfl, fun _ _ => rfl⟩
  | @oper o x y r t₁ _ h hy hx hr =>
      obtain rfl := Exec.pop_ok hy
      split at hx
      · cases hx
        exact ⟨rfl, fun _ _ => rfl⟩
      · obtain rfl := Exec.pop_ok hx
        exact ⟨rfl, fun _ _ => rfl⟩
  | load h ha hv =>
      obtain rfl := Exec.pop_ok ha
      exact ⟨rfl, fun _ _ => rfl⟩
  | callerFrame h hcalled htarget hjump =>
      rw [Exec.jump_ok hjump, Exec.called_eq hcalled]
      exact ⟨rfl, fun _ _ => rfl⟩
  | returnAddress h hcalled htarget hjump hpush =>
      rw [Exec.jump_ok hjump, Exec.called_eq hcalled] at hpush
      rw [← Exec.after_ok hpush]
      exact Exec.keeps_beside_push _ _ ⟨rfl, fun _ _ => rfl⟩

theorem bounded (h : s.Pushing image v t) (hs : State.Bounded image first s)
    (hcode : image.Contiguous s.memory.dataStart) : State.Bounded image first t := by
  have hadvanced : ∀ i, image.fetch? s.pc = some i → State.Bounded image first (s.advanced i) :=
    fun i hi => { hs with goes_on := hcode s.pc i hi }
  have hcalledBounded : ∀ {frame : Frame} {target : Word} {t t' : State},
      image.fetch? s.pc = some (.call frame) →
      Exec.called frame (s.advanced (.call frame)) = .ok target t →
      Exec.jump image target t = .ok () t' →
      State.Bounded image first { t' with fp := t'.sp } := by
    intro frame target t t' h hcalled hjump
    have hkeeps : Exec.Keeps (State.Bounded image first) (Exec.called frame) :=
      Exec.keeps_bind Exec.keeps_pop fun _ => Exec.keeps_bind (Exec.keeps_enter _) fun _ =>
        Exec.keeps_pure _
    have ht := hkeeps _ (hadvanced _ h)
    rw [Exec.after_ok hcalled] at ht
    have ht' := Exec.keeps_jump target _ ht
    rw [Exec.after_ok hjump] at ht'
    exact { ht' with }
  cases h with
  | push h => exact hadvanced _ h
  | regn h => exact hadvanced _ h
  | name h hl => exact hadvanced _ h
  | @oper o x y r t₁ _ h hy hx hr =>
      have ht₁ := Exec.keeps_pop _ (hadvanced _ h)
      rw [Exec.after_ok hy] at ht₁
      split at hx
      · cases hx
        exact ht₁
      · have ht := Exec.keeps_pop _ ht₁
        rwa [Exec.after_ok hx] at ht
  | load h ha hv =>
      have ht := Exec.keeps_pop _ (hadvanced _ h)
      rwa [Exec.after_ok ha] at ht
  | callerFrame h hcalled htarget hjump => exact hcalledBounded h hcalled hjump
  | returnAddress h hcalled htarget hjump hpush =>
      have ht := Exec.keeps_push s.fp _ (hcalledBounded h hcalled hjump)
      rwa [Exec.after_ok hpush] at ht

/-- A push goes beside the blocks if these end below the heap. -/
theorem pushesBeside {blocks : List HeapBlock} (h : s.Pushing image v t)
    (hs : State.Bounded image first s) (hcode : image.Contiguous s.memory.dataStart)
    (hblocks : ∀ block ∈ blocks, block.start.toInt + block.size.toInt ≤ s.heapEnd.toInt) :
    s.PushesBeside image blocks v t := by
  obtain ⟨rest, hrest, hstep⟩ := h.step_eq
  have hbeside := h.beside
  refine ⟨?_, ?_, fun block hblock i hi => ?_⟩
  · rcases Exec.push_of_bounded (h.bounded hs hcode) v with ⟨hroom, herror⟩ | ⟨hroom, t', hok⟩
    · exact ⟨fun _ => hroom, fun _ => ⟨_, _, herror⟩⟩
    · refine ⟨?_, fun hover => by omega⟩
      rintro ⟨kind, t'', herror⟩
      rw [hok] at herror
      cases herror
  · intro kind t' herror
    rcases Exec.push_of_bounded (h.bounded hs hcode) v with ⟨-, herror'⟩ | ⟨-, t'', hok⟩
    · rw [herror'] at herror
      cases herror
      exact ⟨rfl, rfl, hstep.trans (Exec.bind_error herror')⟩
    · rw [hok] at herror
      cases herror
  · have hbelow : (i : Int) < s.heapEnd.toInt := hi.2.trans_le (hblocks block hblock)
    have hpush := Exec.keeps_beside_push v t hbeside
    have hrestKeeps : Exec.Keeps (State.Beside s.heapEnd s.memory) rest := by
      rcases hrest with rfl | ⟨w, rfl⟩
      · exact Exec.keeps_pure _
      · exact Exec.keeps_bind (Exec.keeps_beside_push w) fun _ => Exec.keeps_pure _
    have hafter := Exec.keeps_bind (Exec.keeps_beside_push v) (fun _ => hrestKeeps) t hbeside
    refine ⟨(hpush.2 i hbelow).trans (hbeside.2 i hbelow).symm, ?_⟩
    rw [Exec.after, hstep]
    exact hafter.2 i hbelow

end State.Pushing

end

/-! ## Whole runs -/

section

variable {segments : Segments} {memorySize : Nat} {input : List UInt8} {output : Output}
  {image : Image} {s₀ : State}

theorem Segments.Starts.bounded_after (h : segments.Starts memorySize image s₀)
    (hdata : 0 ≤ Data.size segments.data) (n : Nat) :
    State.Bounded image s₀ (s₀.afterSteps image n) ∧
      image.Contiguous (s₀.afterSteps image n).memory.dataStart := by
  have hcode := h.contiguous hdata
  have hs := (h.bounded hdata).reaches hcode (s₀.reaches_afterSteps image n)
  exact ⟨hs, hs.dataStart_eq ▸ hcode⟩

/-- The blocks stand below the end of the heap, and each behind those given out before. -/
theorem Segments.Starts.blocks (h : segments.Starts memorySize image s₀)
    (hdata : 0 ≤ Data.size segments.data) (n : Nat) :
    (∀ block ∈ s₀.blocksAfter image n, block.Stands segments ∧
      block.start.toInt + block.size.toInt ≤ (s₀.afterSteps image n).heapEnd.toInt) ∧
    (s₀.blocksAfter image n).Pairwise fun later earlier =>
      earlier.start.toInt + earlier.size.toInt ≤ later.start.toInt := by
  induction n with
  | zero => exact ⟨nofun, .nil⟩
  | succ n ih =>
      obtain ⟨hall, hpairwise⟩ := ih
      obtain ⟨hs, hcode⟩ := h.bounded_after hdata n
      have hgrows := (hs.self.step hcode).heap_grows
      rw [State.blocksAfter, State.afterSteps]
      cases hblock : (s₀.afterSteps image n).block? image with
      | none => exact ⟨fun block hmem => ⟨(hall block hmem).1, (hall block hmem).2.trans hgrows⟩,
          hpairwise⟩
      | some block =>
          obtain ⟨t, hrequest, hroom, hstart, htop, hheap⟩ := State.block?_spec hblock
          have heq := (State.looksForRoom hrequest).heap_eq
          simp only [State.Lacks, not_or, not_lt, not_le] at hroom
          have hfirst := h.toInt_heapEnd hdata
          have hstop := hs.heap_grows
          have hlow := hs.start_le_heap
          have hwhole := hs.heap_whole
          have htopLt := t.sp.toInt_lt
          rw [heq] at hroom
          rw [hheap, Word.toInt_ofInt (by omega) (by omega)] at hgrows ⊢
          rw [Option.toList_some, List.singleton_append, List.forall_mem_cons, List.pairwise_cons]
          refine ⟨⟨⟨⟨?_, ?_, hroom.1, ?_⟩, ?_⟩, fun block' hmem => ?_⟩, fun block' hmem => ?_, hpairwise⟩
          · rw [hstart]
            exact hwhole
          · rw [hstart]
            omega
          · rw [hstart, htop]
            omega
          · rw [hstart]
            omega
          · exact ⟨(hall block' hmem).1, (hall block' hmem).2.trans hgrows⟩
          · rw [hstart]
            exact (hall block' hmem).2

/-- What holds of the blocks that were given out on the way to a state, and of its next step. -/
structure Segments.KeepsBlocks (segments : Segments) (image : Image) (blocks : List HeapBlock)
    (s : State) : Prop where
  stand : ∀ block ∈ blocks, block.Stands segments
  apart : blocks.Pairwise fun block block' => ∀ i, ¬ (block.Covers i ∧ block'.Covers i)
  pushes : ∀ v t, s.Pushing image v t → s.PushesBeside image blocks v t
  allocates : ∀ size t, s.request? image = some (size, t) → s.LooksForRoom image size t

/-- Along a run of any length, the blocks that `new` gives out stand apart between the data and the
stack, and no push is written to them. Pushing and `new` fail exactly where there is no room. -/
theorem Segments.blocks_stay_apart (hsizes : ∀ d ∈ segments.data, 0 ≤ d.item.size)
    (hload : segments.load memorySize input output = .ok (image, s₀)) (n : Nat) :
    segments.KeepsBlocks image (s₀.blocksAfter image n) (s₀.afterSteps image n) := by
  have hdata : 0 ≤ Data.size segments.data := List.sum_nonneg (by simpa using hsizes)
  have hstarts := Segments.load_starts hload
  obtain ⟨hall, hpairwise⟩ := hstarts.blocks hdata n
  obtain ⟨hs, hcode⟩ := hstarts.bounded_after hdata n
  refine ⟨fun block hmem => (hall block hmem).1, hpairwise.imp ?_, fun v t hpushing => ?_,
    fun size t hrequest => State.looksForRoom hrequest⟩
  · rintro later earlier hapart i ⟨hlater, hearlier⟩
    exact absurd (hlater.1.trans_lt hearlier.2) (not_lt.mpr hapart)
  · exact hpushing.pushesBeside hs hcode fun block hmem => (hall block hmem).2

end

def twoBlocks : Segments :=
  ⟨Code.spanning .nowhere
    [.push 5, .push 0, .name "new", .call ⟨"new", "new", 1, 8, 8⟩,
      .push 6, .push 0, .name "new", .call ⟨"new", "new", 1, 8, 8⟩,
      .label "again", .push 7, .name "again", .ujmp],
    Data.spanning .nowhere [.label "x", .reserve 4 (some ⟨[1, 1, 1, 5]⟩)]⟩

/-- The next push is the one that fails. -/
theorem Segments.blocks_stay_apart_sample : ∃ image s₀,
    twoBlocks.load 100 [] {} = .ok (image, s₀) ∧ (∀ d ∈ twoBlocks.data, 0 ≤ d.item.size) ∧
    s₀.blocksAfter image 27 = [⟨56, 6, 88⟩, ⟨48, 5, 92⟩] ∧
    (runFor image 28 s₀).1 = .faulted ⟨.stackOverflow 60 64, []⟩ ∧
    twoBlocks.KeepsBlocks image (s₀.blocksAfter image 27) (s₀.afterSteps image 27) := by
  have hchecks : (twoBlocks.load 100 [] {}).toOption.any (fun r => decide
      (r.2.blocksAfter r.1 27 = [⟨56, 6, 88⟩, ⟨48, 5, 92⟩] ∧
        (runFor r.1 28 r.2).1 = .faulted ⟨.stackOverflow 60 64, []⟩)) = true := by
    decide +kernel
  have hsizes : ∀ d ∈ twoBlocks.data, 0 ≤ d.item.size := by decide
  cases hload : twoBlocks.load 100 [] {} with
  | error error =>
      rw [hload] at hchecks
      cases hchecks
  | ok r =>
      simp only [hload, Except.toOption, Option.any_some, decide_eq_true_eq] at hchecks
      obtain ⟨hblocks, hrun⟩ := hchecks
      exact ⟨r.1, r.2, rfl, hsizes, hblocks, hrun, Segments.blocks_stay_apart hsizes hload 27⟩

end NestedFun
