import NestedFun.Proofs.Control

namespace NestedFun

/-!
# Every step stays in control

The instructions that leave the frames as they are, jumps, calls of system functions and returns.
Together they show that a program that is in control stays so, as long as it runs.
-/

namespace Running

variable {T : Target} {program : Program} {segments : Segments} {image : Image} {s s₀ : State}
  {A : Activation} {older : List Activation} {base : Int} {σ : List Slot} {rest : Code}
  {i : Located Instruction} {span : Span} {slot : Slot} {v : Word}

theorem step_push (h : Running T program segments image s A older base σ (⟨span, .push v⟩ :: rest))
    (hfits : ∀ d ∈ segments.data, d.item.Fits)
    (hflows : Flows T program A.toRoutine base (.exactly v :: σ) rest) :
    Controlled T program segments image s (Exec.step image s) := by
  refine h.step_pushing hfits nofun (Exec.perform_push image (h.stack.advanced _) v) ?_ hflows
  rfl

theorem step_name {l : String}
    (h : Running T program segments image s A older base σ (⟨span, .name l⟩ :: rest))
    (hfits : ∀ d ∈ segments.data, d.item.Fits)
    (hflows : Flows T program A.toRoutine base (.label l :: σ) rest) :
    Controlled T program segments image s (Exec.step image s) := by
  have hholds := (h.chain.stands A List.mem_cons_self).holds_suffix h.suffix
  rw [Image.holds_cons] at hholds
  obtain ⟨w, hw⟩ := hholds.1.2
  refine h.step_pushing hfits nofun (Exec.perform_name image (h.stack.advanced _) hw) ?_ hflows
  exact hw

theorem step_regn
    (h : Running T program segments image s A older base σ (⟨span, .regn .framePointer⟩ :: rest))
    (hfits : ∀ d ∈ segments.data, d.item.Fits) (hdepth : 0 < A.path.length)
    (hflows : Flows T program A.toRoutine base (.link 0 :: σ) rest) :
    Controlled T program segments image s (Exec.step image s) := by
  refine h.step_pushing hfits nofun (Exec.perform_regn image (h.stack.advanced _)) ?_ hflows
  show s.fp = .ofInt (linkTo (A :: older) (A.path.drop 0))
  rw [h.fp_eq, List.drop_zero, linkTo_self A older (List.ne_nil_of_length_pos hdepth)]

/-- The room for the locals of a routine is made. -/
theorem step_reserve (h : Running T program segments image s A older 8
      [.exactly (.ofInt (8 - A.frame.localsSize))] (⟨span, .popn⟩ :: rest))
    (hfits : ∀ d ∈ segments.data, d.item.Fits) (hpath : A.path ≠ [])
    (hflows : Flows T program A.toRoutine A.frame.localsSize [] rest) :
    Controlled T program segments image s (Exec.step image s) := by
  obtain ⟨hlocals, hlt, _⟩ := (h.chain.stands A List.mem_cons_self).sizes hpath
  have hstack := h.stack
  have hword := h.slots.1
  have hsize := h.address_le
  have hstart := h.stack.start_le
  have hheap := h.stack.heap_le
  simp only [List.length_cons, List.length_nil] at hstack hword hheap
  have hn : (s.memory.word (A.address - 8 - 4 * ((0 + 1 : Nat) : Int))).toInt
      = 8 - A.frame.localsSize := by
    rw [show s.memory.word _ = Word.ofInt (8 - A.frame.localsSize) from hword]
    exact Word.toInt_ofInt (by omega) (by omega)
  have hperform := Exec.perform_popn image (hstack.advanced .popn)
    (by show _ ≤ (s.memory.size : Int); omega) hn (by show _ ≤ (s.memory.size : Int); omega)
    (by omega)
  rw [Exec.step_eq (h.fetch nofun)]
  rcases hperform.cases with hover | ⟨hroom, hok⟩
  · exact .of_overflows hover
  · rw [hok]
    refine ⟨A, older, A.frame.localsSize, [], rest, ?_, hflows⟩
    exact h.dropped [_] hfits (by simp only [List.length_nil]; omega) hroom (by omega)
      (fun _ => hlocals) (.inr rfl)

/-- A value that is not needed is dropped. -/
theorem step_drop (h : Running T program segments image s A older base
      (.exactly 4 :: .word :: σ) (⟨span, .popn⟩ :: rest))
    (hfits : ∀ d ∈ segments.data, d.item.Fits)
    (hflows : Flows T program A.toRoutine base σ rest) :
    Controlled T program segments image s (Exec.step image s) := by
  have hstack := h.stack
  have hword := h.slots.1
  have hsize := h.address_le
  have hbase := h.base_nonneg
  have hheap := h.stack.heap_le
  have h₀ := h.stack.nonneg
  simp only [List.length_cons, Nat.cast_add, Nat.cast_one] at hstack hword hheap h₀
  have hn : (s.memory.word (A.address - base - 4 * ((σ.length : Int) + 1 + 1))).toInt = 4 := by
    rw [show s.memory.word _ = (4 : Word) from hword]
    rfl
  have hperform := Exec.perform_popn image (hstack.advanced .popn)
    (by show _ ≤ (s.memory.size : Int); omega) hn (by show _ ≤ (s.memory.size : Int); omega)
    (by omega)
  rw [Exec.step_eq (h.fetch nofun)]
  rcases hperform.cases with hover | ⟨hroom, hok⟩
  · exact .of_overflows hover
  · rw [hok]
    refine ⟨A, older, base, σ, rest, ?_, hflows⟩
    exact h.dropped [.exactly 4, .word] hfits (by omega) hroom hbase h.base_le (.inl rfl)

/-- The address of a place is put together. -/
theorem step_locate {hops : Nat} {offset : Int} (h : Running T program segments image s A older base
      (.exactly (.ofInt offset) :: .link hops :: σ) (⟨span, .oper .add⟩ :: rest))
    (hfits : ∀ d ∈ segments.data, d.item.Fits)
    (hflows : Flows T program A.toRoutine base (.place hops offset :: σ) rest) :
    Controlled T program segments image s (Exec.step image s) := by
  obtain ⟨hy, hx, _⟩ := h.slots
  have hstack := h.stack
  have hsize := h.address_le
  have hbase := h.base_nonneg
  have hheap := h.stack.heap_le
  simp only [List.length_cons, Nat.cast_add, Nat.cast_one] at hstack hheap hy hx
  have hsum : Operator.add.apply
      (s.memory.word (A.address - base - 4 * ((σ.length : Int) + 1 + 1) + 4))
      (s.memory.word (A.address - base - 4 * ((σ.length : Int) + 1 + 1)))
      = .ok (.ofInt (linkTo (A :: older) (A.path.drop hops) + offset)) := by
    rw [show s.memory.word (A.address - base - 4 * ((σ.length : Int) + 1 + 1)) = .ofInt offset
        from hy,
      show s.memory.word (A.address - base - 4 * ((σ.length : Int) + 1 + 1) + 4)
        = .ofInt (linkTo (A :: older) (A.path.drop hops)) from hx, Operator.apply, Word.ofInt_add]
  have hperform := Exec.perform_binary image (hstack.advanced (.oper .add))
    (by show _ ≤ (s.memory.size : Int); omega) rfl hsum
  refine h.step_replacing [_, _] hfits nofun (by omega) (by omega) hperform ?_ hflows
  rfl

theorem Operator.apply_error {o : Operator} {x y : Word} {kind : FaultKind}
    (h : o.apply x y = .error kind) : kind = .divisionByZero := by
  cases o with
  | rdiv | rmod =>
      simp only [Operator.apply] at h
      split at h
      · cases h
        rfl
      · cases h
  | _ => cases h

theorem step_binary {o : Operator} (h : Running T program segments image s A older base
      (.word :: .word :: σ) (⟨span, .oper o⟩ :: rest))
    (hfits : ∀ d ∈ segments.data, d.item.Fits) (ho : o.isUnary = false)
    (hflows : Flows T program A.toRoutine base (.word :: σ) rest) :
    Controlled T program segments image s (Exec.step image s) := by
  have hstack := h.stack
  have hsize := h.address_le
  have hbase := h.base_nonneg
  have hheap := h.stack.heap_le
  simp only [List.length_cons, Nat.cast_add, Nat.cast_one] at hstack hheap
  cases hresult : o.apply (s.memory.word (A.address - base - 4 * ((σ.length : Int) + 1 + 1) + 4))
      (s.memory.word (A.address - base - 4 * ((σ.length : Int) + 1 + 1))) with
  | ok r =>
      have hperform := Exec.perform_binary image (hstack.advanced (.oper o))
        (by show _ ≤ (s.memory.size : Int); omega) ho hresult
      refine h.step_replacing [_, _] hfits nofun (by omega) (by omega) hperform ?_ hflows
      trivial
  | error kind =>
      have hperform := Exec.perform_binary_error image (hstack.advanced (.oper o))
        (by show _ ≤ (s.memory.size : Int); omega) ho hresult
      rw [Exec.step_eq (h.fetch nofun), hperform, Operator.apply_error hresult]
      trivial

theorem step_unary {o : Operator} (h : Running T program segments image s A older base
      (.word :: σ) (⟨span, .oper o⟩ :: rest))
    (hfits : ∀ d ∈ segments.data, d.item.Fits) (ho : o.isUnary = true)
    (hflows : Flows T program A.toRoutine base (.word :: σ) rest) :
    Controlled T program segments image s (Exec.step image s) := by
  have hstack := h.stack
  have hsize := h.address_le
  have hbase := h.base_nonneg
  have hheap := h.stack.heap_le
  simp only [List.length_cons, Nat.cast_add, Nat.cast_one] at hstack hheap
  obtain ⟨r, hresult⟩ : ∃ r, o.apply 0 (s.memory.word
      (A.address - base - 4 * ((σ.length : Int) + 1))) = .ok r := by
    cases o <;> first | exact ⟨_, rfl⟩ | cases ho
  have hperform := Exec.perform_unary image (hstack.advanced (.oper o))
    (by show _ ≤ (s.memory.size : Int); omega) ho hresult
  refine h.step_replacing [_] hfits nofun (by omega) (by omega) hperform ?_ hflows
  trivial

/-- A word of a variable is read. -/
theorem step_load {place : Place} (h : Running T program segments image s A older
      A.frame.localsSize (place.toSlot :: σ) (⟨span, .load⟩ :: rest))
    (hexecutable : Executable program T segments image s₀) (hplace : place.Valid T A.path)
    (hflows : Flows T program A.toRoutine A.frame.localsSize (.word :: σ) rest) :
    Controlled T program segments image s (Exec.step image s) := by
  obtain ⟨a, ha, hstart, hstop, _⟩ := h.place hexecutable hplace h.slots.1
  have hstack := h.stack
  have hsize := h.address_le
  have hbase := h.base_nonneg
  have hheap := h.stack.heap_le
  simp only [List.length_cons, Nat.cast_add, Nat.cast_one] at hstack hheap ha
  have hperform := Exec.perform_load image (hstack.advanced .load)
    (by show _ ≤ (s.memory.size : Int); omega) ha hstart hstop
  refine h.step_replacing [_] hexecutable.data_fits nofun (by omega) (by omega) hperform ?_ hflows
  trivial

/-- A static link is followed. -/
theorem step_follow {hops : Nat} (h : Running T program segments image s A older base
      (.link hops :: σ) (⟨span, .load⟩ :: rest))
    (hfits : ∀ d ∈ segments.data, d.item.Fits) (hhops : hops < A.path.length)
    (hflows : Flows T program A.toRoutine base (.link (hops + 1) :: σ) rest) :
    Controlled T program segments image s (Exec.step image s) := by
  have hpath : A.path.drop hops = A.path[hops] :: A.path.drop (hops + 1) :=
    List.drop_eq_getElem_cons hhops
  have hsuffix : A.path[hops] :: A.path.drop (hops + 1) <:+ A.path :=
    hpath ▸ List.drop_suffix hops A.path
  obtain ⟨X, hX, hXpath, hlink, hword⟩ := h.chain.linkTo_spec rfl hsuffix
  rw [← hpath] at hlink
  have hXne : X.path ≠ [] := hXpath ▸ List.cons_ne_nil _ _
  obtain ⟨hXsize, hXstop⟩ := h.chain.le_size X hX
  have hXstop := hXstop hXne
  have hstands := (h.chain.stands X hX).sizes hXne
  have hXlow := (h.address_le_of_mem hX).1
  have hstack := h.stack
  have hsize := h.address_le
  have hbase := h.base_nonneg
  have hheap := h.stack.heap_le
  have hstart := h.stack.start_le
  have hslot := h.slots.1
  simp only [List.length_cons, Nat.cast_add, Nat.cast_one] at hstack hheap hslot
  rw [Slot.Holds, hlink] at hslot
  have hperform := Exec.perform_load image (hstack.advanced .load)
    (by show _ ≤ (s.memory.size : Int); omega) hslot
    (by show (s.memory.dataStart : Int) ≤ _; omega) (by show _ ≤ (s.memory.size : Int); omega)
  refine h.step_replacing [_] hfits nofun (by omega) (by omega) hperform ?_ hflows
  exact hword

/-- A word is read at an address that was computed. -/
theorem step_dereference (h : Running T program segments image s A older base (.word :: σ)
      (⟨span, .load⟩ :: rest))
    (hfits : ∀ d ∈ segments.data, d.item.Fits) (hcode : A.Dereferences T program rest)
    (hflows : Flows T program A.toRoutine base (.word :: σ) rest) :
    Controlled T program segments image s (Exec.step image s) := by
  have hstack := h.stack
  have hsize := h.address_le
  have hbase := h.base_nonneg
  have hheap := h.stack.heap_le
  simp only [List.length_cons, Nat.cast_add, Nat.cast_one] at hstack hheap
  rcases Exec.perform_load_cases image (hstack.advanced .load)
    (by show _ ≤ (s.memory.size : Int); omega) with ⟨w, hperform⟩ | ⟨a, s', hperform⟩
  · refine h.step_replacing [_] hfits nofun (by omega) (by omega) hperform ?_ hflows
    trivial
  · obtain ⟨head, node, operator, operand, c, front, huse, hhead, hkind, hgenerates, hsplit⟩ := hcode
    obtain ⟨hframe, _, _, _, hlabel, span', hfragment⟩ :=
      (h.chain.stands A List.mem_cons_self).function head.id hhead
    rw [Exec.step_eq (h.fetch nofun), hperform]
    refine .inl ⟨head, node, operator, operand, c, ⟨span', .label A.frame.label⟩ :: front, rest,
      A.frame, A.start, huse, hkind, hgenerates, ?_, hframe, hlabel, ?_⟩
    · rw [hfragment, hsplit]
      rfl
    · have hlength : Code.size A.code
          = Code.size (front ++ c) + Code.size (⟨span, .load⟩ :: rest) := by
        rw [hsplit, List.append_assoc, Code.size_append]
        rfl
      have hcons : Code.size ((⟨span', .label A.frame.label⟩ :: front) ++ c)
          = Code.size (front ++ c) := by
        rw [List.cons_append, Code.size_cons]
        exact zero_add _
      rw [h.pc_eq, Routine.addressOf, hlength, hcons]
      congr 1
      omega

/-- A call of a system function. -/
theorem step_system (function : SystemFunction) (popped σ : List Slot) {frame : Frame}
    (h : Running T program segments image s A older base (.label frame.label :: (popped ++ σ))
      (⟨span, .call frame⟩ :: rest))
    (hfits : ∀ d ∈ segments.data, d.item.Fits)
    (hl : image.labels[frame.label]? = some function.address)
    (hsize : frame.parametersSize = 4 * popped.length) (harity : function.arity < popped.length)
    (hflows : function ≠ .exit → Flows T program A.toRoutine base (.word :: σ) rest) :
    Controlled T program segments image s (Exec.step image s) := by
  obtain ⟨sp, hsp⟩ : ∃ sp : Int, sp = A.address - base - 4 * σ.length - 4 * popped.length - 4 :=
    ⟨_, rfl⟩
  have hstack := h.stack
  have hname := h.slots.1
  have hlength : A.address - base - 4 * ((Slot.label frame.label :: (popped ++ σ)).length : Int)
      = sp := by
    simp only [List.length_cons, List.length_append]
    push_cast
    omega
  rw [hlength] at hstack hname
  have hword : s.memory.word sp = function.address := Option.some.inj (hname.symm.trans hl)
  have haddress := h.address_le
  have hbase := h.base_nonneg
  have hstart := hstack.start_le
  have hheap := hstack.heap_le
  have hdata := h.data_le
  have hadvanced := hstack.advanced (.call frame)
  have hroom : sp + 4 ≤ (s.memory.size : Int) := by omega
  have htarget : SystemFunction.ofAddress? ((s.advanced (.call frame)).memory.word sp)
      = some function := by
    show SystemFunction.ofAddress? (s.memory.word sp) = _
    rw [hword, SystemFunction.ofAddress?_address]
  have hperform := Exec.perform_call_eq image hadvanced hroom frame htarget
  have hentered := Exec.entered_stackAt hadvanced hroom frame.label
  rw [Exec.step_eq (h.fetch nofun), hperform]
  -- a system function answers or fails; `exit` does not come back
  rcases Exec.system_cases hentered function (fun _ => by show _ ≤ (s.memory.size : Int); omega) with
    ⟨w, s', hsystem, hsame, hheap', hheapEnd⟩ | ⟨kind, s', hsystem, hfail⟩
  · by_cases hexit : function = .exit
    · subst hexit
      rw [Exec.callSystem_exit hsystem]
      trivial
    · rw [Exec.callSystem_ok hentered hsystem hexit hsame.memory_eq (by omega)
        (by show _ ≤ (s.memory.size : Int); omega)]
      have ha : sp + 4 + frame.parametersSize - 4 = A.address - base - 4 * σ.length - 4 := by omega
      have hmemory : s'.memory = s.memory := hsame.memory_eq
      rw [ha]
      refine ⟨A, older, base, .word :: σ, rest, ?_, hflows hexit⟩
      have hdiffers := Memory.Differs.store s.memory (a := A.address - base - 4 * σ.length - 4) w
        (by omega)
      have hanswered : Memory.Differs (Memory.Block (A.address - base - 4 * σ.length - 4) 4) s.memory
          (s'.answered (A.address - base - 4 * σ.length - 4) w).memory := by
        show Memory.Differs _ s.memory (s'.memory.store _ w)
        rw [hmemory]
        exact hdiffers
      have htop : A.address - base - 4 * ((Slot.word :: σ).length : Int)
          = A.address - base - 4 * σ.length - 4 := by
        rw [List.length_cons]
        push_cast
        ring
      -- the answer is pushed where the last argument was
      refine h.next hfits hanswered ?_ ?_ ?_ ?_ hbase h.base_le ?_ ?_ ?_
      · intro j hj
        simp only [Memory.Block] at hj
        exact .inr ⟨by omega, .inl (by omega)⟩
      · show s'.pc = _
        rw [hsame.pc_eq]
        exact h.advanced_pc
      · show s'.fp = _
        rw [hsame.fp_eq]
        rfl
      · rw [htop]
        refine ⟨rfl, ?_, ?_, ?_, ?_⟩
        · show ((s'.memory.store _ w).dataStart : Int) ≤ s'.heapEnd.toInt
          rw [hmemory, hdiffers.dataStart_eq]
          exact le_trans hstart hheap'
        · show s'.heapEnd.toInt ≤ _
          omega
        · show _ ≤ ((s'.memory.store _ w).size : Int)
          rw [hmemory, hdiffers.size_eq]
          omega
        · show (s'.memory.store _ w).size < _
          rw [hmemory, hdiffers.size_eq]
          exact h.stack.size_lt
      · rw [htop]
        refine ⟨trivial, ?_⟩
        show HasSlots image A.path (A :: older) (s'.memory.store _ w) _ σ
        rw [hmemory, show A.address - base - 4 * (σ.length : Int) - 4 + 4
          = A.address - base - 4 * (σ.length : Int) by omega]
        have hslots : Running T program segments image s A older base
          ((.label frame.label :: popped) ++ σ) (⟨span, .call frame⟩ :: rest) := h
        refine hslots.slots_append.of_differs hdiffers (by omega) fun j hj => ?_
        simp only [Memory.Block] at *
        omega
      · show s'.callStack.tail = _
        rw [hsame.callStack_eq]
        rfl
      · exact hheap'
  · rw [Exec.callSystem_error hsystem]
    cases kind with
    | invalidAddress a =>
        refine .inr ⟨frame, h.fetch nofun, ?_⟩
        have hread : s.memory.read (.ofInt sp) = .ok (s.memory.word sp) :=
          s.memory.read_ofInt hstack.nonneg hstack.lt (by omega) hroom
        rw [hstack.sp_eq, hread, hword, hfail]
    | invalidJump _ | undefinedLabel _ | duplicateLabel _ | frameMismatch _ _ _ => exact hfail
    | _ => trivial

/-- Control goes to a label of the routine. -/
theorem step_jump {span' : Span} {l : String} (h : Running T program segments image s A older
      A.frame.localsSize [.label l] (⟨span, .ujmp⟩ :: rest)) (hl : ⟨span', .label l⟩ ∈ A.code) :
    Controlled T program segments image s (Exec.step image s) := by
  have hstands := h.chain.stands A List.mem_cons_self
  obtain ⟨code, hsuffix, hlabel, hflows⟩ := hstands.label hl
  have hstack := h.stack
  have hname := h.slots.1
  have hsize := h.address_le
  have hbase := h.base_nonneg
  simp only [List.length_cons, List.length_nil] at hstack hname
  have hword := Option.some.inj (hname.symm.trans hlabel)
  have hlive : (image.fetch? (s.memory.word
      (A.address - A.frame.localsSize - 4 * ((0 + 1 : Nat) : Int)))).isSome := by
    rw [hword]
    exact hflows.live (hstands.holds_suffix hsuffix)
  have hperform := Exec.perform_ujmp image (hstack.advanced .ujmp)
    (by show _ ≤ (s.memory.size : Int); omega) hlive
  rw [Exec.step_eq (h.fetch nofun), hperform]
  refine ⟨A, older, A.frame.localsSize, [], code, ?_, hflows⟩
  show Running T program segments image
    { (s.advanced .ujmp).withTop _ with pc := s.memory.word _ } A older _ [] code
  rw [hword]
  exact h.jumped (by omega) hsuffix

/-- Control goes to one of two labels of the routine. -/
theorem step_branch {span' span'' : Span} {l l' : String} (h : Running T program segments image s
      A older A.frame.localsSize [.label l', .label l, .word] (⟨span, .cjmp⟩ :: rest))
    (hl : ⟨span', .label l⟩ ∈ A.code) (hl' : ⟨span'', .label l'⟩ ∈ A.code) :
    Controlled T program segments image s (Exec.step image s) := by
  have hstands := h.chain.stands A List.mem_cons_self
  obtain ⟨positive, hsuffix, hlabel, hflows⟩ := hstands.label hl
  obtain ⟨negative, hsuffix', hlabel', hflows'⟩ := hstands.label hl'
  have hstack := h.stack
  obtain ⟨hname', hname, -⟩ := h.slots
  have hsize := h.address_le
  have hbase := h.base_nonneg
  simp only [List.length_cons, List.length_nil] at hstack hname hname'
  have hword := Option.some.inj (hname.symm.trans hlabel)
  have hword' := Option.some.inj (hname'.symm.trans hlabel')
  -- whichever label is taken, control goes on behind it
  obtain ⟨code, hcode, hcodeFlows, htarget⟩ : ∃ code, code <:+ A.code ∧
      Flows T program A.toRoutine A.frame.localsSize [] code ∧
      Word.ofInt (A.addressOf code) =
        if s.memory.word (A.address - A.frame.localsSize - 4 * ((0 + 1 + 1 + 1 : Nat) : Int) + 8) ≠ 0
        then s.memory.word (A.address - A.frame.localsSize - 4 * ((0 + 1 + 1 + 1 : Nat) : Int) + 4)
        else s.memory.word (A.address - A.frame.localsSize - 4 * ((0 + 1 + 1 + 1 : Nat) : Int)) := by
    split
    · exact ⟨positive, hsuffix, hflows, hword.symm⟩
    · exact ⟨negative, hsuffix', hflows', hword'.symm⟩
  have hlive : (image.fetch? (.ofInt (A.addressOf code))).isSome :=
    hcodeFlows.live (hstands.holds_suffix hcode)
  have hperform := Exec.perform_cjmp image (hstack.advanced .cjmp)
    (by show _ ≤ (s.memory.size : Int); omega) htarget hlive
  rw [Exec.step_eq (h.fetch nofun), hperform]
  exact ⟨A, older, A.frame.localsSize, [], code, h.jumped (by omega) hcode, hcodeFlows⟩

/-- The state behind a return: the result is the topmost operand of the caller. -/
theorem left {B : Activation} {σ' : List Slot} {code : Code} {s' : State} {result : Word}
    (h : Running T program segments image s A (B :: older) A.frame.localsSize σ rest)
    (hfits : ∀ d ∈ segments.data, d.item.Fits)
    (houter : Chain T program image s.memory (B :: older)) (hpath : A.path ≠ [])
    (hsuffix : code <:+ B.code)
    (haddress : A.address + A.frame.parametersSize + 4 * σ'.length
      = B.address - B.frame.localsSize)
    (hslots : HasSlots image B.path (B :: older) s.memory (A.address + A.frame.parametersSize) σ')
    (hmemory : s'.memory = s.memory.store (A.address + A.frame.parametersSize - 4) result)
    (hpc : s'.pc = .ofInt (B.addressOf code)) (hfp : s'.fp = .ofInt B.address)
    (hsp : s'.sp = .ofInt (A.address + A.frame.parametersSize - 4)) (hheap : s'.heapEnd = s.heapEnd)
    (hcallStack : s'.callStack = s.callStack.tail) :
    Running T program segments image s' B older B.frame.localsSize (.word :: σ') code := by
  obtain ⟨hlocals, _, hparameters⟩ := (h.chain.stands A List.mem_cons_self).sizes hpath
  have hB := houter.stands B List.mem_cons_self
  have hBlocals := hB.locals_nonneg
  have hBsize := (houter.le_size B List.mem_cons_self).1
  have hstart := h.stack.start_le
  have hheapLe := h.stack.heap_le
  have hdata := h.data_le
  have hdiffers := Memory.Differs.store s.memory (a := A.address + A.frame.parametersSize - 4) result
    (by omega)
  rw [← hmemory] at hdiffers
  have htop : B.address - B.frame.localsSize - 4 * ((Slot.word :: σ').length : Int)
      = A.address + A.frame.parametersSize - 4 := by
    rw [List.length_cons]
    push_cast
    omega
  refine ⟨?_, hsuffix, hpc, hfp, ?_, hBlocals, fun hpath => (hB.sizes hpath).1, ?_, ?_, ?_, ?_, ?_⟩
  · refine houter.of_differs hdiffers (B.address - B.frame.localsSize) (by omega) ?_ ?_
    · intro B' hB' hpath'
      cases hB'
      have := (hB.sizes hpath').1
      omega
    · intro j hj
      simp only [Memory.Block] at hj
      exact .inl (by omega)
  · rw [htop]
    refine ⟨hsp, ?_, ?_, ?_, ?_⟩
    · rw [hdiffers.dataStart_eq, hheap]
      exact hstart
    · rw [hheap]
      omega
    · rw [hdiffers.size_eq]
      omega
    · rw [hdiffers.size_eq]
      exact h.stack.size_lt
  · rw [htop]
    refine ⟨trivial, ?_⟩
    rw [show A.address + A.frame.parametersSize - 4 + 4 = A.address + A.frame.parametersSize by omega]
    refine hslots.of_differs hdiffers (by omega) fun j hj => ?_
    simp only [Memory.Block] at *
    omega
  · rw [hcallStack, h.callStack_eq]
    rfl
  · refine h.intact.of_differs hfits hdiffers fun j hj => .inr ?_
    simp only [Memory.Block] at hj
    omega
  · rw [hdiffers.dataStart_eq]
    exact h.dataStart_eq
  · rw [hheap]
    exact hdata

/-- A routine returns to the one that called it. -/
theorem returns (h : Running T program segments image s A older A.frame.localsSize
      [.exactly (.ofInt (A.frame.parametersSize - 4)), .word] (⟨span, .retn A.frame⟩ :: rest))
    (hfits : ∀ d ∈ segments.data, d.item.Fits) (hpath : A.path ≠ []) :
    ∃ s', Exec.step image s = .ok none s' ∧ InControl T program segments image s' := by
  obtain ⟨hlocals, _, hparameters⟩ := (h.chain.stands A List.mem_cons_self).sizes hpath
  have hstop := (h.chain.le_size A List.mem_cons_self).2 hpath
  cases h.chain with
  | entry _ hentry _ => exact absurd hentry hpath
  | @call A B older σ code outer hstands _ htail hsuffix hflows haddress hslots hlink hframe hreturn =>
      have hstack := h.stack
      have hkept := h.slots.1
      simp only [List.length_cons, List.length_nil] at hstack hkept
      have hlive : (image.fetch? (s.memory.word (A.address - 8))).isSome := by
        rw [hreturn]
        exact hflows.live ((outer.stands B List.mem_cons_self).holds_suffix hsuffix)
      have hperform := Exec.perform_retn (hstack.advanced (.retn A.frame)) h.fp_eq hkept (by omega)
        hlocals (by omega) (by show _ ≤ (s.memory.size : Int); omega) hlive
      rw [Exec.step_eq (h.fetch nofun), hperform]
      refine ⟨_, rfl, B, older, B.frame.localsSize, .word :: σ, code, ?_, hflows⟩
      rw [← add_sub_assoc]
      exact h.left hfits outer hpath hsuffix haddress hslots rfl hreturn hframe rfl rfl rfl

theorem step_retn (h : Running T program segments image s A older A.frame.localsSize
      [.exactly (.ofInt (A.frame.parametersSize - 4)), .word] (⟨span, .retn A.frame⟩ :: rest))
    (hfits : ∀ d ∈ segments.data, d.item.Fits) (hpath : A.path ≠ []) :
    Controlled T program segments image s (Exec.step image s) := by
  obtain ⟨s', hstep, hcontrol⟩ := h.returns hfits hpath
  rw [hstep]
  exact hcontrol

/-- The outermost routine hands its operand to the system function that ends the program. -/
theorem step_exit {frame : Frame} (h : Running T program segments image s A older base
      [.label frame.label, .exactly 0, .word] (⟨span, .call frame⟩ :: rest))
    (hexecutable : Executable program T segments image s₀) (hlabel : frame.label = "exit")
    (hsize : frame.parametersSize = 8) :
    Controlled T program segments image s (Exec.step image s) := by
  obtain ⟨_, _, _, _, _, _, _, _, _, _, hexit, _⟩ := hexecutable.entry
  refine step_system .exit [.exactly 0, .word] [] h
    hexecutable.data_fits (hlabel ▸ hexit) hsize (by decide) fun hne => absurd rfl hne

/-- A function is called by its name. -/
theorem step_call {env : Env} {name : String} {meaning : Meaning} {head : FunctionHead}
    {body : List Statement} {frame : Frame} (h : Running T program segments image s A older
      A.frame.localsSize (.label frame.label :: .link meaning.hops ::
        (List.replicate head.parameters.length .word ++ σ)) (⟨span, .call frame⟩ :: rest))
    (hexecutable : Executable program T segments image s₀) (hassigns : program.AssignsNames)
    (hstores : program.StoresWords) (hpath : env.path = A.path) (henv : env.Inside T program)
    (hfind : env.find? name = some meaning) (hentity : meaning.entity = .function head body)
    (hframe : T.layout.frames[head.id]? = some frame)
    (hflows : Flows T program A.toRoutine A.frame.localsSize (.word :: σ) rest) :
    Controlled T program segments image s (Exec.step image s) := by
  obtain ⟨_, _, hplaced⟩ := henv.placed
  obtain ⟨frame', hframe', hfits, _⟩ := hplaced.callee hfind hentity
  obtain rfl : frame = frame' := Option.some.inj (hframe.symm.trans hframe')
  have hsize : frame.parametersSize = 4 * head.parameters.length + 4 := hfits.parametersSize_eq
  obtain ⟨a, hl⟩ : ∃ a, image.labels[frame.label]? = some a := ⟨_, h.slots.1⟩
  rcases hexecutable.routine hassigns hstores henv hfind hentity hframe hl with
    ⟨R, hstands, hRpath, rfl, rfl, hcode⟩ | ⟨function, rfl, harity⟩
  · refine h.step_enter hexecutable.data_fits hstands (hRpath ▸ List.cons_ne_nil _ _) ?_ hsize hl
      hcode hflows
    rw [hRpath, List.tail_cons, ← hpath, (Env.find?_home hfind).2.2]
  · refine step_system function (.link meaning.hops :: List.replicate head.parameters.length .word)
      σ h hexecutable.data_fits hl ?_ ?_ fun _ => hflows
    · rw [hsize, List.length_cons, List.length_replicate]
      push_cast
      ring
    · rw [List.length_cons, List.length_replicate]
      omega

/-- What is known about an operand may be forgotten. -/
theorem forgotten (h : Running T program segments image s A older base (slot :: σ) rest) :
    Running T program segments image s A older base (.word :: σ) rest := by
  refine ⟨h.chain, h.suffix, h.pc_eq, h.fp_eq, h.stack, h.base_nonneg, h.base_le, ?_,
    h.callStack_eq, h.intact, h.dataStart_eq, h.data_le⟩
  exact ⟨trivial, h.slots.2⟩

/-- Outside all functions the static link is 0. -/
theorem linked (h : Running T program segments image s A older base (.exactly 0 :: σ) rest)
    (hpath : A.path = []) :
    Running T program segments image s A older base (.link 0 :: σ) rest := by
  refine ⟨h.chain, h.suffix, h.pc_eq, h.fp_eq, h.stack, h.base_nonneg, h.base_le, ?_,
    h.callStack_eq, h.intact, h.dataStart_eq, h.data_le⟩
  refine ⟨?_, h.slots.2⟩
  rw [Slot.Holds, hpath, List.drop_nil, linkTo_nil]
  exact h.slots.1

/-- A program that is in control stays so in the next step. -/
theorem step (hexecutable : Executable program T segments image s₀)
    (hassigns : program.AssignsNames) (hstores : program.StoresWords) {code : Code}
    (h : Running T program segments image s A older base σ code)
    (hflows : Flows T program A.toRoutine base σ code) :
    Controlled T program segments image s (Exec.step image s) := by
  have hfits := hexecutable.data_fits
  induction hflows with
  | label hrest ih => exact ih h.skip_label
  | push hrest ih => exact h.step_push hfits hrest
  | name hrest ih => exact h.step_name hfits hrest
  | regn hdepth hrest ih => exact h.step_regn hfits hdepth hrest
  | reserve hdepth hrest ih =>
      exact h.step_reserve hfits (List.ne_nil_of_length_pos hdepth) hrest
  | drop hrest ih => exact h.step_drop hfits hrest
  | locate hrest ih => exact h.step_locate hfits hrest
  | binary ho hrest ih => exact h.step_binary hfits ho hrest
  | unary ho hrest ih => exact h.step_unary hfits ho hrest
  | follow hhops hrest ih => exact h.step_follow hfits hhops hrest
  | load hplace hrest ih => exact h.step_load hexecutable hplace hrest
  | dereference hcode hrest ih => exact h.step_dereference hfits hcode hrest
  | save hplace hrest ih => exact h.step_save hexecutable hplace hrest
  | call hpath henv hfind hentity hframe hrest ih =>
      exact h.step_call hexecutable hassigns hstores hpath henv hfind hentity hframe hrest
  | exit hlabel hsize => exact h.step_exit hexecutable hlabel hsize
  | jump hl hrest ih => exact h.step_jump hl
  | branch hl hl' hrest ih => exact h.step_branch hl hl'
  | init hdepth hsized hstorage hlow hhigh hrest ih =>
      exact h.step_init hexecutable hdepth hstorage hlow hhigh hrest
  | retn hdepth => exact h.step_retn hfits (List.ne_nil_of_length_pos hdepth)
  | forget hrest ih => exact ih h.forgotten
  | outermost hdepth hrest ih => exact ih (h.linked (List.eq_nil_of_length_eq_zero hdepth))

end Running

end NestedFun
