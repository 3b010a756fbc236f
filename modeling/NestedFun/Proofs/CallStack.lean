import NestedFun.Proofs.RegisterBounds
import NestedFun.Proofs.StaticLinks

namespace NestedFun

/-!
# The call stack

In a running program that assigns to names only, the call stack names the functions of the frames on
the stack: the next instruction belongs to the first of them, and every frame returns to the function
that is named next. A fault reports these names, and a call that fails adds the one that it called.
-/

/-- The code that belongs to a label is that of the function with the label. Without a label it is
the entry, with which all code starts. -/
def Target.CodeOf (T : Target) (label? : Option String) (before code : Code) : Prop :=
  match label? with
  | some label => ∃ (id : NodeId) (frame : Frame), T.layout.frames[id]? = some frame ∧
      frame.label = label ∧ T.fragments.functions[id]? = some code
  | none => before = [] ∧ ∃ main exit, code = entryCode main exit

def Segments.LiesIn (segments : Segments) (T : Target) (label? : Option String) (address : Word) :
    Prop :=
  ∃ before code after, segments.code = before ++ code ++ after ∧ T.CodeOf label? before code ∧
    Code.size before ≤ address.toInt ∧ address.toInt < Code.size before + Code.size code

/-- The call stack has one label for every frame. The next instruction lies in the code of the first
label, and every frame returns to the code of the label behind its own. -/
structure State.TracesCalls (s : State) (T : Target) (segments : Segments)
    (addresses : List Word) : Prop where
  frames : s.memory.Frames s.fp addresses
  length_eq : s.callStack.length = addresses.length
  pc_within : segments.LiesIn T s.callStack.head? s.pc
  returns_within : ∀ (k : Nat) (address : Word), addresses[k]? = some address →
    ∃ back, s.memory.read (address - 8) = .ok back ∧ segments.LiesIn T s.callStack[k + 1]? back

/-- A fault in the next step reports the call stack. If the instruction is a call, it reports the
label of the function called in front. -/
structure State.ReportsCalls (s : State) (image : Image) (fault : Fault) : Prop where
  call : ∀ frame, image.fetch? s.pc = some (.call frame) →
    fault.callStack = frame.label :: s.callStack ∧
      ∃ target, s.memory.read s.sp = .ok target ∧ image.labels[frame.label]? = some target
  other : (∀ frame, image.fetch? s.pc ≠ some (.call frame)) → fault.callStack = s.callStack

/-! ## Where routines stand -/

theorem Flows.size_pos {T : Target} {program : Program} {R : Routine} {b : Int} {σ : List Slot}
    {code : Code} (h : Flows T program R b σ code) : 0 < Code.size code := by
  induction h with
  | label h ih =>
      rw [Code.size_cons]
      simpa [Instruction.size] using ih
  | forget h ih | outermost _ h ih => exact ih
  | exit | retn _ =>
      rw [Code.size_cons, Code.size_nil]
      simp [Instruction.size]
  | @push _ _ _ _ rest _ _ | @name _ _ _ _ rest _ _ | @regn _ _ _ rest _ _ _ | @reserve _ rest _ _ _
  | @drop _ _ _ rest _ _ | @locate _ _ _ _ _ rest _ _ | @binary _ _ _ _ rest _ _ _
  | @unary _ _ _ _ rest _ _ _ | @follow _ _ _ _ rest _ _ _ | @load _ _ _ rest _ _ _
  | @dereference _ _ _ rest _ _ _ | @save _ _ _ rest _ _ _
  | @call _ _ _ _ _ _ _ _ rest _ _ _ _ _ _ _ | @jump _ _ _ rest _ _ _ | @branch _ _ _ _ _ rest _ _ _ _
  | @init _ _ _ _ _ rest _ _ _ _ _ _ _ =>
      have hrest := Code.size_nonneg rest
      rw [Code.size_cons]
      simp only [Instruction.size]
      omega

def Routine.label? (R : Routine) : Option String := R.path.head?.map fun _ => R.frame.label

/-- The rest of a routine's code lies in the code of its label. -/
theorem Routine.Stands.liesIn {T : Target} {program : Program} {segments : Segments} {image : Image}
    {s₀ : State} {R : Routine} {code : Code} (h : R.Stands T program image)
    (hexecutable : Executable program T segments image s₀) (hsuffix : code <:+ R.code)
    (hpos : 0 < Code.size code) : segments.LiesIn T R.label? (.ofInt (R.addressOf code)) := by
  have hle : Code.size code ≤ Code.size R.code := by
    obtain ⟨front, hfront⟩ := hsuffix
    rw [← hfront, Code.size_append]
    have := Code.size_nonneg front
    omega
  have hlt : Code.size segments.code < 2147483648 := by
    have h₁ := hexecutable.loaded.dataStart_eq
    have h₂ := hexecutable.loaded.data_le
    have h₃ := Data.size_nonneg hexecutable.data_fits
    have h₄ := hexecutable.loaded.heap_le
    have h₅ := hexecutable.loaded.size_lt
    omega
  obtain ⟨main, exit, inner, -, -, hcollects, hsegments, -⟩ :=
    Program.assemble_ok hexecutable.assembled
  cases hpath : R.path with
  | nil =>
      obtain ⟨hstart, main', exit', hcode⟩ := h.entry hpath
      have hsize : Code.size R.code = Code.size (entryCode main exit) := by rw [hcode]; rfl
      have hinner := Code.size_nonneg inner.code
      rw [hsegments, Code.size_append] at hlt
      have haddress : (Word.ofInt (R.addressOf code)).toInt = Code.size R.code - Code.size code := by
        rw [addressOf, hstart, zero_add, Word.toInt_ofInt (by omega) (by omega)]
      rw [label?, hpath]
      refine ⟨[], entryCode main exit, inner.code, hsegments, ⟨rfl, main, exit, rfl⟩, ?_, ?_⟩
      · rw [haddress, Code.size_nil]
        omega
      · rw [haddress, Code.size_nil, ← hsize]
        omega
  | cons id outer =>
      obtain ⟨hframe, -, -, -, hlabel, span, hfragment⟩ := h.function id (by rw [hpath]; rfl)
      obtain ⟨head, body, hmem, rfl⟩ := hexecutable.describes.functions _ _ hfragment
      have hwithin := hcollects.functions head body hmem
      rw [hfragment, Option.getD_some] at hwithin
      obtain ⟨before, after, hsplit⟩ : (⟨span, .label R.frame.label⟩ :: R.code : Code)
          <:+: segments.code := by
        rw [hsegments]
        exact hwithin.trans (List.suffix_append _ _).isInfix
      have hholds := hexecutable.loaded.holds
      rw [← hsplit, Image.holds_append, Image.holds_append, zero_add] at hholds
      have hlabel' : image.labels[R.frame.label]? = some (.ofInt (Code.size before)) :=
        ((Image.holds_cons _ _ _ _).mp hholds.1.2).1
      have hbefore := Code.size_nonneg before
      have hafter := Code.size_nonneg after
      have hcons : Code.size (⟨span, .label R.frame.label⟩ :: R.code) = Code.size R.code := by
        rw [Code.size_cons]
        simp [Instruction.size]
      have hsum : Code.size segments.code = Code.size before + Code.size R.code + Code.size after := by
        rw [← hsplit, Code.size_append, Code.size_append, hcons]
      -- the label has one address, so the routine starts where its fragment stands
      have hstart : R.start = Code.size before :=
        Word.ofInt_inj (by have := h.start_nonneg; omega) h.start_lt (by omega) (by omega)
          (Option.some.inj (hlabel.symm.trans hlabel'))
      have haddress : (Word.ofInt (R.addressOf code)).toInt
          = Code.size before + Code.size R.code - Code.size code := by
        rw [addressOf, hstart, Word.toInt_ofInt (by omega) (by omega)]
      rw [label?, hpath]
      refine ⟨before, _, after, hsplit.symm, ⟨head.id, R.frame, hframe, rfl, hfragment⟩, ?_, ?_⟩
      · rw [haddress]
        omega
      · rw [haddress, hcons]
        omega

namespace Chain

variable {T : Target} {program : Program} {image : Image} {m : Memory} {A : Activation}
  {older activations : List Activation}

theorem head?_activeLabels (h : Chain T program image m (A :: older)) :
    (activeLabels (A :: older)).head? = A.label? := by
  cases h with
  | entry hstands hpath hlocals =>
      rw [Routine.label?, hpath]
      rfl
  | call outer hstands hpath =>
      obtain ⟨id, rest, hcons⟩ := List.exists_cons_of_ne_nil hpath
      rw [Routine.label?, hcons]
      rfl

/-- Every frame returns to the routine of the next one. -/
theorem returns_within {segments : Segments} {s₀ : State}
    (h : Chain T program image m activations)
    (hexecutable : Executable program T segments image s₀) (hlt : m.size < 2147483648)
    (hlow : ∀ X ∈ activations, X.path ≠ [] → m.dataStart ≤ X.address - 8) {k : Nat} {address : Word}
    (hk : ((activations.filterMap Activation.frame?).map ActiveFrame.address)[k]? = some address) :
    ∃ back, m.read (address - 8) = .ok back ∧
      segments.LiesIn T (activeLabels activations)[k + 1]? back := by
  induction h generalizing k with
  | entry hstands hpath hlocals =>
      rw [List.filterMap_cons_none (Activation.frame?_entry hpath)] at hk
      cases hk
  | @call A B older σ code outer hstands hpath htail hsuffix hflows haddress hslots hlink hframe
      hreturn ih =>
      have hchain := Chain.call outer hstands hpath htail hsuffix hflows haddress hslots hlink hframe
        hreturn
      obtain ⟨id, rest, hcons⟩ := List.exists_cons_of_ne_nil hpath
      rw [List.filterMap_cons_some (Activation.frame?_of_path hcons), List.map_cons] at hk
      cases k with
      | zero =>
          obtain rfl : Word.ofInt A.address = address := Option.some.inj hk
          have hlowA := hlow A List.mem_cons_self hpath
          refine ⟨.ofInt (B.addressOf code), ?_, ?_⟩
          · rw [Word.ofInt_sub_eight, hchain.read_at List.mem_cons_self hpath hlt hlowA (by omega),
              hreturn]
          · have hB := outer.stands B List.mem_cons_self
            have hlabels : (activeLabels (A :: B :: older))[0 + 1]? = B.label? := by
              rw [← outer.head?_activeLabels, List.head?_eq_getElem?]
              rfl
            rw [hlabels]
            exact hB.liesIn hexecutable hsuffix hflows.size_pos
      | succ k =>
          exact ih (fun X hX => hlow X (List.mem_cons_of_mem _ hX)) hk

end Chain

/-! ## Faults -/

def State.Calling (labels : List String) (s : State) : Prop := s.callStack = labels

namespace Exec

variable {labels : List String} {s s' : State} {image : Image} {kind : FaultKind}

theorem keeps_calling_push (v : Word) : Keeps (State.Calling labels) (push v) := by
  intro s hs
  simp only [after, push]
  by_cases hroom : s.sp - 4 < s.heapEnd
  · rw [if_pos hroom]
    exact hs
  · rw [if_neg hroom]
    by_cases ha : s.memory.Holds (s.sp - 4)
    · rw [if_pos ha]
      exact hs
    · rw [if_neg ha]
      exact hs

theorem keeps_calling_pop : Keeps (State.Calling labels) pop := by
  intro s hs
  rw [after, pop]
  cases s.memory.read s.sp <;> exact hs

theorem keeps_calling_write (a v : Word) : Keeps (State.Calling labels) (write a v) := by
  intro s hs
  rw [after, write]
  by_cases ha : s.memory.Holds a
  · rw [if_pos ha]
    exact hs
  · rw [if_neg ha]
    exact hs

theorem keeps_calling_jump (target : Word) :
    Keeps (State.Calling labels) (jump image target) := by
  intro s hs
  rw [after, jump]
  by_cases h : (image.fetch? target).isSome
  · rw [if_pos h]
    exact hs
  · rw [if_neg h]
    exact hs

theorem keeps_calling_moveTop (distance : Word) :
    Keeps (State.Calling labels) (moveTop distance) := by
  intro s hs
  simp only [after, moveTop]
  by_cases hfits : (!fitsWord (s.sp.toInt + distance.toInt)
      || decide ((s.memory.size : Int) < s.sp.toInt + distance.toInt)) = true
  · rw [if_pos hfits]
    exact hs
  · rw [if_neg hfits]
    by_cases hroom : s.sp.toInt + distance.toInt < s.heapEnd.toInt
    · rw [if_pos hroom]
      exact hs
    · rw [if_neg hroom]
      exact hs

theorem keeps_calling_operate (operator : Operator) :
    Keeps (State.Calling labels) (operate operator) := by
  refine keeps_bind keeps_calling_pop fun y => ?_
  dsimp only
  split
  · refine keeps_bind (keeps_pure 0) fun x => ?_
    split
    · exact keeps_calling_push _
    · exact keeps_throw _
  · refine keeps_bind keeps_calling_pop fun x => ?_
    split
    · exact keeps_calling_push _
    · exact keeps_throw _

theorem keeps_calling_expandGroups (n : Nat) (source target : Word) :
    Keeps (State.Calling labels) (expandGroups n source target) := by
  have hwords : ∀ n source target,
      Keeps (State.Calling labels) (copyWords n source target) := by
    intro n
    induction n with
    | zero => exact fun _ target => keeps_pure target
    | succ n ih =>
        exact fun _ _ => keeps_bind (keeps_read _) fun _ =>
          keeps_bind (keeps_calling_write _ _) fun _ => ih _ _
  have hrepeated : ∀ length source n target,
      Keeps (State.Calling labels) (copyRepeated length source n target) := by
    intro length source n
    induction n with
    | zero => exact fun target => keeps_pure target
    | succ n ih => exact fun _ => keeps_bind (hwords _ _ _) fun _ => ih _
  induction n generalizing source target with
  | zero => exact keeps_pure _
  | succ n ih =>
      exact keeps_bind (keeps_read _) fun _ => keeps_bind (keeps_read _) fun _ =>
        keeps_bind (hrepeated _ _ _ _) fun _ => ih _ _

/-- Only calls and returns change the call stack. -/
theorem keeps_calling_perform {i : Instruction} (hcall : ∀ frame, i ≠ .call frame)
    (hretn : ∀ frame, i ≠ .retn frame) : Keeps (State.Calling labels) (perform image i) := by
  have none' {x : Exec Unit} (hx : Keeps (State.Calling labels) x) :
      Keeps (State.Calling labels) (x >>= fun _ => (pure none : Exec (Option Word))) :=
    keeps_bind hx fun _ => keeps_pure none
  cases i with
  | label l => exact keeps_pure none
  | push v => exact none' (keeps_calling_push v)
  | popn => exact keeps_bind keeps_calling_pop fun n => none' (keeps_calling_moveTop n)
  | regn register => exact keeps_bind keeps_get fun s => none' (keeps_calling_push s.fp)
  | oper operator => exact none' (keeps_calling_operate operator)
  | load =>
      exact keeps_bind keeps_calling_pop fun a => keeps_bind (keeps_read a) fun v =>
        none' (keeps_calling_push v)
  | save =>
      exact keeps_bind keeps_calling_pop fun a => keeps_bind keeps_calling_pop fun v =>
        none' (keeps_calling_write a v)
  | name l =>
      simp only [perform]
      cases image.addressOf l with
      | ok a => exact none' (keeps_calling_push a)
      | error kind => exact none' (keeps_throw kind)
  | call frame => exact absurd rfl (hcall frame)
  | retn frame => exact absurd rfl (hretn frame)
  | ujmp => exact keeps_bind keeps_calling_pop fun target => none' (keeps_calling_jump target)
  | cjmp =>
      exact keeps_bind keeps_calling_pop fun negative => keeps_bind keeps_calling_pop fun positive =>
        keeps_bind keeps_calling_pop fun condition => none' (keeps_calling_jump _)
  | init =>
      exact keeps_bind keeps_calling_pop fun encoding =>
        keeps_bind keeps_calling_pop fun destination =>
          none' (keeps_bind (keeps_read _) fun groups => keeps_calling_expandGroups _ _ _)

theorem keeps_calling_system (function : SystemFunction) (a : Word) :
    Keeps (State.Calling labels) (system function (read a)) := by
  have hemit : ∀ bytes, Keeps (State.Calling labels) (emit bytes) := by
    intro bytes s hs
    obtain ⟨output, -, h⟩ | ⟨output, -, h⟩ := emit_run bytes s
    · rw [after_ok h]
      exact hs
    · rw [after_error h]
      exact hs
  cases function with
  | exit => exact keeps_read a
  | getint =>
      refine keeps_bind (keeps_modifyGet fun _ h => h) fun line => ?_
      cases readInteger line with
      | ok value => exact keeps_pure value
      | error error => exact keeps_throw _
  | putint =>
      exact keeps_bind (keeps_read a) fun _ => keeps_bind (hemit _) fun _ => keeps_pure _
  | getchr =>
      refine keeps_bind (keeps_modifyGet fun _ h => h) fun b => ?_
      cases b with
      | some b => exact keeps_pure _
      | none => exact keeps_pure _
  | putchr =>
      exact keeps_bind (keeps_read a) fun _ => keeps_bind (hemit _) fun _ => keeps_pure _
  | putstr =>
      refine keeps_bind (keeps_read a) fun text => keeps_bind (fun s hs => ?_) fun _ => keeps_pure _
      rw [after, emitText]
      by_cases ha : s.memory.Holds text
      · rw [if_pos ha]
        rcases s.memory.copyText s.output text.toInt.toNat with ⟨output, _ | _⟩ <;> exact hs
      · rw [if_neg ha]
        exact hs
  | new =>
      refine keeps_bind (keeps_read a) fun size s hs => ?_
      simp only [after, allocate]
      by_cases hfits : (size < 0 || !fitsWord (size.toInt + 3)) = true
      · rw [if_pos hfits]
        exact hs
      · rw [if_neg hfits]
        by_cases hroom : s.heapEnd.toInt + size.alignUp.toInt ≤ s.sp.toInt
        · rw [if_pos hroom]
          exact hs
        · rw [if_neg hroom]
          exact hs
  | del => exact keeps_pure _

theorem calling_of_error {α : Type} {x : Exec α} (h : ∀ labels, Keeps (State.Calling labels) x)
    (herror : x s = .error kind s') : s'.callStack = s.callStack := by
  have hafter : State.Calling s.callStack (x.after s) := h s.callStack s rfl
  rwa [after_error herror] at hafter

theorem calling_of_ok {α : Type} {x : Exec α} {a : α}
    (h : ∀ labels, Keeps (State.Calling labels) x) (hok : x s = .ok a s') :
    s'.callStack = s.callStack := by
  have hafter : State.Calling s.callStack (x.after s) := h s.callStack s rfl
  rwa [after_ok hok] at hafter

/-- A system function that fails is still active. -/
theorem callSystem_calling {function : SystemFunction} {frame : Frame}
    (h : callSystem function frame s = .error kind s') : s'.callStack = s.callStack := by
  rw [callSystem, bind_ok (get_run s)] at h
  cases hsystem : system function (read (s.sp + 4)) s with
  | error kind' s₁ =>
      rw [bind_error hsystem] at h
      cases h
      exact calling_of_error (fun _ => keeps_calling_system function _) hsystem
  | ok v s₁ =>
      rw [bind_ok hsystem] at h
      have hcalling := calling_of_ok (fun _ => keeps_calling_system function _) hsystem
      split at h
      · cases h
      · cases hwrite : write (s.sp + .ofInt (frame.parametersSize - linkSize)) v s₁ with
        | error kind' s₂ =>
            rw [bind_error hwrite] at h
            cases h
            exact (calling_of_error (fun _ => keeps_calling_write _ _) hwrite).trans hcalling
        | ok u s₂ =>
            rw [bind_ok hwrite, bind_ok (modify_run _ _), leave, bind_ok (modify_run _ _)] at h
            cases h

/-- A call that fails has its function on the call stack. -/
theorem call_calling {target : Word} {frame : Frame}
    (h : call image target frame s = .error kind s') :
    s'.callStack = frame.label :: s.callStack := by
  rw [call, enter, bind_ok (modify_run _ _)] at h
  cases htarget : SystemFunction.ofAddress? target with
  | some function =>
      simp only [htarget] at h
      exact callSystem_calling h
  | none =>
      simp only [htarget] at h
      refine calling_of_error (fun _ => ?_) h
      exact keeps_bind keeps_get fun s => keeps_bind (keeps_calling_jump target) fun _ =>
        keeps_bind (keeps_modify fun _ h => h) fun _ => keeps_bind (keeps_calling_push _) fun _ =>
          keeps_bind (keeps_calling_push _) fun _ => keeps_pure none

end Exec

/-! ## Running programs -/

/-- The call stack of a program in control is right. -/
theorem InControl.tracesCalls {T : Target} {program : Program} {segments : Segments} {image : Image}
    {s s₀ : State} (h : InControl T program segments image s)
    (hexecutable : Executable program T segments image s₀) :
    ∃ addresses, s.TracesCalls T segments addresses := by
  obtain ⟨A, older, base, σ, code, hrunning, hflows⟩ := h
  have hchain := hrunning.chain
  have hlt := hrunning.stack.size_lt
  have hstart := hrunning.stack.start_le
  have hheap := hrunning.stack.heap_le
  have hlow : ∀ X ∈ A :: older, X.path ≠ [] → (s.memory.dataStart : Int) ≤ X.address - 8 := by
    intro X hX hpath
    rcases List.mem_cons.mp hX with rfl | holder
    · have hbase := hrunning.base_le hpath
      omega
    · have hlocals := (hchain.stands X hX).sizes hpath
      have hapart := hchain.apart X holder
      have hbase := hrunning.base_nonneg
      have hparameters := (hchain.stands A List.mem_cons_self).parameters_nonneg
      omega
  refine ⟨((A :: older).filterMap Activation.frame?).map ActiveFrame.address, ?_, ?_, ?_, ?_⟩
  · rw [hrunning.fp_eq]
    exact hchain.frames hlt (hlow A List.mem_cons_self)
  · rw [hrunning.callStack_eq, List.length_map]
    exact hchain.functions.length_eq.symm
  · rw [hrunning.callStack_eq, hchain.head?_activeLabels, hrunning.pc_eq]
    exact (hchain.stands A List.mem_cons_self).liesIn hexecutable hrunning.suffix hflows.size_pos
  · intro k address hk
    rw [hrunning.callStack_eq]
    exact hchain.returns_within hexecutable hlt hlow hk

namespace Running

variable {T : Target} {program : Program} {segments : Segments} {image : Image} {s s₀ s' : State}
  {A : Activation} {older : List Activation} {base : Int} {σ : List Slot} {rest : Code}
  {i : Located Instruction} {span : Span} {kind : FaultKind}

/-- An instruction that is neither a call nor a return fails with the call stack as it is. -/
theorem reports_other (h : Running T program segments image s A older base σ (i :: rest))
    (hlabel : ∀ l, i.item ≠ .label l) (hcall : ∀ frame, i.item ≠ .call frame)
    (hretn : ∀ frame, i.item ≠ .retn frame) (hfails : Exec.step image s = .error kind s') :
    s.ReportsCalls image ⟨kind, s'.callStack⟩ := by
  have hfetch := h.fetch hlabel
  rw [Exec.step_eq hfetch] at hfails
  refine ⟨fun frame hframe => ?_, fun _ => ?_⟩
  · exact absurd (Option.some.inj (hfetch.symm.trans hframe)) (hcall frame)
  · have hcalling := Exec.calling_of_error (fun _ => Exec.keeps_calling_perform hcall hretn) hfails
    exact hcalling

/-- A call that fails reports the function that it called. -/
theorem reports_call {frame : Frame}
    (h : Running T program segments image s A older base (.label frame.label :: σ)
      (⟨span, .call frame⟩ :: rest)) (hfails : Exec.step image s = .error kind s') :
    s.ReportsCalls image ⟨kind, s'.callStack⟩ := by
  have hfetch : image.fetch? s.pc = some (.call frame) := h.fetch fun _ => Instruction.noConfusion
  have hname := h.slots.1
  have hstack := h.stack
  have hsize := h.address_le
  have hbase := h.base_nonneg
  obtain ⟨sp, hsp⟩ : ∃ sp : Int,
      sp = A.address - base - 4 * ((Slot.label frame.label :: σ).length : Int) := ⟨_, rfl⟩
  rw [← hsp] at hname hstack
  rw [List.length_cons, Nat.cast_add, Nat.cast_one] at hsp
  have hroom : sp + 4 ≤ s.memory.size := by omega
  have hread : s.memory.read s.sp = .ok (s.memory.word sp) := by
    have hstart := hstack.start_le
    have hheap := hstack.heap_le
    rw [hstack.sp_eq, s.memory.read_ofInt hstack.nonneg hstack.lt (by omega) hroom]
  rw [Exec.step_eq hfetch, Exec.perform,
    Exec.bind_ok (Exec.pop_run (hstack.advanced (.call frame)) hroom)] at hfails
  refine ⟨fun frame' hframe' => ?_, fun hno => absurd hfetch (hno frame)⟩
  obtain rfl : frame = frame' :=
    Instruction.call.inj (Option.some.inj (hfetch.symm.trans hframe'))
  have hcalling := Exec.call_calling hfails
  exact ⟨hcalling, _, hread, hname⟩

/-- A fault of a program in control reports its call stack. -/
theorem reports (hexecutable : Executable program T segments image s₀) {code : Code}
    (h : Running T program segments image s A older base σ code)
    (hflows : Flows T program A.toRoutine base σ code)
    (hfails : Exec.step image s = .error kind s') :
    s.ReportsCalls image ⟨kind, s'.callStack⟩ := by
  induction hflows with
  | label hrest ih => exact ih h.skip_label
  | forget hrest ih => exact ih h.forgotten
  | outermost hdepth hrest ih => exact ih (h.linked (List.eq_nil_of_length_eq_zero hdepth))
  | call hpath henv hfind hentity hframe hrest ih => exact h.reports_call hfails
  | exit hlabel hsize => exact h.reports_call hfails
  | retn hdepth =>
      obtain ⟨s'', hstep, -⟩ := h.returns hexecutable.data_fits (List.ne_nil_of_length_pos hdepth)
      rw [hstep] at hfails
      cases hfails
  | _ =>
      exact h.reports_other (fun _ => Instruction.noConfusion) (fun _ => Instruction.noConfusion)
        (fun _ => Instruction.noConfusion) hfails

end Running

namespace Started

variable {source : Source} {memorySize : Nat} {input : List UInt8} {output : Output}
  {analysis : Analysis} {compiled : Compiled} {image : Image} {s₀ s : State}

/-- While a program runs that assigns to names only, the call stack names the functions of its frames.
If the next step fails, the fault reports the call stack, with the function called in front if the
step is a call. -/
theorem call_stack (h : Started source memorySize input output analysis compiled image s₀)
    (hassigns : analysis.program.AssignsNames) (hstores : analysis.program.StoresWords) {n : Nat}
    (hrun : runFor image n s₀ = (.running, s)) :
    (∃ addresses, s.TracesCalls (compiled.target analysis) compiled.segments addresses) ∧
      ∀ fault s', runFor image 1 s = (.faulted fault, s') → s.ReportsCalls image fault := by
  have hcontrol := h.inControl hassigns hstores hrun
  refine ⟨hcontrol.tracesCalls h.executable, fun fault s' hfault => ?_⟩
  obtain ⟨A, older, base, σ, code, hrunning, hflows⟩ := hcontrol
  cases hstep : Exec.step image s with
  | ok value s'' =>
      cases value <;> simp only [runFor, hstep, Prod.mk.injEq, reduceCtorEq, false_and] at hfault
  | error kind s'' =>
      simp only [runFor, hstep, Prod.mk.injEq, Outcome.faulted.injEq] at hfault
      obtain ⟨rfl, rfl⟩ := hfault
      exact hrunning.reports h.executable hflows hstep

def failingSample : Source :=
  ⟨"fun main() = half(4) fun half(n) = n / getint()", .memory⟩

/-- With no input, reading a number is the sixteenth step and fails. -/
theorem call_stack_sample : ∃ analysis compiled image s₀ s s' fault,
    Started failingSample 140 [] {} analysis compiled image s₀ ∧
      analysis.program.AssignsNames ∧ analysis.program.StoresWords ∧
      runFor image 15 s₀ = (.running, s) ∧
      runFor image 1 s = (.faulted fault, s') ∧ fault.callStack = ["getint", "half", "main"] ∧
      (∃ addresses, s.TracesCalls (compiled.target analysis) compiled.segments addresses) ∧
      s.ReportsCalls image fault := by
  have hchecks : (start? failingSample 140 [] {}).any (fun r =>
      decide (r.1.program.AssignsNames ∧ r.1.program.StoresWords ∧
        (runFor r.2.2.1 15 r.2.2.2).1 = .running ∧
        (runFor r.2.2.1 1 (runFor r.2.2.1 15 r.2.2.2).2).1
          = .faulted ⟨.console .endOfInput, ["getint", "half", "main"]⟩)) = true := by
    rw [start?_spelled failingSample rfl (by decide)]
    decide +kernel
  obtain ⟨analysis, compiled, image, s₀, h, htest⟩ := exists_started hchecks
  obtain ⟨hassigns, hstores, hrun, hfault⟩ := of_decide_eq_true htest
  obtain ⟨htraces, hreports⟩ := h.call_stack hassigns hstores (Prod.ext hrun rfl)
  exact ⟨analysis, compiled, image, s₀, _, _, _, h, hassigns, hstores, Prod.ext hrun rfl,
    Prod.ext hfault rfl, rfl, htraces, hreports _ _ (Prod.ext hfault rfl)⟩

end Started

end NestedFun
