import NestedFun.Proofs.StaticLinks
import NestedFun.Proofs.StraightCode

namespace NestedFun

/-!
# Direct values of expressions

What an expression without calls is worth can be read off the memory, wherever its pointers lead: a
name stands for the word at the address of its variable, and a dereference for the word at any
address. The code of the expression pushes this value, or stops with the fault that reading or
dividing leads to.
-/

/-! ## Values -/

/-- What the names of a program and its labels stand for, and how many functions surround the
expressions that are evaluated. -/
structure Setting where
  context : Context
  image : Image
  depth : Nat

/-- A memory in which expressions are evaluated, and the frame of the function that they belong to.
String constants stand for the addresses of their texts. Between the heap and the end of the stack
the memory is free. -/
structure Scene extends Setting where
  text : NodeId → Word
  memory : Memory
  fp : Word
  freeStart : Int
  freeStop : Int

def Context.access? (context : Context) (node : Node) : Option Access :=
  (context.definitions[node.id]?).bind fun id => context.layout.accesses[id]?

/-- The address of the variable that the name at a node refers to: that of a label, or an offset from
the frame that so many static links lead to as functions lie in between. -/
def Scene.addressOf (S : Scene) (node : Node) : Except FaultKind Word :=
  match S.context.access? node with
  | some (.absolute label _ _) => S.image.addressOf label
  | some (.relative offset depth _ _) => do
    return (← S.memory.follow S.fp (S.depth - depth)) + .ofInt offset
  | none => .ok 0

namespace Expression

def callFree : Expression → Bool
  | .literal _ _ | .name _ _ => true
  | .call _ _ _ => false
  | .unary _ _ operand => operand.callFree
  | .binary _ _ left right => left.callFree && right.callFree

mutual

def direct (S : Scene) : Expression → Except FaultKind Word
  | .literal node value =>
    .ok (if value.kind = .string then S.text node.id else value.words.headD 0)
  | .name node _ => do S.memory.read (← S.addressOf node)
  | .call _ _ _ => .ok 0
  | .unary _ operator operand =>
    match operator.kind with
    | .not => do return .ofBool ((← operand.direct S) = 0)
    | .identity => operand.direct S
    | .negate => do return -(← operand.direct S)
    | .addressOf => operand.place S
    | .dereference => do S.memory.read (← operand.direct S)
  | .binary _ operator left right => do
    let y ← right.direct S
    let x ← left.direct S
    operator.kind.apply x y

def place (S : Scene) : Expression → Except FaultKind Word
  | .name node _ => S.addressOf node
  | .unary _ _ operand => operand.direct S
  | .literal _ _ | .call _ _ _ | .binary _ _ _ _ => .ok 0

end

mutual

/-- The addresses of the words that are read for names and dereferences on the way to the value. -/
def reads (S : Scene) : Expression → List Word
  | .literal _ _ | .call _ _ _ => []
  | .name node _ => (S.addressOf node).toOption.toList
  | .unary _ operator operand =>
    match operator.kind with
    | .not | .identity | .negate => operand.reads S
    | .addressOf => operand.placeReads S
    | .dereference => operand.reads S ++ (operand.direct S).toOption.toList
  | .binary _ _ left right =>
    right.reads S ++ if (right.direct S).isOk then left.reads S else []

def placeReads (S : Scene) : Expression → List Word
  | .unary _ _ operand => operand.reads S
  | .literal _ _ | .name _ _ | .call _ _ _ | .binary _ _ _ _ => []

end

/-- How many words the stack grows while an expression is evaluated. -/
def temporaries (context : Context) : Expression → Nat
  | .literal _ _ | .call _ _ _ => 1
  | .name node _ =>
    match context.access? node with
    | some (.relative _ _ _ _) => 2
    | _ => 1
  | .unary _ _ operand => operand.temporaries context
  | .binary _ _ left right => max (right.temporaries context) (1 + left.temporaries context)

end Expression

/-- A text stands among the data of a program, with a label for its address. -/
def Segments.HasText (segments : Segments) (span : Span) (words : List Word) (v : Word) : Prop :=
  ∃ (a : Int) (label : String), v = .ofInt a ∧
    ∀ entry ∈ addressed (fun d : Located Datum => d.item.size) a
      (Data.spanning span (.label label :: words.map .word)), entry ∈ segments.placedData

/-- The texts of all string constants in an expression stand at the given addresses, each with a 0
behind it. -/
def Expression.HasTexts (e : Expression) (segments : Segments) (text : NodeId → Word) : Prop :=
  ∀ node value, .literal node value ∈ e.parts → value.kind = .string →
    segments.HasText node.span (value.words ++ [0]) (text node.id)

namespace Scene

def Apart (S : Scene) (a : Word) : Prop := a.toInt + wordSize ≤ S.freeStart ∨ S.freeStop ≤ a.toInt

instance (S : Scene) (a : Word) : Decidable (S.Apart a) := inferInstanceAs (Decidable (_ ∨ _))

def Linked (S : Scene) : Prop :=
  ∀ n < S.depth, ∃ a, S.memory.follow S.fp n = .ok a ∧ S.memory.Holds a ∧ S.Apart a

end Scene

/-! ## What a state gains -/

namespace State

/-- Below an address memory was written to, down to the heap; nothing but the program counter and the
end of the stack has changed otherwise. -/
structure Keeps (s : State) (sp : Int) (s' : State) : Prop extends s.SameFrame s' where
  memory : Memory.Differs (fun i => s.heapEnd.toInt ≤ i ∧ i < sp) s.memory s'.memory

structure Gains (s : State) (sp pc : Int) (v : Word) (s' : State) : Prop extends s.Keeps sp s' where
  pc_eq : s'.pc = .ofInt pc
  stack : s'.StackAt (sp - 4)
  top : s'.memory.word (sp - 4) = v

variable {s t u : State} {sp b pc : Int} {i : Instruction}

theorem Keeps.refl (s : State) (sp : Int) : s.Keeps sp s :=
  ⟨⟨rfl, rfl, rfl, rfl, rfl⟩, .refl _ _⟩

theorem Keeps.trans (h : s.Keeps sp t) (h' : t.Keeps b u) (hb : b ≤ sp) : s.Keeps sp u := by
  refine ⟨h.toSameFrame.trans h'.toSameFrame, h.memory.trans (h'.memory.mono fun i hi => ?_)⟩
  rw [h.heapEnd_eq] at hi
  exact ⟨hi.1, by omega⟩

/-- A state that has moved on by an instruction and pushed a word. -/
theorem Keeps.gains (h : s.Keeps sp t) (ht : t.StackAt b) (hpc : t.pc = .ofInt pc) (v : Word)
    (i : Instruction) (hroom : s.heapEnd.toInt ≤ sp - 4) (hsp : sp ≤ s.memory.size) :
    s.Gains sp (pc + i.size) v ((t.advanced i).pushed (sp - 4) v) := by
  have hheap := h.heapEnd_eq
  have hsize := h.memory.size_eq
  have h₀ : 0 ≤ sp - 4 := by
    have hstart := ht.start_le
    rw [hheap] at hstart
    omega
  have hstored := Memory.Differs.store t.memory (a := sp - 4) v h₀
  refine ⟨⟨⟨h.fp_eq, hheap, h.callStack_eq, h.input_eq, h.output_eq⟩, ?_⟩, ?_, ?_, ?_⟩
  · refine h.memory.trans (hstored.mono fun j hj => ?_)
    simp only [Memory.Block] at hj
    exact ⟨by omega, by omega⟩
  · show t.pc + _ = _
    rw [hpc, Word.ofInt_add]
  · refine (ht.advanced i).pushed v ?_ ?_
    · show t.heapEnd.toInt ≤ _
      rw [hheap]
      exact hroom
    · show sp - 4 ≤ (t.memory.size : Int)
      rw [hsize]
      omega
  · refine t.memory.word_store_same v h₀ ?_
    rw [hsize]
    omega

end State

/-- From the second state, which code of an expression started in the first leads to, the machine gets
to one with the value on the stack, or it stops with the fault. -/
def Brings (image : Image) (s : State) (sp pc : Int) (t : State) : Except FaultKind Word → Prop
  | .ok v => ∃ s', Leads image t s' ∧ s.Gains sp pc v s'
  | .error kind => ∃ s', Ends image t (.faulted ⟨kind, s.callStack⟩) s' ∧ s'.output = s.output

namespace Brings

variable {image : Image} {s t : State} {sp b pc stop : Int} {span : Span} {rest : Code}
  {i : Instruction} {r l : Except FaultKind Word}

/-- An instruction that pushes the value. -/
theorem of_perform {v : Word} (h : s.Keeps sp t) (ht : t.StackAt b) (hpc : t.pc = .ofInt pc)
    (hcode : image.Holds pc (⟨span, i⟩ :: rest)) (hlabel : ∀ l, i ≠ .label l)
    (hroom : s.heapEnd.toInt ≤ sp - 4) (hsp : sp ≤ s.memory.size)
    (hperform : Exec.perform image i (t.advanced i) = .ok none ((t.advanced i).pushed (sp - 4) v)) :
    Brings image s sp (pc + i.size) t (.ok v) := by
  have hfetch := ((image.holds_cons pc _ rest).mp hcode).1.fetch hlabel
  rw [← hpc] at hfetch
  exact ⟨_, .of_step ((Exec.step_eq hfetch).trans hperform), h.gains ht hpc v i hroom hsp⟩

/-- An instruction that fails. -/
theorem of_error {kind : FaultKind} (h : s.Keeps sp t) (hpc : t.pc = .ofInt pc)
    (hcode : image.Holds pc (⟨span, i⟩ :: rest)) (hlabel : ∀ l, i ≠ .label l)
    (hperform : Exec.perform image i (t.advanced i) = .error kind ((t.advanced i).withTop b)) :
    Brings image s sp stop t (.error kind) := by
  have hfetch := ((image.holds_cons pc _ rest).mp hcode).1.fetch hlabel
  rw [← hpc] at hfetch
  have hends := Ends.of_error ((Exec.step_eq hfetch).trans hperform)
  rw [show ((t.advanced i).withTop b).callStack = s.callStack from h.callStack_eq] at hends
  exact ⟨_, hends, h.output_eq⟩

theorem of_leads {u : State} (hleads : Leads image t u) (h : Brings image s sp pc u r) :
    Brings image s sp pc t r := by
  cases r with
  | ok v =>
      obtain ⟨s', hleads', hgains⟩ := h
      exact ⟨s', hleads.trans hleads', hgains⟩
  | error kind =>
      obtain ⟨s', hends, houtput⟩ := h
      exact ⟨s', hleads.ends hends, houtput⟩

/-- Code that goes on with a value. -/
theorem bind {f : Word → Except FaultKind Word} (h : Brings image s sp pc t r)
    (h' : ∀ v u, r = .ok v → s.Gains sp pc v u → Brings image s sp stop u (f v)) :
    Brings image s sp stop t (r >>= f) := by
  cases r with
  | ok v =>
      obtain ⟨u, hleads, hgains⟩ := h
      exact of_leads hleads (h' v u rfl hgains)
  | error kind => exact h

theorem push (h : s.StackAt sp) (hpc : s.pc = .ofInt pc) (v : Word)
    (hcode : image.Holds pc (⟨span, .push v⟩ :: rest)) (hroom : s.heapEnd.toInt ≤ sp - 4) :
    Brings image s sp (pc + (Instruction.push v).size) s (.ok v) :=
  of_perform (.refl s sp) h hpc hcode (fun _ => Instruction.noConfusion) hroom h.le_size
    ((Exec.perform_push image (h.advanced _) v).fits hroom)

/-- The address of a label. -/
theorem name {l : String} (h : s.StackAt sp) (hpc : s.pc = .ofInt pc)
    (hcode : image.Holds pc (⟨span, .name l⟩ :: rest)) (hroom : s.heapEnd.toInt ≤ sp - 4) :
    Brings image s sp (pc + (Instruction.name l).size) s (image.addressOf l) := by
  obtain ⟨v, hv⟩ := ((image.holds_cons pc _ rest).mp hcode).1.2
  rw [show image.addressOf l = .ok v by simp only [Image.addressOf, hv]]
  exact of_perform (.refl s sp) h hpc hcode (fun _ => Instruction.noConfusion) hroom h.le_size
    ((Exec.perform_name image (h.advanced _) hv).fits hroom)

/-- Loading from the address on the stack. -/
theorem load (read : Word → Except FaultKind Word) (h : Brings image s sp pc t r)
    (hcode : image.Holds pc (⟨span, .load⟩ :: rest)) (hroom : s.heapEnd.toInt ≤ sp - 4)
    (hsp : sp ≤ s.memory.size)
    (hread : ∀ v u, r = .ok v → s.Gains sp pc v u → u.memory.read v = read v) :
    Brings image s sp (pc + Instruction.load.size) t (r >>= read) := by
  refine h.bind fun v u hv hu => ?_
  have hstack := hu.stack.advanced .load
  have hsize : sp - 4 + 4 ≤ (u.advanced .load).memory.size := by
    show sp - 4 + 4 ≤ (u.memory.size : Int)
    rw [hu.memory.size_eq]
    omega
  have hresult : (u.advanced .load).memory.read ((u.advanced .load).memory.word (sp - 4))
      = read v := by
    rw [← hread v u hv hu]
    exact congrArg u.memory.read hu.top
  cases hw : read v with
  | ok w =>
      rw [hw] at hresult
      exact of_perform hu.toKeeps hu.stack hu.pc_eq hcode (fun _ => Instruction.noConfusion) hroom hsp
        (Exec.perform_load_ok image hstack hsize hresult)
  | error kind =>
      rw [hw] at hresult
      exact of_error hu.toKeeps hu.pc_eq hcode (fun _ => Instruction.noConfusion)
        (Exec.perform_load_error image hstack hsize hresult)

/-- An operator of one operand. -/
theorem unary {o : Operator} (h : Brings image s sp pc t r)
    (hcode : image.Holds pc (⟨span, .oper o⟩ :: rest)) (ho : o.isUnary = true)
    (hroom : s.heapEnd.toInt ≤ sp - 4) (hsp : sp ≤ s.memory.size) {f : Word → Word}
    (hf : ∀ v, o.apply 0 v = .ok (f v)) :
    Brings image s sp (pc + (Instruction.oper o).size) t (r >>= fun v => .ok (f v)) := by
  refine h.bind fun v u _ hu => ?_
  have hsize : sp - 4 + 4 ≤ (u.advanced (.oper o)).memory.size := by
    show sp - 4 + 4 ≤ (u.memory.size : Int)
    rw [hu.memory.size_eq]
    omega
  have hresult : o.apply 0 ((u.advanced (.oper o)).memory.word (sp - 4)) = .ok (f v) := by
    rw [← hf v]
    exact congrArg (o.apply 0) hu.top
  exact of_perform hu.toKeeps hu.stack hu.pc_eq hcode (fun _ => Instruction.noConfusion) hroom hsp
    (Exec.perform_unary image (hu.stack.advanced _) hsize ho hresult)

/-- An operator of two operands, of which the second is computed with the first on the stack. -/
theorem binary {o : Operator} {mid : Int} (h : Brings image s sp pc t r)
    (h' : ∀ y u, r = .ok y → s.Gains sp pc y u → Brings image u (sp - 4) mid u l)
    (hcode : image.Holds mid (⟨span, .oper o⟩ :: rest)) (ho : o.isUnary = false)
    (hroom : s.heapEnd.toInt ≤ sp - 4) (hsp : sp ≤ s.memory.size) :
    Brings image s sp (mid + (Instruction.oper o).size) t
      (r >>= fun y => l >>= fun x => o.apply y x) := by
  refine h.bind fun y u hy hu => ?_
  have hl := h' y u hy hu
  cases l with
  | error kind =>
      obtain ⟨s', hends, houtput⟩ := hl
      rw [hu.callStack_eq] at hends
      exact ⟨s', hends, houtput.trans hu.output_eq⟩
  | ok x =>
      obtain ⟨w, hleads, hw⟩ := hl
      refine of_leads hleads ?_
      have hkeeps := hu.toKeeps.trans hw.toKeeps (by omega)
      have hstack := hw.stack.advanced (.oper o)
      have hsize : sp - 4 - 4 + 8 ≤ (w.advanced (.oper o)).memory.size := by
        show sp - 4 - 4 + 8 ≤ (w.memory.size : Int)
        rw [hkeeps.memory.size_eq]
        omega
      have hfirst : (w.advanced (.oper o)).memory.word (sp - 4 - 4 + 4) = y := by
        rw [← hu.top, show sp - 4 - 4 + 4 = sp - 4 by omega]
        refine hw.memory.word_eq hu.stack.nonneg fun i hi hi' => ?_
        simp only [Memory.Block] at hi
        omega
      have hresult : o.apply ((w.advanced (.oper o)).memory.word (sp - 4 - 4 + 4))
          ((w.advanced (.oper o)).memory.word (sp - 4 - 4)) = o.apply y x := by
        rw [hfirst]
        exact congrArg (o.apply y) hw.top
      show Brings image s sp _ w (o.apply y x)
      cases hv : o.apply y x with
      | ok v =>
          rw [hv] at hresult
          have hperform := Exec.perform_binary image hstack hsize ho hresult
          rw [show sp - 4 - 4 + 4 = sp - 4 by omega] at hperform
          exact of_perform hkeeps hw.stack hw.pc_eq hcode (fun _ => Instruction.noConfusion) hroom
            hsp hperform
      | error kind =>
          rw [hv] at hresult
          exact of_error hkeeps hw.pc_eq hcode (fun _ => Instruction.noConfusion)
            (Exec.perform_binary_error image hstack hsize ho hresult)

end Brings

/-! ## Code of expressions -/

/-- The state shows the memory of a scene, but for words that were written where it is free. -/
structure Scene.Shows (S : Scene) (s : State) (sp : Int) : Prop where
  stack : s.StackAt sp
  sp_le : sp ≤ S.freeStop
  fp_eq : s.fp = S.fp
  heapEnd_eq : s.heapEnd.toInt = S.freeStart
  memory : Memory.Differs (fun i => S.freeStart ≤ i ∧ i < S.freeStop) S.memory s.memory

namespace Scene.Shows

variable {S : Scene} {s s' : State} {sp pc : Int} {v : Word}

theorem gains (h : S.Shows s sp) (hs' : s.Gains sp pc v s') : S.Shows s' (sp - 4) where
  stack := hs'.stack
  sp_le := by
    have hsp := h.sp_le
    omega
  fp_eq := hs'.fp_eq.trans h.fp_eq
  heapEnd_eq := by rw [hs'.heapEnd_eq, h.heapEnd_eq]
  memory := by
    refine h.memory.trans (hs'.memory.mono fun i hi => ?_)
    have hsp := h.sp_le
    rw [h.heapEnd_eq] at hi
    exact ⟨hi.1, by omega⟩

theorem read_eq (h : S.Shows s sp) {a : Word} (ha : S.memory.Holds a → S.Apart a) :
    s.memory.read a = S.memory.read a := by
  refine h.memory.read_eq fun hholds i hi hi' => ?_
  have hapart := ha hholds
  simp only [Memory.Block, Scene.Apart, wordSize] at hi hapart
  omega

end Scene.Shows

/-- Code computes what a scene says, whatever state shows the scene; `need` words of the stack have to
be free for that. Of the texts only those with the given numbers matter. -/
def Setting.Realizes (setting : Setting) (ids : List NodeId) (need : Nat) (code : Code)
    (text : NodeId → Word) (value : Scene → Except FaultKind Word) (reads : Scene → List Word) :
    Prop :=
  ∀ (S : Scene) (s : State) (sp pc : Int), S.toSetting = setting → (∀ id ∈ ids, S.text id = text id) →
    S.Shows s sp → S.Linked → S.freeStart ≤ sp - 4 * need → s.pc = .ofInt pc →
    setting.image.Holds pc code → (∀ a ∈ reads S, S.memory.Holds a → S.Apart a) →
    Brings setting.image s sp (pc + code.size) s (value S)

theorem Context.access?_of_accessOf {context : Context} {node : Node} {access : Access}
    (h : context.accessOf node.id = .ok access) : context.access? node = some access := by
  obtain ⟨id, hid, haccess⟩ := bind_eq_ok h
  rw [access?]
  rw [definitionOf] at hid
  rw [Layout.access] at haccess
  split at hid
  · rename_i id' hid'
    cases hid
    split at haccess
    · rename_i access' haccess'
      cases haccess
      rw [hid', Option.bind_some, haccess']
    · cases haccess
  · cases hid

namespace Scene.Shows

variable {S : Scene} {s : State} {sp pc : Int} {code rest : Code} {span : Span}

/-- The links are followed. -/
theorem follow (h : S.Shows s sp) (hlinked : S.Linked) (hroom : S.freeStart ≤ sp - 4)
    (hpc : s.pc = .ofInt pc) {hops : Nat} (hhops : hops ≤ S.depth)
    (hcode : S.image.Holds pc (Code.spanning span (frameAddress hops))) :
    Brings S.image s sp (pc + Code.size (Code.spanning span (frameAddress hops))) s
      (S.memory.follow S.fp hops) := by
  have hroom' : s.heapEnd.toInt ≤ sp - 4 := h.heapEnd_eq ▸ hroom
  have hsize := h.stack.le_size
  induction hops with
  | zero =>
      have hperform := (Exec.perform_regn S.image
        (h.stack.advanced (.regn .framePointer))).fits hroom'
      have hbrings := Brings.of_perform (.refl s sp) h.stack hpc hcode
        (fun _ => Instruction.noConfusion) hroom' hsize hperform
      rw [show (s.advanced (.regn .framePointer)).fp = S.fp from h.fp_eq] at hbrings
      exact hbrings
  | succ hops ih =>
      have hsplit : Code.spanning span (frameAddress (hops + 1))
          = Code.spanning span (frameAddress hops) ++ Code.spanning span [.load] := by
        rw [← spanning_append]
        simp [frameAddress, List.replicate_succ']
      rw [hsplit, Image.holds_append] at hcode
      have hload := (ih (by omega) hcode.1).load S.memory.read hcode.2 hroom' hsize
        fun v u hv hu => (h.gains hu).read_eq fun _ => by
          obtain ⟨a, ha, -, hapart⟩ := hlinked hops (by omega)
          cases hv.symm.trans ha
          exact hapart
      rw [hsplit, Code.size_append, ← add_assoc]
      exact hload

/-- The address of a variable is put together. -/
theorem address (h : S.Shows s sp) (hlinked : S.Linked) {node : Node} {name : Identifier}
    (hroom : S.freeStart ≤ sp - 4 * (Expression.name node name).temporaries S.context)
    (hpc : s.pc = .ofInt pc) {frame : Frame} (hframe : frame.depth = S.depth)
    (hok : nameAddress S.context frame node = .ok code) (hcode : S.image.Holds pc code) :
    Brings S.image s sp (pc + code.size) s (S.addressOf node) := by
  have hheap := h.heapEnd_eq
  obtain ⟨access, haccess, hok⟩ := bind_eq_ok hok
  have haccess' := Context.access?_of_accessOf haccess
  rw [Expression.temporaries, haccess'] at hroom
  rw [Scene.addressOf, haccess']
  cases access with
  | absolute label size contents =>
      simp only at hroom
      cases hok
      exact Brings.name h.stack hpc hcode (by omega)
  | relative offset depth size contents =>
      simp only at hok hroom
      split at hok
      · cases hok
        rw [spanning_append, Image.holds_append] at hcode
        rw [spanning_append, Code.size_append, ← hframe]
        have hfollow := h.follow hlinked (by omega) hpc (by omega) hcode.1
        have hadd := hfollow.binary (o := .add) (l := .ok (.ofInt offset)) (fun v u _ hu =>
          Brings.push hu.stack hu.pc_eq (.ofInt offset) hcode.2 (by rw [hu.heapEnd_eq]; omega))
          ((S.image.holds_cons _ _ _).mp hcode.2).2 rfl (by omega) h.stack.le_size
        rw [add_assoc, add_assoc] at hadd
        exact hadd
      · cases hok

end Scene.Shows

def Setting.Places (setting : Setting) (segments : Segments) (data : Data) : Prop :=
  ∃ a, ∀ entry ∈ addressed (fun d : Located Datum => d.item.size) a data,
    entry ∈ segments.placedData ∧
      ∀ l, entry.2.item = .label l → setting.image.labels[l]? = some (.ofInt entry.1)

namespace Expression

theorem one_le_temporaries (e : Expression) (context : Context) :
    1 ≤ e.temporaries context := by
  cases e with
  | literal node value => exact le_rfl
  | call node callee arguments => exact le_rfl
  | name node name =>
      rw [temporaries]
      split <;> omega
  | unary node operator operand => exact operand.one_le_temporaries context
  | binary node operator left right =>
      exact le_max_of_le_left (right.one_le_temporaries context)

theorem HasTexts.unary {node : Node} {operator : UnaryOperator} {operand : Expression}
    {segments : Segments} {text : NodeId → Word} (h : operand.HasTexts segments text) :
    (Expression.unary node operator operand).HasTexts segments text := by
  intro node' value hpart hkind
  rcases List.mem_cons.mp hpart with heq | hpart
  · cases heq
  · exact h node' value hpart hkind

mutual

theorem node_id_mem {e part : Expression} (h : part ∈ e.parts) : part.node.id ∈ e.ids := by
  cases e with
  | literal node value =>
      cases List.mem_singleton.mp h
      simp [ids, Expression.node]
  | name node name =>
      cases List.mem_singleton.mp h
      simp [ids, Expression.node]
  | call node callee arguments =>
      rcases List.mem_cons.mp h with rfl | h
      · simp [ids, Expression.node]
      · exact List.mem_append_left _ (List.mem_cons_of_mem _ (node_id_mem_expressionIds h))
  | unary node operator operand =>
      rcases List.mem_cons.mp h with rfl | h
      · simp [ids, Expression.node]
      · exact List.mem_append_left _ (node_id_mem h)
  | binary node operator left right =>
      rcases List.mem_cons.mp h with rfl | h
      · simp [ids, Expression.node]
      · rcases List.mem_append.mp h with h | h
        · exact List.mem_append_left _ (List.mem_append_left _ (node_id_mem h))
        · exact List.mem_append_left _ (List.mem_append_right _ (node_id_mem h))

theorem node_id_mem_expressionIds {es : List Expression} {part : Expression}
    (h : part ∈ expressionParts es) : part.node.id ∈ expressionIds es := by
  cases es with
  | nil => cases h
  | cons e es =>
      rcases List.mem_append.mp h with h | h
      · exact List.mem_append_left _ (node_id_mem h)
      · exact List.mem_append_right _ (node_id_mem_expressionIds h)

end

theorem HasTexts.congr {e : Expression} {segments : Segments} {text text' : NodeId → Word}
    (h : e.HasTexts segments text) (htext : ∀ id ∈ e.ids, text' id = text id) :
    e.HasTexts segments text' := by
  intro node value hpart hkind
  rw [show text' node.id = text node.id from htext _ (node_id_mem hpart)]
  exact h node value hpart hkind

theorem HasTexts.binary {node : Node} {operator : BinaryOperator} {left right : Expression}
    {segments : Segments} {text : NodeId → Word} (hleft : left.HasTexts segments text)
    (hright : right.HasTexts segments text) :
    (Expression.binary node operator left right).HasTexts segments text := by
  intro node' value hpart hkind
  rcases List.mem_cons.mp hpart with heq | hpart
  · cases heq
  · rcases List.mem_append.mp hpart with hpart | hpart
    · exact hleft node' value hpart hkind
    · exact hright node' value hpart hkind

end Expression

section

variable {setting : Setting} {segments : Segments} {frame : Frame} {g g' : Generated} {code : Code}

theorem Setting.Realizes.of_name {node : Node} {name : Identifier} {address : Code}
    (hframe : frame.depth = setting.depth)
    (hok : nameAddress setting.context frame node = .ok address) (text : NodeId → Word) :
    setting.Realizes (Expression.name node name).ids
      ((Expression.name node name).temporaries setting.context)
      (address ++ Code.spanning node.span [.load]) text (Expression.name node name).direct
      (Expression.name node name).reads := by
  rintro S s sp pc rfl - hshows hlinked hroom hpc hcode hreads
  have hheap := hshows.heapEnd_eq
  rw [Image.holds_append] at hcode
  have haddress := hshows.address hlinked hroom hpc hframe hok hcode.1
  have hneed := (Expression.name node name).one_le_temporaries S.context
  have hload := haddress.load S.memory.read hcode.2 (by omega) hshows.stack.le_size
    fun v u hv hu => (hshows.gains hu).read_eq (hreads v (by
      show v ∈ (S.addressOf node).toOption.toList
      rw [hv]
      exact List.mem_singleton_self v))
  rw [Code.size_append, ← add_assoc]
  show Brings _ s sp _ s ((Expression.name node name).direct S)
  rw [Expression.direct]
  exact hload

theorem Setting.Realizes.of_address {node : Node} {name : Identifier}
    (hframe : frame.depth = setting.depth)
    (hok : nameAddress setting.context frame node = .ok code) (text : NodeId → Word) :
    setting.Realizes (Expression.name node name).ids
      ((Expression.name node name).temporaries setting.context) code text
      (Expression.name node name).place (Expression.name node name).placeReads := by
  rintro S s sp pc rfl - hshows hlinked hroom hpc hcode -
  show Brings _ s sp _ s ((Expression.name node name).place S)
  rw [Expression.place]
  exact hshows.address hlinked hroom hpc hframe hok hcode

theorem Setting.Realizes.congr {ids ids' : List NodeId} {need need' : Nat} {text : NodeId → Word}
    {value value' : Scene → Except FaultKind Word} {reads reads' : Scene → List Word}
    (h : setting.Realizes ids need code text value reads) (hids : ids ⊆ ids') (hneed : need' = need)
    (hvalue : ∀ S, value' S = value S) (hreads : ∀ S, reads' S = reads S) :
    setting.Realizes ids' need' code text value' reads' := by
  obtain rfl := funext hvalue
  obtain rfl := funext hreads
  subst hneed
  exact fun S s sp pc hsetting htext => h S s sp pc hsetting fun id hid => htext id (hids hid)

/-- Code followed by an operator of one operand. -/
theorem Setting.Realizes.unary {ids : List NodeId} {need : Nat} {text : NodeId → Word}
    {value : Scene → Except FaultKind Word} {reads : Scene → List Word} {o : Operator} {span : Span}
    (h : setting.Realizes ids need code text value reads) (hneed : 1 ≤ need)
    (ho : o.isUnary = true) {f : Word → Word} (hf : ∀ v, o.apply 0 v = .ok (f v)) :
    setting.Realizes ids need (code ++ Code.spanning span [.oper o]) text
      (fun S => value S >>= fun v => .ok (f v)) reads := by
  rintro S s sp pc rfl htext hshows hlinked hroom hpc hcode hreads
  have hheap := hshows.heapEnd_eq
  rw [Image.holds_append] at hcode
  have hvalue := h S s sp pc rfl htext hshows hlinked hroom hpc hcode.1 hreads
  rw [Code.size_append, ← add_assoc]
  exact hvalue.unary hcode.2 ho (by omega) hshows.stack.le_size hf

/-- Code followed by a dereference. -/
theorem Setting.Realizes.dereference {ids : List NodeId} {need : Nat} {text : NodeId → Word}
    {value : Scene → Except FaultKind Word} {reads : Scene → List Word} {span : Span}
    (h : setting.Realizes ids need code text value reads) (hneed : 1 ≤ need) :
    setting.Realizes ids need (code ++ Code.spanning span [.load]) text
      (fun S => value S >>= S.memory.read) (fun S => reads S ++ (value S).toOption.toList) := by
  rintro S s sp pc rfl htext hshows hlinked hroom hpc hcode hreads
  have hheap := hshows.heapEnd_eq
  rw [Image.holds_append] at hcode
  have hvalue := h S s sp pc rfl htext hshows hlinked hroom hpc hcode.1
    fun a ha => hreads a (List.mem_append_left _ ha)
  rw [Code.size_append, ← add_assoc]
  exact hvalue.load S.memory.read hcode.2 (by omega) hshows.stack.le_size fun v u hv hu =>
    (hshows.gains hu).read_eq (hreads v (List.mem_append_right _ (by
      rw [hv]
      exact List.mem_singleton_self v)))

/-- Code of the right operand, code of the left one, and an operator. -/
theorem Setting.Realizes.binary {ids ids₁ ids₂ : List NodeId} {need₁ need₂ : Nat}
    {text text₁ text₂ : NodeId → Word} {code₁ code₂ : Code}
    {value₁ value₂ : Scene → Except FaultKind Word} {reads₁ reads₂ : Scene → List Word} {span : Span}
    (kind : BinaryKind) (h₁ : setting.Realizes ids₁ need₁ code₁ text₁ value₁ reads₁)
    (h₂ : setting.Realizes ids₂ need₂ code₂ text₂ value₂ reads₂)
    (hids₁ : ids₁ ⊆ ids) (hids₂ : ids₂ ⊆ ids) (htext₁ : ∀ id ∈ ids₁, text id = text₁ id)
    (htext₂ : ∀ id ∈ ids₂, text id = text₂ id) (hneed : 1 ≤ need₁) :
    setting.Realizes ids (max need₁ (1 + need₂))
      (code₁ ++ code₂ ++ Code.spanning span [.oper kind.stackOperator]) text
      (fun S => value₁ S >>= fun y => value₂ S >>= fun x => kind.apply x y)
      (fun S => reads₁ S ++ if (value₁ S).isOk then reads₂ S else []) := by
  rintro S s sp pc rfl htext hshows hlinked hroom hpc hcode hreads
  have hheap := hshows.heapEnd_eq
  rw [Image.holds_append, Image.holds_append] at hcode
  push_cast at hroom
  have hright := h₁ S s sp pc rfl (fun id hid => by rw [htext id (hids₁ hid), htext₁ id hid]) hshows
    hlinked (by omega) hpc hcode.1.1 fun a ha => hreads a (List.mem_append_left _ ha)
  have hleft : ∀ y u, value₁ S = .ok y → s.Gains sp (pc + code₁.size) y u →
      Brings S.image u (sp - 4) (pc + code₁.size + code₂.size) u (value₂ S) := by
    intro y u hy hu
    refine h₂ S u (sp - 4) _ rfl (fun id hid => by rw [htext id (hids₂ hid), htext₂ id hid])
      (hshows.gains hu) hlinked (by omega) hu.pc_eq hcode.1.2 fun a ha => hreads a ?_
    refine List.mem_append_right _ ?_
    rw [hy]
    exact ha
  rw [Code.size_append] at hcode
  have hoper := hright.binary hleft (by rw [add_assoc]; exact hcode.2)
    kind.isUnary_stackOperator (by omega) hshows.stack.le_size
  simp only [BinaryKind.apply_stackOperator] at hoper
  rw [Code.size_append, Code.size_append, ← add_assoc, ← add_assoc]
  exact hoper

/-- The value of a literal. -/
theorem Expression.literal_realized {node : Node} {value : Literal} (hwell : value.WellFormed)
    (h : (Expression.literal node value).value setting.context frame g = .ok (code, g'))
    (hplaced : ∀ data ∈ g'.strings.toList, setting.Places segments data) :
    (∀ data ∈ g.strings.toList, data ∈ g'.strings.toList) ∧
      ∃ text, (Expression.literal node value).HasTexts segments text ∧
        setting.Realizes (Expression.literal node value).ids 1 code text
          (Expression.literal node value).direct (Expression.literal node value).reads := by
  rcases Expression.literal_generated h with ⟨hkind, rfl, rfl⟩ | ⟨hkind, rfl, rfl⟩
  · obtain ⟨w, hw⟩ := List.length_eq_one_iff.mp (hwell.length_words hkind)
    rw [hw]
    refine ⟨fun _ hdata => hdata, fun _ => 0, ?_, ?_⟩
    · intro node' value' hpart hkind'
      cases List.mem_singleton.mp hpart
      exact absurd hkind' hkind
    · rintro S s sp pc rfl - hshows - hroom hpc hcode -
      show Brings _ s sp _ s ((Expression.literal node value).direct S)
      rw [Expression.direct, if_neg hkind, hw]
      exact Brings.push hshows.stack hpc w hcode (by rw [hshows.heapEnd_eq]; omega)
  · refine ⟨fun data hdata => by simp [hdata], ?_⟩
    obtain ⟨a, ha⟩ := hplaced _ (mem_toList_push _ _)
    refine ⟨fun _ => .ofInt a, ?_, ?_⟩
    · intro node' value' hpart _
      cases List.mem_singleton.mp hpart
      exact ⟨a, _, rfl, fun entry hentry => (ha entry hentry).1⟩
    · rintro S s sp pc rfl htext hshows - hroom hpc hcode -
      have hlabel := (ha _ List.mem_cons_self).2 _ rfl
      have hname := Brings.name hshows.stack hpc hcode (by rw [hshows.heapEnd_eq]; omega)
      rw [Image.addressOf, hlabel] at hname
      show Brings _ s sp _ s ((Expression.literal node value).direct S)
      rw [Expression.direct, if_pos hkind, htext _ (by simp [Expression.ids])]
      exact hname

mutual

/-- The code for the value of an expression brings its direct value. -/
theorem Expression.value_realized (e : Expression) (hfree : e.callFree = true) (hread : e.IsRead)
    (hframe : frame.depth = setting.depth) {g g' : Generated} {code : Code}
    (h : e.value setting.context frame g = .ok (code, g'))
    (hplaced : ∀ data ∈ g'.strings.toList, setting.Places segments data) :
    (∀ data ∈ g.strings.toList, data ∈ g'.strings.toList) ∧
      ∃ text, e.HasTexts segments text ∧
        setting.Realizes e.ids (e.temporaries setting.context) code text e.direct e.reads := by
  cases e with
  | literal node value => exact literal_realized hread.wellFormed h hplaced
  | name node name =>
      obtain ⟨address, haddress, rfl, rfl⟩ := Expression.name_generated h
      refine ⟨fun _ hdata => hdata, fun _ => 0, fun node' value hpart => ?_,
        .of_name hframe haddress _⟩
      cases List.mem_singleton.mp hpart
  | call node callee arguments => cases hfree
  | unary node operator operand =>
      have hread' : operand.IsRead := ⟨hread.nodup.of_append_left, hread.wellFormed⟩
      have hids : operand.ids ⊆ (Expression.unary node operator operand).ids :=
        List.subset_append_left _ _
      have hneed := operand.one_le_temporaries setting.context
      rcases Expression.unary_generated h with ⟨hkind, hc⟩ | ⟨hkind, hc⟩ | ⟨c, hc, hkind⟩
      · obtain ⟨hgrows, text, htexts, hrealizes⟩ :=
          operand.value_realized hfree hread' hframe hc hplaced
        exact ⟨hgrows, text, htexts.unary, hrealizes.congr hids rfl
          (fun S => by simp only [Expression.direct, hkind])
          (fun S => by simp only [Expression.reads, hkind])⟩
      · obtain ⟨hgrows, text, htexts, hrealizes⟩ :=
          operand.address_realized hfree hread' hframe hc hplaced
        exact ⟨hgrows, text, htexts.unary, hrealizes.congr hids rfl
          (fun S => by simp only [Expression.direct, hkind])
          (fun S => by simp only [Expression.reads, hkind])⟩
      · obtain ⟨hgrows, text, htexts, hrealizes⟩ :=
          operand.value_realized hfree hread' hframe hc hplaced
        refine ⟨hgrows, text, htexts.unary, ?_⟩
        rcases hkind with ⟨hkind, rfl⟩ | ⟨hkind, rfl⟩ | ⟨hkind, rfl⟩
        · exact (hrealizes.unary hneed rfl fun _ => rfl).congr hids rfl
            (fun S => by simp only [Expression.direct, hkind]; rfl)
            (fun S => by simp only [Expression.reads, hkind])
        · exact (hrealizes.unary hneed rfl fun _ => rfl).congr hids rfl
            (fun S => by simp only [Expression.direct, hkind]; rfl)
            (fun S => by simp only [Expression.reads, hkind])
        · exact (hrealizes.dereference hneed).congr hids rfl
            (fun S => by simp only [Expression.direct, hkind])
            (fun S => by simp only [Expression.reads, hkind])
  | binary node operator left right =>
      have hnodup := hread.nodup.of_append_left
      have hdisjoint := List.disjoint_of_nodup_append hnodup
      obtain ⟨hfreeLeft, hfreeRight⟩ := (Bool.and_eq_true _ _).mp hfree
      obtain ⟨r, g₁, l, hr, hl, rfl⟩ := Expression.binary_generated h
      obtain ⟨hgrowsLeft, textLeft, htextsLeft, hleft⟩ := left.value_realized hfreeLeft
        ⟨hnodup.of_append_left, hread.wellFormed.1⟩ hframe hl hplaced
      obtain ⟨hgrowsRight, textRight, htextsRight, hright⟩ := right.value_realized hfreeRight
        ⟨hnodup.of_append_right, hread.wellFormed.2⟩ hframe hr
        fun data hdata => hplaced data (hgrowsLeft data hdata)
      -- the operands have different nodes, so the addresses of their texts go together
      have hinLeft : ∀ id ∈ left.ids, (if id ∈ right.ids then textRight id else textLeft id)
          = textLeft id := fun id hid => if_neg (hdisjoint hid)
      have hinRight : ∀ id ∈ right.ids, (if id ∈ right.ids then textRight id else textLeft id)
          = textRight id := fun id hid => if_pos hid
      refine ⟨fun data hdata => hgrowsLeft data (hgrowsRight data hdata),
        fun id => if id ∈ right.ids then textRight id else textLeft id, ?_, ?_⟩
      · exact .binary (htextsLeft.congr hinLeft) (htextsRight.congr hinRight)
      · exact hright.binary operator.kind hleft
          (fun id hid => List.mem_append_left _ (List.mem_append_right _ hid))
          (fun id hid => List.mem_append_left _ (List.mem_append_left _ hid)) hinRight hinLeft
          (right.one_le_temporaries setting.context)

theorem Expression.address_realized (e : Expression) (hfree : e.callFree = true) (hread : e.IsRead)
    (hframe : frame.depth = setting.depth) {g g' : Generated} {code : Code}
    (h : e.address setting.context frame g = .ok (code, g'))
    (hplaced : ∀ data ∈ g'.strings.toList, setting.Places segments data) :
    (∀ data ∈ g.strings.toList, data ∈ g'.strings.toList) ∧
      ∃ text, e.HasTexts segments text ∧
        setting.Realizes e.ids (e.temporaries setting.context) code text e.place e.placeReads := by
  cases e with
  | literal node value => cases h
  | name node name =>
      obtain ⟨haddress, rfl⟩ := Expression.name_address_generated h
      refine ⟨fun _ hdata => hdata, fun _ => 0, fun node' value hpart => ?_,
        .of_address hframe haddress _⟩
      cases List.mem_singleton.mp hpart
  | call node callee arguments => cases h
  | unary node operator operand =>
      obtain ⟨hgrows, text, htexts, hrealizes⟩ := operand.value_realized hfree
        ⟨hread.nodup.of_append_left, hread.wellFormed⟩ hframe
        (Expression.unary_address_generated h).2 hplaced
      exact ⟨hgrows, text, htexts.unary, hrealizes.congr (List.subset_append_left _ _) rfl
        (fun S => by simp only [Expression.place]) (fun S => by simp only [Expression.placeReads])⟩
  | binary node operator left right => cases h

end

end

/-! ## Compiled programs -/

def State.scene (s : State) (setting : Setting) (text : NodeId → Word) : Scene :=
  { setting with
    text
    memory := s.memory
    fp := s.fp
    freeStart := s.heapEnd.toInt
    freeStop := s.sp.toInt }

/-- The code that was generated for the value of an expression of a function stands at an address,
between the other code of the function. -/
structure Compiled.PlacesValue (compiled : Compiled) (analysis : Analysis) (image : Image)
    (head : FunctionHead) (frame : Frame) (e : Expression) (code : Code) (pc : Int) : Prop where
  frame_eq : compiled.layout.frames[head.id]? = some frame
  generated : ∃ g g', e.value (compiled.target analysis).context frame g = .ok (code, g') ∧
    (compiled.target analysis).Contains g'
  stands : ∃ before after, compiled.fragments.functions[head.id]? = some (before ++ code ++ after) ∧
    image.Holds (pc - Code.size before) (before ++ code ++ after)

namespace Started

variable {source : Source} {memorySize : Nat} {input : List UInt8} {output : Output}
  {analysis : Analysis} {compiled : Compiled} {image : Image} {s₀ : State}

/-- The texts of all string constants stand among the data. -/
theorem places_strings (h : Started source memorySize input output analysis compiled image s₀)
    (depth : Nat) : ∀ data ∈ compiled.fragments.strings,
      Setting.Places ⟨(compiled.target analysis).context, image, depth⟩ compiled.segments data := by
  intro data hdata
  obtain ⟨a, -, -, ha⟩ := h.executable.addressed_within (h.executable.string_within hdata)
  refine ⟨a, fun entry hentry => ⟨ha entry hentry, fun l hl => ?_⟩⟩
  have hhas := h.executable.loaded.data entry (ha entry hentry)
  rw [hl] at hhas
  exact hhas

/-- The code of an expression without calls pushes the value that the expression has over the memory,
or stops with its fault, from every state in which the static links of its function can be followed,
the stack has room, and no word that is read lies between the heap and the stack. All else that is not
between the heap and the stack stays as it is. -/
theorem direct_values (h : Started source memorySize input output analysis compiled image s₀)
    {head : FunctionHead} {e : Expression} (hmem : (head, e) ∈ definitionsUses analysis.program)
    (hfree : e.callFree = true) {frame : Frame} {code : Code} {pc : Int}
    (hplaced : compiled.PlacesValue analysis image head frame e code pc) :
    ∃ text, e.HasTexts compiled.segments text ∧ ∀ (s : State) (sp : Int) (S : Scene),
      S = s.scene ⟨(compiled.target analysis).context, image, frame.depth⟩ text →
      s.pc = .ofInt pc → s.StackAt sp → s.heapEnd.toInt ≤ sp - 4 * e.temporaries S.context →
      S.Linked → (∀ a ∈ e.reads S, S.memory.Holds a → S.Apart a) →
      Brings image s sp (pc + code.size) s (e.direct S) := by
  have hexecutable := h.executable
  have hread := isRead_definitionsUses hexecutable.read.nodup_ids hexecutable.read.wellFormed hmem
  obtain ⟨g, g', hgenerated, hcontains⟩ := hplaced.generated
  obtain ⟨before, after, -, hholds⟩ := hplaced.stands
  rw [Image.holds_append, Image.holds_append, sub_add_cancel] at hholds
  have hstrings := fun data hdata => h.places_strings frame.depth data (hcontains.strings data hdata)
  obtain ⟨-, text, htexts, hrealizes⟩ := e.value_realized hfree hread rfl hgenerated hstrings
  refine ⟨text, htexts, ?_⟩
  rintro s sp S rfl hpc hstack hroom hlinked hreads
  exact hrealizes _ s sp pc rfl (fun _ _ => rfl)
    ⟨hstack, by rw [← hstack.toInt_sp]; rfl, rfl, rfl, .refl _ _⟩ hlinked hroom hpc hholds.1.2 hreads

end Started

/-- The last expression follows a pointer to a local variable and reads a global one. -/
def pointerSample : Source :=
  ⟨"var g = 7 fun main() = let var x = 9 var p = 0 in p = ^x, p^ - g end", .memory⟩

def Expression.isPointerSample : Expression → Bool
  | .binary _ _ (.unary _ _ (.name _ _)) (.name _ _) => true
  | _ => false

/-- In front of its last expression. -/
theorem Started.direct_values_sample : ∃ analysis compiled image s₀ head e frame code text,
    ∃ (s : State) (S : Scene),
    Started pointerSample 180 [] {} analysis compiled image s₀ ∧
      (head, e) ∈ definitionsUses analysis.program ∧ e.callFree = true ∧
      compiled.PlacesValue analysis image head frame e code 69 ∧
      S = s.scene ⟨(compiled.target analysis).context, image, frame.depth⟩ text ∧
      s.pc = .ofInt 69 ∧ s.StackAt 160 ∧ s.heapEnd.toInt ≤ 160 - 4 * e.temporaries S.context ∧
      S.Linked ∧ (∀ a ∈ e.reads S, S.memory.Holds a → S.Apart a) ∧
      e.HasTexts compiled.segments text ∧ e.direct S = .ok 2 ∧
      Brings image s 160 (69 + code.size) s (.ok 2) := by
  have hchecks : (start? pointerSample 180 [] {}).any (fun r =>
      (definitionsUses r.1.program)[3]?.any fun use =>
        (r.2.1.layout.frames[use.1.id]?).any fun frame =>
          (use.2.value (r.2.1.target r.1).context frame {}).toOption.any fun generated =>
            (r.2.1.fragments.functions[use.1.id]?).any fun all =>
              use.2.isPointerSample && use.2.callFree && frame.depth = 1 && decide (
                (generated.2.functions.toList = [] ∧ generated.2.storage.toList = [] ∧
                  generated.2.strings.toList = []) ∧
                all = all.take 20 ++ generated.1 ++ all.drop 28 ∧
                r.2.2.1.Holds (69 - Code.size (all.take 20))
                  (all.take 20 ++ generated.1 ++ all.drop 28)) && (
              let s := (runFor r.2.2.1 22 r.2.2.2).2
              let S := s.scene ⟨(r.2.1.target r.1).context, r.2.2.1, frame.depth⟩ fun _ => 0
              decide ((s.pc = .ofInt 69 ∧ s.sp = .ofInt 160 ∧
                  (s.memory.dataStart : Int) ≤ s.heapEnd.toInt ∧ s.heapEnd.toInt ≤ 160 ∧
                  160 ≤ s.memory.size ∧ s.memory.size < 2147483648) ∧
                s.heapEnd.toInt ≤ 160 - 4 * use.2.temporaries S.context ∧
                (S.memory.Holds S.fp ∧ S.Apart S.fp) ∧
                ((use.2.reads S).all fun a => decide (S.memory.Holds a → S.Apart a)) ∧
                (use.2.direct S).toOption = some 2))) = true := by
    rw [start?_spelled pointerSample rfl (by decide)]
    decide +kernel
  obtain ⟨analysis, compiled, image, s₀, h, htest⟩ := exists_started hchecks
  obtain ⟨⟨head, e⟩, huse, htest⟩ := (Option.any_eq_true _ _).mp htest
  obtain ⟨frame, hframe, htest⟩ := (Option.any_eq_true _ _).mp htest
  obtain ⟨⟨code, g'⟩, hgenerated, htest⟩ := (Option.any_eq_true _ _).mp htest
  obtain ⟨all, hall, htest⟩ := (Option.any_eq_true _ _).mp htest
  simp only [Bool.and_eq_true, decide_eq_true_eq] at htest
  obtain ⟨⟨⟨⟨hshape, hfree⟩, hdepth⟩, ⟨hfunctions, hstorage, hstrings⟩, hsplit, hholds⟩,
    ⟨hpc, hsp, hstart, hheap, hsize, hlt⟩, hroom, ⟨hholdsLink, hlink⟩, hreads, hvalue⟩ := htest
  have hmem := List.mem_of_getElem? huse
  have hplaced : compiled.PlacesValue analysis image head frame e code 69 := by
    refine ⟨hframe, ⟨{}, g', toOption_eq_some hgenerated, ?_, ?_, ?_⟩,
      ⟨all.take 20, all.drop 28, hsplit ▸ hall, hholds⟩⟩
    · simp [hfunctions]
    · simp [hstorage]
    · simp [hstrings]
  obtain ⟨text, htexts, hbrings⟩ := h.direct_values hmem hfree hplaced
  -- no text is read, so none matters for the value
  have hsame : ∀ (s : State) (setting : Setting),
      e.reads (s.scene setting text) = e.reads (s.scene setting fun _ => 0) ∧
        e.direct (s.scene setting text) = e.direct (s.scene setting fun _ => 0) := by
    unfold Expression.isPointerSample at hshape
    split at hshape
    · exact fun _ _ => ⟨rfl, rfl⟩
    · cases hshape
  obtain ⟨hsameReads, hsameValue⟩ := hsame (runFor image 22 s₀).2
    ⟨(compiled.target analysis).context, image, frame.depth⟩
  have hstack : (runFor image 22 s₀).2.StackAt 160 := ⟨hsp, hstart, hheap, by exact_mod_cast hsize, hlt⟩
  have hlinked : ((runFor image 22 s₀).2.scene
      ⟨(compiled.target analysis).context, image, frame.depth⟩ text).Linked := by
    intro n hn
    have hn' : n < frame.depth := hn
    obtain rfl : n = 0 := by omega
    exact ⟨_, rfl, hholdsLink, hlink⟩
  have hreads' := fun a ha => of_decide_eq_true (List.all_eq_true.mp hreads a (hsameReads ▸ ha))
  have hvalue' := hsameValue.trans (toOption_eq_some hvalue)
  have hbrings' := hbrings _ 160 _ rfl hpc hstack hroom hlinked hreads'
  rw [hvalue'] at hbrings'
  exact ⟨analysis, compiled, image, s₀, head, e, frame, code, text, _, _, h, hmem, hfree, hplaced, rfl,
    hpc, hstack, hroom, hlinked, hreads', htexts, hvalue', hbrings'⟩

end NestedFun
