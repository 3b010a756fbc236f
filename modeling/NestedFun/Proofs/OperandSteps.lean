import NestedFun.Proofs.Computation

namespace NestedFun

/-!
# Steps on operands

The instructions that work on the operands of the current frame: how they change the operands, and
how far down the stack has to reach for them.
-/

namespace Ready

variable {T : Target} {segments : Segments} {image : Image} {sites : List Site}
  {anchor used limit pc pc' : Int} {σ σ' : List Word} {store store' : Store}
  {s s' : State} {i : Located Instruction} {rest : Code} {v : Word}

/-- The instruction that is carried out next. -/
theorem fetch (h : Ready T segments image sites anchor used limit pc σ store s)
    (hcode : image.Holds pc (i :: rest)) (hlabel : ∀ l, i.item ≠ .label l) :
    image.fetch? s.pc = some i.item := by
  rw [h.pc_eq]
  exact ((image.holds_cons pc i rest).mp hcode).1.fetch hlabel

theorem step_eq (h : Ready T segments image sites anchor used limit pc σ store s)
    (hcode : image.Holds pc (i :: rest)) (hlabel : ∀ l, i.item ≠ .label l) :
    Exec.step image s = Exec.perform image i.item (s.advanced i.item) :=
  Exec.step_eq (h.fetch hcode hlabel)

theorem advanced_pc (h : Ready T segments image sites anchor used limit pc σ store s)
    (i : Instruction) : (s.advanced i).pc = .ofInt (pc + i.size) := by
  show s.pc + .ofInt i.size = _
  rw [h.pc_eq, Word.ofInt_add]

/-- The operands stand between the heap and the locals. -/
theorem room (h : Ready T segments image sites anchor used limit pc σ store s) :
    0 ≤ segments.dataStop ∧ segments.dataStop ≤ s.heapEnd.toInt ∧
      s.heapEnd.toInt ≤ anchor - limit - 4 * σ.length ∧ 0 ≤ used ∧ used ≤ limit ∧
      anchor ≤ s.memory.size := by
  have hbounds := h.sited.bounds
  exact ⟨hbounds.2.2.1, h.data_le, h.stack.heap_le, hbounds.1, hbounds.2.1, hbounds.2.2.2.2⟩

/-- Work on the part of the stack that is not in use changes no variable. -/
theorem next (h : Ready T segments image sites anchor used limit pc σ store s)
    (hfits : ∀ d ∈ segments.data, d.item.Fits) {changed : Int → Prop}
    (hdiffers : Memory.Differs changed s.memory s'.memory)
    (hchanged : ∀ i, changed i → segments.dataStop ≤ i ∧ i < anchor - used)
    (hpc : s'.pc = .ofInt pc') (hfp : s'.fp = s.fp)
    (hsp : s'.sp = .ofInt (anchor - limit - 4 * σ'.length)) (hheap : s'.heapEnd = s.heapEnd)
    (hroom : s.heapEnd.toInt ≤ anchor - limit - 4 * σ'.length)
    (hwords : s'.memory.HasWords (anchor - limit - 4 * σ'.length) σ')
    (hcallStack : s'.callStack = s.callStack) (hrecords : store'.records = store.records)
    (hinput : s'.input = store'.input) (houtput : s'.output = store'.output) :
    Ready T segments image sites anchor used limit pc' σ' store' s' ∧
      Kept T segments image sites (anchor - used) s s' := by
  obtain ⟨h₀, hdata, hheapLe, hused, hle, hsize⟩ := h.room
  have hchanges : ∀ i, changed i → Changes T segments image sites (anchor - used) i := by
    intro i hi
    have := hchanged i hi
    exact .inl ⟨by omega, by omega⟩
  refine ⟨?_, hfp, hcallStack, hdiffers.mono hchanges⟩
  constructor
  · exact hpc
  · exact fun hdepth => hfp.trans (h.fp_eq hdepth)
  · refine ⟨hsp, ?_, ?_, ?_, ?_⟩
    · rw [hdiffers.dataStart_eq, hheap]
      exact h.stack.start_le
    · rw [hheap]
      exact hroom
    · rw [hdiffers.size_eq]
      omega
    · rw [hdiffers.size_eq]
      exact h.stack.size_lt
  · exact h.sited.of_differs (hdiffers.mono hchanges)
  · rw [hrecords]
    refine RecordsHold.of_differs h.holds hdiffers (fun i hi => h.sited.nonneg hi) fun i hi hi' => ?_
    have := hchanged i hi'
    rcases h.sited.hasByte_bounds hi with hi | hi <;> omega
  · exact hwords
  · exact h.intact.of_differs hfits hdiffers fun i hi => .inr (hchanged i hi).1
  · rw [hdiffers.dataStart_eq]
    exact h.dataStart_eq
  · rw [hheap]
    exact h.data_le
  · exact hinput
  · exact houtput

/-- What is left when operands are taken. -/
theorem words_append (popped : List Word)
    (h : Ready T segments image sites anchor used limit pc (popped ++ σ) store s) :
    s.memory.HasWords (anchor - limit - 4 * (popped ++ σ).length) popped ∧
      s.memory.HasWords (anchor - limit - 4 * σ.length) σ := by
  have hwords := h.words
  rw [Memory.hasWords_append] at hwords
  refine ⟨hwords.1, ?_⟩
  have hrest := hwords.2
  rwa [List.length_append, show anchor - limit - 4 * ((popped.length + σ.length : Nat) : Int)
    + 4 * (popped.length : Int) = anchor - limit - 4 * (σ.length : Int) by
      push_cast
      ring] at hrest

/-- Some operands are replaced by a word. -/
theorem pushed (popped : List Word)
    (h : Ready T segments image sites anchor used limit pc (popped ++ σ) store s)
    (hfits : ∀ d ∈ segments.data, d.item.Fits) {a : Int} (v : Word)
    (ha : a = anchor - limit - 4 * σ.length - 4) (hroom : s.heapEnd.toInt ≤ a) :
    Ready T segments image sites anchor used limit (pc + i.item.size) (v :: σ) store
        ((s.advanced i.item).pushed a v) ∧
      Kept T segments image sites (anchor - used) s ((s.advanced i.item).pushed a v) := by
  obtain ⟨h₀, hdata, hheapLe, hused, hle, hsize⟩ := h.room
  have hdiffers := Memory.Differs.store s.memory (a := a) v (by omega)
  have haddress : a = anchor - limit - 4 * ((v :: σ).length : Int) := by
    rw [ha, List.length_cons]
    push_cast
    ring
  refine h.next hfits hdiffers ?_ (h.advanced_pc _) rfl ?_ rfl ?_ ?_ rfl rfl h.input_eq h.output_eq
  · intro j hj
    simp only [Memory.Block] at hj
    omega
  · rw [← haddress]
    rfl
  · rw [← haddress]
    exact hroom
  · rw [← haddress]
    refine ⟨Memory.word_store_same _ _ (by omega) ?_, ?_⟩
    · show a + 4 ≤ (s.memory.size : Int)
      omega
    rw [show a + 4 = anchor - limit - 4 * (σ.length : Int) by omega]
    refine Memory.HasWords.of_differs hdiffers (by omega) (fun j hj => ?_) (words_append popped h).2
    simp only [Memory.Block] at *
    omega

/-- Some operands are dropped. -/
theorem dropped (popped : List Word)
    (h : Ready T segments image sites anchor used limit pc (popped ++ σ) store s)
    (hfits : ∀ d ∈ segments.data, d.item.Fits)
    (hpc : s'.pc = .ofInt pc') (hmemory : s'.memory = s.memory) (hfp : s'.fp = s.fp)
    (hsp : s'.sp = .ofInt (anchor - limit - 4 * σ.length)) (hheap : s'.heapEnd = s.heapEnd)
    (hcallStack : s'.callStack = s.callStack) (hinput : s'.input = s.input)
    (houtput : s'.output = s.output) :
    Ready T segments image sites anchor used limit pc' σ store s' ∧
      Kept T segments image sites (anchor - used) s s' := by
  obtain ⟨h₀, hdata, hheapLe, hused, hle, hsize⟩ := h.room
  rw [List.length_append, Nat.cast_add] at hheapLe
  have hdiffers : Memory.Differs (fun _ => False) s.memory s'.memory := by
    rw [hmemory]
    exact .refl _ _
  refine h.next hfits hdiffers (fun _ hi => hi.elim) hpc hfp hsp hheap ?_ ?_ hcallStack rfl
    (hinput.trans h.input_eq) (houtput.trans h.output_eq)
  · omega
  · rw [hmemory]
    exact (words_append popped h).2

end Ready

/-- The machine gets to another place in the code with other operands. Meanwhile the stack reaches so
many bytes below the locals. -/
def Moves (T : Target) (segments : Segments) (image : Image) (sites : List Site)
    (anchor used limit need : Int) (s : State) (pc : Int) (σ : List Word) (store : Store) : Prop :=
  Attains image s (anchor - limit - need) (Arrives image s fun s' =>
    Ready T segments image sites anchor used limit pc σ store s' ∧
      Kept T segments image sites (anchor - used) s s')

namespace Moves

variable {T : Target} {segments : Segments} {image : Image} {sites : List Site}
  {anchor used limit pc pc' need need' : Int} {σ σ' : List Word} {store store' : Store}
  {s s' : State}

theorem of_leads (h : Ready T segments image sites anchor used limit pc σ store s)
    (hleads : Leads image s s') (hheap : s'.heapEnd = s.heapEnd)
    (h' : Ready T segments image sites anchor used limit pc' σ' store' s' ∧
      Kept T segments image sites (anchor - used) s s') :
    Moves T segments image sites anchor used limit 0 s pc' σ' store' := by
  obtain ⟨h₀, hdata, hheapLe, hused, hle, hsize⟩ := h.room
  exact ⟨fun _ => ⟨s', hleads, hheap, h'⟩, fun hlevel => by omega⟩

theorem refl (h : Ready T segments image sites anchor used limit pc σ store s) :
    Moves T segments image sites anchor used limit 0 s pc σ store :=
  of_leads h (.refl image s) rfl ⟨h, rfl, rfl, .refl _ _⟩

theorem congr (h : Moves T segments image sites anchor used limit need s pc σ store)
    (hneed : need = need') (hpc : pc = pc') :
    Moves T segments image sites anchor used limit need' s pc' σ store := by
  rwa [← hneed, ← hpc]

theorem trans (h : Moves T segments image sites anchor used limit need s pc σ store)
    (h' : ∀ s', Ready T segments image sites anchor used limit pc σ store s' →
      Moves T segments image sites anchor used limit need' s' pc' σ' store') :
    Moves T segments image sites anchor used limit (max need need') s pc' σ' store' := by
  have hlevel : anchor - limit - max need need'
      = min (anchor - limit - need) (anchor - limit - need') := by omega
  rw [Moves, hlevel]
  refine h.bind fun s' hleads hheap hs' => (h' s' hs'.1).imp ?_
  rintro ⟨s'', hleads', hheap', hready, hkept⟩
  exact ⟨s'', hleads.trans hleads', hheap'.trans hheap, hready, hs'.2.trans hkept⟩

/-- After a move the machine does what an evaluation says. -/
theorem achieves {α : Type} {stack : List String} {arrived : α → Store → State → Prop}
    {result : EStateM.Result Halt Store α}
    (h : Moves T segments image sites anchor used limit need s pc σ store)
    (h' : ∀ s', Ready T segments image sites anchor used limit pc σ store s' →
      Kept T segments image sites (anchor - used) s s' →
      Attains image s' (anchor - limit - need') (Achieves image stack s' arrived result)) :
    Attains image s (anchor - limit - max need need') (Achieves image stack s arrived result) := by
  have hlevel : anchor - limit - max need need'
      = min (anchor - limit - need) (anchor - limit - need') := by omega
  rw [hlevel]
  refine h.bind fun s' hleads hheap hs' => (h' s' hs'.1 hs'.2).imp fun hachieves => ?_
  exact hachieves.of_leads hleads hheap (by rw [hs'.2.callStack_eq]) fun v store'' s'' _ => id

end Moves

section

variable {T : Target} {segments : Segments} {image : Image} {sites : List Site}
  {anchor used limit pc : Int} {σ : List Word} {store : Store} {s : State} {rest : Code}
  {span : Span} {v w : Word} {i : Located Instruction}

namespace Ready

/-- An instruction that pushes a word. -/
theorem moves_pushing (h : Ready T segments image sites anchor used limit pc σ store s)
    (hfits : ∀ d ∈ segments.data, d.item.Fits) (hcode : image.Holds pc (i :: rest))
    (hlabel : ∀ l, i.item ≠ .label l)
    (hperform : NeedsRoom (s.advanced i.item) (anchor - limit - 4 * σ.length - 4)
      (Exec.perform image i.item (s.advanced i.item))
      (.ok none ((s.advanced i.item).pushed (anchor - limit - 4 * σ.length - 4) v))) :
    Moves T segments image sites anchor used limit (4 * σ.length + 4) s (pc + i.item.size) (v :: σ)
      store := by
  rw [Moves, show anchor - limit - (4 * (σ.length : Int) + 4)
    = anchor - limit - 4 * (σ.length : Int) - 4 by omega]
  refine (Attains.of_needsRoom (Exec.step_needsRoom (h.fetch hcode hlabel) hperform) rfl).imp ?_
  rintro ⟨t, hleads, hheap, rfl, hroom⟩
  exact ⟨_, hleads, hheap, Ready.pushed [] h hfits v rfl hroom⟩

theorem moves_push (h : Ready T segments image sites anchor used limit pc σ store s)
    (hfits : ∀ d ∈ segments.data, d.item.Fits)
    (hcode : image.Holds pc (⟨span, .push v⟩ :: rest)) :
    Moves T segments image sites anchor used limit (4 * σ.length + 4) s
      (pc + (Instruction.push v).size) (v :: σ) store :=
  h.moves_pushing hfits hcode nofun (Exec.perform_push image (h.stack.advanced _) v)

theorem moves_name {l : String} (h : Ready T segments image sites anchor used limit pc σ store s)
    (hfits : ∀ d ∈ segments.data, d.item.Fits)
    (hcode : image.Holds pc (⟨span, .name l⟩ :: rest)) (hl : image.labels[l]? = some v) :
    Moves T segments image sites anchor used limit (4 * σ.length + 4) s
      (pc + (Instruction.name l).size) (v :: σ) store :=
  h.moves_pushing hfits hcode nofun (Exec.perform_name image (h.stack.advanced _) hl)

theorem moves_regn (h : Ready T segments image sites anchor used limit pc σ store s)
    (hfits : ∀ d ∈ segments.data, d.item.Fits)
    (hcode : image.Holds pc (⟨span, .regn .framePointer⟩ :: rest)) :
    Moves T segments image sites anchor used limit (4 * σ.length + 4) s
      (pc + (Instruction.regn .framePointer).size) (s.fp :: σ) store :=
  h.moves_pushing hfits hcode nofun (Exec.perform_regn image (h.stack.advanced _))

/-- An instruction that replaces operands by a word. -/
theorem moves_replacing (popped : List Word)
    (h : Ready T segments image sites anchor used limit pc (popped ++ σ) store s)
    (hfits : ∀ d ∈ segments.data, d.item.Fits) (hcode : image.Holds pc (i :: rest))
    (hlabel : ∀ l, i.item ≠ .label l) (hpopped : popped ≠ [])
    (hperform : Exec.perform image i.item (s.advanced i.item) = .ok none
      ((s.advanced i.item).pushed (anchor - limit - 4 * σ.length - 4) v)) :
    Moves T segments image sites anchor used limit 0 s (pc + i.item.size) (v :: σ) store := by
  obtain ⟨h₀, hdata, hheapLe, hused, hle, hsize⟩ := h.room
  have hlength := List.length_pos_of_ne_nil hpopped
  rw [List.length_append, Nat.cast_add] at hheapLe
  exact .of_leads h (.of_step ((h.step_eq hcode hlabel).trans hperform)) rfl
    (pushed popped h hfits v rfl (by omega))

/-- The word at an address is loaded. -/
theorem moves_load {a : Int}
    (h : Ready T segments image sites anchor used limit pc (.ofInt a :: σ) store s)
    (hfits : ∀ d ∈ segments.data, d.item.Fits) (hcode : image.Holds pc (⟨span, .load⟩ :: rest))
    (hstart : s.memory.dataStart ≤ a) (hstop : a + 4 ≤ s.memory.size) :
    Moves T segments image sites anchor used limit 0 s (pc + Instruction.load.size)
      (s.memory.word a :: σ) store := by
  obtain ⟨h₀, hdata, hheapLe, hused, hle, hsize⟩ := h.room
  have hstack := h.stack
  have hword := h.words.1
  simp only [List.length_cons, Nat.cast_add, Nat.cast_one] at hstack hword
  have hperform := Exec.perform_load image (hstack.advanced .load)
    (by show _ ≤ (s.memory.size : Int); omega) hword hstart hstop
  rw [show anchor - limit - 4 * ((σ.length : Int) + 1)
    = anchor - limit - 4 * (σ.length : Int) - 4 by omega] at hperform
  exact Ready.moves_replacing [_] h hfits hcode nofun (List.cons_ne_nil _ _) hperform

/-- The result of a binary operator. -/
theorem moves_binary {o : Operator} {x y : Word}
    (h : Ready T segments image sites anchor used limit pc (y :: x :: σ) store s)
    (hfits : ∀ d ∈ segments.data, d.item.Fits) (hcode : image.Holds pc (⟨span, .oper o⟩ :: rest))
    (ho : o.isUnary = false) (hresult : o.apply x y = .ok w) :
    Moves T segments image sites anchor used limit 0 s (pc + (Instruction.oper o).size) (w :: σ)
      store := by
  obtain ⟨h₀, hdata, hheapLe, hused, hle, hsize⟩ := h.room
  have hstack := h.stack
  obtain ⟨hy, hx, -⟩ := h.words
  simp only [List.length_cons, Nat.cast_add, Nat.cast_one] at hstack hx hy
  rw [← hx, ← hy] at hresult
  have hperform := Exec.perform_binary image (hstack.advanced (.oper o))
    (by show _ ≤ (s.memory.size : Int); omega) ho hresult
  rw [show anchor - limit - 4 * ((σ.length : Int) + 1 + 1) + 4
    = anchor - limit - 4 * (σ.length : Int) - 4 by omega] at hperform
  exact Ready.moves_replacing [_, _] h hfits hcode nofun (List.cons_ne_nil _ _) hperform

/-- The result of a unary operator. -/
theorem moves_unary {o : Operator} {x : Word}
    (h : Ready T segments image sites anchor used limit pc (x :: σ) store s)
    (hfits : ∀ d ∈ segments.data, d.item.Fits) (hcode : image.Holds pc (⟨span, .oper o⟩ :: rest))
    (ho : o.isUnary = true) (hresult : o.apply 0 x = .ok w) :
    Moves T segments image sites anchor used limit 0 s (pc + (Instruction.oper o).size) (w :: σ)
      store := by
  obtain ⟨h₀, hdata, hheapLe, hused, hle, hsize⟩ := h.room
  have hstack := h.stack
  have hx := h.words.1
  simp only [List.length_cons, Nat.cast_add, Nat.cast_one] at hstack hx
  rw [← hx] at hresult
  have hperform := Exec.perform_unary image (hstack.advanced (.oper o))
    (by show _ ≤ (s.memory.size : Int); omega) ho hresult
  rw [show anchor - limit - 4 * ((σ.length : Int) + 1)
    = anchor - limit - 4 * (σ.length : Int) - 4 by omega] at hperform
  exact Ready.moves_replacing [_] h hfits hcode nofun (List.cons_ne_nil _ _) hperform

/-- Operands are dropped by a number on top of them. -/
theorem moves_popn (popped : List Word) {n : Int}
    (h : Ready T segments image sites anchor used limit pc (.ofInt n :: (popped ++ σ)) store s)
    (hfits : ∀ d ∈ segments.data, d.item.Fits) (hcode : image.Holds pc (⟨span, .popn⟩ :: rest))
    (hn : n = 4 * popped.length) :
    Moves T segments image sites anchor used limit 0 s (pc + Instruction.popn.size) σ store := by
  obtain ⟨h₀, hdata, hheapLe, hused, hle, hsize⟩ := h.room
  have hstack := h.stack
  have hword := h.words.1
  have hlt := h.stack.size_lt
  simp only [List.length_cons, List.length_append, Nat.cast_add, Nat.cast_one]
    at hstack hword hheapLe
  have hint : (Word.ofInt n).toInt = n := Word.toInt_ofInt (by omega) (by omega)
  rw [← hword] at hint
  have hperform := Exec.perform_popn image (hstack.advanced .popn)
    (by show _ ≤ (s.memory.size : Int); omega) hint (by show _ ≤ (s.memory.size : Int); omega)
    (by omega)
  rw [show anchor - limit - 4 * ((popped.length : Int) + σ.length + 1) + 4 + n
    = anchor - limit - 4 * (σ.length : Int) by omega] at hperform
  refine .of_leads h (.of_step ((h.step_eq hcode nofun).trans (hperform.fits ?_))) rfl ?_
  · show s.heapEnd.toInt ≤ _
    omega
  · exact dropped (_ :: popped) h hfits (h.advanced_pc _) rfl rfl rfl rfl rfl rfl rfl

end Ready

end

/-- Code computes what moves say if the evaluation always has a result. -/
theorem Computes.of_moves {α : Type} {T : Target} {program : Program} {segments : Segments} {n : Nat}
    {env : Env} {used limit : Int} {σ : List Word} {code : Code} {f : Eval α} {σ' : α → List Word}
    (h : ∀ store, RecordsFit env store.records → ∃ v store' need, f store = .ok v store' ∧
      RecordsFit env store'.records ∧ ∀ image sites anchor pc s,
        Poised T program segments env used limit σ code store image sites anchor pc s →
        Moves T segments image sites anchor used limit need s (pc + code.size) (σ' v) store') :
    Computes T program segments n env used limit σ code f σ' := by
  intro store hfits
  obtain ⟨v, store', need, hf, hfits', hmoves⟩ := h store hfits
  rw [ComputesFrom, hf]
  refine ⟨fun w store'' heq => ?_, need, [], hmoves⟩
  cases heq
  exact hfits'

theorem Poised.data_fits {T : Target} {program : Program} {segments : Segments} {env : Env}
    {used limit : Int} {σ : List Word} {code : Code} {store : Store} {image : Image}
    {sites : List Site} {anchor pc : Int} {s : State}
    (h : Poised T program segments env used limit σ code store image sites anchor pc s) :
    ∀ d ∈ segments.data, d.item.Fits := by
  obtain ⟨s₀, hexecutable⟩ := h.executable
  exact hexecutable.data_fits

end NestedFun
