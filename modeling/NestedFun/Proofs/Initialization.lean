import NestedFun.Proofs.DirectValues
import NestedFun.Proofs.Expansion

namespace NestedFun

/-!
# Initialization

A local variable gets the words that loading would have put in its place if it were global: the
machine expands the same encoding. At the entry of a block all its variables get theirs, whatever
their places held before.
-/

/-! ## One encoding -/

namespace Memory

def decidableHasWords (m : Memory) : (a : Int) → (ws : List Word) → Decidable (m.HasWords a ws)
  | _, [] => isTrue trivial
  | a, w :: ws => @instDecidableAnd (m.word a = w) _ inferInstance (decidableHasWords m (a + 4) ws)

instance (m : Memory) (a : Int) (ws : List Word) : Decidable (m.HasWords a ws) :=
  decidableHasWords m a ws

structure Encodes (m : Memory) (e : Int) (head : Variable) : Prop where
  hasWords : m.HasWords e (Contents.ofVariable head).words
  start_le : m.dataStart ≤ e
  le_size : e + 4 * (Contents.ofVariable head).words.length ≤ m.size

def Addressable (m : Memory) (a n : Int) : Prop := ∀ i, Block a n i → m.dataStart ≤ i ∧ i < m.size

/-- Loading puts words at an address, and nothing else changes. -/
structure Receives (m : Memory) (d : Int) (ws : List Word) (m' : Memory) : Prop where
  loads : m.writeAll d ws = .ok m'
  hasWords : m'.HasWords d ws
  differs : Differs (Block d (4 * ws.length)) m m'

variable {m : Memory} {head : Variable} {e d : Int} {ws : List Word}

/-- Where words can be written they are. -/
theorem Addressable.receives (h : m.Addressable d (4 * ws.length)) (hsize : m.size < 2147483648) :
    m.Receives d ws (m.storeAll d ws) := by
  cases ws with
  | nil => exact ⟨rfl, trivial, .refl _ _⟩
  | cons w ws =>
      rw [List.length_cons] at h
      push_cast at h
      obtain ⟨hstart, -⟩ := h d ⟨le_rfl, by omega⟩
      obtain ⟨-, hstop⟩ := h (d + 4 * (ws.length + 1) - 1) ⟨by omega, by omega⟩
      have hstop' : d + 4 * ((w :: ws).length : Int) ≤ m.size := by
        rw [List.length_cons]
        push_cast
        omega
      refine ⟨?_, m.hasWords_storeAll _ (by omega) hstop', m.differs_storeAll _ (by omega)⟩
      rw [writeAll, m.writeWords_ofInt _ (by omega) hstart hstop' (by omega)]

/-- An encoding that stands in memory has lengths that fit words. -/
theorem Encodes.expand_eq (h : m.Encodes e head) (hsize : m.size < 2147483648) :
    (Contents.ofVariable head).expand = head.words := by
  have hstart := h.start_le
  have hstop := h.le_size
  refine expand_ofVariable head fun i hi => ?_
  have hlength := length_words_le head.initializers i hi
  simp only [Contents.ofVariable, List.length_cons] at hstop
  omega

end Memory

/-- Initializing does what loading does, if encoding and place are apart. -/
theorem Exec.expand_receives {head : Variable} {s : State} {e d : Word}
    (hsize : s.memory.size < 2147483648) (hencodes : s.memory.Encodes e.toInt head)
    (haddressable : s.memory.Addressable d.toInt (4 * (Contents.ofVariable head).expand.length))
    (happart : ∀ i, Memory.Block e.toInt (4 * (Contents.ofVariable head).words.length) i →
      ¬ Memory.Block d.toInt (4 * (Contents.ofVariable head).expand.length) i) :
    ∃ m, s.memory.Receives d.toInt (Contents.ofVariable head).expand m ∧
      expand d e s = .ok () { s with memory := m } := by
  have hexpand := hencodes.expand_eq hsize
  obtain ⟨hwords, hstart, hstop⟩ := hencodes
  refine ⟨_, haddressable.receives hsize, ?_⟩
  rw [hexpand] at haddressable happart ⊢
  by_cases hempty : head.words = []
  · have hexpandEq := expand_eq d hwords hstart hstop hsize
    rw [Word.ofInt_toInt] at hexpandEq
    rw [hempty, hexpandEq]
    simp only [Contents.ofVariable, List.length_cons, Memory.hasWords_cons, Nat.cast_add,
      Nat.cast_one] at hwords hstop
    exact expandGroups_of_empty _ d hempty hwords.2 (by omega) (by omega) hsize
  · have hpos := List.length_pos_of_ne_nil hempty
    have hpos' : 0 < (Contents.ofVariable head).words.length := Nat.succ_pos _
    obtain ⟨hstart', -⟩ := haddressable d.toInt ⟨le_rfl, by omega⟩
    obtain ⟨-, hstop'⟩ := haddressable (d.toInt + 4 * head.words.length - 1) ⟨by omega, by omega⟩
    -- two blocks that are not empty are apart if neither contains the start of the other
    have hlow := happart e.toInt ⟨le_rfl, by omega⟩
    have hhigh := happart d.toInt
    simp only [Memory.Block] at hlow hhigh
    have hrun := @expand_run head s e.toInt d.toInt hwords hstart hstop hstart' (by omega) (by omega)
      hsize
    rw [Word.ofInt_toInt, Word.ofInt_toInt] at hrun
    exact hrun

/-! ## The code of a variable -/

/-- From one state to the other bytes below the stack and some others may have changed; nothing else
has but the program counter. -/
structure State.Fills (s : State) (sp : Int) (slots : Int → Prop) (s' : State) : Prop
    extends s.SameFrame s' where
  sp_eq : s'.sp = s.sp
  memory : Memory.Differs (fun i => (s.heapEnd.toInt ≤ i ∧ i < sp) ∨ slots i) s.memory s'.memory

theorem State.Fills.trans {s t u : State} {sp : Int} {slots slots' : Int → Prop}
    (h : s.Fills sp slots t) (h' : t.Fills sp slots' u) :
    s.Fills sp (fun i => slots i ∨ slots' i) u := by
  refine ⟨h.toSameFrame.trans h'.toSameFrame, h'.sp_eq.trans h.sp_eq,
    (h.memory.mono fun i hi => ?_).trans (h'.memory.mono fun i hi => ?_)⟩
  · exact hi.imp_right .inl
  · rw [h.heapEnd_eq] at hi
    exact hi.imp_right .inr

theorem State.Fills.stackAt {s t : State} {sp : Int} {slots : Int → Prop} (h : s.Fills sp slots t)
    (hs : s.StackAt sp) : t.StackAt sp := by
  refine ⟨h.sp_eq.trans hs.sp_eq, ?_, ?_, ?_, ?_⟩
  · rw [h.memory.dataStart_eq, h.heapEnd_eq]
    exact hs.start_le
  · rw [h.heapEnd_eq]
    exact hs.heap_le
  · rw [h.memory.size_eq]
    exact hs.le_size
  · rw [h.memory.size_eq]
    exact hs.size_lt

def localCode (span : Span) (offset : Int) (label : String) : Code :=
  Code.spanning span [.regn .framePointer, .push (.ofInt offset), .oper .add, .name label, .init]

variable {image : Image} {s : State} {sp fp offset x pc : Int} {span : Span} {label : String}
  {head : Variable} {more : Code}

/-- The code of a variable pushes the address of its place and that of its encoding, and expands the
one to the other. -/
theorem localCode_run (hstack : s.StackAt sp) (hroom : s.heapEnd.toInt ≤ sp - 8)
    (hpc : s.pc = .ofInt pc) (hfp : s.fp = .ofInt fp)
    (hcode : image.Holds pc (localCode span offset label ++ more))
    (hlabel : image.labels[label]? = some (.ofInt x)) (hencodes : s.memory.Encodes x head)
    (hdata : x + 4 * (Contents.ofVariable head).words.length ≤ s.heapEnd.toInt)
    (hlow : sp ≤ fp + offset) (hhigh : fp + offset + 4 * head.words.length ≤ s.memory.size) :
    ∃ s', Leads image s s' ∧ s'.pc = .ofInt (pc + Code.size (localCode span offset label)) ∧
      s'.memory.HasWords (fp + offset) head.words ∧
      s.Fills sp (Memory.Block (fp + offset) (4 * head.words.length)) s' := by
  have hsize := hstack.le_size
  simp only [localCode, Code.spanning, List.map_cons, List.map_nil, List.cons_append,
    List.nil_append] at hcode ⊢
  have hpush := ((Image.holds_cons _ _ _ _).mp hcode).2
  have hadd := ((Image.holds_cons _ _ _ _).mp hpush).2
  have hname := ((Image.holds_cons _ _ _ _).mp hadd).2
  have hinit := ((Image.holds_cons _ _ _ _).mp hname).2
  -- the address of the place
  have hregn := Brings.of_perform (.refl s sp) hstack hpc hcode (fun _ => Instruction.noConfusion)
    (by omega) hsize ((Exec.perform_regn image (hstack.advanced _)).fits
      (by show s.heapEnd.toInt ≤ _; omega))
  have hplace := hregn.binary (o := .add) (fun y u _ hu => Brings.push hu.stack hu.pc_eq (.ofInt offset) hpush
    (by rw [hu.heapEnd_eq]; omega)) hadd rfl (by omega) hsize
  have hsum : Operator.add.apply s.fp (.ofInt offset) = .ok (.ofInt (fp + offset)) := by
    rw [hfp, Operator.apply, Word.ofInt_add]
  replace hplace : Brings image s sp _ s (Operator.add.apply s.fp (.ofInt offset)) := hplace
  rw [hsum] at hplace
  obtain ⟨u, hleads, hu⟩ := hplace
  -- the address of the encoding
  have hencoding := Brings.name hu.stack hu.pc_eq hname (by rw [hu.heapEnd_eq]; omega)
  rw [Image.addressOf, hlabel] at hencoding
  obtain ⟨t, hleads', ht⟩ := hencoding
  have hkeeps := hu.toKeeps.trans ht.toKeeps (by omega)
  have hwords : t.memory.HasWords x (Contents.ofVariable head).words := by
    have hx := hencodes.start_le
    refine hencodes.hasWords.of_differs hkeeps.memory (by omega) fun i hi hi' => ?_
    simp only [Memory.Block] at hi
    omega
  have hdestination : t.memory.word (sp - 4 - 4 + 4) = .ofInt (fp + offset) := by
    have hnonneg := hu.stack.nonneg
    rw [sub_add_cancel, ← hu.top]
    refine ht.memory.word_eq hnonneg fun i hi hi' => ?_
    simp only [Memory.Block] at hi
    omega
  have hsize' := hkeeps.memory.size_eq
  have hstart := hencodes.start_le
  have hperform : Exec.perform image .init (t.advanced .init) = _ :=
    Exec.perform_init (ht.stack.advanced .init) (by show _ ≤ (t.memory.size : Int); omega)
    ht.top hdestination hwords
    (by show (t.memory.dataStart : Int) ≤ x; rw [hkeeps.memory.dataStart_eq]; exact hstart) (by omega)
    (by show _ ≤ (t.memory.size : Int); omega)
  have hfetch := ((image.holds_cons _ _ _).mp hinit).1.fetch fun _ => Instruction.noConfusion
  rw [← ht.pc_eq] at hfetch
  have hnonneg := hstack.nonneg
  refine ⟨_, (hleads.trans hleads').trans (.of_step ((Exec.step_eq hfetch).trans hperform)), ?_,
    Memory.hasWords_storeAll t.memory _ (by omega) (by omega), ⟨hkeeps.toSameFrame.trans
      ⟨rfl, rfl, rfl, rfl, rfl⟩, ?_, ?_⟩⟩
  · show t.pc + _ = _
    rw [ht.pc_eq, Word.ofInt_add]
    simp only [Code.size_cons, Code.size_nil, add_zero, add_assoc]
  · show Word.ofInt _ = s.sp
    rw [hstack.sp_eq]
    congr 1
    omega
  · refine (hkeeps.memory.mono fun i hi => .inl hi).trans
      ((Memory.differs_storeAll t.memory _ (by omega)).mono fun i hi => .inr hi)

/-! ## The code of a block -/

def Layout.Slots (layout : Layout) (fp : Int) (ds : List Definition) (i : Int) : Prop :=
  ∃ head offset depth size contents, Definition.var head ∈ ds ∧
    layout.accesses[head.id]? = some (.relative offset depth size (some contents)) ∧
    Memory.Block (fp + offset) size i

/-- The variables among some definitions have the words that they start with, each at its place. -/
def Layout.Starts (layout : Layout) (fp : Int) (ds : List Definition) (m : Memory) : Prop :=
  ∀ head, Definition.var head ∈ ds → ∃ offset depth size,
    layout.accesses[head.id]? = some (.relative offset depth size (some (.ofVariable head))) ∧
    size = 4 * (Contents.ofVariable head).expand.length ∧
    m.HasWords (fp + offset) (Contents.ofVariable head).expand

/-- The places of local variables lie where the frame has room for them. -/
theorem Layout.Slots.within {layout : Layout} {depth : Nat} {before after fp i : Int}
    {ds : List Definition} (h : layout.Slots fp ds i) (hdepth : depth ≠ 0)
    (hplaced : PlacedDefinitions layout depth before after ds) :
    fp - 8 - after ≤ i ∧ i < fp - 8 - before := by
  obtain ⟨head, offset, depth', size, contents, hmem, haccess, hblock⟩ := h
  obtain ⟨b, a, ⟨hsized, hhead⟩, hb, ha⟩ := hplaced.mem hmem
  rw [if_neg hdepth, haccess] at hhead
  obtain ⟨heq, hafter, -⟩ := hhead
  cases heq
  simp only [Memory.Block] at hblock
  omega

/-- The frame of a function ends above the stack, which has room for two more words; all data but
variables are as they were loaded. -/
structure State.InFrame (s : State) (segments : Segments) (frame : Frame) (fp sp : Int) :
    Prop where
  fp_eq : s.fp = .ofInt fp
  stack : s.StackAt sp
  room : s.heapEnd.toInt ≤ sp - 8
  frame_le : sp ≤ fp - frame.localsSize
  le_size : fp ≤ s.memory.size
  dataStart_eq : (s.memory.dataStart : Int) = Code.size segments.code
  data_le : segments.dataStop ≤ s.heapEnd.toInt
  intact : segments.Intact s.memory

theorem State.InFrame.fills {s t : State} {segments : Segments} {frame : Frame} {fp sp : Int}
    {slots : Int → Prop} (h : s.InFrame segments frame fp sp)
    (hfits : ∀ d ∈ segments.data, d.item.Fits) (ht : s.Fills sp slots t)
    (hslots : ∀ i, slots i → segments.dataStop ≤ i) : t.InFrame segments frame fp sp where
  fp_eq := ht.fp_eq.trans h.fp_eq
  stack := ht.stackAt h.stack
  room := by rw [ht.heapEnd_eq]; exact h.room
  frame_le := h.frame_le
  le_size := by rw [ht.memory.size_eq]; exact h.le_size
  dataStart_eq := by rw [ht.memory.dataStart_eq]; exact h.dataStart_eq
  data_le := by rw [ht.heapEnd_eq]; exact h.data_le
  intact := h.intact.of_differs hfits ht.memory fun i hi => .inr <| by
    rcases hi with hi | hi
    · exact h.data_le.trans hi.1
    · exact hslots i hi

theorem definitions_run {T : Target} {program : Program} {segments : Segments} {s₀ : State}
    {env : Env} {frame : Frame} {ds : List Definition} {code : Code} {before after : Int}
    (hexecutable : Executable program T segments image s₀) (hcoded : CodedDefinitions T env ds code)
    (hdepth : env.depth ≠ 0) (hplaced : PlacedDefinitions T.layout env.depth before after ds)
    (hbefore : 0 ≤ before) (hafter : after ≤ frame.localsSize - 8)
    (hs : s.InFrame segments frame fp sp) (hpc : s.pc = .ofInt pc)
    (hcode : image.Holds pc (code ++ more)) :
    ∃ s', Leads image s s' ∧ s'.pc = .ofInt (pc + code.size) ∧ T.layout.Starts fp ds s'.memory ∧
      s.Fills sp (T.layout.Slots fp ds) s' := by
  induction ds generalizing s pc code before with
  | nil =>
      obtain rfl : code = [] := hcoded
      exact ⟨s, .refl _ _, by rw [hpc, Code.size_nil, add_zero], nofun, ⟨rfl, rfl, rfl, rfl, rfl⟩, rfl,
        .refl _ _⟩
  | cons d ds ih =>
      obtain ⟨first, others, hfirst, hothers, rfl⟩ := hcoded
      obtain ⟨between, hd, hds⟩ := hplaced
      have hle := hd.before_le
      have hle' := hds.before_le
      rw [List.append_assoc] at hcode
      rcases d with ⟨head, body⟩ | head
      · -- a function has no code here and no place
        obtain ⟨rfl, -⟩ := hfirst
        obtain ⟨rfl, -⟩ := hd
        obtain ⟨s', hleads, hpc', hstarts, hfills⟩ := ih hothers hds hbefore hs hpc hcode
        refine ⟨s', hleads, hpc', fun head' hhead' => ?_, ⟨hfills.toSameFrame, hfills.sp_eq,
          hfills.memory.mono fun i hi => hi.imp_right ?_⟩⟩
        · rcases List.mem_cons.mp hhead' with heq | hhead'
          · cases heq
          · exact hstarts head' hhead'
        · rintro ⟨head', offset, depth, size, contents, hmem, hslot⟩
          exact ⟨head', offset, depth, size, contents, List.mem_cons_of_mem _ hmem, hslot⟩
      · obtain ⟨-, hvariable⟩ := hfirst
        rw [if_neg hdepth] at hvariable
        obtain ⟨offset, n, haccess, hstorage, rfl⟩ := hvariable
        obtain ⟨hsized, hhead⟩ := hd
        rw [if_neg hdepth, haccess] at hhead
        obtain ⟨heq, hbetween, -⟩ := hhead
        obtain ⟨x, hlabel, hx, hxle, hencoding⟩ := hexecutable.encoding_addressed hstorage
        obtain ⟨hfp, hstack, hroom, hframe, hsize, hstart, hdata, hintact⟩ := hs
        have hheap := hstack.heap_le
        have hsp := hstack.le_size
        have hoffset : offset = -8 - between := by cases heq; rfl
        have hencodes : s.memory.Encodes x head := ⟨hencoding s.memory hintact, by omega, by omega⟩
        obtain ⟨s₁, hleads, hpc₁, hwords, hfills⟩ := localCode_run hstack hroom hpc hfp hcode hlabel
          hencodes (by omega) (by omega) (by omega)
        have hs₁ := State.InFrame.fills ⟨hfp, hstack, hroom, hframe, hsize, hstart, hdata, hintact⟩
          hexecutable.data_fits hfills fun i hi => by
            simp only [Memory.Block] at hi
            omega
        have hcode' := ((Image.holds_append _ _ _ _).mp hcode).2
        obtain ⟨s₂, hleads', hpc₂, hstarts, hfills'⟩ :=
          ih hothers hds (by omega) hs₁ hpc₁ hcode'
        refine ⟨s₂, hleads.trans hleads', ?_, fun head' hhead' => ?_, ?_⟩
        · rw [hpc₂, Code.size_append, add_assoc]
          rfl
        · rcases List.mem_cons.mp hhead' with heq' | hhead'
          · cases heq'
            rw [hsized.expand_eq]
            refine ⟨offset, env.depth, _, haccess, rfl, hwords.of_differs hfills'.memory (by omega) ?_⟩
            rintro i hi (hfree | hslot)
            · simp only [Memory.Block] at hi
              omega
            · have hwithin := hslot.within hdepth hds
              simp only [Memory.Block] at hi
              omega
          · exact hstarts head' hhead'
        · have hall := hfills.trans hfills'
          refine ⟨hall.toSameFrame, hall.sp_eq, hall.memory.mono fun i hi => hi.imp_right ?_⟩
          rintro (hi | ⟨head', offset', depth, size, contents, hmem, hslot⟩)
          · exact ⟨head, offset, _, _, _, List.mem_cons_self, haccess, hi⟩
          · exact ⟨head', offset', depth, size, contents, List.mem_cons_of_mem _ hmem, hslot⟩

/-! ## The blocks of a program -/

mutual

/-- The definitions of all blocks in a definition, each with the innermost function around. -/
def Definition.blocks : Definition → List (FunctionHead × List Definition)
  | .func head body => statementsBlocks head body
  | .var _ => []

def definitionsBlocks : List Definition → List (FunctionHead × List Definition)
  | [] => []
  | definition :: definitions => definition.blocks ++ definitionsBlocks definitions

def Statement.blocks (head : FunctionHead) : Statement → List (FunctionHead × List Definition)
  | .eval _ _ | .assign _ _ _ => []
  | .branch _ _ positive negative => statementsBlocks head positive ++ statementsBlocks head negative
  | .loop _ _ body => statementsBlocks head body
  | .block _ definitions body =>
    (head, definitions) :: (definitionsBlocks definitions ++ statementsBlocks head body)

def statementsBlocks (head : FunctionHead) : List Statement → List (FunctionHead × List Definition)
  | [] => []
  | statement :: statements => statement.blocks head ++ statementsBlocks head statements

end

def BlockStands (T : Target) (program : Program) (block : FunctionHead × List Definition) : Prop :=
  WellFormedDefinitions block.2 ∧
    ∃ env node body, (Statement.block node block.2 body).Stands T program block.1 env

section

variable {T : Target} {program : Program} {block : FunctionHead × List Definition}

mutual

theorem Definition.Stands.blocks {d : Definition} {env : Env} (h : d.Stands T program env)
    (hwell : d.WellFormed) (hmem : block ∈ d.blocks) : BlockStands T program block := by
  cases d with
  | var head => cases hmem
  | func head body =>
      have hbody : body ≠ [] := by
        rintro rfl
        cases hmem
      exact blocks_of_statements (h.function hbody).statements hwell.2 hmem

theorem blocks_of_definitions {ds : List Definition} {env : Env}
    (h : ∀ d ∈ ds, d.Stands T program env) (hwell : WellFormedDefinitions ds)
    (hmem : block ∈ definitionsBlocks ds) : BlockStands T program block := by
  cases ds with
  | nil => cases hmem
  | cons d ds =>
      rcases List.mem_append.mp hmem with hmem | hmem
      · exact (h d List.mem_cons_self).blocks hwell.1 hmem
      · exact blocks_of_definitions (fun e he => h e (List.mem_cons_of_mem _ he)) hwell.2 hmem

theorem Statement.Stands.blocks {s : Statement} {head : FunctionHead} {env : Env}
    (h : s.Stands T program head env) (hwell : s.WellFormed) (hmem : block ∈ s.blocks head) :
    BlockStands T program block := by
  cases s with
  | eval node value => cases hmem
  | assign node target source => cases hmem
  | branch node condition positive negative =>
      rcases List.mem_append.mp hmem with hmem | hmem
      · exact blocks_of_statements h.branch.1 hwell.2.1 hmem
      · exact blocks_of_statements h.branch.2 hwell.2.2 hmem
  | loop node condition body => exact blocks_of_statements h.loop hwell.2 hmem
  | block node ds body =>
      rcases List.mem_cons.mp hmem with rfl | hmem
      · exact ⟨hwell.1, env, node, body, h⟩
      · rcases List.mem_append.mp hmem with hmem | hmem
        · exact blocks_of_definitions h.block.1 hwell.1 hmem
        · exact blocks_of_statements h.block.2 hwell.2 hmem

theorem blocks_of_statements {ss : List Statement} {head : FunctionHead} {env : Env}
    (h : ∀ s ∈ ss, s.Stands T program head env) (hwell : WellFormedStatements ss)
    (hmem : block ∈ statementsBlocks head ss) : BlockStands T program block := by
  cases ss with
  | nil => cases hmem
  | cons s ss =>
      rcases List.mem_append.mp hmem with hmem | hmem
      · exact (h s List.mem_cons_self).blocks hwell.1 hmem
      · exact blocks_of_statements (fun t ht => h t (List.mem_cons_of_mem _ ht)) hwell.2 hmem

end

end

/-- The code that was generated for the definitions of a block stands at an address, between the
other code of the function. -/
structure Compiled.PlacesBlock (compiled : Compiled) (analysis : Analysis) (image : Image)
    (head : FunctionHead) (frame : Frame) (ds : List Definition) (code : Code) (pc : Int) :
    Prop where
  frame_eq : compiled.layout.frames[head.id]? = some frame
  generated : ∃ g g', generateDefinitions (compiled.target analysis).context ds g = .ok (code, g') ∧
    (compiled.target analysis).Contains g'
  stands : ∃ before after, compiled.fragments.functions[head.id]? = some (before ++ code ++ after) ∧
    image.Holds (pc - Code.size before) (before ++ code ++ after)

/-- At the entry of a block every variable of it gets the words that it starts with. -/
theorem Started.block_run {source : Source} {memorySize : Nat} {input : List UInt8} {output : Output}
    {analysis : Analysis} {compiled : Compiled} {s₀ : State} {frame : Frame} {head : FunctionHead}
    {ds : List Definition} {code : Code}
    (h : Started source memorySize input output analysis compiled image s₀)
    (hmem : (head, ds) ∈ definitionsBlocks analysis.program)
    (hplaced : compiled.PlacesBlock analysis image head frame ds code pc)
    (hs : s.InFrame compiled.segments frame fp sp) (hpc : s.pc = .ofInt pc) :
    ∃ s', Leads image s s' ∧ s'.pc = .ofInt (pc + code.size) ∧
      compiled.layout.Starts fp ds s'.memory ∧ s.Fills sp (compiled.layout.Slots fp ds) s' := by
  have hexecutable := h.executable
  obtain ⟨hwell, env, node, body, hblock⟩ :=
    blocks_of_definitions hexecutable.definitions_stand hexecutable.read.wellFormed hmem
  obtain ⟨g, g', hgenerated, hcontains⟩ := hplaced.generated
  obtain ⟨front, back, -, hholds⟩ := hplaced.stands
  rw [Image.holds_append, Image.holds_append, sub_add_cancel] at hholds
  obtain ⟨used, limit, before, after, henv, hused, ⟨between, hds, hbody⟩, hlimit⟩ := hblock.placed
  obtain ⟨outer, hpath, -⟩ := hblock.around
  have hdepth : 0 < env.depth := by rw [← Env.length_path, hpath]; exact Nat.succ_pos _
  obtain ⟨hnonneg, -, hframe⟩ := henv.bounds
  obtain ⟨id, frame', hid, hframe', hlimitEq⟩ := hframe hdepth
  rw [hpath, List.head?_cons, Option.some.injEq] at hid
  obtain rfl : frame = frame' :=
    Option.some.inj (hplaced.frame_eq.symm.trans ((congrArg _ hid).trans hframe'))
  have hle := hbody.before_le
  have henv' : Env.Placed compiled.layout (.definitions ds :: env) between limit :=
    .definitions henv hused hds (by omega)
  rw [← Env.depth_definitions ds env] at hds hdepth
  obtain ⟨-, hcoded⟩ := generateDefinitions_coded (T := compiled.target analysis) ds hblock.bound.2.1
    hwell henv' hds hdepth hgenerated
  have hcode : image.Holds pc (code ++ []) := by rw [List.append_nil]; exact hholds.1.2
  exact definitions_run hexecutable (hcoded hcontains) hdepth.ne' hds (by omega) (by omega) hs hpc hcode

/-! ## Initializing and loading -/

/-- Initializing from the encoding of a variable does to the memory what loading its words would do,
whatever is disjoint from the encoding. And the code at the entry of a block puts the words of each of
its variables into the place of the variable in the frame; at or above the top of the stack nothing
else changes. -/
theorem initialization_agrees :
    (∀ (head : Variable) (s : State) (e d : Word), s.memory.size < 2147483648 →
      s.memory.Encodes e.toInt head →
      s.memory.Addressable d.toInt (4 * (Contents.ofVariable head).expand.length) →
      (∀ i, Memory.Block e.toInt (4 * (Contents.ofVariable head).words.length) i →
        ¬ Memory.Block d.toInt (4 * (Contents.ofVariable head).expand.length) i) →
      ∃ m, s.memory.Receives d.toInt (Contents.ofVariable head).expand m ∧
        Exec.expand d e s = .ok () { s with memory := m }) ∧
    ∀ (source : Source) (memorySize : Nat) (input : List UInt8) (output : Output)
      (analysis : Analysis) (compiled : Compiled) (image : Image) (s₀ : State),
      Started source memorySize input output analysis compiled image s₀ →
      ∀ (head : FunctionHead) (ds : List Definition) (frame : Frame) (code : Code) (pc : Int),
        (head, ds) ∈ definitionsBlocks analysis.program →
        compiled.PlacesBlock analysis image head frame ds code pc →
        ∀ (s : State) (fp sp : Int), s.InFrame compiled.segments frame fp sp → s.pc = .ofInt pc →
          ∃ s', Leads image s s' ∧ s'.pc = .ofInt (pc + code.size) ∧
            compiled.layout.Starts fp ds s'.memory ∧
            s.Fills sp (compiled.layout.Slots fp ds) s' := by
  refine ⟨fun head s e d hsize hencodes haddressable happart => ?_, ?_⟩
  · exact Exec.expand_receives hsize hencodes haddressable happart
  · intro source memorySize input output analysis compiled image s₀ h head ds frame code pc hmem
      hplaced s fp sp hs hpc
    exact h.block_run hmem hplaced hs hpc

def twoVariables? : List Definition → Option (Variable × Variable)
  | [.var x, .var p] => some (x, p)
  | _ => none

theorem twoVariables?_eq_some {ds : List Definition} {x p : Variable}
    (h : twoVariables? ds = some (x, p)) : ds = [.var x, .var p] := by
  unfold twoVariables? at h
  split at h
  · cases h
    rfl
  · cases h

/-- In front of the block of `main`: the word of `x` goes from its encoding at 95 to its place at
164, and then that of `p` to 160. -/
theorem initialization_agrees_sample : ∃ analysis compiled image s₀ head x p frame code,
    ∃ s s' : State, ∃ m,
    Started pointerSample 180 [] {} analysis compiled image s₀ ∧
      (head, [.var x, .var p]) ∈ definitionsBlocks analysis.program ∧
      compiled.PlacesBlock analysis image head frame [.var x, .var p] code 28 ∧
      s.InFrame compiled.segments frame 176 160 ∧ s.pc = .ofInt 28 ∧
      (s.memory.Encodes 95 x ∧ s.memory.Addressable 164 4 ∧
        s.memory.Receives 164 [9] m ∧ Exec.expand 164 95 s = .ok () { s with memory := m }) ∧
      Leads image s s' ∧ s'.pc = .ofInt (28 + code.size) ∧
      compiled.layout.Starts 176 [.var x, .var p] s'.memory ∧
      s.Fills 160 (compiled.layout.Slots 176 [.var x, .var p]) s' := by
  have hchecks : (start? pointerSample 180 [] {}).any (fun r =>
      (definitionsBlocks r.1.program)[0]?.any fun block => (twoVariables? block.2).any fun xs =>
        (r.2.1.layout.frames[block.1.id]?).any fun frame =>
          (generateDefinitions (r.2.1.target r.1).context block.2 {}).toOption.any
            fun generated => (r.2.1.fragments.functions[block.1.id]?).any fun all =>
              decide (r.1.program.AssignsNames ∧ r.1.program.StoresWords ∧ frame.localsSize = 16 ∧
                generated.2.functions.toList = [] ∧ generated.2.strings.toList = []) &&
              generated.2.storage.toList.all (fun entry =>
                decide (r.2.1.fragments.storage[entry.1]? = some entry.2)) &&
              decide (all = all.take 3 ++ generated.1 ++ all.drop 13 ∧
                r.2.2.1.Holds (28 - Code.size (all.take 3))
                  (all.take 3 ++ generated.1 ++ all.drop 13)) && (
              let s := (runFor r.2.2.1 5 r.2.2.2).2
              decide ((runFor r.2.2.1 5 r.2.2.2).1 = .running ∧ s.pc = .ofInt 28 ∧
                s.fp = .ofInt 176 ∧ s.sp = .ofInt 160 ∧ s.heapEnd.toInt = 128 ∧
                s.memory.dataStart = 91 ∧ Code.size r.2.1.segments.code = 91 ∧
                r.2.1.segments.dataStop ≤ 128 ∧ s.memory.size = 180 ∧
                (Contents.ofVariable xs.1).words.length = 4 ∧
                (Contents.ofVariable xs.1).expand = [9] ∧
                s.memory.HasWords 95 (Contents.ofVariable xs.1).words))) = true := by
    rw [start?_spelled pointerSample rfl (by decide)]
    decide +kernel
  obtain ⟨analysis, compiled, image, s₀, h, htest⟩ := exists_started hchecks
  obtain ⟨⟨head, ds⟩, hblock, htest⟩ := (Option.any_eq_true _ _).mp htest
  have hmem := List.mem_of_getElem? hblock
  obtain ⟨⟨x, p⟩, htwo, htest⟩ := (Option.any_eq_true _ _).mp htest
  obtain rfl := twoVariables?_eq_some htwo
  obtain ⟨frame, hframe, htest⟩ := (Option.any_eq_true _ _).mp htest
  obtain ⟨⟨code, g'⟩, hgenerated, htest⟩ := (Option.any_eq_true _ _).mp htest
  obtain ⟨all, hall, htest⟩ := (Option.any_eq_true _ _).mp htest
  simp only [Bool.and_eq_true, decide_eq_true_eq] at htest
  obtain ⟨⟨⟨⟨hassigns, hstores, hlocals, hfunctions, hstrings⟩, hstorage⟩, hsplit, hholds⟩, hrun,
    hpc, hfp, hsp, hheap, hstart, hcodeSize, hdata, hsize, hlength, hexpand, hwords⟩ := htest
  have hplaced : compiled.PlacesBlock analysis image head frame [.var x, .var p] code 28 := by
    refine ⟨hframe, ⟨{}, g', toOption_eq_some hgenerated, ?_, ?_, ?_⟩,
      ⟨all.take 3, all.drop 13, hsplit ▸ hall, hholds⟩⟩
    · simp [hfunctions]
    · exact fun entry hentry => of_decide_eq_true (List.all_eq_true.mp hstorage entry hentry)
    · simp [hstrings]
  -- what was loaded is intact while only variables are assigned to
  obtain ⟨A, older, base, σ, rest, hrunning, -⟩ := h.inControl hassigns hstores (Prod.ext hrun rfl)
  have hs : (runFor image 5 s₀).2.InFrame compiled.segments frame 176 160 := by
    refine ⟨hfp, ⟨hsp, ?_, ?_, ?_, ?_⟩, ?_, ?_, ?_, ?_, ?_, hrunning.intact⟩ <;> omega
  have hencodes : (runFor image 5 s₀).2.memory.Encodes 95 x := ⟨hwords, by omega, by omega⟩
  have haddressable : (runFor image 5 s₀).2.memory.Addressable 164 4 := by
    intro i hi
    simp only [Memory.Block] at hi
    omega
  have happart : ∀ i, Memory.Block 95 (4 * (Contents.ofVariable x).words.length) i →
      ¬ Memory.Block 164 (4 * (Contents.ofVariable x).expand.length) i := by
    intro i hi
    simp only [Memory.Block, hlength] at hi ⊢
    omega
  obtain ⟨m, hreceives, hexpands⟩ := initialization_agrees.1 x (runFor image 5 s₀).2 95 164
    (by omega) hencodes (by rw [hexpand]; exact haddressable) happart
  rw [hexpand] at hreceives
  obtain ⟨s', hleads, hpc', hstarts, hfills⟩ := initialization_agrees.2 pointerSample 180 [] {}
    analysis compiled image s₀ h head [.var x, .var p] frame code 28 hmem hplaced _ 176 160 hs hpc
  exact ⟨analysis, compiled, image, s₀, head, x, p, frame, code, _, s', m, h, hmem, hplaced, hs, hpc,
    ⟨hencodes, haddressable, hreceives, hexpands⟩, hleads, hpc', hstarts, hfills⟩

end NestedFun
