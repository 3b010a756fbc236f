import NestedFun.Proofs.FunctionCalls

namespace NestedFun

/-!
# Calls in evaluations

The code of a call computes what evaluation says of it, for a system function as for one whose
statements are computed by its code.
-/

section

variable {T : Target} {program : Program} {segments : Segments} {image : Image}
  {sites : List Site} {env : Env} {anchor used limit pc : Int} {σ values : List Word}
  {store : Store} {s : State} {span : Span} {head : FunctionHead} {body : List Statement}
  {frame : Frame} {name : String} {meaning : Meaning} {run : List Statement → Eval Word} {n : Nat}

theorem Eval.call_of_splitAt? {inner outer : List Record}
    (h : splitAt? store.records name = some (inner, .function head body, outer))
    (hlength : head.parameters.length = values.length) :
    Eval.call run name values store =
      (if body.isEmpty then
        match SystemFunction.ofName? head.name.text with
        | some function => Eval.system function values
        | none => throw .undescribed
      else Eval.inside (.ofParameters head.parameters values) inner outer (run body)) store := by
  have hget : (get : Eval Store) store = .ok store store := rfl
  rw [Eval.call, Eval.bind_eq, hget]
  simp only [h]
  exact congrFun (if_neg (not_not_intro hlength)) store

def PushesLink (T : Target) (program : Program) (segments : Segments) (env : Env) (used limit : Int)
    (home : Env) (link : Code) : Prop :=
  ∀ (σ : List Word) (more : Code) (store : Store) (image : Image) (sites : List Site)
    (anchor pc : Int) (s : State), Poised T program segments env used limit σ (link ++ more) store image sites anchor pc s →
    ∀ fronts p tail, sites = fronts ++ p :: tail → (p :: tail).map Prod.fst = home →
      Moves T segments image sites anchor used limit (4 * σ.length + 4) s (pc + link.size)
        (.ofInt p.2 :: σ) store

/-- The code of a call by a name pushes the frame around the function's definition. -/
theorem pushesLink_frameAddress (hdepth : 0 < env.depth) (hfind : env.find? name = some meaning) :
    PushesLink T program segments env used limit meaning.home
      (Code.spanning span (frameAddress meaning.hops)) := by
  rintro σ more store image sites anchor pc s hs fronts p tail rfl hhome
  obtain ⟨-, hhops, -⟩ := Env.find?_home hfind
  have henv := hs.env_eq
  rw [List.map_append, hhome] at henv
  have hhops' : meaning.hops = Env.depth (fronts.map Prod.fst) := by
    rw [← henv, Env.depth_append] at hhops
    omega
  have hcode := hs.holds
  rw [hhops'] at hcode ⊢
  exact hs.ready.moves_frameAddress hs.data_fits (hs.env_eq.symm ▸ hdepth) rfl hcode

/-- The link and the label of a function that is called are pushed. -/
theorem Poised.moves_callee {link : Code} {front home : Env}
    (h : Poised T program segments env used limit (values ++ σ)
      (link ++ Code.spanning span [.name frame.label, .call frame]) store image sites anchor pc s)
    (hlink : PushesLink T program segments env used limit home link)
    (hfront : env = front ++ home) (hhome : home ≠ []) :
    ∃ fronts p tail w, sites = fronts ++ p :: tail ∧ fronts.map Prod.fst = front ∧
      (p :: tail).map Prod.fst = home ∧ image.labels[frame.label]? = some w ∧
      (∃ pc', image.Holds pc' [⟨span, .call frame⟩] ∧
        pc' + Code.size [⟨span, .call frame⟩]
          = pc + Code.size (link ++ Code.spanning span [.name frame.label, .call frame]) ∧
        Moves T segments image sites anchor used limit (4 * (values ++ σ).length + 8) s pc'
          (w :: .ofInt p.2 :: (values ++ σ)) store) := by
  have hcode := h.holds
  rw [Image.holds_append] at hcode
  have hsites := h.env_eq
  rw [hfront] at hsites
  obtain ⟨fronts, back, hsplit, hfronts, hback⟩ := List.map_eq_append_iff.mp hsites
  obtain ⟨region, rest, hrest⟩ := List.exists_cons_of_ne_nil hhome
  obtain ⟨p, tail, rfl, -, -⟩ := List.map_eq_cons_iff.mp (hback.trans hrest)
  have hnamed := hcode.2
  simp only [Code.spanning, List.map_cons, List.map_nil, Image.holds_cons] at hnamed
  obtain ⟨⟨-, w, hw⟩, hcall⟩ := hnamed
  refine ⟨fronts, p, tail, w, hsplit, hfronts, hback, hw,
    pc + Code.size link + (Instruction.name frame.label).size, ?_, ?_, ?_⟩
  · exact (image.holds_cons _ _ _).mpr hcall
  · rw [Code.size_append, add_assoc, add_assoc]
    rfl
  · have hpushed := hlink (values ++ σ) _ store image sites anchor pc s h fronts p tail hsplit hback
    refine (hpushed.trans fun s' hs' => hs'.moves_name h.data_fits hcode.2 hw).congr ?_ rfl
    rw [List.length_cons]
    push_cast
    omega

/-- The machine does what a system function does in the state that it is called in. The argument is
found there, if there is one. -/
theorem Ready.calls_doing {function : SystemFunction} {link : Word} {action : Eval Word}
    (h : Ready T segments image sites anchor used limit pc
      (function.address :: link :: (values ++ σ)) store s)
    (hfits : ∀ d ∈ segments.data, d.item.Fits) (hcode : image.Holds pc [⟨span, .call frame⟩])
    (hsize : frame.parametersSize = 4 * values.length + 4)
    (hdoes : ∀ e : State, e.memory = s.memory → e.input = store.input → e.output = store.output →
      (∀ w, values = [w] → Exec.read (e.sp + 4) e = .ok w e) → function.Does action store e) :
    Attains image s (anchor - limit - 0) (Achieves image [frame.label] s (fun v store' s' =>
      Ready T segments image sites anchor used limit (pc + Code.size [⟨span, .call frame⟩]) (v :: σ)
          store' s' ∧
        Kept T segments image sites (anchor - used) s s') (action store)) := by
  obtain ⟨h₀, hdata, hheapLe, hused, hle, hstop⟩ := h.room
  obtain ⟨sp, hsp⟩ : ∃ sp : Int, sp = anchor - limit - 4 * (values.length + σ.length) - 8 := ⟨_, rfl⟩
  have htop : anchor - limit - 4 * ((function.address :: link :: (values ++ σ)).length : Int) = sp := by
    simp only [List.length_cons, List.length_append]
    push_cast
    omega
  have hstack := h.stack
  have hwords := h.words
  rw [htop] at hstack hwords hheapLe
  obtain ⟨haddress, -, hvalues⟩ := hwords
  rw [Memory.hasWords_append] at hvalues
  have hadvanced := hstack.advanced (.call frame)
  have hroom : sp + 4 ≤ ((s.advanced (.call frame)).memory.size : Int) := by
    show sp + 4 ≤ (s.memory.size : Int)
    omega
  have htarget : SystemFunction.ofAddress? ((s.advanced (.call frame)).memory.word sp)
      = some function := by
    show SystemFunction.ofAddress? (s.memory.word sp) = _
    rw [haddress, SystemFunction.ofAddress?_address]
  have hperform := Exec.perform_call_eq image hadvanced hroom frame htarget
  have hentered := Exec.entered_stackAt hadvanced hroom frame.label
  have hstep := (h.step_eq hcode (fun _ => Instruction.noConfusion)).trans hperform
  obtain ⟨e, he⟩ : ∃ e, e = (s.advanced (.call frame)).entered (sp + 4) frame.label := ⟨_, rfl⟩
  rw [← he] at hstep hentered
  have hmemory : e.memory = s.memory := by rw [he]; rfl
  -- the argument, if there is one, stands above the link
  have hread : ∀ w, values = [w] → Exec.read (e.sp + 4) e = .ok w e := by
    rintro w rfl
    have hstart := h.stack.start_le
    have hvalue := hvalues.1.1
    simp only [List.length_singleton, Nat.cast_one] at hsp
    rw [hentered.sp_eq, Word.ofInt_add_four, Exec.read_at (by rw [hmemory]; omega)
      (by rw [hmemory]; omega) (by rw [hmemory]; exact h.stack.size_lt), hmemory, add_assoc]
    rw [add_assoc] at hvalue
    rw [hvalue]
  refine ⟨fun _ => ?_, fun hlevel => by omega⟩
  cases hdoes e hmemory (by rw [he]; exact h.input_eq) (by rw [he]; exact h.output_eq) hread with
  | exits code hfunction heval hexec =>
      subst hfunction
      rw [heval]
      refine ⟨e, .of_exit (hstep.trans (Exec.callSystem_exit hexec)), ?_⟩
      rw [he]
      exact h.output_eq
  | fails kind input output heval hexec =>
      rw [heval]
      have hends := Ends.of_error (hstep.trans (Exec.callSystem_error hexec))
      refine ⟨{ e with input, output }, ?_, rfl⟩
      have hcallStack : e.callStack = [frame.label] ++ s.callStack := by rw [he]; rfl
      rw [← hcallStack]
      exact hends
  | answers v input output hfunction heval hexec =>
      rw [heval]
      have hanswer : Exec.callSystem function frame e = _ :=
        Exec.callSystem_ok hentered hexec hfunction rfl (by omega) (by rw [hmemory]; omega)
      obtain ⟨a, ha⟩ : ∃ a : Int, a = anchor - limit - 4 * σ.length - 4 := ⟨_, rfl⟩
      rw [show sp + 4 + frame.parametersSize - 4 = a by omega] at hanswer
      have hdiffers := Memory.Differs.store s.memory (a := a) v (by omega)
      have hlength : anchor - limit - 4 * ((v :: σ).length : Int) = a := by
        rw [List.length_cons]
        push_cast
        omega
      refine ⟨_, .of_step (hstep.trans hanswer), by rw [he]; rfl, ?_⟩
      have hstored : ({ e with input, output : State }.answered a v).memory = s.memory.store a v := by
        show e.memory.store a v = _
        rw [hmemory]
      refine h.next hfits (hstored ▸ hdiffers) ?_ ?_ ?_ ?_ ?_ ?_ ?_ ?_ rfl rfl rfl
      · intro i hi
        simp only [Memory.Block] at hi
        omega
      · show e.pc = _
        rw [he, Code.size_cons, Code.size_nil, add_zero]
        exact h.advanced_pc (.call frame)
      · show e.fp = _
        rw [he]
        rfl
      · rw [hlength]
        rfl
      · show e.heapEnd = _
        rw [he]
        rfl
      · omega
      · rw [hlength, hstored]
        refine ⟨Memory.word_store_same _ _ (by omega) (by omega), ?_⟩
        refine Memory.HasWords.of_differs hdiffers (by omega) (fun i hi hi' => ?_)
          (by rw [show a + 4 = sp + 4 + 4 + 4 * values.length by omega]; exact hvalues.2)
        simp only [Memory.Block] at *
        omega
      · show e.callStack.tail = _
        rw [he]
        rfl

/-- The machine does what a system function does that does not deal with addresses. -/
theorem Ready.calls_system {function : SystemFunction} {link : Word}
    (h : Ready T segments image sites anchor used limit pc
      (function.address :: link :: (values ++ σ)) store s)
    (hfits : ∀ d ∈ segments.data, d.item.Fits) (hcode : image.Holds pc [⟨span, .call frame⟩])
    (harity : values.length = function.arity)
    (hsize : frame.parametersSize = 4 * values.length + 4) (hputstr : function ≠ .putstr)
    (hnew : function ≠ .new) :
    Attains image s (anchor - limit - 0) (Achieves image [frame.label] s (fun v store' s' =>
      Ready T segments image sites anchor used limit (pc + Code.size [⟨span, .call frame⟩]) (v :: σ)
          store' s' ∧
        Kept T segments image sites (anchor - used) s s') (Eval.system function values store)) :=
  h.calls_doing hfits hcode hsize fun _ _ hinput houtput hread =>
    SystemFunction.does harity hread hinput houtput hputstr hnew

/-- A call of a system function. -/
theorem Computes.system {image₀ : Image} {s₀ : State} {link : Code}
    (h₀ : Executable program T segments image₀ s₀) {v : Word}
    (hl₀ : image₀.labels[frame.label]? = some v) (henv : env.Inside T program)
    (hlink : PushesLink T program segments env used limit meaning.home link)
    (hfind : env.find? name = some meaning) (hentity : meaning.entity = .function head [])
    (hframe : T.layout.frames[head.id]? = some frame)
    (hlength : head.parameters.length = values.length)
    (hnames : .func head [] ∈ program → head.name.text ≠ "putstr" ∧ head.name.text ≠ "new") :
    Computes T program segments n env used limit (values ++ σ)
      (link ++ Code.spanning span [.name frame.label, .call frame]) (Eval.call run name values)
      (fun w => w :: σ) := by
  intro store hrecords
  obtain ⟨front, inner, cell, outer, hfront, -, hsplit, -, -, hcell⟩ := hrecords.splitAt? hfind
  obtain ⟨hfits, ⟨hbody, -⟩ | ⟨-, htop, function, hname, rfl, harity⟩⟩ :=
    h₀.callee henv hfind hentity hframe hl₀
  · exact absurd rfl hbody
  have hcall : Eval.call run name values store = Eval.system function values store := by
    rw [hentity] at hcell
    cases cell with
    | value w => exact hcell.elim
    | function head' body =>
        obtain ⟨rfl, rfl⟩ := hcell
        rw [Eval.call_of_splitAt? hsplit hlength, ← hname, SystemFunction.ofName?_name]
        rfl
  have hputstr' : function ≠ .putstr := by
    rintro rfl
    exact (hnames htop).1 hname.symm
  have hnew' : function ≠ .new := by
    rintro rfl
    exact (hnames htop).2 hname.symm
  rw [ComputesFrom, hcall]
  refine (Eval.system_described (hlength.symm.trans harity) hputstr' hnew').imp (fun _ => False.elim) ?_
  intro hsame
  refine ⟨fun w store' h => hsame w store' h ▸ hrecords, max (4 * (values ++ σ).length + 8) 0,
    [frame.label], fun image sites anchor pc s hs => ?_⟩
  obtain ⟨region, home, hhome, -⟩ := Env.find?_region hfind
  obtain ⟨s₁, h₁⟩ := hs.executable
  obtain ⟨fronts, p, tail, w, -, -, -, hw, pc', hcode, hpc', hmoves⟩ :=
    hs.moves_callee hlink hfront (hhome ▸ List.cons_ne_nil _ _)
  obtain ⟨-, ⟨hbody, -⟩ | ⟨-, -, function', hname', rfl, -⟩⟩ := h₁.callee henv hfind hentity hframe hw
  · exact absurd rfl hbody
  obtain rfl : function' = function :=
    Option.some.inj (by rw [← SystemFunction.ofName?_name function,
      ← SystemFunction.ofName?_name function', hname, hname'])
  refine hmoves.achieves fun s' hs' hkept => ?_
  refine (hs'.calls_system hs.data_fits hcode (hlength.symm.trans harity)
    (by rw [hfits.parametersSize_eq, hlength]) hputstr' hnew').imp fun hachieves => ?_
  refine hachieves.of_leads (.refl _ _) rfl rfl fun v store' s'' _ hs'' => ?_
  rw [← hpc']
  exact ⟨hs''.1, hkept.trans hs''.2⟩

theorem Eval.inside_eq (record : Record) (inner outer : List Record) (f : Eval Word) (store : Store) :
    Eval.inside record inner outer f store = match f { store with records := record :: outer } with
      | .ok w store' => .ok w { store' with records := inner ++ store'.records.tail }
      | .error halt store' => .error halt store' := by
  have hmodify : (modify fun store : Store => { store with records := record :: outer } : Eval PUnit)
      store = .ok () { store with records := record :: outer } := rfl
  rw [Eval.inside, Eval.bind_ok hmodify, Eval.bind_eq]
  cases f { store with records := record :: outer } <;> rfl

theorem Env.Placed.of_parameters {layout : Layout} {home : Env} {used limit : Int}
    (h : Env.Placed layout (.parameters head :: home) used limit)
    (hframe : layout.frames[head.id]? = some frame) : frame.Fits home.depth head ∧
      ParametersPlaced layout (home.depth + 1) 4 head.parameters ∧ 8 ≤ frame.localsSize := by
  cases h with
  | parameters outer hframe' hfits hparameters hlocals =>
      cases hframe.symm.trans hframe'
      exact ⟨hfits, hparameters, hlocals⟩

/-- The function that is called is entered. -/
theorem Poised.enters {link code : Code} {front : Env} {inner outer : List Record}
    (h : Poised T program segments env used limit (values ++ σ)
      (link ++ Code.spanning span [.name frame.label, .call frame]) store image sites anchor pc s)
    (hlink : PushesLink T program segments env used limit meaning.home link)
    (hfind : env.find? name = some meaning) (hframe : T.layout.frames[head.id]? = some frame)
    {limit' : Int} (hplaced : Env.Placed T.layout (.parameters head :: meaning.home) 0 limit')
    (hfragment : T.fragments.functions[head.id]? = some (functionCode head frame code))
    (hlength : head.parameters.length = values.length) (hfront : env = front ++ meaning.home)
    (hrecords : store.records = inner ++ outer) (hinner : front.length = inner.length) :
    ∃ fronts p tail b, sites = fronts ++ p :: tail ∧ fronts.length = inner.length ∧
      (p :: tail).map Prod.fst = meaning.home ∧ image.Holds b (functionCode head frame code) ∧
      Attains image s (anchor - limit - (4 * (values ++ σ).length + 4 + max 12 frame.localsSize))
        (Arrives image s fun s₁ => ∃ s₀ pc',
          Ready T segments image sites anchor used limit pc' (.ofInt b :: .ofInt p.2 :: (values ++ σ))
            store s₀ ∧
          Kept T segments image sites (anchor - used) s s₀ ∧
          Entered T segments image ((.parameters head, anchor - limit - 4 * (values ++ σ).length - 4) ::
              p :: tail) frame (anchor - limit - 4 * (values ++ σ).length - 4)
            (b + Code.size (Code.spanning head.span [.label frame.label,
              .push (.ofInt (headerSize - frame.localsSize)), .popn]))
            (pc + Code.size (link ++ Code.spanning span [.name frame.label, .call frame]))
            { store with records := .ofParameters head.parameters values :: outer } s₀ s₁) := by
  obtain ⟨region, home, hhome, -⟩ := Env.find?_region hfind
  obtain ⟨s₁, h₁⟩ := h.executable
  obtain ⟨fronts, p, tail, w, hsites, hfronts, hback, hw, pc', hcode, hpc', hmoves⟩ :=
    h.moves_callee hlink hfront (hhome ▸ List.cons_ne_nil _ _)
  obtain ⟨b, h₀, hb, hfunction⟩ := h₁.function_holds hfragment
  have hlabel : image.labels[frame.label]? = some (.ofInt b) := hfunction _ List.mem_cons_self
  obtain rfl : w = .ofInt b := Option.some.inj (hw.symm.trans hlabel)
  have hlengths : fronts.length = inner.length := by rw [← hinner, ← hfronts, List.length_map]
  refine ⟨fronts, p, tail, b, hsites, hlengths, hback, hfunction, ?_⟩
  obtain ⟨hfits, hparameters, hlocals⟩ := hplaced.of_parameters hframe
  subst hsites
  have hcodeSize := Code.size_nonneg (functionCode head frame code)
  have hlt : b < 2147483648 := by
    have hstart := h.ready.stack.start_le
    have hheap := h.ready.stack.heap_le
    have hle := h.ready.stack.le_size
    have hsize := h.ready.stack.size_lt
    have hdataStart := h.ready.dataStart_eq
    rw [h₁.loaded.dataStart_eq] at hb
    omega
  have hlevel : anchor - limit - (4 * ((values ++ σ).length : Int) + 4 + max 12 frame.localsSize)
      = min (anchor - limit - (4 * ((values ++ σ).length : Int) + 8))
        (min (anchor - limit - 4 * ((values ++ σ).length : Int) - 4 - 8)
          (min (anchor - limit - 4 * ((values ++ σ).length : Int) - 4 - 12)
            (anchor - limit - 4 * ((values ++ σ).length : Int) - 4 - frame.localsSize))) := by
    omega
  rw [hlevel, ← hpc']
  refine hmoves.bind fun s₀ hleads hheap hs₀ => ?_
  refine (hs₀.1.enters h.data_fits hcode h₀ hlt hfunction hframe hlocals hfits hparameters hlength
    hrecords hlengths rfl).imp ?_
  rintro ⟨s₁, hleads', hheap', hentered⟩
  exact ⟨s₁, hleads.trans hleads', hheap'.trans hheap, s₀, pc', hs₀.1, hs₀.2, hentered⟩

/-- A call of a function whose statements are computed by its code. -/
theorem Computes.call {link code : Code}
    (hlink : PushesLink T program segments env used limit meaning.home link)
    (hfind : env.find? name = some meaning) (hentity : meaning.entity = .function head body)
    (hbody : body ≠ []) (hframe : T.layout.frames[head.id]? = some frame)
    (hplaced : Env.Placed T.layout (.parameters head :: meaning.home) 0 (frame.localsSize - 8))
    (hfragment : T.fragments.functions[head.id]? = some (functionCode head frame code))
    (hlength : head.parameters.length = values.length)
    (hrun : Computes T program segments n (.parameters head :: meaning.home) 0 (frame.localsSize - 8)
      [] code (run body) (fun w => [w])) :
    Computes T program segments (n + 1) env used limit (values ++ σ)
      (link ++ Code.spanning span [.name frame.label, .call frame]) (Eval.call run name values)
      (fun w => w :: σ) := by
  intro store hrecords
  obtain ⟨hfits, hparameters, hlocals⟩ := hplaced.of_parameters hframe
  obtain ⟨front, inner, cell, outer, hfront, hsplitRecords, hsplit, hinner, houter, hcell⟩ :=
    hrecords.splitAt? hfind
  have hcall : Eval.call run name values store
      = Eval.inside (.ofParameters head.parameters values) inner outer (run body) store := by
    rw [hentity] at hcell
    cases cell with
    | value w => exact hcell.elim
    | function head' body' =>
        obtain ⟨rfl, rfl⟩ := hcell
        rw [Eval.call_of_splitAt? hsplit hlength, if_neg (by simpa using hbody)]
  have hrecords' : RecordsFit (.parameters head :: meaning.home)
      (.ofParameters head.parameters values :: outer) :=
    .cons (Record.fits_ofParameters hlength) houter
  refine .of_inner [frame.label] (4 * (values ++ σ).length + 4 + max 12 frame.localsSize)
    (4 * (values ++ σ).length + 4 + frame.localsSize + 8)
    (4 * (values ++ σ).length + 4 + frame.localsSize) (hcall.trans (Eval.inside_eq _ _ _ _ _))
    (hrun _ hrecords') (.inr ⟨le_rfl, List.cons_ne_nil _ _⟩) ?_ ?_
  · intro store' hfits'
    rw [hfront]
    obtain ⟨record, rest, -, hrest, hcons⟩ := List.forall₂_cons_left_iff.mp hfits'
    rw [hcons]
    exact hinner.append hrest
  · intro image sites anchor pc s hs
    obtain ⟨fronts, p, tail, b, rfl, hfronts, hhome, hfunction, hattains⟩ :=
      hs.enters hlink hfind hframe hplaced hfragment hlength hfront hsplitRecords hinner.length_eq
    obtain ⟨a, ha⟩ : ∃ a : Int, a = anchor - limit - 4 * (values ++ σ).length - 4 := ⟨_, rfl⟩
    rw [← ha] at hattains
    obtain ⟨start, hstart⟩ : ∃ start : Int, start = b + Code.size (Code.spanning head.span
      [.label frame.label, .push (.ofInt (headerSize - frame.localsSize)), .popn]) := ⟨_, rfl⟩
    rw [functionCode, Image.holds_append, Image.holds_append, Code.size_append, ← add_assoc, ← hstart]
      at hfunction
    rw [← hstart] at hattains
    refine ⟨(.parameters head, a) :: p :: tail, a - 8, start, by omega, hattains.imp ?_⟩
    rintro ⟨s₁, hleads, hheap, s₀, pc', hready₀, hkept₀, hentered⟩
    refine ⟨s₁, hleads, hheap, ⟨⟨hs.executable, ?_, hfunction.1.2, ?_⟩, hentered.ready⟩, ?_, ?_⟩
    · rw [List.map_cons, hhome]
    · exact Option.isSome_of_eq_some ((image.holds_cons _ _ _).mp hfunction.2).1
    · rw [hentered.callStack_eq, hkept₀.callStack_eq]
      rfl
    · intro w store' s₂ hfits' hready hkept
      rw [sub_zero] at hkept
      have hlevel : anchor - limit - (4 * ((values ++ σ).length : Int) + 4 + frame.localsSize + 8)
          = a - frame.localsSize - 8 := by omega
      have hregion : (Region.parameters head).Sited T image a (a + 4) (a + frame.parametersSize) := by
        rw [hfits.parametersSize_eq, show a + (4 * (head.parameters.length : Int) + 4)
          = a + 4 + 4 * head.parameters.length by ring]
        exact sited_parameters hparameters
      rw [hlevel]
      refine (hentered.leaves hready₀ hs.data_fits hready hkept hlocals hregion ?_ hsplitRecords hfronts
        ha hfunction.2 hs.live).imp ?_
      · rw [hfits.parametersSize_eq, hlength]
      · rintro ⟨s₃, hleads₃, hheap₃, hready₃, hkept₃⟩
        exact ⟨s₃, hleads₃, hheap₃, hready₃, hkept₀.trans hkept₃⟩

end

end NestedFun
