import NestedFun.Proofs.CallEvaluation

namespace NestedFun

/-!
# Blocks in evaluations

At the entry of a block its variables get their initial contents. Then the block has a record that
holds, and its statements are carried out among the records around the block.
-/

section

variable {T : Target} {program : Program} {segments : Segments} {image : Image}
  {sites : List Site} {env : Env} {anchor used limit pc a before after : Int} {σ : List Word}
  {store : Store} {s s₀ : State} {span : Span} {head : Variable} {ds : List Definition}
  {code more : Code} {n : Nat}

/-- A variable is set up from its encoded contents. -/
theorem Ready.step_init {d : Int} {v : Word}
    (h : Ready T segments image sites anchor used limit pc (v :: .ofInt d :: σ) store s)
    (hexecutable : Executable program T segments image s₀)
    (hv : image.labels[dataLabel n]? = some v)
    (hstorage : T.fragments.storage[head.id]? = some (Data.spanning head.span
      (.label (dataLabel n) :: (Contents.ofVariable head).words.map .word)))
    (hlow : anchor - limit ≤ d) (hhigh : d + 4 * head.words.length ≤ anchor - used)
    (hcode : image.Holds pc (⟨span, .init⟩ :: more)) :
    ∃ s', Exec.step image s = .ok none s' ∧ s'.heapEnd = s.heapEnd ∧
      s'.memory.HasWords d head.words ∧
      Ready T segments image sites anchor used limit (pc + Instruction.init.size) σ store s' ∧
      Kept T segments image sites (anchor - used) s s' := by
  obtain ⟨h₀, hdata, hheapLe, hused, hle, hsize⟩ := h.room
  obtain ⟨x, hlabel, hx, hxle, hencoding⟩ := hexecutable.encoding_addressed hstorage
  obtain rfl : v = .ofInt x := Option.some.inj (hv.symm.trans hlabel)
  have hwords := hencoding s.memory h.intact
  have hstack := h.stack
  obtain ⟨hname, hdestination, hσ⟩ := h.words
  have hstart := h.dataStart_eq
  simp only [Segments.dataStop] at hdata hxle h₀
  simp only [List.length_cons, Nat.cast_add, Nat.cast_one] at hstack hdestination hname hσ hheapLe
  have hperform : Exec.perform image .init (s.advanced .init) = _ :=
    Exec.perform_init (hstack.advanced .init)
    (by show _ ≤ (s.memory.size : Int); omega) hname hdestination hwords
    (by show (s.memory.dataStart : Int) ≤ _; omega) (by omega)
    (by show _ ≤ (s.memory.size : Int); omega)
  have hdiffers := Memory.differs_storeAll s.memory (a := d) head.words (by omega)
  refine ⟨_, (h.step_eq hcode fun _ => Instruction.noConfusion).trans hperform, rfl,
    Memory.hasWords_storeAll s.memory _ (by omega) (by omega), ?_⟩
  refine h.next hexecutable.data_fits hdiffers ?_ (h.advanced_pc .init) rfl ?_ rfl ?_ ?_ rfl rfl
    h.input_eq h.output_eq
  · intro i hi
    simp only [Memory.Block, Segments.dataStop] at *
    omega
  · show Word.ofInt _ = _
    congr 1
    omega
  · omega
  · refine Memory.HasWords.of_differs hdiffers (by omega) (fun i hi hi' => ?_) (words_append [_, _] h).2
    simp only [Memory.Block] at *
    omega

/-- The code of a variable expands its contents into the frame. -/
theorem Ready.initializes {offset d : Int}
    (h : Ready T segments image sites anchor used limit pc σ store s)
    (hexecutable : Executable program T segments image s₀)
    (hdepth : 0 < Env.depth (sites.map Prod.fst))
    (hstorage : T.fragments.storage[head.id]? = some (Data.spanning head.span
      (.label (dataLabel n) :: (Contents.ofVariable head).words.map .word)))
    (hd : d = anchor + 8 + offset) (hlow : anchor - limit ≤ d)
    (hhigh : d + 4 * head.words.length ≤ anchor - used)
    (hcode : image.Holds pc (Code.spanning span
      [.regn .framePointer, .push (.ofInt offset), .oper .add, .name (dataLabel n), .init] ++ more)) :
    Attains image s (anchor - limit - (4 * σ.length + 8)) (Arrives image s fun s' =>
      s'.memory.HasWords d head.words ∧
        Ready T segments image sites anchor used limit (pc + Code.size (Code.spanning span
          [.regn .framePointer, .push (.ofInt offset), .oper .add, .name (dataLabel n), .init]))
          σ store s' ∧
        Kept T segments image sites (anchor - used) s s') := by
  have hfits := hexecutable.data_fits
  simp only [Code.spanning, List.map_cons, List.map_nil, List.cons_append, List.nil_append] at hcode ⊢
  have hpush := ((Image.holds_cons _ _ _ _).mp hcode).2
  have hadd := ((Image.holds_cons _ _ _ _).mp hpush).2
  have hname := ((Image.holds_cons _ _ _ _).mp hadd).2
  obtain ⟨⟨-, v, hv⟩, hinit⟩ := (Image.holds_cons _ _ _ _).mp hname
  have hfp : s.fp = .ofInt (anchor + 8) := h.fp_eq hdepth
  have hsum : Operator.add.apply (.ofInt (anchor + 8)) (.ofInt offset) = .ok (.ofInt d) := by
    rw [hd, Operator.apply, Word.ofInt_add]
  have hmoves := ((h.moves_regn hfits hcode).trans fun s₁ h₁ => h₁.moves_push hfits hpush).trans
    fun s₂ h₂ => (hfp ▸ h₂).moves_binary hfits hadd rfl hsum
  have hmoves := hmoves.trans fun s₃ h₃ => h₃.moves_name hfits hname hv
  have hlevel : anchor - limit - (4 * (σ.length : Int) + 8)
      = anchor - limit - max (max (max (4 * (σ.length : Int) + 4) (4 * ((s.fp :: σ).length : Int) + 4)) 0)
        (4 * ((Word.ofInt d :: σ).length : Int) + 4) := by
    simp only [List.length_cons]
    push_cast
    omega
  rw [hlevel]
  refine hmoves.imp ?_
  rintro ⟨s₄, hleads, hheap, hready, hkept⟩
  obtain ⟨s₅, hstep, hheap', hwords, hready', hkept'⟩ :=
    hready.step_init hexecutable hv hstorage hlow hhigh hinit
  refine ⟨s₅, hleads.trans (.of_step hstep), hheap'.trans hheap, hwords, ?_, hkept.trans hkept'⟩
  simpa only [Code.size_cons, Code.size_nil, add_zero, add_assoc] using hready'

/-- One more definition belongs to the innermost region when its variable has its initial value. -/
theorem Ready.extended {d : Definition} {between : Int} {depth : Nat} {region : Region}
    {records : List Record} {input : List UInt8} {output : Output}
    (h : Ready T segments image ((.definitions ds, a) :: (region, a) :: sites) anchor before limit pc σ
      ⟨.ofDefinitions ds :: records, input, output⟩ s)
    (hsited : Sited T segments image s.memory ((region, a) :: sites) anchor used limit)
    (hanchor : anchor = a - 8) (hdepth : depth ≠ 0) (hused : used ≤ between)
    (hplaced : PlacedDefinitions T.layout depth between after (ds ++ [d])) (hlimit : after ≤ limit)
    (hstores : ∀ e ∈ ds ++ [d], e.StoresWord)
    (hvalue : ∀ head x, d = .var head → (Entity.variable head.id).site? T image a = some x →
      s.memory.word x = head.words.headD 0) :
    Ready T segments image ((.definitions (ds ++ [d]), a) :: (region, a) :: sites) anchor after limit pc
      σ ⟨.ofDefinitions (ds ++ [d]) :: records, input, output⟩ s := by
  have hregion := sited_definitions image a hplaced hdepth hstores
  rw [← hanchor] at hregion
  refine { h with sited := ?_, holds := ?_ }
  · exact .definitions hsited hanchor hused hplaced.before_le hlimit hregion
  · obtain ⟨hrecord, hrecords⟩ := List.forall₂_cons.mp h.holds
    refine .cons ?_ hrecords
    rw [Record.Holds, Region.entities, Record.ofDefinitions, List.map_append, List.map_append]
    refine List.rel_append hrecord (.cons ?_ .nil)
    rcases d with ⟨head, body⟩ | head
    · exact ⟨rfl, fun x w _ hw => by cases hw⟩
    · refine ⟨rfl, fun x w hx hw => ?_⟩
      cases hw
      exact hvalue head x rfl hx

theorem PlacedDefinitions.concat {layout : Layout} {depth : Nat} {between : Int}
    (h : PlacedDefinitions layout depth before between ds) {d : Definition}
    (hd : d.Placed layout depth between after) :
    PlacedDefinitions layout depth before after (ds ++ [d]) := by
  induction ds generalizing before with
  | nil =>
      obtain rfl : between = before := h
      exact ⟨after, hd, rfl⟩
  | cons e ds ih =>
      obtain ⟨between', he, hds⟩ := h
      exact ⟨between', he, ih hds⟩

variable (program segments) in
/-- The code of definitions makes them the innermost region, one after the other. -/
theorem opens_definitions {rest : List Definition} {between : Int} (hcoded : CodedDefinitions T env rest code)
    (hplaced : PlacedDefinitions T.layout env.depth before between ds)
    (hrest : PlacedDefinitions T.layout env.depth between after rest)
    (hstores : ∀ d ∈ ds ++ rest, d.StoresWord) (hdepth : 0 < env.depth) (hused : used ≤ before)
    (hlimit : after ≤ limit) (σ : List Word) :
    ∃ need, ∀ image region sites a anchor pc s s₀ records input output more,
      Executable program T segments image s₀ → anchor = a - 8 →
      Env.depth ((region :: sites.map Prod.fst)) = env.depth → image.Holds pc (code ++ more) →
      Sited T segments image s.memory ((region, a) :: sites) anchor used limit →
      Ready T segments image ((.definitions ds, a) :: (region, a) :: sites) anchor between limit pc σ
        ⟨.ofDefinitions ds :: records, input, output⟩ s →
      Attains image s (anchor - limit - need) (Arrives image s fun s' =>
        Ready T segments image ((.definitions (ds ++ rest), a) :: (region, a) :: sites) anchor after limit
            (pc + code.size) σ ⟨.ofDefinitions (ds ++ rest) :: records, input, output⟩ s' ∧
          Kept T segments image ((region, a) :: sites) (anchor - used) s s') := by
  induction rest generalizing ds between code with
  | nil =>
      obtain rfl : code = [] := hcoded
      obtain rfl : after = between := hrest
      refine ⟨0, fun image region sites a anchor pc s s₀ records input output more _ _ _ _ _ h => ?_⟩
      obtain ⟨-, -, hroom, -, -, -⟩ := h.room
      rw [List.append_nil, Code.size_nil, add_zero]
      exact ⟨fun _ => ⟨s, .refl _ _, rfl, h, rfl, rfl, .refl _ _⟩, fun hlevel => by omega⟩
  | cons d rest ih =>
      obtain ⟨first, others, hfirst, hothers, rfl⟩ := hcoded
      obtain ⟨between', hd, hrest⟩ := hrest
      have hconcat := hplaced.concat hd
      have hbefore := hplaced.before_le
      have hle := hd.before_le
      have hle' := hrest.before_le
      have happend : ds ++ d :: rest = ds ++ [d] ++ rest := (List.append_cons ds d rest)
      rw [happend] at hstores ⊢
      have hstores' : ∀ e ∈ ds ++ [d], e.StoresWord := fun e he => hstores e (List.mem_append_left _ he)
      obtain ⟨need, hneed⟩ := ih hothers hconcat hrest hstores
      rcases d with ⟨head, body⟩ | head
      · -- a function has no code here and takes no room
        obtain ⟨rfl, -⟩ := hfirst
        obtain ⟨rfl, -⟩ := hd
        refine ⟨need, fun image region sites a anchor pc s s₀ records input output more hexecutable hanchor
          hdepth' hcode hsited h => ?_⟩
        have hextended := h.extended hsited hanchor hdepth.ne' hused hconcat (by omega) hstores' nofun
        exact hneed image region sites a anchor pc s s₀ records input output more hexecutable hanchor
          hdepth' hcode hsited hextended
      · obtain ⟨-, hvariable⟩ := hfirst
        rw [if_neg hdepth.ne'] at hvariable
        obtain ⟨offset, n, haccess, hstorage, rfl⟩ := hvariable
        refine ⟨max (4 * σ.length + 8) need, fun image region sites a anchor pc s s₀ records input output
          more hexecutable hanchor hdepth' hcode hsited h => ?_⟩
        obtain ⟨hsite, hafter⟩ := site_local image a hd hdepth.ne'
        have hoffset : a + offset = a - 8 - between' := by
          rw [Entity.site?, haccess] at hsite
          exact Option.some.inj hsite
        rw [List.append_assoc] at hcode
        rw [show anchor - limit - max (4 * (σ.length : Int) + 8) need
          = min (anchor - limit - (4 * (σ.length : Int) + 8)) (anchor - limit - need) by omega,
          Code.size_append, ← add_assoc]
        refine Attains.bind (h.initializes hexecutable (d := anchor - between') ?_ hstorage
          (by omega) (by omega) (by omega) hcode) fun s' hleads hheap hs' => ?_
        · rw [List.map_cons, Env.depth_definitions, List.map_cons, hdepth']
          exact hdepth
        · obtain ⟨hwords, hready, hkept⟩ := hs'
          have hregion := sited_definitions image a hplaced hdepth.ne'
            fun e he => hstores' e (List.mem_append_left _ he)
          have hlow := h.sited.bounds
          have hkept' : Kept T segments image ((region, a) :: sites) (anchor - used) s s' := by
            refine ⟨hkept.fp_eq, hkept.callStack_eq, hkept.differs.mono fun i hi => ?_⟩
            rw [← hanchor] at hregion
            exact Sited.changes_of_definitions hused hbefore (by omega) hregion hi
          have hsited' := hsited.of_differs hkept'.differs
          have hextended := hready.extended hsited' hanchor hdepth.ne' hused hconcat (by omega) hstores' ?_
          · rw [Image.holds_append] at hcode
            refine (hneed image region sites a anchor _ s' s₀ records input output more hexecutable hanchor
              hdepth' hcode.2 hsited' hextended).imp ?_
            rintro ⟨s'', hleads', hheap', hready', hkept''⟩
            exact ⟨s'', hleads.trans hleads', hheap'.trans hheap, hready', hkept'.trans hkept''⟩
          · rintro _ x ⟨⟩ hx
            obtain rfl : a - 8 - between' = x := Option.some.inj (hsite.symm.trans hx)
            rw [hanchor] at hwords
            obtain ⟨w, words, hcons⟩ := List.exists_cons_of_ne_nil (hstores' (.var head) (by simp))
            rw [hcons] at hwords ⊢
            exact hwords.1

/-- Nothing is declared yet. -/
theorem Ready.opening {region : Region}
    (h : Ready T segments image ((region, a) :: sites) anchor used limit pc σ store s)
    (hanchor : anchor = a - 8) (hused : used ≤ before) (hlimit : before ≤ limit) :
    Ready T segments image ((.definitions [], a) :: (region, a) :: sites) anchor before limit pc σ
      { store with records := .ofDefinitions [] :: store.records } s := by
  refine { h with fp_eq := ?_, sited := ?_, holds := .cons .nil h.holds }
  · intro hdepth
    rw [List.map_cons, Env.depth_definitions] at hdepth
    exact h.fp_eq hdepth
  · exact .definitions h.sited hanchor hused le_rfl hlimit ⟨nofun, nofun, .nil⟩

/-- Behind a block its record is dropped. -/
theorem Ready.closed {region : Region} {t : State}
    (h : Ready T segments image ((.definitions ds, a) :: (region, a) :: sites) anchor after limit pc σ
      store t)
    (hsited : Sited T segments image s.memory ((region, a) :: sites) anchor used limit)
    (hkept : Kept T segments image ((region, a) :: sites) (anchor - used) s t) :
    Ready T segments image ((region, a) :: sites) anchor used limit pc σ
      { store with records := store.records.tail } t := by
  refine { h with fp_eq := ?_, sited := hsited.of_differs hkept.differs, holds := ?_ }
  · intro hdepth
    exact h.fp_eq (by rwa [List.map_cons, Env.depth_definitions])
  · obtain ⟨record, records, -, hrecords, heq⟩ := List.forall₂_cons_left_iff.mp h.holds
    rwa [heq]

/-- A block. -/
theorem Computes.block {entry : Code} {f : Eval Word} {σ' : Word → List Word}
    (hcoded : CodedDefinitions T (.definitions ds :: env) ds entry)
    (hplaced : PlacedDefinitions T.layout env.depth before after ds)
    (hstores : ∀ d ∈ ds, d.StoresWord) (hdepth : 0 < env.depth) (hused : used ≤ before)
    (hlimit : after ≤ limit)
    (hf : Computes T program segments n (.definitions ds :: env) after limit σ code f σ') :
    Computes T program segments n env used limit σ (entry ++ code)
      (get >>= fun store => Eval.inside (.ofDefinitions ds) [] store.records f) σ' := by
  intro store hrecords
  have henv : Env.depth (.definitions ds :: env) = env.depth := env.depth_definitions ds
  have hbefore := hplaced.before_le
  obtain ⟨need, hneed⟩ := opens_definitions program segments hcoded
    (by rw [henv]; exact rfl : PlacedDefinitions _ _ before before []) (henv.symm ▸ hplaced) hstores
    (henv.symm ▸ hdepth) hused hlimit σ
  refine .of_inner [] need 0 0 (Eval.inside_eq _ _ _ _ _)
    (hf _ (.cons (Record.fits_ofDefinitions ds) hrecords)) (.inl le_rfl) ?_ ?_
  · intro store' hfits
    obtain ⟨record, records, -, htail, heq⟩ := List.forall₂_cons_left_iff.mp hfits
    rw [heq]
    exact htail
  · intro image sites anchor pc s hs
    obtain ⟨s₀, hexecutable⟩ := hs.executable
    have hcode := hs.holds
    have hlive := hs.live
    have hsites := hs.env_eq
    rw [Code.size_append, ← add_assoc] at hlive
    obtain ⟨region, outer, rfl⟩ : ∃ region outer, env = region :: outer :=
      List.exists_cons_of_ne_nil (by rintro rfl; exact absurd hdepth (lt_irrefl 0))
    obtain ⟨⟨r, a⟩, rest, rfl, rfl, hrest⟩ := List.map_eq_cons_iff.mp hsites
    have hanchor : anchor = a - 8 := by
      have := hs.ready.sited.frame_eq (hsites.symm ▸ hdepth)
      change a = anchor + 8 at this
      omega
    have hopens := hneed image r rest a anchor pc s s₀ store.records store.input store.output code
      hexecutable hanchor (by rw [hrest, henv]) hcode hs.ready.sited
      (hs.ready.opening hanchor hused (by omega))
    rw [Image.holds_append] at hcode
    refine ⟨(.definitions ds, a) :: (r, a) :: rest, anchor, pc + entry.size, by omega, hopens.imp ?_⟩
    rintro ⟨s₁, hleads, hheap, hready, hkept⟩
    refine ⟨s₁, hleads, hheap, ⟨⟨hs.executable, ?_, hcode.2, hlive⟩, hready⟩, hkept.callStack_eq, ?_⟩
    · rw [List.map_cons, hsites]
    · intro w store' s₂ _ hready₂ hkept₂
      obtain ⟨-, -, hroom, -, -, -⟩ := hready₂.room
      have hregion := sited_definitions image a hplaced hdepth.ne' hstores
      rw [← hanchor] at hregion
      have hbounds := hready₂.sited.bounds
      have hkept' : Kept T segments image ((r, a) :: rest) (anchor - used) s s₂ :=
        hkept.trans ⟨hkept₂.fp_eq, hkept₂.callStack_eq, hkept₂.differs.mono fun i hi =>
          Sited.changes_of_definitions hused hbefore (by omega) hregion hi⟩
      refine ⟨fun _ => ⟨s₂, .refl _ _, rfl, ?_, hkept'⟩, fun hlevel => by omega⟩
      rw [Code.size_append, ← add_assoc]
      exact hready₂.closed hs.ready.sited hkept'

end

end NestedFun
