import NestedFun.Proofs.StraightCode

namespace NestedFun

/-!
# Jumps in evaluations

A jump to a label goes on with what is computed from there. The code of branches and of loops, whose
pieces stand in another order than they are carried out in, computes what evaluation says.
-/

/-- A label at the end of a piece stands for the position behind the piece. -/
theorem Code.HasAt.label {code : Code} {i : Int} {span : Span} {l : String} {is : List Instruction}
    (h : code.HasAt i (spanning span is)) (hlast : is.getLast? = some (.label l)) :
    code.HasAt (i + size (spanning span is)) (spanning span [.label l]) := by
  obtain ⟨is, rfl⟩ := List.getLast?_eq_some_iff.mp hlast
  have hsize : size (spanning span [.label l]) = 0 := rfl
  rw [spanning_append, size_append, hsize, add_zero]
  rw [spanning_append] at h
  exact h.append.2

section

variable {T : Target} {program : Program} {segments : Segments} {image : Image}
  {sites : List Site} {env : Env} {anchor used limit pc i j k : Int} {σ τ : List Word}
  {store : Store} {s : State} {span : Span} {node : Node} {l : String} {w : Word} {n : Nat}
  {code c more : Code} {is is' : List Instruction} {α : Type} {f : Eval α} {σ' : α → List Word}

/-- A label in code stands for its address, where there is an instruction. -/
theorem Installed.label (h : Installed T program segments env code image sites pc)
    (hlabel : code.HasAt i (Code.spanning span (.label l :: is))) :
    image.labels[l]? = some (.ofInt (pc + i)) ∧ image.Live (pc + i) := by
  have hpiece := h.at_position hlabel
  exact ⟨((Image.holds_cons _ _ _ _).mp hpiece.holds).1, hpiece.holds.live hpiece.live⟩

/-- The target of a jump is taken from the stack. -/
theorem Ready.step_ujmp {a : Int}
    (h : Ready T segments image sites anchor used limit pc (.ofInt a :: σ) store s)
    (hfits : ∀ d ∈ segments.data, d.item.Fits) (hcode : image.Holds pc (⟨span, .ujmp⟩ :: more))
    (hlive : image.Live a) :
    ∃ s', Exec.step image s = .ok none s' ∧ s'.heapEnd = s.heapEnd ∧
      Ready T segments image sites anchor used limit a σ store s' ∧
      Kept T segments image sites (anchor - used) s s' := by
  obtain ⟨h₀, hdata, hheapLe, hused, hle, hsize⟩ := h.room
  have hstack := h.stack
  have hword := h.words.1
  simp only [List.length_cons, Nat.cast_add, Nat.cast_one] at hstack hword hheapLe
  rw [Image.Live, ← hword] at hlive
  have hperform := Exec.perform_ujmp image (hstack.advanced .ujmp) (by show _ ≤ (s.memory.size : Int); omega)
    hlive
  refine ⟨_, (h.step_eq hcode nofun).trans hperform, rfl,
    dropped [_] h hfits hword rfl rfl ?_ rfl rfl rfl rfl⟩
  show Word.ofInt _ = _
  congr 1
  omega

/-- The condition decides between the targets. -/
theorem Ready.step_cjmp {a b : Int}
    (h : Ready T segments image sites anchor used limit pc (.ofInt b :: .ofInt a :: w :: σ) store s)
    (hfits : ∀ d ∈ segments.data, d.item.Fits) (hcode : image.Holds pc (⟨span, .cjmp⟩ :: more))
    {target : Int} (htarget : target = if w ≠ 0 then a else b) (hlive : image.Live target) :
    ∃ s', Exec.step image s = .ok none s' ∧ s'.heapEnd = s.heapEnd ∧
      Ready T segments image sites anchor used limit target σ store s' ∧
      Kept T segments image sites (anchor - used) s s' := by
  obtain ⟨h₀, hdata, hheapLe, hused, hle, hsize⟩ := h.room
  have hstack := h.stack
  obtain ⟨hb, ha, hw, -⟩ := h.words
  simp only [List.length_cons, Nat.cast_add, Nat.cast_one] at hstack hb ha hw hheapLe
  rw [add_assoc] at hw
  have htarget' : Word.ofInt target = if w ≠ 0 then .ofInt a else .ofInt b := by
    rw [htarget]
    split <;> rfl
  rw [← hw, ← ha, ← hb] at htarget'
  have hperform := Exec.perform_cjmp image (hstack.advanced .cjmp)
    (by show _ ≤ (s.memory.size : Int); omega) htarget' hlive
  refine ⟨_, (h.step_eq hcode nofun).trans hperform, rfl,
    dropped [_, _, _] h hfits rfl rfl rfl ?_ rfl rfl rfl rfl⟩
  show Word.ofInt _ = _
  congr 1
  omega

/-- The machine gets to a position where it takes a step to where something is computed. -/
theorem ComputesBetween.of_step (need : Int)
    (hmoves : ∀ image sites anchor pc s, Installed T program segments env code image sites pc →
      Ready T segments image sites anchor used limit (pc + i) σ store s → ∃ pc' ρ,
        Moves T segments image sites anchor used limit need s pc' ρ store ∧
        ∀ s₁, Ready T segments image sites anchor used limit pc' ρ store s₁ →
          ∃ s₂, Exec.step image s₁ = .ok none s₂ ∧ s₂.heapEnd = s₁.heapEnd ∧
            Ready T segments image sites anchor used limit (pc + j) τ store s₂ ∧
            Kept T segments image sites (anchor - used) s₁ s₂)
    (h : ComputesBetween T program segments n env used limit code j k τ f σ' store) :
    ComputesBetween T program segments (n + 1) env used limit code i k σ f σ' store := by
  refine h.imp (fun _ hlasts image sites anchor pc s hs hready => ?_) ?_
  · obtain ⟨pc', ρ, hmoves, hstep⟩ := hmoves image sites anchor pc s hs hready
    by_cases hroom : s.heapEnd.toInt ≤ anchor - limit - need
    · obtain ⟨s₁, hleads, hheap, hready₁, hkept⟩ := hmoves.fits hroom
      obtain ⟨s₂, hstep, hheap', hready₂, hkept'⟩ := hstep s₁ hready₁
      rcases hlasts image sites anchor pc s₂ hs hready₂ with hover | hlasts
      · exact .inl ((hleads.trans (.of_step hstep)).overruns hover)
      · exact .inr (hleads.lasts (.of_step hstep hlasts))
    · exact .inl (hmoves.overruns (by omega))
  · rintro ⟨hfits, need', stack, hneed⟩
    refine ⟨hfits, max need need', stack, fun image sites anchor pc s hs hready => ?_⟩
    obtain ⟨pc', ρ, hmoves, hstep⟩ := hmoves image sites anchor pc s hs hready
    refine hmoves.achieves fun s₁ hready₁ hkept => ?_
    obtain ⟨s₂, hstep, hheap, hready₂, hkept'⟩ := hstep s₁ hready₁
    have hachieves := Attains.step hstep hheap
      (hneed image sites anchor pc s₂ hs hready₂)
    refine hachieves.imp fun hachieves => ?_
    exact hachieves.of_leads (.of_step hstep) hheap (by rw [hkept'.callStack_eq])
      fun v store' s' _ hs' => ⟨hs'.1, hkept.trans (hkept'.trans hs'.2)⟩

theorem ComputesBetween.mono {m : Nat}
    (h : ComputesBetween T program segments n env used limit code i j σ f σ' store) (hle : m ≤ n) :
    ComputesBetween T program segments m env used limit code i j σ f σ' store :=
  h.imp (fun _ hlasts image sites anchor pc s hs hready =>
    (hlasts image sites anchor pc s hs hready).imp id fun hlasts => hlasts.mono hle) id

/-- A jump to a label. -/
theorem ComputesBetween.jump {span' : Span}
    (hcode : code.HasAt i (Code.spanning span (.name l :: .ujmp :: is)))
    (hlabel : code.HasAt j (Code.spanning span' (.label l :: is')))
    (h : ComputesBetween T program segments n env used limit code j k σ f σ' store) :
    ComputesBetween T program segments (n + 1) env used limit code i k σ f σ' store := by
  refine .of_step (4 * σ.length + 4) (fun image sites anchor pc s hs hready => ?_) h
  obtain ⟨s₀, hexecutable⟩ := hs.executable
  have hfits := hexecutable.data_fits
  obtain ⟨htarget, hlive⟩ := hs.label hlabel
  have hnamed := (hs.at_position hcode).holds
  have hjump := ((Image.holds_cons _ _ _ _).mp hnamed).2
  exact ⟨_, _, hready.moves_name hfits hnamed htarget, fun s₁ hready₁ =>
    hready₁.step_ujmp hfits hjump hlive⟩

/-- A jump to one of two labels. -/
theorem ComputesBetween.jumpIf {l' : String} {span₁ span₂ : Span} {is₁ is₂ : List Instruction}
    {j₁ j₂ : Int} (hcode : code.HasAt i (Code.spanning span (.name l :: .name l' :: .cjmp :: is)))
    (hlabel : code.HasAt j₁ (Code.spanning span₁ (.label l :: is₁)))
    (hlabel' : code.HasAt j₂ (Code.spanning span₂ (.label l' :: is₂)))
    (h : ComputesBetween T program segments n env used limit code (if w ≠ 0 then j₁ else j₂) k σ f σ'
      store) :
    ComputesBetween T program segments (n + 1) env used limit code i k (w :: σ) f σ' store := by
  refine .of_step (max (4 * (w :: σ).length + 4) (4 * (w :: σ).length + 8))
    (fun image sites anchor pc s hs hready => ?_) h
  obtain ⟨s₀, hexecutable⟩ := hs.executable
  have hfits := hexecutable.data_fits
  obtain ⟨htarget, hlive⟩ := hs.label hlabel
  obtain ⟨htarget', hlive'⟩ := hs.label hlabel'
  have hnamed := (hs.at_position hcode).holds
  have hnamed' := ((Image.holds_cons _ _ _ _).mp hnamed).2
  have hjump := ((Image.holds_cons _ _ _ _).mp hnamed').2
  refine ⟨_, _, (hready.moves_name hfits hnamed htarget).trans fun s₁ hready₁ =>
    (hready₁.moves_name hfits hnamed' htarget').congr ?_ rfl, fun s₂ hready₂ =>
    hready₂.step_cjmp hfits hjump ?_ ?_⟩
  · simp only [List.length_cons]
    push_cast
    ring
  · split <;> rfl
  · split
    · exact hlive
    · exact hlive'

/-- What a piece of code computes. -/
theorem Computes.at_position (h : Computes T program segments n env used limit σ c f σ')
    (hcode : code.HasAt i c) (hj : i + c.size = j) (hrecords : RecordsFit env store.records) :
    ComputesBetween T program segments n env used limit code i j σ f σ' store := by
  exact hj ▸ (h store hrecords).between hcode

end

section

variable {T : Target} {program : Program} {segments : Segments} {env : Env} {used limit : Int}
  {σ : List Word} {span : Span} {n m : Nat} {code c p q : Code} {fc fp fq again : Eval Word}
  {keep : Bool}

/-- A branch, whose condition stands behind both alternatives. -/
theorem Computes.branch
    (hcode : code = List.flatten [
      Code.spanning span [.name (branchLabels m).condition, .ujmp, .label (branchLabels m).positive],
      p,
      Code.spanning span [.name (branchLabels m).stop, .ujmp, .label (branchLabels m).negative],
      q,
      Code.spanning span [.name (branchLabels m).stop, .ujmp, .label (branchLabels m).condition],
      c,
      Code.spanning span [.name (branchLabels m).positive, .name (branchLabels m).negative, .cjmp,
        .label (branchLabels m).stop],
      NestedFun.keptZero keep span])
    (hc : Computes T program segments n env used limit σ c fc (fun w => w :: σ))
    (hp : Computes T program segments n env used limit σ p fp (fun _ => σ))
    (hq : Computes T program segments n env used limit σ q fq (fun _ => σ)) :
    Computes T program segments n env used limit σ code
      (fc >>= fun w => (if w ≠ 0 then fp else fq) >>= fun _ => pure 0)
      (fun w => if keep then w :: σ else σ) := by
  intro store hrecords
  have hself := Code.HasAt.self code
  nth_rewrite 2 [hcode] at hself
  obtain ⟨hstart, hrest⟩ := Code.HasAt.append hself
  obtain ⟨hpositive, hrest⟩ := Code.HasAt.append hrest
  obtain ⟨hleave, hrest⟩ := Code.HasAt.append hrest
  obtain ⟨hnegative, hrest⟩ := Code.HasAt.append hrest
  obtain ⟨hleave', hrest⟩ := Code.HasAt.append hrest
  obtain ⟨hcondition, hrest⟩ := Code.HasAt.append hrest
  obtain ⟨hdecide, hrest⟩ := Code.HasAt.append hrest
  obtain ⟨hkept, -⟩ := Code.HasAt.append hrest
  have hlabelPositive := hstart.label rfl
  have hlabelNegative := hleave.label rfl
  have hlabelCondition := hleave'.label rfl
  have hlabelStop := hdecide.label rfl
  have hkeep : Computes T program segments n env used limit σ (NestedFun.keptZero keep span) (pure 0)
      (fun w => if keep then w :: σ else σ) := keptZero keep
  have hsize := congrArg Code.size hcode
  simp only [List.flatten_cons, List.flatten_nil, List.append_nil, Code.size_append] at hsize
  refine ComputesBetween.computesFrom ?_
  refine (ComputesBetween.jump hstart hlabelCondition ?_).mono n.le_succ
  refine (hc.at_position hcondition rfl hrecords).bind fun w store' _ hrecords' => ?_
  refine (ComputesBetween.jumpIf hdecide hlabelPositive hlabelNegative ?_).mono n.le_succ
  by_cases hw : w ≠ 0
  · rw [if_pos hw, if_pos hw]
    refine (hp.at_position hpositive rfl hrecords').bind fun _ store'' _ hrecords'' => ?_
    refine (ComputesBetween.jump hleave hlabelStop ?_).mono n.le_succ
    exact hkeep.at_position hkept (by rw [hsize]; ring) hrecords''
  · rw [if_neg hw, if_neg hw]
    refine (hq.at_position hnegative rfl hrecords').bind fun _ store'' _ hrecords'' => ?_
    refine (ComputesBetween.jump hleave' hlabelStop ?_).mono n.le_succ
    exact hkeep.at_position hkept (by rw [hsize]; ring) hrecords''

/-- A loop, which starts again behind its body. -/
theorem Computes.loop
    (hcode : code = List.flatten [
      Code.spanning span [.label (loopLabels m).condition],
      c,
      Code.spanning span [.name (loopLabels m).body, .name (loopLabels m).stop, .cjmp,
        .label (loopLabels m).body],
      p,
      Code.spanning span [.name (loopLabels m).condition, .ujmp, .label (loopLabels m).stop],
      NestedFun.keptZero keep span])
    (hc : Computes T program segments (n + 1) env used limit σ c fc (fun w => w :: σ))
    (hp : Computes T program segments (n + 1) env used limit σ p fp (fun _ => σ))
    (hagain : Computes T program segments n env used limit σ code again
      (fun w => if keep then w :: σ else σ)) :
    Computes T program segments (n + 1) env used limit σ code
      (fc >>= fun w => if w ≠ 0 then fp >>= fun _ => again else pure 0)
      (fun w => if keep then w :: σ else σ) := by
  intro store hrecords
  have hself := Code.HasAt.self code
  have hwhole := hself
  nth_rewrite 2 [hcode] at hself
  obtain ⟨hstart, hrest⟩ := Code.HasAt.append hself
  obtain ⟨hcondition, hrest⟩ := Code.HasAt.append hrest
  obtain ⟨hdecide, hrest⟩ := Code.HasAt.append hrest
  obtain ⟨hbody, hrest⟩ := Code.HasAt.append hrest
  obtain ⟨hrepeat, hrest⟩ := Code.HasAt.append hrest
  obtain ⟨hkept, -⟩ := Code.HasAt.append hrest
  have hlabelBody := hdecide.label rfl
  have hlabelStop := hrepeat.label rfl
  have hkeep : Computes T program segments n env used limit σ (NestedFun.keptZero keep span) (pure 0)
      (fun w => if keep then w :: σ else σ) := keptZero keep
  have hsize := congrArg Code.size hcode
  simp only [List.flatten_cons, List.flatten_nil, List.append_nil, Code.size_append] at hsize
  refine ComputesBetween.computesFrom ?_
  refine (hc.at_position hcondition rfl hrecords).bind fun w store' _ hrecords' => ?_
  by_cases hw : w ≠ 0
  · refine (ComputesBetween.jumpIf (n := n + 1) hdecide hlabelBody hlabelStop ?_).mono (n + 1).le_succ
    rw [if_pos hw, if_pos hw]
    refine (hp.at_position hbody rfl hrecords').bind fun _ store'' _ hrecords'' => ?_
    exact ComputesBetween.jump hrepeat hstart
      (hagain.at_position hwhole (zero_add _) hrecords'')
  · refine ComputesBetween.jumpIf hdecide hlabelBody hlabelStop ?_
    rw [if_neg hw, if_neg hw]
    exact hkeep.at_position hkept (by rw [hsize]; ring) hrecords'

end

end NestedFun
