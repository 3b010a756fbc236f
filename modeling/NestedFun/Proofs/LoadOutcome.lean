import NestedFun.Proofs.Collected

namespace NestedFun

/-!
# What loading comes to

Segments whose labels are all different and whose data have their sizes are loaded when they find
room and when every label that the code names is provided, by the segments or as a system function.
Otherwise loading fails for the one reason or the other, and for no third one.
-/

namespace LabelTable

def Adds (labels : LabelTable) (more : List String) (labels' : LabelTable) : Prop :=
  ∀ l, labels'.contains l = true ↔ labels.contains l = true ∨ l ∈ more

variable {labels labels' labels'' : LabelTable} {more more' : List String}

theorem Adds.refl (labels : LabelTable) : Adds labels [] labels := fun l => by simp

theorem Adds.trans (h : Adds labels more labels') (h' : Adds labels' more' labels'') :
    Adds labels (more ++ more') labels'' := fun l => by
  rw [h' l, h l, List.mem_append, or_assoc]

theorem define_fresh {l : String} (a : Int) (h : ¬ labels.contains l = true) :
    ∃ labels', labels.define l a = .ok labels' ∧ labels.Adds [l] labels' := by
  refine ⟨labels.insert l (.ofInt a), by rw [define, if_neg h], fun l' => ?_⟩
  rw [Std.TreeMap.contains_insert, Bool.or_eq_true, List.mem_singleton, beq_iff_eq,
    Std.LawfulEqCmp.compare_eq_iff_eq, or_comm, eq_comm (a := l)]

theorem Adds.fresh (h : Adds labels more labels') {others : List String}
    (hnodup : (more ++ others).Nodup) (hfresh : ∀ l ∈ others, ¬ labels.contains l = true) :
    ∀ l ∈ others, ¬ labels'.contains l = true := by
  intro l hl hcontains
  rcases (h l).mp hcontains with hold | hnew
  · exact hfresh l hl hold
  · exact List.disjoint_of_nodup_append hnodup hnew hl

theorem defineCode_cons (labels : LabelTable) (a : Int) (i : Located Instruction)
    (code : List (Int × Located Instruction)) :
    labels.defineCode ((a, i) :: code) = match i.item.label? with
      | some l => do defineCode (← labels.define l a) code
      | none => labels.defineCode code := by
  rw [defineCode]
  cases i.item <;> rfl

/-- Labels that are all different and not in the table can be defined. -/
theorem defineCode_fresh (code : Code) {labels : LabelTable} (a : Int) (hnodup : code.labels.Nodup)
    (hfresh : ∀ l ∈ code.labels, ¬ labels.contains l = true) : ∃ labels',
      labels.defineCode (addressed (fun i : Located Instruction => (i.item.size : Int)) a code)
        = .ok labels' ∧ labels.Adds code.labels labels' := by
  induction code generalizing labels a with
  | nil => exact ⟨labels, rfl, .refl labels⟩
  | cons i code ih =>
      rw [addressed, defineCode_cons]
      rw [Code.labels_cons] at hnodup hfresh ⊢
      cases hlabel : i.item.label? with
      | none =>
          rw [hlabel] at hnodup hfresh
          exact ih (a + i.item.size) hnodup hfresh
      | some l =>
          rw [hlabel] at hnodup hfresh
          obtain ⟨labels₁, hdefine, hadds⟩ := define_fresh a (hfresh l List.mem_cons_self)
          have hfresh' := hadds.fresh hnodup fun l' hl' => hfresh l' (List.mem_cons_of_mem _ hl')
          obtain ⟨labels₂, hrest, hadds'⟩ :=
            ih (a + i.item.size) (List.nodup_cons.mp hnodup).2 hfresh'
          refine ⟨labels₂, ?_, hadds.trans hadds'⟩
          simp only [hdefine]
          exact hrest

theorem contains_withSystemFunctions (labels : LabelTable) (l : String) :
    labels.withSystemFunctions.contains l = true ↔
      labels.contains l = true ∨ (SystemFunction.ofName? l).isSome = true := by
  obtain ⟨hextends, hnew⟩ := withSystemFunctions_spec labels
  rw [Std.TreeMap.contains_eq_isSome_getElem?, Std.TreeMap.contains_eq_isSome_getElem?]
  cases hl : labels[l]? with
  | none => simp [hnew l hl]
  | some a => simp [hextends l a hl]

end LabelTable

theorem loadData_cons (labels : LabelTable) (m : Memory) (a : Int) (d : Located Datum)
    (data : List (Int × Located Datum)) :
    loadData labels m ((a, d) :: data) = match d.item.label? with
      | none => (do loadData labels (← m.writeAll a d.item.contents) data)
      | some l => (do loadData (← labels.define l a) m data) := by
  rw [loadData]
  cases d.item with
  | label l => rfl
  | word value => rfl
  | reserve size contents => cases contents <;> rfl

/-- Data that find room are written, and their labels are defined if they are all different. -/
theorem loadData_fresh (data : Data) {labels : LabelTable} {m : Memory} {a : Int}
    (hfits : ∀ d ∈ data, d.item.Fits) (hstart : m.dataStart ≤ a)
    (hstop : a + data.size ≤ m.size) (hlt : m.size < 2147483648) (hnodup : data.labels.Nodup)
    (hfresh : ∀ l ∈ data.labels, ¬ labels.contains l = true) : ∃ labels' m',
      loadData labels m (addressed (fun d : Located Datum => d.item.size) a data)
        = .ok (labels', m') ∧ labels.Adds data.labels labels' := by
  induction data generalizing labels m a with
  | nil => exact ⟨labels, m, rfl, .refl labels⟩
  | cons d data ih =>
      have hdata := fun e he => hfits e (List.mem_cons_of_mem _ he)
      have hcontents := (hfits d List.mem_cons_self).length_contents
      have hsize := Data.size_nonneg hdata
      rw [Data.size_cons] at hstop
      rw [addressed, loadData_cons]
      rw [Data.labels_cons] at hnodup hfresh ⊢
      cases hlabel : d.item.label? with
      | none =>
          rw [hlabel] at hnodup hfresh
          have hwrite : m.writeAll a d.item.contents = .ok (m.storeAll a d.item.contents) := by
            rw [Memory.writeAll, Memory.writeWords_ofInt m _ (by omega) hstart (by omega) hlt]
          have hdiffers := Memory.differs_storeAll m (a := a) d.item.contents (by omega)
          obtain ⟨labels', m', hrest, hadds⟩ := ih (m := m.storeAll a d.item.contents)
            (a := a + d.item.size) hdata (by rw [hdiffers.dataStart_eq]; omega)
            (by rw [hdiffers.size_eq]; omega) (by rw [hdiffers.size_eq]; exact hlt) hnodup hfresh
          refine ⟨labels', m', ?_, hadds⟩
          simp only [hwrite]
          exact hrest
      | some l =>
          rw [hlabel] at hnodup hfresh
          obtain ⟨labels₁, hdefine, hadds⟩ :=
            LabelTable.define_fresh a (hfresh l List.mem_cons_self)
          have hfresh' := hadds.fresh hnodup fun l' hl' => hfresh l' (List.mem_cons_of_mem _ hl')
          obtain ⟨labels', m', hrest, hadds'⟩ := ih (a := a + d.item.size) hdata (by omega)
            (by omega) hlt (List.nodup_cons.mp hnodup).2 hfresh'
          refine ⟨labels', m', ?_, hadds.trans hadds'⟩
          simp only [hdefine]
          exact hrest

theorem undefinedLabel?_eq_some {labels : LabelTable} {code : Code} {l : String}
    (h : undefinedLabel? labels code = some l) :
    l ∈ code.names ∧ ¬ labels.contains l = true := by
  obtain ⟨i, hi, hsome⟩ := List.exists_of_findSome?_eq_some h
  split at hsome
  · rename_i name hname
    split at hsome
    · cases hsome
    · rename_i hcontains
      cases hsome
      exact ⟨List.mem_filterMap.mpr ⟨i, hi, by rw [hname]; rfl⟩, hcontains⟩
  · cases hsome

theorem mem_names {code : Code} {l : String} : l ∈ code.names ↔ ∃ i ∈ code, i.item = .name l := by
  rw [Code.names, List.mem_filterMap]
  refine exists_congr fun i => and_congr_right fun _ => ?_
  cases i.item <;> simp [Instruction.name?]

namespace Segments

def Provides (segments : Segments) (l : String) : Prop :=
  l ∈ segments.labels ∨ (SystemFunction.ofName? l).isSome = true

inductive LoadOutcome (segments : Segments) (room : Prop) :
    Except LoadError (Image × State) → Prop
  | loaded {image : Image} {s : State} (hroom : room)
      (hprovides : ∀ l ∈ segments.code.names, segments.Provides l) :
      LoadOutcome segments room (.ok (image, s))
  | undefined {l : String} (hroom : room) (hnames : l ∈ segments.code.names)
      (hmissing : ¬ segments.Provides l) :
      LoadOutcome segments room (.error (.fault (.undefinedLabel l)))
  | full {size : Word} (hroom : ¬ room) :
      LoadOutcome segments room (.error (.fault (.outOfMemory size)))

theorem load_outcome {segments : Segments} {codeSize dataSize : Int}
    (hcodeSize : segments.codeSize = .ok codeSize) (hdataSize : segments.dataSize = .ok dataSize)
    (hfits : ∀ d ∈ segments.data, d.item.Fits) (hnodup : segments.labels.Nodup)
    (memorySize : Nat) (input : List UInt8) (output : Output) :
    segments.LoadOutcome (codeSize + dataSize ≤ usableMemory memorySize)
      (segments.load memorySize input output) := by
  obtain ⟨hcode, -⟩ := totalSize_ok hcodeSize
  obtain ⟨hdata, -⟩ := totalSize_ok hdataSize
  have hcode' : codeSize = Code.size segments.code := hcode
  have hdata' : dataSize = Data.size segments.data := hdata
  have hcode₀ := Code.size_nonneg segments.code
  have hdata₀ := Data.size_nonneg hfits
  have hlt := usableMemory_lt memorySize
  have hnodup' := List.nodup_append.mp hnodup
  rw [load, hcodeSize, hdataSize]
  simp only [Except.mapError, bind, Except.bind]
  by_cases hroom : codeSize + dataSize ≤ usableMemory memorySize
  · have hfitsWord : fitsWord (codeSize + dataSize) = true := (fitsWord_iff _).mpr (by omega)
    have hsize : (Memory.zeros (usableMemory memorySize) codeSize.toNat).size
        = usableMemory memorySize := size_zeroBytes _
    have hstart : ((Memory.zeros (usableMemory memorySize) codeSize.toNat).dataStart : Int)
        = codeSize := Int.toNat_of_nonneg (by omega)
    have hnone (ls : List String) : ∀ l ∈ ls, ¬ (∅ : LabelTable).contains l = true := by simp
    obtain ⟨labels₁, hdefine, hadds⟩ : ∃ labels', LabelTable.defineCode ∅ segments.addressedCode
        = .ok labels' ∧ LabelTable.Adds ∅ segments.code.labels labels' :=
      LabelTable.defineCode_fresh segments.code 0 hnodup'.1 (hnone _)
    have hfresh : ∀ l ∈ segments.data.labels, ¬ labels₁.contains l = true :=
      hadds.fresh hnodup (hnone _)
    obtain ⟨labels₂, m, hload, hadds'⟩ : ∃ labels' m', loadData labels₁
        (Memory.zeros (usableMemory memorySize) codeSize.toNat) (segments.addressedData codeSize)
        = .ok (labels', m') ∧ labels₁.Adds segments.data.labels labels' :=
      loadData_fresh segments.data hfits hstart.le (by omega) (by omega) hnodup'.2.1 hfresh
    have hprovides (l : String) :
        labels₂.withSystemFunctions.contains l = true ↔ segments.Provides l := by
      rw [LabelTable.contains_withSystemFunctions, (hadds.trans hadds') l]
      simp [Provides, labels]
    have henough : (!fitsWord (codeSize + dataSize)
        || decide ((usableMemory memorySize : Int) < codeSize + dataSize)) = false := by
      simpa [hfitsWord] using hroom
    simp only [henough, hdefine, hload, Bool.false_eq_true, if_false]
    cases hmissing : undefinedLabel? labels₂.withSystemFunctions segments.code with
    | none =>
        refine .loaded hroom fun l hl => (hprovides l).mp ?_
        obtain ⟨i, hi, hitem⟩ := mem_names.mp hl
        obtain ⟨a, ha⟩ := undefinedLabel?_eq_none hmissing i hi l hitem
        rw [Std.TreeMap.contains_eq_isSome_getElem?, ha]
        rfl
    | some l =>
        obtain ⟨hnames, hcontains⟩ := undefinedLabel?_eq_some hmissing
        exact .undefined hroom hnames fun h => hcontains ((hprovides l).mpr h)
  · have hfull : (!fitsWord (codeSize + dataSize)
        || decide ((usableMemory memorySize : Int) < codeSize + dataSize)) = true := by
      simp only [Bool.or_eq_true, decide_eq_true_eq]
      exact .inr (by omega)
    simp only [hfull, if_true]
    exact .full hroom

end Segments

end NestedFun
