import NestedFun.Machine.Load
import NestedFun.Proofs.Assembly
import NestedFun.Proofs.MemoryLaws

namespace NestedFun

/-!
# Loaded segments

Where code and data stand after loading: every instruction at its address in the image, every datum
at its address in the memory, every label at the address of what follows it. Labels that nothing
defines are those of system functions.
-/

def Code.size (code : Code) : Int := (code.map fun i => (i.item.size : Int)).sum

def Data.size (data : Data) : Int := (data.map fun d => d.item.size).sum

/-- An instruction stands at an address; a label stands for it. Labels that are named are known. -/
def Image.Has (image : Image) (a : Int) : Instruction → Prop
  | .label l => image.labels[l]? = some (.ofInt a)
  | .name l => image.fetch? (.ofInt a) = some (.name l) ∧ ∃ w, image.labels[l]? = some w
  | i => image.fetch? (.ofInt a) = some i

instance (image : Image) (a : Int) (i : Instruction) : Decidable (image.Has a i) :=
  match i with
  | .label l => inferInstanceAs (Decidable (image.labels[l]? = some (.ofInt a)))
  | .name l => decidable_of_iff
      (image.fetch? (.ofInt a) = some (.name l) ∧ (image.labels[l]?).isSome = true)
      (and_congr_right fun _ => Option.isSome_iff_exists)
  | .push _ | .popn | .regn _ | .oper _ | .load | .save | .call _ | .retn _ | .ujmp | .cjmp
  | .init => inferInstanceAs (Decidable (image.fetch? (.ofInt a) = some _))

def Image.Holds (image : Image) (a : Int) (code : Code) : Prop :=
  ∀ entry ∈ addressed (fun i : Located Instruction => (i.item.size : Int)) a code,
    image.Has entry.1 entry.2.item

instance (image : Image) (a : Int) (code : Code) : Decidable (image.Holds a code) :=
  inferInstanceAs (Decidable (∀ entry ∈ addressed _ a code, image.Has entry.1 entry.2.item))

/-- What data the memory has at an address; a label stands for it. -/
def Memory.HasDatum (m : Memory) (labels : LabelTable) (a : Int) : Datum → Prop
  | .label l => labels[l]? = some (.ofInt a)
  | .word v => m.word a = v
  | .reserve _ contents => ∀ c, contents = some c → m.HasWords a c.expand

def Memory.HoldsData (m : Memory) (labels : LabelTable) (a : Int) (data : Data) : Prop :=
  ∀ entry ∈ addressed (fun d : Located Datum => d.item.size) a data,
    m.HasDatum labels entry.1 entry.2.item

theorem addressed_append {α : Type} (size : α → Int) (start : Int) (xs ys : List α) :
    addressed size start (xs ++ ys)
      = addressed size start xs ++ addressed size (start + (xs.map size).sum) ys := by
  induction xs generalizing start with
  | nil => simp [addressed]
  | cons x xs ih =>
      rw [List.cons_append, addressed, ih, addressed, List.map_cons, List.sum_cons,
        List.cons_append, add_assoc]

theorem mem_of_mem_addressed {α : Type} {size : α → Int} {start : Int} {xs : List α}
    {entry : Int × α} (h : entry ∈ addressed size start xs) : entry.2 ∈ xs := by
  induction xs generalizing start with
  | nil => cases h
  | cons x xs ih =>
      rcases List.mem_cons.mp h with rfl | h
      · exact List.mem_cons_self
      · exact List.mem_cons_of_mem _ (ih h)

@[simp] theorem Code.size_nil : Code.size [] = 0 := rfl

@[simp] theorem Code.size_cons (i : Located Instruction) (code : Code) :
    Code.size (i :: code) = i.item.size + code.size := by
  simp [Code.size]

@[simp] theorem Code.size_append (a b : Code) : Code.size (a ++ b) = a.size + b.size := by
  simp [Code.size]

theorem Code.size_nonneg (code : Code) : 0 ≤ code.size := by
  induction code with
  | nil => simp
  | cons i code ih =>
      rw [size_cons]
      omega

namespace Image

theorem Has.fetch {image : Image} {a : Int} {i : Instruction} (h : image.Has a i)
    (hlabel : ∀ l, i ≠ .label l) : image.fetch? (.ofInt a) = some i := by
  cases i with
  | label l => exact absurd rfl (hlabel l)
  | name l => exact h.1
  | _ => exact h

@[simp] theorem holds_nil (image : Image) (a : Int) : image.Holds a [] := nofun

@[simp] theorem holds_cons (image : Image) (a : Int) (i : Located Instruction) (code : Code) :
    image.Holds a (i :: code) ↔ image.Has a i.item ∧ image.Holds (a + i.item.size) code := by
  simp [Holds, addressed]

theorem holds_append (image : Image) (a : Int) (c c' : Code) :
    image.Holds a (c ++ c') ↔ image.Holds a c ∧ image.Holds (a + c.size) c' := by
  simp only [Holds, addressed_append, List.mem_append, or_imp, forall_and]
  rfl

/-- A part of code that stands somewhere stands somewhere itself. -/
theorem Holds.infix {image : Image} {a : Int} {c code : Code} (h : image.Holds a code)
    (hinside : c <:+: code) : ∃ b, a ≤ b ∧ b + c.size ≤ a + code.size ∧ image.Holds b c := by
  obtain ⟨front, back, rfl⟩ := hinside
  rw [holds_append, holds_append] at h
  have h₁ := Code.size_nonneg front
  have h₂ := Code.size_nonneg back
  refine ⟨a + Code.size front, by omega, ?_, h.1.2⟩
  simp only [Code.size_append]
  omega

end Image

/-! ## Sizes -/

theorem totalSize_ok {sizes : List Int} {n : Int} (h : totalSize sizes = .ok n) :
    n = sizes.sum ∧ n < 2147483648 := by
  have hfold : ∀ (sizes : List Int) (total n : Int), total < 2147483648 →
      sizes.foldlM (fun total size => checked? (total + size)) total = some n →
      n = total + sizes.sum ∧ n < 2147483648 := by
    intro sizes
    induction sizes with
    | nil =>
        intro total n hlt h
        cases h
        exact ⟨by simp, hlt⟩
    | cons size sizes ih =>
        intro total n hlt h
        rw [List.foldlM_cons] at h
        obtain ⟨next, hnext, h⟩ := Option.bind_eq_some_iff.mp h
        obtain ⟨rfl, _, hnext⟩ := checked?_eq_some hnext
        obtain ⟨hn, hlt'⟩ := ih _ _ hnext h
        exact ⟨by rw [hn, List.sum_cons, add_assoc], hlt'⟩
  rw [totalSize] at h
  split at h
  · rename_i total htotal
    cases h
    obtain ⟨hn, hlt⟩ := hfold sizes 0 n (by decide) htotal
    exact ⟨by rw [hn, zero_add], hlt⟩
  · cases h

/-! ## Code -/

theorem codeBytes_cons (i : Located Instruction) (code : Code) :
    codeBytes (i :: code) = (if i.item.size = 0 then []
      else some i.item :: List.replicate (i.item.size - 1) none) ++ codeBytes code := by
  rw [codeBytes]
  split
  · rename_i h
    rw [h]
    rfl
  · rename_i n h
    rw [h]
    rfl

theorem length_codeBytes (code : Code) : ((codeBytes code).length : Int) = code.size := by
  induction code with
  | nil => rfl
  | cons i code ih =>
      rw [codeBytes_cons, List.length_append, Code.size_cons, ← ih]
      split
      · rename_i hzero
        simp [hzero]
      · simp only [List.length_cons, List.length_replicate]
        omega

/-- Every instruction is found at its address. -/
theorem codeBytes_addressed (code : Code) (a : Int) (bytes : List (Option Instruction))
    (hbytes : (bytes.length : Int) = a) :
    ∀ entry ∈ addressed (fun i : Located Instruction => (i.item.size : Int)) a code,
      entry.2.item.size ≠ 0 →
      a ≤ entry.1 ∧ (bytes ++ codeBytes code)[entry.1.toNat]? = some (some entry.2.item) := by
  induction code generalizing a bytes with
  | nil => exact nofun
  | cons i code ih =>
      intro entry hentry hsize
      rw [codeBytes_cons]
      rcases List.mem_cons.mp hentry with rfl | hentry
      · refine ⟨le_rfl, ?_⟩
        have hnat : a.toNat = bytes.length := by omega
        rw [if_neg hsize, hnat, List.getElem?_append_right le_rfl, Nat.sub_self]
        rfl
      · have hrest := ih (a + i.item.size) (bytes ++ if i.item.size = 0 then []
          else some i.item :: List.replicate (i.item.size - 1) none) (by
            rw [List.length_append]
            split
            · rename_i hzero
              simp [hzero, hbytes]
            · simp only [List.length_cons, List.length_replicate]
              omega) entry hentry hsize
        rw [List.append_assoc] at hrest
        exact ⟨by omega, hrest.2⟩

theorem Instruction.size_eq_zero {i : Instruction} : i.size = 0 ↔ ∃ l, i = .label l := by
  cases i <;> simp [Instruction.size, wordSize]

/-! ## Labels -/

def LabelTable.Extends (labels labels' : LabelTable) : Prop :=
  ∀ (l : String) (a : Word), labels[l]? = some a → labels'[l]? = some a

namespace LabelTable

variable {labels labels' : LabelTable}

theorem Extends.refl (labels : LabelTable) : Extends labels labels := fun _ _ h => h

theorem Extends.trans {labels'' : LabelTable} (h : Extends labels labels')
    (h' : Extends labels' labels'') : Extends labels labels'' :=
  fun l a hl => h' l a (h l a hl)

theorem getElem?_insert (labels : LabelTable) (l l' : String) (a : Word) :
    (labels.insert l a)[l']? = if l = l' then some a else labels[l']? := by
  rw [Std.TreeMap.getElem?_insert]
  simp only [Std.LawfulEqCmp.compare_eq_iff_eq]

theorem define_ok {l : String} {a : Int} (h : labels.define l a = .ok labels') :
    labels.Extends labels' ∧ labels'[l]? = some (.ofInt a) ∧
      ∀ l', l' ≠ l → labels'[l']? = labels[l']? := by
  rw [define] at h
  split at h
  · cases h
  · rename_i hnew
    cases h
    have hnone : labels[l]? = none := Std.TreeMap.getElem?_eq_none (by simpa using hnew)
    refine ⟨?_, ?_, ?_⟩
    · intro l' a' hl'
      have hne : l ≠ l' := by
        rintro rfl
        rw [hnone] at hl'
        cases hl'
      rw [getElem?_insert, if_neg hne]
      exact hl'
    · rw [getElem?_insert, if_pos rfl]
    · intro l' hne
      rw [getElem?_insert, if_neg hne.symm]

theorem defineCode_ok (entries : List (Int × Located Instruction)) {labels labels' : LabelTable}
    (h : labels.defineCode entries = .ok labels') :
    labels.Extends labels' ∧
      (∀ entry ∈ entries, ∀ l, entry.2.item = .label l → labels'[l]? = some (.ofInt entry.1)) ∧
      ∀ l, (∀ entry ∈ entries, entry.2.item ≠ .label l) → labels'[l]? = labels[l]? := by
  induction entries generalizing labels with
  | nil =>
      cases h
      exact ⟨.refl _, nofun, fun _ _ => rfl⟩
  | cons entry entries ih =>
      obtain ⟨a, i⟩ := entry
      rw [defineCode] at h
      split at h
      · rename_i name hname
        obtain ⟨labels₁, hdefine, h⟩ := bind_eq_ok h
        obtain ⟨hextends, hnew, hold⟩ := define_ok hdefine
        obtain ⟨hextends', hin, hout⟩ := ih h
        refine ⟨hextends.trans hextends', ?_, ?_⟩
        · intro entry hentry l hl
          rcases List.mem_cons.mp hentry with rfl | hentry
          · rw [hname] at hl
            cases hl
            exact hextends' _ _ hnew
          · exact hin entry hentry l hl
        · intro l hl
          have hne : l ≠ name := by
            rintro rfl
            exact hl (a, i) List.mem_cons_self hname
          rw [hout l fun entry hentry => hl entry (List.mem_cons_of_mem _ hentry), hold l hne]
      · rename_i hnot
        obtain ⟨hextends', hin, hout⟩ := ih h
        refine ⟨hextends', ?_, ?_⟩
        · intro entry hentry l hl
          rcases List.mem_cons.mp hentry with rfl | hentry
          · exact absurd hl (hnot l)
          · exact hin entry hentry l hl
        · exact fun l hl => hout l fun entry hentry => hl entry (List.mem_cons_of_mem _ hentry)

theorem getElem?_insertIfNew (labels : LabelTable) (l l' : String) (a : Word) :
    (labels.insertIfNew l a)[l']? = if labels[l']? = none ∧ l = l' then some a else labels[l']? := by
  rw [Std.TreeMap.getElem?_insertIfNew]
  simp only [Std.LawfulEqCmp.compare_eq_iff_eq]
  by_cases hl : l = l'
  · subst hl
    by_cases hmem : l ∈ labels
    · simp [hmem]
    · simp [hmem]
  · simp [hl]

/-- A name that nothing else defines stands for the system function of that name. -/
theorem withSystemFunctions_spec (labels : LabelTable) :
    labels.Extends labels.withSystemFunctions ∧
      ∀ l, labels[l]? = none → labels.withSystemFunctions[l]?
        = (SystemFunction.ofName? l).map SystemFunction.address := by
  have hfold : ∀ (functions : List SystemFunction) (labels : LabelTable) (l : String),
      (functions.foldl (fun labels function =>
        labels.insertIfNew function.name function.address) labels)[l]?
        = (labels[l]?).or ((functions.find? fun function => function.name = l).map
          SystemFunction.address) := by
    intro functions
    induction functions with
    | nil => intro labels l; simp
    | cons function functions ih =>
        intro labels l
        rw [List.foldl_cons, ih, getElem?_insertIfNew, List.find?_cons]
        by_cases hl : function.name = l
        · cases hlabel : labels[l]? with
          | none => simp [hl]
          | some a => simp
        · simp [hl]
  refine ⟨?_, ?_⟩
  · intro l a hl
    rw [withSystemFunctions, hfold, hl]
    rfl
  · intro l hl
    rw [withSystemFunctions, hfold, hl]
    rfl

end LabelTable

/-! ## Data -/

theorem Datum.Fits.size_nonneg {d : Datum} (h : d.Fits) : 0 ≤ d.size := by
  rcases d with l | v | ⟨size, contents⟩
  · exact le_refl 0
  · exact Int.natCast_nonneg 4
  · obtain ⟨c, rfl, hsize⟩ := h
    show 0 ≤ size.toInt
    omega

theorem Data.size_cons (d : Located Datum) (data : Data) :
    Data.size (d :: data) = d.item.size + Data.size data := by
  simp [Data.size]

theorem Data.size_words (span : Span) (ws : List Word) :
    Data.size (Data.spanning span (ws.map .word)) = 4 * (ws.length : Int) := by
  induction ws with
  | nil => rfl
  | cons w ws ih =>
      have hcons : Data.size (Data.spanning span ((w :: ws).map .word))
          = 4 + Data.size (Data.spanning span (ws.map .word)) := Data.size_cons ⟨span, .word w⟩ _
      rw [hcons, ih, List.length_cons]
      push_cast
      ring

theorem Data.size_nonneg {data : Data} (h : ∀ d ∈ data, d.item.Fits) : 0 ≤ data.size := by
  induction data with
  | nil => exact le_refl 0
  | cons d data ih =>
      have h₁ := (h d List.mem_cons_self).size_nonneg
      have h₂ := ih fun e he => h e (List.mem_cons_of_mem _ he)
      rw [size_cons]
      omega

/-- What has no negative size stands between the start and the sum of the sizes. -/
theorem addressed_bounds {α : Type} {size : α → Int} {xs : List α} (h : ∀ x ∈ xs, 0 ≤ size x)
    {a : Int} : ∀ entry ∈ addressed size a xs,
      a ≤ entry.1 ∧ entry.1 + size entry.2 ≤ a + (xs.map size).sum := by
  induction xs generalizing a with
  | nil => exact nofun
  | cons x xs ih =>
      obtain ⟨hx, hxs⟩ := List.forall_mem_cons.mp h
      have hsum := List.sum_nonneg (List.forall_mem_map.mpr hxs)
      intro entry hentry
      rw [List.map_cons, List.sum_cons]
      rcases List.mem_cons.mp hentry with rfl | hentry
      · exact ⟨le_rfl, by show a + size x ≤ _; omega⟩
      · have hrest : a + size x ≤ entry.1 ∧ _ := ih hxs entry hentry
        omega

theorem le_of_mem_addressed {data : Data} (h : ∀ d ∈ data, d.item.Fits) {a : Int} :
    ∀ entry ∈ addressed (fun d : Located Datum => d.item.size) a data,
      a ≤ entry.1 ∧ entry.1 + entry.2.item.size ≤ a + data.size :=
  addressed_bounds fun d hd => (h d hd).size_nonneg

namespace Memory

/-- Data that stand in bytes that have not changed still stand there. -/
theorem HasDatum.of_differs {changed : Int → Prop} {m m' : Memory} (h : Differs changed m m')
    {labels labels' : LabelTable} (hextends : labels.Extends labels') {a : Int} {d : Datum}
    (hfits : d.Fits) (h₀ : 0 ≤ a) (ha : ∀ i, Block a d.size i → ¬ changed i)
    (hd : m.HasDatum labels a d) : m'.HasDatum labels' a d := by
  rcases d with l | v | ⟨size, contents⟩
  · exact hextends _ _ hd
  · show m'.word a = v
    rw [h.word_eq h₀ ha]
    exact hd
  · obtain ⟨c, rfl, hsize⟩ := hfits
    intro c' hc'
    cases hc'
    refine (hd c rfl).of_differs h h₀ fun i hi => ha i ?_
    show Block a size.toInt i
    rw [hsize]
    exact hi

theorem writeAll_ok {m m' : Memory} {a : Int} {ws : List Word} (h₀ : m.dataStart ≤ a)
    (hstop : a + 4 * ws.length ≤ m.size) (hlt : m.size < 2147483648)
    (h : m.writeAll a ws = .ok m') : m' = m.storeAll a ws := by
  rw [writeAll, writeWords_ofInt m ws (by omega) h₀ hstop hlt] at h
  cases h
  rfl

end Memory

def Datum.contents : Datum → List Word
  | .label _ | .reserve _ none => []
  | .word value => [value]
  | .reserve _ (some contents) => contents.expand

theorem Datum.Fits.length_contents {d : Datum} (h : d.Fits) :
    d.size = 4 * (d.contents.length : Int) := by
  cases d with
  | label l => rfl
  | word value => rfl
  | reserve size contents =>
      obtain ⟨c, rfl, hsize⟩ := h
      exact hsize

/-- Words that stand where a datum without a label puts them are that datum. -/
theorem Memory.HasWords.hasDatum {m : Memory} {labels : LabelTable} {a : Int} {d : Datum}
    (h : m.HasWords a d.contents) (hlabel : ∀ l, d ≠ .label l) : m.HasDatum labels a d := by
  rcases d with l | v | ⟨size, contents⟩
  · exact absurd rfl (hlabel l)
  · exact h.1
  · rintro c rfl
    exact h

/-- A datum that is loaded defines its label or has its contents written. -/
theorem loadData_cons_ok {labels labels' : LabelTable} {m m' : Memory} {a : Int}
    {d : Located Datum} {entries : List (Int × Located Datum)}
    (h : loadData labels m ((a, d) :: entries) = .ok (labels', m')) :
    (∃ l labels₁, d.item = .label l ∧ labels.define l a = .ok labels₁ ∧
        loadData labels₁ m entries = .ok (labels', m')) ∨
      ∃ m₁, (∀ l, d.item ≠ .label l) ∧ m.writeAll a d.item.contents = .ok m₁ ∧
        loadData labels m₁ entries = .ok (labels', m') := by
  rw [loadData] at h
  rcases hitem : d.item with l | v | ⟨size, _ | contents⟩
  · simp only [hitem] at h
    obtain ⟨labels₁, hdefine, h⟩ := bind_eq_ok h
    exact .inl ⟨l, labels₁, rfl, hdefine, h⟩
  · simp only [hitem] at h
    obtain ⟨m₁, hwrite, h⟩ := bind_eq_ok h
    exact .inr ⟨m₁, nofun, hwrite, h⟩
  · simp only [hitem] at h
    exact .inr ⟨m, nofun, rfl, h⟩
  · simp only [hitem] at h
    obtain ⟨m₁, hwrite, h⟩ := bind_eq_ok h
    exact .inr ⟨m₁, nofun, hwrite, h⟩

/-- What loading data does: it changes nothing but the bytes of the data, and the labels are those
of the data and those that were there before. -/
structure LoadsData (data : Data) (a : Int) (labels labels' : LabelTable) (m m' : Memory) :
    Prop where
  differs : Memory.Differs (Memory.Block a data.size) m m'
  extends_labels : labels.Extends labels'
  holds : m'.HoldsData labels' a data
  others : ∀ l, (∀ d ∈ data, d.item ≠ .label l) → labels'[l]? = labels[l]?

theorem LoadsData.cons {d : Located Datum} {data : Data} {a : Int}
    {labels labels₁ labels' : LabelTable} {m m₁ m' : Memory} (hfits : d.item.Fits)
    (hdata : ∀ e ∈ data, e.item.Fits) (h₀ : 0 ≤ a)
    (hdiffers : Memory.Differs (Memory.Block a d.item.size) m m₁)
    (hextends : labels.Extends labels₁) (hhas : m₁.HasDatum labels₁ a d.item)
    (hothers : ∀ l, d.item ≠ .label l → labels₁[l]? = labels[l]?)
    (h : LoadsData data (a + d.item.size) labels₁ labels' m₁ m') :
    LoadsData (d :: data) a labels labels' m m' := by
  have hsize := hfits.size_nonneg
  have hsize' := Data.size_nonneg hdata
  refine ⟨?_, hextends.trans h.extends_labels, ?_, ?_⟩
  · refine (hdiffers.mono fun i hi => ?_).trans (h.differs.mono fun i hi => ?_)
    · simp only [Memory.Block, Data.size_cons] at *
      omega
    · simp only [Memory.Block, Data.size_cons] at *
      omega
  · intro entry hentry
    rcases List.mem_cons.mp hentry with rfl | hentry
    · exact hhas.of_differs h.differs h.extends_labels hfits h₀ fun i hi => by
        simp only [Memory.Block] at *
        omega
    · exact h.holds entry hentry
  · intro l hl
    rw [h.others l fun e he => hl e (List.mem_cons_of_mem _ he), hothers l (hl d List.mem_cons_self)]

theorem loadData_ok (data : Data) {labels labels' : LabelTable} {m m' : Memory} {a : Int}
    (hfits : ∀ d ∈ data, d.item.Fits) (hstart : m.dataStart ≤ a)
    (hstop : a + data.size ≤ m.size) (hlt : m.size < 2147483648)
    (h : loadData labels m (addressed (fun d : Located Datum => d.item.size) a data)
      = .ok (labels', m')) : LoadsData data a labels labels' m m' := by
  induction data generalizing labels m a with
  | nil =>
      cases h
      exact ⟨.refl _ _, .refl _, nofun, fun _ _ => rfl⟩
  | cons d data ih =>
      have hd := hfits d List.mem_cons_self
      have hdata := fun e he => hfits e (List.mem_cons_of_mem _ he)
      have hsize' := Data.size_nonneg hdata
      rw [Data.size_cons] at hstop
      rcases loadData_cons_ok h with ⟨l, labels₁, hitem, hdefine, h⟩ | ⟨m₁, hlabel, hwrite, h⟩
      · obtain ⟨hextends, hnew, hold⟩ := LabelTable.define_ok hdefine
        have hzero : d.item.size = 0 := by rw [hitem]; rfl
        refine .cons hd hdata (by omega) (.refl _ _) hextends (by rw [hitem]; exact hnew) ?_
          (ih hdata (by omega) (by omega) hlt h)
        exact fun l' hl' => hold l' fun heq => hl' (by rw [hitem, heq])
      · have hlength := hd.length_contents
        obtain rfl := Memory.writeAll_ok hstart (by omega) hlt hwrite
        have hdiffers := Memory.differs_storeAll m (a := a) d.item.contents (by omega)
        refine .cons hd hdata (by omega) (by rw [hlength]; exact hdiffers) (.refl _) ?_
          (fun _ _ => rfl) (ih hdata (by rw [hdiffers.dataStart_eq]; omega)
            (by rw [hdiffers.size_eq]; omega) (by rw [hdiffers.size_eq]; exact hlt) h)
        exact (Memory.hasWords_storeAll m d.item.contents (by omega) (by omega)).hasDatum hlabel

/-! ## The image and the first state -/

/-- The first state of a program, and where everything stands in it. -/
structure Segments.Loaded (segments : Segments) (image : Image) (s : State) : Prop where
  holds : image.Holds 0 segments.code
  data : s.memory.HoldsData image.labels (Code.size segments.code) segments.data
  dataStart_eq : (s.memory.dataStart : Int) = Code.size segments.code
  data_le : Code.size segments.code + Data.size segments.data ≤ s.heapEnd.toInt
  heap_le : s.heapEnd.toInt ≤ s.memory.size
  size_lt : s.memory.size < 2147483648
  pc_eq : s.pc = .ofInt 0
  sp_eq : s.sp = .ofInt s.memory.size
  fp_eq : s.fp = .ofInt s.memory.size
  callStack_eq : s.callStack = []
  system : ∀ l, (∀ i ∈ segments.code, i.item ≠ .label l) →
    (∀ d ∈ segments.data, d.item ≠ .label l) →
    image.labels[l]? = (SystemFunction.ofName? l).map SystemFunction.address

theorem mapError_ok {ε ε' α : Type} {f : ε → ε'} {x : Except ε α} {a : α}
    (h : x.mapError f = .ok a) : x = .ok a := by
  cases x with
  | ok b => exact congrArg Except.ok (Except.ok.inj h)
  | error e => cases h

theorem Image.fetch?_ofInt (image : Image) {a : Int} (h₀ : 0 ≤ a) (h₁ : a < 2147483648) :
    image.fetch? (.ofInt a) = (image.code[a.toNat]?).join := by
  have hint : (Word.ofInt a).toInt = a := Word.toInt_ofInt (by omega) h₁
  have hnonneg : ¬ Word.ofInt a < 0 := by
    rw [Int32.lt_iff_toInt_lt, hint]
    exact not_lt.mpr h₀
  rw [fetch?, if_neg hnonneg, hint]

theorem undefinedLabel?_eq_none {labels : LabelTable} {code : Code}
    (h : undefinedLabel? labels code = none) :
    ∀ i ∈ code, ∀ l, i.item = .name l → ∃ a, labels[l]? = some a := by
  intro i hi l hl
  have hnone := List.findSome?_eq_none_iff.mp h i hi
  simp only [hl] at hnone
  split at hnone
  · rename_i hcontains
    exact Option.isSome_iff_exists.mp (by rwa [← Std.TreeMap.contains_eq_isSome_getElem?])
  · cases hnone

theorem Image.has_of_fetch {image : Image} {a : Int} {i : Instruction}
    (h : image.fetch? (.ofInt a) = some i) (hsize : i.size ≠ 0)
    (hname : ∀ l, i = .name l → ∃ w, image.labels[l]? = some w) : image.Has a i := by
  cases i with
  | label l => exact absurd rfl hsize
  | name l => exact ⟨h, hname l rfl⟩
  | _ => exact h

theorem usableMemory_mod (n : Nat) : usableMemory n % 4 = 0 := by
  simp only [usableMemory, wordSize]
  omega

theorem usableMemory_lt (n : Nat) : usableMemory n < 2147483648 := by
  simp only [usableMemory, wordSize, wordBound]
  omega

/-- The steps of loading, if it succeeds. -/
theorem Segments.load_steps {segments : Segments} {memorySize : Nat} {input : List UInt8}
    {output : Output} {image : Image} {s : State}
    (h : segments.load memorySize input output = .ok (image, s)) :
    segments.codeSize = .ok (Code.size segments.code) ∧
      segments.dataSize = .ok (Data.size segments.data) ∧
      Code.size segments.code + Data.size segments.data ≤ usableMemory memorySize ∧
      ∃ labels labels' memory,
        LabelTable.defineCode ∅ segments.addressedCode = .ok labels ∧
        loadData labels (.zeros (usableMemory memorySize) (Code.size segments.code).toNat)
          (segments.addressedData (Code.size segments.code)) = .ok (labels', memory) ∧
        undefinedLabel? labels'.withSystemFunctions segments.code = none ∧
        image = ⟨(codeBytes segments.code).toArray, labels'.withSystemFunctions⟩ ∧
        s = { memory, pc := 0, sp := .ofInt (usableMemory memorySize),
              fp := .ofInt (usableMemory memorySize),
              heapEnd :=
                (Word.ofInt (Code.size segments.code + Data.size segments.data)).alignUp,
              callStack := [], input, output } := by
  obtain ⟨codeSize, hcodeSize, h⟩ := bind_eq_ok h
  obtain ⟨dataSize, hdataSize, h⟩ := bind_eq_ok h
  obtain rfl : codeSize = Code.size segments.code := (totalSize_ok (mapError_ok hcodeSize)).1
  obtain rfl : dataSize = Data.size segments.data := (totalSize_ok (mapError_ok hdataSize)).1
  simp only at h
  split at h
  · cases h
  · rename_i hroom
    simp only [Bool.or_eq_true, Bool.not_eq_true', decide_eq_true_eq, not_or, not_lt] at hroom
    obtain ⟨labels, hlabels, h⟩ := bind_eq_ok h
    obtain ⟨⟨labels', memory⟩, hloads, h⟩ := bind_eq_ok h
    simp only at h
    split at h
    · cases h
    · rename_i hdefined
      cases h
      exact ⟨mapError_ok hcodeSize, mapError_ok hdataSize, hroom.2, labels, labels', memory,
        mapError_ok hlabels, mapError_ok hloads, Option.eq_none_iff_forall_ne_some.mpr hdefined,
        rfl, rfl⟩

theorem Segments.load_ok {segments : Segments} {memorySize : Nat} {input : List UInt8}
    {output : Output} {image : Image} {s : State} (hfits : ∀ d ∈ segments.data, d.item.Fits)
    (h : segments.load memorySize input output = .ok (image, s)) :
    segments.Loaded image s ∧ s.memory.size = usableMemory memorySize ∧ s.input = input ∧
      s.output = output := by
  obtain ⟨-, -, hroom, labels₁, labels₂, m, hlabels, hloads, hnone, rfl, rfl⟩ := load_steps h
  have hcode₀ := Code.size_nonneg segments.code
  have hdata₀ := Data.size_nonneg hfits
  have hlt := usableMemory_lt memorySize
  have hmod := usableMemory_mod memorySize
  have hsize : (Memory.zeros (usableMemory memorySize) (Code.size segments.code).toNat).size
      = usableMemory memorySize := size_zeroBytes _
  have hstart : ((Memory.zeros (usableMemory memorySize)
      (Code.size segments.code).toNat).dataStart : Int) = Code.size segments.code :=
    Int.toNat_of_nonneg hcode₀
  obtain ⟨_, hin, hout⟩ := LabelTable.defineCode_ok _ hlabels
  have hdataLoads := loadData_ok segments.data hfits hstart.le (by omega) (by omega) hloads
  obtain ⟨hsystem, hnew⟩ := LabelTable.withSystemFunctions_spec labels₂
  have hextends := hdataLoads.extends_labels.trans hsystem
  have hmsize : m.size = usableMemory memorySize := hdataLoads.differs.size_eq.trans hsize
  have hmstart : (m.dataStart : Int) = Code.size segments.code := by
    rw [hdataLoads.differs.dataStart_eq]
    exact hstart
  have hstop : (Word.ofInt (Code.size segments.code + Data.size segments.data)).toInt
      = Code.size segments.code + Data.size segments.data :=
    Word.toInt_ofInt (by omega) (by omega)
  have halign := Word.toInt_alignUp
    (w := .ofInt (Code.size segments.code + Data.size segments.data)) (by omega) (by omega)
  refine ⟨⟨?_, ?_, hmstart, ?_, ?_, ?_, rfl, ?_, ?_, rfl, ?_⟩, hmsize, rfl, rfl⟩
  -- labels stand where they were defined, instructions where their bytes are
  · intro entry hentry
    by_cases hzero : entry.2.item.size = 0
    · obtain ⟨l, hl⟩ := Instruction.size_eq_zero.mp hzero
      rw [hl]
      exact hextends _ _ (hin entry hentry l hl)
    · obtain ⟨hpos, hbyte⟩ := codeBytes_addressed segments.code 0 [] rfl entry hentry hzero
      obtain ⟨hlength, _⟩ := List.getElem?_eq_some_iff.mp hbyte
      have hcount := length_codeBytes segments.code
      have hfetch : Image.fetch? ⟨(codeBytes segments.code).toArray,
          labels₂.withSystemFunctions⟩ (.ofInt entry.1) = some entry.2.item := by
        rw [Image.fetch?_ofInt _ hpos (by simp only [List.nil_append] at hlength; omega),
          List.getElem?_toArray]
        simp only [List.nil_append] at hbyte
        rw [hbyte]
        rfl
      exact Image.has_of_fetch hfetch hzero
        (undefinedLabel?_eq_none hnone entry.2 (mem_of_mem_addressed hentry))
  · intro entry hentry
    have hbounds := le_of_mem_addressed hfits entry hentry
    exact (hdataLoads.holds entry hentry).of_differs (.refl (fun _ => False) m) hsystem
      (hfits entry.2 (mem_of_mem_addressed hentry)) (by omega) (fun _ _ h => h)
  · rw [halign, hstop]
    omega
  · rw [halign, hstop, hmsize]
    omega
  · rw [hmsize]
    exact hlt
  · rw [hmsize]
  · rw [hmsize]
  · intro l hcodeLabels hdataLabels
    refine hnew l ?_
    rw [hdataLoads.others l hdataLabels, hout l fun entry hentry =>
      hcodeLabels entry.2 (mem_of_mem_addressed hentry)]
    exact Std.TreeMap.getElem?_emptyc

/-- The heap starts behind the data, whatever the size of the memory is. -/
theorem Segments.load_heapEnd {segments : Segments} {memorySize : Nat} {input : List UInt8}
    {output : Output} {image : Image} {s : State}
    (h : segments.load memorySize input output = .ok (image, s)) :
    s.heapEnd = (Word.ofInt (Code.size segments.code + Data.size segments.data)).alignUp := by
  obtain ⟨-, -, -, labels₁, labels₂, m, -, -, -, -, rfl⟩ := load_steps h
  rfl

theorem usableMemory_mono {m n : Nat} (h : m ≤ n) : usableMemory m ≤ usableMemory n := by
  simp only [usableMemory, wordSize, wordBound]
  omega

end NestedFun
