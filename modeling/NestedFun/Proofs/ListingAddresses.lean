import NestedFun.Machine.Step
import NestedFun.Proofs.CodeAddresses
import NestedFun.Proofs.ListingLines
import NestedFun.Proofs.MachineSteps

namespace NestedFun

/-!
# Addresses in listings and traces

A listing, the machine that its segments are loaded into, and the trace of a run agree on addresses.
Each line goes on where the one before it ends, a label line shows the address for which the machine
has the label, and each step that is carried out is traced with the address and the text of a single
line of the code.
-/

/-! ## Addresses -/

theorem addressed_map {α β : Type} (f : α → β) (size : β → Int) (start : Int) (xs : List α) :
    addressed size start (xs.map f)
      = (addressed (fun x => size (f x)) start xs).map fun entry => (entry.1, f entry.2) := by
  induction xs generalizing start with
  | nil => rfl
  | cons x xs ih => rw [List.map_cons, addressed, ih, addressed, List.map_cons]

theorem isChain_addressed {α : Type} (size : α → Int) (start : Int) (xs : List α) :
    (addressed size start xs).IsChain fun a b => b.1 = a.1 + size a.2 := by
  induction xs generalizing start with
  | nil => exact .nil
  | cons x xs ih =>
      cases xs with
      | nil => exact .singleton _
      | cons y ys => exact .cons_cons rfl (ih (start + size x))

/-- What has no negative size ends before what is behind it starts. -/
theorem pairwise_addressed {α : Type} {size : α → Int} {xs : List α} (h : ∀ x ∈ xs, 0 ≤ size x)
    (start : Int) :
    (addressed size start xs).Pairwise fun a b => a.1 + size a.2 ≤ b.1 := by
  induction xs generalizing start with
  | nil => exact .nil
  | cons x xs ih =>
      have hxs := (List.forall_mem_cons.mp h).2
      exact List.pairwise_cons.mpr
        ⟨fun entry hentry => (addressed_bounds hxs entry hentry).1, ih hxs (start + size x)⟩

theorem head?_addressed {α : Type} (size : α → Int) (start : Int) (xs : List α) :
    ∀ entry ∈ (addressed size start xs).head?, entry.1 = start := by
  cases xs with
  | nil => simp [addressed]
  | cons x xs => simp [addressed]

/-! ## Labels -/

/-- Loading data keeps the labels that are there, and has every label of the data at its address. -/
theorem loadData_labels (entries : List (Int × Located Datum)) {labels labels' : LabelTable}
    {m m' : Memory} (h : loadData labels m entries = .ok (labels', m')) :
    labels.Extends labels' ∧
      ∀ entry ∈ entries, ∀ l, entry.2.item = .label l → labels'[l]? = some (.ofInt entry.1) := by
  induction entries generalizing labels m with
  | nil =>
      cases h
      exact ⟨.refl _, by simp⟩
  | cons entry entries ih =>
      obtain ⟨a, d⟩ := entry
      rcases loadData_cons_ok h with ⟨name, labels₁, hitem, hdefine, h⟩ | ⟨m₁, hlabel, -, h⟩
      · obtain ⟨hextends, hnew, -⟩ := LabelTable.define_ok hdefine
        obtain ⟨hextends', hothers⟩ := ih h
        refine ⟨hextends.trans hextends', List.forall_mem_cons.mpr ⟨?_, hothers⟩⟩
        intro l hl
        rw [hitem] at hl
        cases hl
        exact hextends' _ _ hnew
      · -- what is no label leaves the labels to the data behind it
        obtain ⟨hextends, hothers⟩ := ih h
        exact ⟨hextends, List.forall_mem_cons.mpr ⟨fun l hl => absurd hl (hlabel l), hothers⟩⟩

section

variable {segments : Segments} {memorySize : Nat} {input : List UInt8} {output : Output}
  {image : Image} {s : State}

/-- The label table of loaded segments has every label at the address of what follows it. -/
theorem Segments.load_labels (h : segments.load memorySize input output = .ok (image, s)) :
    (∀ entry ∈ segments.addressedCode, ∀ l, entry.2.item = .label l →
        image.labels[l]? = some (.ofInt entry.1)) ∧
      ∀ entry ∈ segments.addressedData (Code.size segments.code), ∀ l,
        entry.2.item = .label l → image.labels[l]? = some (.ofInt entry.1) := by
  obtain ⟨-, -, -, labels₁, labels₂, m, hlabels, hloads, -, rfl, -⟩ := load_steps h
  obtain ⟨-, hcodeLabels, -⟩ := LabelTable.defineCode_ok _ hlabels
  obtain ⟨hextends, hdataLabels⟩ := loadData_labels _ hloads
  have hsystem := labels₂.withSystemFunctions_spec.1
  exact ⟨fun entry hentry l hl => hsystem _ _ (hextends _ _ (hcodeLabels entry hentry l hl)),
    fun entry hentry l hl => hsystem _ _ (hdataLabels entry hentry l hl)⟩

/-- The sizes that loading computes. -/
theorem Segments.load_codeSize (h : segments.load memorySize input output = .ok (image, s)) :
    segments.codeSize = .ok (Code.size segments.code) :=
  (load_steps h).1

end

/-! ## Lines -/

namespace Segments

variable {segments : Segments}

def listedItems (segments : Segments) : List ListedItem :=
  segments.code.map (fun i => i.item.listed) ++ segments.data.map fun d => d.item.listed

def listedLines (segments : Segments) : List ListedLine :=
  segments.codeLines ++ segments.dataLines (Code.size segments.code)

/-- Code and data are listed with their addresses in one row. -/
theorem listedLines_eq (segments : Segments) :
    segments.listedLines = (addressed ListedItem.size 0 segments.listedItems).map
      fun entry => ⟨.ofInt entry.1, entry.2⟩ := by
  rw [listedItems, addressed_append, List.map_append, addressed_map, addressed_map, List.map_map,
    List.map_map, List.map_map, Int.zero_add]
  rfl

theorem listedLines_goOn (segments : Segments) :
    segments.listedLines.IsChain fun a b => b.address = a.address + .ofInt a.item.size := by
  rw [listedLines_eq, List.isChain_map]
  refine (isChain_addressed ListedItem.size 0 segments.listedItems).imp ?_
  intro a b hab
  show Word.ofInt b.1 = Word.ofInt a.1 + Word.ofInt a.2.size
  rw [hab, Word.ofInt_add]

/-- The numbers of the addresses go on as well, as long as no datum has a negative size. -/
theorem listedLines_goOn_numbers (hdata : ∀ d ∈ segments.data, 0 ≤ d.item.size)
    (hlt : Code.size segments.code + Data.size segments.data < 2147483648) :
    segments.listedLines.IsChain fun a b =>
      b.address.toInt = a.address.toInt + a.item.size := by
  have hsizes : ∀ item ∈ segments.listedItems, 0 ≤ item.size := by
    intro item hitem
    rcases List.mem_append.mp hitem with hitem | hitem
    · obtain ⟨i, -, rfl⟩ := List.mem_map.mp hitem
      exact Int.natCast_nonneg _
    · obtain ⟨d, hd, rfl⟩ := List.mem_map.mp hitem
      exact hdata d hd
  have hsum : (segments.listedItems.map ListedItem.size).sum
      = Code.size segments.code + Data.size segments.data := by
    rw [listedItems, List.map_append, List.sum_append, List.map_map, List.map_map]
    rfl
  have hbounds := addressed_bounds hsizes (a := 0)
  have hint : ∀ entry ∈ addressed ListedItem.size 0 segments.listedItems,
      (Word.ofInt entry.1).toInt = entry.1 := by
    intro entry hentry
    have hentry' := hbounds entry hentry
    have hsize := hsizes entry.2 (mem_of_mem_addressed hentry)
    exact Word.toInt_ofInt (by omega) (by omega)
  rw [listedLines_eq, List.isChain_map]
  refine (isChain_addressed ListedItem.size 0 segments.listedItems).imp_of_mem_imp ?_
  intro a b ha hb hab
  show (Word.ofInt b.1).toInt = (Word.ofInt a.1).toInt + a.2.size
  rw [hint a ha, hint b hb, hab]

/-- A label line shows the address that the machine has for the label. -/
theorem listedLines_labels {image : Image}
    (hcode : ∀ entry ∈ segments.addressedCode, ∀ l, entry.2.item = .label l →
      image.labels[l]? = some (.ofInt entry.1))
    (hdata : ∀ entry ∈ segments.addressedData (Code.size segments.code), ∀ l,
      entry.2.item = .label l → image.labels[l]? = some (.ofInt entry.1)) :
    ∀ line ∈ segments.listedLines, line.item.isLabel = true →
      ∃ l, line.item.text = l ++ ":" ∧ image.addressOf l = .ok line.address := by
  have haddress {l : String} {a : Word} (h : image.labels[l]? = some a) :
      image.addressOf l = .ok a := by
    rw [Image.addressOf, h]
  intro line hline hlabel
  rcases List.mem_append.mp hline with hline | hline
  · obtain ⟨⟨a, span, i⟩, hentry, rfl⟩ := List.mem_map.mp hline
    cases i with
    | label l => exact ⟨l, rfl, haddress (hcode _ hentry l rfl)⟩
    | _ => cases hlabel
  · obtain ⟨⟨a, span, d⟩, hentry, rfl⟩ := List.mem_map.mp hline
    cases d with
    | label l => exact ⟨l, rfl, haddress (hdata _ hentry l rfl)⟩
    | _ => cases hlabel

/-- An address and a text stand together on exactly one line that is no label. -/
def ListsOnce (lines : List ListedLine) (address : Word) (text : String) : Prop :=
  ∃! i : Fin lines.length,
    lines[i].item.isLabel = false ∧ lines[i].address = address ∧ lines[i].item.text = text

/-- Of two lines of the code with the same address, one is a label. -/
theorem codeLines_pairwise (hlt : Code.size segments.code < 2147483648) :
    segments.codeLines.Pairwise fun a b =>
      a.item.isLabel = false → a.address ≠ b.address := by
  have hsizes : ∀ i ∈ segments.code, 0 ≤ (i.item.size : Int) := fun _ _ => Int.natCast_nonneg _
  have hbounds := addressed_bounds hsizes (a := 0)
  have hpairs := pairwise_addressed hsizes 0
  have hfits : ∀ entry ∈ segments.addressedCode, 0 ≤ entry.1 ∧ entry.1 < 2147483648 := by
    intro entry hentry
    obtain ⟨h₁, h₂⟩ := hbounds entry hentry
    have hend : entry.1 + (entry.2.item.size : Int) ≤ 0 + Code.size segments.code := h₂
    omega
  refine List.pairwise_map.mpr (hpairs.imp_of_mem ?_)
  intro a b ha hb hab hlabel haddress
  obtain ⟨ha₀, ha₁⟩ := hfits a ha
  obtain ⟨hb₀, hb₁⟩ := hfits b hb
  have hsame : a.1 = b.1 := Word.ofInt_inj (by omega) ha₁ (by omega) hb₁ haddress
  have hzero : a.2.item.size = 0 := by omega
  obtain ⟨l, hl⟩ := Instruction.size_eq_zero.mp hzero
  simp [Instruction.listed, hl, Instruction.label?] at hlabel

theorem listsOnce_of_mem (hlt : Code.size segments.code < 2147483648)
    {entry : Int × Located Instruction} (hentry : entry ∈ segments.addressedCode)
    (hsize : entry.2.item.size ≠ 0) :
    ListsOnce segments.codeLines (.ofInt entry.1) entry.2.item.text := by
  have hline : (⟨.ofInt entry.1, entry.2.item.listed⟩ : ListedLine) ∈ segments.codeLines :=
    List.mem_map.mpr ⟨entry, hentry, rfl⟩
  obtain ⟨i, hi, heq⟩ := List.getElem_of_mem hline
  have hlabel : entry.2.item.listed.isLabel = false := by
    cases hitem : entry.2.item with
    | label l => exact absurd (by rw [hitem]; rfl) hsize
    | _ => rfl
  have hpairs := List.pairwise_iff_getElem.mp (codeLines_pairwise hlt)
  refine ⟨⟨i, hi⟩, ?_, ?_⟩
  · show segments.codeLines[i].item.isLabel = false ∧ segments.codeLines[i].address = _ ∧
      segments.codeLines[i].item.text = _
    rw [heq]
    exact ⟨hlabel, rfl, rfl⟩
  · rintro ⟨j, hj⟩ ⟨hlabel', haddress, -⟩
    have hsame : segments.codeLines[i].address = segments.codeLines[j].address := by
      rw [heq]
      exact haddress.symm
    rcases Nat.lt_trichotomy i j with hlt | rfl | hlt
    · exact absurd hsame (hpairs i j hi hj hlt (by rw [heq]; exact hlabel))
    · rfl
    · exact absurd hsame.symm (hpairs j i hj hi hlt hlabel')

end Segments

/-! ## Traces -/

def traceText (pc : Word) (text : String) (sp fp : Word) : String :=
  padLeft 8 pc.numeral ++ " " ++ padRight 20 text ++ " SP=" ++ sp.numeral ++ " FP=" ++ fp.numeral

theorem traceLine?_eq (image : Image) (s : State) :
    traceLine? image s
      = (image.fetch? s.pc).map fun i => traceText s.pc i.text s.sp s.fp := rfl

/-- The states in which a run of at most `n` steps carries out an instruction. -/
def executed (image : Image) : Nat → State → List State
  | 0, _ => []
  | n + 1, s =>
    if (image.fetch? s.pc).isSome then
      s :: match Exec.step image s with
        | .ok none s => executed image n s
        | .ok (some _) _ | .error _ _ => []
    else []

/-- The trace has a line for each step that is carried out. -/
theorem runTraced_trace (image : Image) (n : Nat) (trace : Array String) (s : State) :
    ∃ lines, (runTraced image true n trace s).2.1.toList = trace.toList ++ lines ∧
      List.Forall₂ (fun line s => traceLine? image s = some line) lines (executed image n s) := by
  induction n generalizing trace s with
  | zero => exact ⟨[], (List.append_nil _).symm, .nil⟩
  | succ n ih =>
      cases hfetch : image.fetch? s.pc with
      | none =>
          have hstep := Exec.step_of_fetch_none hfetch
          refine ⟨[], ?_, ?_⟩
          · simp [runTraced, traceLine?_eq, hfetch, hstep]
          · simp [executed, hfetch]
      | some i =>
          have hline : traceLine? image s = some (traceText s.pc i.text s.sp s.fp) := by
            rw [traceLine?_eq, hfetch]
            rfl
          simp only [runTraced, executed, hline, hfetch, Option.isSome_some, if_true]
          rcases Exec.step image s with ⟨_ | code, s'⟩ | ⟨kind, s'⟩
          · obtain ⟨lines, htrace, hlines⟩ := ih (trace.push (traceText s.pc i.text s.sp s.fp)) s'
            refine ⟨_ :: lines, ?_, .cons hline hlines⟩
            simpa using htrace
          · exact ⟨[_], by simp, .cons hline .nil⟩
          · exact ⟨[_], by simp, .cons hline .nil⟩

/-! ## Agreement -/

namespace Segments

/-- A listing for a terminal, the image and the runs from a first state agree on addresses. -/
structure ListingAgrees (terminal : Terminal) (segments : Segments) (image : Image)
    (first : State) : Prop where
  /-- Listings are shown as lines, those of the code and those of the data, with colours or without. -/
  shown : ∀ coloured, ∃ text, segments.listingOn terminal coloured = .ok text ∧
    terminal.strip text = segments.shownListing (Code.size segments.code)
  plain : ∀ coloured, segments.plainListingOn terminal coloured
    = .ok (segments.shownListing (Code.size segments.code))
  /-- The first line stands at address 0, and the first line of the data where the code ends. -/
  start : ∀ line ∈ segments.listedLines.head?, line.address = 0
  dataStart : segments.codeSize = .ok (Code.size segments.code) ∧
    ∀ line ∈ (segments.dataLines (Code.size segments.code)).head?,
      line.address = .ofInt (Code.size segments.code)
  /-- Behind a line stands the one at its address and its size, in the arithmetic of words, and of
  numbers as well if no datum has a negative size. -/
  goesOn : segments.listedLines.IsChain fun a b => b.address = a.address + .ofInt a.item.size
  goesOn_numbers : (∀ d ∈ segments.data, 0 ≤ d.item.size) →
    segments.listedLines.IsChain fun a b => b.address.toInt = a.address.toInt + a.item.size
  labels : ∀ line ∈ segments.listedLines, line.item.isLabel = true →
    ∃ l, line.item.text = l ++ ":" ∧ image.addressOf l = .ok line.address
  /-- Whatever the state, what is traced stands on exactly one line of the code. -/
  traceLine : ∀ s line, traceLine? image s = some line →
    ∃ text, line = traceText s.pc text s.sp s.fp ∧ ListsOnce segments.codeLines s.pc text
  /-- A run traces every step that it carries out, in order. -/
  trace : ∀ n, List.Forall₂
    (fun line s => ∃ text, line = traceText s.pc text s.sp s.fp ∧
      ListsOnce segments.codeLines s.pc text)
    (runTraced image true n #[] first).2.1.toList (executed image n first)

variable {segments : Segments} {memorySize : Nat} {input : List UInt8} {output : Output}
  {image : Image} {s : State}

/-- What an image of the code traces stands on one line of the code. -/
theorem Starts.traceLine_listed (hstarts : segments.Starts memorySize image s)
    (hlt : Code.size segments.code < 2147483648) {s' : State} {line : String}
    (hline : traceLine? image s' = some line) :
    ∃ text, line = traceText s'.pc text s'.sp s'.fp ∧
      ListsOnce segments.codeLines s'.pc text := by
  rw [traceLine?_eq] at hline
  obtain ⟨i, hfetch, rfl⟩ := Option.map_eq_some_iff.mp hline
  obtain ⟨entry, hentry, hsize, hpc, hfetch'⟩ := hstarts.addressed_of_fetch hfetch
  have hitem : i = entry.2.item := Option.some.inj (hfetch.symm.trans hfetch')
  refine ⟨i.text, rfl, ?_⟩
  rw [← Word.ofInt_toInt s'.pc, hpc, hitem]
  exact listsOnce_of_mem hlt hentry hsize

/-- Segments with printable labels that can be loaded are listed, loaded and traced with the same
addresses, whatever the terminal. -/
theorem listing_agrees {terminal : Terminal} (hterminal : terminal.Lawful)
    (h : segments.load memorySize input output = .ok (image, s))
    (hprintable : segments.HasPrintableLabels) : segments.ListingAgrees terminal image s := by
  have hsize := load_codeSize h
  have hlt : Code.size segments.code < 2147483648 := (totalSize_ok hsize).2
  have hstarts := load_starts h
  have hroom := hstarts.room
  have husable := usableMemory_lt memorySize
  obtain ⟨hcode, hdata⟩ := load_labels h
  have htraced {s' : State} {line : String} (hline : traceLine? image s' = some line) :=
    hstarts.traceLine_listed hlt hline
  have hplain (coloured : Bool) : segments.plainListingOn terminal coloured
      = .ok (segments.shownListing (Code.size segments.code)) := by
    obtain ⟨text, htext, hshown⟩ := listingOn_shown hterminal hprintable hsize coloured
    rw [plainListingOn, htext, ← hshown]
    rfl
  refine ⟨listingOn_shown hterminal hprintable hsize, hplain, ?_, ⟨hsize, ?_⟩, segments.listedLines_goOn, ?_,
    listedLines_labels hcode hdata, fun s' line => htraced, ?_⟩
  · intro line hline
    rw [listedLines_eq, List.head?_map] at hline
    obtain ⟨entry, hentry, rfl⟩ := Option.map_eq_some_iff.mp hline
    exact congrArg Word.ofInt (head?_addressed _ _ _ entry hentry)
  · intro line hline
    rw [dataLines, List.head?_map] at hline
    obtain ⟨entry, hentry, rfl⟩ := Option.map_eq_some_iff.mp hline
    exact congrArg Word.ofInt (head?_addressed _ _ _ entry hentry)
  · exact fun hsizes => listedLines_goOn_numbers hsizes (by omega)
  · intro n
    obtain ⟨lines, htrace, hlines⟩ := runTraced_trace image n #[] s
    rw [htrace]
    exact hlines.imp fun line s' => htraced

def labelledSample : Segments where
  code := Code.spanning .nowhere
    [.label "main", .label "start", .push 7, .name "exit", .call ⟨"exit", "exit", 1, 8, 8⟩,
      .name "text", .load, .label "end"]
  data := Data.spanning .nowhere
    [.label "text", .word 65, .reserve 8 none, .reserve 4 (some ⟨[1, 1, 1, 3]⟩), .label "stop"]

theorem listing_agrees_sample : ∃ image s,
    labelledSample.load 64 [] {} = .ok (image, s) ∧ labelledSample.ListingAgrees .standard image s ∧
      labelledSample.listedLines.map (fun line => line.address.toInt)
        = [0, 0, 0, 5, 10, 11, 16, 17, 17, 17, 21, 29, 33] := by
  have hloads : (labelledSample.load 64 [] {}).toOption.isSome = true := by decide +kernel
  obtain ⟨⟨image, s⟩, hload⟩ := Option.isSome_iff_exists.mp hloads
  have hload' := toOption_eq_some hload
  exact ⟨image, s, hload', listing_agrees Terminal.standard_lawful hload'
    ⟨by decide +kernel, by decide +kernel⟩, by decide +kernel⟩

end Segments

end NestedFun
