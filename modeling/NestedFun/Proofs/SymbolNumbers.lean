import NestedFun.Proofs.LabelForms
import NestedFun.SymbolTable
import Mathlib.Data.Finset.Card
import Mathlib.Data.List.Induction

namespace NestedFun

/-!
# Numbers of texts

A symbol table keeps texts in an array, and a map that leads from a text back to its place. Whatever is
asked of a fresh table, and in whatever order, a text stands at the place that says how many different
texts came before it, and no later request changes that. The map has 32 bits for the place. As long as
there are no more than 2 ^ 32 different texts it is inverse to the array, so two texts are equal exactly if
their numbers are, however far apart in a run the numbers were drawn. The next text gets the number 0
once more.
-/

namespace SymbolTable

/-! ## One insertion -/

section

variable {table : SymbolTable} {text : String}

theorem insert_of_found {index : Nat} (h : table.indexOf? text = some index) :
    table.insert text = (index, table) := by
  rw [insert, h]

theorem insert_of_absent (h : table.indexOf? text = none) :
    table.insert text = (table.texts.size % UInt32.size,
      ⟨table.texts.push text, table.indices.insert text (.ofNat table.texts.size)⟩) := by
  rw [insert, h]
  exact congrArg (·, _) (UInt32.toNat_ofNat' (n := table.texts.size))

theorem get?_insert_of_absent (h : table.indexOf? text = none) (index : Nat) :
    (table.insert text).2.get? index =
      if index = table.texts.size then some text else table.get? index := by
  rw [insert_of_absent h, get?, get?, Array.getElem?_push]

theorem indexOf?_insert_of_absent (h : table.indexOf? text = none) (other : String) :
    (table.insert text).2.indexOf? other =
      if text = other then some (table.texts.size % UInt32.size) else table.indexOf? other := by
  rw [insert_of_absent h, indexOf?, indexOf?, Std.TreeMap.getElem?_insert]
  simp only [Std.LawfulEqCmp.compare_eq_iff_eq]
  split
  · exact congrArg some UInt32.toNat_ofNat'
  · rfl

/-- The number that an insertion answers with is the one to be found from then on. -/
theorem indexOf?_insert (table : SymbolTable) (text : String) :
    (table.insert text).2.indexOf? text = some (table.insert text).1 := by
  cases h : table.indexOf? text with
  | some index => rw [insert_of_found h, h]
  | none => rw [indexOf?_insert_of_absent h, if_pos rfl, insert_of_absent h]

end

/-! ## Histories -/

inductive Request where
  | insert (text : String)
  | indexOf (text : String)
  | get (index : Nat)
deriving DecidableEq

def Request.inserted? : Request → Option String
  | insert text => some text
  | indexOf _ | get _ => none

def serve (table : SymbolTable) : Request → SymbolTable
  | .insert text => (table.insert text).2
  | .indexOf _ | .get _ => table

def after (history : List Request) : SymbolTable := history.foldl serve {}

def variety (history : List Request) : Nat :=
  (history.filterMap Request.inserted?).toFinset.card

/-- A text was inserted, for the first time when so many different texts had been inserted. -/
def FirstInserted (history : List Request) (text : String) (index : Nat) : Prop :=
  ∃ before behind, history = before ++ .insert text :: behind ∧ .insert text ∉ before ∧
    index = variety before

theorem FirstInserted.append {history : List Request} {text : String} {index : Nat}
    (h : FirstInserted history text index) (later : List Request) :
    FirstInserted (history ++ later) text index := by
  obtain ⟨before, behind, rfl, hfirst, hindex⟩ := h
  exact ⟨before, behind ++ later, by simp, hfirst, hindex⟩

section

variable (history : List Request) (request : Request) (text : String) (index : Nat)

theorem after_snoc : after (history ++ [request]) = (after history).serve request := by
  rw [after, List.foldl_append, List.foldl_cons, List.foldl_nil, after]

theorem mem_inserted : text ∈ history.filterMap Request.inserted? ↔ .insert text ∈ history := by
  rw [List.mem_filterMap]
  constructor
  · rintro ⟨request, hmem, hrequest⟩
    cases request with
    | insert other => exact Option.some.inj hrequest ▸ hmem
    | indexOf _ => cases hrequest
    | get _ => cases hrequest
  · exact fun h => ⟨_, h, rfl⟩

/-- Only the first insertion of a text counts, and where it stands in the history decides. -/
theorem firstInserted_snoc : FirstInserted (history ++ [request]) text index ↔
    FirstInserted history text index ∨
      request = .insert text ∧ .insert text ∉ history ∧ index = variety history := by
  constructor
  · rintro ⟨before, behind, hsplit, hfirst, hindex⟩
    rcases List.eq_nil_or_concat behind with rfl | ⟨behind, last, rfl⟩
    · obtain ⟨rfl, hlast⟩ := List.append_inj' hsplit rfl
      exact .inr ⟨List.singleton_inj.mp hlast, hfirst, hindex⟩
    · rw [List.concat_eq_append, ← List.cons_append, ← List.append_assoc] at hsplit
      exact .inl ⟨before, behind, (List.append_inj' hsplit rfl).1, hfirst, hindex⟩
  · rintro (⟨before, behind, rfl, hfirst, hindex⟩ | ⟨rfl, hfirst, hindex⟩)
    · exact ⟨before, behind ++ [request], by simp, hfirst, hindex⟩
    · exact ⟨history, [], rfl, hfirst, hindex⟩

theorem exists_firstInserted :
    (∃ index, FirstInserted history text index) ↔ .insert text ∈ history := by
  constructor
  · rintro ⟨index, before, behind, rfl, -, -⟩
    exact List.mem_append_right _ List.mem_cons_self
  · intro h
    obtain ⟨before, behind, hsplit, hfirst⟩ := List.eq_append_cons_of_mem h
    exact ⟨_, before, behind, hsplit, hfirst, rfl⟩

theorem variety_snoc_new (h : .insert text ∉ history) :
    variety (history ++ [.insert text]) = variety history + 1 := by
  have hnew : text ∉ (history.filterMap Request.inserted?).toFinset := by
    rwa [List.mem_toFinset, mem_inserted]
  rw [variety, variety, ← Finset.card_insert_of_notMem hnew]
  congr 1
  ext other
  simp [Request.inserted?]

/-- A request with nothing new in it leaves the number of texts as it is. -/
theorem variety_snoc_known (h : ∀ text, request = .insert text → .insert text ∈ history) :
    variety (history ++ [request]) = variety history := by
  rw [variety, variety]
  congr 1
  ext text
  simp only [List.mem_toFinset, mem_inserted, List.mem_append, List.mem_singleton]
  exact or_iff_left_of_imp fun hrequest => h text hrequest.symm

end

/-! ## The table after a history -/

/-- A table that holds what a history has inserted. A text stands where the history says, and what is kept
of its place are the last 32 bits. -/
structure Records (table : SymbolTable) (history : List Request) : Prop where
  size_eq : table.texts.size = variety history
  get?_iff : ∀ index text, table.get? index = some text ↔ FirstInserted history text index
  indexOf?_iff : ∀ text number, table.indexOf? text = some number ↔
    ∃ index, FirstInserted history text index ∧ number = index % UInt32.size

namespace Records

variable {table : SymbolTable} {history : List Request}

theorem fresh : Records {} [] := by
  have hnone : ∀ text index, ¬ FirstInserted [] text index := fun text index h =>
    List.not_mem_nil ((exists_firstInserted [] text).mp ⟨index, h⟩)
  refine ⟨rfl, fun index text => ?_, fun text number => ?_⟩
  · exact iff_of_false (by simp [get?]) (hnone text index)
  · exact iff_of_false (by simp [indexOf?]) fun ⟨index, hindex, _⟩ => hnone text index hindex

theorem indexOf?_eq_none (h : Records table history) {text : String} :
    table.indexOf? text = none ↔ .insert text ∉ history := by
  rw [Option.eq_none_iff_forall_ne_some, ← exists_firstInserted, not_exists]
  constructor
  · exact fun hnone index hindex => hnone _ ((h.indexOf?_iff text _).mpr ⟨index, hindex, rfl⟩)
  · intro hnone number hnumber
    obtain ⟨index, hindex, -⟩ := (h.indexOf?_iff text number).mp hnumber
    exact hnone index hindex

/-- Looking for something, or inserting what is there already, is of no consequence. -/
theorem snoc_known (h : Records table history) {request : Request}
    (hknown : ∀ text, request = .insert text → .insert text ∈ history) :
    Records table (history ++ [request]) := by
  have hsame : ∀ text index,
      FirstInserted (history ++ [request]) text index ↔ FirstInserted history text index := by
    intro text index
    rw [firstInserted_snoc]
    exact or_iff_left fun hnew => hnew.2.1 (hknown text hnew.1)
  refine ⟨?_, fun index text => ?_, fun text number => ?_⟩
  · rw [variety_snoc_known history request hknown, h.size_eq]
  · rw [hsame, h.get?_iff]
  · simp only [hsame, h.indexOf?_iff]

/-- A new text stands behind all others. -/
theorem insert_new (h : Records table history) {text : String} (hnew : .insert text ∉ history) :
    Records (table.insert text).2 (history ++ [.insert text]) := by
  have habsent : table.indexOf? text = none := h.indexOf?_eq_none.mpr hnew
  have hsnoc : ∀ other index, FirstInserted (history ++ [.insert text]) other index ↔
      FirstInserted history other index ∨ text = other ∧ index = table.texts.size := by
    intro other index
    rw [firstInserted_snoc, Request.insert.injEq, h.size_eq]
    exact or_congr_right (and_congr_right fun heq => and_iff_right (heq ▸ hnew))
  refine ⟨?_, fun index other => ?_, fun other number => ?_⟩
  · rw [insert_of_absent habsent, Array.size_push, h.size_eq, variety_snoc_new history text hnew]
  · rw [get?_insert_of_absent habsent, hsnoc, ← h.get?_iff]
    by_cases hindex : index = table.texts.size
    · simp [hindex, get?]
    · simp [hindex]
  · rw [indexOf?_insert_of_absent habsent]
    by_cases hother : text = other
    · subst hother
      have hnone : ∀ index, ¬ FirstInserted history text index := fun index hindex =>
        hnew ((exists_firstInserted history text).mp ⟨index, hindex⟩)
      simp [hsnoc, hnone, eq_comm]
    · simp [hsnoc, hother, h.indexOf?_iff]

/-- Every request is recorded. -/
theorem step (h : Records table history) (request : Request) :
    Records (table.serve request) (history ++ [request]) := by
  cases request with
  | insert text =>
      by_cases hin : .insert text ∈ history
      · obtain ⟨index, hindex⟩ := (exists_firstInserted history text).mpr hin
        rw [serve, insert_of_found ((h.indexOf?_iff text _).mpr ⟨index, hindex, rfl⟩)]
        refine h.snoc_known fun other hother => ?_
        rwa [← hother]
      · exact h.insert_new hin
  | indexOf text => exact h.snoc_known fun _ hrequest => nomatch hrequest
  | get index => exact h.snoc_known fun _ hrequest => nomatch hrequest

theorem get?_eq_none (h : Records table history) (index : Nat) :
    table.get? index = none ↔ variety history ≤ index := by
  rw [get?, Array.getElem?_eq_none_iff, h.size_eq]

/-- A place comes before the number of all texts. -/
theorem lt_variety (h : Records table history) {text : String} {index : Nat}
    (hindex : FirstInserted history text index) : index < variety history := by
  have hget := (h.get?_iff index text).mpr hindex
  by_contra hle
  rw [(h.get?_eq_none index).mpr (not_lt.mp hle)] at hget
  cases hget

/-- Numbers are places as long as 32 bits hold them. -/
theorem indexOf?_iff_of_fits (h : Records table history) (hfits : variety history ≤ UInt32.size)
    (text : String) (index : Nat) :
    table.indexOf? text = some index ↔ FirstInserted history text index := by
  rw [h.indexOf?_iff]
  constructor
  · rintro ⟨place, hplace, rfl⟩
    rwa [Nat.mod_eq_of_lt ((h.lt_variety hplace).trans_le hfits)]
  · intro hindex
    exact ⟨index, hindex, (Nat.mod_eq_of_lt ((h.lt_variety hindex).trans_le hfits)).symm⟩

theorem mem_texts (h : Records table history) (text : String) :
    text ∈ table.texts.toList ↔ .insert text ∈ history := by
  rw [List.mem_iff_getElem?, ← exists_firstInserted]
  refine exists_congr fun index => ?_
  rw [← h.get?_iff, get?, Array.getElem?_toList]

end Records

/-- A text stands at one place only. -/
theorem FirstInserted.unique {history : List Request} {text : String} {index index' : Nat}
    (h : FirstInserted history text index) (h' : FirstInserted history text index') : index = index' := by
  induction history using List.reverseRecOn with
  | nil => exact absurd ((exists_firstInserted [] text).mp ⟨index, h⟩) List.not_mem_nil
  | append_singleton history request ih =>
      have hmem : ∀ index, FirstInserted history text index → .insert text ∈ history :=
        fun index hindex => (exists_firstInserted history text).mp ⟨index, hindex⟩
      rcases (firstInserted_snoc history request text index).mp h with h | ⟨-, hnew, rfl⟩ <;>
        rcases (firstInserted_snoc history request text index').mp h' with h' | ⟨-, hnew', rfl⟩
      · exact ih h h'
      · exact absurd (hmem _ h) hnew'
      · exact absurd (hmem _ h') hnew
      · rfl

namespace Records

variable {table : SymbolTable} {history : List Request}

theorem nodup (h : Records table history) : table.texts.toList.Nodup := by
  rw [List.nodup_iff_getElem?_ne_getElem?]
  intro i j hij hj heq
  have htext : table.texts.toList[j]? = some table.texts.toList[j] := List.getElem?_eq_getElem hj
  have hi := (h.get?_iff i _).mp (by rw [get?, ← Array.getElem?_toList, heq, htext])
  have hj := (h.get?_iff j _).mp (by rw [get?, ← Array.getElem?_toList, htext])
  exact hij.ne (hi.unique hj)

/-- Every text that was inserted stands in the table once. -/
theorem count_texts (h : Records table history) (text : String) :
    table.texts.toList.count text = if .insert text ∈ history then 1 else 0 := by
  rw [h.nodup.count]
  exact if_congr (h.mem_texts text) rfl rfl

end Records

/-- A table that was fresh records its history. -/
theorem records_after (history : List Request) : Records (after history) history := by
  induction history using List.reverseRecOn with
  | nil => exact .fresh
  | append_singleton history request ih =>
      rw [after_snoc]
      exact ih.step request

/-! ## Numbers drawn at different times -/

/-- All numbers of a table have the same texts in a later one, and all its texts have the same numbers. -/
structure Persists (table later : SymbolTable) : Prop where
  get?_eq : ∀ index text, table.get? index = some text → later.get? index = some text
  indexOf?_eq : ∀ text index, table.indexOf? text = some index → later.indexOf? text = some index

section

variable (history later : List Request) (text : String)

theorem after_persists : Persists (after history) (after (history ++ later)) := by
  have hold := records_after history
  have hnew := records_after (history ++ later)
  refine ⟨fun index text h => ?_, fun text number h => ?_⟩
  · exact (hnew.get?_iff index text).mpr (((hold.get?_iff index text).mp h).append later)
  · obtain ⟨index, hindex, rfl⟩ := (hold.indexOf?_iff text number).mp h
    exact (hnew.indexOf?_iff text _).mpr ⟨index, hindex.append later, rfl⟩

/-- The number that an insertion answers with belongs to the text for good. -/
theorem indexOf?_after_insert :
    (after (history ++ .insert text :: later)).indexOf? text
      = some ((after history).insert text).1 := by
  have hnow : (after (history ++ [.insert text])).indexOf? text
      = some ((after history).insert text).1 := by
    rw [after_snoc]
    exact indexOf?_insert _ text
  have hlater := (after_persists (history ++ [.insert text]) later).indexOf?_eq _ _ hnow
  rwa [List.append_assoc] at hlater

/-- A repeated text and a question in front do not count. -/
example : ((after [.insert "b", .get 7, .insert "b", .insert "a"]).insert "a").1 = 1 := by
  decide +kernel

end

/-- Whatever has been asked of a fresh table, as long as no more than 2 ^ 32 different texts were inserted:
every text that was inserted stands in it once, at the number of different texts that were inserted before
it first was; numbers and texts lead to each other; what was inserted got this number, so two texts got one
number just if they are equal; and no request has changed what a number or a text leads to. -/
theorem stable_bijection {history : List Request} (hfits : variety history ≤ UInt32.size) :
    (∀ text, (after history).texts.toList.count text = if .insert text ∈ history then 1 else 0) ∧
    (∀ index text, (after history).get? index = some text ↔ FirstInserted history text index) ∧
    (∀ index, (after history).get? index = none ↔ variety history ≤ index) ∧
    (∀ text, (after history).indexOf? text = none ↔ .insert text ∉ history) ∧
    (∀ text index,
      (after history).indexOf? text = some index ↔ (after history).get? index = some text) ∧
    (∀ front text behind, history = front ++ .insert text :: behind →
      ∀ index, ((after front).insert text).1 = index ↔ FirstInserted history text index) ∧
    (∀ front text middle text' behind,
      history = front ++ .insert text :: (middle ++ .insert text' :: behind) →
        (((after front).insert text).1
          = ((after (front ++ .insert text :: middle)).insert text').1 ↔ text = text')) ∧
    ∀ front behind, history = front ++ behind → Persists (after front) (after history) := by
  have htable := records_after history
  have hnumber := htable.indexOf?_iff_of_fits hfits
  have hanswer : ∀ front text behind, history = front ++ .insert text :: behind →
      ∀ index, ((after front).insert text).1 = index ↔ FirstInserted history text index := by
    rintro front text behind rfl index
    rw [← hnumber, indexOf?_after_insert, Option.some_inj]
  refine ⟨htable.count_texts, htable.get?_iff, htable.get?_eq_none, fun _ => htable.indexOf?_eq_none,
    fun text index => (hnumber text index).trans (htable.get?_iff index text).symm, hanswer, ?_, ?_⟩
  · intro front text middle text' behind hhistory
    have hfirst := (hanswer front text _ hhistory _).mp rfl
    have hsecond := (hanswer (front ++ .insert text :: middle) text' behind (by simp [hhistory]) _).mp rfl
    constructor
    · -- one number is the place of one text
      intro heq
      rw [heq] at hfirst
      have hget := (htable.get?_iff _ _).mpr hfirst
      exact Option.some.inj (hget.symm.trans ((htable.get?_iff _ _).mpr hsecond))
    · rintro rfl
      exact hfirst.unique hsecond
  · rintro front behind rfl
    exact after_persists front behind

theorem stable_bijection_sample : variety [.insert "b", .insert "a", .insert "b"] ≤ UInt32.size ∧
    ((after [.insert "b", .insert "a", .insert "b"]).indexOf? "a" = some 1 ↔
      (after [.insert "b", .insert "a", .insert "b"]).get? 1 = some "a") ∧
    (after [.insert "b", .insert "a", .insert "b"]).indexOf? "a" = some 1 := by
  have hfits : variety [.insert "b", .insert "a", .insert "b"] ≤ UInt32.size := by decide +kernel
  obtain ⟨-, -, -, -, hinverse, -⟩ := stable_bijection hfits
  exact ⟨hfits, hinverse "a" 1, by decide +kernel⟩

/-! ## More texts than numbers -/

def numerals (n : Nat) : List Request := (List.range n).map fun i => .insert (toString i)

theorem numerals_succ (n : Nat) : numerals (n + 1) = numerals n ++ [.insert (toString n)] := by
  rw [numerals, List.range_succ, List.map_append]
  rfl

theorem not_mem_numerals (n : Nat) : .insert (toString n) ∉ numerals n := by
  intro h
  obtain ⟨i, hi, heq⟩ := List.mem_map.mp h
  obtain rfl := toString_injective (Request.insert.inj heq)
  exact absurd (List.mem_range.mp hi) (lt_irrefl i)

theorem variety_numerals (n : Nat) : variety (numerals n) = n := by
  induction n with
  | zero => rfl
  | succ n ih => rw [numerals_succ, variety_snoc_new _ _ (not_mem_numerals n), ih]

/-- Each numeral stands at the place that it spells. -/
theorem firstInserted_numerals {n i : Nat} (h : i < n) : FirstInserted (numerals n) (toString i) i := by
  induction n with
  | zero => cases h
  | succ n ih =>
      rw [numerals_succ, firstInserted_snoc]
      rcases Nat.lt_succ_iff_lt_or_eq.mp h with hlt | rfl
      · exact .inl (ih hlt)
      · exact .inr ⟨rfl, not_mem_numerals i, (variety_numerals i).symm⟩

theorem indexOf?_numerals {n i : Nat} (h : i < n) :
    (after (numerals n)).indexOf? (toString i) = some (i % UInt32.size) :=
  ((records_after _).indexOf?_iff _ _).mpr ⟨i, firstInserted_numerals h, rfl⟩

/-- One text more than there are numbers gets the number 0, which leads to the first text. -/
theorem number_used_again :
    (after (numerals (UInt32.size + 1))).indexOf? (toString UInt32.size) = some 0 ∧
      (after (numerals (UInt32.size + 1))).get? 0 = some (toString 0) ∧
      ¬ ∀ text index, (after (numerals (UInt32.size + 1))).indexOf? text = some index ↔
        (after (numerals (UInt32.size + 1))).get? index = some text := by
  have hindex := indexOf?_numerals (Nat.lt_succ_self UInt32.size)
  rw [Nat.mod_self] at hindex
  have hget := ((records_after (numerals (UInt32.size + 1))).get?_iff 0 _).mpr
    (firstInserted_numerals (Nat.succ_pos _))
  refine ⟨hindex, hget, fun hinverse => ?_⟩
  have htexts := Option.some.inj (hget.symm.trans ((hinverse _ _).mp hindex))
  exact absurd (toString_injective htexts) (by decide)

end SymbolTable

end NestedFun
