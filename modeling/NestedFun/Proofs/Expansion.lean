import NestedFun.Proofs.InitialContents
import NestedFun.Proofs.MachineSteps

namespace NestedFun

/-!
# Expanding initial contents

The machine expands the encoding of a variable's initializers in memory to the words that the
initializers stand for.
-/

namespace Exec

theorem copyWords_run (ws : List Word) {s : State} {source target : Int}
    (hws : s.memory.HasWords source ws) (hsource : s.memory.dataStart ≤ source)
    (hsource' : source + 4 * ws.length ≤ s.memory.size)
    (htarget : s.memory.dataStart ≤ target)
    (htarget' : target + 4 * ws.length ≤ s.memory.size)
    (happart : source + 4 * ws.length ≤ target ∨ target + 4 * ws.length ≤ source)
    (hsize : s.memory.size < 2147483648) :
    copyWords ws.length (.ofInt source) (.ofInt target) s
      = .ok (.ofInt (target + 4 * ws.length)) (s.withMemory (s.memory.storeAll target ws)) := by
  induction ws generalizing s source target with
  | nil =>
      simp only [List.length_nil, copyWords, Memory.storeAll]
      norm_num
      rfl
  | cons w ws ih =>
      simp only [List.length_cons, Nat.cast_add, Nat.cast_one] at *
      have hread := read_at hsource (by omega) hsize
      have hwrite := write_at w htarget (by omega) hsize
      have hws' : (s.memory.store target w).HasWords (source + 4) ws :=
        hws.2.of_differs (.store s.memory w (by omega)) (by omega) fun i hi => by
          simp only [Memory.Block] at *
          omega
      have hrest := @ih (s.withMemory (s.memory.store target w)) (source + 4) (target + 4) hws'
        (by simp only [State.withMemory, Memory.dataStart_store]; omega)
        (by simp only [State.withMemory, Memory.size_store]; omega)
        (by simp only [State.withMemory, Memory.dataStart_store]; omega)
        (by simp only [State.withMemory, Memory.size_store]; omega) (by omega)
        (by simp only [State.withMemory, Memory.size_store]; omega)
      rw [copyWords, bind_ok hread, hws.1, bind_ok hwrite, Word.after_one, Word.after_one, hrest]
      rw [show target + 4 + 4 * (ws.length : Int) = target + 4 * (ws.length + 1) by ring]
      rfl

theorem copyRepeated_run (ws : List Word) (n : Nat) {s : State} {source target : Int}
    (hws : s.memory.HasWords source ws) (hsource : s.memory.dataStart ≤ source)
    (hsource' : source + 4 * ws.length ≤ s.memory.size)
    (htarget : s.memory.dataStart ≤ target)
    (htarget' : target + 4 * (List.replicate n ws).flatten.length ≤ s.memory.size)
    (happart : source + 4 * ws.length ≤ target ∨
      target + 4 * (List.replicate n ws).flatten.length ≤ source)
    (hsize : s.memory.size < 2147483648) :
    copyRepeated ws.length (.ofInt source) n (.ofInt target) s
      = .ok (.ofInt (target + 4 * (List.replicate n ws).flatten.length))
          (s.withMemory (s.memory.storeAll target (List.replicate n ws).flatten)) := by
  induction n generalizing s target with
  | zero =>
      simp only [List.replicate_zero, List.flatten_nil, List.length_nil, copyRepeated,
        Memory.storeAll]
      norm_num
      rfl
  | succ n ih =>
      rw [List.replicate_succ, List.flatten_cons] at *
      simp only [List.length_append, Nat.cast_add] at *
      have hcopy := copyWords_run ws hws hsource hsource' htarget (by omega) (by omega) hsize
      have hdiffers := Memory.differs_storeAll s.memory (a := target) ws (by omega)
      have hws' : (s.memory.storeAll target ws).HasWords source ws :=
        hws.of_differs hdiffers (by omega) fun i hi => by
          simp only [Memory.Block] at *
          omega
      have hsz : (s.memory.storeAll target ws).size = s.memory.size := hdiffers.size_eq
      have hds : (s.memory.storeAll target ws).dataStart = s.memory.dataStart :=
        hdiffers.dataStart_eq
      have hrest := @ih (s.withMemory (s.memory.storeAll target ws)) (target + 4 * ws.length) hws'
        (by simp only [State.withMemory, hds]; omega)
        (by simp only [State.withMemory, hsz]; omega)
        (by simp only [State.withMemory, hds]; omega)
        (by simp only [State.withMemory, hsz]; omega) (by omega)
        (by simp only [State.withMemory, hsz]; omega)
      rw [copyRepeated, bind_ok hcopy, hrest, Memory.storeAll_append, add_assoc, ← mul_add]
      rfl

/-- How often the machine copies a group's values, and what these copies are. -/
theorem copies_eq_expand (i : Initializer) (h : (i.value.words.length : Int) < 2147483648) :
    (List.replicate (if Word.ofInt i.value.words.length ≤ 0 then 0 else i.repeats.toInt.toNat)
      i.value.words).flatten = i.expand := by
  rw [Initializer.expand_eq]
  have hle : Word.ofInt i.value.words.length ≤ 0 ↔ i.value.words = [] := by
    rw [Int32.le_iff_toInt_le, Word.toInt_ofInt (by omega) h, ← List.length_eq_zero_iff]
    show (i.value.words.length : Int) ≤ 0 ↔ _
    omega
  by_cases hempty : i.value.words = []
  · rw [if_pos (hle.mpr hempty), if_pos (by simp [hempty])]
    simp
  · rw [if_neg fun h => hempty (hle.mp h), if_neg (by simpa using hempty)]

theorem expandGroups_run (is : List Initializer) {s : State} {source target : Int}
    (hws : s.memory.HasWords source (is.flatMap Initializer.encode))
    (hsource : s.memory.dataStart ≤ source)
    (hsource' : source + 4 * (is.flatMap Initializer.encode).length ≤ s.memory.size)
    (htarget : s.memory.dataStart ≤ target)
    (htarget' : target + 4 * (is.flatMap Initializer.expand).length ≤ s.memory.size)
    (happart : source + 4 * (is.flatMap Initializer.encode).length ≤ target ∨
      target + 4 * (is.flatMap Initializer.expand).length ≤ source)
    (hsize : s.memory.size < 2147483648) :
    expandGroups is.length (.ofInt source) (.ofInt target) s
      = .ok () (s.withMemory (s.memory.storeAll target (is.flatMap Initializer.expand))) := by
  induction is generalizing s source target with
  | nil => rfl
  | cons i is ih =>
      simp only [List.flatMap_cons, List.length_append, Initializer.length_encode, Nat.cast_add,
        Nat.cast_ofNat] at *
      rw [Memory.hasWords_append, Initializer.length_encode, Initializer.encode_eq,
        Memory.hasWords_cons, Memory.hasWords_cons] at hws
      obtain ⟨⟨hrepeats, hlength, hvalues⟩, hothers⟩ := hws
      push_cast at hothers
      have hlt : (i.value.words.length : Int) < 2147483648 := by omega
      have hread₁ := read_at hsource (by omega) hsize
      have hread₂ := read_at (s := s) (a := source + 4) (by omega) (by omega) hsize
      have hcopies := copies_eq_expand i hlt
      have hcopy := @copyRepeated_run i.value.words
        (if Word.ofInt i.value.words.length ≤ 0 then 0 else i.repeats.toInt.toNat)
        s (source + 8) target
        (by rw [show source + 8 = source + 4 + 4 by ring]; exact hvalues) (by omega) (by omega)
        htarget (by rw [hcopies]; omega) (by rw [hcopies]; omega) hsize
      rw [hcopies] at hcopy
      have hdiffers := Memory.differs_storeAll s.memory (a := target) i.expand (by omega)
      have hsz : (s.memory.storeAll target i.expand).size = s.memory.size := hdiffers.size_eq
      have hds : (s.memory.storeAll target i.expand).dataStart = s.memory.dataStart :=
        hdiffers.dataStart_eq
      have hothers' := hothers.of_differs hdiffers (by omega) fun j hj => by
        simp only [Memory.Block] at *
        omega
      have hrest := @ih (s.withMemory (s.memory.storeAll target i.expand)) _
        (target + 4 * i.expand.length) hothers'
        (by simp only [State.withMemory, hds]; omega)
        (by simp only [State.withMemory, hsz]; omega)
        (by simp only [State.withMemory, hds]; omega)
        (by simp only [State.withMemory, hsz]; omega) (by omega)
        (by simp only [State.withMemory, hsz]; omega)
      have hnat : (Word.ofInt i.value.words.length).toInt.toNat = i.value.words.length := by
        rw [Word.toInt_ofInt (by omega) hlt]
        rfl
      rw [List.length_cons, expandGroups, bind_ok hread₁, hrepeats, Word.after_one,
        bind_ok hread₂, hlength, Word.after_two, hnat, bind_ok hcopy, Word.after_ofInt,
        Memory.storeAll_append,
        show source + 8 + (i.value.words.length : Int) * 4
          = source + 4 * (i.value.words.length + 2) by ring]
      exact hrest

/-- Groups that stand for no words leave the memory as it is, wherever they are expanded to. -/
theorem expandGroups_of_empty (is : List Initializer) {s : State} {source : Int} (target : Word)
    (hempty : is.flatMap Initializer.expand = [])
    (hws : s.memory.HasWords source (is.flatMap Initializer.encode))
    (hsource : s.memory.dataStart ≤ source)
    (hsource' : source + 4 * (is.flatMap Initializer.encode).length ≤ s.memory.size)
    (hsize : s.memory.size < 2147483648) :
    expandGroups is.length (.ofInt source) target s = .ok () s := by
  induction is generalizing source with
  | nil => rfl
  | cons i is ih =>
      simp only [List.flatMap_cons, List.length_append, Initializer.length_encode, Nat.cast_add,
        Nat.cast_ofNat, List.append_eq_nil_iff] at *
      rw [Memory.hasWords_append, Initializer.length_encode, Initializer.encode_eq,
        Memory.hasWords_cons, Memory.hasWords_cons] at hws
      obtain ⟨⟨hrepeats, hlength, -⟩, hothers⟩ := hws
      push_cast at hothers
      have hlt : (i.value.words.length : Int) < 2147483648 := by omega
      have hread₁ := read_at hsource (by omega) hsize
      have hread₂ := read_at (s := s) (a := source + 4) (by omega) (by omega) hsize
      -- an empty group is copied not even once
      have hcopies := copies_eq_expand i hlt
      rw [hempty.1] at hcopies
      have hnone : (if Word.ofInt i.value.words.length ≤ 0 then 0 else i.repeats.toInt.toNat) = 0 := by
        split
        · rfl
        · rename_i hpos
          rw [if_neg hpos] at hcopies
          by_contra hne
          have hnil : i.value.words = [] := List.flatten_eq_nil_iff.mp hcopies _
            (List.mem_replicate.mpr ⟨hne, rfl⟩)
          rw [hnil] at hpos
          exact hpos (by decide)
      have hnat : (Word.ofInt i.value.words.length).toInt.toNat = i.value.words.length := by
        rw [Word.toInt_ofInt (by omega) hlt]
        rfl
      rw [List.length_cons, expandGroups, bind_ok hread₁, hrepeats, Word.after_one,
        bind_ok hread₂, hlength, Word.after_two, hnat, hnone, Word.after_ofInt,
        show source + 8 + (i.value.words.length : Int) * 4
          = source + 4 * (i.value.words.length + 2) by ring]
      exact ih hempty.2 hothers (by omega) (by omega)

theorem length_le_flatMap_encode (is : List Initializer) :
    is.length ≤ (is.flatMap Initializer.encode).length := by
  induction is with
  | nil => simp
  | cons i is ih =>
      simp only [List.length_cons, List.flatMap_cons, List.length_append, Initializer.length_encode]
      omega

/-- Expanding an encoding starts with the number of its groups. -/
theorem expand_eq {head : Variable} {s : State} {source : Int} (target : Word)
    (hwords : s.memory.HasWords source (Contents.ofVariable head).words)
    (hsource : s.memory.dataStart ≤ source)
    (hsource' : source + 4 * (Contents.ofVariable head).words.length ≤ s.memory.size)
    (hsize : s.memory.size < 2147483648) :
    expand target (.ofInt source) s
      = expandGroups head.initializers.length (.ofInt (source + 4)) target s := by
  have hle := length_le_flatMap_encode head.initializers
  simp only [Contents.ofVariable, List.length_cons, Memory.hasWords_cons, Nat.cast_add,
    Nat.cast_one] at hwords hsource'
  have hread := read_at hsource (by omega) hsize
  have hnat : (Word.ofInt head.initializers.length).toInt.toNat = head.initializers.length := by
    rw [Word.toInt_ofInt (by omega) (by omega)]
    rfl
  rw [expand, bind_ok hread, hwords.1, hnat, Word.after_one]

/-- An encoding is expanded to a place apart from it. -/
theorem expand_run {head : Variable} {s : State} {source target : Int}
    (hwords : s.memory.HasWords source (Contents.ofVariable head).words)
    (hsource : s.memory.dataStart ≤ source)
    (hsource' : source + 4 * (Contents.ofVariable head).words.length ≤ s.memory.size)
    (htarget : s.memory.dataStart ≤ target)
    (htarget' : target + 4 * head.words.length ≤ s.memory.size)
    (happart : source + 4 * (Contents.ofVariable head).words.length ≤ target ∨
      target + 4 * head.words.length ≤ source)
    (hsize : s.memory.size < 2147483648) :
    expand (.ofInt target) (.ofInt source) s
      = .ok () (s.withMemory (s.memory.storeAll target head.words)) := by
  rw [expand_eq _ hwords hsource hsource' hsize]
  simp only [Contents.ofVariable, List.length_cons, Memory.hasWords_cons, Nat.cast_add,
    Nat.cast_one] at hwords hsource' happart
  exact expandGroups_run head.initializers hwords.2 (by omega) (by omega) htarget htarget'
    (happart.imp (by omega) (by
      show target + 4 * (head.words.length : Int) ≤ source → target + 4 * (head.words.length : Int) ≤ _
      omega)) hsize

/-- A variable is set up in memory from the encoding of its initializers. -/
theorem perform_init {image : Image} {s : State} {sp a d : Int} (h : s.StackAt sp)
    (hroom : sp + 8 ≤ s.memory.size) {head : Variable}
    (ha : s.memory.word sp = .ofInt a) (hd : s.memory.word (sp + 4) = .ofInt d)
    (hwords : s.memory.HasWords a (Contents.ofVariable head).words)
    (hstart : s.memory.dataStart ≤ a) (happart : a + 4 * (Contents.ofVariable head).words.length ≤ d)
    (hstop : d + 4 * head.words.length ≤ s.memory.size) :
    perform image .init s = .ok none
      { s with memory := s.memory.storeAll d head.words, sp := .ofInt (sp + 8) } := by
  have hheap := h.heap_le
  have hpop := pop_withTop h (a := sp + 4) (b := sp + 8) (by omega) (by omega) hroom
  have hexpand : expand (.ofInt d) (.ofInt a) (s.withTop (sp + 8)) = .ok ()
      ((s.withTop (sp + 8)).withMemory (s.memory.storeAll d head.words)) :=
    expand_run hwords hstart (by show _ ≤ (s.memory.size : Int); omega)
      (by show (s.memory.dataStart : Int) ≤ d; omega) hstop (.inl happart) h.size_lt
  show (pop >>= fun encoding => _) s = _
  rw [bind_ok (pop_run h (by omega)), ha, bind_ok hpop, hd]
  exact bind_ok hexpand

end Exec

end NestedFun
