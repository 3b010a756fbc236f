import NestedFun.Proofs.LayoutTables
import NestedFun.Proofs.LongConstants
import NestedFun.Proofs.ReadDefinitions
import NestedFun.Scope.Basic

namespace NestedFun

/-!
# Sizes of variables

The storage that scopes reserve for a variable, the size of its encoding, the words that these
expand to and the size in the layout agree. For encodings in general the size is that of the words
as long as no group is repeated a negative number of times.
-/

/-! ## Splitting words into groups -/

/-- How words fall into groups: each has a count, a length and as many of the words behind these as
the length says and there are. No group starts with fewer than two words. -/
inductive SplitsInto : List Word → List Group → Prop
  | short {words : List Word} (h : words.length < 2) : SplitsInto words []
  | group {repeats length : Word} {values rest : List Word} {groups : List Group}
      (hlength : values.length = min length.toInt.toNat (values ++ rest).length)
      (h : SplitsInto rest groups) :
      SplitsInto (repeats :: length :: (values ++ rest)) (⟨repeats, values⟩ :: groups)

theorem splitsInto_splitGroups (words : List Word) : SplitsInto words (splitGroups words) := by
  induction words using splitGroups.induct with
  | case1 repeats length rest count ih =>
      have h : SplitsInto (repeats :: length :: (rest.take count ++ rest.drop count))
          (⟨repeats, rest.take count⟩ :: splitGroups (rest.drop count)) :=
        .group (by rw [List.take_append_drop, List.length_take]) ih
      rw [splitGroups]
      rwa [List.take_append_drop] at h
  | case2 words hshort =>
      rw [splitGroups.eq_def]
      split
      · exact absurd rfl (hshort _ _ _)
      · exact .short (length_lt_two hshort)

/-- Words fall into groups in one way only. -/
theorem SplitsInto.eq_splitGroups {words : List Word} {groups : List Group}
    (h : SplitsInto words groups) : groups = splitGroups words := by
  induction h with
  | short h =>
      rename_i words
      rw [splitGroups.eq_def]
      split
      · simp only [List.length_cons] at h
        omega
      · rfl
  | @group repeats length values rest groups hlength h ih =>
      have hsplit : (values ++ rest).take length.toInt.toNat = values ∧
          (values ++ rest).drop length.toInt.toNat = rest := by
        rw [List.length_append] at hlength
        rcases Nat.le_total length.toInt.toNat (values.length + rest.length) with hle | hle
        · rw [Nat.min_eq_left hle] at hlength
          exact ⟨List.take_left' hlength, List.drop_left' hlength⟩
        · rw [Nat.min_eq_right hle] at hlength
          have hrest : rest = [] := List.eq_nil_of_length_eq_zero (by omega)
          subst hrest
          rw [List.append_nil]
          exact ⟨List.take_of_length_le hle, List.drop_of_length_le hle⟩
      rw [splitGroups, hsplit.1, hsplit.2, ih]

theorem splitsInto_iff (words : List Word) (groups : List Group) :
    SplitsInto words groups ↔ groups = splitGroups words :=
  ⟨SplitsInto.eq_splitGroups, fun h => h ▸ splitsInto_splitGroups words⟩

/-! ## Storage -/

theorem Initializer.storage_eq (i : Initializer) : i.storage = 4 * i.expand.length := by
  rw [Initializer.storage, Initializer.expand, Group.length_expand, mul_comm]
  rfl

/-- The storage that is reserved is that of the words. -/
theorem Variable.storage_eq (head : Variable) : head.storage = 4 * head.words.length := by
  rw [Variable.storage, Variable.words]
  induction head.initializers with
  | nil => rfl
  | cons i is ih =>
      rw [List.foldr_cons, ih, i.storage_eq, List.flatMap_cons, List.length_append]
      ring

theorem Group.size?_of_le {group : Group} (hrepeats : 0 ≤ group.repeats.toInt)
    (hle : 4 * group.expand.length ≤ maxStorage) :
    group.size? = some (4 * (group.expand.length : Int)) := by
  have hcount : group.repeats.toInt * group.values.length = (group.expand.length : Int) := by
    rw [Group.length_expand, Nat.cast_mul, Int.toNat_of_nonneg hrepeats]
  rw [maxStorage] at hle
  refine Option.bind_eq_some_iff.mpr ⟨(group.expand.length : Int), ?_, ?_⟩
  · rw [hcount, checked?_of_fits (by omega) (by omega)]
  · rw [wordSize, Nat.cast_ofNat, checked?_of_fits (by omega) (by omega), mul_comm]

/-- Sizes up to the limit of storage can be summed up. -/
theorem foldlM_size_of_le (groups : List Group) (hrepeats : ∀ g ∈ groups, 0 ≤ g.repeats.toInt)
    {n : Nat} (hle : n + 4 * (groups.flatMap Group.expand).length ≤ maxStorage) :
    groups.foldlM (fun total group => do checked? (total + (← group.size?))) (n : Int)
      = some ((n + 4 * (groups.flatMap Group.expand).length : Nat) : Int) := by
  induction groups generalizing n with
  | nil => rfl
  | cons g groups ih =>
      rw [List.flatMap_cons, List.length_append] at hle ⊢
      have hfits : 4 * g.expand.length ≤ maxStorage := by omega
      have hsize := Group.size?_of_le (hrepeats g List.mem_cons_self) hfits
      have hrest := ih (n := n + 4 * g.expand.length)
        (fun j hj => hrepeats j (List.mem_cons_of_mem g hj)) (by omega)
      rw [maxStorage] at hle
      rw [List.foldlM_cons]
      refine Option.bind_eq_some_iff.mpr ⟨((n + 4 * g.expand.length : Nat) : Int),
        Option.bind_eq_some_iff.mpr ⟨_, hsize, ?_⟩, ?_⟩
      · rw [checked?_of_fits (by omega) (by omega)]
        push_cast
        rfl
      · rw [hrest]
        congr 2
        ring

/-- A variable that storage can be reserved for has a size if its encoding can be counted. -/
theorem Contents.size?_ofVariable {head : Variable} (hwell : ∀ i ∈ head.initializers, i.WellFormed)
    (hwords : (ofVariable head).words.length ≤ wordBound + 2) (hle : head.storage ≤ maxStorage) :
    (ofVariable head).size? = some (head.storage : Int) := by
  have hgroups := groups_ofVariable head (length_words_lt hwords)
  have hexpand : (head.initializers.map Initializer.group).flatMap Group.expand = head.words := by
    rw [List.flatMap_map]
    rfl
  have hsize := foldlM_size_of_le (n := 0) (head.initializers.map Initializer.group)
    (List.forall_mem_map.mpr fun i hi => (hwell i hi).repeats_nonneg)
    (by rw [hexpand, ← head.storage_eq, Nat.zero_add]; exact hle)
  rw [hexpand, ← head.storage_eq, Nat.zero_add] at hsize
  exact Option.bind_eq_some_iff.mpr ⟨_, groups?_eq_some.mpr ⟨hwords, hgroups.symm⟩, hsize⟩

/-! ## Agreement -/

/-- All parts agree on how a variable of a program starts and what size it has. -/
structure Variable.SizesAgree (head : Variable) (program : Program) : Prop where
  groups?_eq : (Contents.ofVariable head).groups?
    = some (head.initializers.map fun i => ⟨i.repeats, i.value.words⟩)
  size?_eq : head.storage ≤ maxStorage →
    (Contents.ofVariable head).size? = some (head.storage : Int)
  length_expand : 4 * (Contents.ofVariable head).expand.length = head.storage
  access : ∀ layout, program.layOut = .ok layout →
    ∃ access, layout.accesses[head.id]? = some access ∧ access.size = head.storage

/-- The layout gives every variable an access of its size. -/
theorem Program.Numbered.access_size {program : Program} {count : Nat} {layout : Layout}
    (h : program.Numbered count) (hlayout : program.layOut = .ok layout) {head : Variable}
    (hhead : .var head ∈ definitionsInside program) :
    ∃ access, layout.accesses[head.id]? = some access ∧
      (Contents.ofVariable head).size? = some access.size := by
  obtain ⟨state, hstate, hlayout⟩ := bind_eq_ok hlayout
  cases hlayout
  have hfills := layOutDefinitions_fills program hstate
  have hmem : head.id ∈ state.layout.accesses :=
    (hfills.mem_accesses head.id).mpr (.inr ⟨_, hhead, List.mem_singleton_self _⟩)
  obtain ⟨access, haccess⟩ := Option.isSome_iff_exists.mp (Std.TreeMap.isSome_getElem?_iff_mem.mpr hmem)
  rcases hfills.size_access head.id access haccess with hold | ⟨d, hd, hid, hsize⟩
  · simp at hold
  · cases h.stored_unique hd hhead hid (List.mem_singleton_self _)
    exact ⟨access, haccess, hsize⟩

/-- What was read agrees in all parts just if the encoding can be counted. -/
theorem Variable.sizesAgree_iff {text : List Char} {program : Program}
    (h : Program.parse text = .ok program) {head : Variable}
    (hhead : .var head ∈ definitionsInside program) :
    head.SizesAgree program ↔ (Contents.ofVariable head).words.length ≤ wordBound + 2 := by
  refine ⟨fun hagree => (Contents.groups?_eq_some.mp hagree.groups?_eq).1, fun hwords => ?_⟩
  have hwell := Program.wellFormed_initializers h hhead
  have hlengths := length_words_lt hwords
  have hgroups := groups_ofVariable head hlengths
  refine ⟨Contents.groups?_eq_some.mpr ⟨hwords, hgroups.symm⟩, Contents.size?_ofVariable hwell hwords,
    ?_, ?_⟩
  · rw [expand_ofVariable head hlengths, head.storage_eq]
  · intro layout hlayout
    obtain ⟨r, -, hnumbered⟩ := Program.numbered h
    obtain ⟨access, haccess, hsize⟩ := hnumbered.access_size hlayout hhead
    refine ⟨access, haccess, ?_⟩
    rw [(Contents.size?_eq hwell hsize).1, head.storage_eq]
    push_cast
    rfl

/-- In every program that was read the sizes of a variable agree as long as its encoding can be
counted. Any words at all that can be counted fall into groups in just one way, and if no group is
repeated a negative number of times, their size is that of the words they expand to. Up to 2 ^ 31 + 2
words can be counted. -/
theorem Variable.sizes_agree :
    (∀ (text : List Char) (program : Program), Program.parse text = .ok program →
      ∀ head : Variable, .var head ∈ definitionsInside program →
        (head.SizesAgree program ↔ (Contents.ofVariable head).words.length ≤ wordBound + 2)) ∧
    ∀ contents : Contents,
      (∀ groups, contents.groups? = some groups ↔
        contents.words.length ≤ wordBound + 2 ∧ SplitsInto (contents.words.drop 1) groups) ∧
      ((∀ g ∈ contents.groups, 0 ≤ g.repeats.toInt) → ∀ size, contents.size? = some size →
        size = 4 * (contents.expand.length : Int)) := by
  refine ⟨fun text program h head hhead => Variable.sizesAgree_iff h hhead,
    fun contents => ⟨fun groups => ?_, fun hrepeats size hsize => ?_⟩⟩
  · rw [splitsInto_iff]
    exact Contents.groups?_eq_some
  · obtain ⟨groups, hgroups, hfold⟩ := Option.bind_eq_some_iff.mp hsize
    obtain ⟨-, rfl⟩ := Contents.groups?_eq_some.mp hgroups
    have htotal := (foldlM_size contents.groups hrepeats hfold).1
    rwa [zero_add] at htotal

/-- A variable that starts with a word repeated, a character and a number that is not repeated even
once. -/
theorem Variable.sizes_agree_sample : ∃ program head,
    Program.parse "var x = 3 * \"ab\", 'c', 0 * 7 fun main() = x".toList = .ok program ∧
      .var head ∈ definitionsInside program ∧ head.SizesAgree program ∧ head.storage = 28 ∧
      ∃ layout, program.layOut = .ok layout := by
  have hchecks : ((Program.parse "var x = 3 * \"ab\", 'c', 0 * 7 fun main() = x".toList).toOption.any
      fun program => program.layOut.toOption.isSome &&
        program.any fun d => decide (d.storage = 28)) = true := by
    decide +kernel
  obtain ⟨program, hread, hprogram⟩ := (Option.any_eq_true _ _).mp hchecks
  have hparse := toOption_eq_some hread
  obtain ⟨hlayOut, hany⟩ := Bool.and_eq_true_iff.mp hprogram
  obtain ⟨layout, hlayout⟩ := Option.isSome_iff_exists.mp hlayOut
  obtain ⟨d, hd, hstorage⟩ := List.any_eq_true.mp hany
  cases d with
  | func head body => cases of_decide_eq_true hstorage
  | var head =>
      have hinside : .var head ∈ definitionsInside program := mem_definitionsInside hd
      have hwords : 2 * (Contents.ofVariable head).words.length ≤ 3 * 43 :=
        Program.length_words_of_parse hparse hinside
      have hagree := Variable.sizes_agree.1 _ program hparse head hinside
      exact ⟨program, head, hparse, hinside, hagree.mpr (by rw [wordBound]; omega),
        of_decide_eq_true hstorage, layout, toOption_eq_some hlayout⟩

/-- The sizes of a variable without storage disagree if its encoding is too long to be counted. -/
theorem Variable.sizes_disagree : ∃ program head,
    Program.parse (idleText (longConstant wordBound)) = .ok program ∧
      .var head ∈ definitionsInside program ∧ head.storage = 0 ∧
      (Contents.ofVariable head).groups? = none ∧ (Contents.ofVariable head).size? = none := by
  obtain ⟨head, main, hparse, hidle⟩ := Program.parse_idleText (decodes_longConstant wordBound)
  have hlength := hidle.length_words
  rw [List.length_replicate] at hlength
  have hgroups : (Contents.ofVariable head).groups? = none := by
    rw [Contents.groups?_eq, if_neg (by omega)]
  exact ⟨_, head, hparse, mem_definitionsInside List.mem_cons_self, hidle.storage_eq, hgroups,
    Option.bind_eq_none_iff.mpr (by simp [hgroups])⟩

end NestedFun
