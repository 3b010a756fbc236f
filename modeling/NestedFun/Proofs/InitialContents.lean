import NestedFun.Layout.Contents
import NestedFun.Proofs.Nodes

namespace NestedFun

/-!
# Initial contents

The encoding of a variable's initializers splits into the groups that it was made from, and its
size is that of the words that these expand to.
-/

def Initializer.group (initializer : Initializer) : Group :=
  ⟨initializer.repeats, initializer.value.words⟩

def Initializer.expand (initializer : Initializer) : List Word := initializer.group.expand

def Variable.words (head : Variable) : List Word := head.initializers.flatMap Initializer.expand

theorem Initializer.expand_eq (i : Initializer) :
    i.expand = if i.value.words.isEmpty then []
      else (List.replicate i.repeats.toInt.toNat i.value.words).flatten := rfl

theorem Initializer.encode_eq (i : Initializer) :
    i.encode = i.repeats :: Word.ofInt i.value.words.length :: i.value.words := rfl

theorem Initializer.length_encode (i : Initializer) :
    i.encode.length = i.value.words.length + 2 := by
  simp [Initializer.encode]

/-- An encoding splits into its groups as long as their lengths fit words. -/
theorem splitGroups_encode (is : List Initializer)
    (h : ∀ i ∈ is, (i.value.words.length : Int) < 2147483648) :
    splitGroups (is.flatMap Initializer.encode) = is.map Initializer.group := by
  induction is with
  | nil => simp [splitGroups]
  | cons i is ih =>
      have hi := h i List.mem_cons_self
      have hlength : (Word.ofInt i.value.words.length).toInt.toNat = i.value.words.length := by
        rw [Word.toInt_ofInt (by omega) hi]
        rfl
      simp only [List.flatMap_cons, Initializer.encode_eq, List.cons_append, List.map_cons]
      rw [splitGroups, hlength, List.take_left, List.drop_left,
        ih fun j hj => h j (List.mem_cons_of_mem i hj)]
      rfl

theorem groups_ofVariable (head : Variable)
    (h : ∀ i ∈ head.initializers, (i.value.words.length : Int) < 2147483648) :
    (Contents.ofVariable head).groups = head.initializers.map Initializer.group :=
  splitGroups_encode head.initializers h

theorem expand_ofVariable (head : Variable)
    (h : ∀ i ∈ head.initializers, (i.value.words.length : Int) < 2147483648) :
    (Contents.ofVariable head).expand = head.words := by
  rw [Contents.expand, groups_ofVariable head h, List.flatMap_map]
  rfl

/-! ## Counted words -/

/-- A number that is too large for a word turns into one that is smaller by 2 ^ 32 at least. -/
theorem Word.toInt_ofInt_le {n : Int} (h : wordBound ≤ n) : (ofInt n).toInt + 4294967296 ≤ n := by
  have hvalue : (ofInt n).toInt = n.bmod (2 ^ 32) := Int32.toInt_ofInt
  have hlt := (ofInt n).toInt_lt
  have hdvd : (4294967296 : Int) ∣ n - n.bmod (2 ^ 32) := Int.dvd_self_sub_bmod
  rw [← hvalue] at hdvd
  simp only [wordBound] at h
  omega

theorem valuesTaken?_of_lt {length : Word} {left : Nat} (h : left < wordBound) :
    valuesTaken? length left = some (min length.toInt.toNat left) := by
  simp only [wordBound] at h
  rw [valuesTaken?, Word.toInt_ofInt (by omega) (by omega), if_neg (by omega)]
  congr 1
  omega

/-- Words that are too many to be counted are still too many behind a group. -/
theorem valuesTaken?_of_le {length : Word} {left count : Nat} (h : wordBound ≤ left)
    (hcount : valuesTaken? length left = some count) : wordBound + 2 ≤ left - count := by
  have hmost := Word.toInt_ofInt_le (Int.ofNat_le.mpr h)
  rw [valuesTaken?] at hcount
  split at hcount
  · cases hcount
  · cases hcount
    simp only [wordBound] at h ⊢
    omega

/-- Words that are no group and more are at most one. -/
theorem length_lt_two {words : List Word} (h : ∀ w w' rest, words = w :: w' :: rest → False) :
    words.length < 2 := by
  rcases words with _ | ⟨w, _ | ⟨w', rest⟩⟩
  · exact Nat.zero_lt_two
  · exact Nat.one_lt_two
  · exact absurd rfl (h w w' rest)

/-- Words can be split into groups while they are counted if they are not too many: a first group
starts with two words that need not be counted. -/
theorem splitGroups?_eq (words : List Word) : splitGroups? words
    = if words.length < wordBound + 2 then some (splitGroups words) else none := by
  induction words using splitGroups?.induct with
  | case1 repeats length rest ih =>
      rw [splitGroups?, splitGroups, List.length_cons, List.length_cons]
      rcases Nat.lt_or_ge rest.length wordBound with hlt | hge
      · have hshorter : (rest.drop (min length.toInt.toNat rest.length)).length < wordBound + 2 := by
          rw [List.length_drop]
          omega
        rw [if_pos (by omega), valuesTaken?_of_lt hlt, Option.bind_eq_bind, Option.bind_some, ih,
          if_pos hshorter, ← List.take_eq_take_min, ← List.drop_eq_drop_min]
        rfl
      · rw [if_neg (by omega)]
        refine Option.bind_eq_none_iff.mpr fun count hcount => ?_
        have hleft := valuesTaken?_of_le hge hcount
        rw [ih, if_neg (by rw [List.length_drop]; omega)]
        rfl
  | case2 words hshort =>
      have hlength := length_lt_two hshort
      rw [splitGroups?.eq_def, splitGroups.eq_def]
      split
      · exact absurd rfl (hshort _ _ _)
      · rw [if_pos (by omega)]

/-- Contents have groups that can be counted if their encoding has at most 2 ^ 31 + 2 words. -/
theorem Contents.groups?_eq (contents : Contents) : contents.groups?
    = if contents.words.length ≤ wordBound + 2 then some contents.groups else none := by
  rw [groups?, splitGroups?_eq, List.length_drop]
  exact if_congr (by omega) rfl rfl

theorem Contents.groups?_eq_some {contents : Contents} {groups : List Group} :
    contents.groups? = some groups ↔
      contents.words.length ≤ wordBound + 2 ∧ groups = contents.groups := by
  rw [groups?_eq, Option.ite_none_right_eq_some, Option.some_inj, eq_comm (a := groups)]

/-- No group of an encoding is longer than the encoding. -/
theorem length_words_le (is : List Initializer) :
    ∀ i ∈ is, i.value.words.length + 2 ≤ (is.flatMap Initializer.encode).length := by
  induction is with
  | nil => simp
  | cons i is ih =>
      intro j hj
      simp only [List.flatMap_cons, List.length_append, Initializer.length_encode]
      rcases List.mem_cons.mp hj with rfl | hj
      · omega
      · have := ih j hj
        omega

/-! ## Sizes -/

theorem Group.expand_eq (group : Group) :
    group.expand = if group.values.isEmpty then []
      else (List.replicate group.repeats.toInt.toNat group.values).flatten := rfl

theorem Group.length_expand (group : Group) :
    group.expand.length = group.repeats.toInt.toNat * group.values.length := by
  rw [Group.expand_eq]
  split
  · rename_i hempty
    rw [List.isEmpty_iff.mp hempty]
    rfl
  · rw [List.length_flatten, List.map_replicate, List.sum_replicate, smul_eq_mul]

theorem Group.size?_eq {group : Group} (hrepeats : 0 ≤ group.repeats.toInt) {n : Int}
    (h : group.size? = some n) : n = 4 * (group.expand.length : Int) := by
  obtain ⟨count, hcount, hn⟩ := Option.bind_eq_some_iff.mp h
  obtain ⟨rfl, _, _⟩ := checked?_eq_some hcount
  obtain ⟨rfl, _, _⟩ := checked?_eq_some hn
  have hnat : (group.repeats.toInt.toNat : Int) = group.repeats.toInt :=
    Int.toNat_of_nonneg hrepeats
  show group.repeats.toInt * group.values.length * 4 = _
  rw [Group.length_expand, Nat.cast_mul, hnat]
  ring

theorem foldlM_size (groups : List Group) (hrepeats : ∀ g ∈ groups, 0 ≤ g.repeats.toInt)
    {total n : Int}
    (h : groups.foldlM (fun total group => do checked? (total + (← group.size?))) total = some n) :
    n = total + 4 * ((groups.flatMap Group.expand).length : Int) ∧
      (total < 2147483648 → n < 2147483648) := by
  induction groups generalizing total with
  | nil =>
      cases h
      simp
  | cons g groups ih =>
      rw [List.foldlM_cons] at h
      obtain ⟨next, hnext, h⟩ := Option.bind_eq_some_iff.mp h
      obtain ⟨size, hsize, hnext⟩ := Option.bind_eq_some_iff.mp hnext
      obtain ⟨rfl, _, hlt⟩ := checked?_eq_some hnext
      have hg := Group.size?_eq (hrepeats g List.mem_cons_self) hsize
      obtain ⟨hrest, hbound⟩ := ih (fun j hj => hrepeats j (List.mem_cons_of_mem g hj)) h
      refine ⟨?_, fun _ => hbound hlt⟩
      rw [List.flatMap_cons, List.length_append, hrest, hg]
      push_cast
      ring

/-- The encoding of a variable can be counted, and the words that it expands to have a size that fits
a word. -/
structure Variable.Sized (head : Variable) : Prop where
  words_le : (Contents.ofVariable head).words.length ≤ wordBound + 2
  expand_eq : (Contents.ofVariable head).expand = head.words
  size_lt : 4 * (head.words.length : Int) < 2147483648

/-- The lengths in an encoding that can be counted fit words. -/
theorem length_words_lt {head : Variable}
    (hwords : (Contents.ofVariable head).words.length ≤ wordBound + 2) :
    ∀ i ∈ head.initializers, (i.value.words.length : Int) < 2147483648 := by
  intro i hi
  have hle := length_words_le head.initializers i hi
  simp only [Contents.ofVariable, List.length_cons, wordBound] at hwords
  omega

/-- Contents that have a size have it in words. -/
theorem Contents.size?_eq {head : Variable} (hwell : ∀ i ∈ head.initializers, i.WellFormed)
    {n : Int} (h : (ofVariable head).size? = some n) :
    n = 4 * (head.words.length : Int) ∧ head.Sized := by
  obtain ⟨groups, hgroups, hfold⟩ := Option.bind_eq_some_iff.mp h
  obtain ⟨hwords, rfl⟩ := groups?_eq_some.mp hgroups
  have hlt := length_words_lt hwords
  rw [groups_ofVariable head hlt] at hfold
  obtain ⟨hsize, hbound⟩ :=
    foldlM_size _ (List.forall_mem_map.mpr fun i hi => (hwell i hi).repeats_nonneg) hfold
  rw [zero_add, List.flatMap_map] at hsize
  exact ⟨hsize, hwords, expand_ofVariable head hlt, hsize ▸ hbound (by decide)⟩

end NestedFun
