import NestedFun.Layout.Basic
import NestedFun.Proofs.Nodes
import NestedFun.Segment.Label

namespace NestedFun

/-!
# Forms of labels

A label shows where it comes from: the labels of functions inside others have a dot, numbered
labels have a colon and no dot, and the names at the top level have neither.
-/

/-- The form of the names of globals and functions at the top level. -/
def IsPlain (label : String) : Prop := '.' ∉ label.toList ∧ ':' ∉ label.toList

/-- The form of the labels of functions inside others. -/
def IsDotted (label : String) : Prop := '.' ∈ label.toList

/-- The form of labels that are made up. -/
def IsNumbered (label : String) : Prop := '.' ∉ label.toList ∧ ':' ∈ label.toList

theorem IsName.isPlain {label : String} (h : IsName label) : IsPlain label := by
  constructor
  · intro hmem
    rcases h _ hmem with h | h
    · exact absurd h (by decide)
    · exact absurd h (by decide)
  · intro hmem
    rcases h _ hmem with h | h
    · exact absurd h (by decide)
    · exact absurd h (by decide)

theorem IsPlain.not_dotted {label : String} (h : IsPlain label) : ¬ IsDotted label := h.1

theorem IsPlain.not_numbered {label : String} (h : IsPlain label) : ¬ IsNumbered label :=
  fun hnumbered => h.2 hnumbered.2

theorem IsNumbered.not_dotted {label : String} (h : IsNumbered label) : ¬ IsDotted label := h.1

theorem isDigit_of_mem_numeral {n : Nat} {c : Char} (h : c ∈ (toString n).toList) :
    c.isDigit = true := by
  have hlist : (toString n).toList = Nat.toDigits 10 n := Nat.toList_repr
  rw [hlist] at h
  exact Nat.isDigit_of_mem_toDigits (by decide) (by decide) h

theorem toString_injective : Function.Injective (toString : Nat → String) := by
  intro m n h
  have hdigits : Nat.toDigits 10 m = Nat.toDigits 10 n := by
    rw [← Nat.toList_repr, ← Nat.toList_repr]
    exact congrArg String.toList h
  have hvalue := congrArg (fun digits => Nat.ofDigitChars 10 digits 0) hdigits
  simpa only [Nat.ofDigitChars_ten_toDigits] using hvalue

/-- A prefix without a dot that ends in a colon, and a numeral. -/
theorem isNumbered_append {front : String} (n : Nat) (hdot : '.' ∉ front.toList)
    (hcolon : ':' ∈ front.toList) : IsNumbered (front ++ toString n) := by
  constructor
  · rw [String.toList_append, List.mem_append]
    rintro (hmem | hmem)
    · exact hdot hmem
    · exact absurd (isDigit_of_mem_numeral hmem) (by decide)
  · rw [String.toList_append]
    exact List.mem_append_left _ hcolon

theorem isNumbered_dataLabel (n : Nat) : IsNumbered (dataLabel n) :=
  isNumbered_append n (by decide) (by decide)

theorem isNumbered_branchLabels (n : Nat) :
    IsNumbered (branchLabels n).condition ∧ IsNumbered (branchLabels n).positive ∧
      IsNumbered (branchLabels n).negative ∧ IsNumbered (branchLabels n).stop :=
  ⟨isNumbered_append n (by decide) (by decide), isNumbered_append n (by decide) (by decide),
    isNumbered_append n (by decide) (by decide), isNumbered_append n (by decide) (by decide)⟩

theorem isNumbered_loopLabels (n : Nat) :
    IsNumbered (loopLabels n).condition ∧ IsNumbered (loopLabels n).body ∧
      IsNumbered (loopLabels n).stop :=
  ⟨isNumbered_append n (by decide) (by decide), isNumbered_append n (by decide) (by decide),
    isNumbered_append n (by decide) (by decide)⟩

theorem numberedLabel_succ (base : String) (n : Nat) :
    numberedLabel base (n + 1) = base ++ "." ++ toString (n + 1) := rfl

theorem toList_numberedLabel (base : String) (n : Nat) :
    ∃ more, (numberedLabel base n).toList = base.toList ++ more ∧ (0 < n → '.' ∈ more) := by
  cases n with
  | zero => exact ⟨[], by simp [numberedLabel], by simp⟩
  | succ n =>
      refine ⟨'.' :: (toString (n + 1)).toList, ?_, fun _ => List.mem_cons_self⟩
      rw [numberedLabel_succ, String.toList_append, String.toList_append, List.append_assoc]
      rfl

theorem IsDotted.numberedLabel {base : String} (h : IsDotted base) (n : Nat) :
    IsDotted (numberedLabel base n) := by
  obtain ⟨more, hmore, _⟩ := toList_numberedLabel base n
  rw [IsDotted, hmore]
  exact List.mem_append_left _ h

theorem isDotted_numberedLabel (base : String) {n : Nat} (h : 0 < n) :
    IsDotted (numberedLabel base n) := by
  obtain ⟨more, hmore, hdot⟩ := toList_numberedLabel base n
  rw [IsDotted, hmore]
  exact List.mem_append_right _ (hdot h)

/-- The labels to try for one base are all different. -/
theorem numberedLabel_injective (base : String) : Function.Injective (numberedLabel base) := by
  intro m n h
  cases m with
  | zero =>
      cases n with
      | zero => rfl
      | succ n =>
          have hlength := congrArg (fun s : String => s.toList.length) h
          rw [numberedLabel_succ] at hlength
          simp [numberedLabel, String.toList_append] at hlength
  | succ m =>
      cases n with
      | zero =>
          have hlength := congrArg (fun s : String => s.toList.length) h
          rw [numberedLabel_succ] at hlength
          simp [numberedLabel, String.toList_append] at hlength
      | succ n =>
          rw [numberedLabel_succ, numberedLabel_succ] at h
          have hlist := congrArg String.toList h
          simp only [String.toList_append] at hlist
          exact toString_injective (String.toList_inj.mp (List.append_cancel_left hlist))

/-- The label chosen for a base is one of those to try, and not taken. -/
theorem freeLabel_spec (base : String) (taken : List String) (n : Nat) :
    ∃ k, n ≤ k ∧ freeLabel base taken n = numberedLabel base k ∧
      (∀ label ∈ taken, (∀ j, label = numberedLabel base j → n ≤ j) →
        freeLabel base taken n ≠ label) ∧
      (numberedLabel base n ∉ taken → k = n) := by
  induction taken, n using freeLabel.induct base with
  | case1 taken n label hmem ih =>
      rw [freeLabel]
      simp only [label] at hmem ih
      obtain ⟨k, hk, hlabel, hfree, _⟩ := ih
      refine ⟨k, by omega, by rw [if_pos hmem, hlabel], ?_, fun h => absurd hmem h⟩
      intro other hother hbound heq
      rw [if_pos hmem] at heq
      have hne : other ≠ numberedLabel base n := by
        rintro rfl
        rw [hlabel] at heq
        have := numberedLabel_injective base heq
        omega
      refine hfree other ((List.mem_erase_of_ne hne).mpr hother) (fun j hj => ?_) heq
      have h₁ := hbound j hj
      have h₂ : j ≠ n := by
        rintro rfl
        exact hne hj
      omega
  | case2 taken n label hmem =>
      rw [freeLabel]
      simp only [label] at hmem
      refine ⟨n, le_refl n, by rw [if_neg hmem], ?_, fun _ => rfl⟩
      intro other hother _ heq
      rw [if_neg hmem] at heq
      exact hmem (heq ▸ hother)

/-- All labels that are tried before the one chosen are taken. -/
theorem freeLabel_first (base : String) (taken : List String) (n : Nat) :
    ∃ k, n ≤ k ∧ freeLabel base taken n = numberedLabel base k ∧
      ∀ j, n ≤ j → j < k → numberedLabel base j ∈ taken := by
  induction taken, n using freeLabel.induct base with
  | case1 taken n label hmem ih =>
      rw [freeLabel]
      simp only [label] at hmem ih
      obtain ⟨k, hk, hlabel, hbefore⟩ := ih
      refine ⟨k, by omega, by rw [if_pos hmem, hlabel], fun j hj hjk => ?_⟩
      rcases Nat.eq_or_lt_of_le hj with rfl | hj
      · exact hmem
      · exact List.mem_of_mem_erase (hbefore j hj hjk)
  | case2 taken n label hmem =>
      rw [freeLabel]
      simp only [label] at hmem
      exact ⟨n, le_rfl, by rw [if_neg hmem], fun j hj hjn => absurd hj (by omega)⟩

theorem freeLabel_not_mem (base : String) (taken : List String) :
    freeLabel base taken 0 ∉ taken := by
  intro hmem
  obtain ⟨k, _, _, hfree, _⟩ := freeLabel_spec base taken 0
  exact hfree _ hmem (fun _ _ => Nat.zero_le _) rfl

theorem freeLabel_of_not_mem {base : String} {taken : List String} (h : base ∉ taken) :
    freeLabel base taken 0 = base := by
  obtain ⟨k, _, hlabel, _, hk⟩ := freeLabel_spec base taken 0
  rw [hlabel, hk h]
  rfl

theorem IsDotted.freeLabel {base : String} (h : IsDotted base) (taken : List String) :
    IsDotted (freeLabel base taken 0) := by
  obtain ⟨k, _, hlabel, _⟩ := freeLabel_spec base taken 0
  rw [hlabel]
  exact h.numberedLabel k

/-- The labels of functions inside another have a dot. -/
theorem isDotted_baseLabel (owner : Owner) (name : String) :
    IsDotted (baseLabel (some owner) name) := by
  show '.' ∈ (toString owner.label ++ "." ++ toString name).toList
  rw [String.toList_append, String.toList_append]
  simp

end NestedFun
