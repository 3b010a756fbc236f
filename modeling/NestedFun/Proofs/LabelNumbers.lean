import NestedFun.Proofs.LabelForms
import NestedFun.Proofs.Coding

namespace NestedFun

/-!
# Labels of code and data

Which labels code and data define and name, and the labels that are made with a number. No two of
those are the same.
-/

def Instruction.label? : Instruction → Option String
  | label l => some l
  | _ => none

def Instruction.name? : Instruction → Option String
  | name l => some l
  | _ => none

def Datum.label? : Datum → Option String
  | label l => some l
  | _ => none

def Code.labels (code : Code) : List String := code.filterMap fun i => i.item.label?

def Code.names (code : Code) : List String := code.filterMap fun i => i.item.name?

def Data.labels (data : Data) : List String := data.filterMap fun d => d.item.label?

section

variable (span : Span)

@[simp] theorem Code.labels_append (a b : Code) : Code.labels (a ++ b) = a.labels ++ b.labels :=
  List.filterMap_append

@[simp] theorem Code.names_append (a b : Code) : Code.names (a ++ b) = a.names ++ b.names :=
  List.filterMap_append

@[simp] theorem Data.labels_append (a b : Data) : Data.labels (a ++ b) = a.labels ++ b.labels :=
  List.filterMap_append

theorem Code.labels_cons (i : Located Instruction) (code : Code) :
    Code.labels (i :: code) = i.item.label?.toList ++ Code.labels code := by
  rw [labels, List.filterMap_cons]
  cases i.item.label? <;> rfl

theorem Data.labels_cons (d : Located Datum) (data : Data) :
    Data.labels (d :: data) = d.item.label?.toList ++ Data.labels data := by
  rw [labels, List.filterMap_cons]
  cases d.item.label? <;> rfl

@[simp] theorem Code.labels_nil : Code.labels [] = [] := rfl

@[simp] theorem Code.names_nil : Code.names [] = [] := rfl

@[simp] theorem Code.labels_spanning (is : List Instruction) :
    (Code.spanning span is).labels = is.filterMap Instruction.label? := by
  rw [Code.labels, Code.spanning, List.filterMap_map]
  rfl

@[simp] theorem Code.names_spanning (is : List Instruction) :
    (Code.spanning span is).names = is.filterMap Instruction.name? := by
  rw [Code.names, Code.spanning, List.filterMap_map]
  rfl

@[simp] theorem Data.labels_spanning (ds : List Datum) :
    (Data.spanning span ds).labels = ds.filterMap Datum.label? := by
  rw [Data.labels, Data.spanning, List.filterMap_map]
  rfl

@[simp] theorem filterMap_label?_words (ws : List Word) :
    (ws.map Datum.word).filterMap Datum.label? = [] := by
  simp [List.filterMap_map, Datum.label?]

@[simp] theorem filterMap_label?_frameAddress (hops : Nat) :
    (frameAddress hops).filterMap Instruction.label? = [] := by
  simp [frameAddress, List.filterMap_cons, Instruction.label?]

@[simp] theorem filterMap_name?_frameAddress (hops : Nat) :
    (frameAddress hops).filterMap Instruction.name? = [] := by
  simp [frameAddress, List.filterMap_cons, Instruction.name?]

@[simp] theorem Code.labels_keptZero (keep : Bool) : (keptZero keep span).labels = [] := by
  cases keep <;> rfl

@[simp] theorem Code.names_keptZero (keep : Bool) : (keptZero keep span).names = [] := by
  cases keep <;> rfl

theorem Code.labels_functionCode (head : FunctionHead) (frame : Frame) (code : Code) :
    (functionCode head frame code).labels = frame.label :: code.labels := by
  rw [functionCode, labels_append, labels_append]
  exact List.append_nil (frame.label :: code.labels)

theorem Code.names_functionCode (head : FunctionHead) (frame : Frame) (code : Code) :
    (functionCode head frame code).names = code.names := by
  rw [functionCode, names_append, names_append]
  exact List.append_nil code.names

end

/-! ## Numbers and their labels -/

/-- What a number is given out for. -/
inductive LabelUse where
  | data | branch | loop
deriving DecidableEq

/-- What stands in front of the colon and the number. -/
def LabelUse.fronts : LabelUse → List String
  | data => [""]
  | branch => ["if-cond", "then", "else", "end"]
  | loop => ["while-cond", "do", "end"]

def LabelUse.labels (n : Nat) (use : LabelUse) : List String :=
  use.fronts.map fun front => front ++ ":" ++ toString n

def labelsFrom (n : Nat) : List LabelUse → List String
  | [] => []
  | use :: uses => use.labels n ++ labelsFrom (n + 1) uses

theorem labelsFrom_append (n : Nat) (uses others : List LabelUse) :
    labelsFrom n (uses ++ others) = labelsFrom n uses ++ labelsFrom (n + uses.length) others := by
  induction uses generalizing n with
  | nil => rfl
  | cons use uses ih =>
      rw [List.cons_append, labelsFrom, labelsFrom, ih, List.append_assoc, List.length_cons,
        Nat.add_right_comm n 1, Nat.add_assoc n]

/-- The text before the colon and the number can be read off a label. -/
theorem append_colon_inj {front front' : String} {n n' : Nat} (hfront : ':' ∉ front.toList)
    (h : front ++ ":" ++ toString n = front' ++ ":" ++ toString n') : front = front' ∧ n = n' := by
  have hdigits : ∀ n : Nat, ':' ∉ (toString n).toList := fun n hmem =>
    absurd (isDigit_of_mem_numeral hmem) (by decide)
  have hlist := congrArg String.toList h
  simp only [String.toList_append, List.append_assoc] at hlist
  have hcut : front.toList ++ ':' :: (toString n).toList
      = front'.toList ++ ':' :: (toString n').toList := hlist
  obtain ⟨hfronts, -, hnumerals⟩ :=
    (List.append_cons_inj_of_notMem hfront (hdigits n)).mp hcut
  exact ⟨String.toList_inj.mp hfronts, toString_injective (String.toList_inj.mp hnumerals)⟩

theorem LabelUse.nodup_labels (n : Nat) (use : LabelUse) : (use.labels n).Nodup := by
  have hfronts : use.fronts.Nodup := by cases use <;> decide
  have hcolons : ∀ front ∈ use.fronts, ':' ∉ front.toList := by cases use <;> decide
  exact hfronts.map_on fun front hfront _ _ h => (append_colon_inj (hcolons front hfront) h).1

theorem LabelUse.number_eq {use use' : LabelUse} {n n' : Nat} {label : String}
    (h : label ∈ use.labels n) (h' : label ∈ use'.labels n') : n = n' := by
  have hcolons : ∀ front ∈ use.fronts, ':' ∉ front.toList := by cases use <;> decide
  obtain ⟨front, hfront, rfl⟩ := List.mem_map.mp h
  obtain ⟨front', -, heq⟩ := List.mem_map.mp h'
  exact (append_colon_inj (hcolons front hfront) heq.symm).2

theorem mem_labelsFrom {n : Nat} {uses : List LabelUse} {label : String}
    (h : label ∈ labelsFrom n uses) : ∃ k, n ≤ k ∧ ∃ use : LabelUse, label ∈ use.labels k := by
  induction uses generalizing n with
  | nil => cases h
  | cons use uses ih =>
      rcases List.mem_append.mp h with h | h
      · exact ⟨n, le_rfl, use, h⟩
      · obtain ⟨k, hk, huse⟩ := ih h
        exact ⟨k, by omega, huse⟩

/-- No label is made twice. -/
theorem nodup_labelsFrom (n : Nat) (uses : List LabelUse) : (labelsFrom n uses).Nodup := by
  induction uses generalizing n with
  | nil => exact List.nodup_nil
  | cons use uses ih =>
      refine List.nodup_append.mpr ⟨use.nodup_labels n, ih (n + 1), ?_⟩
      rintro label hlabel _ hother rfl
      obtain ⟨k, hk, use', huse'⟩ := mem_labelsFrom hother
      have := LabelUse.number_eq hlabel huse'
      omega

theorem isNumbered_of_mem_labelsFrom {n : Nat} {uses : List LabelUse} {label : String}
    (h : label ∈ labelsFrom n uses) : IsNumbered label := by
  obtain ⟨k, -, use, huse⟩ := mem_labelsFrom h
  have hforms : ∀ front ∈ use.fronts,
      '.' ∉ (front ++ ":").toList ∧ ':' ∈ (front ++ ":").toList := by cases use <;> decide
  obtain ⟨front, hfront, rfl⟩ := List.mem_map.mp huse
  exact isNumbered_append k (hforms front hfront).1 (hforms front hfront).2

theorem LabelUse.labels_data (n : Nat) : LabelUse.data.labels n = [dataLabel n] := rfl

theorem LabelUse.labels_branch (n : Nat) : LabelUse.branch.labels n =
    [(branchLabels n).condition, (branchLabels n).positive, (branchLabels n).negative,
      (branchLabels n).stop] := rfl

theorem LabelUse.labels_loop (n : Nat) : LabelUse.loop.labels n =
    [(loopLabels n).condition, (loopLabels n).body, (loopLabels n).stop] := rfl

end NestedFun
