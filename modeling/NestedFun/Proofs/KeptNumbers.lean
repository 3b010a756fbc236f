import NestedFun.Proofs.NodeNumbers
import NestedFun.Proofs.Sentences

namespace NestedFun

/-!
# Numbers of 32 bits

Nodes are counted without a limit, but a node keeps the last 32 bits of its number only. So the nodes
of a program that was read keep different numbers just if there are no more than 2 ^ 32 of them.
-/

theorem NodeId.toNat_kept (id : NodeId) : id.kept.toNat = id % UInt32.size := UInt32.toNat_ofNat'

theorem NodeId.kept_inj {id id' : NodeId} (h : id < UInt32.size) (h' : id' < UInt32.size)
    (heq : id.kept = id'.kept) : id = id' := by
  have hmod := congrArg UInt32.toNat heq
  rwa [toNat_kept, toNat_kept, Nat.mod_eq_of_lt h, Nat.mod_eq_of_lt h'] at hmod

/-- The numbers that all nodes keep are those below `count`, in the order of the nodes. Functions,
variables and parameters keep numbers of their own, and so do expressions. -/
structure Program.KeepsNumbers (program : Program) (count : Nat) : Prop where
  ids_eq : ((definitionIds program).map fun id => id.kept.toNat) = List.range count
  nodup_declared : ((definitionsOwners [] program).map fun owner => owner.1.kept).Nodup
  nodup_used : ((definitionsUses program).map fun use => use.2.node.id.kept).Nodup

namespace Program

variable {program : Program} {count : Nat}

/-- Different numbers are kept as different ones if no node has a number beyond 32 bits. -/
theorem Numbered.nodup_kept (h : program.Numbered count) (hcount : count ≤ UInt32.size)
    {ids : List NodeId} (hcovered : Covered ids (definitionIds program)) (hids : ids.Nodup) :
    (ids.map NodeId.kept).Nodup := by
  have hlt : ∀ id ∈ ids, id < UInt32.size := fun id hid =>
    (List.mem_range.mp (h.ids_eq ▸ hcovered.mem hid)).trans_le hcount
  exact List.Nodup.map_on (fun id hid id' hid' => NodeId.kept_inj (hlt id hid) (hlt id' hid')) hids

theorem Numbered.keepsNumbers_iff (h : program.Numbered count) :
    program.KeepsNumbers count ↔ count ≤ UInt32.size := by
  constructor
  · intro hkeeps
    by_contra hcount
    -- the first number beyond 32 bits is kept as 0
    have hlt : UInt32.size < count := Nat.lt_of_not_le hcount
    have hids := hkeeps.ids_eq
    rw [h.ids_eq] at hids
    have hkept := congrArg (fun ids : List Nat => ids[UInt32.size]?) hids
    simp only [List.getElem?_map, List.getElem?_range hlt, Option.map_some,
      NodeId.toNat_kept, Nat.mod_self, Option.some.injEq] at hkept
    exact absurd hkept (by decide)
  · intro hcount
    refine ⟨?_, ?_, ?_⟩
    · rw [h.ids_eq]
      refine (List.map_congr_left fun id hid => ?_).trans (List.map_id _)
      rw [NodeId.toNat_kept, Nat.mod_eq_of_lt ((List.mem_range.mp hid).trans_le hcount)]
      rfl
    · have hnodup := h.nodup_kept hcount (covered_definitionsOwners program []) h.nodup_declared
      rwa [List.map_map] at hnodup
    · have hnodup := h.nodup_kept hcount (covered_definitionsUses program) h.nodup_used
      rwa [List.map_map] at hnodup

/-- The nodes of a program that was read keep different numbers from zero on just if there are no more
than 2 ^ 32 of them. -/
theorem keeps_numbers {text : List Char} (h : parse text = .ok program) :
    ∃ r, (Reader.ofText text).definitions = .ok (program, r) ∧
      (program.KeepsNumbers r.nextId ↔ r.nextId ≤ UInt32.size) := by
  obtain ⟨r, hread, hnumbered⟩ := numbered h
  exact ⟨r, hread, hnumbered.keepsNumbers_iff⟩

/-- A function with a parameter and a variable. -/
theorem keeps_numbers_sample : ∃ program r,
    parse "fun f(x) = let var y = 2 * 1 in y = -x, y^ + f(y) end".toList = .ok program ∧
      (Reader.ofText "fun f(x) = let var y = 2 * 1 in y = -x, y^ + f(y) end".toList).definitions
        = .ok (program, r) ∧ program.KeepsNumbers r.nextId ∧ r.nextId = 28 := by
  have hchecks : ((Reader.ofText
      "fun f(x) = let var y = 2 * 1 in y = -x, y^ + f(y) end".toList).definitions.toOption.any
        fun read => read.2.nextId = 28) = true := by
    decide +kernel
  obtain ⟨⟨program, r⟩, hread, hcount⟩ := (Option.any_eq_true _ _).mp hchecks
  have hparse : parse "fun f(x) = let var y = 2 * 1 in y = -x, y^ + f(y) end".toList
      = .ok program := by
    rw [parse, toOption_eq_some hread]
    rfl
  obtain ⟨r', hread', hiff⟩ := keeps_numbers hparse
  cases (toOption_eq_some hread).symm.trans hread'
  have hcount := of_decide_eq_true hcount
  exact ⟨program, r, hparse, hread', hiff.mpr (by rw [hcount]; decide), hcount⟩

/-! ## Too many nodes -/

/-- A text of so many lines, each with a function without a body. -/
def manyFunctions (n : Nat) : List Char :=
  '\n' :: (List.replicate n ['f', 'u', 'n', ' ', 'f', '(', ')', '\n']).flatten

theorem textForms_lineFeed (cs : List Char) : textForms ('\n' :: cs) = textForms cs :=
  Cursor.scan_forms le_rfl rfl

theorem textForms_functions (n : Nat) :
    textForms (List.replicate n ['f', 'u', 'n', ' ', 'f', '(', ')', '\n']).flatten
      = ((List.replicate n ("f", none)).flatMap declarationForms).map some := by
  induction n with
  | zero => exact textForms_nil
  | succ n ih =>
      rw [List.replicate_succ, List.flatten_cons, List.replicate_succ, List.flatMap_cons,
        List.map_append, ← ih]
      simp only [List.cons_append, List.nil_append]
      rw [textForms_cons rfl rfl, textForms_cons rfl rfl, textForms_cons rfl rfl,
        textForms_cons rfl rfl, textForms_lineFeed]
      rfl

/-- A function without parameters and a body has a number, and its name has one. -/
theorem length_ids_of_declares {ds : List Definition} {names : List (String × Option String)}
    (h : Declares ds names) (hnames : ∀ name ∈ names, name.2 = none) :
    (definitionIds ds).length = 2 * names.length := by
  induction h with
  | nil => rfl
  | @cons head ds declared others _ hlength _ ih =>
      obtain ⟨hnone, hothers⟩ := List.forall_mem_cons.mp hnames
      rw [hnone] at hlength
      rw [definitionIds, Definition.ids, List.eq_nil_of_length_eq_zero hlength, List.length_append,
        ih hothers, List.length_cons]
      simp only [List.flatMap_nil, statementIds, List.length_cons, List.length_append, List.length_nil]
      omega

theorem parse_nil : parse [] = .ok [] := by
  have hitems : (Cursor.start []).scan.items = ([] : List Token).map .ok := Cursor.scan_nil rfl
  rw [parse, Reader.ofText, Tokens.ofText_of_items hitems, Reader.definitions]
  rfl

theorem parse_manyFunctions (n : Nat) : ∃ program, parse (manyFunctions n) = .ok program ∧
    (definitionIds program).length = 2 * n := by
  obtain ⟨tokens, hitems, hforms⟩ := exists_tokens (textForms_functions n)
  have htokens := Tokens.ofText_of_items hitems
  obtain ⟨hown, -⟩ := parse_append ⟨_, congrArg Tokens.ending htokens⟩
    ((congrArg (fun tokens : Tokens => tokens.list.map Token.form) htokens).trans hforms) []
  obtain ⟨declared, hparse, hdeclared⟩ := hown [] parse_nil
  refine ⟨declared, hparse, ?_⟩
  rw [length_ids_of_declares (.of_declared hdeclared) fun name hname => ?_, List.length_replicate]
  rw [List.eq_of_mem_replicate hname]

/-- Some numbers are kept twice if there are more than 2 ^ 32 nodes. -/
theorem numbers_kept_twice : ∃ program, parse (manyFunctions UInt32.size) = .ok program ∧
    ¬ ((definitionIds program).map NodeId.kept).Nodup := by
  obtain ⟨program, hparse, hlength⟩ := parse_manyFunctions UInt32.size
  obtain ⟨r, -, hnumbered⟩ := numbered hparse
  have hids := hnumbered.ids_eq
  rw [hids, List.length_range] at hlength
  refine ⟨program, hparse, fun hnodup => ?_⟩
  rw [hids, hlength] at hnodup
  have hinj := List.inj_on_of_nodup_map hnodup
  have hzero : 0 ∈ List.range (2 * UInt32.size) := List.mem_range.mpr (by decide)
  have hsize : UInt32.size ∈ List.range (2 * UInt32.size) := List.mem_range.mpr (by decide)
  exact absurd (hinj hzero hsize (by decide)) (by decide)

end Program

end NestedFun
