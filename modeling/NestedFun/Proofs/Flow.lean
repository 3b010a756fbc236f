import NestedFun.Proofs.Executable
import NestedFun.Proofs.Parts

namespace NestedFun

/-!
# Flow of control

What is known about the operand stack at every point of a routine: which of its words are labels,
addresses of frames or addresses of variables. Generated code keeps to the rules by which this is
known, so that it only jumps to its own labels, only stores into variables and only returns with its
result alone on the stack.
-/

/-- What is known about a word on the operand stack: nothing; its value; that it is the address of a
label, of the frame that so many links lead to, or of a place in such a frame. -/
inductive Slot where
  | word
  | exactly (value : Word)
  | label (name : String)
  | link (hops : Nat)
  | place (hops : Nat) (offset : Int)

def Place.toSlot : Place → Slot
  | slot hops offset => .place hops offset
  | global label => .label label

/-- A function with a body, or the entry: the numbers of the functions around its code, its frame,
its code behind the label and the address of this code. -/
structure Routine where
  path : List NodeId
  frame : Frame
  code : Code
  start : Int

def Layout.frameAt (layout : Layout) (path : List NodeId) (hops : Nat) : Option Frame :=
  path[hops]?.bind fun id => layout.frames[id]?

def Frame.HasWord (frame : Frame) (offset : Int) : Prop :=
  (-frame.localsSize ≤ offset ∧ offset + 4 ≤ -8) ∨ (4 ≤ offset ∧ offset + 4 ≤ frame.parametersSize)

def Target.Global (T : Target) (label : String) : Prop :=
  ∃ head : Variable, head.words ≠ [] ∧ head.Sized ∧ T.fragments.storage[head.id]?
    = some (Data.spanning head.span
        [.label label, .reserve (.ofInt (4 * head.words.length)) (some (.ofVariable head))])

def Place.Valid (T : Target) (path : List NodeId) : Place → Prop
  | slot hops offset => ∃ frame, T.layout.frameAt path hops = some frame ∧ frame.HasWord offset
  | global label => T.Global label

/-- The instruction before the rest of a routine's code is the load of a dereference. -/
def Routine.Dereferences (R : Routine) (T : Target) (program : Program) (rest : Code) : Prop :=
  ∃ head node operator operand c front,
    (head, Expression.unary node operator operand) ∈ definitionsUses program ∧
      R.path.head? = some head.id ∧ operator.kind = .dereference ∧ T.Generates operand c ∧
      R.code = front ++ c ++ Code.spanning node.span [.load] ++ rest

/-- How control flows through the code of a routine. The operand stack ends `base` bytes and so many
words as there are slots below the frame address; all labels are at statements, where it is empty. -/
inductive Flows (T : Target) (program : Program) (R : Routine) : Int → List Slot → Code → Prop
  | label {span : Span} {l : String} {rest : Code} (h : Flows T program R R.frame.localsSize [] rest) :
      Flows T program R R.frame.localsSize [] (⟨span, .label l⟩ :: rest)
  | push {b : Int} {σ : List Slot} {span : Span} {v : Word} {rest : Code}
      (h : Flows T program R b (.exactly v :: σ) rest) :
      Flows T program R b σ (⟨span, .push v⟩ :: rest)
  | name {b : Int} {σ : List Slot} {span : Span} {l : String} {rest : Code}
      (h : Flows T program R b (.label l :: σ) rest) :
      Flows T program R b σ (⟨span, .name l⟩ :: rest)
  | regn {b : Int} {σ : List Slot} {span : Span} {rest : Code}
      (hdepth : 0 < R.path.length) (h : Flows T program R b (.link 0 :: σ) rest) :
      Flows T program R b σ (⟨span, .regn .framePointer⟩ :: rest)
  | reserve {span : Span} {rest : Code} (hdepth : 0 < R.path.length)
      (h : Flows T program R R.frame.localsSize [] rest) :
      Flows T program R 8 [.exactly (.ofInt (8 - R.frame.localsSize))] (⟨span, .popn⟩ :: rest)
  | drop {b : Int} {σ : List Slot} {span : Span} {rest : Code} (h : Flows T program R b σ rest) :
      Flows T program R b (.exactly 4 :: .word :: σ) (⟨span, .popn⟩ :: rest)
  | locate {b : Int} {σ : List Slot} {span : Span} {hops : Nat} {offset : Int} {rest : Code}
      (h : Flows T program R b (.place hops offset :: σ) rest) :
      Flows T program R b (.exactly (.ofInt offset) :: .link hops :: σ)
        (⟨span, .oper .add⟩ :: rest)
  | binary {b : Int} {σ : List Slot} {span : Span} {o : Operator} {rest : Code}
      (ho : o.isUnary = false) (h : Flows T program R b (.word :: σ) rest) :
      Flows T program R b (.word :: .word :: σ) (⟨span, .oper o⟩ :: rest)
  | unary {b : Int} {σ : List Slot} {span : Span} {o : Operator} {rest : Code}
      (ho : o.isUnary = true) (h : Flows T program R b (.word :: σ) rest) :
      Flows T program R b (.word :: σ) (⟨span, .oper o⟩ :: rest)
  | follow {b : Int} {σ : List Slot} {span : Span} {hops : Nat} {rest : Code}
      (hhops : hops < R.path.length) (h : Flows T program R b (.link (hops + 1) :: σ) rest) :
      Flows T program R b (.link hops :: σ) (⟨span, .load⟩ :: rest)
  | load {σ : List Slot} {span : Span} {place : Place} {rest : Code}
      (hplace : place.Valid T R.path) (h : Flows T program R R.frame.localsSize (.word :: σ) rest) :
      Flows T program R R.frame.localsSize (place.toSlot :: σ) (⟨span, .load⟩ :: rest)
  | dereference {b : Int} {σ : List Slot} {span : Span} {rest : Code}
      (hcode : R.Dereferences T program rest) (h : Flows T program R b (.word :: σ) rest) :
      Flows T program R b (.word :: σ) (⟨span, .load⟩ :: rest)
  | save {σ : List Slot} {span : Span} {place : Place} {rest : Code}
      (hplace : place.Valid T R.path) (h : Flows T program R R.frame.localsSize σ rest) :
      Flows T program R R.frame.localsSize (place.toSlot :: .word :: σ) (⟨span, .save⟩ :: rest)
  | call {σ : List Slot} {span : Span} {env : Env} {name : String} {meaning : Meaning}
      {head : FunctionHead} {body : List Statement} {frame : Frame} {rest : Code}
      (hpath : env.path = R.path) (henv : env.Inside T program)
      (hfind : env.find? name = some meaning) (hentity : meaning.entity = .function head body)
      (hframe : T.layout.frames[head.id]? = some frame)
      (h : Flows T program R R.frame.localsSize (.word :: σ) rest) :
      Flows T program R R.frame.localsSize (.label frame.label :: .link meaning.hops ::
        (List.replicate head.parameters.length .word ++ σ)) (⟨span, .call frame⟩ :: rest)
  | exit {b : Int} {span : Span} {frame : Frame} (hlabel : frame.label = "exit")
      (hsize : frame.parametersSize = 8) :
      Flows T program R b [.label frame.label, .exactly 0, .word] [⟨span, .call frame⟩]
  | jump {span span' : Span} {l : String} {rest : Code} (hl : ⟨span', .label l⟩ ∈ R.code)
      (h : Flows T program R R.frame.localsSize [] rest) :
      Flows T program R R.frame.localsSize [.label l] (⟨span, .ujmp⟩ :: rest)
  | branch {span span' span'' : Span} {l l' : String} {rest : Code}
      (hl : ⟨span', .label l⟩ ∈ R.code) (hl' : ⟨span'', .label l'⟩ ∈ R.code)
      (h : Flows T program R R.frame.localsSize [] rest) :
      Flows T program R R.frame.localsSize [.label l', .label l, .word] (⟨span, .cjmp⟩ :: rest)
  | init {σ : List Slot} {span : Span} {head : Variable} {n : Nat} {offset : Int}
      {rest : Code} (hdepth : 0 < R.path.length) (hsized : head.Sized)
      (hstorage : T.fragments.storage[head.id]? = some (Data.spanning head.span
        (.label (dataLabel n) :: (Contents.ofVariable head).words.map .word)))
      (hlow : -R.frame.localsSize ≤ offset) (hhigh : offset + 4 * head.words.length ≤ -8)
      (h : Flows T program R R.frame.localsSize σ rest) :
      Flows T program R R.frame.localsSize (.label (dataLabel n) :: .place 0 offset :: σ)
        (⟨span, .init⟩ :: rest)
  | retn {span : Span} (hdepth : 0 < R.path.length) :
      Flows T program R R.frame.localsSize
        [.exactly (.ofInt (R.frame.parametersSize - 4)), .word] [⟨span, .retn R.frame⟩]
  | forget {b : Int} {σ : List Slot} {slot : Slot} {code : Code}
      (h : Flows T program R b (.word :: σ) code) : Flows T program R b (slot :: σ) code
  | outermost {b : Int} {σ : List Slot} {code : Code} (hdepth : R.path.length = 0)
      (h : Flows T program R b (.link 0 :: σ) code) : Flows T program R b (.exactly 0 :: σ) code

/-! ## Places are valid -/

section

variable {T : Target} {program : Program} {env : Env}

/-- The function that is `hops` functions further out is the one around the definition. -/
theorem Layout.frameAt_drop {layout : Layout} {path home : List NodeId} {hops : Nat}
    (h : path.drop hops = home) {id : NodeId} (hid : home.head? = some id) :
    layout.frameAt path hops = layout.frames[id]? := by
  have hget : path[hops]? = some id := by
    rw [← h, List.head?_drop] at hid
    exact hid
  rw [frameAt, hget]
  rfl

/-- The place of a variable that a name means has room for a word. -/
theorem Env.Finds.valid {name : String} {place : Place} (h : env.Finds T.layout name place)
    (henv : env.Inside T program) (hstores : program.StoresWords) :
    place.Valid T env.path := by
  cases h with
  | @global meaning id label size contents hfind hentity hdepth haccess =>
      obtain ⟨region, outer, hhome, hlookup⟩ := Env.find?_region hfind
      have hsuffix := (Env.find?_home hfind).1
      rw [hhome] at hsuffix hdepth
      rw [hentity] at hlookup
      cases region with
      | parameters head => exact absurd hdepth (by simp)
      | definitions ds =>
          obtain ⟨head, hd, _, rfl⟩ := mem_entities_variable (mem_of_lookup hlookup)
          obtain ⟨code, hcode⟩ := henv.coded ds outer hsuffix
          obtain ⟨_, hsized, hvariable⟩ := hcode.mem hd
          rw [if_pos hdepth, haccess] at hvariable
          cases hvariable.1
          exact ⟨head, hstores _ (henv.subset ds outer hsuffix hd), hsized, hvariable.2⟩
  | @slot meaning id offset size contents hfind hentity hdepth haccess =>
      obtain ⟨region, outer, hhome, hlookup⟩ := Env.find?_region hfind
      obtain ⟨hsuffix, _, hdrop⟩ := Env.find?_home hfind
      obtain ⟨used, limit, hplaced⟩ := (henv.suffix hsuffix).placed
      rw [hhome] at hsuffix hdepth hdrop hplaced
      rw [hentity] at hlookup
      cases hplaced with
      | parameters houter hframe hfits hparameters hsize =>
          obtain ⟨p, hp, heq⟩ := List.mem_map.mp (mem_of_lookup hlookup)
          cases heq
          obtain ⟨o, ho, hlow, hhigh⟩ := hparameters.mem hp
          simp only [ho, Option.some.injEq, Access.relative.injEq] at haccess
          obtain ⟨rfl, _⟩ := haccess
          refine ⟨_, (Layout.frameAt_drop hdrop rfl).trans hframe, .inr ⟨hlow, ?_⟩⟩
          rw [hfits.parametersSize_eq]
          omega
      | definitions houter hused hds hlimit =>
          obtain ⟨head, hd, _, rfl⟩ := mem_entities_variable (mem_of_lookup hlookup)
          obtain ⟨b, a, ⟨hsized, hvariable⟩, hb, ha⟩ := hds.mem hd
          obtain ⟨hnonneg, _, hframe⟩ := houter.bounds
          rw [Env.depth_definitions] at hdepth
          obtain ⟨fid, frame, hid, hframe, hframeSize⟩ := hframe hdepth
          rw [if_neg (by omega), haccess] at hvariable
          obtain ⟨haccess', hafter, _⟩ := hvariable
          simp only [Option.some.injEq, Access.relative.injEq] at haccess'
          obtain ⟨rfl, _⟩ := haccess'
          have hwords : head.words ≠ [] := hstores _ (henv.subset _ _ hsuffix hd)
          have hlength := List.length_pos_of_ne_nil hwords
          exact ⟨frame, (Layout.frameAt_drop hdrop hid).trans hframe, .inl ⟨by omega, by omega⟩⟩

end

/-! ## Generated code keeps to the rules -/

section

variable {T : Target} {program : Program} {R : Routine} {b : Int} {σ : List Slot} {rest : Code}

theorem replicate_load_flows {span : Span} (n : Nat) {hops : Nat}
    (hle : hops + n ≤ R.path.length) (h : Flows T program R b (.link (hops + n) :: σ) rest) :
    Flows T program R b (.link hops :: σ)
      (Code.spanning span (List.replicate n .load) ++ rest) := by
  induction n generalizing hops with
  | zero => exact h
  | succ n ih =>
      rw [List.replicate_succ]
      exact .follow (by omega) (ih (by omega) (by rwa [Nat.add_right_comm]))

theorem frameAddress_flows {span : Span} {hops : Nat} (hdepth : 0 < R.path.length)
    (hle : hops ≤ R.path.length) (h : Flows T program R b (.link hops :: σ) rest) :
    Flows T program R b σ (Code.spanning span (frameAddress hops) ++ rest) :=
  .regn hdepth (replicate_load_flows hops (by omega) (by rwa [Nat.zero_add]))

theorem spanning_append (span : Span) (is js : List Instruction) :
    Code.spanning span (is ++ js) = Code.spanning span is ++ Code.spanning span js :=
  List.map_append

theorem Place.flows {span : Span} {place : Place} (hplace : place.Valid T R.path)
    (hdepth : 0 < R.path.length) (h : Flows T program R b (place.toSlot :: σ) rest) :
    Flows T program R b σ (Code.spanning span place.code ++ rest) := by
  cases place with
  | slot hops offset =>
      have hle : hops < R.path.length := by
        obtain ⟨frame, hframe, _⟩ := hplace
        obtain ⟨id, hid, _⟩ := Option.bind_eq_some_iff.mp hframe
        exact (List.getElem?_eq_some_iff.mp hid).1
      rw [Place.code, spanning_append, List.append_assoc]
      exact frameAddress_flows hdepth hle.le (.push (.locate h))
  | global label => exact .name h

/-- What the rules ask of a place in a program: it stands in a routine, and variables have room for
words. -/
structure Env.Suits (T : Target) (program : Program) (env : Env) (head : FunctionHead)
    (R : Routine) : Prop where
  inside : env.Inside T program
  path_eq : env.path = R.path
  head_eq : R.path.head? = some head.id
  stores : program.StoresWords

namespace Env.Suits

variable {env : Env} {head : FunctionHead}

theorem depth_pos (h : env.Suits T program head R) : 0 < R.path.length := by
  have := h.head_eq
  cases hpath : R.path with
  | nil => simp [hpath] at this
  | cons id path => simp

theorem valid (h : env.Suits T program head R) {name : String} {place : Place}
    (hplace : env.Finds T.layout name place) : place.Valid T R.path :=
  h.path_eq ▸ hplace.valid h.inside h.stores

theorem hops_le (h : env.Suits T program head R) {name : String} {meaning : Meaning}
    (hfind : env.find? name = some meaning) : meaning.hops ≤ R.path.length := by
  have := (Env.find?_home hfind).2.1
  rw [← h.path_eq, Env.length_path]
  omega

end Env.Suits

theorem mem_parts (e : Expression) : e ∈ e.parts := by
  cases e <;> simp [Expression.parts]

theorem uses_mono {head : FunctionHead} {uses : List (FunctionHead × Expression)}
    {parts parts' : List Expression} (h : parts'.map (fun part => (head, part)) ⊆ uses)
    (hparts : parts ⊆ parts') : parts.map (fun part => (head, part)) ⊆ uses :=
  List.Subset.trans (List.map_subset _ hparts) h

theorem suffix_of_append {a b c : Code} (h : a ++ b <:+ c) : b <:+ c :=
  (List.suffix_append a b).trans h

section

variable {env : Env} {head : FunctionHead}

mutual

theorem Expression.Coded.flows {e : Expression} {code : Code} (h : e.Coded T env code)
    (hsuits : env.Suits T program head R) (huses : e.uses head ⊆ definitionsUses program)
    {σ : List Slot} {rest : Code} (hsuffix : code ++ rest <:+ R.code)
    (hrest : Flows T program R R.frame.localsSize (.word :: σ) rest) :
    Flows T program R R.frame.localsSize σ (code ++ rest) := by
  cases e with
  | literal node value =>
      rcases h with ⟨_, w, _, rfl⟩ | ⟨_, n, rfl, _⟩
      · exact .push (.forget hrest)
      · exact .name (.forget hrest)
  | name node name =>
      obtain ⟨place, hplace, rfl⟩ := h
      have hvalid := hsuits.valid hplace
      rw [spanning_append, List.append_assoc]
      exact place.flows hvalid hsuits.depth_pos (.load hvalid hrest)
  | call node callee arguments =>
      obtain ⟨meaning, fhead, body, frame, pushed, hfind, hentity, hcount, hframe, harguments, rfl⟩ := h
      rw [List.append_assoc] at hsuffix ⊢
      refine harguments.flows hsuits (uses_mono huses (List.subset_cons_self _ _)) hsuffix ?_
      rw [spanning_append, List.append_assoc, ← hcount]
      exact frameAddress_flows hsuits.depth_pos (hsuits.hops_le hfind)
        (.name (.call hsuits.path_eq hsuits.inside hfind hentity hframe hrest))
  | unary node operator operand =>
      have huse : (head, .unary node operator operand) ∈ definitionsUses program :=
        huses (List.mem_map_of_mem (mem_parts _))
      have huses' : operand.uses head ⊆ definitionsUses program :=
        uses_mono huses (List.subset_cons_self _ _)
      rw [Expression.Coded] at h
      split at h
      · obtain ⟨c, hc, rfl⟩ := h
        rw [List.append_assoc] at hsuffix ⊢
        exact hc.flows hsuits huses' hsuffix (.unary rfl hrest)
      · obtain ⟨c, hc, rfl⟩ := h
        rw [List.append_assoc] at hsuffix ⊢
        exact hc.flows hsuits huses' hsuffix (.unary rfl hrest)
      · exact h.flows hsuits huses' hsuffix hrest
      · exact Expression.AddressCoded.flows h hsuits huses' hsuffix hrest
      · rename_i hkind
        obtain ⟨c, hc, hgenerates, rfl⟩ := h
        rw [List.append_assoc] at hsuffix ⊢
        obtain ⟨front, hfront⟩ := hsuffix
        refine hc.flows hsuits huses' ⟨front, hfront⟩ (.dereference ?_ hrest)
        exact ⟨head, node, operator, operand, c, front, huse, hsuits.head_eq, hkind, hgenerates, by
          rw [← hfront]
          simp [Code.spanning]⟩
  | binary node operator left right =>
      obtain ⟨r, l, hr, hl, rfl⟩ := h
      have huses₁ : right.uses head ⊆ definitionsUses program :=
        uses_mono huses (List.subset_cons_of_subset _ (List.subset_append_right _ _))
      have huses₂ : left.uses head ⊆ definitionsUses program :=
        uses_mono huses (List.subset_cons_of_subset _ (List.subset_append_left _ _))
      rw [List.append_assoc, List.append_assoc] at hsuffix ⊢
      exact hr.flows hsuits huses₁ hsuffix (hl.flows hsuits huses₂
        (suffix_of_append hsuffix)
        (.binary (by cases operator.kind <;> rfl) hrest))

theorem Expression.AddressCoded.flows {e : Expression} {code : Code} (h : e.AddressCoded T env code)
    (hsuits : env.Suits T program head R) (huses : e.uses head ⊆ definitionsUses program)
    {σ : List Slot} {rest : Code} (hsuffix : code ++ rest <:+ R.code)
    (hrest : Flows T program R R.frame.localsSize (.word :: σ) rest) :
    Flows T program R R.frame.localsSize σ (code ++ rest) := by
  cases e with
  | literal node value => exact h.elim
  | name node name =>
      obtain ⟨place, hplace, rfl⟩ := h
      exact place.flows (hsuits.valid hplace) hsuits.depth_pos (.forget hrest)
  | call node callee arguments => exact h.elim
  | unary node operator operand =>
      exact h.2.flows hsuits (uses_mono huses (List.subset_cons_self _ _)) hsuffix hrest
  | binary node operator left right => exact h.elim

theorem CodedArguments.flows {es : List Expression} {code : Code} (h : CodedArguments T env es code)
    (hsuits : env.Suits T program head R)
    (huses : (expressionParts es).map (fun part => (head, part)) ⊆ definitionsUses program)
    {σ : List Slot} {rest : Code} (hsuffix : code ++ rest <:+ R.code)
    (hrest : Flows T program R R.frame.localsSize (List.replicate es.length .word ++ σ) rest) :
    Flows T program R R.frame.localsSize σ (code ++ rest) := by
  cases es with
  | nil =>
      cases h
      exact hrest
  | cons e es =>
      obtain ⟨others, first, hothers, hfirst, rfl⟩ := h
      rw [List.append_assoc] at hsuffix ⊢
      exact hothers.flows hsuits (uses_mono huses (List.subset_append_right _ _)) hsuffix
        (hfirst.flows hsuits (uses_mono huses (List.subset_append_left _ _))
          (suffix_of_append hsuffix) hrest)

end

theorem keptZero_flows {keep : Bool} {span : Span}
    (hrest : Flows T program R R.frame.localsSize (if keep then [.word] else []) rest) :
    Flows T program R R.frame.localsSize [] (keptZero keep span ++ rest) := by
  cases keep with
  | false => exact hrest
  | true => exact .push (.forget hrest)

/-- Variables are set up in the innermost frame. -/
theorem CodedDefinitions.flows {ds : List Definition} {code : Code} {before after : Int}
    (h : CodedDefinitions T env ds code) (hpath : env.path = R.path) (hdepth : 0 < R.path.length)
    (hplaced : PlacedDefinitions T.layout env.depth before after ds) (hbefore : 0 ≤ before)
    (hafter : after ≤ R.frame.localsSize - 8)
    (hrest : Flows T program R R.frame.localsSize [] rest) :
    Flows T program R R.frame.localsSize [] (code ++ rest) := by
  induction ds generalizing code before with
  | nil =>
      cases h
      exact hrest
  | cons d ds ih =>
      obtain ⟨first, others, hfirst, hothers, rfl⟩ := h
      obtain ⟨between, hd, hds⟩ := hplaced
      have hle := hd.before_le
      have hle' := hds.before_le
      have hflows := ih hothers hds (by omega)
      rw [List.append_assoc]
      rcases d with ⟨head, body⟩ | head
      · obtain ⟨rfl, _⟩ := hfirst
        exact hflows
      · obtain ⟨hsized, hcoded⟩ := hfirst
        obtain ⟨_, hvariable⟩ := hd
        have hpos : env.depth ≠ 0 := by
          rw [← Env.length_path, hpath]
          omega
        rw [if_neg hpos] at hcoded hvariable
        obtain ⟨offset, n, haccess, hstorage, rfl⟩ := hcoded
        obtain ⟨haccess', hbetween, _⟩ := hvariable
        simp only [haccess, Option.some.injEq, Access.relative.injEq] at haccess'
        obtain ⟨rfl, _⟩ := haccess'
        exact .regn hdepth (.push (.locate (.name
          (.init hdepth hsized hstorage (by omega) (by omega) hflows))))

mutual

theorem Statement.Coded.flows {s : Statement} {env : Env} {keep : Bool} {code : Code}
    {used limit before after : Int} (h : s.Coded T env keep code) (hsuits : env.Suits T program head R)
    (huses : s.uses head ⊆ definitionsUses program)
    (hinside : s.inside ⊆ definitionsInside program)
    (howners : s.owners R.path ⊆ definitionsOwners [] program)
    (htargets : ∀ target ∈ s.targets, target.IsName) (henv : env.Placed T.layout used limit)
    (hlimit : limit = R.frame.localsSize - 8) (hused : used ≤ before)
    (hplaced : s.Placed T.layout env.depth before after) (hafter : after ≤ limit) {rest : Code}
    (hsuffix : code ++ rest <:+ R.code)
    (hrest : Flows T program R R.frame.localsSize (if keep then [.word] else []) rest) :
    Flows T program R R.frame.localsSize [] (code ++ rest) := by
  cases s with
  | eval node value =>
      obtain ⟨c, hc, rfl⟩ := h
      rw [List.append_assoc] at hsuffix ⊢
      refine hc.flows hsuits huses hsuffix ?_
      cases keep with
      | true => exact hrest
      | false => exact .push (.drop hrest)
  | assign node target source =>
      obtain ⟨v, a, hv, ha, rfl⟩ := h
      have huses' : source.uses head ⊆ definitionsUses program :=
        fun use huse => huses (List.mem_append_right _ huse)
      have hname : target.IsName := htargets target (List.mem_singleton_self _)
      cases target with
      | name node' name =>
          obtain ⟨place, hplace, rfl⟩ := ha
          have hvalid := hsuits.valid hplace
          simp only [List.append_assoc] at hsuffix ⊢
          exact hv.flows hsuits huses' hsuffix (place.flows hvalid hsuits.depth_pos
            (.save hvalid (keptZero_flows hrest)))
      | literal | call | unary | binary => exact hname.elim
  | branch node condition positive negative =>
      obtain ⟨n, p, q, c, hp, hq, hc, rfl⟩ := h
      obtain ⟨between, hpositive, hnegative⟩ := hplaced
      have hle := hpositive.before_le
      have hle' := hnegative.before_le
      have hlabel : ∀ l ∈ [(branchLabels n).positive, (branchLabels n).negative,
          (branchLabels n).condition, (branchLabels n).stop],
          (⟨node.span, .label l⟩ : Located Instruction) ∈ R.code := by
        intro l hl
        refine hsuffix.subset (List.mem_append_left _ ?_)
        simp only [List.mem_cons, List.not_mem_nil, or_false] at hl
        rcases hl with rfl | rfl | rfl | rfl <;> simp [Code.spanning]
      simp only [List.flatten_cons, List.flatten_nil, List.append_nil, List.append_assoc]
        at hsuffix ⊢
      have hsuffix₁ := suffix_of_append hsuffix
      have hsuffix₂ := suffix_of_append (suffix_of_append hsuffix₁)
      have hsuffix₃ := suffix_of_append (suffix_of_append hsuffix₂)
      refine .name (.jump (hlabel _ (by simp)) (.label (hp.flows hsuits
        (fun use huse => huses (List.mem_append_left _ (List.mem_append_right _ huse)))
        (fun d hd => hinside (List.mem_append_left _ hd))
        (fun entry hentry => howners (List.mem_append_left _ hentry))
        (fun target ht => htargets target (List.mem_append_left _ ht)) henv hlimit hused hpositive
        (by omega) hsuffix₁ ?_)))
      refine .name (.jump (hlabel _ (by simp)) (.label (hq.flows hsuits
        (fun use huse => huses (List.mem_append_right _ huse))
        (fun d hd => hinside (List.mem_append_right _ hd))
        (fun entry hentry => howners (List.mem_append_right _ hentry))
        (fun target ht => htargets target (List.mem_append_right _ ht)) henv hlimit (by omega)
        hnegative hafter hsuffix₂ ?_)))
      refine .name (.jump (hlabel _ (by simp)) (.label (hc.flows hsuits
        (fun use huse => huses (List.mem_append_left _ (List.mem_append_left _ huse))) hsuffix₃ ?_)))
      exact .name (.name (.branch (hlabel _ (by simp)) (hlabel _ (by simp))
        (.label (keptZero_flows hrest))))
  | loop node condition body =>
      obtain ⟨n, c, p, hc, hp, rfl⟩ := h
      have hlabel : ∀ l ∈ [(loopLabels n).condition, (loopLabels n).body, (loopLabels n).stop],
          (⟨node.span, .label l⟩ : Located Instruction) ∈ R.code := by
        intro l hl
        refine hsuffix.subset (List.mem_append_left _ ?_)
        simp only [List.mem_cons, List.not_mem_nil, or_false] at hl
        rcases hl with rfl | rfl | rfl <;> simp [Code.spanning]
      simp only [List.flatten_cons, List.flatten_nil, List.append_nil, List.append_assoc]
        at hsuffix ⊢
      have hsuffix₁ := suffix_of_append hsuffix
      have hsuffix₂ := suffix_of_append (suffix_of_append hsuffix₁)
      refine .label (hc.flows hsuits (fun use huse => huses (List.mem_append_left _ huse))
        hsuffix₁ ?_)
      refine .name (.name (.branch (hlabel _ (by simp)) (hlabel _ (by simp)) (.label (hp.flows hsuits
        (fun use huse => huses (List.mem_append_right _ huse)) hinside howners htargets henv hlimit hused
        hplaced hafter hsuffix₂ ?_))))
      exact .name (.jump (hlabel _ (by simp)) (.label (keptZero_flows hrest)))
  | block node ds body =>
      obtain ⟨entry, c, hentry, hc, rfl⟩ := h
      obtain ⟨between, hds, hbody⟩ := hplaced
      have hle := hds.before_le
      have hle' := hbody.before_le
      have hnonneg := henv.bounds.1
      have hpath : Env.path (.definitions ds :: env) = R.path := hsuits.path_eq
      have hdepth := hsuits.depth_pos
      have hplaced : Env.Placed T.layout (.definitions ds :: env) between limit :=
        .definitions henv hused hds (by omega)
      have hsuits' : Env.Suits T program (.definitions ds :: env) head R :=
        ⟨hsuits.inside.definitions hentry
          (fun d hd => hinside (List.mem_append_left _ (mem_definitionsInside hd)))
          (by rw [← Env.length_path, hsuits.path_eq]; exact hdepth)
          (fun entry hentry => howners (List.mem_append_left _ (hsuits.path_eq ▸ hentry))) hplaced,
          hpath, hsuits.head_eq, hsuits.stores⟩
      rw [← Env.depth_definitions ds] at hds hbody
      rw [List.append_assoc] at hsuffix ⊢
      refine hentry.flows hpath hdepth hds (by omega) (by omega) ?_
      exact hc.flows hsuits' (fun use huse => huses (List.mem_append_right _ huse))
        (fun d hd => hinside (List.mem_append_right _ hd))
        (fun entry hentry => howners (List.mem_append_right _ hentry))
        (fun target ht => htargets target (List.mem_append_right _ ht)) hplaced hlimit le_rfl hbody
        hafter (suffix_of_append hsuffix) hrest

theorem CodedStatements.flows {ss : List Statement} {env : Env} {keep : Bool} {code : Code}
    {used limit before after : Int} (h : CodedStatements T env keep ss code)
    (hsuits : env.Suits T program head R) (huses : statementsUses head ss ⊆ definitionsUses program)
    (hinside : statementsInside ss ⊆ definitionsInside program)
    (howners : statementsOwners R.path ss ⊆ definitionsOwners [] program)
    (htargets : ∀ target ∈ statementsTargets ss, target.IsName)
    (henv : env.Placed T.layout used limit) (hlimit : limit = R.frame.localsSize - 8)
    (hused : used ≤ before) (hplaced : PlacedStatements T.layout env.depth before after ss)
    (hafter : after ≤ limit) {rest : Code} (hsuffix : code ++ rest <:+ R.code)
    (hrest : Flows T program R R.frame.localsSize (if keep then [.word] else []) rest) :
    Flows T program R R.frame.localsSize [] (code ++ rest) := by
  cases ss with
  | nil =>
      cases h
      exact keptZero_flows hrest
  | cons s ss =>
      obtain ⟨between, hs, hss⟩ := hplaced
      have hle := hs.before_le
      have hle' := hss.before_le
      have huses₁ : s.uses head ⊆ definitionsUses program :=
        fun use huse => huses (List.mem_append_left _ huse)
      have hinside₁ : s.inside ⊆ definitionsInside program :=
        fun d hd => hinside (List.mem_append_left _ hd)
      have howners₁ : s.owners R.path ⊆ definitionsOwners [] program :=
        fun entry hentry => howners (List.mem_append_left _ hentry)
      have htargets₁ : ∀ target ∈ s.targets, target.IsName :=
        fun target ht => htargets target (List.mem_append_left _ ht)
      cases ss with
      | nil =>
          exact Statement.Coded.flows h hsuits huses₁ hinside₁ howners₁ htargets₁ henv hlimit hused hs
            (by omega) hsuffix hrest
      | cons t ss =>
          obtain ⟨first, others, hfirst, hothers, rfl⟩ := h
          rw [List.append_assoc] at hsuffix ⊢
          exact hfirst.flows hsuits huses₁ hinside₁ howners₁ htargets₁ henv hlimit hused hs (by omega) hsuffix
            (hothers.flows hsuits (fun use huse => huses (List.mem_append_right _ huse))
              (fun d hd => hinside (List.mem_append_right _ hd))
              (fun entry hentry => howners (List.mem_append_right _ hentry))
              (fun target ht => htargets target (List.mem_append_right _ ht)) henv hlimit
              (by omega) hss hafter (suffix_of_append hsuffix) hrest)

end

end

end

end NestedFun
