import NestedFun.Proofs.Emission

namespace NestedFun

/-!
# Heights of the stack

How many bytes every instruction of generated code adds to the stack, read off the instructions
alone. Code for an expression adds one word, whatever the expression is, and code for a statement
adds nothing unless its value is kept; jumps inside go to labels at the height that they leave.
-/

/-! ## Effects of instructions -/

/-- Where control goes behind an instruction. -/
inductive Exit where
  | next
  | jump (labels : List String)
  | leave
deriving DecidableEq

def Exit.labels : Exit → List String
  | next | leave => []
  | jump labels => labels

/-- The bytes that an instruction adds to the stack, and where control goes. What is popped as a
number of bytes or as an address has to be pushed by the instructions right in front, of which
`before` has the nearest first. A call counts with all that happens until it returns: one word is
left of the arguments and the static link. -/
def Instruction.effect? (before : List Instruction) : Instruction → Option (Int × Exit)
  | label _ | load => some (0, .next)
  | push _ | name _ | regn _ => some (4, .next)
  | oper operator => some (if operator.isUnary then 0 else -4, .next)
  | save | init => some (-8, .next)
  | popn =>
    match before with
    | push n :: _ => some (-4 - n.toInt, .next)
    | _ => none
  | call frame =>
    match before with
    | name l :: _ => if l = frame.label then some (-frame.parametersSize, .next) else none
    | _ => none
  | ujmp =>
    match before with
    | name l :: _ => some (-4, .jump [l])
    | _ => none
  | cjmp =>
    match before with
    | name negative :: name positive :: _ => some (-12, .jump [positive, negative])
    | _ => none
  | retn _ =>
    match before with
    | push _ :: _ => some (-8, .leave)
    | _ => none

/-- A walk through code behind other instructions, from one height of the stack to another, with
the heights in front of all instructions. Where it can jump to, a label has to be known at the
height that is left. -/
inductive Walks (known : String → Int → Prop) :
    List Instruction → Int → List Instruction → List Int → Int → Prop
  | nil {before : List Instruction} {h : Int} : Walks known before h [] [] h
  | cons {before code : List Instruction} {i : Instruction} {h d top : Int} {exit : Exit}
      {heights : List Int} (heffect : i.effect? before = some (d, exit))
      (hjumps : ∀ l ∈ exit.labels, known l (h + d))
      (hrest : Walks known (i :: before) (h + d) code heights top) :
      Walks known before h (i :: code) (h :: heights) top

def Code.instructions (code : Code) : List Instruction := code.map fun i => i.item

def marks (code : List Instruction) (heights : List Int) : List (String × Int) :=
  (code.zip heights).filterMap fun entry => entry.1.label?.map fun l => (l, entry.2)

/-- An instruction that can stand in the body of a function: one that stays in it, and calls only
what has a frame. -/
def Layout.Admits (layout : Layout) : Instruction → Prop
  | .retn _ => False
  | .call frame => ∃ id : NodeId, layout.frames[id]? = some frame
  | _ => True

/-- Code in the body of a function that adds a number of bytes to the stack, never takes off what
it finds there, and jumps only to labels of its own. -/
def Rises (layout : Layout) (code : List Instruction) (d : Int) : Prop :=
  (∀ i ∈ code, layout.Admits i) ∧
  ∃ heights : List Int, heights.length = code.length ∧ (∀ x ∈ heights, 0 ≤ x) ∧
    ∀ (known : String → Int → Prop) (before : List Instruction) (h : Int),
      (∀ l x, (l, x) ∈ marks code heights → known l (h + x)) →
      Walks known before h code (heights.map (h + ·)) (h + d)

namespace Walks

variable {known : String → Int → Prop} {before code code' : List Instruction} {h d top top' : Int}
  {i : Instruction} {heights heights' : List Int}

theorem step (heffect : i.effect? before = some (d, .next))
    (hrest : Walks known (i :: before) (h + d) code heights top) :
    Walks known before h (i :: code) (h :: heights) top :=
  .cons heffect (by simp [Exit.labels]) hrest

theorem append (ha : Walks known before h code heights top)
    (hb : Walks known (code.reverse ++ before) top code' heights' top') :
    Walks known before h (code ++ code') (heights ++ heights') top' := by
  induction ha with
  | nil => exact hb
  | cons heffect hjumps _ ih =>
      refine .cons heffect hjumps (ih ?_)
      simpa using hb

theorem length_eq (h : Walks known before h code heights top) : heights.length = code.length := by
  induction h with
  | nil => rfl
  | cons _ _ _ ih => rw [List.length_cons, List.length_cons, ih]

/-- A jump to a label that is known at the height in front of it. -/
theorem goto {l : String} (hl : known l h)
    (hrest : Walks known (.ujmp :: .name l :: before) h code heights top) :
    Walks known before h (.name l :: .ujmp :: code) (h :: (h + 4) :: heights) top := by
  have hback : h + 4 + -4 = h := by omega
  refine .step rfl (.cons rfl ?_ (hback.symm ▸ hrest))
  simpa [Exit.labels, hback] using hl

/-- A choice between two labels that are known at the height below the condition. -/
theorem choose {positive negative : String} (hpositive : known positive h)
    (hnegative : known negative h)
    (hrest : Walks known (.cjmp :: .name negative :: .name positive :: before) h code heights
      top) :
    Walks known before (h + 4) (.name positive :: .name negative :: .cjmp :: code)
      ((h + 4) :: (h + 8) :: (h + 12) :: heights) top := by
  have hback : h + 12 + -12 = h := by omega
  have hlast : Walks known (.name negative :: .name positive :: before) (h + 12) (.cjmp :: code)
      ((h + 12) :: heights) top := by
    refine .cons rfl ?_ (hback.symm ▸ hrest)
    simpa [Exit.labels, hback] using ⟨hpositive, hnegative⟩
  refine .step rfl ?_
  rw [show h + 4 + 4 = h + 8 by omega]
  refine .step rfl ?_
  rw [show h + 8 + 4 = h + 12 by omega]
  exact hlast

theorem label {l : String} (hrest : Walks known (.label l :: before) h code heights top) :
    Walks known before h (.label l :: code) (h :: heights) top :=
  .step (d := 0) rfl ((Int.add_zero h).symm ▸ hrest)

end Walks

theorem marks_append {code code' : List Instruction} {heights heights' : List Int}
    (h : heights.length = code.length) :
    marks (code ++ code') (heights ++ heights') = marks code heights ++ marks code' heights' := by
  rw [marks, List.zip_append h.symm, List.filterMap_append]
  rfl

theorem marks_cons (i : Instruction) (code : List Instruction) (x : Int) (heights : List Int) :
    marks (i :: code) (x :: heights)
      = (i.label?.map fun l => (l, x)).toList ++ marks code heights := by
  rw [marks, List.zip_cons_cons, List.filterMap_cons]
  cases i.label? <;> rfl

theorem mem_marks_map {code : List Instruction} {heights : List Int} {l : String} {x : Int}
    (d : Int) (h : (l, x) ∈ marks code heights) :
    (l, d + x) ∈ marks code (heights.map (d + ·)) := by
  obtain ⟨⟨i, y⟩, hentry, hmark⟩ := List.mem_filterMap.mp h
  obtain ⟨l', hl', heq⟩ := Option.map_eq_some_iff.mp hmark
  cases heq
  refine List.mem_filterMap.mpr ⟨(i, d + y), ?_, by rw [hl']; rfl⟩
  rw [List.zip_map_right]
  exact List.mem_map.mpr ⟨(i, y), hentry, rfl⟩

namespace Rises

variable {layout : Layout} {a b c p q k code : List Instruction} {i j : Instruction} {d e : Int}

theorem congr (h : Rises layout code d) (hd : d = e) : Rises layout code e := hd ▸ h

theorem nil : Rises layout [] 0 :=
  ⟨by simp, [], rfl, by simp, fun known before h _ => by simpa using Walks.nil⟩

theorem append (ha : Rises layout a d) (hb : Rises layout b e) (hd : 0 ≤ d) :
    Rises layout (a ++ b) (d + e) := by
  obtain ⟨hadmitsA, ja, hlengthA, hja, hwalkA⟩ := ha
  obtain ⟨hadmitsB, jb, hlengthB, hjb, hwalkB⟩ := hb
  refine ⟨List.forall_mem_append.mpr ⟨hadmitsA, hadmitsB⟩, ja ++ jb.map (d + ·),
    by simp [hlengthA, hlengthB], List.forall_mem_append.mpr ⟨hja, ?_⟩, ?_⟩
  · refine List.forall_mem_map.mpr fun y hy => ?_
    have := hjb y hy
    omega
  · intro known before h hknown
    rw [marks_append hlengthA] at hknown
    have hfirst := hwalkA known before h fun l x hx => hknown l x (List.mem_append_left _ hx)
    have hsecond := hwalkB known (a.reverse ++ before) (h + d) fun l x hx => by
      rw [Int.add_assoc]
      exact hknown l (d + x) (List.mem_append_right _ (mem_marks_map d hx))
    have hheights : (ja ++ jb.map (d + ·)).map (h + ·) = ja.map (h + ·) ++ jb.map (h + d + ·) := by
      simp [Int.add_assoc]
    rw [hheights, ← Int.add_assoc]
    exact hfirst.append hsecond

/-- An instruction whose effect does not depend on what is in front of it. -/
theorem single (hi : layout.Admits i) (h : ∀ before, i.effect? before = some (d, .next)) :
    Rises layout [i] d :=
  ⟨by simpa using hi, [0], rfl, by simp, fun known before x _ => by
    simpa using Walks.step (h before) (.nil : Walks known (i :: before) (x + d) [] [] (x + d))⟩

/-- An instruction that pops what the one in front of it pushes. -/
theorem pair (hi : layout.Admits i) (hj : layout.Admits j)
    (h : ∀ before, i.effect? before = some (4, .next))
    (h' : ∀ before, j.effect? (i :: before) = some (d, .next)) : Rises layout [i, j] (4 + d) :=
  ⟨by simpa using ⟨hi, hj⟩, [0, 4], rfl, by simp, fun known before x _ => by
    have hlast : Walks known (i :: before) (x + 4) [j] [x + 4] (x + 4 + d) :=
      .step (h' before) .nil
    simpa [Int.add_assoc] using Walks.step (h before) hlast⟩

theorem push (w : Word) : Rises layout [.push w] 4 := single trivial fun _ => rfl

theorem name (l : String) : Rises layout [.name l] 4 := single trivial fun _ => rfl

theorem load : Rises layout [.load] 0 := single trivial fun _ => rfl

theorem save : Rises layout [.save] (-8) := single trivial fun _ => rfl

theorem init : Rises layout [.init] (-8) := single trivial fun _ => rfl

theorem unary {o : Operator} (ho : o.isUnary = true) : Rises layout [.oper o] 0 :=
  single trivial fun _ => by simp [Instruction.effect?, ho]

theorem binary {o : Operator} (ho : o.isUnary = false) : Rises layout [.oper o] (-4) :=
  single trivial fun _ => by simp [Instruction.effect?, ho]

/-- A word is dropped. -/
theorem drop : Rises layout [.push 4, .popn] (-4) :=
  have hpush : layout.Admits (.push 4) := trivial
  have hpopn : layout.Admits .popn := trivial
  (pair (d := -8) hpush hpopn (fun _ => rfl) fun _ => rfl).congr (by decide)

theorem callee {frame : Frame} {id : NodeId} (hframe : layout.frames[id]? = some frame) :
    Rises layout [.name frame.label, .call frame] (4 + -frame.parametersSize) :=
  have hname : layout.Admits (.name frame.label) := trivial
  have hcall : layout.Admits (.call frame) := ⟨id, hframe⟩
  pair hname hcall (fun _ => rfl) fun _ => if_pos rfl

theorem loads (n : Nat) : Rises layout (List.replicate n .load) 0 := by
  induction n with
  | zero => exact nil
  | succ n ih => exact load.append ih le_rfl

theorem frameAddress (hops : Nat) : Rises layout (NestedFun.frameAddress hops) 4 :=
  have hregister : Rises layout [.regn .framePointer] 4 := single trivial fun _ => rfl
  hregister.append (loads hops) (by decide)

/-- An offset is added to the address of a frame. -/
theorem offset (hops : Nat) (w : Word) :
    Rises layout (NestedFun.frameAddress hops ++ [.push w, .oper .add]) 4 :=
  (frameAddress hops).append ((push w).append (binary rfl) (by decide)) (by decide)

theorem keptZero (keep : Bool) (span : Span) :
    Rises layout (NestedFun.keptZero keep span).instructions (if keep then 4 else 0) := by
  cases keep with
  | false => exact nil
  | true => exact push 0

/-! ### Jumps -/

/-- A branch: the condition stands behind both alternatives. -/
theorem branch (labels : BranchLabels) (hp : Rises layout p 0)
    (hq : Rises layout q 0) (hc : Rises layout c 4) (hk : Rises layout k d) :
    Rises layout ([Instruction.name labels.condition, .ujmp, .label labels.positive] ++ (p ++
      ([Instruction.name labels.stop, .ujmp, .label labels.negative] ++ (q ++
      ([Instruction.name labels.stop, .ujmp, .label labels.condition] ++ (c ++
      ([Instruction.name labels.positive, .name labels.negative, .cjmp, .label labels.stop] ++
        k))))))) d := by
  obtain ⟨hadmitsP, jp, hlengthP, hjp, hwalkP⟩ := hp
  obtain ⟨hadmitsQ, jq, hlengthQ, hjq, hwalkQ⟩ := hq
  obtain ⟨hadmitsC, jc, hlengthC, hjc, hwalkC⟩ := hc
  obtain ⟨hadmitsK, jk, hlengthK, hjk, hwalkK⟩ := hk
  refine ⟨?_,
    [0, 4, 0] ++ (jp ++ ([0, 4, 0] ++ (jq ++ ([0, 4, 0] ++ (jc ++ ([4, 8, 12, 0] ++ jk)))))),
    by simp [hlengthP, hlengthQ, hlengthC, hlengthK], ?_, ?_⟩
  · simp only [List.forall_mem_append]
    exact ⟨by simp [Layout.Admits], hadmitsP, by simp [Layout.Admits], hadmitsQ,
      by simp [Layout.Admits], hadmitsC, by simp [Layout.Admits], hadmitsK⟩
  · simp only [List.forall_mem_append]
    exact ⟨by simp, hjp, by simp, hjq, by simp, hjc, by simp, hjk⟩
  · intro known before h hknown
    simp only [List.cons_append, List.nil_append, marks_cons, marks_append hlengthP,
      marks_append hlengthQ, marks_append hlengthC, Instruction.label?, Option.map_some,
      Option.map_none, Option.toList_some, Option.toList_none] at hknown
    have hcondition : known labels.condition h := by
      simpa using hknown labels.condition 0 (by simp)
    have hpositive : known labels.positive h := by
      simpa using hknown labels.positive 0 (by simp)
    have hnegative : known labels.negative h := by
      simpa using hknown labels.negative 0 (by simp)
    have hstop : known labels.stop h := by
      simpa using hknown labels.stop 0 (by simp)
    have hwalkP' (before) := hwalkP known before h fun l x hx => hknown l x (by simp [hx])
    have hwalkQ' (before) := hwalkQ known before h fun l x hx => hknown l x (by simp [hx])
    have hwalkC' (before) := hwalkC known before h fun l x hx => hknown l x (by simp [hx])
    have hwalkK' (before) := hwalkK known before h fun l x hx => hknown l x (by simp [hx])
    simp only [Int.add_zero] at hwalkP' hwalkQ'
    simp only [List.map_append, List.map_cons, List.cons_append, List.nil_append, Int.add_zero]
    exact .goto hcondition (.label ((hwalkP' _).append (.goto hstop (.label ((hwalkQ' _).append
      (.goto hstop (.label ((hwalkC' _).append (.choose hpositive hnegative
        (.label (hwalkK' _)))))))))))

/-- A loop: its condition stands in front of the body. -/
theorem loop (labels : LoopLabels) (hc : Rises layout c 4) (hp : Rises layout p 0)
    (hk : Rises layout k d) :
    Rises layout ([Instruction.label labels.condition] ++ (c ++
      ([Instruction.name labels.body, .name labels.stop, .cjmp, .label labels.body] ++ (p ++
      ([Instruction.name labels.condition, .ujmp, .label labels.stop] ++ k))))) d := by
  obtain ⟨hadmitsC, jc, hlengthC, hjc, hwalkC⟩ := hc
  obtain ⟨hadmitsP, jp, hlengthP, hjp, hwalkP⟩ := hp
  obtain ⟨hadmitsK, jk, hlengthK, hjk, hwalkK⟩ := hk
  refine ⟨?_, [0] ++ (jc ++ ([4, 8, 12, 0] ++ (jp ++ ([0, 4, 0] ++ jk)))),
    by simp [hlengthC, hlengthP, hlengthK], ?_, ?_⟩
  · simp only [List.forall_mem_append]
    exact ⟨by simp [Layout.Admits], hadmitsC, by simp [Layout.Admits], hadmitsP,
      by simp [Layout.Admits], hadmitsK⟩
  · simp only [List.forall_mem_append]
    exact ⟨by simp, hjc, by simp, hjp, by simp, hjk⟩
  · intro known before h hknown
    simp only [List.cons_append, List.nil_append, marks_cons, marks_append hlengthC,
      marks_append hlengthP, Instruction.label?, Option.map_some, Option.map_none,
      Option.toList_some, Option.toList_none] at hknown
    have hcondition : known labels.condition h := by
      simpa using hknown labels.condition 0 (by simp)
    have hbody : known labels.body h := by
      simpa using hknown labels.body 0 (by simp)
    have hstop : known labels.stop h := by
      simpa using hknown labels.stop 0 (by simp)
    have hwalkC' (before) := hwalkC known before h fun l x hx => hknown l x (by simp [hx])
    have hwalkP' (before) := hwalkP known before h fun l x hx => hknown l x (by simp [hx])
    have hwalkK' (before) := hwalkK known before h fun l x hx => hknown l x (by simp [hx])
    simp only [Int.add_zero] at hwalkP'
    simp only [List.map_append, List.map_cons, List.cons_append, List.nil_append, Int.add_zero]
    exact .label ((hwalkC' _).append (.choose hbody hstop (.label ((hwalkP' _).append
      (.goto hcondition (.label (hwalkK' _)))))))

end Rises

/-! ## Generated code -/

@[simp] theorem Code.instructions_nil : Code.instructions [] = [] := rfl

@[simp] theorem Code.instructions_append (a b : Code) :
    Code.instructions (a ++ b) = a.instructions ++ b.instructions :=
  List.map_append

@[simp] theorem Code.instructions_spanning (span : Span) (is : List Instruction) :
    (Code.spanning span is).instructions = is := by
  rw [instructions, spanning, List.map_map]
  exact List.map_id is

/-- The numbers of words that generated code relies on: constants that are no strings are one word,
and calls pass as many arguments as the function takes. -/
def Context.Counts (context : Context) : Expression → Prop
  | .literal _ value => value.kind ≠ .string → value.words.length = 1
  | .call node _ arguments => ∀ frame, context.calleeOf node.id = .ok frame →
      frame.parametersSize = 4 * arguments.length + 4
  | .name _ _ | .unary _ _ _ | .binary _ _ _ _ => True

section

variable {context : Context} {frame : Frame} {g g' : Generated} {code : Code}

theorem Context.frame_of_calleeOf {id : NodeId} {callee : Frame}
    (h : context.calleeOf id = .ok callee) :
    ∃ id' : NodeId, context.layout.frames[id']? = some callee := by
  obtain ⟨id', -, hframe⟩ := bind_eq_ok h
  exact ⟨id', Layout.getElem?_of_frame hframe⟩

theorem nameAddress_rises {node : Node} (h : nameAddress context frame node = .ok code) :
    Rises context.layout code.instructions 4 := by
  obtain ⟨access, -, h⟩ := bind_eq_ok h
  split at h
  · cases h
    exact .name _
  · split at h
    · cases h
      rw [Code.instructions_spanning]
      exact .offset _ _
    · cases h

theorem callCode_rises {callee : Frame} {node : Node} {id : NodeId}
    (hcallee : context.layout.frames[id]? = some callee)
    (h : callCode frame callee node = .ok code) :
    Rises context.layout code.instructions (4 + (4 + -callee.parametersSize)) := by
  rw [callCode] at h
  split at h
  · cases h
    rw [Code.instructions_spanning]
    exact (Rises.frameAddress _).append (.callee hcallee) (by decide)
  · cases h

mutual

/-- The code of an expression adds one word to the stack. -/
theorem Expression.value_rises (e : Expression) {g g' : Generated} {code : Code}
    (hcounts : ∀ part ∈ e.parts, context.Counts part)
    (h : e.value context frame g = .ok (code, g')) : Rises context.layout code.instructions 4 := by
  cases e with
  | literal node value =>
      have hwords := hcounts _ List.mem_cons_self
      rcases Expression.literal_generated h with ⟨hkind, rfl, rfl⟩ | ⟨-, rfl, rfl⟩
      · obtain ⟨w, hw⟩ := List.length_eq_one_iff.mp (hwords hkind)
        rw [Code.instructions_spanning, hw]
        exact .push w
      · exact .name _
  | name node name =>
      obtain ⟨address, haddress, rfl, rfl⟩ := Expression.name_generated h
      rw [Code.instructions_append]
      exact (nameAddress_rises haddress).append .load (by decide)
  | call node name arguments =>
      have hcount := hcounts _ List.mem_cons_self
      obtain ⟨callee, pushed, call, hcallee, hpushed, hcall, rfl⟩ := Expression.call_generated h
      rw [Code.instructions_append]
      have harguments := argumentValues_rises arguments
        (fun part hpart => hcounts part (List.mem_cons_of_mem _ hpart)) hpushed
      obtain ⟨id, hframe⟩ := Context.frame_of_calleeOf hcallee
      refine (harguments.append (callCode_rises hframe hcall) (by omega)).congr ?_
      have := hcount callee hcallee
      omega
  | unary node operator operand =>
      have hparts : ∀ part ∈ operand.parts, context.Counts part :=
        fun part hpart => hcounts part (List.mem_cons_of_mem _ hpart)
      rcases Expression.unary_generated h with
        ⟨-, hc⟩ | ⟨-, hc⟩ | ⟨c, hc, ⟨-, rfl⟩ | ⟨-, rfl⟩ | ⟨-, rfl⟩⟩
      · exact operand.value_rises hparts hc
      · exact operand.address_rises hparts hc
      all_goals rw [Code.instructions_append]
      · exact (operand.value_rises hparts hc).append (.unary rfl) (by decide)
      · exact (operand.value_rises hparts hc).append (.unary rfl) (by decide)
      · exact (operand.value_rises hparts hc).append .load (by decide)
  | binary node operator left right =>
      obtain ⟨r, g₁, l, hr, hl, rfl⟩ := Expression.binary_generated h
      have hright := right.value_rises (fun part hpart => hcounts part
        (List.mem_cons_of_mem _ (List.mem_append_right _ hpart))) hr
      have hleft := left.value_rises (fun part hpart => hcounts part
        (List.mem_cons_of_mem _ (List.mem_append_left _ hpart))) hl
      simp only [Code.instructions_append, Code.instructions_spanning]
      exact (hright.append hleft (by decide)).append
        (.binary (by cases operator.kind <;> rfl)) (by decide)

theorem Expression.address_rises (e : Expression) {g g' : Generated} {code : Code}
    (hcounts : ∀ part ∈ e.parts, context.Counts part)
    (h : e.address context frame g = .ok (code, g')) :
    Rises context.layout code.instructions 4 := by
  cases e with
  | name node name =>
      exact nameAddress_rises (Expression.name_address_generated h).1
  | unary node operator operand =>
      exact operand.value_rises (fun part hpart => hcounts part (List.mem_cons_of_mem _ hpart))
        (Expression.unary_address_generated h).2
  | literal node value => cases h
  | call node name arguments => cases h
  | binary node operator left right => cases h

theorem argumentValues_rises (es : List Expression) {g g' : Generated} {code : Code}
    (hcounts : ∀ part ∈ expressionParts es, context.Counts part)
    (h : argumentValues context frame es g = .ok (code, g')) :
    Rises context.layout code.instructions (4 * es.length) := by
  cases es with
  | nil =>
      cases h
      exact .nil
  | cons e es =>
      obtain ⟨others, g₁, first, hothers, hfirst, rfl⟩ := argumentValues_cons_generated h
      rw [Code.instructions_append]
      have hes := argumentValues_rises es
        (fun part hpart => hcounts part (List.mem_append_right _ hpart)) hothers
      have he := e.value_rises
        (fun part hpart => hcounts part (List.mem_append_left _ hpart)) hfirst
      refine (hes.append he (by omega)).congr ?_
      rw [List.length_cons]
      omega

end

/-- What is counted in the uses of an expression is counted in its parts. -/
theorem counts_parts {e : Expression} {head : FunctionHead}
    (h : ∀ use ∈ e.uses head, context.Counts use.2) : ∀ part ∈ e.parts, context.Counts part :=
  fun part hpart => h (head, part) (List.mem_map.mpr ⟨part, hpart, rfl⟩)

theorem emitLocal_rises {head : Variable} (h : emitLocal context head g = .ok (code, g')) :
    Rises context.layout code.instructions 0 := by
  obtain ⟨offset, depth, size, contents, -, rfl, -⟩ := emitLocal_generated h
  rw [Code.instructions_spanning]
  exact (Rises.offset 0 (.ofInt offset)).append ((Rises.name _).append .init (by decide))
    (by decide)

/-- What is carried out where definitions stand leaves the stack as it is. -/
theorem generateDefinitions_rises (ds : List Definition) {g g' : Generated} {code : Code}
    (h : generateDefinitions context ds g = .ok (code, g')) :
    Rises context.layout code.instructions 0 := by
  induction ds generalizing g code with
  | nil =>
      cases h
      exact .nil
  | cons d ds ih =>
      obtain ⟨first, g₁, others, hfirst, hothers, rfl⟩ := generateDefinitions_cons_generated h
      have hd : Rises context.layout first.instructions 0 := by
        cases d with
        | var head => exact emitLocal_rises (Definition.var_generated hfirst)
        | func head body =>
            rw [(Definition.func_generated hfirst).1]
            exact .nil
      rw [Code.instructions_append]
      exact hd.append (ih hothers) le_rfl

mutual

/-- The code of a statement adds nothing to the stack, unless the value is kept. -/
theorem Statement.generate_rises (s : Statement) {head : FunctionHead} {keep : Bool}
    {g g' : Generated} {code : Code} (hcounts : ∀ use ∈ s.uses head, context.Counts use.2)
    (h : s.generate context frame keep g = .ok (code, g')) :
    Rises context.layout code.instructions (if keep then 4 else 0) := by
  cases s with
  | eval node value =>
      obtain ⟨c, hc, rfl⟩ := Statement.eval_generated h
      have hvalue := value.value_rises (counts_parts hcounts) hc
      rw [Code.instructions_append]
      cases keep with
      | true => exact hvalue.append .nil (by decide)
      | false => exact hvalue.append (e := -4) .drop (by decide)
  | assign node target source =>
      obtain ⟨v, g₁, a, hv, ha, rfl⟩ := Statement.assign_generated h
      have hsource := source.value_rises (counts_parts fun use huse =>
        hcounts use (List.mem_append_right _ huse)) hv
      have htarget := target.address_rises (counts_parts fun use huse =>
        hcounts use (List.mem_append_left _ huse)) ha
      simp only [Code.instructions_append, Code.instructions_spanning]
      exact ((hsource.append htarget (by decide)).append .save (by decide)).append
        (.keptZero keep node.span) (by decide) |>.congr (by simp)
  | branch node condition positive negative =>
      obtain ⟨p, g₁, q, g₂, c, hp, hq, hc, rfl⟩ := Statement.branch_generated h
      have hcondition := condition.value_rises (counts_parts fun use huse =>
        hcounts use (List.mem_append_left _ (List.mem_append_left _ huse))) hc
      have hpositive := generateStatements_rises positive (fun use huse =>
        hcounts use (List.mem_append_left _ (List.mem_append_right _ huse))) hp
      have hnegative := generateStatements_rises negative (fun use huse =>
        hcounts use (List.mem_append_right _ huse)) hq
      simpa using Rises.branch (branchLabels g.labels.next) hpositive hnegative hcondition (.keptZero keep node.span)
  | loop node condition body =>
      obtain ⟨c, g₁, p, hc, hp, rfl⟩ := Statement.loop_generated h
      have hcondition := condition.value_rises (counts_parts fun use huse =>
        hcounts use (List.mem_append_left _ huse)) hc
      have hbody := generateStatements_rises body (fun use huse =>
        hcounts use (List.mem_append_right _ huse)) hp
      simpa using Rises.loop (loopLabels g.labels.next) hcondition hbody (.keptZero keep node.span)
  | block node ds body =>
      obtain ⟨entry, g₁, c, hentry, hc, rfl⟩ := Statement.block_generated h
      have hbody := generateStatements_rises body
        (fun use huse => hcounts use (List.mem_append_right _ huse)) hc
      rw [Code.instructions_append]
      exact ((generateDefinitions_rises ds hentry).append hbody le_rfl).congr (by simp)

theorem generateStatements_rises (ss : List Statement) {head : FunctionHead} {keep : Bool}
    {g g' : Generated} {code : Code}
    (hcounts : ∀ use ∈ statementsUses head ss, context.Counts use.2)
    (h : generateStatements context frame keep ss g = .ok (code, g')) :
    Rises context.layout code.instructions (if keep then 4 else 0) := by
  cases ss with
  | nil =>
      cases h
      exact .keptZero keep .nowhere
  | cons s ss =>
      have hs := fun use huse => hcounts use (List.mem_append_left _ huse)
      have hss := fun use huse => hcounts use (List.mem_append_right _ huse)
      cases ss with
      | nil =>
          exact s.generate_rises hs (generateStatements_single_generated h)
      | cons s' ss =>
          obtain ⟨first, g₁, others, hfirst, hothers, rfl⟩ := generateStatements_cons_generated h
          have hrises := generateStatements_rises (s' :: ss) hss hothers
          rw [Code.instructions_append]
          exact ((s.generate_rises hs hfirst).append hrises (by simp)).congr (by simp)

end

end

end NestedFun
