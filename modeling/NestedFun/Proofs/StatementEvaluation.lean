import NestedFun.Proofs.BlockEvaluation
import NestedFun.Proofs.JumpEvaluation
import NestedFun.Proofs.Surroundings

namespace NestedFun

/-!
# Statements in evaluations

The code of every expression and of every statement of a program without pointers computes what
evaluation says, by induction on the tree. The calls inside it and the further rounds of its loops
are taken from a bound that is smaller by one.
-/

def Expression.PointerFree (program : Program) (table : Std.TreeMap NodeId NodeId) : Expression → Prop
  | .literal _ value => value.kind ≠ .string
  | .unary _ operator _ => operator.kind ≠ .addressOf ∧ operator.kind ≠ .dereference
  | .call node _ _ => ∀ d ∈ program, table[node.id]? = some d.node.id →
      d.name.text ≠ "putstr" ∧ d.name.text ≠ "new"
  | .name _ _ | .binary _ _ _ _ => True

structure Env.Known (T : Target) (program : Program) (env : Env) : Prop
    extends env.Inside T program where
  bound : ∀ ds outer, (Region.definitions ds :: outer) <:+ env →
    BoundDefinitions T.context.definitions (.definitions ds :: outer) ds

namespace Env.Known

variable {T : Target} {program : Program} {env home : Env}

theorem suffix (h : env.Known T program) (hhome : home <:+ env) : home.Known T program where
  toInside := h.toInside.suffix hhome
  bound ds outer hsuffix := h.bound ds outer (hsuffix.trans hhome)

theorem parameters (h : env.Known T program) {head : FunctionHead}
    (hinside : Env.Inside T program (.parameters head :: env)) :
    Known T program (.parameters head :: env) where
  toInside := hinside
  bound ds outer hsuffix := by
    rcases List.suffix_cons_iff.mp hsuffix with heq | hsuffix
    · cases heq
    · exact h.bound ds outer hsuffix

theorem definitions (h : env.Known T program) {ds : List Definition}
    (hinside : Env.Inside T program (.definitions ds :: env))
    (hbound : BoundDefinitions T.context.definitions (.definitions ds :: env) ds) :
    Known T program (.definitions ds :: env) where
  toInside := hinside
  bound ds' outer hsuffix := by
    rcases List.suffix_cons_iff.mp hsuffix with heq | hsuffix
    · cases heq
      exact hbound
    · exact h.bound ds' outer hsuffix

end Env.Known

/-- What is known of statements of a program without pointers where they stand. -/
structure Standing (T : Target) (program : Program) (image : Image) (env : Env) (used limit : Int)
    (keep : Bool) (ss : List Statement) (code : Code) : Prop where
  known : env.Known T program
  depth_pos : 0 < env.depth
  coded : CodedStatements T env keep ss code
  bound : BoundStatements T.context.definitions env ss
  placed : env.Placed T.layout used limit
  room : ∃ before after, used ≤ before ∧ PlacedStatements T.layout env.depth before after ss ∧
    after ≤ limit
  subset : statementsInside ss ⊆ definitionsInside program
  owners : statementsOwners env.path ss ⊆ definitionsOwners [] program
  free : ∃ head, ∀ part ∈ statementsUses head ss,
    part.2.PointerFree program T.context.definitions
  holds : ∃ a, image.Holds a code

section

variable {T : Target} {program : Program} {segments : Segments} {image₀ : Image}
  {env : Env} {used limit : Int} {keep : Bool} {σ : List Word} {code : Code} {n : Nat}
  {run : List Statement → Eval Word}

theorem evaluateArguments_length {arguments : List Expression} {store store' : Store}
    {values : List Word} (h : evaluateArguments run arguments store = .ok values store') :
    values.length = arguments.length := by
  induction arguments generalizing values store' with
  | nil =>
      cases h
      rfl
  | cons argument arguments ih =>
      rw [evaluateArguments, Eval.bind_eq] at h
      cases hothers : evaluateArguments run arguments store with
      | error halt store₁ =>
          rw [hothers] at h
          cases h
      | ok others store₁ =>
          rw [hothers] at h
          simp only [Eval.bind_eq] at h
          cases hfirst : argument.evaluate run store₁ with
          | error halt store₂ =>
              rw [hfirst] at h
              cases h
          | ok first store₂ =>
              rw [hfirst] at h
              cases h
              rw [List.length_cons, List.length_cons, ih hothers]

/-- In a program without pointers, what is called and what is repeated computes what a bounded
evaluation says. -/
structure Bounded (T : Target) (program : Program) (segments : Segments) (image : Image) (n : Nat)
    (run : List Statement → Eval Word) : Prop where
  executable : ∃ s, Executable program T segments image s
  free : ∀ part ∈ definitionsUses program, part.2.PointerFree program T.context.definitions
  stores : program.StoresWords
  run : ∀ env used limit keep ss code σ, Standing T program image env used limit keep ss code →
    Computes T program segments n env used limit σ code (run ss)
      (fun w => if keep then w :: σ else σ)

/-- A call, whether its function has a body or not. -/
theorem Bounded.call (h : Bounded T program segments image₀ n run) (hknown : env.Known T program)
    {link : Code} {name : String} {meaning : Meaning} {head : FunctionHead} {body : List Statement}
    {frame : Frame} {span : Span} {values : List Word}
    (hlink : PushesLink T program segments env used limit meaning.home link)
    (hfind : env.find? name = some meaning) (hentity : meaning.entity = .function head body)
    (hframe : T.layout.frames[head.id]? = some frame)
    (hlength : head.parameters.length = values.length)
    (hnames : ∀ d ∈ program, d.node.id = head.id → d.name.text ≠ "putstr" ∧ d.name.text ≠ "new")
    (hlabel : ∃ w, image₀.labels[frame.label]? = some w) :
    Computes T program segments (n + 1) env used limit (values ++ σ)
      (link ++ Code.spanning span [.name frame.label, .call frame]) (Eval.call run name values)
      (fun w => w :: σ) := by
  obtain ⟨w, hlabel⟩ := hlabel
  obtain ⟨s₀, h₀⟩ := h.executable
  obtain ⟨hfits, ⟨hbody, c, hc, hfragment, hinside, hmem, howners, hplaced, hstatements, b, -, -, -,
    hholds⟩ | ⟨rfl, -⟩⟩ := h₀.callee hknown.toInside hfind hentity hframe hlabel
  · obtain ⟨region, outer, hhome, hlookup⟩ := Env.find?_region hfind
    have hsuffix := (Env.find?_home hfind).1
    have hbound : BoundStatements T.context.definitions (.parameters head :: meaning.home) body := by
      rw [hentity] at hlookup
      cases region with
      | parameters head' =>
          obtain ⟨p, -, heq⟩ := List.mem_map.mp (mem_of_lookup hlookup)
          cases heq
      | definitions ds =>
          have hds := (mem_entities_function (mem_of_lookup hlookup)).1
          rw [hhome] at hsuffix ⊢
          exact ((hknown.bound ds outer hsuffix).mem hds).2
    refine .call hlink hfind hentity hbody hframe hplaced hfragment hlength (h.run _ _ _ true body c [] ?_)
    rw [functionCode, Image.holds_append, Image.holds_append] at hholds
    exact {
      known := (hknown.suffix hsuffix).parameters hinside
      depth_pos := by rw [Env.depth_parameters]; exact Nat.succ_pos _
      coded := hc
      bound := hbound
      placed := hplaced
      room := ⟨0, _, le_rfl, by rwa [Env.depth_parameters], le_rfl⟩
      subset := fun _ he => definitionsInside_subset hmem (List.mem_cons_of_mem _ he)
      owners := fun _ he => howners (List.mem_cons_of_mem _ (List.mem_append_right _ he))
      free := ⟨head, fun part hpart => h.free part (definitionsUses_of_inside hmem hpart)⟩
      holds := ⟨_, hholds.1.2⟩ }
  · exact .system h₀ hlabel hknown.toInside hlink hfind hentity hframe hlength
      fun htop => hnames _ htop rfl

mutual

/-- The code of an expression computes its value. -/
theorem Expression.computes (e : Expression) {code : Code} {σ : List Word}
    (h : Bounded T program segments image₀ n run)
    (hknown : env.Known T program) (hdepth : 0 < env.depth) (hcoded : e.Coded T env code)
    (hbound : e.Bound T.context.definitions env)
    (hfree : ∀ part ∈ e.parts, part.PointerFree program T.context.definitions)
    (hholds : ∃ a, image₀.Holds a code) :
    Computes T program segments (n + 1) env used limit σ code (e.evaluate run) (fun w => w :: σ) := by
  obtain ⟨a, hholds⟩ := hholds
  cases e with
  | literal node value =>
      have hstring := hfree _ List.mem_cons_self
      rcases hcoded with ⟨-, w, hw, rfl⟩ | ⟨hkind, -⟩
      · rw [Expression.evaluate, hw]
        cases hkind : value.kind with
        | integer => exact .push w
        | character => exact .push w
        | string => exact absurd hkind hstring
      · exact absurd hkind hstring
  | name node name =>
      obtain ⟨place, hplace, rfl⟩ := hcoded
      exact .read hdepth hplace
  | call node callee arguments =>
      obtain ⟨meaning, head, body, frame, pushed, hfind, hentity, hlength, hframe, hpushed, rfl⟩ :=
        hcoded
      obtain ⟨⟨meaning', head', body', hfind', hentity', -, htable⟩, hbound⟩ := hbound
      obtain rfl : meaning = meaning' := Option.some.inj (hfind.symm.trans hfind')
      obtain ⟨rfl, rfl⟩ := Entity.function.inj (hentity.symm.trans hentity')
      have hnames := hfree _ List.mem_cons_self
      rw [Image.holds_append, spanning_append, Image.holds_append] at hholds
      obtain ⟨⟨-, hlabel⟩, -⟩ := (Image.holds_cons _ _ _ _).mp hholds.2.2
      rw [spanning_append]
      refine .bind_of (P := fun values => values.length = arguments.length)
        (fun _ _ _ hvalues => evaluateArguments_length hvalues)
        (arguments_compute arguments h hknown hdepth hpushed hbound
          (fun part hpart => hfree part (List.mem_cons_of_mem _ hpart)) ⟨a, hholds.1⟩)
        fun values hvalues => ?_
      exact h.call hknown (pushesLink_frameAddress hdepth hfind) hfind hentity hframe
        (hlength.trans hvalues.symm) (fun d hd hid => hnames d hd (htable.trans (congrArg some hid.symm)))
        hlabel
  | unary node operator operand =>
      have hpart := fun part hpart => hfree part (List.mem_cons_of_mem _ hpart)
      have hkind := hfree _ List.mem_cons_self
      obtain ⟨-, hbound⟩ := hbound
      rw [Expression.Coded] at hcoded
      rw [Expression.evaluate]
      split at hcoded
      · rename_i hnot
        obtain ⟨c, hc, rfl⟩ := hcoded
        rw [Image.holds_append] at hholds
        rw [hnot]
        exact .bind (Expression.computes operand h hknown hdepth hc hbound hpart ⟨a, hholds.1⟩)
          fun x => .unary rfl rfl
      · rename_i hnegate
        obtain ⟨c, hc, rfl⟩ := hcoded
        rw [Image.holds_append] at hholds
        rw [hnegate]
        exact .bind (Expression.computes operand h hknown hdepth hc hbound hpart ⟨a, hholds.1⟩)
          fun x => .unary rfl rfl
      · rename_i hidentity
        rw [hidentity]
        exact Expression.computes operand h hknown hdepth hcoded hbound hpart ⟨a, hholds⟩
      · rename_i haddress
        exact absurd haddress hkind.1
      · rename_i hdereference
        exact absurd hdereference hkind.2
  | binary node operator left right =>
      obtain ⟨r, l, hr, hl, rfl⟩ := hcoded
      obtain ⟨hleft, hright⟩ := hbound
      rw [Image.holds_append, Image.holds_append] at hholds
      rw [List.append_assoc]
      refine .bind (Expression.computes right h hknown hdepth hr hright
        (fun part hpart => hfree part (List.mem_cons_of_mem _ (List.mem_append_right _ hpart)))
        ⟨a, hholds.1.1⟩) fun y => ?_
      exact .bind (Expression.computes left h hknown hdepth hl hleft
        (fun part hpart => hfree part (List.mem_cons_of_mem _ (List.mem_append_left _ hpart)))
        ⟨_, hholds.1.2⟩) fun x => .binary operator.kind

/-- The code of arguments computes their values. -/
theorem arguments_compute (es : List Expression) {code : Code} {σ : List Word}
    (h : Bounded T program segments image₀ n run)
    (hknown : env.Known T program) (hdepth : 0 < env.depth) (hcoded : CodedArguments T env es code)
    (hbound : BoundExpressions T.context.definitions env es)
    (hfree : ∀ part ∈ expressionParts es, part.PointerFree program T.context.definitions)
    (hholds : ∃ a, image₀.Holds a code) :
    Computes T program segments (n + 1) env used limit σ code (evaluateArguments run es)
      (fun values => values ++ σ) := by
  obtain ⟨a, hholds⟩ := hholds
  cases es with
  | nil =>
      obtain rfl : code = [] := hcoded
      exact .nil []
  | cons e es =>
      obtain ⟨others, first, hothers, hfirst, rfl⟩ := hcoded
      rw [Image.holds_append] at hholds
      refine .bind (arguments_compute es h hknown hdepth hothers hbound.2
        (fun part hpart => hfree part (List.mem_append_right _ hpart)) ⟨a, hholds.1⟩) fun values => ?_
      rw [← List.append_nil first]
      exact .bind (Expression.computes e h hknown hdepth hfirst hbound.1
        (fun part hpart => hfree part (List.mem_append_left _ hpart)) ⟨_, hholds.2⟩) fun w => .nil _

end

namespace Standing

variable {ss : List Statement} {node : Node} {condition : Expression}

theorem piece {c : Code} (h : Standing T program image₀ env used limit keep ss code)
    (hpiece : c <:+: code) : ∃ a, image₀.Holds a c := by
  obtain ⟨a, ha⟩ := h.holds
  obtain ⟨b, -, -, hb⟩ := ha.infix hpiece
  exact ⟨b, hb⟩

/-- A part of statements that stands among the same names. -/
theorem part {parts : List Statement} {keep' : Bool} {c : Code} {before after : Int}
    (h : Standing T program image₀ env used limit keep ss code) (hpiece : c <:+: code)
    (hcoded : CodedStatements T env keep' parts c)
    (hbound : BoundStatements T.context.definitions env parts) (hused : used ≤ before)
    (hplaced : PlacedStatements T.layout env.depth before after parts) (hlimit : after ≤ limit)
    (hsubset : statementsInside parts ⊆ statementsInside ss)
    (howners : statementsOwners env.path parts ⊆ statementsOwners env.path ss)
    (huses : ∀ head, statementsUses head parts ⊆ statementsUses head ss) :
    Standing T program image₀ env used limit keep' parts c where
  known := h.known
  depth_pos := h.depth_pos
  coded := hcoded
  bound := hbound
  placed := h.placed
  room := ⟨before, after, hused, hplaced, hlimit⟩
  subset := List.Subset.trans hsubset h.subset
  owners := List.Subset.trans howners h.owners
  free := by
    obtain ⟨head, hfree⟩ := h.free
    exact ⟨head, fun part hpart => hfree part (huses head hpart)⟩
  holds := h.piece hpiece

/-- The first of several statements and the others. -/
theorem cons {s t : Statement}
    (h : Standing T program image₀ env used limit keep (s :: t :: ss) code) :
    ∃ first others, code = first ++ others ∧
      Standing T program image₀ env used limit false [s] first ∧
      Standing T program image₀ env used limit keep (t :: ss) others := by
  obtain ⟨first, others, hfirst, hothers, rfl⟩ := h.coded
  obtain ⟨before, after, hused, ⟨between, hs, hss⟩, hlimit⟩ := h.room
  have hle := hs.before_le
  have hle' := hss.before_le
  refine ⟨first, others, rfl, ?_, ?_⟩
  · have hplaced : PlacedStatements T.layout env.depth before between [s] := ⟨between, hs, rfl⟩
    refine h.part (List.prefix_append _ _).isInfix hfirst ⟨h.bound.1, trivial⟩ hused hplaced
      (by omega) ?_ ?_ ?_
    · simp [statementsInside]
    · simp [statementsOwners]
    · simp [statementsUses]
  · exact h.part (List.suffix_append _ _).isInfix hothers h.bound.2 (by omega) hss hlimit
      (List.subset_append_right _ _) (List.subset_append_right _ _)
      fun _ => List.subset_append_right _ _

/-- The alternatives of a branch. -/
theorem branch {positive negative : List Statement} {p q : Code}
    (h : Standing T program image₀ env used limit keep [.branch node condition positive negative] code)
    (hp : CodedStatements T env false positive p) (hq : CodedStatements T env false negative q)
    (hpiece : p <:+: code) (hpiece' : q <:+: code) :
    Standing T program image₀ env used limit false positive p ∧
      Standing T program image₀ env used limit false negative q := by
  obtain ⟨⟨-, hpositive, hnegative⟩, -⟩ := h.bound
  obtain ⟨before, after, hused, ⟨_, ⟨between, hplaced, hplaced'⟩, rfl⟩, hlimit⟩ := h.room
  have hle := hplaced.before_le
  have hle' := hplaced'.before_le
  constructor
  · refine h.part hpiece hp hpositive hused hplaced (by omega) ?_ ?_ fun head => ?_
    · simp [statementsInside, Statement.inside]
    · simp [statementsOwners, Statement.owners]
    · intro part hpart
      simp [statementsUses, Statement.uses, hpart]
  · refine h.part hpiece' hq hnegative (by omega) hplaced' hlimit ?_ ?_ fun head => ?_
    · simp [statementsInside, Statement.inside]
    · simp [statementsOwners, Statement.owners]
    · intro part hpart
      simp [statementsUses, Statement.uses, hpart]

/-- The body of a loop. -/
theorem loop {body : List Statement} {p : Code}
    (h : Standing T program image₀ env used limit keep [.loop node condition body] code)
    (hp : CodedStatements T env false body p) (hpiece : p <:+: code) :
    Standing T program image₀ env used limit false body p := by
  obtain ⟨⟨-, hbody⟩, -⟩ := h.bound
  obtain ⟨before, after, hused, ⟨_, hplaced, rfl⟩, hlimit⟩ := h.room
  refine h.part hpiece hp hbody hused hplaced hlimit ?_ ?_ fun head => ?_
  · simp [statementsInside, Statement.inside]
  · simp [statementsOwners, Statement.owners]
  · intro part hpart
    simp [statementsUses, Statement.uses, hpart]

/-- The statements of a block stand behind its definitions, which have room of their own. -/
theorem block {ds : List Definition} {body : List Statement} {entry c : Code}
    (h : Standing T program image₀ env used limit keep [.block node ds body] (entry ++ c))
    (hentry : CodedDefinitions T (.definitions ds :: env) ds entry)
    (hc : CodedStatements T (.definitions ds :: env) keep body c) :
    ∃ before between, used ≤ before ∧ PlacedDefinitions T.layout env.depth before between ds ∧
      between ≤ limit ∧ ds ⊆ definitionsInside program ∧
      Standing T program image₀ (.definitions ds :: env) between limit keep body c := by
  obtain ⟨⟨-, hds, hbody⟩, -⟩ := h.bound
  obtain ⟨before, after, hused, ⟨_, ⟨between, hplaced, hplaced'⟩, rfl⟩, hlimit⟩ := h.room
  obtain ⟨head, hfree⟩ := h.free
  have hle := hplaced'.before_le
  have henv : Env.Placed T.layout (.definitions ds :: env) between limit :=
    .definitions h.placed hused hplaced (by omega)
  have hsubset : ds ⊆ definitionsInside program := fun d hd =>
    h.subset (List.mem_append_left _ (List.mem_append_left _ (mem_definitionsInside hd)))
  have howners : definitionsOwners env.path ds ⊆ definitionsOwners [] program := fun _ he =>
    h.owners (List.mem_append_left _ (List.mem_append_left _ he))
  have hinside : Env.Inside T program (.definitions ds :: env) :=
    h.known.toInside.definitions hentry hsubset h.depth_pos howners henv
  have hdepth : Env.depth (.definitions ds :: env) = env.depth := env.depth_definitions ds
  refine ⟨before, between, hused, hplaced, by omega, hsubset, ?_⟩
  exact {
    known := h.known.definitions hinside hds
    depth_pos := hdepth.symm ▸ h.depth_pos
    coded := hc
    bound := hbody
    placed := henv
    room := ⟨between, _, le_rfl, hdepth.symm ▸ hplaced', hlimit⟩
    subset := fun _ he => h.subset (List.mem_append_left _ (List.mem_append_right _ he))
    owners := fun _ he => h.owners (List.mem_append_left _ (List.mem_append_right _ he))
    free := ⟨head, fun part hpart => hfree part (List.mem_append_left _ (List.mem_append_right _ hpart))⟩
    holds := h.piece (List.suffix_append _ _).isInfix }

end Standing

theorem Statement.evaluate_branch (run : List Statement → Eval Word) (node : Node)
    (condition : Expression) (positive negative : List Statement) :
    (Statement.branch node condition positive negative).evaluate run =
      condition.evaluate run >>= fun w => (if w ≠ 0 then evaluateStatements run positive
        else evaluateStatements run negative) >>= fun _ => pure 0 := by
  rw [Statement.evaluate]
  congr
  funext w
  split <;> rfl

mutual

/-- The code of a statement computes what it evaluates to. -/
theorem Statement.computes (s : Statement) {env : Env} {used limit : Int} {keep : Bool} {code : Code}
    {σ : List Word} (h : Bounded T program segments image₀ n run)
    (hstanding : Standing T program image₀ env used limit keep [s] code) :
    Computes T program segments (n + 1) env used limit σ code (s.evaluate run)
      (fun w => if keep then w :: σ else σ) := by
  have hknown := hstanding.known
  have hdepth := hstanding.depth_pos
  obtain ⟨hbound, -⟩ := hstanding.bound
  obtain ⟨head, hfree⟩ := hstanding.free
  have hcoded : s.Coded T env keep code := hstanding.coded
  have hfree' : ∀ part ∈ s.uses head, part.2.PointerFree program T.context.definitions :=
    fun part hpart => hfree part (List.mem_append_left _ hpart)
  cases s with
  | eval node value =>
      obtain ⟨c, hc, rfl⟩ := hcoded
      have hvalue : Computes T program segments (n + 1) env used limit σ c (value.evaluate run)
          (fun w => w :: σ) :=
        Expression.computes value h hknown hdepth hc hbound (fun part hpart =>
          hfree' (head, part) (List.mem_map_of_mem hpart))
          (hstanding.piece (List.prefix_append _ _).isInfix)
      cases keep with
      | true =>
          rw [if_pos rfl, List.append_nil]
          exact hvalue
      | false =>
          have hdropped : Computes T program segments (n + 1) env used limit σ
              (c ++ Code.spanning node.span [.push 4, .popn]) (value.evaluate run >>= pure)
              (fun _ => σ) := hvalue.bind fun _ => .drop
          rw [bind_pure] at hdropped
          exact hdropped
  | assign node target source =>
      obtain ⟨-, htarget, hsource⟩ := hbound
      obtain ⟨v, a, hv, ha, rfl⟩ := hcoded
      have hvalue : Computes T program segments (n + 1) env used limit σ v (source.evaluate run)
          (fun w => w :: σ) :=
        Expression.computes source h hknown hdepth hv hsource (fun part hpart =>
          hfree' (head, part) (List.mem_append_right _ (List.mem_map_of_mem hpart)))
          (hstanding.piece (by
            rw [List.append_assoc, List.append_assoc]
            exact (List.prefix_append _ _).isInfix))
      cases target with
      | name node' name =>
          obtain ⟨place, hplace, rfl⟩ := ha
          rw [List.append_assoc v, List.append_assoc v]
          refine hvalue.bind fun w => ?_
          exact (Computes.assign hdepth hplace).bind fun _ => .keptZero keep
      | unary node' operator operand =>
          have hkind := hfree' (head, .unary node' operator operand)
            (List.mem_append_left _ (List.mem_map_of_mem List.mem_cons_self))
          exact absurd ha.1 hkind.2
      | literal | call | binary => exact ha.elim
  | branch node condition positive negative =>
      obtain ⟨hcondition, -⟩ := hbound
      obtain ⟨m, p, q, c, hp, hq, hc, hcode⟩ := hcoded
      have hpiece : ∀ piece ∈ [p, q, c], piece <:+: code := fun piece hmem =>
        hcode ▸ List.infix_of_mem_flatten (by
          simp only [List.mem_cons, List.not_mem_nil, or_false] at hmem ⊢
          tauto)
      obtain ⟨hpositive, hnegative⟩ := hstanding.branch hp hq (hpiece p (by simp)) (hpiece q (by simp))
      rw [Statement.evaluate_branch]
      exact .branch hcode
        (Expression.computes condition h hknown hdepth hc hcondition (fun part hpart =>
          hfree' (head, part) (List.mem_append_left _ (List.mem_append_left _
            (List.mem_map_of_mem hpart)))) (hstanding.piece (hpiece c (by simp))))
        (statements_compute positive h hpositive) (statements_compute negative h hnegative)
  | loop node condition body =>
      obtain ⟨hcondition, -⟩ := hbound
      obtain ⟨m, c, p, hc, hp, hcode⟩ := hcoded
      have hpiece : ∀ piece ∈ [c, p], piece <:+: code := fun piece hmem =>
        hcode ▸ List.infix_of_mem_flatten (by
          simp only [List.mem_cons, List.not_mem_nil, or_false] at hmem ⊢
          tauto)
      exact .loop hcode
        (Expression.computes condition h hknown hdepth hc hcondition (fun part hpart =>
          hfree' (head, part) (List.mem_append_left _ (List.mem_map_of_mem hpart)))
          (hstanding.piece (hpiece c (by simp))))
        (statements_compute body h (hstanding.loop hp (hpiece p (by simp))))
        (h.run _ _ _ _ _ _ _ hstanding)
  | block node ds body =>
      obtain ⟨entry, c, hentry, hc, rfl⟩ := hcoded
      obtain ⟨before, between, hused, hplaced, hlimit, hsubset, hbody⟩ := hstanding.block hentry hc
      exact .block hentry hplaced (fun d hd => h.stores d (hsubset hd)) hdepth hused hlimit
        (statements_compute body h hbody)

/-- The code of statements computes what they evaluate to. -/
theorem statements_compute (ss : List Statement) {env : Env} {used limit : Int} {keep : Bool}
    {code : Code} {σ : List Word} (h : Bounded T program segments image₀ n run)
    (hstanding : Standing T program image₀ env used limit keep ss code) :
    Computes T program segments (n + 1) env used limit σ code (evaluateStatements run ss)
      (fun w => if keep then w :: σ else σ) := by
  rcases ss with _ | ⟨s, _ | ⟨t, ss⟩⟩
  · obtain rfl : code = keptZero keep .nowhere := hstanding.coded
    exact .keptZero keep
  · exact Statement.computes s h hstanding
  · obtain ⟨first, others, rfl, hfirst, hothers⟩ := hstanding.cons
    exact .bind (Statement.computes s h hfirst) fun _ => statements_compute (t :: ss) h hothers

end

end

end NestedFun
