import NestedFun.Proofs.Unnumbered

namespace NestedFun

/-!
# The spans of nodes

Every node of a tree that is derived from tokens reaches from the start of one of them to the end of
one that is no earlier. So whatever holds of the spans of tokens, and of spans from one token to a later
one, holds of all spans in the tree.
-/

/-- A property that a span from a token to a later one has if both tokens have it. -/
structure Span.Joins (Q : Span → Prop) : Prop where
  le : ∀ span, Q span → span.start ≤ span.stop
  join : ∀ a b, Q a → Q b → a.start ≤ b.stop → Q ⟨a.start, b.stop⟩

/-! ## Trees -/

section

variable (Q : Span → Prop)

def Identifier.Spanned (name : Identifier) : Prop := Q name.span

def Parameter.Spanned (parameter : Parameter) : Prop := Q parameter.span ∧ parameter.name.Spanned Q

def FunctionHead.Spanned (head : FunctionHead) : Prop :=
  Q head.span ∧ head.name.Spanned Q ∧ ∀ parameter ∈ head.parameters, parameter.Spanned Q

def Variable.Spanned (head : Variable) : Prop := Q head.span ∧ head.name.Spanned Q

mutual

def Expression.Spanned : Expression → Prop
  | .literal node _ => Q node.span
  | .name node name => Q node.span ∧ name.Spanned Q
  | .call node callee arguments => Q node.span ∧ callee.Spanned Q ∧ SpannedExpressions arguments
  | .unary node _ operand => Q node.span ∧ operand.Spanned
  | .binary node _ left right => Q node.span ∧ left.Spanned ∧ right.Spanned

def SpannedExpressions : List Expression → Prop
  | [] => True
  | expression :: expressions => expression.Spanned ∧ SpannedExpressions expressions

end

mutual

def Definition.Spanned : Definition → Prop
  | .func head body => head.Spanned Q ∧ SpannedStatements body
  | .var head => head.Spanned Q

def SpannedDefinitions : List Definition → Prop
  | [] => True
  | definition :: definitions => definition.Spanned ∧ SpannedDefinitions definitions

def Statement.Spanned : Statement → Prop
  | .eval node value => Q node.span ∧ value.Spanned Q
  | .assign node target source => Q node.span ∧ target.Spanned Q ∧ source.Spanned Q
  | .branch node condition positive negative => Q node.span ∧ condition.Spanned Q ∧
      SpannedStatements positive ∧ SpannedStatements negative
  | .loop node condition body => Q node.span ∧ condition.Spanned Q ∧ SpannedStatements body
  | .block node definitions body =>
    Q node.span ∧ SpannedDefinitions definitions ∧ SpannedStatements body

def SpannedStatements : List Statement → Prop
  | [] => True
  | statement :: statements => statement.Spanned ∧ SpannedStatements statements

end

end

section

variable {Q : Span → Prop}

theorem Expression.Spanned.node {e : Expression} (h : e.Spanned Q) : Q e.node.span := by
  cases e with
  | literal node value => exact h
  | name | call | unary | binary => exact h.1

/-! ## Numbers do not matter -/

mutual

theorem Expression.spanned_unnumbered (e : Expression) (h : e.unnumbered.Spanned Q) : e.Spanned Q := by
  cases e with
  | literal node value => exact h
  | name node name => exact h
  | call node callee arguments => exact ⟨h.1, h.2.1, spannedExpressions_unnumbered arguments h.2.2⟩
  | unary node operator operand => exact ⟨h.1, operand.spanned_unnumbered h.2⟩
  | binary node operator left right =>
      exact ⟨h.1, left.spanned_unnumbered h.2.1, right.spanned_unnumbered h.2.2⟩

theorem spannedExpressions_unnumbered (es : List Expression)
    (h : SpannedExpressions Q (expressionsUnnumbered es)) : SpannedExpressions Q es := by
  cases es with
  | nil => trivial
  | cons e es => exact ⟨e.spanned_unnumbered h.1, spannedExpressions_unnumbered es h.2⟩

end

theorem FunctionHead.spanned_unnumbered (head : FunctionHead) (h : head.unnumbered.Spanned Q) :
    head.Spanned Q :=
  ⟨h.1, h.2.1, fun parameter hmem =>
    have hparameter := h.2.2 parameter.unnumbered (List.mem_map_of_mem hmem)
    hparameter⟩

mutual

theorem Definition.spanned_unnumbered (d : Definition) (h : d.unnumbered.Spanned Q) : d.Spanned Q := by
  cases d with
  | var head => exact h
  | func head body =>
      exact ⟨head.spanned_unnumbered h.1, spannedStatements_unnumbered body h.2⟩

theorem spannedDefinitions_unnumbered (ds : List Definition)
    (h : SpannedDefinitions Q (definitionsUnnumbered ds)) : SpannedDefinitions Q ds := by
  cases ds with
  | nil => trivial
  | cons d ds => exact ⟨d.spanned_unnumbered h.1, spannedDefinitions_unnumbered ds h.2⟩

theorem Statement.spanned_unnumbered (s : Statement) (h : s.unnumbered.Spanned Q) : s.Spanned Q := by
  cases s with
  | eval node value => exact ⟨h.1, value.spanned_unnumbered h.2⟩
  | assign node target source =>
      exact ⟨h.1, target.spanned_unnumbered h.2.1, source.spanned_unnumbered h.2.2⟩
  | branch node condition positive negative =>
      exact ⟨h.1, condition.spanned_unnumbered h.2.1, spannedStatements_unnumbered positive h.2.2.1,
        spannedStatements_unnumbered negative h.2.2.2⟩
  | loop node condition body =>
      exact ⟨h.1, condition.spanned_unnumbered h.2.1, spannedStatements_unnumbered body h.2.2⟩
  | block node definitions body =>
      exact ⟨h.1, spannedDefinitions_unnumbered definitions h.2.1,
        spannedStatements_unnumbered body h.2.2⟩

theorem spannedStatements_unnumbered (ss : List Statement)
    (h : SpannedStatements Q (statementsUnnumbered ss)) : SpannedStatements Q ss := by
  cases ss with
  | nil => trivial
  | cons s ss => exact ⟨s.spanned_unnumbered h.1, spannedStatements_unnumbered ss h.2⟩

end

end

/-! ## What derivations build -/

structure Span.Between (Q : Span → Prop) (lo hi : Nat) (span : Span) : Prop where
  has : Q span
  lo_le : lo ≤ span.start
  le_hi : span.stop ≤ hi

section

variable (Q : Span → Prop) (lo hi : Nat)

/-- The spans in what a phrase stands for have the property. Those that further nodes may be made of
are between two positions. -/
def Phrase.Stands : (p : Phrase) → p.Tree → Prop
  | .definitions => SpannedDefinitions Q
  | .definition => Definition.Spanned Q
  | .parameters | .moreParameters => fun parameters => ∀ parameter ∈ parameters, parameter.Spanned Q
  | .functionBody | .statements | .moreStatements | .otherwise => fun statements =>
    SpannedStatements Q statements ∧ ∀ statement ∈ statements, statement.node.span.Between Q lo hi
  | .initializer => fun initializer => initializer.span.Between Q lo hi
  | .moreInitializers => fun initializers =>
    ∀ initializer ∈ initializers, initializer.span.Between Q lo hi
  | .repeated => fun value => ∀ literal ∈ value, literal.span.Between Q lo hi
  | .constant => fun literal => literal.span.Between Q lo hi
  | .statement => fun statement => statement.Spanned Q ∧ statement.node.span.Between Q lo hi
  | .assigned => fun source => ∀ expression ∈ source,
    expression.Spanned Q ∧ expression.node.span.Between Q lo hi
  | .operation _ | .operand _ | .prefixed | .postfixed | .primary => fun expression =>
    expression.Spanned Q ∧ expression.node.span.Between Q lo hi
  | .moreOperands _ => fun others => ∀ other ∈ others,
    other.2.Spanned Q ∧ other.2.node.span.Between Q lo hi
  | .sign _ => fun sign => sign.1.span.Between Q lo hi
  | .prefixSign => fun sign => sign.1.span.Between Q lo hi
  | .carets => fun carets => ∀ caret ∈ carets, caret.span.Between Q lo hi
  | .called => fun call => ∀ found ∈ call,
    SpannedExpressions Q found.1 ∧ found.2.span.Between Q lo hi
  | .arguments | .moreArguments => SpannedExpressions Q

def Symbol.Stands : (s : Symbol) → s.Value → Prop
  | .token _ => fun token => token.span.Between Q lo hi
  | .phrase p => p.Stands Q lo hi

end

def StandTogether (Q : Span → Prop) (lo hi : Nat) : (form : List Symbol) → Values form → Prop
  | [], _ => True
  | s :: form, vs => s.Stands Q lo hi vs.1 ∧ StandTogether Q lo hi form vs.2

def StandsApart (Q : Span → Prop) (hi : Nat) : Nat → (form : List Symbol) → Values form → Prop
  | lo, [], _ => lo ≤ hi
  | lo, s :: form, vs => ∃ mid, lo ≤ mid ∧ s.Stands Q lo mid vs.1 ∧ StandsApart Q hi mid form vs.2

variable {Q : Span → Prop} {lo hi lo' hi' mid mid' : Nat}

theorem Span.Between.mono {span : Span} (h : span.Between Q lo hi) (hlo : lo' ≤ lo) (hhi : hi ≤ hi') :
    span.Between Q lo' hi' :=
  ⟨h.has, Nat.le_trans hlo h.lo_le, Nat.le_trans h.le_hi hhi⟩

theorem Phrase.Stands.mono {p : Phrase} {v : p.Tree} (h : p.Stands Q lo hi v) (hlo : lo' ≤ lo)
    (hhi : hi ≤ hi') : p.Stands Q lo' hi' v := by
  cases p with
  | definitions | definition | parameters | moreParameters | arguments | moreArguments => exact h
  | functionBody | statements | moreStatements | otherwise =>
      exact ⟨h.1, fun statement hmem => (h.2 statement hmem).mono hlo hhi⟩
  | initializer | constant | sign | prefixSign => exact Span.Between.mono h hlo hhi
  | moreInitializers | repeated | carets => exact fun x hmem => (h x hmem).mono hlo hhi
  | statement | operation | operand | prefixed | postfixed | primary =>
      exact ⟨h.1, h.2.mono hlo hhi⟩
  | assigned | moreOperands | called => exact fun x hmem => ⟨(h x hmem).1, (h x hmem).2.mono hlo hhi⟩

theorem Symbol.Stands.mono {s : Symbol} {v : s.Value} (h : s.Stands Q lo hi v) (hlo : lo' ≤ lo)
    (hhi : hi ≤ hi') : s.Stands Q lo' hi' v := by
  cases s with
  | token kind => exact Span.Between.mono h hlo hhi
  | phrase p => exact Phrase.Stands.mono h hlo hhi

/-- A span from one place to a later one. -/
theorem Span.Between.join (hQ : Span.Joins Q) {a b : Span} (ha : a.Between Q lo mid)
    (hb : b.Between Q mid' hi) (hmid : mid ≤ mid') : (⟨a.start, b.stop⟩ : Span).Between Q lo hi := by
  have hale := hQ.le a ha.has
  have hble := hQ.le b hb.has
  have hastop := ha.le_hi
  have hbstart := hb.lo_le
  exact ⟨hQ.join a b ha.has hb.has (by omega), ha.lo_le, hb.le_hi⟩

theorem standsApart_le {form : List Symbol} {vs : Values form} (h : StandsApart Q hi lo form vs) :
    lo ≤ hi := by
  induction form generalizing lo with
  | nil => exact h
  | cons s form ih =>
      obtain ⟨mid, hmid, -, hrest⟩ := h
      exact Nat.le_trans hmid (ih hrest)

theorem StandTogether.mono {form : List Symbol} {vs : Values form} (h : StandTogether Q lo hi form vs)
    (hlo : lo' ≤ lo) (hhi : hi ≤ hi') : StandTogether Q lo' hi' form vs := by
  induction form with
  | nil => trivial
  | cons s form ih => exact ⟨h.1.mono hlo hhi, ih h.2⟩

theorem standTogether_of_apart {form : List Symbol} {vs : Values form}
    (h : StandsApart Q hi lo form vs) : StandTogether Q lo hi form vs := by
  induction form generalizing lo with
  | nil => trivial
  | cons s form ih =>
      obtain ⟨mid, hmid, hfirst, hrest⟩ := h
      exact ⟨hfirst.mono (Nat.le_refl _) (standsApart_le hrest), (ih hrest).mono hmid (Nat.le_refl _)⟩

theorem Token.span_literal (token : Token) (kind : LiteralKind) :
    (token.literal kind).span = token.span := by
  cases kind <;> rfl

section

variable (hQ : Span.Joins Q)

include hQ

/-- Operands behind the first one become nodes that start where the first one starts. -/
theorem joinAll_stands {first : Expression} {others : List ((Token × BinaryKind) × Expression)}
    (hfirst : first.Spanned Q) (hbetween : first.node.span.Between Q lo hi)
    (hstart : first.node.span.start ≤ mid)
    (hothers : ∀ other ∈ others, other.2.Spanned Q ∧ other.2.node.span.Between Q mid hi) :
    (first.joinAll others).Spanned Q ∧ (first.joinAll others).node.span.Between Q lo hi := by
  induction others generalizing first with
  | nil => exact ⟨hfirst, hbetween⟩
  | cons other others ih =>
      obtain ⟨hother, hplace⟩ := hothers other List.mem_cons_self
      have hle := hQ.le _ hplace.has
      have hlo := hplace.lo_le
      have hspan : Q ⟨first.node.span.start, other.2.node.span.stop⟩ :=
        hQ.join _ _ hbetween.has hplace.has (by omega)
      exact @ih (first.join other.1 other.2) ⟨hspan, hfirst, hother⟩
        ⟨hspan, hbetween.lo_le, hplace.le_hi⟩ hstart
        fun other' hmem => hothers other' (List.mem_cons_of_mem _ hmem)

/-- Carets behind an operand become nodes that start where the operand starts. -/
theorem dereferenced_stands {operand : Expression} {carets : List Token} (hoperand : operand.Spanned Q)
    (hbetween : operand.node.span.Between Q lo hi) (hstart : operand.node.span.start ≤ mid)
    (hcarets : ∀ caret ∈ carets, caret.span.Between Q mid hi) :
    (carets.foldl Expression.dereferenced operand).Spanned Q ∧
      (carets.foldl Expression.dereferenced operand).node.span.Between Q lo hi := by
  induction carets generalizing operand with
  | nil => exact ⟨hoperand, hbetween⟩
  | cons caret carets ih =>
      have hplace := hcarets caret List.mem_cons_self
      have hle := hQ.le _ hplace.has
      have hlo := hplace.lo_le
      have hspan : Q ⟨operand.node.span.start, caret.span.stop⟩ :=
        hQ.join _ _ hbetween.has hplace.has (by omega)
      exact @ih (operand.dereferenced caret) ⟨hspan, hoperand⟩
        ⟨hspan, hbetween.lo_le, hplace.le_hi⟩ hstart
        fun caret' hmem => hcarets caret' (List.mem_cons_of_mem _ hmem)

/-- The span of a function reaches from its first word to the end of its body, if it has one. -/
theorem function_has {word close : Token} {body : List Statement} (hword : word.span.Between Q lo mid)
    (hclose : close.span.Between Q mid mid')
    (hbody : ∀ statement ∈ body, statement.node.span.Between Q mid' hi) :
    Q ⟨word.span.start,
      ((body.getLast?).map fun statement => statement.node.span.stop).getD close.span.stop⟩ := by
  have hmid : mid ≤ mid' :=
    Nat.le_trans hclose.lo_le (Nat.le_trans (hQ.le _ hclose.has) hclose.le_hi)
  cases hlast : body.getLast? with
  | none => exact (hword.join hQ hclose (Nat.le_refl _)).has
  | some statement =>
      exact (hword.join hQ (hbody statement (List.mem_of_getLast? hlast)) hmid).has

/-- What a rule makes of values that stand one behind the other stands where they stand. -/
theorem Rule.build_stands {p : Phrase} (rule : Rule p) {vs : Values rule.form}
    (h : StandsApart Q hi lo rule.form vs) : p.Stands Q lo hi (rule.build vs) := by
  have hall := standTogether_of_apart h
  have hle := standsApart_le h
  cases rule with
  | noDefinition | noArgument | lastArgument => trivial
  | noParameter | lastParameter => exact List.forall_mem_nil _
  | lastInitializer => exact List.forall_mem_nil _
  | lastOperand => exact List.forall_mem_nil _
  | lastCaret => exact List.forall_mem_nil _
  | noBody | lastStatement | noElse => exact ⟨trivial, List.forall_mem_nil _⟩
  | once | evaluated | notCalled => exact nofun
  | text | binarySign | prefixSign => exact hall.1
  | constant kind literal =>
      have hliteral : (vs.1.literal literal).span.Between Q lo hi := by
        rw [vs.1.span_literal literal]
        exact hall.1
      exact hliteral
  | tighter | tightest | unsigned => exact hall.1
  | someBody | otherwise | grouped => exact hall.2.1
  | someDefinitions => exact ⟨hall.1, hall.2.1⟩
  | someArguments => exact ⟨hall.1.1, hall.2.1⟩
  | nextArgument => exact ⟨hall.2.1.1, hall.2.2.1⟩
  | someParameters => exact List.forall_mem_cons.mpr ⟨⟨hall.1.has, hall.1.has⟩, hall.2.1⟩
  | nextParameter => exact List.forall_mem_cons.mpr ⟨⟨hall.2.1.has, hall.2.1.has⟩, hall.2.2.1⟩
  | nextInitializer => exact List.forall_mem_cons.mpr ⟨hall.2.1, hall.2.2.1⟩
  | nextCaret => exact List.forall_mem_cons.mpr ⟨hall.1, hall.2.1⟩
  | related => exact List.forall_mem_singleton.mpr hall.2.1
  | nextOperand => exact List.forall_mem_cons.mpr ⟨hall.2.1, hall.2.2.1⟩
  | times | assigned =>
      rintro _ ⟨⟩
      exact hall.2.1
  | called =>
      rintro _ ⟨⟩
      exact ⟨hall.2.1, hall.2.2.1⟩
  | statements =>
      exact ⟨⟨hall.1.1, hall.2.1.1⟩, List.forall_mem_cons.mpr ⟨hall.1.2, hall.2.1.2⟩⟩
  | nextStatement =>
      exact ⟨⟨hall.2.1.1, hall.2.2.1.1⟩, List.forall_mem_cons.mpr ⟨hall.2.1.2, hall.2.2.1.2⟩⟩
  | literal => exact ⟨hall.1.has, hall.1⟩
  | functionDefinition =>
      obtain ⟨word, name, paren, parameters, close, body, _⟩ := vs
      obtain ⟨m₁, _, hword, m₂, _, hname, m₃, _, hparen, m₄, _, hparameters, m₅, _, hclose, m₆, _, hbody,
        hend⟩ := h
      have hclose' : close.span.Between Q m₁ m₅ := Span.Between.mono hclose (by omega) (Nat.le_refl _)
      exact ⟨⟨function_has hQ hword hclose' hbody.2, hname.has, hparameters⟩, hbody.1⟩
  | variableDefinition =>
      obtain ⟨word, name, equals, first, others, _⟩ := vs
      obtain ⟨m₁, _, hword, m₂, _, hname, m₃, _, hequals, m₄, _, hfirst, m₅, _, hothers, hend⟩ := h
      have hlast : (others.getLastD first).span.Between Q m₃ m₅ := by
        rw [List.getLastD_eq_getLast?]
        cases hlast : others.getLast? with
        | none => exact hfirst.mono (Nat.le_refl _) (by omega)
        | some last => exact (hothers last (List.mem_of_getLast? hlast)).mono (by omega) (Nat.le_refl _)
      exact ⟨(hword.join hQ hlast (by omega)).has, hname.has⟩
  | number =>
      obtain ⟨token, value, _⟩ := vs
      obtain ⟨m₁, _, htoken, m₂, _, hvalue, hend⟩ := h
      cases value with
      | none => exact hall.1
      | some value =>
          exact (htoken.join hQ (hvalue value rfl) (Nat.le_refl _)).mono (Nat.le_refl _) hend
  | simple =>
      obtain ⟨first, source, _⟩ := vs
      obtain ⟨m₁, _, hfirst, m₂, _, hsource, hend⟩ := h
      cases source with
      | none => exact ⟨⟨hall.1.2.has, hall.1.1⟩, hall.1.2⟩
      | some source =>
          obtain ⟨hspanned, hplace⟩ := hsource source rfl
          have hjoin := (hfirst.2.join hQ hplace (Nat.le_refl _)).mono (Nat.le_refl _) hend
          exact ⟨⟨hjoin.has, hfirst.1, hspanned⟩, hjoin⟩
  | branch =>
      obtain ⟨word, condition, _, positive, negative, close, _⟩ := vs
      obtain ⟨m₁, _, hword, m₂, _, hcondition, m₃, _, _, m₄, _, hpositive, m₅, _, hnegative, m₆, _, hclose,
        hend⟩ := h
      have hjoin := (hword.join hQ hclose (by omega)).mono (Nat.le_refl _) hend
      exact ⟨⟨hjoin.has, hcondition.1, hpositive.1, hnegative.1⟩, hjoin⟩
  | loop =>
      obtain ⟨word, condition, _, body, close, _⟩ := vs
      obtain ⟨m₁, _, hword, m₂, _, hcondition, m₃, _, _, m₄, _, hbody, m₅, _, hclose, hend⟩ := h
      have hjoin := (hword.join hQ hclose (by omega)).mono (Nat.le_refl _) hend
      exact ⟨⟨hjoin.has, hcondition.1, hbody.1⟩, hjoin⟩
  | block =>
      obtain ⟨word, first, others, _, body, close, _⟩ := vs
      obtain ⟨m₁, _, hword, m₂, _, hfirst, m₃, _, hothers, m₄, _, _, m₅, _, hbody, m₆, _, hclose, hend⟩ := h
      have hjoin := (hword.join hQ hclose (by omega)).mono (Nat.le_refl _) hend
      exact ⟨⟨hjoin.has, ⟨hfirst, hothers⟩, hbody.1⟩, hjoin⟩
  | operation =>
      obtain ⟨m₁, _, hfirst, m₂, _, hothers, hend⟩ := h
      have hstart : vs.1.node.span.start ≤ m₁ :=
        Nat.le_trans (hQ.le _ hfirst.2.has) hfirst.2.le_hi
      exact joinAll_stands hQ hfirst.1 hall.1.2 hstart
        fun other hmem => ⟨(hothers other hmem).1, (hothers other hmem).2.mono (Nat.le_refl _) hend⟩
  | signed =>
      obtain ⟨sign, operand, _⟩ := vs
      obtain ⟨m₁, _, hsign, m₂, _, hoperand, hend⟩ := h
      have hjoin := (hsign.join hQ hoperand.2 (Nat.le_refl _)).mono (Nat.le_refl _) hend
      exact ⟨⟨hjoin.has, hoperand.1⟩, hjoin⟩
  | postfixed =>
      obtain ⟨m₁, _, hoperand, m₂, _, hcarets, hend⟩ := h
      have hstart : vs.1.node.span.start ≤ m₁ :=
        Nat.le_trans (hQ.le _ hoperand.2.has) hoperand.2.le_hi
      exact dereferenced_stands hQ hoperand.1 hall.1.2 hstart
        fun caret hmem => (hcarets caret hmem).mono (Nat.le_refl _) hend
  | named =>
      obtain ⟨name, call, _⟩ := vs
      obtain ⟨m₁, _, hname, m₂, _, hcall, hend⟩ := h
      cases call with
      | none => exact ⟨⟨hall.1.has, hall.1.has⟩, hall.1⟩
      | some call =>
          obtain ⟨harguments, hclose⟩ := hcall call rfl
          have hjoin := (hname.join hQ hclose (Nat.le_refl _)).mono (Nat.le_refl _) hend
          exact ⟨⟨hjoin.has, hname.has, harguments⟩, hjoin⟩

def TokensStand (Q : Span → Prop) (hi : Nat) : Nat → List Token → Prop
  | lo, [] => lo ≤ hi
  | lo, token :: tokens => Q token.span ∧ lo ≤ token.span.start ∧ TokensStand Q hi token.span.stop tokens

omit hQ in
theorem tokensStand_append {front back : List Token} (h : TokensStand Q hi lo (front ++ back)) :
    ∃ mid, TokensStand Q mid lo front ∧ TokensStand Q hi mid back := by
  induction front generalizing lo with
  | nil => exact ⟨lo, Nat.le_refl _, h⟩
  | cons token front ih =>
      obtain ⟨hspan, hlo, hrest⟩ := h
      obtain ⟨mid, hfront, hback⟩ := ih hrest
      exact ⟨mid, ⟨hspan, hlo, hfront⟩, hback⟩

theorem tokensStand_le {tokens : List Token} (h : TokensStand Q hi lo tokens) : lo ≤ hi := by
  induction tokens generalizing lo with
  | nil => exact h
  | cons token tokens ih =>
      obtain ⟨hspan, hlo, hrest⟩ := h
      exact Nat.le_trans hlo (Nat.le_trans (hQ.le _ hspan) (ih hrest))

/-- The values of a derivation stand where its tokens stand. -/
theorem Derivation.values_stand {form : List Symbol} (d : Derivation form)
    (h : TokensStand Q hi lo d.tokens) : StandsApart Q hi lo form d.values := by
  induction d generalizing lo hi with
  | nil => exact h
  | token token hkind rest ih =>
      obtain ⟨hspan, hlo, hrest⟩ := h
      exact ⟨token.span.stop, Nat.le_trans hlo (hQ.le _ hspan), ⟨hspan, hlo, Nat.le_refl _⟩, ih hrest⟩
  | phrase rule parts rest ihParts ihRest =>
      obtain ⟨mid, hparts, hrest⟩ := tokensStand_append h
      exact ⟨mid, tokensStand_le hQ hparts, rule.build_stands hQ (ihParts hparts), ihRest hrest⟩

/-- All spans in the tree of a derivation have the property. -/
theorem Derivation.spanned (d : Derivation [.phrase .definitions]) (h : TokensStand Q hi lo d.tokens) :
    SpannedDefinitions Q d.values.1 := by
  obtain ⟨_, _, hstands, _⟩ := d.values_stand hQ h
  exact hstands

end

end NestedFun
