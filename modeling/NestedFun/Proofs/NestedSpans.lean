import NestedFun.Proofs.ErrorPlaces
import NestedFun.Proofs.Extents

namespace NestedFun

/-!
# Spans nest like the tree

Every node covers a stretch of text from the start of a token to the end of a token. The parts of a
node stand in its stretch one behind the other. Parentheses leave no node, so a stretch may begin or
end inside them.
-/

/-- A stretch from the start of a token to the end of one that is no earlier. -/
structure Span.OfTokens (tokens : List Token) (span : Span) : Prop where
  nonempty : span.start < span.stop
  starts : ∃ token ∈ tokens, token.span.start = span.start
  stops : ∃ token ∈ tokens, token.span.stop = span.stop

theorem Span.OfTokens.join {tokens : List Token} {a b : Span} (ha : a.OfTokens tokens)
    (hb : b.OfTokens tokens) (h : a.start ≤ b.start) : (⟨a.start, b.stop⟩ : Span).OfTokens tokens :=
  ⟨Nat.lt_of_le_of_lt h hb.nonempty, ha.starts, hb.stops⟩

section

variable (tokens : List Token)

mutual

/-- An extent covers a stretch of tokens, and its parts stand one behind the other in that stretch; and so
it is with every extent inside it. -/
def Extent.Nests : Extent → Prop
  | .of node parts => node.span.OfTokens tokens ∧ Abreast node.span.start node.span.stop parts

def Abreast : Nat → Nat → List Extent → Prop
  | lo, hi, [] => lo ≤ hi
  | lo, hi, extent :: extents =>
    lo ≤ extent.span.start ∧ extent.Nests ∧ Abreast extent.span.stop hi extents

end

end

section

variable {tokens : List Token} {lo hi lo' hi' : Nat} {extent : Extent} {extents extents' : List Extent}

theorem Extent.Nests.ofTokens (h : extent.Nests tokens) : extent.span.OfTokens tokens := by
  cases extent
  exact h.1

theorem Extent.Nests.abreast (h : extent.Nests tokens) :
    Abreast tokens extent.span.start extent.span.stop extent.parts := by
  cases extent
  exact h.2

namespace Abreast

theorem mono (h : Abreast tokens lo hi extents) (hlo : lo' ≤ lo) (hhi : hi ≤ hi') :
    Abreast tokens lo' hi' extents := by
  induction extents generalizing lo lo' with
  | nil => exact Nat.le_trans hlo (Nat.le_trans h hhi)
  | cons extent extents ih =>
      obtain ⟨hstart, hnests, hrest⟩ := h
      exact ⟨Nat.le_trans hlo hstart, hnests, ih hrest (Nat.le_refl _)⟩

theorem append_iff : Abreast tokens lo hi (extents ++ extents') ↔
    ∃ mid, Abreast tokens lo mid extents ∧ Abreast tokens mid hi extents' := by
  induction extents generalizing lo with
  | nil => exact ⟨fun h => ⟨lo, Nat.le_refl lo, h⟩, fun ⟨_, hmid, h⟩ => h.mono hmid (Nat.le_refl hi)⟩
  | cons extent extents ih =>
      constructor
      · rintro ⟨hlo, hnests, hrest⟩
        obtain ⟨mid, hfirst, hsecond⟩ := ih.mp hrest
        exact ⟨mid, ⟨hlo, hnests, hfirst⟩, hsecond⟩
      · rintro ⟨mid, ⟨hlo, hnests, hfirst⟩, hsecond⟩
        exact ⟨hlo, hnests, ih.mpr ⟨mid, hfirst, hsecond⟩⟩

/-- Leaving some out makes no difference. -/
theorem sublist (h : Abreast tokens lo hi extents) (hsub : extents'.Sublist extents) :
    Abreast tokens lo hi extents' := by
  induction hsub generalizing lo with
  | slnil => exact h
  | cons extent _ ih =>
      obtain ⟨hlo, hnests, hrest⟩ := h
      have hspan := hnests.ofTokens.nonempty
      exact ih (hrest.mono (by omega) (Nat.le_refl hi))
  | cons_cons extent _ ih =>
      obtain ⟨hlo, hnests, hrest⟩ := h
      exact ⟨hlo, hnests, ih hrest⟩

theorem of_mem (h : Abreast tokens lo hi extents) (hmem : extent ∈ extents) :
    lo ≤ extent.span.start ∧ extent.span.stop ≤ hi ∧ extent.Nests tokens := by
  obtain ⟨hlo, hnests, hrest⟩ := h.sublist (List.singleton_sublist.mpr hmem)
  exact ⟨hlo, hrest, hnests⟩

theorem pairwise (h : Abreast tokens lo hi extents) :
    extents.Pairwise fun a b => a.span.stop ≤ b.span.start := by
  induction extents generalizing lo with
  | nil => exact .nil
  | cons extent extents ih =>
      obtain ⟨hlo, hnests, hrest⟩ := h
      exact List.pairwise_cons.mpr ⟨fun other hmem => (hrest.of_mem hmem).1, ih hrest⟩

theorem tail (h : Abreast tokens lo hi (extent :: extents)) : Abreast tokens lo hi extents :=
  h.sublist (List.sublist_cons_self extent extents)

/-- Extents that stand in front of others become a node that reaches from the start of the first to the
end of the last; some of them are its parts. -/
theorem enclose {parts inner : List Extent} {first last : Extent} {node : Node}
    (h : Abreast tokens lo hi (parts ++ extents)) (hfirst : parts.head? = some first)
    (hlast : parts.getLast? = some last) (hspan : node.span = ⟨first.span.start, last.span.stop⟩)
    (hinner : inner.Sublist parts) : Abreast tokens lo hi (.of node inner :: extents) := by
  obtain ⟨mid, hparts, hrest⟩ := append_iff.mp h
  obtain ⟨tail, rfl⟩ : ∃ tail, parts = first :: tail := List.head?_eq_some_iff.mp hfirst
  obtain ⟨front, hfront⟩ := List.getLast?_eq_some_iff.mp hlast
  -- What becomes a node reaches no further than its first and its last part do.
  have hinside : Abreast tokens first.span.start last.span.stop (first :: tail) := by
    have hparts' := hparts
    rw [hfront] at hparts'
    obtain ⟨mid', hbefore, hlo, hnests, -⟩ := append_iff.mp hparts'
    have hall : Abreast tokens lo last.span.stop (first :: tail) := by
      rw [hfront]
      exact append_iff.mpr ⟨mid', hbefore, hlo, hnests, Nat.le_refl _⟩
    exact ⟨Nat.le_refl _, hall.2⟩
  have hmem : last ∈ first :: tail := List.mem_of_getLast? hlast
  obtain ⟨hstart, -, hlastNests⟩ := hinside.of_mem hmem
  have hfirstNests := hinside.2.1
  have hnode : node.span.OfTokens tokens := by
    rw [hspan]
    exact hfirstNests.ofTokens.join hlastNests.ofTokens hstart
  refine ⟨?_, ⟨hnode, ?_⟩, ?_⟩
  · show lo ≤ node.span.start
    rw [hspan]
    exact hparts.1
  · rw [hspan]
    exact hinside.sublist hinner
  · show Abreast tokens node.span.stop hi extents
    rw [hspan]
    exact hrest.mono (hparts.of_mem hmem).2.1 (Nat.le_refl hi)

theorem encloseAll {parts inner : List Extent} {node : Node} (first last : Extent)
    (h : Abreast tokens lo hi parts) (hfirst : parts.head? = some first)
    (hlast : parts.getLast? = some last) (hspan : node.span = ⟨first.span.start, last.span.stop⟩)
    (hinner : inner.Sublist parts) : Abreast tokens lo hi [.of node inner] := by
  rw [← List.append_nil parts] at h
  exact h.enclose hfirst hlast hspan hinner

/-- The first and the last one are no parts. -/
theorem between {first last : Extent} {parts middle inner : List Extent} {node : Node}
    (h : Abreast tokens lo hi (first :: parts)) (hparts : parts = middle ++ [last])
    (hspan : node.span = ⟨first.span.start, last.span.stop⟩) (hinner : inner.Sublist middle) :
    Abreast tokens lo hi [.of node inner] :=
  h.encloseAll first last rfl (hparts ▸ List.getLast?_concat (l := first :: middle)) hspan
    (.cons _ (hparts ▸ hinner.trans (List.sublist_append_left middle [last])))

end Abreast

/-! ## Numbers do not matter -/

mutual

theorem Extent.nests_unnumbered (extent : Extent) (h : extent.unnumbered.Nests tokens) :
    extent.Nests tokens := by
  cases extent with
  | of node parts => exact ⟨h.1, abreast_unnumbered parts h.2⟩

theorem abreast_unnumbered (extents : List Extent) {lo hi : Nat}
    (h : Abreast tokens lo hi (extentsUnnumbered extents)) : Abreast tokens lo hi extents := by
  cases extents with
  | nil => exact h
  | cons extent extents =>
      obtain ⟨hlo, hnests, hrest⟩ := h
      rw [extent.span_unnumbered] at hlo hrest
      exact ⟨hlo, extent.nests_unnumbered hnests, abreast_unnumbered extents hrest⟩

end

end

/-! ## What derivations build -/

def Token.leaf (token : Token) : Extent := .leaf token.span.node

/-- The extents of what a phrase stands for. Signs, and the parenthesis that ends a call, count too. -/
def Phrase.extents : (p : Phrase) → p.Tree → List Extent
  | .definitions => definitionExtents
  | .definition => fun definition => [definition.extent]
  | .parameters | .moreParameters => List.map Parameter.extent
  | .functionBody | .statements | .moreStatements | .otherwise => statementExtents
  | .initializer => fun initializer => [initializer.extent]
  | .moreInitializers => List.map Initializer.extent
  | .repeated => fun value => value.toList.map Literal.extent
  | .constant => fun literal => [literal.extent]
  | .statement => fun statement => [statement.extent]
  | .assigned => fun source => source.toList.map Expression.extent
  | .operation _ | .operand _ | .prefixed | .postfixed | .primary => fun expression =>
    [expression.extent]
  | .moreOperands _ => List.flatMap fun other => [other.1.1.leaf, other.2.extent]
  | .sign _ => fun sign => [sign.1.leaf]
  | .prefixSign => fun sign => [sign.1.leaf]
  | .carets => List.map Token.leaf
  | .called => fun call => call.elim [] fun found => expressionExtents found.1 ++ [found.2.leaf]
  | .arguments | .moreArguments => expressionExtents

def Symbol.extents : (s : Symbol) → s.Value → List Extent
  | .token _ => fun token => [token.leaf]
  | .phrase p => p.extents

def valueExtents : (form : List Symbol) → Values form → List Extent
  | [], _ => []
  | s :: form, vs => s.extents vs.1 ++ valueExtents form vs.2

/-- An operator in front of its operand is no dereference. -/
def Symbol.Sound : (s : Symbol) → s.Value → Prop
  | .phrase .prefixSign => fun sign => sign.2 ≠ .dereference
  | _ => fun _ => True

def ValuesSound : (form : List Symbol) → Values form → Prop
  | [], _ => True
  | s :: form, vs => s.Sound vs.1 ∧ ValuesSound form vs.2

theorem Token.extent_literal (token : Token) (kind : LiteralKind) :
    (token.literal kind).extent = token.leaf := by
  cases kind <;> rfl

theorem Rule.build_sound {p : Phrase} (rule : Rule p) (vs : Values rule.form) :
    (Symbol.phrase p).Sound (rule.build vs) := by
  cases rule with
  | prefixSign kind operator h =>
      show operator ≠ .dereference
      simp only [prefixSigns, List.mem_cons, Prod.mk.injEq, List.not_mem_nil, or_false] at h
      rcases h with ⟨-, rfl⟩ | ⟨-, rfl⟩ | ⟨-, rfl⟩ | ⟨-, rfl⟩ <;> decide
  | _ => trivial

variable {tokens : List Token} {lo hi : Nat}

namespace Abreast

/-- An extent becomes the only part of a node with the same span. -/
theorem wrap {node : Node} {extent : Extent} {extents : List Extent}
    (h : Abreast tokens lo hi (extent :: extents)) (hspan : node.span = extent.span) :
    Abreast tokens lo hi (.of node [extent] :: extents) :=
  @enclose tokens lo hi extents [extent] [extent] extent extent node h rfl rfl hspan (.refl _)

/-- Operands with operators between them become one extent. -/
theorem joinAll {first : Expression} {others : List ((Token × BinaryKind) × Expression)}
    (h : Abreast tokens lo hi
      (first.extent :: others.flatMap fun other => [other.1.1.leaf, other.2.extent])) :
    Abreast tokens lo hi [(first.joinAll others).extent] := by
  induction others generalizing first with
  | nil => exact h
  | cons other others ih =>
      refine @ih (first.join other.1 other.2) ?_
      refine @enclose tokens lo hi _ [first.extent, other.1.1.leaf, other.2.extent] _ first.extent
        other.2.extent _ h rfl rfl ?_ (.refl _)
      rw [Expression.span_extent, Expression.span_extent]
      rfl

/-- An operand with carets behind it becomes one extent. -/
theorem dereferenced {operand : Expression} {carets : List Token}
    (h : Abreast tokens lo hi (operand.extent :: carets.map Token.leaf)) :
    Abreast tokens lo hi [(carets.foldl Expression.dereferenced operand).extent] := by
  induction carets generalizing operand with
  | nil => exact h
  | cons caret carets ih =>
      refine @ih (operand.dereferenced caret) ?_
      refine @enclose tokens lo hi _ [operand.extent, caret.leaf] _ operand.extent caret.leaf _ h rfl rfl
        ?_ (.refl _)
      rw [Expression.span_extent]
      rfl

/-- An operator in front of an operand becomes one extent with it. -/
theorem negated {sign : Token × UnaryKind} {operand : Expression} (hsign : sign.2 ≠ .dereference)
    (h : Abreast tokens lo hi [sign.1.leaf, operand.extent]) :
    Abreast tokens lo hi [(operand.negated sign).extent] := by
  have hextent : (operand.negated sign).extent =
      .of (Span.node ⟨sign.1.span.start, operand.node.span.stop⟩) [sign.1.leaf, operand.extent] := by
    rw [Expression.negated, Expression.extent, if_neg hsign]
    rfl
  rw [hextent]
  refine h.encloseAll sign.1.leaf operand.extent rfl rfl ?_ (.refl _)
  rw [Expression.span_extent]
  rfl

/-- A function ends with its last statement, and with the parenthesis if it has none. -/
theorem function {word name paren close : Token} {parameters : List Parameter} {body : List Statement}
    (h : Abreast tokens lo hi (word.leaf :: name.leaf :: paren.leaf ::
      (parameters.map Parameter.extent ++ close.leaf :: statementExtents body))) :
    Abreast tokens lo hi
      [(Rule.functionDefinition.build (word, name, paren, parameters, close, body, ())).extent] := by
  have hinner : (name.leaf :: (parameters.map Parameter.extent ++ statementExtents body)).Sublist
      (word.leaf :: name.leaf :: paren.leaf ::
        (parameters.map Parameter.extent ++ close.leaf :: statementExtents body)) :=
    .cons _ (.cons_cons _ (.cons _ (.append (.refl _) (.cons _ (.refl _)))))
  cases hlast : body.getLast? with
  | none =>
      obtain rfl : body = [] := List.getLast?_eq_none_iff.mp hlast
      exact h.encloseAll word.leaf close.leaf rfl (List.getLast?_concat (l := _ :: _ :: _ :: _)) rfl hinner
  | some last =>
      refine h.encloseAll word.leaf last.extent rfl ?_ ?_ hinner
      · simp only [statementExtents_eq_map, List.getLast?_cons, List.getLast?_append, List.getLast?_map,
          hlast]
        rfl
      · rw [Statement.span_extent, hlast]
        rfl

end Abreast

/-- What a rule makes of values stands where they stand. -/
theorem Rule.build_abreast {p : Phrase} (rule : Rule p) {vs : Values rule.form}
    (hsound : ValuesSound rule.form vs) (h : Abreast tokens lo hi (valueExtents rule.form vs)) :
    Abreast tokens lo hi (p.extents (rule.build vs)) := by
  -- Tokens that leave no node, such as parentheses and commas, are left out where they stand.
  cases rule <;>
    simp only [valueExtents, Symbol.extents, Phrase.extents, List.append_nil, List.cons_append,
      List.nil_append] at h
  case noDefinition | noParameter | noBody | lastInitializer | once | lastStatement | evaluated | noElse
    | lastParameter | lastOperand | lastCaret | notCalled | noArgument | lastArgument => exact h
  case tighter | tightest | unsigned | binarySign | prefixSign => exact h
  case someDefinitions | statements | someArguments | nextCaret | related | nextOperand => exact h
  case someBody | otherwise | times | assigned | called | nextArgument | nextInitializer
    | nextStatement => exact h.tail
  case grouped => exact h.tail.sublist (.cons_cons _ (List.nil_sublist _))
  case someParameters | literal => exact h.wrap rfl
  case nextParameter => exact h.tail.wrap rfl
  case constant kind literal _ =>
      rw [← Token.extent_literal _ literal] at h
      exact h
  case text kind literal _ =>
      rw [← Token.extent_literal _ literal] at h
      exact h.wrap (congrArg Extent.span (Token.extent_literal _ literal)).symm
  case operation => exact h.joinAll
  case postfixed => exact h.dereferenced
  case number =>
      obtain ⟨token, value, _⟩ := vs
      cases value with
      | none => exact h.wrap rfl
      | some value => exact h.encloseAll token.leaf value.extent rfl rfl rfl (.refl _)
  case simple =>
      obtain ⟨first, source, _⟩ := vs
      cases source with
      | none => exact h.wrap (by rw [Expression.span_extent]; rfl)
      | some source =>
          refine h.encloseAll (Expression.extent first) source.extent rfl rfl ?_ (.refl _)
          rw [Expression.span_extent, Expression.span_extent]
          rfl
  case signed =>
      obtain ⟨sign, operand, _⟩ := vs
      exact Abreast.negated hsound.1 h
  case named =>
      obtain ⟨name, call, _⟩ := vs
      cases call with
      | none => exact h.wrap rfl
      | some call =>
          exact h.encloseAll (Token.leaf name) call.2.leaf rfl
            (List.getLast?_concat (l := _ :: _)) rfl (.cons_cons _ (List.sublist_append_left _ _))
  case branch =>
      exact h.between (List.append_assoc (_ :: _ :: _) _ _).symm rfl (.cons_cons _ (.cons _ (.refl _)))
  case loop =>
      exact h.between (rfl : _ = (_ :: _ :: _) ++ [_]) rfl (.cons_cons _ (.cons _ (.refl _)))
  case block =>
      exact h.between (List.append_assoc (_ :: _) (_ :: _) _).symm rfl
        (.cons_cons _ (.append (.refl _) (.cons _ (.refl _))))
  case variableDefinition =>
      obtain ⟨word, name, equals, first, others, _⟩ := vs
      refine h.encloseAll (Token.leaf word) (Initializer.extent (List.getLastD others first)) rfl ?_ rfl
        (.cons _ (.cons_cons _ (.cons _ (.refl _))))
      simp only [List.getLast?_cons, List.getLast?_map, List.getLastD_eq_getLast?, Option.getD_some]
      cases List.getLast? others <;> rfl
  case functionDefinition => exact h.function

/-! ## Derivations -/

theorem Derivation.values_sound {form : List Symbol} (d : Derivation form) :
    ValuesSound form d.values := by
  induction d with
  | nil => trivial
  | token token hkind rest ih => exact ⟨trivial, ih⟩
  | phrase rule parts rest ihParts ihRest => exact ⟨rule.build_sound parts.values, ihRest⟩

/-- The values of a derivation stand where its tokens stand. -/
theorem Derivation.values_abreast {form : List Symbol} (d : Derivation form)
    (h : Abreast tokens lo hi (d.tokens.map Token.leaf)) :
    Abreast tokens lo hi (valueExtents form d.values) := by
  induction d generalizing lo hi with
  | nil => exact h
  | token token hkind rest ih =>
      obtain ⟨hlo, hnests, hrest⟩ := h
      exact ⟨hlo, hnests, ih hrest⟩
  | phrase rule parts rest ihParts ihRest =>
      rw [Derivation.tokens, List.map_append] at h
      obtain ⟨mid, hparts, hrest⟩ := Abreast.append_iff.mp h
      exact Abreast.append_iff.mpr
        ⟨mid, rule.build_abreast parts.values_sound (ihParts hparts), ihRest hrest⟩

theorem abreast_leaves {read : List Token} (h : TokensStand (Span.OfTokens tokens) hi lo read) :
    Abreast tokens lo hi (read.map Token.leaf) := by
  induction read generalizing lo with
  | nil => exact h
  | cons token read ih =>
      obtain ⟨hspan, hlo, hrest⟩ := h
      exact ⟨hlo, ⟨hspan, Nat.le_of_lt hspan.nonempty⟩, ih hrest⟩

/-! ## Programs -/

/-- The definitions of a text stand one behind the other in it. -/
theorem Program.abreast_of_parse {text : List Char} {program : Program} (h : parse text = .ok program) :
    Abreast (Tokens.ofText text).list 0 (byteLength text) (definitionExtents program) := by
  obtain ⟨d, hd, hvalue⟩ := spells_of_parse h
  have hlist : (Tokens.ofText text).list = d.tokens := by rw [Tokens.ofText_of_items hd.items_eq]
  have hpieces : Pieces 0 text (d.tokens.map .ok) := hd.items_eq ▸ (Cursor.start text).pieces_scan
  have hstands := hpieces.tokensStand (Q := Span.OfTokens (Tokens.ofText text).list)
    fun token hmem => ⟨hpieces.nonempty hmem, ⟨token, hlist ▸ hmem, rfl⟩, ⟨token, hlist ▸ hmem, rfl⟩⟩
  have hvalues := d.values_abreast (abreast_leaves hstands)
  rw [valueExtents, valueExtents, List.append_nil, Nat.zero_add] at hvalues
  refine abreast_unnumbered _ ?_
  rw [← definitionExtents_unnumbered, ← Program.unnumbered, hvalue]
  exact hvalues

mutual

/-- What is said of a node holds of all nodes inside it. -/
theorem Extent.Nests.all {extent : Extent} (h : extent.Nests tokens) :
    ∀ inner ∈ extent.all, inner.Nests tokens := by
  cases extent with
  | of node parts => exact List.forall_mem_cons.mpr ⟨h, Abreast.all h.2⟩

theorem Abreast.all {lo hi : Nat} {extents : List Extent} (h : Abreast tokens lo hi extents) :
    ∀ inner ∈ allExtents extents, inner.Nests tokens := by
  cases extents with
  | nil => exact List.forall_mem_nil _
  | cons extent extents =>
      obtain ⟨-, hnests, hrest⟩ := h
      exact List.forall_mem_append.mpr ⟨hnests.all, hrest.all⟩

end

/-- A node covers a stretch of a text from the start of a token to the end of a token. It covers its
parts, which stand one behind the other. -/
structure Extent.Placed (text : List Char) (extent : Extent) : Prop where
  nonempty : extent.span.start < extent.span.stop
  inside : extent.span.stop ≤ byteLength text
  starts : ∃ token ∈ (Tokens.ofText text).list, token.span.start = extent.span.start
  stops : ∃ token ∈ (Tokens.ofText text).list, token.span.stop = extent.span.stop
  covers : ∀ part ∈ extent.parts,
    extent.span.start ≤ part.span.start ∧ part.span.stop ≤ extent.span.stop
  ordered : extent.parts.Pairwise fun a b => a.span.stop ≤ b.span.start

theorem Extent.Nests.placed {text : List Char} {extent : Extent}
    (h : extent.Nests (Tokens.ofText text).list) : extent.Placed text := by
  obtain ⟨token, hmem, hstop⟩ := h.ofTokens.stops
  exact {
    nonempty := h.ofTokens.nonempty
    inside := hstop ▸ (Tokens.marked hmem).le.2
    starts := h.ofTokens.starts
    stops := h.ofTokens.stops
    covers := fun part hmem => ⟨(h.abreast.of_mem hmem).1, (h.abreast.of_mem hmem).2.1⟩
    ordered := h.abreast.pairwise }

/-- Every node of the tree of a text is in the extents of its definitions. Each covers a stretch of tokens
and in it its parts, which do not overlap and stand in the order of the text; and so do the definitions. -/
theorem Program.spans_nest (text : List Char) (program : Program) (h : parse text = .ok program) :
    (extentIds (definitionExtents program)).Perm (definitionIds program) ∧
      (∀ extent ∈ allExtents (definitionExtents program), extent.Placed text) ∧
      (definitionExtents program).Pairwise fun a b => a.span.stop ≤ b.span.start := by
  have habreast := abreast_of_parse h
  exact ⟨definitionExtents_perm program, fun extent hmem => (habreast.all extent hmem).placed,
    habreast.pairwise⟩

/-- The sum starts inside the parentheses of its left operand. -/
theorem Program.spans_nest_sample : ∃ program,
    Program.parse "fun f(x) = if (x) + 1 then let var y = 2 * 3 in y = -(f(y))^ end end".toList
      = .ok program ∧
    (extentIds (definitionExtents program)).Perm (definitionIds program) ∧
    (∀ extent ∈ allExtents (definitionExtents program), extent.Placed
      "fun f(x) = if (x) + 1 then let var y = 2 * 3 in y = -(f(y))^ end end".toList) ∧
    (definitionExtents program).Pairwise fun a b => a.span.stop ≤ b.span.start := by
  have hparses : (Program.parse
      "fun f(x) = if (x) + 1 then let var y = 2 * 3 in y = -(f(y))^ end end".toList).toOption.isSome
        = true := by
    decide +kernel
  obtain ⟨program, hprogram⟩ := Option.isSome_iff_exists.mp hparses
  have hparse := toOption_eq_some hprogram
  exact ⟨program, hparse, Program.spans_nest _ program hparse⟩

end NestedFun
