import Mathlib.Tactic
import NestedFun.Proofs.Grammar

namespace NestedFun

/-!
# One token of lookahead

At every phrase the next token tells which rule applies. So a sequence of tokens has at most one
derivation, and the first token that fits no rule is the first one with which no program goes on.
-/

/-! ## Where phrases start and how far they reach -/

def expressionStarts : List TokenKind :=
  [.identifier, .openParen, .integer, .character, .string, .bang, .plus, .minus, .caret]

namespace Operation

def signKinds (operation : Operation) : List TokenKind := operation.signs.map Prod.fst

/-- The operations that can stand in an operand. -/
def inner : Operation → List Operation
  | expression => [conjunction, relation, additive, multiplicative]
  | conjunction => [relation, additive, multiplicative]
  | relation => [additive, multiplicative]
  | additive => [multiplicative]
  | multiplicative => []

/-- The tokens that an operand would take if they came next. -/
def operandReach (operation : Operation) : List TokenKind :=
  .openParen :: .caret :: operation.inner.flatMap signKinds

def reach (operation : Operation) : List TokenKind :=
  operation.operandReach ++ operation.signKinds

end Operation

namespace Phrase

def starts : Phrase → List TokenKind
  | definitions | definition => [.keyword .kwFun, .keyword .kwVar]
  | parameters => [.identifier]
  | moreParameters | moreInitializers | moreStatements | moreArguments => [.comma]
  | functionBody | assigned => [.equals]
  | initializer | constant => [.integer, .character, .string]
  | repeated => [.star]
  | statements | statement =>
    .keyword .kwIf :: .keyword .kwWhile :: .keyword .kwLet :: expressionStarts
  | otherwise => [.keyword .kwElse]
  | operation _ | operand _ | prefixed | arguments => expressionStarts
  | moreOperands o | sign o => o.signKinds
  | prefixSign => [.bang, .plus, .minus, .caret]
  | postfixed | primary => [.identifier, .openParen, .integer, .character, .string]
  | carets => [.caret]
  | called => [.openParen]

def canBeEmpty : Phrase → Bool
  | definitions | parameters | moreParameters | functionBody | moreInitializers | repeated
  | moreStatements | assigned | otherwise | moreOperands _ | carets | called | arguments
  | moreArguments => true
  | _ => false

/-- The tokens that a phrase would take if they came next behind it. -/
def reach : Phrase → List TokenKind
  | definitions => .keyword .kwFun :: .keyword .kwVar :: .equals :: .comma :: Operation.expression.reach
  | definition | functionBody => .equals :: .comma :: Operation.expression.reach
  | parameters => [.identifier, .comma]
  | moreParameters => [.comma]
  | initializer | repeated => [.star]
  | moreInitializers => [.comma, .star]
  | constant | sign _ | prefixSign => []
  | statements | moreStatements => .equals :: .comma :: Operation.expression.reach
  | statement | assigned => .equals :: Operation.expression.reach
  | otherwise => .keyword .kwElse :: .equals :: .comma :: Operation.expression.reach
  | operation o | moreOperands o => o.reach
  | operand o => o.operandReach
  | prefixed | postfixed => [.openParen, .caret]
  | carets => [.caret]
  | primary | called => [.openParen]
  | arguments => .comma :: expressionStarts ++ Operation.expression.reach
  | moreArguments => .comma :: Operation.expression.reach

end Phrase

def startsOf : List Symbol → List TokenKind
  | [] => []
  | .token kind :: _ => [kind]
  | .phrase p :: form => p.starts ++ if p.canBeEmpty then startsOf form else []

def canBeEmptyOf : List Symbol → Bool
  | [] => true
  | .token _ :: _ => false
  | .phrase p :: form => p.canBeEmpty && canBeEmptyOf form

def reachOf : List Symbol → List TokenKind
  | [] => []
  | .token _ :: form => reachOf form
  | .phrase p :: form => reachOf form ++ if canBeEmptyOf form then p.reach else []

/-- No phrase reaches into what follows it. -/
def Apart : List Symbol → Prop
  | [] => True
  | .token _ :: form => Apart form
  | .phrase p :: form => (∀ kind ∈ startsOf form, kind ∉ p.reach) ∧ Apart form

instance decidableApart : (form : List Symbol) → Decidable (Apart form)
  | [] => inferInstanceAs (Decidable True)
  | .token _ :: form => decidableApart form
  | .phrase p :: form =>
    have := decidableApart form
    inferInstanceAs (Decidable ((∀ kind ∈ startsOf form, kind ∉ p.reach) ∧ Apart form))

/-- What the tables above say of the rules of a phrase. -/
structure Phrase.Covers (p : Phrase) (form : List Symbol) : Prop where
  starts : ∀ kind ∈ startsOf form, kind ∈ p.starts
  reach : ∀ kind ∈ reachOf form, kind ∈ p.reach
  apart : Apart form
  empty : canBeEmptyOf form = true → form = [] ∧ p.canBeEmpty = true ∧ ∀ kind ∈ p.starts, kind ∈ p.reach

instance (p : Phrase) (form : List Symbol) : Decidable (p.Covers form) :=
  decidable_of_iff ((∀ kind ∈ startsOf form, kind ∈ p.starts) ∧ (∀ kind ∈ reachOf form, kind ∈ p.reach) ∧
    Apart form ∧ (canBeEmptyOf form = true → form = [] ∧ p.canBeEmpty = true ∧
      ∀ kind ∈ p.starts, kind ∈ p.reach))
    ⟨fun ⟨hs, hr, ha, he⟩ => ⟨hs, hr, ha, he⟩, fun ⟨hs, hr, ha, he⟩ => ⟨hs, hr, ha, he⟩⟩

theorem Phrase.covers_token {p : Phrase} {kind : TokenKind} (h : kind ∈ p.starts) :
    p.Covers [.token kind] where
  starts := by simpa [startsOf] using h
  reach := by simp [reachOf]
  apart := trivial
  empty := by simp [canBeEmptyOf]

theorem Operation.covers_nextOperand (o : Operation) (h : o ≠ .relation) :
    (Phrase.moreOperands o).Covers
      [.phrase (.sign o), .phrase (.operand o), .phrase (.moreOperands o)] := by
  revert h
  cases o <;> decide

theorem Rule.covers {p : Phrase} (rule : Rule p) : p.Covers rule.form := by
  cases rule with
  | operation o => cases o <;> decide
  | tighter o inner h => cases o <;> cases h <;> decide
  | lastOperand o => cases o <;> decide
  | nextOperand o h => exact o.covers_nextOperand h
  | binarySign o kind operator h => exact Phrase.covers_token (List.mem_map_of_mem (f := Prod.fst) h)
  | text kind literal h =>
      have hmem : kind ∈ textKinds.map Prod.fst := List.mem_map_of_mem h
      exact Phrase.covers_token (List.mem_cons_of_mem _ hmem)
  | constant kind literal h =>
      have hmem : kind ∈ constantKinds.map Prod.fst := List.mem_map_of_mem h
      exact Phrase.covers_token hmem
  | prefixSign kind operator h =>
      have hmem : kind ∈ prefixSigns.map Prod.fst := List.mem_map_of_mem h
      exact Phrase.covers_token hmem
  | _ => decide

/-! ## Choosing rules -/

/-- A table has one entry for a key. -/
theorem entry_unique {α β : Type} {table : List (α × β)} (h : (table.map Prod.fst).Nodup) {a : α}
    {b b' : β} (hb : (a, b) ∈ table) (hb' : (a, b') ∈ table) : b = b' :=
  congrArg Prod.snd (List.inj_on_of_nodup_map h hb hb' rfl)

theorem Operation.nodup_signKinds (o : Operation) : o.signKinds.Nodup := by
  cases o <;> decide

theorem integer_not_mem_textKinds (literal : LiteralKind) : (.integer, literal) ∉ textKinds := by
  cases literal <;> decide

namespace Rule

/-- A rule applies if its symbols can start with the next token, or if they are none and the phrase
cannot start with it. -/
def Applies {p : Phrase} (rule : Rule p) (next : TokenKind) : Prop :=
  next ∈ startsOf rule.form ∨ rule.form = [] ∧ next ∉ p.starts

theorem eq_of_starts {p : Phrase} {rule rule' : Rule p} {kind : TokenKind}
    (h : kind ∈ startsOf rule.form) (h' : kind ∈ startsOf rule'.form) : rule = rule' := by
  -- Most rules of a phrase start with different tokens, as the tables show.
  cases rule <;> cases rule' <;> first
    | rfl
    | exact absurd h' List.not_mem_nil
    | exact absurd h List.not_mem_nil
    | exact absurd h' ((show ∀ kind ∈ startsOf (Rule.form _), kind ∉ startsOf (Rule.form _) by
        decide) kind h)
    | skip
  case number.text kind' literal hmem =>
      obtain rfl := List.mem_singleton.mp h
      obtain rfl := List.mem_singleton.mp h'
      exact absurd hmem (integer_not_mem_textKinds literal)
  case text.number kind' literal hmem =>
      obtain rfl := List.mem_singleton.mp h'
      obtain rfl := List.mem_singleton.mp h
      exact absurd hmem (integer_not_mem_textKinds literal)
  case text.text kind₁ literal₁ h₁ kind₂ literal₂ h₂ =>
      obtain rfl := List.mem_singleton.mp h
      obtain rfl := List.mem_singleton.mp h'
      obtain rfl := entry_unique (by decide) h₁ h₂
      rfl
  case constant.constant kind₁ literal₁ h₁ kind₂ literal₂ h₂ =>
      obtain rfl := List.mem_singleton.mp h
      obtain rfl := List.mem_singleton.mp h'
      obtain rfl := entry_unique (by decide) h₁ h₂
      rfl
  case tighter.tighter o inner₁ h₁ inner₂ h₂ =>
      obtain rfl := Option.some.inj (h₁.symm.trans h₂)
      rfl
  case tighter.tightest hnone => cases hnone
  case tightest.tighter hnone => cases hnone
  case related.nextOperand hne => exact absurd rfl hne
  case nextOperand.related hne => exact absurd rfl hne
  case binarySign.binarySign o kind₁ operator₁ h₁ kind₂ operator₂ h₂ =>
      obtain rfl := List.mem_singleton.mp h
      obtain rfl := List.mem_singleton.mp h'
      obtain rfl := entry_unique o.nodup_signKinds h₁ h₂
      rfl
  case prefixSign.prefixSign kind₁ operator₁ h₁ kind₂ operator₂ h₂ =>
      obtain rfl := List.mem_singleton.mp h
      obtain rfl := List.mem_singleton.mp h'
      obtain rfl := entry_unique (by decide) h₁ h₂
      rfl

theorem eq_of_empty {p : Phrase} {rule rule' : Rule p} (h : rule.form = []) (h' : rule'.form = []) :
    rule = rule' := by
  cases rule <;> cases h <;> cases rule' <;> first | rfl | cases h'

/-- At most one rule of a phrase applies. -/
theorem Applies.unique {p : Phrase} {rule rule' : Rule p} {next : TokenKind}
    (h : rule.Applies next) (h' : rule'.Applies next) : rule = rule' := by
  rcases h with h | ⟨hempty, hnot⟩ <;> rcases h' with h' | ⟨hempty', hnot'⟩
  · exact eq_of_starts h h'
  · exact absurd (rule.covers.starts next h) hnot'
  · exact absurd (rule'.covers.starts next h') hnot
  · exact eq_of_empty hempty hempty'

end Rule

/-! ## Derivations that follow the next token -/

namespace Derivation

def kinds {form : List Symbol} (d : Derivation form) : List TokenKind := d.tokens.map Token.kind

@[simp] theorem kinds_nil : nil.kinds = [] := rfl

@[simp] theorem kinds_token {kind : TokenKind} {form : List Symbol} {token : Token}
    {h : token.kind = kind} {rest : Derivation form} :
    (Derivation.token token h rest).kinds = kind :: rest.kinds :=
  congrArg (· :: rest.kinds) h

@[simp] theorem kinds_phrase {p : Phrase} {form : List Symbol} {rule : Rule p}
    {parts : Derivation rule.form} {rest : Derivation form} :
    (phrase rule parts rest).kinds = parts.kinds ++ rest.kinds :=
  List.map_append

/-- A derivation applies to every phrase the rule that the next token tells; `next` is the kind of the
token behind the derivation. -/
def Guided : {form : List Symbol} → Derivation form → TokenKind → Prop
  | _, nil, _ => True
  | _, token _ _ rest, next => rest.Guided next
  | _, phrase rule parts rest, next => rule.Applies ((parts.kinds ++ rest.kinds).headD next) ∧
      parts.Guided (rest.kinds.headD next) ∧ rest.Guided next

/-- A derivation starts with one of the tokens that its symbols can start with. -/
theorem kinds_cases {form : List Symbol} (d : Derivation form) :
    (∃ kind more, d.kinds = kind :: more ∧ kind ∈ startsOf form) ∨
      d.kinds = [] ∧ canBeEmptyOf form = true := by
  induction d with
  | nil => exact .inr ⟨rfl, rfl⟩
  | @token kind form t h rest => exact .inl ⟨kind, rest.kinds, kinds_token, List.mem_singleton_self kind⟩
  | @phrase p form rule parts rest ihParts ihRest =>
      have hcovers := rule.covers
      rw [kinds_phrase]
      rcases ihParts with ⟨kind, more, hkinds, hmem⟩ | ⟨hnil, hempty⟩
      · exact .inl ⟨kind, more ++ rest.kinds, by rw [hkinds]; rfl,
          List.mem_append_left _ (hcovers.starts kind hmem)⟩
      · have hcan := (hcovers.empty hempty).2.1
        rw [hnil, List.nil_append, startsOf, canBeEmptyOf, hcan, if_pos rfl, Bool.true_and]
        rcases ihRest with ⟨kind, more, hkinds, hmem⟩ | hrest
        · exact .inl ⟨kind, more, hkinds, List.mem_append_right _ hmem⟩
        · exact .inr hrest

/-- Every derivation follows the next token if no phrase reaches into what follows it. -/
theorem guided {form : List Symbol} (d : Derivation form) (hform : Apart form) (next : TokenKind)
    (hnext : next ∉ reachOf form) : d.Guided next := by
  induction d generalizing next with
  | nil => trivial
  | token t h rest ih => exact ih hform next hnext
  | @phrase p form rule parts rest ihParts ihRest =>
      have hcovers := rule.covers
      obtain ⟨hstarts, happart⟩ := hform
      rw [reachOf, List.mem_append, not_or] at hnext
      -- What comes behind the phrase is not reached by it, be it in the form or behind it.
      have hbehind : rest.kinds.headD next ∉ p.reach := by
        rcases rest.kinds_cases with ⟨kind, more, hkinds, hmem⟩ | ⟨hnil, hempty⟩
        · rw [hkinds]
          exact hstarts kind hmem
        · rw [hnil]
          rw [if_pos hempty] at hnext
          exact hnext.2
      refine ⟨?_, ihParts hcovers.apart _ fun hmem => hbehind (hcovers.reach _ hmem),
        ihRest happart next hnext.1⟩
      rcases parts.kinds_cases with ⟨kind, more, hkinds, hmem⟩ | ⟨hnil, hempty⟩
      · rw [hkinds]
        exact .inl hmem
      · obtain ⟨hform, -, hreach⟩ := hcovers.empty hempty
        rw [hnil]
        exact .inr ⟨hform, fun hmem => hbehind (hreach _ hmem)⟩

theorem append_cons_eq {α : Type} (xs ys : List α) (y : α) :
    ∃ zs, xs ++ y :: ys = xs.headD y :: zs := by
  cases xs with
  | nil => exact ⟨ys, rfl⟩
  | cons x xs => exact ⟨xs ++ y :: ys, rfl⟩

theorem headD_append {α : Type} (xs ys : List α) (a : α) :
    (xs ++ ys).headD a = xs.headD (ys.headD a) := by
  cases xs <;> rfl

/-- Derivations that follow the next token end at the same place of a sequence of tokens, and those of
the same tokens are the same. -/
theorem Guided.unique {form : List Symbol} {d d' : Derivation form} {next next' : TokenKind}
    {more more' : List TokenKind} (h : d.Guided next) (h' : d'.Guided next')
    (heq : d.kinds ++ next :: more = d'.kinds ++ next' :: more') :
    next :: more = next' :: more' ∧ (d.tokens = d'.tokens → d = d') := by
  induction d generalizing next next' more more' with
  | nil =>
      cases d'
      exact ⟨heq, fun _ => rfl⟩
  | token t hkind rest ih =>
      cases d' with
      | token t' hkind' rest' =>
          rw [kinds_token, kinds_token] at heq
          obtain ⟨htail, hsame⟩ := ih h h' (List.cons.inj heq).2
          refine ⟨htail, fun htokens => ?_⟩
          obtain ⟨rfl, hrest⟩ := List.cons.inj htokens
          rw [hsame hrest]
  | phrase rule parts rest ihParts ihRest =>
      cases d' with
      | phrase rule' parts' rest' =>
          obtain ⟨happlies, hparts, hrest⟩ := h
          obtain ⟨happlies', hparts', hrest'⟩ := h'
          rw [kinds_phrase, kinds_phrase, List.append_assoc, List.append_assoc] at heq
          obtain ⟨tail, htail⟩ := append_cons_eq rest.kinds more next
          obtain ⟨tail', htail'⟩ := append_cons_eq rest'.kinds more' next'
          rw [htail, htail'] at heq
          have hhead := congrArg (List.headD · .endOfFile) heq
          simp only [headD_append, List.headD_cons] at hhead
          rw [headD_append, hhead, ← headD_append] at happlies
          obtain rfl := happlies.unique happlies'
          obtain ⟨hbehind, hsameParts⟩ := ihParts hparts hparts' heq
          obtain ⟨hend, hsameRest⟩ := ihRest hrest hrest' (by rw [htail, htail', hbehind])
          refine ⟨hend, fun htokens => ?_⟩
          rw [hbehind] at heq
          have hlength := congrArg List.length (List.append_cancel_right heq)
          simp only [kinds, List.length_map] at hlength
          obtain ⟨hpartsTokens, hrestTokens⟩ := List.append_inj htokens hlength
          rw [hsameParts hpartsTokens, hsameRest hrestTokens]

end Derivation

end NestedFun
