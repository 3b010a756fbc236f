import NestedFun.Proofs.Prediction

namespace NestedFun

/-!
# Viable prefixes

Tokens that a text can start with. Going from left to right and always applying the rule that the next
token tells, one stops at the first token that makes the tokens up to it no viable prefix.
-/

@[reducible] def Token.ofKind (kind : TokenKind) : Token := ⟨kind, .nowhere, []⟩

namespace Derivation

/-! ## Derivations one behind the other -/

def append : {form : List Symbol} → Derivation form → {form' : List Symbol} → Derivation form' →
    Derivation (form ++ form')
  | _, nil, _, d' => d'
  | _, token t h rest, _, d' => token t h (rest.append d')
  | _, phrase rule parts rest, _, d' => phrase rule parts (rest.append d')

variable {form form' : List Symbol}

@[simp] theorem tokens_append (d : Derivation form) (d' : Derivation form') :
    (d.append d').tokens = d.tokens ++ d'.tokens := by
  induction d with
  | nil => rfl
  | token t h rest ih => exact congrArg (t :: ·) ih
  | phrase rule parts rest _ ih => simp only [append, tokens, ih, List.append_assoc]

@[simp] theorem kinds_append (d : Derivation form) (d' : Derivation form') :
    (d.append d').kinds = d.kinds ++ d'.kinds := by
  simp only [kinds, tokens_append, List.map_append]

theorem Guided.append {d : Derivation form} {d' : Derivation form'} {next : TokenKind}
    (h : d.Guided (d'.kinds.headD next)) (h' : d'.Guided next) : (d.append d').Guided next := by
  induction d with
  | nil => exact h'
  | token t hkind rest ih => exact ih h
  | phrase rule parts rest _ ih =>
      obtain ⟨happlies, hparts, hrest⟩ := h
      refine ⟨?_, ?_, ih hrest⟩
      · rw [kinds_append, ← List.append_assoc, headD_append]
        exact happlies
      · rw [kinds_append, headD_append]
        exact hparts

/-- What several symbols are derived to falls apart into what each part of them is derived to. -/
theorem exists_append (d : Derivation (form ++ form')) :
    ∃ (d₁ : Derivation form) (d₂ : Derivation form'), d = d₁.append d₂ := by
  induction form with
  | nil => exact ⟨nil, d, rfl⟩
  | cons s form ih =>
      cases d with
      | token t h rest =>
          obtain ⟨d₁, d₂, rfl⟩ := ih rest
          exact ⟨token t h d₁, d₂, rfl⟩
      | phrase rule parts rest =>
          obtain ⟨d₁, d₂, rfl⟩ := ih rest
          exact ⟨phrase rule parts d₁, d₂, rfl⟩

/-! ## Every phrase has a derivation -/

/-- Symbols have a derivation if each of them has one. -/
theorem exists_of_symbols (h : ∀ s ∈ form, Nonempty (Derivation [s])) : Nonempty (Derivation form) := by
  induction form with
  | nil => exact ⟨nil⟩
  | cons s form ih =>
      obtain ⟨d⟩ := h s List.mem_cons_self
      obtain ⟨rest⟩ := ih fun s' hs' => h s' (List.mem_cons_of_mem s hs')
      exact ⟨d.append rest⟩

theorem exists_of_kind (kind : TokenKind) : Nonempty (Derivation [.token kind]) :=
  ⟨token (.ofKind kind) rfl nil⟩

theorem exists_of_rule {p : Phrase} (rule : Rule p)
    (h : ∀ p' : Phrase, .phrase p' ∈ rule.form → Nonempty (Derivation [.phrase p'])) :
    Nonempty (Derivation [.phrase p]) := by
  obtain ⟨parts⟩ : Nonempty (Derivation rule.form) := by
    refine exists_of_symbols fun s hs => ?_
    cases s with
    | token kind => exact exists_of_kind kind
    | phrase p' => exact h p' hs
  exact ⟨phrase rule parts nil⟩

theorem exists_of_phrase (p : Phrase) : Nonempty (Derivation [.phrase p]) := by
  -- The phrases in the order in which they are needed; the first rules have no phrases.
  have hnothing : ∀ {p : Phrase} (rule : Rule p), rule.form = [] → Nonempty (Derivation [.phrase p]) :=
    fun rule hempty => exists_of_rule rule fun p' hp' => by rw [hempty] at hp'; cases hp'
  have hconstant := exists_of_rule (.constant .integer .integer (by decide)) (by simp)
  have hprimary := exists_of_rule .literal (by simpa using hconstant)
  have hcarets := hnothing .lastCaret rfl
  have hpostfixed := exists_of_rule .postfixed (by simpa using ⟨hprimary, hcarets⟩)
  have hprefixed := exists_of_rule .unsigned (by simpa using hpostfixed)
  have hmore := fun o => hnothing (.lastOperand o) rfl
  have hoperation : ∀ o, Nonempty (Derivation [.phrase (.operand o)]) →
      Nonempty (Derivation [.phrase (.operation o)]) := fun o hoperand =>
    exists_of_rule (.operation o) (by simpa using ⟨hoperand, hmore o⟩)
  have htighter : ∀ o inner (h : Operation.tighter? o = some inner),
      Nonempty (Derivation [.phrase (.operation inner)]) →
      Nonempty (Derivation [.phrase (.operand o)]) := fun o inner h hinner =>
    exists_of_rule (.tighter o inner h) (by simpa using hinner)
  have hmultiplicative := exists_of_rule .tightest (by simpa using hprefixed)
  have hadditive := htighter .additive _ rfl (hoperation _ hmultiplicative)
  have hrelation := htighter .relation _ rfl (hoperation _ hadditive)
  have hconjunction := htighter .conjunction _ rfl (hoperation _ hrelation)
  have hdisjunction := htighter .expression _ rfl (hoperation _ hconjunction)
  have hexpression := hoperation _ hdisjunction
  have hstatement := exists_of_rule .simple
    (by simpa using ⟨hexpression, hnothing .evaluated rfl⟩)
  have hinitializer := exists_of_rule (.text .string .string (by decide)) (by simp)
  cases p with
  | definitions => exact hnothing .noDefinition rfl
  | definition =>
      exact exists_of_rule .variableDefinition
        (by simpa using ⟨hinitializer, hnothing .lastInitializer rfl⟩)
  | parameters => exact hnothing .noParameter rfl
  | moreParameters => exact hnothing .lastParameter rfl
  | functionBody => exact hnothing .noBody rfl
  | initializer => exact hinitializer
  | moreInitializers => exact hnothing .lastInitializer rfl
  | repeated => exact hnothing .once rfl
  | constant => exact hconstant
  | statements =>
      exact exists_of_rule .statements (by simpa using ⟨hstatement, hnothing .lastStatement rfl⟩)
  | moreStatements => exact hnothing .lastStatement rfl
  | statement => exact hstatement
  | assigned => exact hnothing .evaluated rfl
  | otherwise => exact hnothing .noElse rfl
  | operation o =>
      refine hoperation o ?_
      cases o <;> assumption
  | operand o => cases o <;> assumption
  | moreOperands o => exact hmore o
  | sign o =>
      cases o with
      | expression => exact exists_of_rule (.binarySign _ .orOr .or (by decide)) (by simp)
      | conjunction => exact exists_of_rule (.binarySign _ .andAnd .and (by decide)) (by simp)
      | relation => exact exists_of_rule (.binarySign _ .less .less (by decide)) (by simp)
      | additive => exact exists_of_rule (.binarySign _ .plus .add (by decide)) (by simp)
      | multiplicative => exact exists_of_rule (.binarySign _ .star .multiply (by decide)) (by simp)
  | prefixed => exact hprefixed
  | prefixSign => exact exists_of_rule (.prefixSign .plus .identity (by decide)) (by simp)
  | postfixed => exact hpostfixed
  | carets => exact hcarets
  | primary => exact hprimary
  | called => exact hnothing .notCalled rfl
  | arguments => exact hnothing .noArgument rfl
  | moreArguments => exact hnothing .lastArgument rfl

/-- All symbols can be derived to tokens. -/
theorem exists_of_form (form : List Symbol) : Nonempty (Derivation form) :=
  exists_of_symbols fun s _ => match s with
    | .token kind => exists_of_kind kind
    | .phrase p => exists_of_phrase p

end Derivation

/-! ## Where derivations halt -/

/-- Going along `front`, one gets to symbols that the next token does not fit: it is none of the tokens
that they can start with. -/
inductive Halts : List Symbol → List TokenKind → TokenKind → Prop where
  | mismatch {kind next : TokenKind} {form : List Symbol} (h : next ≠ kind) :
      Halts (.token kind :: form) [] next
  | stuck {p : Phrase} {next : TokenKind} {form : List Symbol}
      (h : ∀ rule : Rule p, ¬ rule.Applies next) : Halts (.phrase p :: form) [] next
  | token {kind next : TokenKind} {form : List Symbol} {front : List TokenKind}
      (h : Halts form front next) : Halts (.token kind :: form) (kind :: front) next
  | phrase {p : Phrase} {next : TokenKind} {form : List Symbol} {front : List TokenKind}
      (rule : Rule p) (happlies : rule.Applies (front.headD next))
      (h : Halts (rule.form ++ form) front next) : Halts (.phrase p :: form) front next

namespace Halts

variable {form form' : List Symbol} {front : List TokenKind} {next : TokenKind}

/-- What follows does not matter. -/
theorem append (h : Halts form front next) (form' : List Symbol) : Halts (form ++ form') front next := by
  induction h with
  | mismatch h => exact mismatch h
  | stuck h => exact stuck h
  | token _ ih => exact token ih
  | phrase rule happlies _ ih => exact phrase rule happlies (List.append_assoc .. ▸ ih)

/-- Halting behind a derivation. -/
theorem behind (d : Derivation form') (hd : d.Guided (front.headD next)) (h : Halts form front next) :
    Halts (form' ++ form) (d.kinds ++ front) next := by
  induction d generalizing form front with
  | nil => exact h
  | token t hkind rest ih =>
      rw [Derivation.kinds_token]
      exact token (ih hd h)
  | @phrase p form' rule parts rest ihParts ihRest =>
      obtain ⟨happlies, hparts, hrest⟩ := hd
      rw [Derivation.kinds_phrase, List.append_assoc]
      refine phrase rule ?_ (ihParts ?_ (ihRest hrest h))
      · rw [← List.append_assoc, Derivation.headD_append]
        exact happlies
      · rw [Derivation.headD_append]
        exact hparts

/-- The tokens that one has gone along are the start of a derivation. -/
theorem exists_prefix (h : Halts form front next) : ∃ d : Derivation form, front <+: d.kinds := by
  induction h with
  | @mismatch kind next form h =>
      obtain ⟨d⟩ := Derivation.exists_of_form (.token kind :: form)
      exact ⟨d, List.nil_prefix⟩
  | @stuck p next form h =>
      obtain ⟨d⟩ := Derivation.exists_of_form (.phrase p :: form)
      exact ⟨d, List.nil_prefix⟩
  | @token kind next form front _ ih =>
      obtain ⟨rest, hprefix⟩ := ih
      refine ⟨.token (.ofKind kind) rfl rest, ?_⟩
      rw [Derivation.kinds_token]
      exact (List.prefix_cons_inj kind).mpr hprefix
  | phrase rule happlies _ ih =>
      obtain ⟨d, hprefix⟩ := ih
      obtain ⟨parts, rest, rfl⟩ := d.exists_append
      refine ⟨.phrase rule parts rest, ?_⟩
      rw [Derivation.kinds_phrase, ← Derivation.kinds_append]
      exact hprefix

/-- With the next token they are not the start of any. -/
theorem not_prefix (h : Halts form front next) (d : Derivation form) {behind : TokenKind}
    (hd : d.Guided behind) (more : List TokenKind) :
    ¬ front ++ [next] <+: d.kinds ++ behind :: more := by
  induction h with
  | mismatch hne =>
      rintro ⟨tail, htail⟩
      cases d
      rw [Derivation.kinds_token] at htail
      exact hne (List.cons.inj htail).1
  | @stuck p next form hnone =>
      rintro ⟨tail, htail⟩
      cases d with
      | phrase rule parts rest =>
          have hhead := congrArg (List.headD · .endOfFile) htail
          simp only [Derivation.headD_append, Derivation.kinds_phrase, List.headD_cons] at hhead
          have happlies := hd.1
          rw [Derivation.headD_append, ← hhead] at happlies
          exact hnone rule happlies
  | token _ ih =>
      rintro ⟨tail, htail⟩
      cases d with
      | token t hkind rest =>
          rw [Derivation.kinds_token] at htail
          exact ih rest hd ⟨tail, (List.cons.inj htail).2⟩
  | @phrase p next form front rule happlies _ ih =>
      rintro ⟨tail, htail⟩
      cases d with
      | phrase rule' parts rest =>
          obtain ⟨happlies', hparts, hrest⟩ := hd
          have hhead := congrArg (List.headD · .endOfFile) htail
          simp only [Derivation.headD_append, Derivation.kinds_phrase, List.headD_cons] at hhead
          rw [Derivation.headD_append, ← hhead] at happlies'
          obtain rfl := happlies.unique happlies'
          refine ih (parts.append rest) (hparts.append hrest) ⟨tail, ?_⟩
          rw [Derivation.kinds_append, ← Derivation.kinds_phrase]
          exact htail

end Halts

/-! ## Programs -/

def programForm : List Symbol := [.phrase .definitions, .token .endOfFile]

def Viable (kinds : List TokenKind) : Prop :=
  ∃ d : Derivation programForm, kinds <+: d.kinds

/-- Every derivation of a program follows the next token. -/
theorem Derivation.guided_program (d : Derivation programForm) : d.Guided .endOfFile :=
  d.guided (by decide) .endOfFile (by decide)

theorem Halts.viable {front : List TokenKind} {next : TokenKind} (h : Halts programForm front next) :
    Viable front ∧ ¬ Viable (front ++ [next]) := by
  refine ⟨h.exists_prefix, ?_⟩
  rintro ⟨d, hshorter⟩
  exact h.not_prefix d d.guided_program [] (hshorter.trans (List.prefix_append _ _))

end NestedFun
