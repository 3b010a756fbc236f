import NestedFun.Proofs.ParserDerivations

namespace NestedFun

/-!
# The phrases that the parser reads

Part by part, in the order of the grammar: each reads its phrase, and what it returns is the value of
the phrase as soon as the numbers of nodes are left out.
-/

/-! ## Levels and operations -/

namespace Level

def operation : Level → Operation
  | disjunction => .expression
  | conjunction => .conjunction
  | comparison => .relation
  | sum => .additive
  | product => .multiplicative

theorem mem_signs {level : Level} {kind : TokenKind} {operator : BinaryKind}
    (h : level.operator? kind = some operator) : (kind, operator) ∈ level.operation.signs := by
  cases level <;> cases kind <;> cases h <;> decide

theorem not_mem_signKinds {level : Level} {kind : TokenKind} (h : level.operator? kind = none) :
    kind ∉ level.operation.signKinds := by
  have hall : ∀ kind ∈ level.operation.signKinds, level.operator? kind ≠ none := by
    cases level <;> decide
  exact fun hmem => hall kind hmem h

theorem tighter_operation {level inner : Level} (h : level.tighter? = some inner) :
    level.operation.tighter? = some inner.operation := by
  cases level <;> cases h <;> rfl

theorem eq_product {level : Level} (h : level.tighter? = none) : level = product := by
  cases level <;> first | rfl | cases h

end Level

theorem mem_prefixSigns {kind : TokenKind} {operator : UnaryKind}
    (h : prefixOperator? kind = some operator) : (kind, operator) ∈ prefixSigns := by
  cases kind <;> cases h <;> decide

namespace Reader

variable {r : Reader} {α : Type} {kind : TokenKind}

/-! ## Names and constants -/

theorem only_eq_none {found : TokenKind} (h : Reader.only kind found = none) : found ≠ kind :=
  fun heq => by simp [Reader.only, heq] at h

/-- A phrase that is read if its sign comes next, and is empty otherwise. -/
theorem Derives.option {P₁ : Reader → Prop} {p : Phrase} {after : List Symbol}
    {f : Option (Token × Unit × r.Shorter) → Except CompileError (α × { r' : Reader // P₁ r' })}
    {R : Values [.phrase p] → α → Prop} (absent present : Rule p) (habsent : absent.form = [])
    (hpresent : startsOf present.form = [kind]) (hstarts : p.starts = [kind])
    (hkind : kind ≠ .endOfFile ∧ kind ≠ .integer)
    (hnone : Derives r (f none) absent.form after fun vs a => R (absent.build vs, ()) a)
    (hsome : ∀ token u r', r.Takes token r'.1 → token.kind = kind → token.Fits →
      Derives r (f (some (token, u, r'))) present.form after fun vs a => R (present.build vs, ()) a) :
    Derives r (r.accept? (Reader.only kind) >>= f) [.phrase p] after R := by
  refine .accept? (if_neg hkind.1.symm) (fun hnot => ?_) fun token u r' hu htakes => ?_
  · refine .phrase absent (.inr ⟨habsent, ?_⟩) hnone
    rw [hstarts, List.mem_singleton]
    exact only_eq_none hnot
  · have htoken := only_eq_some hu
    refine .phrase present (.inl ?_)
      (hsome token u r' htakes htoken (Token.fits_of_kind (htoken ▸ hkind.2)))
    rw [hpresent, htakes.nextKind_eq, htoken]
    exact List.mem_singleton_self _

theorem expect_derives (hend : kind ≠ .endOfFile) (hinteger : kind ≠ .integer) :
    Derives r (r.expect kind) [.token kind] [] fun v token => v.1 = token := by
  have hrequire : Derives r (r.require (.token kind) (only kind)) [.token kind] []
      fun v a => v.1 = a.1 := by
    refine .accept? (if_neg hend.symm) (fun hnone => ?_) fun token u r' hu htakes => ?_
    · exact .peek fun token hpeek hkind => .throw hpeek rfl (.mismatch (hkind ▸ only_eq_none hnone))
    · have hkind := only_eq_some hu
      exact .token htakes hkind (Token.fits_of_kind (hkind ▸ hinteger)) (.pure rfl rfl)
  exact hrequire.bind List.nil_prefix fun a r' v hv => .pure rfl hv

theorem identifier_derives :
    Derives r r.identifier [.token .identifier] [] fun v name => v.1.identifier = name.unnumbered :=
  (expect_derives (by decide) (by decide)).bind List.nil_prefix fun token r' v hv =>
    .pure rfl (by rw [← hv]; rfl)

theorem span_eq {token : Token} {name : Identifier} (h : token.identifier = name.unnumbered) :
    token.span = name.span :=
  congrArg (fun name => name.span) h

theorem parameter_derives :
    Derives r r.parameter [.token .identifier] [] fun v parameter =>
      v.1.parameter = parameter.unnumbered :=
  identifier_derives.bind List.nil_prefix fun name r' v hv =>
    .pure rfl (by rw [Token.parameter, hv, span_eq hv]; rfl)

theorem mem_constantKinds {literal : LiteralKind} (h : literalKind? kind = some literal) :
    (kind, literal) ∈ constantKinds := by
  cases kind <;> cases h <;> decide

theorem not_mem_constant_starts (h : literalKind? kind = none) : kind ∉ Phrase.constant.starts := by
  have hall : ∀ kind ∈ Phrase.constant.starts, literalKind? kind ≠ none := by decide
  exact fun hmem => hall kind hmem h

/-- Going on behind a constant, which is one token of a phrase that starts with constants. -/
theorem Derives.literal {P₁ : Reader → Prop} {p : Phrase}
    {f : Literal × r.Shorter → Except CompileError (α × { r' : Reader // P₁ r' })}
    {R : Values [.phrase p] → α → Prop} (hempty : p.canBeEmpty = false)
    (hstarts : p.starts = Phrase.constant.starts)
    (h : ∀ token literal r', r.Takes token r'.1 → (token.kind, literal.kind) ∈ constantKinds →
      token.Fits → token.literal literal.kind = literal.unnumbered →
      Derives r (f (literal, r')) [.phrase p] [] R) :
    Derives r (r.literal >>= f) [.phrase p] [] R := by
  intro hr
  have hend : literalKind? .endOfFile = none := rfl
  rcases accept?_cases hr hend with ⟨e, haccept, hending⟩ |
    ⟨haccept, hnone, token, hpeek⟩ | ⟨token, kind, r', haccept, hkind, htakes⟩
  · have hliteral : r.literal = .error e := by simp [Reader.literal, require, haccept]; rfl
    rw [hliteral]
    refine ⟨by rintro _ _ ⟨⟩, ?_⟩
    rintro _ ⟨⟩
    exact .lexical hending
  · have hliteral : r.literal = .error (unexpected .constant token) := by
      simp [Reader.literal, require, haccept, hpeek]; rfl
    rw [hliteral]
    refine Derives.throw hpeek rfl (halts_of_not_mem hempty ?_) hr
    rw [hstarts, peek_kind hr hpeek]
    exact not_mem_constant_starts hnone
  · have hmem := mem_constantKinds hkind
    have hrequire : r.require .constant literalKind? = .ok ((token, kind), r') := by
      rw [require, haccept]
      rfl
    have htakes' : r.Takes token r'.1.bump := ⟨htakes.list_eq, htakes.ending_eq⟩
    cases kind with
    | character | string =>
        rw [Reader.literal, hrequire]
        refine h token _ ⟨r'.1.bump, r'.2⟩ htakes' hmem (Token.fits_of_kind fun hinteger => ?_) rfl hr
        rw [hinteger] at hmem
        exact absurd hmem (by decide)
    | integer =>
        have hinteger : token.kind = .integer := by simpa [constantKinds, textKinds] using hmem
        have hliteral : r.literal = if decimalValue token.lexeme < wordBound then
            .ok (⟨⟨r'.1.nextId, token.span⟩, .integer, String.ofList token.lexeme⟩,
              ⟨r'.1.bump, r'.2⟩)
            else .error ⟨token.span, .syntactic .integerTooLarge⟩ := by
          rw [Reader.literal, hrequire]
          rfl
        rw [hliteral]
        split
        · rename_i hfits
          exact h token _ _ htakes' hmem (fun _ => hfits) rfl hr
        · rename_i hlarge
          refine ⟨by rintro _ _ ⟨⟩, ?_⟩
          rintro _ ⟨⟩
          exact .integer (htakes.list_eq ▸ List.mem_cons_self) fun hfits => hlarge (hfits hinteger)

theorem literal_derives :
    Derives r r.literal [.phrase .constant] [] fun v literal => v.1 = literal.unnumbered := by
  have hbind : r.literal = r.literal >>= fun a => .ok a := by cases r.literal <;> rfl
  rw [hbind]
  refine .literal rfl rfl fun token literal r' htakes hmem hfits hvalue => ?_
  refine .phrase (.constant token.kind literal.kind hmem) (.inl ?_) ?_
  · rw [htakes.nextKind_eq]
    exact List.mem_singleton_self _
  · exact .token htakes rfl hfits (.pure rfl hvalue)

theorem initializer_derives :
    Derives r r.initializer [.phrase .initializer] [] fun v initializer =>
      v.1 = initializer.unnumbered := by
  refine .literal rfl rfl fun token first r₁ htakes hmem hfits hvalue => ?_
  have hspan : token.span = first.span := by
    have hspans := congrArg (fun literal => literal.span) hvalue
    cases hkind : first.kind <;> rw [hkind] at hspans <;> exact hspans
  simp only
  split
  · rename_i hinteger
    have hkind : token.kind = .integer := by
      rw [hinteger] at hmem
      simpa [constantKinds, textKinds] using hmem
    rw [hinteger] at hvalue
    refine .phrase .number (.inl ?_) (.token htakes hkind hfits ?_)
    · rw [htakes.nextKind_eq, hkind]
      exact List.mem_singleton_self _
    refine .option .once .times rfl rfl rfl (by decide) (.pure rfl ?_)
      fun star u r₂ hstar hkind hfits => .token hstar hkind hfits ?_
    · simp only [Rule.build, Initializer.unnumbered, hvalue, hspan]
      rfl
    · refine literal_derives.bind List.nil_prefix fun value r₃ v hv => .pure rfl ?_
      obtain rfl : v = value.unnumbered := hv
      simp only [Rule.build, Initializer.unnumbered, hvalue, hspan]
      rfl
  · rename_i hne
    have htext : (token.kind, first.kind) ∈ textKinds :=
      (List.mem_cons.mp hmem).resolve_left fun heq => hne (congrArg Prod.snd heq)
    refine .phrase (.text token.kind first.kind htext) (.inl ?_) (.token htakes rfl hfits (.pure rfl ?_))
    · rw [htakes.nextKind_eq]
      exact List.mem_singleton_self _
    · simp only [Rule.build, Initializer.unnumbered, hvalue, hspan]
      rfl

/-! ## Items with commas between them -/

section

variable {item : (r : Reader) → Parsed α r} {s : Symbol} {more : Phrase} {E : s.Value → α → Prop}
  {R : more.Tree → List α → Prop}

/-- Items behind commas, which are a phrase that may be empty. -/
theorem commaTail_derives (hitem : ∀ r, Derives r (item r) [s] [] fun v a => E v.1 a)
    (hlast : ∀ (r : Reader), r.nextKind ≠ .comma →
      Derives r (.ok ([], ⟨r, r.size_le_self⟩) : ParsedTail (List α) r) [.phrase more] []
        fun v as => R v.1 as)
    (hnext : ∀ (r : Reader) (x : ParsedTail (List α) r), r.nextKind = .comma →
      Derives r x [.token .comma, s, .phrase more] []
        (fun v as => ∃ a others, as = a :: others ∧ E v.2.1 a ∧ R v.2.2.1 others) →
      Derives r x [.phrase more] [] fun v as => R v.1 as) (r : Reader) :
    Derives r (commaTail item r) [.phrase more] [] fun v as => R v.1 as := by
  induction r using commaTail.induct with
  | case1 r ih =>
      rw [commaTail]
      refine .accept? rfl (fun hnone => hlast r (only_eq_none hnone)) fun comma u r₁ hu htakes => ?_
      have hcomma := only_eq_some hu
      refine hnext r _ (htakes.nextKind_eq.trans hcomma) ?_
      refine .token htakes hcomma (Token.fits_of_kind (by simp [hcomma])) ?_
      refine (hitem r₁.1).bind List.nil_prefix fun x r₂ v hv => ?_
      exact (ih r₁.1 r₁.2 r₂.1 r₂.2).bind List.nil_prefix fun xs r₃ vs hvs =>
        .pure rfl ⟨x, xs, rfl, hv, hvs⟩

theorem commaList_derives (hitem : ∀ r, Derives r (item r) [s] [] fun v a => E v.1 a)
    (hmore : ∀ r, Derives r (commaTail item r) [.phrase more] [] fun v as => R v.1 as) (r : Reader) :
    Derives r (commaList item r) [s, .phrase more] []
      fun v as => ∃ a others, as = a :: others ∧ E v.1 a ∧ R v.2.1 others :=
  (hitem r).bind List.nil_prefix fun x r₁ _ hv =>
    (hmore r₁.1).bind List.nil_prefix fun xs _ _ hvs => .pure rfl ⟨x, xs, rfl, hv, hvs⟩

end

theorem moreParameters_derives (r : Reader) :
    Derives r (commaTail parameter r) [.phrase .moreParameters] []
      fun v parameters => v.1 = parameters.map Parameter.unnumbered := by
  refine commaTail_derives (s := .token .identifier)
    (E := fun token parameter => Token.parameter token = parameter.unnumbered)
    (R := fun (vs : Phrase.moreParameters.Tree) parameters => vs = parameters.map Parameter.unnumbered)
    (fun _ => parameter_derives) (fun r hne => ?_) (fun r x hcomma h => ?_) r
  · exact .phrase .lastParameter (.inr ⟨rfl, by simpa [Phrase.starts] using hne⟩) (.pure rfl rfl)
  · refine .phrase .nextParameter (.inl (by simp [startsOf, hcomma])) (h.mono ?_)
    rintro v _ ⟨a, others, rfl, ha, hothers⟩
    simp only [Rule.build, List.map_cons, ← hothers, ← ha]

theorem moreInitializers_derives (r : Reader) :
    Derives r (commaTail initializer r) [.phrase .moreInitializers] []
      fun v initializers => v.1 = initializers.map Initializer.unnumbered := by
  refine commaTail_derives (s := .phrase .initializer)
    (E := fun v initializer => v = initializer.unnumbered)
    (R := fun (vs : Phrase.moreInitializers.Tree) initializers => vs = initializers.map Initializer.unnumbered)
    (fun _ => initializer_derives) (fun r hne => ?_) (fun r x hcomma h => ?_) r
  · exact .phrase .lastInitializer (.inr ⟨rfl, by simpa [Phrase.starts] using hne⟩) (.pure rfl rfl)
  · refine .phrase .nextInitializer (.inl (by simp [startsOf, hcomma])) (h.mono ?_)
    rintro v _ ⟨a, others, rfl, ha, hothers⟩
    simp only [Rule.build, List.map_cons, ← hothers, ← ha]

/-! ## Expressions -/

theorem dereferences_derives (operand : Expression) (r : Reader) :
    Derives r (dereferences operand r) [.phrase .carets] []
      fun v whole => v.1.foldl Expression.dereferenced operand.unnumbered = whole.unnumbered := by
  induction operand, r using dereferences.induct with
  | case1 operand r ih =>
      rw [dereferences]
      refine .option .lastCaret .nextCaret rfl rfl rfl (by decide) (.pure rfl rfl)
        fun token u r₁ htakes hkind hfits => .token htakes hkind hfits ?_
      have hrest := (ih token r₁.1 r₁.2).of_tokens (r := r₁.1) rfl
      refine hrest.bind List.nil_prefix fun whole r₂ v hv => .pure rfl ?_
      rw [← hv, dereferenceNode, Expression.unnumbered]
      simp [Rule.build, Expression.dereferenced, UnaryOperator.unnumbered, Span.node]

theorem unnumbered_binaryNode (r : Reader) (token : Token) (kind : BinaryKind)
    (left right : Expression) : (r.binaryNode token kind left right).unnumbered
      = left.unnumbered.join (token, kind) right.unnumbered := by
  simp only [binaryNode, Expression.unnumbered, Expression.join, Expression.node_unnumbered]
  rfl

theorem unnumbered_prefixNode (r : Reader) (token : Token) (kind : UnaryKind)
    (operand : Expression) :
    (r.prefixNode token kind operand).unnumbered = operand.unnumbered.negated (token, kind) := by
  simp only [prefixNode, Expression.unnumbered, Expression.negated, Expression.node_unnumbered]
  rfl

theorem not_mem_prefixed {next : TokenKind} (hnext : prefixOperator? next = none)
    (h : next ∈ Phrase.prefixed.starts) : next ∈ Phrase.postfixed.starts := by
  have hall : ∀ kind ∈ Phrase.prefixed.starts,
      prefixOperator? kind = none → kind ∈ Phrase.postfixed.starts := by decide
  exact hall next h hnext

/-- Everything that reads expressions. -/
theorem expressions_derive :
    (∀ (level : Level) (r : Reader), Derives r (binary level r)
      [.phrase (.operation level.operation)] [] fun v whole => v.1 = whole.unnumbered) ∧
    (∀ (level : Level) (left : Expression) (r : Reader), Derives r (chain level left r)
      [.phrase (.moreOperands level.operation)] [] fun v whole =>
        left.unnumbered.joinAll v.1 = whole.unnumbered) ∧
    (∀ (level : Level) (r : Reader), Derives r (operand level r)
      [.phrase (.operand level.operation)] [] fun v whole => v.1 = whole.unnumbered) ∧
    (∀ r : Reader, Derives r (prefixed r) [.phrase .prefixed] [] fun v whole =>
      v.1 = whole.unnumbered) ∧
    (∀ r : Reader, Derives r (postfixed r) [.phrase .postfixed] [] fun v whole =>
      v.1 = whole.unnumbered) ∧
    (∀ r : Reader, Derives r (atom r) [.phrase .primary] [] fun v whole => v.1 = whole.unnumbered) ∧
    (∀ r : Reader, Derives r (arguments r) [.phrase .arguments] [.token .closeParen] fun v whole =>
      v.1 = expressionsUnnumbered whole) ∧
    (∀ r : Reader, Derives r (moreArguments r) [.phrase .moreArguments] [] fun v whole =>
      v.1 = expressionsUnnumbered whole) := by
  apply Reader.binary.mutual_induct
  case case1 =>
      intro level r ihOperand ihChain
      rw [binary]
      refine .only (.operation level.operation) rfl rfl (fun h => List.mem_append_left _ h) ?_
      refine ihOperand.bind List.nil_prefix fun left r₁ v hv => ?_
      refine (ihChain left r₁.1 r₁.2).bind List.nil_prefix fun whole r₂ vs hvs => .pure rfl ?_
      obtain rfl : v = left.unnumbered := hv
      exact hvs
  case case2 =>
      intro level left r ihOperand ihChain
      rw [chain]
      have hend : level.operator? .endOfFile = none := by cases level <;> rfl
      refine .accept? hend (fun hnone => ?_) fun token kind r₁ hkind htakes => ?_
      · exact .phrase (.lastOperand level.operation) (.inr ⟨rfl, Level.not_mem_signKinds hnone⟩)
          (.pure rfl rfl)
      · have hsign := Level.mem_signs hkind
        have hmem : token.kind ∈ level.operation.signKinds := List.mem_map_of_mem (f := Prod.fst) hsign
        have hfits : token.Fits := Token.fits_of_kind fun hinteger => by
          rw [hinteger] at hkind
          cases level <;> cases hkind
        have hstart : token.kind ∈ startsOf (Rule.form (.binarySign _ _ _ hsign)) :=
          List.mem_singleton_self _
        have hnext := htakes.nextKind_eq
        by_cases hchains : level.chains
        · have hne : level.operation ≠ .relation := by
            cases level <;> first | decide | cases hchains
          refine .phrase (.nextOperand _ hne) (.inl (hnext ▸ List.mem_append_left _ hmem)) ?_
          refine .sign (.binarySign _ _ _ hsign) (.token token rfl .nil) rfl (fun _ => trivial) hstart
            htakes hfits ?_
          refine (ihOperand r₁.1 r₁.2).bind List.nil_prefix fun right r₂ v hv => ?_
          simp only [hchains, if_true]
          have hmore := (ihChain token kind r₁.1 r₁.2 right r₂.1 r₂.2).of_tokens (r := r₂.1) rfl
          refine hmore.bind List.nil_prefix fun longer r₃ vs hvs => .pure rfl ?_
          obtain rfl : v = right.unnumbered := hv
          rw [← hvs, unnumbered_binaryNode]
          rfl
        · obtain rfl : level = .comparison := by
            cases level <;> first | rfl | exact absurd rfl hchains
          refine .phrase .related (.inl (hnext ▸ List.mem_append_left _ hmem)) ?_
          refine .sign (.binarySign _ _ _ hsign) (.token token rfl .nil) rfl (fun _ => trivial) hstart
            htakes hfits ?_
          refine (ihOperand r₁.1 r₁.2).bind List.nil_prefix fun right r₂ v hv => ?_
          simp only [hchains]
          refine .pure rfl ?_
          obtain rfl : v = right.unnumbered := hv
          rw [unnumbered_binaryNode]
          rfl
  case case3 =>
      intro level r inner htighter _ ih
      rw [operand_eq_binary htighter]
      exact .only (.tighter _ _ (Level.tighter_operation htighter)) rfl rfl
        (fun h => List.mem_append_left _ h) ih
  case case4 =>
      intro level r hloosest ih
      obtain rfl := Level.eq_product hloosest
      rw [operand_eq_prefixed rfl]
      exact .only .tightest rfl rfl (fun h => List.mem_append_left _ h) ih
  case case5 =>
      intro r ihPostfixed ihPrefixed
      rw [prefixed]
      refine .accept? rfl (fun hnone => ?_) fun token kind r₁ hkind htakes => ?_
      · exact .only .unsigned rfl rfl
          (fun h => List.mem_append_left _ (not_mem_prefixed hnone h)) ihPostfixed
      · have hsign := mem_prefixSigns hkind
        have hmem : token.kind ∈ Phrase.prefixSign.starts := List.mem_map_of_mem (f := Prod.fst) hsign
        have hfits : token.Fits := Token.fits_of_kind fun hinteger => by
          rw [hinteger] at hkind
          cases hkind
        refine .phrase .signed (.inl (htakes.nextKind_eq ▸ List.mem_append_left _ hmem)) ?_
        refine .sign (.prefixSign _ _ hsign) (.token token rfl .nil) rfl (fun _ => trivial)
          (List.mem_singleton_self _) htakes hfits ?_
        refine (ihPrefixed r₁.1 r₁.2).bind List.nil_prefix fun inner r₂ v hv => .pure rfl ?_
        obtain rfl : v = inner.unnumbered := hv
        rw [unnumbered_prefixNode]
        rfl
  case case6 =>
      intro r ihAtom
      rw [postfixed]
      refine .only .postfixed rfl rfl (fun h => List.mem_append_left _ h) ?_
      refine ihAtom.bind List.nil_prefix fun inner r₁ v hv => ?_
      refine (dereferences_derives inner r₁.1).bind List.nil_prefix fun whole r₂ vs hvs =>
        .pure rfl ?_
      obtain rfl : v = inner.unnumbered := hv
      exact hvs
  case case7 =>
      intro r ihArguments ihBinary
      rw [atom]
      refine .peek fun token hpeek hnext => ?_
      cases hkind : token.kind with
      | identifier =>
          refine .phrase .named (.inl (by simp [← hnext, hkind, startsOf])) ?_
          refine identifier_derives.bind List.nil_prefix fun name r₁ v hv => ?_
          have hspan : Token.span v = name.span := span_eq hv
          refine .option .notCalled .called rfl rfl rfl (by decide) (.pure rfl ?_)
            fun paren u r₂ htakes hparen hfits => .token htakes hparen hfits ?_
          · simp only [Rule.build, Expression.unnumbered, hspan, ← hv]
          · refine (ihArguments r₁.1 r₁.2 r₂.1 r₂.2).bind ⟨[], rfl⟩ fun es r₃ vs hvs => ?_
            refine (expect_derives (by decide) (by decide)).bind List.nil_prefix
              fun close r₄ w hw => .pure rfl ?_
            obtain rfl : vs = expressionsUnnumbered es := hvs
            obtain rfl : w = close := hw
            simp only [Rule.build, Expression.unnumbered, hspan, ← hv]
      | openParen =>
          refine .phrase .grouped (.inl (by simp [← hnext, hkind, startsOf])) ?_
          refine (expect_derives (by decide) (by decide)).bind List.nil_prefix fun paren r₁ _ _ => ?_
          refine (ihBinary r₁.1 r₁.2).bind List.nil_prefix fun inner r₂ v hv => ?_
          exact (expect_derives (by decide) (by decide)).bind List.nil_prefix fun close r₃ _ _ =>
            .pure rfl hv
      | integer | character | string =>
          refine .phrase .literal (.inl (by simp [← hnext, hkind, startsOf, Phrase.starts])) ?_
          refine literal_derives.bind List.nil_prefix fun value r₁ v hv => .pure rfl ?_
          obtain rfl : v = value.unnumbered := hv
          rfl
      | _ => exact .throw hpeek rfl (halts_of_not_mem rfl (by simp [hkind, Phrase.starts]))
  case case8 =>
      intro r ihBinary ihMore
      rw [arguments]
      refine .peek fun token hpeek hnext => ?_
      split
      · rename_i hclose
        refine .phrase .noArgument (.inr ⟨rfl, ?_⟩) (.pure rfl rfl)
        rw [← hnext, hclose]
        decide
      · rename_i hne
        refine .present .noArgument .someArguments rfl rfl (fun _ h => List.mem_append_left _ h)
          (hnext ▸ hne) (.before ?_ _)
        refine ihBinary.bind List.nil_prefix fun first r₁ v hv => ?_
        refine (ihMore r₁.1 r₁.2).bind List.nil_prefix fun others r₂ vs hvs => .pure rfl ?_
        obtain rfl : v = first.unnumbered := hv
        obtain rfl : vs = expressionsUnnumbered others := hvs
        rfl
  case case9 =>
      intro r ihBinary ihMore
      rw [moreArguments]
      refine .option .lastArgument .nextArgument rfl rfl rfl (by decide) (.pure rfl rfl)
        fun comma u r₁ htakes hcomma hfits => .token htakes hcomma hfits ?_
      refine (ihBinary r₁.1 r₁.2).bind List.nil_prefix fun first r₂ v hv => ?_
      refine (ihMore r₁.1 r₁.2 r₂.1 r₂.2).bind List.nil_prefix fun others r₃ vs hvs => .pure rfl ?_
      obtain rfl : v = first.unnumbered := hv
      obtain rfl : vs = expressionsUnnumbered others := hvs
      rfl

theorem expression_derives (r : Reader) : Derives r r.expression [.phrase (.operation .expression)] []
    fun v whole => v.1 = whole.unnumbered :=
  expressions_derive.1 .disjunction r

/-! ## Statements and definitions -/

theorem variableDefinition_derives (r : Reader) :
    Derives r r.variableDefinition Rule.variableDefinition.form []
      fun vs head => Rule.variableDefinition.build vs = .var head.unnumbered := by
  refine (expect_derives (by decide) (by decide)).bind List.nil_prefix fun word r₁ v hv => ?_
  refine identifier_derives.bind List.nil_prefix fun name r₂ v' hname => ?_
  refine (expect_derives (by decide) (by decide)).bind List.nil_prefix fun _ r₃ _ _ => ?_
  refine initializer_derives.bind List.nil_prefix fun first r₄ w hw => ?_
  refine (moreInitializers_derives r₄.1).bind List.nil_prefix fun others r₅ ws hws => .pure rfl ?_
  obtain rfl : v = word := hv
  obtain rfl : w = first.unnumbered := hw
  obtain rfl : ws = others.map Initializer.unnumbered := hws
  have hstop : ((others.map Initializer.unnumbered).getLastD first.unnumbered).span
      = (others.getLastD first).span := by
    rw [List.getLastD_eq_getLast?, List.getLastD_eq_getLast?, List.getLast?_map]
    cases others.getLast? <;> rfl
  simp only [Rule.build, Variable.unnumbered, hstop, ← hname, List.map_cons]

theorem parameters_derives (r : Reader) :
    Derives r r.parameters [.phrase .parameters] [.token .closeParen]
      fun v parameters => v.1 = parameters.map Parameter.unnumbered := by
  refine .peek fun token hpeek hnext => ?_
  split
  · rename_i hclose
    refine .phrase .noParameter (.inr ⟨rfl, ?_⟩) (.pure rfl rfl)
    rw [← hnext, hclose]
    decide
  · rename_i hne
    refine .present .noParameter .someParameters rfl rfl (fun _ h => h) (hnext ▸ hne) (.before ?_ _)
    have hlist := commaList_derives (s := .token .identifier)
      (E := fun token parameter => Token.parameter token = parameter.unnumbered)
      (R := fun (vs : Phrase.moreParameters.Tree) parameters => vs = parameters.map Parameter.unnumbered)
      (fun _ => parameter_derives) moreParameters_derives r
    refine .returning id (hlist.mono ?_) fun parameters r₁ => ⟨_, rfl⟩
    rintro vs _ ⟨first, others, rfl, hfirst, hothers⟩
    simp only [Rule.build, id_eq, List.map_cons, ← hfirst, ← hothers]

theorem simpleStatement_derives (r : Reader) :
    Derives r r.simpleStatement Rule.simple.form []
      fun vs statement => Rule.simple.build vs = statement.unnumbered := by
  refine (expression_derives r).bind List.nil_prefix fun first r₁ v hv => ?_
  obtain rfl : v = first.unnumbered := hv
  refine .option .evaluated .assigned rfl rfl rfl (by decide) (.pure rfl ?_)
    fun equals u r₂ htakes hequals hfits => .token htakes hequals hfits ?_
  · simp only [Rule.build, Statement.unnumbered, Expression.node_unnumbered]
    rfl
  · refine (expression_derives r₂.1).bind List.nil_prefix fun source r₃ w hw => .pure rfl ?_
    obtain rfl : w = source.unnumbered := hw
    simp only [Rule.build, Statement.unnumbered, Expression.node_unnumbered]
    rfl

/-- Everything that reads statements and definitions. -/
theorem statements_derive :
    (∀ r : Reader, Derives r (statements r) [.phrase .statements] [] fun v whole =>
      v.1 = statementsUnnumbered whole) ∧
    (∀ r : Reader, Derives r (moreStatements r) [.phrase .moreStatements] [] fun v whole =>
      v.1 = statementsUnnumbered whole) ∧
    (∀ r : Reader, Derives r (statement r) [.phrase .statement] [] fun v whole =>
      v.1 = whole.unnumbered) ∧
    (∀ r : Reader, Derives r (moreDefinitions r) [.phrase .definitions] [.token (.keyword .kwIn)]
      fun v whole => v.1 = definitionsUnnumbered whole) ∧
    (∀ r : Reader, Derives r (definition r) [.phrase .definition] [] fun v whole =>
      v.1 = whole.unnumbered) ∧
    (∀ r : Reader, Derives r (functionBody r) [.phrase .functionBody] [] fun v whole =>
      v.1 = statementsUnnumbered whole) ∧
    (∀ r : Reader, Derives r (elseBranch r) [.phrase .otherwise] [] fun v whole =>
      v.1 = statementsUnnumbered whole) := by
  apply Reader.statements.mutual_induct
  case case1 =>
      intro r ihStatement ihMore
      rw [statements]
      refine .only .statements rfl rfl (fun h => List.mem_append_left _ h) ?_
      refine ihStatement.bind List.nil_prefix fun first r₁ v hv => ?_
      refine (ihMore r₁.1 r₁.2).bind List.nil_prefix fun others r₂ vs hvs => .pure rfl ?_
      obtain rfl : v = first.unnumbered := hv
      obtain rfl : vs = statementsUnnumbered others := hvs
      rfl
  case case2 =>
      intro r ihStatement ihMore
      rw [moreStatements]
      refine .option .lastStatement .nextStatement rfl rfl rfl (by decide) (.pure rfl rfl)
        fun comma u r₁ htakes hcomma hfits => .token htakes hcomma hfits ?_
      refine (ihStatement r₁.1 r₁.2).bind List.nil_prefix fun first r₂ v hv => ?_
      refine (ihMore r₁.1 r₁.2 r₂.1 r₂.2).bind List.nil_prefix fun others r₃ vs hvs => .pure rfl ?_
      obtain rfl : v = first.unnumbered := hv
      obtain rfl : vs = statementsUnnumbered others := hvs
      rfl
  case case3 =>
      intro r ihPositive ihElse ihDefinition ihMore ihBody
      have ihLoop := ihPositive
      rw [statement]
      refine .peek fun token hpeek hnext => ?_
      split
      · rename_i hkind
        refine .phrase .branch (.inl (by simp [← hnext, hkind, startsOf])) ?_
        refine (expect_derives (by decide) (by decide)).bind List.nil_prefix fun word r₁ v hv => ?_
        refine (expression_derives r₁.1).bind List.nil_prefix fun condition r₂ w hw => ?_
        refine (expect_derives (by decide) (by decide)).bind List.nil_prefix fun _ r₃ _ _ => ?_
        refine (ihPositive r₁.1 r₁.2 r₂.1 r₂.2 r₃.1 r₃.2).bind List.nil_prefix
          fun positive r₄ ps hps => ?_
        refine (ihElse r₁.1 r₁.2 r₂.1 r₂.2 r₃.1 r₃.2 r₄.1 r₄.2).bind List.nil_prefix
          fun negative r₅ ns hns => ?_
        refine (expect_derives (by decide) (by decide)).bind List.nil_prefix fun close r₆ u hu =>
          .pure rfl ?_
        obtain rfl : v = word := hv
        obtain rfl : w = condition.unnumbered := hw
        obtain rfl : ps = statementsUnnumbered positive := hps
        obtain rfl : ns = statementsUnnumbered negative := hns
        obtain rfl : u = close := hu
        rfl
      · rename_i hkind
        refine .phrase .loop (.inl (by simp [← hnext, hkind, startsOf])) ?_
        refine (expect_derives (by decide) (by decide)).bind List.nil_prefix fun word r₁ v hv => ?_
        refine (expression_derives r₁.1).bind List.nil_prefix fun condition r₂ w hw => ?_
        refine (expect_derives (by decide) (by decide)).bind List.nil_prefix fun _ r₃ _ _ => ?_
        refine (ihLoop r₁.1 r₁.2 r₂.1 r₂.2 r₃.1 r₃.2).bind List.nil_prefix fun body r₄ bs hbs => ?_
        refine (expect_derives (by decide) (by decide)).bind List.nil_prefix fun close r₅ u hu =>
          .pure rfl ?_
        obtain rfl : v = word := hv
        obtain rfl : w = condition.unnumbered := hw
        obtain rfl : bs = statementsUnnumbered body := hbs
        obtain rfl : u = close := hu
        rfl
      · rename_i hkind
        refine .phrase .block (.inl (by simp [← hnext, hkind, startsOf])) ?_
        refine (expect_derives (by decide) (by decide)).bind List.nil_prefix fun word r₁ v hv => ?_
        refine (ihDefinition r₁.1 r₁.2).bind List.nil_prefix fun first r₂ d hd => ?_
        refine (ihMore r₁.1 r₁.2 r₂.1 r₂.2).bind ⟨_, rfl⟩ fun others r₃ ds hds => ?_
        refine (expect_derives (by decide) (by decide)).bind List.nil_prefix fun _ r₄ _ _ => ?_
        refine (ihBody r₁.1 r₁.2 r₂.1 r₂.2 r₃.1 r₃.2 r₄.1 r₄.2).bind List.nil_prefix
          fun body r₅ bs hbs => ?_
        refine (expect_derives (by decide) (by decide)).bind List.nil_prefix fun close r₆ u hu =>
          .pure rfl ?_
        obtain rfl : v = word := hv
        obtain rfl : d = first.unnumbered := hd
        obtain rfl : ds = definitionsUnnumbered others := hds
        obtain rfl : bs = statementsUnnumbered body := hbs
        obtain rfl : u = close := hu
        rfl
      · rename_i hif hwhile hlet
        refine .only .simple rfl rfl (fun h => ?_) (simpleStatement_derives r)
        rw [← hnext] at h ⊢
        simp only [Phrase.starts, List.mem_cons] at h
        exact List.mem_append_left _ (((h.resolve_left hif).resolve_left hwhile).resolve_left hlet)
  case case4 =>
      intro r ihDefinition ihMore
      rw [moreDefinitions]
      refine .peek fun token hpeek hnext => ?_
      split
      · rename_i hin
        refine .phrase .noDefinition (.inr ⟨rfl, ?_⟩) (.pure rfl rfl)
        rw [← hnext, hin]
        decide
      · rename_i hne
        refine .present .noDefinition .someDefinitions rfl rfl (fun _ h => List.mem_append_left _ h)
          (hnext ▸ hne) ?_
        refine ihDefinition.bind List.nil_prefix fun first r₁ v hv => ?_
        refine (ihMore r₁.1 r₁.2).bind List.prefix_rfl fun others r₂ vs hvs => .pure rfl ?_
        obtain rfl : v = first.unnumbered := hv
        obtain rfl : vs = definitionsUnnumbered others := hvs
        rfl
  case case5 =>
      intro r ihBody
      rw [definition]
      refine .peek fun token hpeek hnext => ?_
      split
      · rename_i hkind
        refine .phrase .functionDefinition (.inl (by simp [← hnext, hkind, startsOf])) ?_
        refine (expect_derives (by decide) (by decide)).bind List.nil_prefix fun word r₁ v hv => ?_
        refine identifier_derives.bind List.nil_prefix fun name r₂ w hname => ?_
        refine (expect_derives (by decide) (by decide)).bind List.nil_prefix fun _ r₃ _ _ => ?_
        refine (parameters_derives r₃.1).bind ⟨_, rfl⟩ fun parameters r₄ ps hps => ?_
        refine (expect_derives (by decide) (by decide)).bind List.nil_prefix fun close r₅ u hu => ?_
        refine (ihBody r₁.1 r₁.2 r₂.1 r₂.2 r₃.1 r₃.2 r₄.1 r₄.2 r₅.1 r₅.2).bind List.nil_prefix
          fun body r₆ bs hbs => .pure rfl ?_
        obtain rfl : v = word := hv
        obtain rfl : ps = parameters.map Parameter.unnumbered := hps
        obtain rfl : u = close := hu
        obtain rfl : bs = statementsUnnumbered body := hbs
        have hstop : (statementsUnnumbered body).getLast?.map (fun statement => statement.node.span.stop)
            = body.getLast?.map fun statement => statement.node.span.stop := by
          rw [statementsUnnumbered_eq_map, List.getLast?_map, Option.map_map]
          congr 1
          funext statement
          exact congrArg (fun node => node.span.stop) statement.node_unnumbered
        simp only [Rule.build, Definition.unnumbered, FunctionHead.unnumbered, hstop, ← hname]
      · rename_i hkind
        refine .phrase .variableDefinition (.inl (by simp [← hnext, hkind, startsOf])) ?_
        exact .returning Definition.var (variableDefinition_derives r) fun head r₁ => ⟨_, rfl⟩
      · rename_i hfun hvar
        refine .throw hpeek rfl (halts_of_not_mem rfl fun hmem => ?_)
        rcases List.mem_cons.mp hmem with hkind | hmem
        · exact hfun hkind
        · exact hvar (List.mem_singleton.mp hmem)
  case case6 =>
      intro r ih
      rw [functionBody]
      refine .option .noBody .someBody rfl rfl rfl (by decide) (.pure rfl rfl)
        fun equals u r₁ htakes hequals hfits => .token htakes hequals hfits ?_
      exact (ih r₁.1 r₁.2).bind List.nil_prefix fun body r₂ v hv => .pure rfl hv
  case case7 =>
      intro r ih
      rw [elseBranch]
      refine .option .noElse .otherwise rfl rfl rfl (by decide) (.pure rfl rfl)
        fun word u r₁ htakes hword hfits => .token htakes hword hfits ?_
      exact (ih r₁.1 r₁.2).bind List.nil_prefix fun negative r₂ v hv => .pure rfl hv

theorem definition_derives (r : Reader) : Derives r r.definition [.phrase .definition] []
    fun v whole => v.1 = whole.unnumbered :=
  statements_derive.2.2.2.2.1 r

/-- The definitions of a program; the type says nothing of how many tokens are left. -/
def definitionsOf (r : Reader) : Except CompileError (List Definition × { _r' : Reader // True }) :=
  r.definitions.map fun found => (found.1, ⟨found.2, trivial⟩)

theorem definitionsOf_eq (r : Reader) : r.definitionsOf = r.peek >>= fun token =>
    if token.kind = .endOfFile then .ok ([], ⟨r, trivial⟩)
    else r.definition >>= fun first => first.2.1.definitionsOf >>= fun others =>
      .ok (first.1 :: others.1, others.2) := by
  rw [definitionsOf, definitions]
  cases r.peek with
  | error e => rfl
  | ok token =>
      by_cases hend : token.kind = .endOfFile
      · simp only [bind, Except.bind, hend, if_true]
        rfl
      · simp only [bind, Except.bind, hend, if_false]
        cases r.definition with
        | error e => rfl
        | ok first =>
            simp only [definitionsOf]
            cases first.2.1.definitions <;> rfl

theorem definitions_derives (r : Reader) :
    Derives r r.definitionsOf [.phrase .definitions] [.token .endOfFile]
      fun v whole => v.1 = definitionsUnnumbered whole := by
  induction r using definitions.induct with
  | case1 r ih =>
      rw [definitionsOf_eq]
      refine .peek fun token hpeek hnext => ?_
      split
      · rename_i hend
        refine .phrase .noDefinition (.inr ⟨rfl, ?_⟩) (.pure rfl rfl)
        rw [← hnext, hend]
        decide
      · rename_i hne
        refine .present .noDefinition .someDefinitions rfl rfl (fun _ h => List.mem_append_left _ h)
          (hnext ▸ hne) ?_
        refine (definition_derives r).bind List.nil_prefix fun first r₁ v hv => ?_
        refine (ih r₁.1 r₁.2).bind List.prefix_rfl fun others r₂ vs hvs => .pure rfl ?_
        obtain rfl : v = first.unnumbered := hv
        obtain rfl : vs = definitionsUnnumbered others := hvs
        rfl

end Reader

end NestedFun
