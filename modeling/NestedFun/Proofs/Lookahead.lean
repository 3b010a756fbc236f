import NestedFun.Proofs.SystemDeclarations

namespace NestedFun

/-!
# Ends of texts

Behind a whole definition the end of a text and a word `fun` look the same to every part of the
parser. So what is read in front of one of them is read in front of the other, with the same numbers
and places.
-/

/-- What the parser may meet behind the definitions of a text: nothing, or a word `fun` with no word
`in` behind it. -/
structure Tokens.Stops (stop : Tokens) : Prop where
  head : ∀ token, stop.list.head? = some token → token.kind = .keyword .kwFun
  noIn : ∀ token ∈ stop.list, token.kind ≠ .keyword .kwIn
  ending : ∃ token, stop.ending = .ok token ∧ token.kind = .endOfFile

def TokenKind.IsStop (kind : TokenKind) : Prop := kind = .keyword .kwFun ∨ kind = .endOfFile

namespace Reader

section

variable (S S' : Tokens)

structure Alike (r q : Reader) : Prop where
  tokens : ∃ front, r.tokens = ⟨front ++ S.list, S.ending⟩ ∧ q.tokens = ⟨front ++ S'.list, S'.ending⟩
  nextId_eq : q.nextId = r.nextId

def Carries {α : Type} {P Q : Reader → Prop} (x : Except CompileError (α × { r' : Reader // P r' }))
    (y : Except CompileError (α × { q' : Reader // Q q' })) : Prop :=
  ∀ a r', x = .ok (a, r') → ∃ q', y = .ok (a, q') ∧ Alike S S' r'.1 q'.1

end

variable {S S' : Tokens} {r q : Reader} {α β : Type} {P Q P₁ Q₁ : Reader → Prop}

namespace Alike

theorem bump (h : Alike S S' r q) : Alike S S' r.bump q.bump :=
  ⟨h.tokens, congrArg (· + 1) h.nextId_eq⟩

theorem symm (h : Alike S S' r q) : Alike S' S q r := by
  obtain ⟨⟨front, hr, hq⟩, hid⟩ := h
  exact ⟨⟨front, hq, hr⟩, hid.symm⟩

theorem binaryNode (h : Alike S S' r q) (token : Token) (kind : BinaryKind)
    (left right : Expression) :
    q.binaryNode token kind left right = r.binaryNode token kind left right := by
  simp only [Reader.binaryNode, h.nextId_eq]

theorem prefixNode (h : Alike S S' r q) (token : Token) (kind : UnaryKind) (operand : Expression) :
    q.prefixNode token kind operand = r.prefixNode token kind operand := by
  simp only [Reader.prefixNode, h.nextId_eq]

theorem dereferenceNode (h : Alike S S' r q) (token : Token) (operand : Expression) :
    q.dereferenceNode token operand = r.dereferenceNode token operand := by
  simp only [Reader.dereferenceNode, h.nextId_eq]

/-- The next tokens are the same, or both are where the readers stop. -/
theorem peek_cases (h : Alike S S' r q) (hS : S.Stops) (hS' : S'.Stops) :
    (∃ token, r.peek = .ok token ∧ q.peek = .ok token ∧ r.tokens.list ≠ S.list) ∨
      (r.tokens.list = S.list ∧ ∃ token token', r.peek = .ok token ∧ q.peek = .ok token' ∧
        token.kind.IsStop ∧ token'.kind.IsStop) := by
  have hstop : ∀ {T : Tokens}, T.Stops → ∀ n, ∃ token, peek ⟨T, n⟩ = .ok token ∧
      token.kind.IsStop := by
    rintro ⟨list, ending⟩ hT n
    cases list with
    | nil =>
        obtain ⟨token, hending, hkind⟩ := hT.ending
        exact ⟨token, hending, .inr hkind⟩
    | cons token list => exact ⟨token, rfl, .inl (hT.head token rfl)⟩
  obtain ⟨⟨front, hr, hq⟩, -⟩ := h
  cases front with
  | nil =>
      obtain ⟨token, hpeek, hkind⟩ := hstop hS r.nextId
      obtain ⟨token', hpeek', hkind'⟩ := hstop hS' q.nextId
      have hr' : r = ⟨S, r.nextId⟩ := by cases r; cases S; simp only [List.nil_append] at hr; rw [hr]
      have hq' : q = ⟨S', q.nextId⟩ := by
        cases q; cases S'; simp only [List.nil_append] at hq; rw [hq]
      exact .inr ⟨by rw [hr]; rfl, token, token', hr' ▸ hpeek, hq' ▸ hpeek', hkind, hkind'⟩
  | cons token front =>
      refine .inl ⟨token, by simp [peek, hr], by simp [peek, hq], fun heq => ?_⟩
      have hlength := congrArg List.length (hr ▸ heq)
      simp only [List.length_append, List.length_cons] at hlength
      omega

end Alike

namespace Carries

theorem pure {a a' : α} {r' : { r' : Reader // P r' }} {q' : { q' : Reader // Q q' }} (ha : a' = a)
    (h : Alike S S' r'.1 q'.1) :
    Carries S S' (.ok (a, r')) (.ok (a', q')) := by
  rintro b r'' heq
  cases heq
  exact ⟨q', by rw [ha], h⟩

theorem throw (e : CompileError) (y : Except CompileError (α × { q' : Reader // Q q' })) :
    Carries (P := P) S S' (.error e) y :=
  nofun

theorem bind {x : Except CompileError (α × { r' : Reader // P r' })}
    {y : Except CompileError (α × { q' : Reader // Q q' })}
    {f : α × { r' : Reader // P r' } → Except CompileError (β × { r' : Reader // P₁ r' })}
    {g : α × { q' : Reader // Q q' } → Except CompileError (β × { q' : Reader // Q₁ q' })}
    (hx : Carries S S' x y) (hf : ∀ a r' q', Alike S S' r'.1 q'.1 →
      Carries S S' (f (a, r')) (g (a, q'))) :
    Carries S S' (x >>= f) (y >>= g) := by
  intro b r'' h
  obtain ⟨⟨a, r'⟩, ha, hb⟩ := bind_eq_ok h
  obtain ⟨q', ha', halike⟩ := hx a r' ha
  obtain ⟨q'', hb', halike'⟩ := hf a r' q' halike b r'' hb
  exact ⟨q'', by rw [ha']; exact hb', halike'⟩

/-- Looking at the next token. -/
theorem peek {f : Token → Except CompileError (β × { r' : Reader // P₁ r' })}
    {g : Token → Except CompileError (β × { q' : Reader // Q₁ q' })} (hS : S.Stops) (hS' : S'.Stops)
    (h : Alike S S' r q)
    (hsame : ∀ token, r.tokens.list ≠ S.list → Carries S S' (f token) (g token))
    (hstop : r.tokens.list = S.list → ∀ token token', token.kind.IsStop → token'.kind.IsStop →
      Carries S S' (f token) (g token')) :
    Carries S S' (r.peek >>= f) (q.peek >>= g) := by
  rcases h.peek_cases hS hS' with ⟨token, hr, hq, hne⟩ | ⟨heq, token, token', hr, hq, hkind, hkind'⟩
  · rw [hr, hq]
    exact hsame token hne
  · rw [hr, hq]
    exact hstop heq token token' hkind hkind'

/-- Telling by the next token how to go on. -/
theorem peekIs {kind : TokenKind} {x x' : Except CompileError (β × { r' : Reader // P₁ r' })}
    {y y' : Except CompileError (β × { q' : Reader // Q₁ q' })} (hS : S.Stops) (hS' : S'.Stops)
    (h : Alike S S' r q) (hkind : ¬ kind.IsStop) (hthen : Carries S S' x y)
    (helse : Carries S S' x' y') :
    Carries S S' (r.peek >>= fun token => if token.kind = kind then x else x')
      (q.peek >>= fun token => if token.kind = kind then y else y') := by
  refine .peek hS hS' h (fun token _ => ?_) fun _ token token' hstop hstop' => ?_
  · by_cases heq : token.kind = kind
    · rw [if_pos heq, if_pos heq]
      exact hthen
    · rw [if_neg heq, if_neg heq]
      exact helse
  · rw [if_neg (fun heq : token.kind = kind => hkind (heq ▸ hstop)),
      if_neg (fun heq : token'.kind = kind => hkind (heq ▸ hstop'))]
    exact helse

/-- Taking the next token if it is of some kind. -/
theorem accept? {γ : Type} {select : TokenKind → Option γ}
    {f : Option (Token × γ × r.Shorter) → Except CompileError (β × { r' : Reader // P₁ r' })}
    {g : Option (Token × γ × q.Shorter) → Except CompileError (β × { q' : Reader // Q₁ q' })}
    (hS : S.Stops) (hS' : S'.Stops) (h : Alike S S' r q)
    (hselect : select (.keyword .kwFun) = none ∨ r.tokens.list ≠ S.list)
    (hnone : Carries S S' (f none) (g none))
    (hsome : ∀ token c r' q', select token.kind = some c → Alike S S' r'.1 q'.1 →
      Carries S S' (f (some (token, c, r'))) (g (some (token, c, q')))) :
    Carries S S' (r.accept? select >>= f) (q.accept? select >>= g) := by
  have hnone' : ∀ {T : Tokens} {p : Reader}, T.Stops → p.tokens = T →
      (select (.keyword .kwFun) = none) → p.accept? select = .ok none := by
    rintro ⟨list, ending⟩ ⟨-, n⟩ hT rfl hselect
    cases list with
    | nil =>
        obtain ⟨token, hending, -⟩ := hT.ending
        simp only at hending
        simp [Reader.accept?, hending, Except.map]
    | cons token list =>
        have hkind : token.kind = .keyword .kwFun := hT.head token rfl
        simp [Reader.accept?, hkind, hselect]
  obtain ⟨⟨front, hr, hq⟩, hid⟩ := h
  cases front with
  | nil =>
      rcases hselect with hselect | hne
      · rw [hnone' hS (by rw [hr]; rfl) hselect, hnone' hS' (by rw [hq]; rfl) hselect]
        exact hnone
      · exact absurd (by rw [hr]; rfl) hne
  | cons token front =>
      obtain ⟨tokens, n⟩ := r
      obtain ⟨tokens', m⟩ := q
      simp only at hr hq hid
      subst hr hq hid
      cases hc : select token.kind with
      | none =>
          have haccept : ∀ (T : Tokens) (n : NodeId),
              Reader.accept? ⟨⟨token :: front ++ T.list, T.ending⟩, n⟩ select = .ok none := by
            intro T n
            simp [Reader.accept?, hc]
          rw [haccept, haccept]
          exact hnone
      | some c =>
          have haccept : ∀ (T : Tokens) (n : NodeId), ∃ hlt,
              Reader.accept? ⟨⟨token :: front ++ T.list, T.ending⟩, n⟩ select
                = .ok (some (token, c, ⟨⟨⟨front ++ T.list, T.ending⟩, n⟩, hlt⟩)) := by
            intro T n
            refine ⟨by simp [size], ?_⟩
            simp [Reader.accept?, hc]
          obtain ⟨hlt, hr⟩ := haccept S _
          obtain ⟨hlt', hq⟩ := haccept S' _
          rw [hr, hq]
          exact hsome token c _ _ hc ⟨⟨front, rfl, rfl⟩, rfl⟩

end Carries

section

variable (hS : S.Stops) (hS' : S'.Stops)

include hS hS'

theorem expect_carries {kind : TokenKind} (h : Alike S S' r q)
    (hkind : kind ≠ .keyword .kwFun ∨ r.tokens.list ≠ S.list) :
    Carries S S' (r.expect kind) (q.expect kind) := by
  have hrequire : Carries S S' (r.require (.token kind) (only kind))
      (q.require (.token kind) (only kind)) := by
    refine .accept? hS hS' h (hkind.imp_left fun hne => if_neg (Ne.symm hne)) ?_ ?_
    · exact .peek hS hS' h (fun _ _ => .throw _ _) fun _ _ _ _ _ => .throw _ _
    · exact fun token u r₁ q₁ _ h₁ => .pure rfl h₁
  exact hrequire.bind fun a r₁ q₁ h₁ => .pure rfl h₁

theorem identifier_carries (h : Alike S S' r q) :
    Carries S S' r.identifier q.identifier := by
  refine (expect_carries hS hS' h (.inl (by decide))).bind fun token r₁ q₁ h₁ => .pure ?_ h₁.bump
  rw [h₁.nextId_eq]

theorem literal_carries (h : Alike S S' r q) : Carries S S' r.literal q.literal := by
  have hrequire : Carries S S' (r.require .constant literalKind?)
      (q.require .constant literalKind?) := by
    refine .accept? hS hS' h (.inl rfl) ?_ ?_
    · exact .peek hS hS' h (fun _ _ => .throw _ _) fun _ _ _ _ _ => .throw _ _
    · exact fun token u r₁ q₁ _ h₁ => .pure rfl h₁
  refine hrequire.bind fun a r₁ q₁ h₁ => ?_
  obtain ⟨token, kind⟩ := a
  cases kind with
  | integer =>
      simp only
      split
      · exact .pure (by rw [h₁.nextId_eq]) h₁.bump
      · exact .throw _ _
  | character | string => exact .pure (by rw [h₁.nextId_eq]) h₁.bump

theorem parameter_carries (h : Alike S S' r q) : Carries S S' r.parameter q.parameter :=
  (identifier_carries hS hS' h).bind fun name r₁ q₁ h₁ => .pure (by rw [h₁.nextId_eq]) h₁.bump

theorem initializer_carries (h : Alike S S' r q) :
    Carries S S' r.initializer q.initializer := by
  refine (literal_carries hS hS' h).bind fun first r₁ q₁ h₁ => ?_
  simp only
  split
  · refine .accept? hS hS' h₁ (.inl rfl) ?_ fun token u r₂ q₂ _ h₂ => ?_
    · exact .pure (by rw [h₁.nextId_eq]) h₁.bump
    · exact (literal_carries hS hS' h₂).bind fun value r₃ q₃ h₃ =>
        .pure (by rw [h₃.nextId_eq]) h₃.bump
  · exact .pure (by rw [h₁.nextId_eq]) h₁.bump

/-- Items with commas between them. -/
theorem commaTail_carries {item : (r : Reader) → Parsed α r}
    (hitem : ∀ r q, Alike S S' r q → Carries S S' (item r) (item q)) (r : Reader) :
    ∀ q, Alike S S' r q → Carries S S' (commaTail item r) (commaTail item q) := by
  induction r using commaTail.induct with
  | case1 r ih =>
      intro q h
      rw [commaTail, commaTail]
      refine .accept? hS hS' h (.inl rfl) (.pure rfl h) fun token u r₁ q₁ _ h₁ => ?_
      exact (hitem _ _ h₁).bind fun x r₂ q₂ h₂ =>
        (ih r₁.1 r₁.2 r₂.1 r₂.2 q₂.1 h₂).bind fun _ _ _ h₃ => .pure rfl h₃

theorem commaList_carries {item : (r : Reader) → Parsed α r}
    (hitem : ∀ r q, Alike S S' r q → Carries S S' (item r) (item q)) (h : Alike S S' r q) :
    Carries S S' (commaList item r) (commaList item q) :=
  (hitem _ _ h).bind fun _ r₁ q₁ h₁ =>
    (commaTail_carries hS hS' hitem r₁.1 q₁.1 h₁).bind fun _ _ _ h₂ => .pure rfl h₂

theorem variableDefinition_carries (h : Alike S S' r q) :
    Carries S S' r.variableDefinition q.variableDefinition := by
  refine (expect_carries hS hS' h (.inl (by decide))).bind fun word r₁ q₁ h₁ => ?_
  refine (identifier_carries hS hS' h₁).bind fun name r₂ q₂ h₂ => ?_
  refine (expect_carries hS hS' h₂ (.inl (by decide))).bind fun equals r₃ q₃ h₃ => ?_
  refine (initializer_carries hS hS' h₃).bind fun first r₄ q₄ h₄ => ?_
  refine (commaTail_carries hS hS' (fun _ _ => initializer_carries hS hS') r₄.1 q₄.1 h₄).bind
    fun others r₅ q₅ h₅ => ?_
  exact .pure (by rw [h₅.nextId_eq]) h₅.bump

theorem dereferences_carries (operand : Expression) (r : Reader) : ∀ q, Alike S S' r q →
    Carries S S' (dereferences operand r) (dereferences operand q) := by
  induction operand, r using dereferences.induct with
  | case1 operand r ih =>
      intro q h
      rw [dereferences, dereferences]
      refine .accept? hS hS' h (.inl rfl) (.pure rfl h) fun token u r₁ q₁ _ h₁ => ?_
      simp only [h₁.dereferenceNode]
      exact (ih token r₁.1 r₁.2 q₁.1.bump.bump h₁.bump.bump).bind fun whole r₂ q₂ h₂ => .pure rfl h₂

/-- Everything that reads expressions. -/
theorem expressions_carry :
    (∀ (level : Level) (r q : Reader), Alike S S' r q →
      Carries S S' (binary level r) (binary level q)) ∧
    (∀ (level : Level) (left : Expression) (r q : Reader), Alike S S' r q →
      Carries S S' (chain level left r) (chain level left q)) ∧
    (∀ (level : Level) (r q : Reader), Alike S S' r q →
      Carries S S' (operand level r) (operand level q)) ∧
    (∀ r q : Reader, Alike S S' r q → Carries S S' (prefixed r) (prefixed q)) ∧
    (∀ r q : Reader, Alike S S' r q → Carries S S' (postfixed r) (postfixed q)) ∧
    (∀ r q : Reader, Alike S S' r q → Carries S S' (atom r) (atom q)) ∧
    (∀ r q : Reader, Alike S S' r q → Carries S S' (arguments r) (arguments q)) ∧
    (∀ r q : Reader, Alike S S' r q → Carries S S' (moreArguments r) (moreArguments q)) := by
  apply Reader.binary.mutual_induct
  case case1 =>
      intro level r ihOperand ihChain q h
      rw [binary, binary]
      exact (ihOperand q h).bind fun left r₁ q₁ h₁ =>
        (ihChain left r₁.1 r₁.2 q₁.1 h₁).bind fun whole r₂ q₂ h₂ => .pure rfl h₂
  case case2 =>
      intro level left r ihOperand ihChain q h
      rw [chain, chain]
      have hfun : level.operator? (.keyword .kwFun) = none := by cases level <;> rfl
      refine .accept? hS hS' h (.inl hfun) (.pure rfl h) fun token kind r₁ q₁ _ h₁ => ?_
      refine (ihOperand r₁.1 r₁.2 q₁.1 h₁).bind fun right r₂ q₂ h₂ => ?_
      simp only [h₂.binaryNode]
      split
      · exact (ihChain token kind r₁.1 r₁.2 right r₂.1 r₂.2 q₂.1.bump.bump h₂.bump.bump).bind
          fun longer r₃ q₃ h₃ => .pure rfl h₃
      · exact .pure rfl h₂.bump.bump
  case case3 =>
      intro level r level' htighter _ ih q h
      rw [operand_eq_binary htighter, operand_eq_binary htighter]
      exact ih q h
  case case4 =>
      intro level r hloosest ih q h
      rw [operand_eq_prefixed hloosest, operand_eq_prefixed hloosest]
      exact ih q h
  case case5 =>
      intro r ihPostfixed ihPrefixed q h
      rw [prefixed, prefixed]
      refine .accept? hS hS' h (.inl rfl) (ihPostfixed q h) fun token kind r₁ q₁ _ h₁ => ?_
      exact (ihPrefixed r₁.1 r₁.2 q₁.1 h₁).bind fun inner r₂ q₂ h₂ =>
        .pure (h₂.prefixNode token kind inner) h₂.bump.bump
  case case6 =>
      intro r ihAtom q h
      rw [postfixed, postfixed]
      exact (ihAtom q h).bind fun inner r₁ q₁ h₁ =>
        (dereferences_carries hS hS' inner r₁.1 q₁.1 h₁).bind fun whole r₂ q₂ h₂ => .pure rfl h₂
  case case7 =>
      intro r ihArguments ihBinary q h
      rw [atom, atom]
      refine .peek hS hS' h (fun token _ => ?_) fun _ token token' hstop hstop' => ?_
      · cases token.kind with
        | identifier =>
            refine (identifier_carries hS hS' h).bind fun name r₁ q₁ h₁ => ?_
            refine .accept? hS hS' h₁ (.inl rfl) (.pure (by rw [h₁.nextId_eq]) h₁.bump)
              fun paren u r₂ q₂ _ h₂ => ?_
            refine (ihArguments r₁.1 r₁.2 r₂.1 r₂.2 q₂.1 h₂).bind fun es r₃ q₃ h₃ => ?_
            refine (expect_carries hS hS' h₃ (.inl (by decide))).bind fun close r₄ q₄ h₄ => ?_
            exact .pure (by rw [h₄.nextId_eq]) h₄.bump
        | openParen =>
            refine (expect_carries hS hS' h (.inl (by decide))).bind fun paren r₁ q₁ h₁ => ?_
            refine (ihBinary r₁.1 r₁.2 q₁.1 h₁).bind fun inner r₂ q₂ h₂ => ?_
            exact (expect_carries hS hS' h₂ (.inl (by decide))).bind fun close r₃ q₃ h₃ =>
              .pure rfl h₃
        | integer | character | string =>
            exact (literal_carries hS hS' h).bind fun value r₁ q₁ h₁ =>
              .pure (by rw [h₁.nextId_eq]) h₁.bump
        | _ => exact .throw _ _
      · rcases hstop with hkind | hkind <;> simp only [hkind] <;> exact .throw _ _
  case case8 =>
      intro r ihBinary ihMore q h
      rw [arguments, arguments]
      refine .peekIs hS hS' h (by simp [TokenKind.IsStop]) (.pure rfl h) ?_
      exact (ihBinary q h).bind fun first r₁ q₁ h₁ =>
        (ihMore r₁.1 r₁.2 q₁.1 h₁).bind fun others r₂ q₂ h₂ => .pure rfl h₂
  case case9 =>
      intro r ihBinary ihMore q h
      rw [moreArguments, moreArguments]
      refine .accept? hS hS' h (.inl rfl) (.pure rfl h) fun comma u r₁ q₁ _ h₁ => ?_
      exact (ihBinary r₁.1 r₁.2 q₁.1 h₁).bind fun first r₂ q₂ h₂ =>
        (ihMore r₁.1 r₁.2 r₂.1 r₂.2 q₂.1 h₂).bind fun others r₃ q₃ h₃ => .pure rfl h₃

theorem expression_carries (h : Alike S S' r q) : Carries S S' r.expression q.expression :=
  (expressions_carry hS hS').1 .disjunction r q h

theorem simpleStatement_carries (h : Alike S S' r q) :
    Carries S S' r.simpleStatement q.simpleStatement := by
  refine (expression_carries hS hS' h).bind fun first r₁ q₁ h₁ => ?_
  refine .accept? hS hS' h₁ (.inl rfl) (.pure (by rw [h₁.nextId_eq]) h₁.bump)
    fun equals u r₂ q₂ _ h₂ => ?_
  exact (expression_carries hS hS' h₂).bind fun source r₃ q₃ h₃ =>
    .pure (by rw [h₃.nextId_eq]) h₃.bump

theorem parameters_carries (h : Alike S S' r q) :
    Carries S S' r.parameters q.parameters := by
  refine .peekIs hS hS' h (by simp [TokenKind.IsStop]) (.pure rfl h) ?_
  exact (commaList_carries hS hS' (fun _ _ => parameter_carries hS hS') h).bind
    fun parameters r₁ q₁ h₁ => .pure rfl h₁

omit hS hS' in
/-- Further definitions end at a word `in`. -/
theorem moreDefinitions_in (r : Reader) : ∀ (ds : List Definition) (r' : r.NoLonger),
    moreDefinitions r = .ok (ds, r') →
      ∃ token, r'.1.peek = .ok token ∧ token.kind = .keyword .kwIn
  | _, ⟨_, _⟩, h => by
      cases moreDefinitions_read h with
      | last hpeek hin => exact ⟨_, hpeek, hin⟩
      | @more _ others r₁ r₂ _ hothers => exact moreDefinitions_in r₁.1 others r₂ hothers
termination_by r.size
decreasing_by exact r₁.2

omit hS' in
/-- Definitions with a word `in` behind them start in front of where the readers stop. -/
theorem ne_stop_of_definitions (h : Alike S S' r q) {first : Definition} {r₁ : r.Shorter}
    {others : List Definition} {r₂ : r₁.1.NoLonger} (hfirst : definition r = .ok (first, r₁))
    (hothers : moreDefinitions r₁.1 = .ok (others, r₂)) : r.tokens.list ≠ S.list := by
  intro hlist
  obtain ⟨token, hpeek, hin⟩ := moreDefinitions_in _ _ _ hothers
  obtain ⟨t, taken, hreads, -⟩ := definition_ok hfirst
  obtain ⟨taken', hreads', -⟩ := statements_ok.2.2.2.1 _ _ _ hothers
  have hall := hreads.trans hreads'
  obtain ⟨ending, hending, hkind⟩ := hS.ending
  obtain ⟨⟨front, htokens, -⟩, -⟩ := h
  cases hlist' : r₂.1.tokens.list with
  | nil =>
      simp only [Reader.peek, hlist', hall.ending_eq, htokens, hending, Except.ok.injEq] at hpeek
      rw [← hpeek, hkind] at hin
      cases hin
  | cons u list =>
      simp only [Reader.peek, hlist', Except.ok.injEq] at hpeek
      refine hS.noIn u ?_ (hpeek ▸ hin)
      rw [← hlist, hall.list_eq, hlist']
      exact List.mem_append_right _ List.mem_cons_self

/-- Everything that reads statements and definitions. A definition may start with a word `fun`, so it
has to start in front of where the readers stop. -/
theorem statements_carry :
    (∀ r q : Reader, Alike S S' r q → Carries S S' (statements r) (statements q)) ∧
    (∀ r q : Reader, Alike S S' r q → Carries S S' (moreStatements r) (moreStatements q)) ∧
    (∀ r q : Reader, Alike S S' r q → Carries S S' (statement r) (statement q)) ∧
    (∀ r q : Reader, Alike S S' r q → Carries S S' (moreDefinitions r) (moreDefinitions q)) ∧
    (∀ r q : Reader, Alike S S' r q → r.tokens.list ≠ S.list →
      Carries S S' (definition r) (definition q)) ∧
    (∀ r q : Reader, Alike S S' r q → Carries S S' (functionBody r) (functionBody q)) ∧
    (∀ r q : Reader, Alike S S' r q → Carries S S' (elseBranch r) (elseBranch q)) := by
  apply Reader.statements.mutual_induct
  case case1 =>
      intro r ihStatement ihMore q h
      rw [statements, statements]
      exact (ihStatement q h).bind fun first r₁ q₁ h₁ =>
        (ihMore r₁.1 r₁.2 q₁.1 h₁).bind fun others r₂ q₂ h₂ => .pure rfl h₂
  case case2 =>
      intro r ihStatement ihMore q h
      rw [moreStatements, moreStatements]
      refine .accept? hS hS' h (.inl rfl) (.pure rfl h) fun comma u r₁ q₁ _ h₁ => ?_
      exact (ihStatement r₁.1 r₁.2 q₁.1 h₁).bind fun first r₂ q₂ h₂ =>
        (ihMore r₁.1 r₁.2 r₂.1 r₂.2 q₂.1 h₂).bind fun others r₃ q₃ h₃ => .pure rfl h₃
  case case3 =>
      intro r ihPositive ihElse ihDefinition ihMore ihBody q h
      have ihLoop := ihPositive
      rw [statement, statement]
      refine .peek hS hS' h (fun token _ => ?_) fun _ token token' hstop hstop' => ?_
      · cases token.kind with
        | keyword word =>
            cases word with
            | kwIf =>
                refine (expect_carries hS hS' h (.inl (by decide))).bind fun word r₁ q₁ h₁ => ?_
                refine (expression_carries hS hS' h₁).bind fun condition r₂ q₂ h₂ => ?_
                refine (expect_carries hS hS' h₂ (.inl (by decide))).bind fun _ r₃ q₃ h₃ => ?_
                refine (ihPositive r₁.1 r₁.2 r₂.1 r₂.2 r₃.1 r₃.2 q₃.1 h₃).bind
                  fun positive r₄ q₄ h₄ => ?_
                refine (ihElse r₁.1 r₁.2 r₂.1 r₂.2 r₃.1 r₃.2 r₄.1 r₄.2 q₄.1 h₄).bind
                  fun negative r₅ q₅ h₅ => ?_
                exact (expect_carries hS hS' h₅ (.inl (by decide))).bind fun close r₆ q₆ h₆ =>
                  .pure (by rw [h₆.nextId_eq]) h₆.bump
            | kwWhile =>
                refine (expect_carries hS hS' h (.inl (by decide))).bind fun word r₁ q₁ h₁ => ?_
                refine (expression_carries hS hS' h₁).bind fun condition r₂ q₂ h₂ => ?_
                refine (expect_carries hS hS' h₂ (.inl (by decide))).bind fun _ r₃ q₃ h₃ => ?_
                refine (ihLoop r₁.1 r₁.2 r₂.1 r₂.2 r₃.1 r₃.2 q₃.1 h₃).bind fun body r₄ q₄ h₄ => ?_
                exact (expect_carries hS hS' h₄ (.inl (by decide))).bind fun close r₅ q₅ h₅ =>
                  .pure (by rw [h₅.nextId_eq]) h₅.bump
            | kwLet =>
                refine (expect_carries hS hS' h (.inl (by decide))).bind fun word r₁ q₁ h₁ => ?_
                intro s r' hs
                obtain ⟨⟨first, r₂⟩, hfirst, hs'⟩ := bind_eq_ok hs
                obtain ⟨⟨others, r₃⟩, hothers, -⟩ := bind_eq_ok hs'
                have hne := ne_stop_of_definitions hS h₁ hfirst hothers
                refine Carries.bind (ihDefinition r₁.1 r₁.2 q₁.1 h₁ hne) ?_ s r' hs
                intro first r₂ q₂ h₂
                refine (ihMore r₁.1 r₁.2 r₂.1 r₂.2 q₂.1 h₂).bind fun others r₃ q₃ h₃ => ?_
                refine (expect_carries hS hS' h₃ (.inl (by decide))).bind fun _ r₄ q₄ h₄ => ?_
                refine (ihBody r₁.1 r₁.2 r₂.1 r₂.2 r₃.1 r₃.2 r₄.1 r₄.2 q₄.1 h₄).bind
                  fun body r₅ q₅ h₅ => ?_
                exact (expect_carries hS hS' h₅ (.inl (by decide))).bind fun close r₆ q₆ h₆ =>
                  .pure (by rw [h₆.nextId_eq]) h₆.bump
            | _ => exact simpleStatement_carries hS hS' h
        | _ => exact simpleStatement_carries hS hS' h
      · rcases hstop with hkind | hkind <;> rcases hstop' with hkind' | hkind' <;>
          simp only [hkind, hkind'] <;> exact simpleStatement_carries hS hS' h
  case case4 =>
      intro r ihDefinition ihMore q h
      rw [moreDefinitions, moreDefinitions]
      refine .peekIs hS hS' h (by simp [TokenKind.IsStop]) (.pure rfl h) ?_
      intro ds r' hds
      obtain ⟨⟨first, r₁⟩, hfirst, hds'⟩ := bind_eq_ok hds
      obtain ⟨⟨others, r₂⟩, hothers, -⟩ := bind_eq_ok hds'
      have hne := ne_stop_of_definitions hS h hfirst hothers
      refine Carries.bind (ihDefinition q h hne) ?_ ds r' hds
      intro first r₁ q₁ h₁
      exact (ihMore r₁.1 r₁.2 q₁.1 h₁).bind fun others r₂ q₂ h₂ => .pure rfl h₂
  case case5 =>
      intro r ihBody q h hne
      rw [definition, definition]
      refine .peek hS hS' h (fun token _ => ?_) fun heq => absurd heq hne
      cases token.kind with
      | keyword word =>
          cases word with
          | kwFun =>
              refine (expect_carries hS hS' h (.inr hne)).bind fun word r₁ q₁ h₁ => ?_
              refine (identifier_carries hS hS' h₁).bind fun name r₂ q₂ h₂ => ?_
              refine (expect_carries hS hS' h₂ (.inl (by decide))).bind fun _ r₃ q₃ h₃ => ?_
              refine (parameters_carries hS hS' h₃).bind fun parameters r₄ q₄ h₄ => ?_
              refine (expect_carries hS hS' h₄ (.inl (by decide))).bind fun close r₅ q₅ h₅ => ?_
              refine (ihBody r₁.1 r₁.2 r₂.1 r₂.2 r₃.1 r₃.2 r₄.1 r₄.2 r₅.1 r₅.2 q₅.1 h₅).bind
                fun body r₆ q₆ h₆ => ?_
              exact .pure (by rw [h₆.nextId_eq]) h₆.bump
          | kwVar =>
              exact (variableDefinition_carries hS hS' h).bind fun head r₁ q₁ h₁ => .pure rfl h₁
          | _ => exact .throw _ _
      | _ => exact .throw _ _
  case case6 =>
      intro r ih q h
      rw [functionBody, functionBody]
      refine .accept? hS hS' h (.inl rfl) (.pure rfl h) fun equals u r₁ q₁ _ h₁ => ?_
      exact (ih r₁.1 r₁.2 q₁.1 h₁).bind fun body r₂ q₂ h₂ => .pure rfl h₂
  case case7 =>
      intro r ih q h
      rw [elseBranch, elseBranch]
      refine .accept? hS hS' h (.inl rfl) (.pure rfl h) fun word u r₁ q₁ _ h₁ => ?_
      exact (ih r₁.1 r₁.2 q₁.1 h₁).bind fun negative r₂ q₂ h₂ => .pure rfl h₂

/-- What is read in front of where one reader stops is read in front of where the other stops as well;
behind it both go on by themselves. -/
theorem definitions_carry (r : Reader) : ∀ (q : Reader) (all : List Definition) (r' : Reader),
    Alike S S' r q → (∀ t ∈ r.tokens.list, t.Good) → definitions r = .ok (all, r') →
      ∃ own rest n, all = own ++ rest ∧ definitions ⟨S, n⟩ = .ok (rest, r') ∧
        ∀ rest' q', definitions ⟨S', n⟩ = .ok (rest', q') → definitions q = .ok (own ++ rest', q') := by
  induction r using definitions.induct with
  | case1 r ih =>
      intro q all r' h hgood hall
      obtain ⟨front, hr, hq⟩ := h.tokens
      cases front with
      | nil =>
          have hr' : r = ⟨S, r.nextId⟩ := congrArg (Reader.mk · r.nextId) hr
          have hq' : q = ⟨S', r.nextId⟩ := by
            rw [← h.nextId_eq]
            exact congrArg (Reader.mk · q.nextId) hq
          exact ⟨[], all, r.nextId, rfl, hr' ▸ hall, fun rest' q' h' => by rw [hq']; exact h'⟩
      | cons token front =>
          have hlist : r.tokens.list = token :: (front ++ S.list) := by rw [hr]; rfl
          have hkind : token.kind ≠ .endOfFile :=
            (hgood token (by rw [hlist]; exact List.mem_cons_self)).notEnd
          have hpeek : r.peek = .ok token := by simp only [peek, hlist]
          have hpeek' : q.peek = .ok token := by simp [peek, hq]
          have hne : r.tokens.list ≠ S.list := by
            intro heq
            have hlength := congrArg List.length (hlist ▸ heq)
            simp only [List.length_append, List.length_cons] at hlength
            omega
          rw [definitions, hpeek] at hall
          obtain ⟨token', htoken, hall⟩ := bind_eq_ok hall
          cases htoken
          rw [if_neg hkind] at hall
          obtain ⟨⟨first, r₁⟩, hfirst, hall⟩ := bind_eq_ok hall
          obtain ⟨⟨others, last⟩, hothers, hall⟩ := bind_eq_ok hall
          cases hall
          obtain ⟨q₁, hfirst', h₁⟩ :=
            (statements_carry hS hS').2.2.2.2.1 r q h hne first r₁ hfirst
          obtain ⟨_, _, hreads, -⟩ := definition_ok hfirst
          obtain ⟨own, rest, n, rfl, hrest, hgoes⟩ := ih r₁.1 r₁.2 q₁.1 _ _ h₁
            (fun t ht => hgood t (hreads.mem ht)) hothers
          refine ⟨first :: own, rest, n, rfl, hrest, fun rest' q' h' => ?_⟩
          rw [definitions, hpeek']
          refine (if_neg hkind).trans ((bind_of_ok hfirst').trans ?_)
          exact bind_of_ok (hgoes rest' q' h')

end

end Reader

end NestedFun
