import NestedFun.Proofs.SystemDeclarations
import NestedFun.Proofs.ViablePrefixes

namespace NestedFun

/-!
# Definitions in front of functions

Wherever a program can go on with a function, it can go on with other definitions first. So if the word
`fun` of the first declaration behind a text fits, all the declarations fit.
-/

/-- Functions start in a form as definitions only, and each definition has others behind it. -/
def Extensible : List Symbol → Prop
  | [] => True
  | .token kind :: form => kind ≠ .keyword .kwFun ∧ Extensible form
  | .phrase p :: form => (p = .definition → form.head? = some (.phrase .definitions)) ∧ Extensible form

instance decidableExtensible : (form : List Symbol) → Decidable (Extensible form)
  | [] => inferInstanceAs (Decidable True)
  | .token kind :: form =>
    have := decidableExtensible form
    inferInstanceAs (Decidable (kind ≠ .keyword .kwFun ∧ Extensible form))
  | .phrase p :: form =>
    have := decidableExtensible form
    inferInstanceAs
      (Decidable ((p = .definition → form.head? = some (.phrase .definitions)) ∧ Extensible form))

theorem extensible_token {kind : TokenKind} (h : kind ≠ .keyword .kwFun) : Extensible [.token kind] :=
  ⟨h, trivial⟩

/-- The word `fun` starts functions only. -/
theorem Rule.extensible {p : Phrase} (rule : Rule p) :
    Extensible rule.form ∨ p = .definition ∧
      ∃ form, rule.form = .token (.keyword .kwFun) :: form ∧ Extensible form := by
  cases rule with
  | functionDefinition => exact .inr ⟨rfl, _, rfl, by decide⟩
  | text kind literal h =>
      have hkinds : ∀ entry ∈ textKinds, entry.1 ≠ .keyword .kwFun := by decide
      exact .inl (extensible_token (hkinds _ h))
  | constant kind literal h =>
      have hkinds : ∀ entry ∈ constantKinds, entry.1 ≠ .keyword .kwFun := by decide
      exact .inl (extensible_token (hkinds _ h))
  | binarySign o kind operator h =>
      have hkinds : ∀ o : Operation, ∀ entry ∈ o.signs, entry.1 ≠ .keyword .kwFun := by
        intro o
        cases o <;> decide
      exact .inl (extensible_token (hkinds o _ h))
  | prefixSign kind operator h =>
      have hkinds : ∀ entry ∈ prefixSigns, entry.1 ≠ .keyword .kwFun := by decide
      exact .inl (extensible_token (hkinds _ h))
  | operation o => cases o <;> exact .inl (by decide)
  | tighter o inner h => exact .inl ⟨nofun, trivial⟩
  | lastOperand o => exact .inl trivial
  | nextOperand o h => exact .inl ⟨nofun, nofun, nofun, trivial⟩
  | _ => exact .inl (by decide)

namespace Derivation

/-- A definition can be put in front of a function. -/
theorem exists_insert {form : List Symbol} (d : Derivation form) (x : Derivation [.phrase .definition])
    {front behind : List TokenKind}
    (hform : Extensible form ∨ front ≠ [] ∧
      ∃ form', form = .token (.keyword .kwFun) :: form' ∧ Extensible form')
    (h : d.kinds = front ++ .keyword .kwFun :: behind) :
    ∃ d' : Derivation form, d'.kinds = front ++ (x.kinds ++ .keyword .kwFun :: behind) := by
  induction d generalizing front behind with
  | nil => exact absurd (List.append_eq_nil_iff.mp h.symm).2 (List.cons_ne_nil _ _)
  | @token kind form t hkind rest ih =>
      rw [kinds_token] at h
      have hrest : Extensible form := by
        rcases hform with hform | ⟨-, form', heq, hform'⟩
        · exact hform.2
        · exact (List.cons.inj heq).2 ▸ hform'
      cases front with
      | nil =>
          rcases hform with hform | ⟨hne, -⟩
          · exact absurd (List.cons.inj h).1 hform.1
          · exact absurd rfl hne
      | cons kind' front =>
          obtain ⟨rfl, htail⟩ := List.cons.inj h
          obtain ⟨d', hd'⟩ := ih (.inl hrest) htail
          exact ⟨.token t hkind d', by rw [kinds_token, hd', List.cons_append]⟩
  | @phrase p form rule parts rest ihParts ihRest =>
      obtain ⟨hdefinition, hrest⟩ : Extensible (.phrase p :: form) :=
        hform.resolve_right fun ⟨_, form', heq, _⟩ => by cases heq
      -- the function is behind the phrase, or inside it
      have hbehind : ∀ front', front = parts.kinds ++ front' →
          rest.kinds = front' ++ .keyword .kwFun :: behind →
          ∃ d' : Derivation (.phrase p :: form),
            d'.kinds = front ++ (x.kinds ++ .keyword .kwFun :: behind) := by
        rintro front' rfl hkinds
        obtain ⟨d', hd'⟩ := ihRest (.inl hrest) hkinds
        exact ⟨.phrase rule parts d', by rw [kinds_phrase, hd', List.append_assoc]⟩
      have hinside : ∀ behind', (Extensible rule.form ∨ front ≠ [] ∧
            ∃ form', rule.form = .token (.keyword .kwFun) :: form' ∧ Extensible form') →
          parts.kinds = front ++ .keyword .kwFun :: behind' → behind = behind' ++ rest.kinds →
          ∃ d' : Derivation (.phrase p :: form),
            d'.kinds = front ++ (x.kinds ++ .keyword .kwFun :: behind) := by
        rintro behind' hform' hkinds rfl
        obtain ⟨d', hd'⟩ := ihParts hform' hkinds
        exact ⟨.phrase rule d' rest, by simp only [kinds_phrase, hd', List.append_assoc, List.cons_append]⟩
      rw [kinds_phrase] at h
      rcases List.append_eq_append_iff.mp h with ⟨front', hfront, hkinds⟩ | ⟨tail, hkinds, htail⟩
      · exact hbehind front' hfront hkinds
      · cases tail with
        | nil => exact hbehind [] (by rw [hkinds, List.append_nil, List.append_nil]) htail.symm
        | cons kind behind' =>
            obtain ⟨rfl, hsplit⟩ := List.cons.inj htail
            rcases rule.extensible with hform' | ⟨rfl, hform'⟩
            · exact hinside behind' (.inl hform') hkinds hsplit
            · cases front with
              | cons kind front => exact hinside behind' (.inr ⟨List.cons_ne_nil _ _, hform'⟩) hkinds hsplit
              | nil =>
                  -- The function becomes the first of the definitions behind the one put in front.
                  obtain ⟨form', rfl⟩ := List.head?_eq_some_iff.mp (hdefinition rfl)
                  cases x with
                  | phrase ruleX partsX restX =>
                    cases restX
                    cases rest with
                    | phrase rule₂ parts₂ rest₂ =>
                      refine ⟨.phrase ruleX partsX (.phrase .someDefinitions
                        (.phrase rule parts (.phrase rule₂ parts₂ .nil)) rest₂), ?_⟩
                      rw [kinds_phrase, List.nil_append] at h
                      simp only [kinds_phrase, kinds_nil, List.append_nil, List.append_assoc,
                        List.nil_append, ← h]

end Derivation

/-- The kinds of the tokens of a declaration are those of a definition. -/
theorem exists_declaration (declared : String × Option String) :
    ∃ x : Derivation [.phrase .definition], x.kinds = (declarationForms declared).map Prod.fst := by
  have hparameters : ∃ x : Derivation [.phrase .parameters],
      x.kinds = (declared.2.toList.map fun name => (TokenKind.identifier, name.toList)).map Prod.fst := by
    cases declared.2 with
    | none => exact ⟨.phrase .noParameter .nil .nil, rfl⟩
    | some name =>
        exact ⟨.phrase .someParameters (.token (.ofKind .identifier) rfl
          (.phrase .lastParameter .nil .nil)) .nil, rfl⟩
  obtain ⟨parameters, hkinds⟩ := hparameters
  refine ⟨.phrase .functionDefinition (.token (.ofKind (.keyword .kwFun)) rfl
    (.token (.ofKind .identifier) rfl (.token (.ofKind .openParen) rfl
      (parameters.append (.token (.ofKind .closeParen) rfl (.phrase .noBody .nil .nil)))))) .nil, ?_⟩
  rw [declarationForms, List.map_append, List.map_append, ← hkinds]
  simp

namespace Viable

/-- If a function fits behind tokens, a definition in front of it fits. -/
theorem insert {front : List TokenKind} (h : Viable (front ++ [.keyword .kwFun]))
    (x : Derivation [.phrase .definition]) : Viable (front ++ x.kinds ++ [.keyword .kwFun]) := by
  obtain ⟨d, behind, hd⟩ := h
  obtain ⟨d', hd'⟩ := d.exists_insert x (.inl (by decide))
    (show d.kinds = front ++ .keyword .kwFun :: behind by simp [← hd])
  exact ⟨d', behind, by simp [hd']⟩

theorem insert_declarations {front : List TokenKind} (h : Viable (front ++ [.keyword .kwFun]))
    (names : List (String × Option String)) :
    Viable (front ++ (names.flatMap declarationForms).map Prod.fst ++ [.keyword .kwFun]) := by
  induction names generalizing front with
  | nil => simpa using h
  | cons declared names ih =>
      obtain ⟨x, hx⟩ := exists_declaration declared
      have hnext := ih (h.insert x)
      rwa [hx, List.append_assoc front, ← List.map_append, ← List.flatMap_cons] at hnext

/-- What viable tokens start with is viable. -/
theorem shorten {front kinds : List TokenKind} (h : Viable kinds) (hfront : front <+: kinds) :
    Viable front := by
  obtain ⟨d, hd⟩ := h
  exact ⟨d, hfront.trans hd⟩

end Viable

end NestedFun
