import NestedFun.Proofs.InitialContents
import NestedFun.Proofs.MaximalMunch
import NestedFun.Proofs.TokenForms
import NestedFun.Proofs.TreeNumbering

namespace NestedFun

/-!
# Where definitions were read

Every definition of a tree was read from tokens of its own. So a function has at most as many
parameters as the text has characters, and the encoding of a variable has at most half as many words
again.
-/

/-! ## The characters of tokens -/

def charCount (tokens : List Token) : Nat := (tokens.map fun token => token.lexeme.length).sum

@[simp] theorem charCount_nil : charCount [] = 0 := rfl

@[simp] theorem charCount_cons (token : Token) (tokens : List Token) :
    charCount (token :: tokens) = token.lexeme.length + charCount tokens := List.sum_cons

@[simp] theorem charCount_append (xs ys : List Token) :
    charCount (xs ++ ys) = charCount xs + charCount ys := by
  simp [charCount]

theorem Tokens.lexeme_of_pieces {position : Nat} {cs : List Char}
    {items : List (Except CompileError Token)} (h : Pieces position cs items) (stop : Nat) :
    (∀ token ∈ (ofItems stop items).list, token.lexeme ≠ []) ∧
      charCount (ofItems stop items).list ≤ cs.length := by
  induction h with
  | last => exact ⟨nofun, Nat.zero_le _⟩
  | @piece position gap text rest outcome items hgap hspan hmunched h ih =>
      cases outcome with
      | error error => exact ⟨nofun, Nat.zero_le _⟩
      | ok token =>
          have hlexeme := (hmunched.lexeme token rfl).1
          refine ⟨List.forall_mem_cons.mpr ⟨hlexeme ▸ hmunched.not_empty, ih.1⟩, ?_⟩
          have := ih.2
          simp only [ofItems, charCount_cons, hlexeme, List.length_append]
          omega

/-- The tokens of a text are not empty and do not overlap. -/
theorem Tokens.lexeme_ofText (cs : List Char) :
    (∀ token ∈ (ofText cs).list, token.lexeme ≠ []) ∧ charCount (ofText cs).list ≤ cs.length :=
  lexeme_of_pieces (Cursor.start cs).pieces_scan _

/-- A text has at least as many characters as tokens. -/
theorem Tokens.length_ofText_le (cs : List Char) : (ofText cs).list.length ≤ cs.length := by
  have hcount : ∀ tokens : List Token, (∀ token ∈ tokens, token.lexeme ≠ []) →
      tokens.length ≤ charCount tokens := by
    intro tokens hsolid
    induction tokens with
    | nil => exact Nat.le_refl _
    | cons token tokens ih =>
        have hone := List.length_pos_of_ne_nil (hsolid token List.mem_cons_self)
        have hrest := ih fun t ht => hsolid t (List.mem_cons_of_mem _ ht)
        simp only [List.length_cons, charCount_cons]
        omega
  obtain ⟨hsolid, hchars⟩ := lexeme_ofText cs
  exact (hcount _ hsolid).trans hchars

theorem length_unescape_le (cs : List Char) : (unescape cs).length ≤ cs.length := by
  fun_induction unescape cs with
  | case1 | case2 | case4 => simp
  | case3 | case5 | case6 | case7 =>
      simp only [List.length_cons]
      omega

theorem length_constantChars_le (lexeme : List Char) :
    (constantChars lexeme).length ≤ lexeme.length := by
  have h := length_unescape_le (lexeme.drop 1).dropLast
  simp only [List.length_dropLast, List.length_drop] at h
  rw [constantChars]
  omega

namespace Reader

variable {r r' : Reader}

/-! ## The encoding of a variable -/

def chars (r : Reader) : Nat := charCount r.tokens.list

def Solid (r : Reader) : Prop := ∀ token ∈ r.tokens.list, token.lexeme ≠ []

theorem Solid.suffix (h : r.Solid) (hsuffix : r'.tokens.list <:+ r.tokens.list) : r'.Solid :=
  fun token htoken => h token (hsuffix.mem htoken)

theorem chars_of_reads {taken : List Token} {ids : List NodeId} (h : Reads r taken ids r') :
    r.chars = charCount taken + r'.chars := by
  rw [chars, chars, h.list_eq, charCount_append]

/-- Taking a token uses up a character. -/
theorem chars_of_token {token : Token} (h : Reads r [token] [] r') (hsolid : r.Solid) :
    r'.chars + 1 ≤ r.chars ∧ r'.Solid := by
  have hpos : 0 < token.lexeme.length := List.length_pos_of_ne_nil
    (hsolid token (by rw [h.list_eq]; exact List.mem_cons_self))
  have hchars := chars_of_reads h
  simp only [charCount_cons, charCount_nil] at hchars
  exact ⟨by omega, hsolid.suffix h.suffix⟩

theorem identifier_chars {name : Identifier} {r' : r.Shorter} (h : r.identifier = .ok (name, r'))
    (hsolid : r.Solid) : r'.1.chars + 1 ≤ r.chars ∧ r'.1.Solid := by
  obtain ⟨⟨token, r₁⟩, hexpect, h⟩ := bind_eq_ok h
  cases h
  obtain ⟨hone, hsolid'⟩ := chars_of_token (expect_ok hexpect).1 hsolid
  exact ⟨hone, hsolid'⟩

/-- A constant has no more words than characters. -/
theorem literal_chars {value : Literal} {r' : r.Shorter} (h : r.literal = .ok (value, r'))
    (hsolid : r.Solid) :
    value.words.length + r'.1.chars ≤ r.chars ∧ r'.1.chars + 1 ≤ r.chars ∧ r'.1.Solid := by
  obtain ⟨⟨⟨token, kind⟩, r₁⟩, hrequire, h⟩ := bind_eq_ok h
  obtain ⟨hreads, -⟩ := require_ok hrequire
  obtain ⟨hone, hsolid'⟩ := chars_of_token hreads hsolid
  have hchars : r.chars = token.lexeme.length + r₁.1.chars := by
    rw [chars_of_reads hreads, charCount_cons, charCount_nil]
    omega
  have hlength := length_constantChars_le token.lexeme
  cases kind with
  | integer =>
      simp only at h
      split at h
      · cases h
        exact ⟨by show 1 + r₁.1.chars ≤ r.chars; omega, hone, hsolid'⟩
      · cases h
  | character =>
      cases h
      refine ⟨?_, hone, hsolid'⟩
      show (((String.ofList (constantChars token.lexeme)).toList.map Word.ofChar).length : Nat)
        + r₁.1.chars ≤ r.chars
      rw [List.length_map, String.toList_ofList]
      omega
  | string =>
      cases h
      refine ⟨?_, hone, hsolid'⟩
      show (((String.ofList (constantChars token.lexeme)).toList.map Word.ofChar).length : Nat)
        + r₁.1.chars ≤ r.chars
      rw [List.length_map, String.toList_ofList]
      omega

theorem initializer_chars {i : Initializer} {r' : r.Shorter} (h : r.initializer = .ok (i, r'))
    (hsolid : r.Solid) :
    i.value.words.length + r'.1.chars ≤ r.chars ∧ r'.1.chars + 1 ≤ r.chars ∧ r'.1.Solid := by
  obtain ⟨⟨first, r₁⟩, hfirst, h⟩ := bind_eq_ok h
  obtain ⟨hwords₁, hone₁, hsolid₁⟩ := literal_chars hfirst hsolid
  simp only at h
  split at h
  · obtain ⟨star, hstar, h⟩ := bind_eq_ok h
    rcases star with _ | ⟨token, u, r₂⟩
    · cases h
      exact ⟨hwords₁, hone₁, hsolid₁⟩
    · obtain ⟨hone₂, hsolid₂⟩ := chars_of_token (accept?_some hstar).1 hsolid₁
      obtain ⟨⟨value, r₃⟩, hvalue, h⟩ := bind_eq_ok h
      obtain ⟨hwords₃, hone₃, hsolid₃⟩ := literal_chars hvalue hsolid₂
      cases h
      exact ⟨by show value.words.length + r₃.1.chars ≤ r.chars; omega,
        by show r₃.1.chars + 1 ≤ r.chars; omega, hsolid₃⟩
  · cases h
    exact ⟨hwords₁, hone₁, hsolid₁⟩

/-- A comma and an initializer have at least two characters for the three words or more that they
are encoded as. -/
theorem commaTail_chars (r : Reader) : ∀ is (r' : r.NoLonger),
    commaTail initializer r = .ok (is, r') → r.Solid →
      2 * (is.flatMap Initializer.encode).length + 3 * r'.1.chars ≤ 3 * r.chars := by
  induction r using commaTail.induct with
  | case1 r ih =>
      intro is r' h hsolid
      rw [commaTail] at h
      obtain ⟨comma, hcomma, h⟩ := bind_eq_ok h
      rcases comma with _ | ⟨token, u, r₁⟩
      · cases h
        exact Nat.le_of_eq (Nat.zero_add _)
      · obtain ⟨⟨i, r₂⟩, hi, h⟩ := bind_eq_ok h
        obtain ⟨⟨is', r₃⟩, his, h⟩ := bind_eq_ok h
        cases h
        obtain ⟨hone₁, hsolid₁⟩ := chars_of_token (accept?_some hcomma).1 hsolid
        obtain ⟨hwords, hone₂, hsolid₂⟩ := initializer_chars hi hsolid₁
        have hrest := ih r₁.1 r₁.2 r₂.1 r₂.2 is' r₃ his hsolid₂
        simp only [List.flatMap_cons, List.length_append, Initializer.length_encode]
        omega

/-- The encoding of a variable has at most half as many words again as the variable has
characters. -/
theorem variableDefinition_chars {head : Variable} {r' : r.Shorter}
    (h : r.variableDefinition = .ok (head, r')) (hsolid : r.Solid) :
    2 * (Contents.ofVariable head).words.length ≤ 3 * r.chars := by
  obtain ⟨⟨word, r₁⟩, hword, h⟩ := bind_eq_ok h
  obtain ⟨⟨name, r₂⟩, hname, h⟩ := bind_eq_ok h
  obtain ⟨⟨equals, r₃⟩, hequals, h⟩ := bind_eq_ok h
  obtain ⟨⟨first, r₄⟩, hfirst, h⟩ := bind_eq_ok h
  obtain ⟨⟨others, r₅⟩, hothers, h⟩ := bind_eq_ok h
  cases h
  obtain ⟨hone₁, hsolid₁⟩ := chars_of_token (expect_ok hword).1 hsolid
  obtain ⟨hone₂, hsolid₂⟩ := identifier_chars hname hsolid₁
  obtain ⟨hone₃, hsolid₃⟩ := chars_of_token (expect_ok hequals).1 hsolid₂
  obtain ⟨hwords, hone₄, hsolid₄⟩ := initializer_chars hfirst hsolid₃
  have hrest := commaTail_chars r₄.1 others r₅ hothers hsolid₄
  simp only [Contents.ofVariable, List.length_cons, List.flatMap_cons, List.length_append,
    Initializer.length_encode]
  omega

/-! ## The parameters of a function -/

/-- Every item behind a comma takes up a token. -/
theorem length_commaTail {α : Type} {item : (r : Reader) → Parsed α r} (r : Reader) :
    ∀ xs (r' : r.NoLonger), commaTail item r = .ok (xs, r') → xs.length + r'.1.size ≤ r.size := by
  induction r using commaTail.induct with
  | case1 r ih =>
      intro xs r' h
      rw [commaTail] at h
      obtain ⟨comma, hcomma, h⟩ := bind_eq_ok h
      rcases comma with _ | ⟨token, u, r₁⟩
      · cases h
        exact Nat.le_of_eq (Nat.zero_add _)
      · obtain ⟨⟨x, r₂⟩, hx, h⟩ := bind_eq_ok h
        obtain ⟨⟨xs', r₃⟩, hxs, h⟩ := bind_eq_ok h
        cases h
        have hrest := ih r₁.1 r₁.2 r₂.1 r₂.2 xs' r₃ hxs
        have h₁ := r₁.2
        have h₂ := r₂.2
        simp only [List.length_cons]
        omega

theorem length_parameters {ps : List Parameter} {r' : r.NoLonger}
    (h : r.parameters = .ok (ps, r')) : ps.length ≤ r.size := by
  obtain ⟨token, -, h⟩ := bind_eq_ok h
  simp only at h
  split at h
  · cases h
    exact Nat.zero_le _
  · obtain ⟨⟨ps', r₁⟩, hps, h⟩ := bind_eq_ok h
    cases h
    obtain ⟨⟨first, r₂⟩, -, hps⟩ := bind_eq_ok hps
    obtain ⟨⟨others, r₃⟩, hothers, hps⟩ := bind_eq_ok hps
    cases hps
    have hlength := length_commaTail r₂.1 others r₃ hothers
    have h₂ := r₂.2
    simp only [List.length_cons]
    omega

/-! ## The definitions of a tree -/

def Read (r : Reader) (d : Definition) : Prop :=
  ∃ (q : Reader) (q' : q.Shorter), q.tokens.list <:+ r.tokens.list ∧ q.definition = .ok (d, q')

/-- From one reader to the next some tokens are taken, and definitions were read from them. -/
def Gathers (r : Reader) (ds : List Definition) (r' : Reader) : Prop :=
  r'.tokens.list <:+ r.tokens.list ∧ ∀ d ∈ ds, r.Read d

theorem expect_gathers {kind : TokenKind} {token : Token} {r' : r.Shorter}
    (h : r.expect kind = .ok (token, r')) : Gathers r [] r'.1 :=
  ⟨(expect_ok h).1.suffix, nofun⟩

theorem accept?_gathers {β : Type} {select : TokenKind → Option β} {token : Token} {b : β}
    {r' : r.Shorter} (h : r.accept? select = .ok (some (token, b, r'))) : Gathers r [] r'.1 :=
  ⟨(accept?_some h).1.suffix, nofun⟩

theorem Yields.gathers {α : Type} {ids : α → List NodeId} {good : α → Prop} {a : α}
    (h : Yields ids good r a r') : Gathers r [] r' := by
  obtain ⟨taken, hreads, -⟩ := h
  exact ⟨hreads.suffix, nofun⟩

namespace Gathers

variable {r₁ r₂ : Reader} {ds ds' : List Definition}

theorem refl (r : Reader) : Gathers r [] r := ⟨List.suffix_rfl, nofun⟩

theorem trans (h : Gathers r ds r₁) (h' : Gathers r₁ ds' r₂) : Gathers r (ds ++ ds') r₂ := by
  refine ⟨h'.1.trans h.1, fun d hd => ?_⟩
  rcases List.mem_append.mp hd with hd | hd
  · exact h.2 d hd
  · obtain ⟨q, q', hsuffix, hq⟩ := h'.2 d hd
    exact ⟨q, q', hsuffix.trans h.1, hq⟩

/-- Taking something without definitions in it behind something else. -/
theorem skip (h : Gathers r ds r₁) (h' : Gathers r₁ [] r₂) : Gathers r ds r₂ :=
  ⟨h'.1.trans h.1, h.2⟩

/-- A definition was read itself, besides what is inside it. -/
theorem whole {d : Definition} {q' : r.Shorter} (h : Gathers r ds r')
    (hwhole : r.definition = .ok (d, q')) : Gathers r (d :: ds) r' :=
  ⟨h.1, List.forall_mem_cons.mpr ⟨⟨r, q', List.suffix_rfl, hwhole⟩, h.2⟩⟩

end Gathers

theorem simpleStatement_gathers {s : Statement} {r' : r.Shorter}
    (h : r.simpleStatement = .ok (s, r')) : Gathers r s.inside r'.1 := by
  have hinside : s.inside = [] := by
    obtain ⟨⟨first, r₁⟩, -, h⟩ := bind_eq_ok h
    obtain ⟨equals, -, h⟩ := bind_eq_ok h
    rcases equals with _ | ⟨token, u, r₂⟩
    · cases h
      rfl
    · obtain ⟨⟨source, r₃⟩, -, h⟩ := bind_eq_ok h
      cases h
      rfl
  rw [hinside]
  exact (simpleStatement_ok h).gathers

/-- Every part of the parser for statements and definitions, in the order of its own induction. -/
theorem statements_gather :
    (∀ (r : Reader) ss (r' : r.Shorter), statements r = .ok (ss, r') →
      Gathers r (statementsInside ss) r'.1) ∧
    (∀ (r : Reader) ss (r' : r.NoLonger), moreStatements r = .ok (ss, r') →
      Gathers r (statementsInside ss) r'.1) ∧
    (∀ (r : Reader) s (r' : r.Shorter), statement r = .ok (s, r') → Gathers r s.inside r'.1) ∧
    (∀ (r : Reader) ds (r' : r.NoLonger), moreDefinitions r = .ok (ds, r') →
      Gathers r (definitionsInside ds) r'.1) ∧
    (∀ (r : Reader) d (r' : r.Shorter), definition r = .ok (d, r') → Gathers r d.inside r'.1) ∧
    (∀ (r : Reader) ss (r' : r.NoLonger), functionBody r = .ok (ss, r') →
      Gathers r (statementsInside ss) r'.1) ∧
    (∀ (r : Reader) ss (r' : r.NoLonger), elseBranch r = .ok (ss, r') →
      Gathers r (statementsInside ss) r'.1) := by
  apply Reader.statements.mutual_induct
  case case1 =>
      intro r ihStatement ihMore ss r' h
      rw [statements] at h
      obtain ⟨⟨first, r₁⟩, hfirst, h⟩ := bind_eq_ok h
      obtain ⟨⟨others, r₂⟩, hothers, h⟩ := bind_eq_ok h
      cases h
      exact (ihStatement first r₁ hfirst).trans (ihMore r₁.1 r₁.2 others r₂ hothers)
  case case2 =>
      intro r ihStatement ihMore ss r' h
      rw [moreStatements] at h
      obtain ⟨comma, hcomma, h⟩ := bind_eq_ok h
      rcases comma with _ | ⟨token, u, r₁⟩
      · cases h
        exact .refl r
      · obtain ⟨⟨first, r₂⟩, hfirst, h⟩ := bind_eq_ok h
        obtain ⟨⟨others, r₃⟩, hothers, h⟩ := bind_eq_ok h
        cases h
        exact (accept?_gathers hcomma).trans ((ihStatement r₁.1 r₁.2 first r₂ hfirst).trans
          (ihMore r₁.1 r₁.2 r₂.1 r₂.2 others r₃ hothers))
  case case3 =>
      rintro r ihPositive ihElse ihDefinition ihMore ihBody s ⟨r', hlt⟩ h
      have ihLoop := ihPositive
      cases statement_read h with
      | @branch _ _ _ _ positive negative r₁ r₂ r₃ r₄ r₅ _ hword hcondition hthen hpositive hnegative
          hclose =>
          have hcondition := ((expect_gathers hword).trans (expression_ok hcondition).gathers).trans
            (expect_gathers hthen)
          have hpositive := ihPositive r₁.1 r₁.2 r₂.1 r₂.2 r₃.1 r₃.2 positive r₄ hpositive
          have hnegative :=
            ihElse r₁.1 r₁.2 r₂.1 r₂.2 r₃.1 r₃.2 r₄.1 r₄.2 negative r₅ hnegative
          exact hcondition.trans ((hpositive.trans hnegative).skip (expect_gathers hclose))
      | @loop _ _ _ _ body r₁ r₂ r₃ r₄ _ hword hcondition hdo hbody hclose =>
          have hcondition := ((expect_gathers hword).trans (expression_ok hcondition).gathers).trans
            (expect_gathers hdo)
          have hbody := ihLoop r₁.1 r₁.2 r₂.1 r₂.2 r₃.1 r₃.2 body r₄ hbody
          exact hcondition.trans (hbody.skip (expect_gathers hclose))
      | @block _ _ _ first others body r₁ r₂ r₃ r₄ r₅ _ hword hfirst hothers hin hbody hclose =>
          have hdefinitions := (ihDefinition r₁.1 r₁.2 first r₂ hfirst).trans
            (ihMore r₁.1 r₁.2 r₂.1 r₂.2 others r₃ hothers)
          have hbody := ihBody r₁.1 r₁.2 r₂.1 r₂.2 r₃.1 r₃.2 r₄.1 r₄.2 body r₅ hbody
          exact (expect_gathers hword).trans ((hdefinitions.skip (expect_gathers hin)).trans
            (hbody.skip (expect_gathers hclose)))
      | simple hsimple => exact simpleStatement_gathers hsimple
  case case4 =>
      rintro r ihDefinition ihMore ds ⟨r', hle⟩ h
      cases moreDefinitions_read h with
      | last => exact .refl r
      | @more first others r₁ r₂ hfirst hothers =>
          exact (ihDefinition first r₁ hfirst).trans (ihMore r₁.1 r₁.2 others r₂ hothers)
  case case5 =>
      rintro r ihBody d ⟨r', hlt⟩ h
      cases definition_read h with
      | @func _ _ _ _ _ body r₁ r₂ r₃ r₄ r₅ r₆ _ hword hname hparen hparameters hclose hbody hnode =>
          have hname := ((expect_gathers hword).trans (identifier_ok hname).gathers).trans
            (expect_gathers hparen)
          have hparameters := (parameters_ok hparameters).gathers.trans (expect_gathers hclose)
          have hbody := ihBody r₁.1 r₁.2 r₂.1 r₂.2 r₃.1 r₃.2 r₄.1 r₄.2 r₅.1 r₅.2 body r₆ hbody
          exact Gathers.whole (hname.trans (hparameters.trans hbody)) h
      | var hhead => exact (variableDefinition_ok hhead).gathers.whole h
  case case6 =>
      intro r ih ss r' h
      rw [functionBody] at h
      obtain ⟨equals, hequals, h⟩ := bind_eq_ok h
      rcases equals with _ | ⟨token, u, r₁⟩
      · cases h
        exact .refl r
      · obtain ⟨⟨body, r₂⟩, hbody, h⟩ := bind_eq_ok h
        cases h
        exact (accept?_gathers hequals).trans (ih r₁.1 r₁.2 _ r₂ hbody)
  case case7 =>
      intro r ih ss r' h
      rw [elseBranch] at h
      obtain ⟨word, hword, h⟩ := bind_eq_ok h
      rcases word with _ | ⟨token, u, r₁⟩
      · cases h
        exact .refl r
      · obtain ⟨⟨body, r₂⟩, hbody, h⟩ := bind_eq_ok h
        cases h
        exact (accept?_gathers hword).trans (ih r₁.1 r₁.2 _ r₂ hbody)

theorem definitions_gather (r : Reader) : ∀ ds (r' : Reader), definitions r = .ok (ds, r') →
    Gathers r (definitionsInside ds) r' := by
  induction r using definitions.induct with
  | case1 r ih =>
      intro ds r' h
      cases definitions_read h with
      | last => exact .refl r
      | @more first others r₁ _ hfirst hothers =>
          exact (statements_gather.2.2.2.2.1 r first r₁ hfirst).trans (ih r₁.1 r₁.2 others r' hothers)

end Reader

/-! ## Programs -/

/-- What was read from a text is well formed. -/
theorem Program.wellFormed_of_parse {text : List Char} {program : Program}
    (h : Program.parse text = .ok program) : WellFormedDefinitions program := by
  obtain ⟨⟨ds, r⟩, hdefinitions, h⟩ := bind_eq_ok h
  cases h
  obtain ⟨taken, hreads, hwell⟩ := Reader.definitions_ok _ _ _ hdefinitions
  refine hwell fun t ht => Tokens.ofText_good text t ?_
  have hlist : (Tokens.ofText text).list = taken ++ r.tokens.list := hreads.list_eq
  rw [hlist]
  exact List.mem_append_left _ ht

/-- Every definition was read from tokens of the text. -/
theorem Program.definition_of_parse {text : List Char} {program : Program}
    (h : Program.parse text = .ok program) {d : Definition} (hd : d ∈ definitionsInside program) :
    (Reader.ofText text).Read d := by
  obtain ⟨⟨ds, r⟩, hdefinitions, h⟩ := bind_eq_ok h
  cases h
  exact (Reader.definitions_gather _ _ _ hdefinitions).2 d hd

theorem Program.variable_of_parse {text : List Char} {program : Program}
    (h : Program.parse text = .ok program) {head : Variable}
    (hhead : .var head ∈ definitionsInside program) : ∃ (q : Reader) (q' : q.Shorter),
      q.tokens.list <:+ (Tokens.ofText text).list ∧ q.variableDefinition = .ok (head, q') := by
  obtain ⟨q, ⟨q', hlt⟩, hsuffix, hq⟩ := Program.definition_of_parse h hhead
  cases Reader.definition_read hq with
  | var hvariable => exact ⟨q, _, hsuffix, hvariable⟩

/-- A function has at most as many parameters as the text has characters. -/
theorem Program.length_parameters_of_parse {text : List Char} {program : Program}
    (h : Program.parse text = .ok program) {head : FunctionHead} {body : List Statement}
    (hd : .func head body ∈ definitionsInside program) : head.parameters.length ≤ text.length := by
  obtain ⟨q, ⟨q', hlt⟩, hsuffix, hq⟩ := Program.definition_of_parse h hd
  have hsize : q.size ≤ text.length := hsuffix.length_le.trans (Tokens.length_ofText_le text)
  cases Reader.definition_read hq with
  | @func _ _ _ _ _ _ r₁ r₂ r₃ _ _ _ _ _ _ _ hparameters =>
      have hlength := Reader.length_parameters hparameters
      have h₁ := r₁.2
      have h₂ := r₂.2
      have h₃ := r₃.2
      dsimp only
      omega

/-- Every variable in a program that was read has the form of a name and constants that fit words. -/
theorem Program.wellFormed_variable {text : List Char} {program : Program}
    (h : Program.parse text = .ok program) {head : Variable}
    (hhead : .var head ∈ definitionsInside program) : (Definition.var head).WellFormed := by
  obtain ⟨q, q', hsuffix, hq⟩ := Program.variable_of_parse h hhead
  obtain ⟨taken, hreads, -, hgood⟩ := Reader.variableDefinition_ok hq
  refine hgood fun t ht => Tokens.ofText_good text t (hsuffix.mem ?_)
  rw [hreads.list_eq]
  exact List.mem_append_left _ ht

theorem Program.wellFormed_initializers {text : List Char} {program : Program}
    (h : Program.parse text = .ok program) {head : Variable}
    (hhead : .var head ∈ definitionsInside program) : ∀ i ∈ head.initializers, i.WellFormed :=
  (wellFormed_variable h hhead).2

/-- The encoding of every variable has at most half as many words again as the text has
characters. -/
theorem Program.length_words_of_parse {text : List Char} {program : Program}
    (h : Program.parse text = .ok program) {head : Variable}
    (hhead : .var head ∈ definitionsInside program) :
    2 * (Contents.ofVariable head).words.length ≤ 3 * text.length := by
  obtain ⟨q, q', ⟨front, hfront⟩, hq⟩ := Program.variable_of_parse h hhead
  obtain ⟨hsolid, hchars⟩ := Tokens.lexeme_ofText text
  have hwords := Reader.variableDefinition_chars hq fun token htoken =>
    hsolid token (hfront ▸ List.mem_append_right _ htoken)
  rw [← hfront, charCount_append] at hchars
  rw [Reader.chars] at hwords
  omega

end NestedFun
