import NestedFun.Proofs.Nodes
import NestedFun.Proofs.Readings

namespace NestedFun

/-!
# Numbers of nodes

Every part of the parser takes tokens from the front and numbers the nodes of the tree that it
yields one after the other, in the order of `ids`. The trees are well formed if the tokens are. A
function is only read where a definition stands, so what is taken for anything else has the word
`in` behind every word `fun`.
-/

theorem toOption_eq_some {ε α : Type} {x : Except ε α} {a : α} (h : x.toOption = some a) :
    x = .ok a := by
  cases x with
  | ok b => exact congrArg Except.ok (Option.some.inj h)
  | error e => cases h

structure Token.Good (token : Token) : Prop where
  notEnd : token.kind ≠ .endOfFile
  name : token.kind = .identifier → IsName (String.ofList token.lexeme)
  character : token.kind = .character → (constantChars token.lexeme).length = 1

/-- Behind every word `fun` there is a word `in`. -/
def Closed (taken : List Token) : Prop :=
  ∀ front token back, taken = front ++ token :: back → token.kind = .keyword .kwFun →
    ∃ t ∈ back, t.kind = .keyword .kwIn

theorem Closed.nil : Closed [] := by
  intro front token back h
  simp at h

theorem Closed.append {xs ys : List Token} (hx : Closed xs) (hy : Closed ys) :
    Closed (xs ++ ys) := by
  intro front token back h hfun
  rcases List.append_eq_append_iff.mp h with ⟨mid, hfront, hmid⟩ | ⟨mid, hxs, hback⟩
  · exact hy mid token back hmid hfun
  · cases mid with
    | nil =>
        simp only [List.nil_append] at hback
        exact hy [] token back hback.symm hfun
    | cons t mid =>
        simp only [List.cons_append, List.cons.injEq] at hback
        obtain ⟨rfl, rfl⟩ := hback
        obtain ⟨u, hu, hin⟩ := hx front token mid hxs hfun
        exact ⟨u, List.mem_append_left ys hu, hin⟩

theorem Closed.single {token : Token} (h : token.kind ≠ .keyword .kwFun) : Closed [token] := by
  intro front t back heq hfun
  cases front with
  | nil =>
      simp only [List.nil_append, List.cons.injEq] at heq
      rw [← heq.1] at hfun
      exact absurd hfun h
  | cons a front => simp at heq

/-- Anything becomes closed when the word `in` follows. -/
theorem Closed.before_in (xs : List Token) {token : Token} (h : token.kind = .keyword .kwIn) :
    Closed (xs ++ [token]) := by
  intro front t back heq hfun
  rcases List.append_eq_append_iff.mp heq with ⟨mid, hfront, hmid⟩ | ⟨mid, hxs, hback⟩
  · have hnone : Closed [token] := Closed.single (by rw [h]; decide)
    exact hnone mid t back hmid hfun
  · cases mid with
    | nil =>
        simp only [List.nil_append, List.cons.injEq] at hback
        rw [hback.1, h] at hfun
        cases hfun
    | cons u mid =>
        simp only [List.cons_append, List.cons.injEq] at hback
        exact ⟨token, by rw [hback.2]; simp, h⟩

/-- From one reader to the next some tokens were taken and nodes with the given numbers made. -/
structure Reads (r : Reader) (taken : List Token) (ids : List NodeId) (r' : Reader) : Prop where
  list_eq : r.tokens.list = taken ++ r'.tokens.list
  ending_eq : r'.tokens.ending = r.tokens.ending
  ids_eq : ids = List.range' r.nextId ids.length
  nextId_eq : r'.nextId = r.nextId + ids.length

namespace Reads

theorem refl (r : Reader) : Reads r [] [] r := ⟨rfl, rfl, rfl, rfl⟩

theorem trans {r₁ r₂ r₃ : Reader} {taken taken' : List Token} {ids ids' : List NodeId}
    (h : Reads r₁ taken ids r₂) (h' : Reads r₂ taken' ids' r₃) :
    Reads r₁ (taken ++ taken') (ids ++ ids') r₃ where
  list_eq := by rw [h.list_eq, h'.list_eq, List.append_assoc]
  ending_eq := h'.ending_eq.trans h.ending_eq
  ids_eq := by
    have h₂ := h'.ids_eq
    rw [h.nextId_eq] at h₂
    rw [List.length_append, ← List.range'_append_1, ← h.ids_eq, ← h₂]
  nextId_eq := by rw [h'.nextId_eq, h.nextId_eq, List.length_append, Nat.add_assoc]

theorem bump {r r' : Reader} {taken : List Token} {ids : List NodeId}
    (h : Reads r taken ids r') : Reads r taken (ids ++ [r'.nextId]) r'.bump := by
  have hbump : Reads r' [] [r'.nextId] r'.bump := ⟨rfl, rfl, rfl, rfl⟩
  have h' := h.trans hbump
  rwa [List.append_nil] at h'

theorem of_eq {r r' : Reader} {taken taken' : List Token} {ids ids' : List NodeId}
    (h : Reads r taken ids r') (ht : taken = taken') (hi : ids = ids') :
    Reads r taken' ids' r' := by
  rw [← ht, ← hi]
  exact h

/-- What is left was there before. -/
theorem suffix {r r' : Reader} {taken : List Token} {ids : List NodeId}
    (h : Reads r taken ids r') : r'.tokens.list <:+ r.tokens.list :=
  ⟨taken, h.list_eq.symm⟩

theorem mem {r r' : Reader} {taken : List Token} {ids : List NodeId} (h : Reads r taken ids r')
    {t : Token} (ht : t ∈ r'.tokens.list) : t ∈ r.tokens.list :=
  h.suffix.mem ht

end Reads

namespace Reader

variable {r r' : Reader}

theorem accept?_some {β : Type} {select : TokenKind → Option β} {token : Token} {b : β}
    {r' : r.Shorter} (h : r.accept? select = .ok (some (token, b, r'))) :
    Reads r [token] [] r'.1 ∧ select token.kind = some b := by
  simp only [accept?] at h
  split at h
  · cases hend : r.tokens.ending with
    | ok t => simp [hend, Except.map] at h
    | error e => simp [hend, Except.map] at h
  · rename_i t rest hlist
    split at h
    · cases h
    · rename_i b' hb
      cases h
      exact ⟨⟨hlist, rfl, rfl, rfl⟩, hb⟩

theorem require_ok {β : Type} {wanted : Wanted} {select : TokenKind → Option β} {token : Token}
    {b : β} {r' : r.Shorter} (h : r.require wanted select = .ok ((token, b), r')) :
    Reads r [token] [] r'.1 ∧ select token.kind = some b := by
  obtain ⟨found, hfound, h⟩ := bind_eq_ok h
  cases found with
  | none =>
      obtain ⟨t, _, h⟩ := bind_eq_ok h
      cases h
  | some found =>
      cases h
      exact accept?_some hfound

theorem only_eq_some {kind found : TokenKind} {u : Unit} (h : only kind found = some u) :
    found = kind := by
  simp only [only] at h
  split at h
  · assumption
  · cases h

theorem expect_ok {kind : TokenKind} {token : Token} {r' : r.Shorter}
    (h : r.expect kind = .ok (token, r')) : Reads r [token] [] r'.1 ∧ token.kind = kind := by
  obtain ⟨⟨⟨t, u⟩, shorter⟩, hreq, h⟩ := bind_eq_ok h
  cases h
  obtain ⟨hreads, honly⟩ := require_ok hreq
  exact ⟨hreads, only_eq_some honly⟩

/-- From one reader to the next closed tokens are taken and nodes with the given numbers made, and
something holds if the tokens are good. -/
def Advances (r : Reader) (ids : List NodeId) (p : Prop) (r' : Reader) : Prop :=
  ∃ taken, Reads r taken ids r' ∧ Closed taken ∧ ((∀ t ∈ taken, t.Good) → p)

namespace Advances

variable {r₁ r₂ : Reader} {ids ids' : List NodeId} {p q : Prop}

theorem refl (r : Reader) (hp : p) : Advances r [] p r := ⟨[], .refl r, .nil, fun _ => hp⟩

theorem trans (h : Advances r ids p r₁) (h' : Advances r₁ ids' q r₂) :
    Advances r (ids ++ ids') (p ∧ q) r₂ := by
  obtain ⟨taken, hreads, hclosed, hp⟩ := h
  obtain ⟨taken', hreads', hclosed', hq⟩ := h'
  refine ⟨taken ++ taken', hreads.trans hreads', hclosed.append hclosed', fun hgood => ⟨?_, ?_⟩⟩
  · exact hp fun t ht => hgood t (List.mem_append_left _ ht)
  · exact hq fun t ht => hgood t (List.mem_append_right _ ht)

theorem imp (h : Advances r ids p r') (hids : ids = ids') (hpq : p → q) :
    Advances r ids' q r' := by
  obtain ⟨taken, hreads, hclosed, hp⟩ := h
  exact ⟨taken, hreads.of_eq rfl hids, hclosed, fun hgood => hpq (hp hgood)⟩

theorem bump (h : Advances r ids p r') : Advances r (ids ++ [r'.nextId]) p r'.bump := by
  obtain ⟨taken, hreads, hclosed, hp⟩ := h
  exact ⟨taken, hreads.bump, hclosed, hp⟩

/-- Taking something that no node is made for behind something else, -/
theorem skip (h : Advances r ids p r₁) (h' : Advances r₁ [] True r₂) : Advances r ids p r₂ :=
  (h.trans h').imp (List.append_nil ids) And.left

/-- and in front of it. -/
theorem behind (h : Advances r [] True r₁) (h' : Advances r₁ ids p r₂) : Advances r ids p r₂ :=
  (h.trans h').imp (List.nil_append ids) And.right

end Advances

theorem accept?_advances {β : Type} {select : TokenKind → Option β} {token : Token} {b : β}
    {r' : r.Shorter} (h : r.accept? select = .ok (some (token, b, r')))
    (hfun : select (.keyword .kwFun) = none) : Advances r [] True r'.1 := by
  obtain ⟨hreads, hselect⟩ := accept?_some h
  refine ⟨[token], hreads, .single fun hkind => ?_, fun _ => trivial⟩
  rw [hkind, hfun] at hselect
  cases hselect

theorem expect_advances {kind : TokenKind} {token : Token} {r' : r.Shorter}
    (h : r.expect kind = .ok (token, r')) (hfun : kind ≠ .keyword .kwFun) :
    Advances r [] True r'.1 := by
  obtain ⟨hreads, hkind⟩ := expect_ok h
  exact ⟨[token], hreads, .single (hkind ▸ hfun), fun _ => trivial⟩

/-- What a part of the parser yields that may stand anywhere: closed tokens, numbers in order, and
a well formed tree from good tokens. -/
def Yields {α : Type} (ids : α → List NodeId) (good : α → Prop) (r : Reader) (a : α)
    (r' : Reader) : Prop :=
  ∃ taken, Reads r taken (ids a) r' ∧ Closed taken ∧ ((∀ t ∈ taken, t.Good) → good a)

theorem Yields.advances {α : Type} {ids : α → List NodeId} {good : α → Prop} {a : α}
    (h : Yields ids good r a r') : Advances r (ids a) (good a) r' := h

theorem identifier_ok {name : Identifier} {r' : r.Shorter}
    (h : r.identifier = .ok (name, r')) :
    Yields (fun name : Identifier => [name.id]) (fun name => IsName name.text) r name r'.1 := by
  obtain ⟨⟨token, r₁⟩, hexpect, h⟩ := bind_eq_ok h
  cases h
  obtain ⟨hreads, hkind⟩ := expect_ok hexpect
  exact ⟨[token], hreads.bump, .single (by rw [hkind]; decide),
    fun hgood => (hgood token List.mem_cons_self).name hkind⟩

theorem literalKind?_eq {kind : TokenKind} {k : LiteralKind} (h : literalKind? kind = some k) :
    kind ≠ .keyword .kwFun ∧ (k = .character → kind = .character) := by
  cases kind <;> simp_all [literalKind?] <;> (subst h; simp)

theorem literal_ok {value : Literal} {r' : r.Shorter} (h : r.literal = .ok (value, r')) :
    Yields (fun value : Literal => [value.id]) Literal.WellFormed r value r'.1 ∧ value.Fits := by
  obtain ⟨⟨⟨token, kind⟩, r₁⟩, hrequire, h⟩ := bind_eq_ok h
  obtain ⟨hreads, hkind⟩ := require_ok hrequire
  obtain ⟨hfun, hcharacter⟩ := literalKind?_eq hkind
  cases kind with
  | integer =>
      simp only at h
      split at h
      · rename_i hlt
        cases h
        have hfits : Literal.Fits ⟨⟨r₁.1.nextId, token.span⟩, .integer, String.ofList token.lexeme⟩ :=
          fun _ => by simpa using hlt
        exact ⟨⟨[token], hreads.bump, .single hfun, fun _ => ⟨fun _ => rfl, hfits⟩⟩, hfits⟩
      · cases h
  | character =>
      cases h
      have hfits : Literal.Fits ⟨⟨r₁.1.nextId, token.span⟩, .character,
          String.ofList (constantChars token.lexeme)⟩ := fun hinteger => by cases hinteger
      refine ⟨⟨[token], hreads.bump, .single hfun, fun hgood => ⟨fun _ => ?_, hfits⟩⟩, hfits⟩
      have hone := (hgood token List.mem_cons_self).character (hcharacter rfl)
      simpa [Literal.words] using hone
  | string =>
      cases h
      have hfits : Literal.Fits ⟨⟨r₁.1.nextId, token.span⟩, .string,
          String.ofList (constantChars token.lexeme)⟩ := fun hinteger => by cases hinteger
      exact ⟨⟨[token], hreads.bump, .single hfun, fun _ => ⟨fun hne => absurd rfl hne, hfits⟩⟩, hfits⟩

theorem parameter_ok {a : Parameter} {r' : r.Shorter} (h : r.parameter = .ok (a, r')) :
    Yields Parameter.ids (fun _ => True) r a r'.1 := by
  obtain ⟨⟨name, r₁⟩, hname, h⟩ := bind_eq_ok h
  cases h
  exact (identifier_ok hname).advances.bump.imp rfl fun _ => trivial

theorem initializer_ok {i : Initializer} {r' : r.Shorter} (h : r.initializer = .ok (i, r')) :
    Yields Initializer.ids Initializer.WellFormed r i r'.1 := by
  obtain ⟨⟨first, r₁⟩, hfirst, h⟩ := bind_eq_ok h
  obtain ⟨hcount, hfits⟩ := literal_ok hfirst
  have hsingle : Yields Initializer.ids Initializer.WellFormed r
      ⟨⟨r₁.1.nextId, first.span⟩, none, first⟩ r₁.1.bump :=
    hcount.advances.bump.imp rfl fun _ => Initializer.wellFormed_single hfits
  simp only at h
  split at h
  · rename_i hkind
    obtain ⟨star, hstar, h⟩ := bind_eq_ok h
    rcases star with _ | ⟨token, u, r₂⟩
    · cases h
      exact hsingle
    · obtain ⟨⟨value, r₃⟩, hvalue, h⟩ := bind_eq_ok h
      obtain ⟨hvalue, hfits'⟩ := literal_ok hvalue
      cases h
      exact ((hcount.advances.skip (accept?_advances hstar rfl)).trans hvalue.advances).bump.imp rfl
        fun _ => Initializer.wellFormed_repeated hkind hfits hfits'
  · cases h
    exact hsingle

/-- Items with commas between them. -/
theorem commaTail_ok {α : Type} {item : (r : Reader) → Parsed α r} {ids : α → List NodeId}
    {good : α → Prop}
    (hitem : ∀ (r : Reader) a (r' : r.Shorter), item r = .ok (a, r') →
      Yields ids good r a r'.1)
    (r : Reader) : ∀ xs (r' : r.NoLonger), commaTail item r = .ok (xs, r') →
      Yields (fun xs => xs.flatMap ids) (fun xs => ∀ x ∈ xs, good x) r xs r'.1 := by
  induction r using commaTail.induct with
  | case1 r ih =>
      intro xs r' h
      rw [commaTail] at h
      obtain ⟨comma, hcomma, h⟩ := bind_eq_ok h
      rcases comma with _ | ⟨token, u, r₁⟩
      · cases h
        exact Advances.refl r (List.forall_mem_nil _)
      · obtain ⟨⟨x, r₂⟩, hx, h⟩ := bind_eq_ok h
        obtain ⟨⟨xs', r₃⟩, hxs, h⟩ := bind_eq_ok h
        cases h
        have hfirst := (hitem r₁.1 x r₂ hx).advances
        have hothers := (ih r₁.1 r₁.2 r₂.1 r₂.2 xs' r₃ hxs).advances
        exact ((accept?_advances hcomma rfl).behind (hfirst.trans hothers)).imp
          List.flatMap_cons.symm List.forall_mem_cons.mpr

theorem commaList_ok {α : Type} {item : (r : Reader) → Parsed α r} {ids : α → List NodeId}
    {good : α → Prop}
    (hitem : ∀ (r : Reader) a (r' : r.Shorter), item r = .ok (a, r') →
      Yields ids good r a r'.1)
    {xs : List α} {r' : r.Shorter} (h : commaList item r = .ok (xs, r')) :
    Yields (fun xs => xs.flatMap ids) (fun xs => ∀ x ∈ xs, good x) r xs r'.1 := by
  obtain ⟨⟨x, r₁⟩, hx, h⟩ := bind_eq_ok h
  obtain ⟨⟨xs', r₂⟩, hxs, h⟩ := bind_eq_ok h
  cases h
  exact ((hitem r x r₁ hx).advances.trans (commaTail_ok hitem r₁.1 xs' r₂ hxs).advances).imp
    List.flatMap_cons.symm List.forall_mem_cons.mpr

theorem variableDefinition_ok {head : Variable} {r' : r.Shorter}
    (h : r.variableDefinition = .ok (head, r')) :
    Yields Variable.ids (fun head => (Definition.var head).WellFormed) r head r'.1 := by
  obtain ⟨⟨word, r₁⟩, hword, h⟩ := bind_eq_ok h
  obtain ⟨⟨name, r₂⟩, hname, h⟩ := bind_eq_ok h
  obtain ⟨⟨equals, r₃⟩, hequals, h⟩ := bind_eq_ok h
  obtain ⟨⟨first, r₄⟩, hfirst, h⟩ := bind_eq_ok h
  obtain ⟨⟨others, r₅⟩, hothers, h⟩ := bind_eq_ok h
  cases h
  have hfront := ((expect_advances hword (by decide)).behind (identifier_ok hname).advances).skip
    (expect_advances hequals (by decide))
  have hlist := (initializer_ok hfirst).advances.trans
    (commaTail_ok (fun _ _ _ => initializer_ok) r₄.1 others r₅ hothers).advances
  exact (hfront.trans hlist).bump.imp (by simp [Variable.ids]) fun ⟨hname, hinitializers⟩ =>
    ⟨hname, List.forall_mem_cons.mpr hinitializers⟩

def Extends (operand : Expression) (r : Reader) (whole : Expression) (r' : Reader) : Prop :=
  ∃ taken ids, Reads r taken ids r' ∧ whole.ids = operand.ids ++ ids ∧ Closed taken ∧
    ((∀ t ∈ taken, t.Good) → operand.WellFormed → whole.WellFormed)

namespace Extends

variable {r₁ r₂ : Reader} {operand middle whole : Expression}

theorem of_advances {ids : List NodeId}
    (h : Advances r ids (operand.WellFormed → whole.WellFormed) r')
    (hids : whole.ids = operand.ids ++ ids) : Extends operand r whole r' := by
  obtain ⟨taken, hreads, hclosed, hgood⟩ := h
  exact ⟨taken, ids, hreads, hids, hclosed, hgood⟩

theorem advances (h : Extends operand r whole r') : ∃ ids, whole.ids = operand.ids ++ ids ∧
    Advances r ids (operand.WellFormed → whole.WellFormed) r' := by
  obtain ⟨taken, ids, hreads, hids, hclosed, hgood⟩ := h
  exact ⟨ids, hids, taken, hreads, hclosed, hgood⟩

theorem refl (operand : Expression) (r : Reader) : Extends operand r operand r :=
  .of_advances (.refl r id) (List.append_nil _).symm

theorem trans (h : Extends operand r middle r₁) (h' : Extends middle r₁ whole r₂) :
    Extends operand r whole r₂ := by
  obtain ⟨ids, hids, hmiddle⟩ := h.advances
  obtain ⟨ids', hids', hwhole⟩ := h'.advances
  refine .of_advances ((hmiddle.trans hwhole).imp rfl fun ⟨hm, hw⟩ hoperand => hw (hm hoperand)) ?_
  rw [hids', hids, List.append_assoc]

end Extends

theorem Yields.extended {r r₁ r₂ : Reader} {left whole : Expression}
    (h : Yields Expression.ids Expression.WellFormed r left r₁)
    (h' : Extends left r₁ whole r₂) :
    Yields Expression.ids Expression.WellFormed r whole r₂ := by
  obtain ⟨ids, hids, hwhole⟩ := h'.advances
  exact (h.advances.trans hwhole).imp hids.symm fun ⟨hleft, hwhole⟩ => hwhole hleft

theorem dereferences_ok (operand : Expression) (r : Reader) :
    ∀ whole (r' : r.NoLonger), dereferences operand r = .ok (whole, r') →
      Extends operand r whole r'.1 := by
  induction operand, r using dereferences.induct with
  | case1 operand r ih =>
      intro whole r' h
      rw [dereferences] at h
      obtain ⟨caret, hcaret, h⟩ := bind_eq_ok h
      rcases caret with _ | ⟨token, u, r₁⟩
      · cases h
        exact .refl operand r
      · obtain ⟨⟨whole', r₂⟩, hwhole, h⟩ := bind_eq_ok h
        cases h
        have hnode : Extends operand r (r₁.1.dereferenceNode token operand) r₁.1.bump.bump :=
          .of_advances ((accept?_advances hcaret rfl).bump.bump.imp rfl fun _ => id)
            (by simp [dereferenceNode, Expression.ids, bump])
        exact hnode.trans (ih token r₁.1 r₁.2 _ r₂ hwhole)

/-- Everything that reads expressions. -/
theorem expressions_ok :
    (∀ (level : Level) (r : Reader) e (r' : r.Shorter), binary level r = .ok (e, r') →
      Yields Expression.ids Expression.WellFormed r e r'.1) ∧
    (∀ (level : Level) (left : Expression) (r : Reader) whole (r' : r.NoLonger),
      chain level left r = .ok (whole, r') → Extends left r whole r'.1) ∧
    (∀ (level : Level) (r : Reader) e (r' : r.Shorter), operand level r = .ok (e, r') →
      Yields Expression.ids Expression.WellFormed r e r'.1) ∧
    (∀ (r : Reader) e (r' : r.Shorter), prefixed r = .ok (e, r') →
      Yields Expression.ids Expression.WellFormed r e r'.1) ∧
    (∀ (r : Reader) e (r' : r.Shorter), postfixed r = .ok (e, r') →
      Yields Expression.ids Expression.WellFormed r e r'.1) ∧
    (∀ (r : Reader) e (r' : r.Shorter), atom r = .ok (e, r') →
      Yields Expression.ids Expression.WellFormed r e r'.1) ∧
    (∀ (r : Reader) es (r' : r.NoLonger), arguments r = .ok (es, r') →
      Yields expressionIds WellFormedExpressions r es r'.1) ∧
    (∀ (r : Reader) es (r' : r.NoLonger), moreArguments r = .ok (es, r') →
      Yields expressionIds WellFormedExpressions r es r'.1) := by
  apply Reader.binary.mutual_induct
  case case1 =>
      intro level r ihOperand ihChain e r' h
      rw [binary] at h
      obtain ⟨⟨left, r₁⟩, hleft, h⟩ := bind_eq_ok h
      obtain ⟨⟨whole, r₂⟩, hwhole, h⟩ := bind_eq_ok h
      cases h
      exact (ihOperand left r₁ hleft).extended (ihChain left r₁.1 r₁.2 _ r₂ hwhole)
  case case2 =>
      intro level left r ihOperand ihChain whole r' h
      rw [chain] at h
      obtain ⟨operator, hoperator, h⟩ := bind_eq_ok h
      rcases operator with _ | ⟨token, kind, r₁⟩
      · cases h
        exact .refl left r
      · obtain ⟨⟨right, r₂⟩, hright, h⟩ := bind_eq_ok h
        have hoperator := accept?_advances hoperator (by cases level <;> rfl)
        have hoperand := (ihOperand r₁.1 r₁.2 right r₂ hright).advances
        have hnode : Extends left r (r₂.1.binaryNode token kind left right) r₂.1.bump.bump :=
          .of_advances ((hoperator.behind hoperand).bump.bump.imp rfl
            fun hright hleft => ⟨hleft, hright⟩) (by simp [binaryNode, Expression.ids, bump])
        simp only at h
        split at h
        · obtain ⟨⟨longer, r₃⟩, hlonger, h⟩ := bind_eq_ok h
          cases h
          exact hnode.trans (ihChain token kind r₁.1 r₁.2 right r₂.1 r₂.2 longer r₃ hlonger)
        · cases h
          exact hnode
  case case3 =>
      intro level r level' htighter _ ih e r' h
      rw [operand_eq_binary htighter] at h
      exact ih e r' h
  case case4 =>
      intro level r hloosest ih e r' h
      rw [operand_eq_prefixed hloosest] at h
      exact ih e r' h
  case case5 =>
      intro r ihPostfixed ihPrefixed e r' h
      rw [prefixed] at h
      obtain ⟨operator, hoperator, h⟩ := bind_eq_ok h
      rcases operator with _ | ⟨token, kind, r₁⟩
      · exact ihPostfixed e r' h
      · obtain ⟨⟨inner, r₂⟩, hinner, h⟩ := bind_eq_ok h
        cases h
        have hinner := (ihPrefixed r₁.1 r₁.2 inner r₂ hinner).advances
        exact ((accept?_advances hoperator rfl).behind hinner).bump.bump.imp
          (by simp [prefixNode, Expression.ids, bump]) id
  case case6 =>
      intro r ihAtom e r' h
      rw [postfixed] at h
      obtain ⟨⟨inner, r₁⟩, hinner, h⟩ := bind_eq_ok h
      obtain ⟨⟨whole, r₂⟩, hwhole, h⟩ := bind_eq_ok h
      cases h
      exact (ihAtom inner r₁ hinner).extended (dereferences_ok inner r₁.1 _ r₂ hwhole)
  case case7 =>
      intro r ihArguments ihBinary e r' h
      rw [atom] at h
      obtain ⟨token, hpeek, h⟩ := bind_eq_ok h
      split at h
      · obtain ⟨⟨name, r₁⟩, hname, h⟩ := bind_eq_ok h
        have hname := (identifier_ok hname).advances
        obtain ⟨paren, hparen, h⟩ := bind_eq_ok h
        rcases paren with _ | ⟨token, u, r₂⟩
        · cases h
          exact hname.bump.imp rfl fun _ => trivial
        · obtain ⟨⟨es, r₃⟩, hes, h⟩ := bind_eq_ok h
          obtain ⟨⟨close, r₄⟩, hclose, h⟩ := bind_eq_ok h
          cases h
          have hes := (ihArguments r₁.1 r₁.2 r₂.1 r₂.2 es r₃ hes).advances
          exact (((hname.skip (accept?_advances hparen rfl)).trans hes).skip
            (expect_advances hclose (by decide))).bump.imp (by simp [Expression.ids]) And.right
      · obtain ⟨⟨paren, r₁⟩, hparen, h⟩ := bind_eq_ok h
        obtain ⟨⟨inner, r₂⟩, hinner, h⟩ := bind_eq_ok h
        obtain ⟨⟨close, r₃⟩, hclose, h⟩ := bind_eq_ok h
        cases h
        have hinner := (ihBinary r₁.1 r₁.2 _ r₂ hinner).advances
        exact ((expect_advances hparen (by decide)).behind hinner).skip
          (expect_advances hclose (by decide))
      all_goals first
        | (obtain ⟨⟨value, r₁⟩, hvalue, h⟩ := bind_eq_ok h
           cases h
           exact (literal_ok hvalue).1.advances.bump)
        | cases h
  case case8 =>
      intro r ihBinary ihMore es r' h
      rw [arguments] at h
      obtain ⟨token, hpeek, h⟩ := bind_eq_ok h
      simp only at h
      split at h
      · cases h
        exact Advances.refl r trivial
      · obtain ⟨⟨first, r₁⟩, hfirst, h⟩ := bind_eq_ok h
        obtain ⟨⟨others, r₂⟩, hothers, h⟩ := bind_eq_ok h
        cases h
        exact (ihBinary first r₁ hfirst).advances.trans (ihMore r₁.1 r₁.2 others r₂ hothers).advances
  case case9 =>
      intro r ihBinary ihMore es r' h
      rw [moreArguments] at h
      obtain ⟨comma, hcomma, h⟩ := bind_eq_ok h
      rcases comma with _ | ⟨token, u, r₁⟩
      · cases h
        exact Advances.refl r trivial
      · obtain ⟨⟨first, r₂⟩, hfirst, h⟩ := bind_eq_ok h
        obtain ⟨⟨others, r₃⟩, hothers, h⟩ := bind_eq_ok h
        cases h
        have hfirst := (ihBinary r₁.1 r₁.2 first r₂ hfirst).advances
        have hothers := (ihMore r₁.1 r₁.2 r₂.1 r₂.2 others r₃ hothers).advances
        exact (accept?_advances hcomma rfl).behind (hfirst.trans hothers)

theorem expression_ok {e : Expression} {r' : r.Shorter} (h : r.expression = .ok (e, r')) :
    Yields Expression.ids Expression.WellFormed r e r'.1 :=
  expressions_ok.1 .disjunction r e r' h

theorem simpleStatement_ok {statement : Statement} {r' : r.Shorter}
    (h : r.simpleStatement = .ok (statement, r')) :
    Yields Statement.ids Statement.WellFormed r statement r'.1 := by
  obtain ⟨⟨first, r₁⟩, hfirst, h⟩ := bind_eq_ok h
  have hfirst := (expression_ok hfirst).advances
  obtain ⟨equals, hequals, h⟩ := bind_eq_ok h
  rcases equals with _ | ⟨token, u, r₂⟩
  · cases h
    exact hfirst.bump
  · obtain ⟨⟨source, r₃⟩, hsource, h⟩ := bind_eq_ok h
    cases h
    exact ((hfirst.skip (accept?_advances hequals rfl)).trans (expression_ok hsource).advances).bump

theorem parameters_ok {parameters : List Parameter} {r' : r.NoLonger}
    (h : r.parameters = .ok (parameters, r')) :
    Yields (fun xs => xs.flatMap Parameter.ids) (fun _ => True) r parameters r'.1 := by
  obtain ⟨token, hpeek, h⟩ := bind_eq_ok h
  simp only at h
  split at h
  · cases h
    exact Advances.refl r trivial
  · obtain ⟨⟨xs, r₁⟩, hxs, h⟩ := bind_eq_ok h
    cases h
    have hitem : ∀ (r : Reader) a (r' : r.Shorter), r.parameter = .ok (a, r') →
        Yields Parameter.ids (fun _ => True) r a r'.1 := fun _ _ _ => parameter_ok
    exact (commaList_ok hitem hxs).advances.imp rfl fun _ => trivial

/-- What reading a definition yields; only its first token can be a word `fun` without `in`. -/
def YieldsDefinition (r : Reader) (definition : Definition) (r' : Reader) : Prop :=
  ∃ token taken, Reads r (token :: taken) definition.ids r' ∧ Closed taken ∧
    ((∀ t ∈ token :: taken, t.Good) → definition.WellFormed)

def YieldsDefinitions (r : Reader) (definitions : List Definition) (r' : Reader) : Prop :=
  ∃ taken, Reads r taken (definitionIds definitions) r' ∧
    ((∀ t ∈ taken, t.Good) → WellFormedDefinitions definitions)

theorem YieldsDefinition.of_advances {d : Definition} {token : Token} {r₁ : Reader}
    (htoken : Reads r [token] [] r₁) (h : Advances r₁ d.ids d.WellFormed r') :
    YieldsDefinition r d r' := by
  obtain ⟨taken, hreads, hclosed, hgood⟩ := h
  exact ⟨token, taken, htoken.trans hreads, hclosed, fun hg => hgood (List.forall_mem_cons.mp hg).2⟩

theorem YieldsDefinition.cons {d : Definition} {ds : List Definition} {r₁ r₂ : Reader}
    (h : YieldsDefinition r d r₁) (h' : YieldsDefinitions r₁ ds r₂) :
    YieldsDefinitions r (d :: ds) r₂ := by
  obtain ⟨token, taken, hreads, -, hgood⟩ := h
  obtain ⟨taken', hreads', hgood'⟩ := h'
  refine ⟨(token :: taken) ++ taken', hreads.trans hreads', fun hg => ⟨?_, ?_⟩⟩
  · exact hgood fun t ht => hg t (List.mem_append_left _ ht)
  · exact hgood' fun t ht => hg t (List.mem_append_right _ ht)

/-- The word `in` closes what definitions leave open. -/
theorem YieldsDefinitions.before_in {ds : List Definition} {token : Token} {r₁ : Reader}
    {r₂ : r₁.Shorter} (h : YieldsDefinitions r ds r₁)
    (hin : r₁.expect (.keyword .kwIn) = .ok (token, r₂)) :
    Advances r (definitionIds ds) (WellFormedDefinitions ds) r₂.1 := by
  obtain ⟨taken, hreads, hgood⟩ := h
  obtain ⟨hreads', hkind⟩ := expect_ok hin
  exact ⟨taken ++ [token], (hreads.trans hreads').of_eq rfl (List.append_nil _), .before_in _ hkind,
    fun hg => hgood fun t ht => hg t (List.mem_append_left _ ht)⟩

/-- Everything that reads statements and definitions. -/
theorem statements_ok :
    (∀ (r : Reader) ss (r' : r.Shorter), statements r = .ok (ss, r') →
      Yields statementIds WellFormedStatements r ss r'.1) ∧
    (∀ (r : Reader) ss (r' : r.NoLonger), moreStatements r = .ok (ss, r') →
      Yields statementIds WellFormedStatements r ss r'.1) ∧
    (∀ (r : Reader) s (r' : r.Shorter), statement r = .ok (s, r') →
      Yields Statement.ids Statement.WellFormed r s r'.1) ∧
    (∀ (r : Reader) ds (r' : r.NoLonger), moreDefinitions r = .ok (ds, r') →
      YieldsDefinitions r ds r'.1) ∧
    (∀ (r : Reader) d (r' : r.Shorter), definition r = .ok (d, r') →
      YieldsDefinition r d r'.1) ∧
    (∀ (r : Reader) ss (r' : r.NoLonger), functionBody r = .ok (ss, r') →
      Yields statementIds WellFormedStatements r ss r'.1) ∧
    (∀ (r : Reader) ss (r' : r.NoLonger), elseBranch r = .ok (ss, r') →
      Yields statementIds WellFormedStatements r ss r'.1) := by
  apply Reader.statements.mutual_induct
  case case1 =>
      intro r ihStatement ihMore ss r' h
      rw [statements] at h
      obtain ⟨⟨first, r₁⟩, hfirst, h⟩ := bind_eq_ok h
      obtain ⟨⟨others, r₂⟩, hothers, h⟩ := bind_eq_ok h
      cases h
      exact (ihStatement first r₁ hfirst).advances.trans (ihMore r₁.1 r₁.2 others r₂ hothers).advances
  case case2 =>
      intro r ihStatement ihMore ss r' h
      rw [moreStatements] at h
      obtain ⟨comma, hcomma, h⟩ := bind_eq_ok h
      rcases comma with _ | ⟨token, u, r₁⟩
      · cases h
        exact Advances.refl r trivial
      · obtain ⟨⟨first, r₂⟩, hfirst, h⟩ := bind_eq_ok h
        obtain ⟨⟨others, r₃⟩, hothers, h⟩ := bind_eq_ok h
        cases h
        have hfirst := (ihStatement r₁.1 r₁.2 first r₂ hfirst).advances
        have hothers := (ihMore r₁.1 r₁.2 r₂.1 r₂.2 others r₃ hothers).advances
        exact (accept?_advances hcomma rfl).behind (hfirst.trans hothers)
  case case3 =>
      rintro r ihPositive ihElse ihDefinition ihMore ihBody s ⟨r', hlt⟩ h
      have ihLoop := ihPositive
      cases statement_read h with
      | @branch _ _ _ _ positive negative r₁ r₂ r₃ r₄ r₅ _ hword hcondition hthen hpositive hnegative
          hclose =>
          have hcondition := ((expect_advances hword (by decide)).behind
            (expression_ok hcondition).advances).skip (expect_advances hthen (by decide))
          have hpositive :=
            (ihPositive r₁.1 r₁.2 r₂.1 r₂.2 r₃.1 r₃.2 positive r₄ hpositive).advances
          have hnegative :=
            (ihElse r₁.1 r₁.2 r₂.1 r₂.2 r₃.1 r₃.2 r₄.1 r₄.2 negative r₅ hnegative).advances
          exact (((hcondition.trans hpositive).trans hnegative).skip
            (expect_advances hclose (by decide))).bump.imp rfl and_assoc.mp
      | @loop _ _ _ _ body r₁ r₂ r₃ r₄ _ hword hcondition hdo hbody hclose =>
          have hcondition := ((expect_advances hword (by decide)).behind
            (expression_ok hcondition).advances).skip (expect_advances hdo (by decide))
          have hbody := (ihLoop r₁.1 r₁.2 r₂.1 r₂.2 r₃.1 r₃.2 body r₄ hbody).advances
          exact ((hcondition.trans hbody).skip (expect_advances hclose (by decide))).bump
      | @block _ _ _ first others body r₁ r₂ r₃ r₄ r₅ _ hword hfirst hothers hin hbody hclose =>
          have hdefinitions := (ihDefinition r₁.1 r₁.2 first r₂ hfirst).cons
            (ihMore r₁.1 r₁.2 r₂.1 r₂.2 others r₃ hothers)
          have hbody :=
            (ihBody r₁.1 r₁.2 r₂.1 r₂.2 r₃.1 r₃.2 r₄.1 r₄.2 body r₅ hbody).advances
          exact ((expect_advances hword (by decide)).behind
            (((hdefinitions.before_in hin).trans hbody).skip
              (expect_advances hclose (by decide)))).bump
      | simple hsimple => exact simpleStatement_ok hsimple
  case case4 =>
      rintro r ihDefinition ihMore ds ⟨r', hle⟩ h
      cases moreDefinitions_read h with
      | last => exact ⟨[], .refl r, fun _ => trivial⟩
      | @more first others r₁ r₂ hfirst hothers =>
          exact (ihDefinition first r₁ hfirst).cons (ihMore r₁.1 r₁.2 others r₂ hothers)
  case case5 =>
      rintro r ihBody d ⟨r', hlt⟩ h
      cases definition_read h with
      | @func _ _ _ _ _ body r₁ r₂ r₃ r₄ r₅ r₆ _ hword hname hparen hparameters hclose hbody hnode =>
          have hname := (identifier_ok hname).advances.skip (expect_advances hparen (by decide))
          have hparameters := (parameters_ok hparameters).advances.skip
            (expect_advances hclose (by decide))
          have hbody := (ihBody r₁.1 r₁.2 r₂.1 r₂.2 r₃.1 r₃.2 r₄.1 r₄.2 r₅.1 r₅.2 body r₆
            hbody).advances
          exact .of_advances (expect_ok hword).1 (((hname.trans hparameters).trans hbody).bump.imp
            (by simp [Definition.ids, hnode]) fun hgood => ⟨hgood.1.1, hgood.2⟩)
      | @var head r₁ hhead =>
          obtain ⟨taken, hreads, hclosed, hgood⟩ := variableDefinition_ok hhead
          cases taken with
          | nil =>
              have hempty := hreads.list_eq
              have hlt := r₁.2
              simp only [size, hempty, List.nil_append, lt_irrefl] at hlt
          | cons token taken =>
              refine ⟨token, taken, hreads, ?_, hgood⟩
              intro front t back heq hfun
              exact hclosed (token :: front) t back (by rw [heq]; rfl) hfun
  case case6 =>
      intro r ih ss r' h
      rw [functionBody] at h
      obtain ⟨equals, hequals, h⟩ := bind_eq_ok h
      rcases equals with _ | ⟨token, u, r₁⟩
      · cases h
        exact Advances.refl r trivial
      · obtain ⟨⟨body, r₂⟩, hbody, h⟩ := bind_eq_ok h
        cases h
        exact (accept?_advances hequals rfl).behind (ih r₁.1 r₁.2 _ r₂ hbody).advances
  case case7 =>
      intro r ih ss r' h
      rw [elseBranch] at h
      obtain ⟨word, hword, h⟩ := bind_eq_ok h
      rcases word with _ | ⟨token, u, r₁⟩
      · cases h
        exact Advances.refl r trivial
      · obtain ⟨⟨body, r₂⟩, hbody, h⟩ := bind_eq_ok h
        cases h
        exact (accept?_advances hword rfl).behind (ih r₁.1 r₁.2 _ r₂ hbody).advances

theorem definition_ok {d : Definition} {r' : r.Shorter} (h : r.definition = .ok (d, r')) :
    YieldsDefinition r d r'.1 :=
  statements_ok.2.2.2.2.1 r d r' h

/-- A program consists of definitions only. -/
theorem definitions_ok (r : Reader) : ∀ ds (r' : Reader), definitions r = .ok (ds, r') →
    YieldsDefinitions r ds r' := by
  induction r using definitions.induct with
  | case1 r ih =>
      intro ds r' h
      cases definitions_read h with
      | last => exact ⟨[], .refl r, fun _ => trivial⟩
      | @more _ others r₁ _ hfirst hothers =>
          exact (definition_ok hfirst).cons (ih r₁.1 r₁.2 others r' hothers)

end Reader

end NestedFun
