import NestedFun.Tree.Parser

namespace NestedFun

/-!
# Readings

The ways in which the parser can have read a statement or definitions. What holds of everything that
is read is proved way by way, without taking the parser apart.
-/

theorem bind_eq_ok {ε α β : Type} {x : Except ε α} {f : α → Except ε β} {b : β}
    (h : (x >>= f) = .ok b) : ∃ a, x = .ok a ∧ f a = .ok b := by
  cases x with
  | error e => cases h
  | ok a => exact ⟨a, rfl, h⟩

theorem bind_of_ok {ε α β : Type} {x : Except ε α} {a : α} {f : α → Except ε β}
    (h : x = .ok a) : (x >>= f) = f a := by
  rw [h]
  rfl

namespace Reader

variable {r r' : Reader}

/-! ## Operands -/

theorem operand_eq_binary {level inner : Level} (h : level.tighter? = some inner) (r : Reader) :
    operand level r = binary inner r := by
  rw [operand]
  split
  · rename_i l hl
    rw [h] at hl
    cases hl
    rfl
  · rename_i hnone
    rw [h] at hnone
    cases hnone

theorem operand_eq_prefixed {level : Level} (h : level.tighter? = none) (r : Reader) :
    operand level r = prefixed r := by
  rw [operand]
  split
  · rename_i l hl
    rw [h] at hl
    cases hl
  · rfl

/-! ## Statements -/

/-- The ways of reading a statement, each with the readers between its parts. -/
inductive StatementRead (r : Reader) : Statement → Reader → Prop
  | branch {word thenWord close : Token} {condition : Expression}
      {positive negative : List Statement} {r₁ : r.Shorter} {r₂ : r₁.1.Shorter}
      {r₃ : r₂.1.Shorter} {r₄ : r₃.1.Shorter} {r₅ : r₄.1.NoLonger} {r₆ : r₅.1.Shorter}
      (hword : r.expect (.keyword .kwIf) = .ok (word, r₁))
      (hcondition : r₁.1.expression = .ok (condition, r₂))
      (hthen : r₂.1.expect (.keyword .kwThen) = .ok (thenWord, r₃))
      (hpositive : statements r₃.1 = .ok (positive, r₄))
      (hnegative : elseBranch r₄.1 = .ok (negative, r₅))
      (hclose : r₅.1.expect (.keyword .kwEnd) = .ok (close, r₆)) :
      StatementRead r (.branch ⟨r₆.1.nextId, ⟨word.span.start, close.span.stop⟩⟩ condition positive
        negative) r₆.1.bump
  | loop {word doWord close : Token} {condition : Expression} {body : List Statement}
      {r₁ : r.Shorter} {r₂ : r₁.1.Shorter} {r₃ : r₂.1.Shorter} {r₄ : r₃.1.Shorter}
      {r₅ : r₄.1.Shorter}
      (hword : r.expect (.keyword .kwWhile) = .ok (word, r₁))
      (hcondition : r₁.1.expression = .ok (condition, r₂))
      (hdo : r₂.1.expect (.keyword .kwDo) = .ok (doWord, r₃))
      (hbody : statements r₃.1 = .ok (body, r₄))
      (hclose : r₄.1.expect (.keyword .kwEnd) = .ok (close, r₅)) :
      StatementRead r (.loop ⟨r₅.1.nextId, ⟨word.span.start, close.span.stop⟩⟩ condition body)
        r₅.1.bump
  | block {word inWord close : Token} {first : Definition} {others : List Definition}
      {body : List Statement} {r₁ : r.Shorter} {r₂ : r₁.1.Shorter} {r₃ : r₂.1.NoLonger}
      {r₄ : r₃.1.Shorter} {r₅ : r₄.1.Shorter} {r₆ : r₅.1.Shorter}
      (hword : r.expect (.keyword .kwLet) = .ok (word, r₁))
      (hfirst : definition r₁.1 = .ok (first, r₂))
      (hothers : moreDefinitions r₂.1 = .ok (others, r₃))
      (hin : r₃.1.expect (.keyword .kwIn) = .ok (inWord, r₄))
      (hbody : statements r₄.1 = .ok (body, r₅))
      (hclose : r₅.1.expect (.keyword .kwEnd) = .ok (close, r₆)) :
      StatementRead r (.block ⟨r₆.1.nextId, ⟨word.span.start, close.span.stop⟩⟩ (first :: others)
        body) r₆.1.bump
  | simple {s : Statement} {r₁ : r.Shorter} (hsimple : r.simpleStatement = .ok (s, r₁)) :
      StatementRead r s r₁.1

theorem statement_read {s : Statement} {hlt : r'.size < r.size}
    (h : statement r = .ok (s, ⟨r', hlt⟩)) : StatementRead r s r' := by
  rw [statement] at h
  obtain ⟨token, -, h⟩ := bind_eq_ok h
  simp only at h
  split at h
  · obtain ⟨⟨word, r₁⟩, hword, h⟩ := bind_eq_ok h
    obtain ⟨⟨condition, r₂⟩, hcondition, h⟩ := bind_eq_ok h
    obtain ⟨⟨thenWord, r₃⟩, hthen, h⟩ := bind_eq_ok h
    obtain ⟨⟨positive, r₄⟩, hpositive, h⟩ := bind_eq_ok h
    obtain ⟨⟨negative, r₅⟩, hnegative, h⟩ := bind_eq_ok h
    obtain ⟨⟨close, r₆⟩, hclose, h⟩ := bind_eq_ok h
    cases h
    exact .branch hword hcondition hthen hpositive hnegative hclose
  · obtain ⟨⟨word, r₁⟩, hword, h⟩ := bind_eq_ok h
    obtain ⟨⟨condition, r₂⟩, hcondition, h⟩ := bind_eq_ok h
    obtain ⟨⟨doWord, r₃⟩, hdo, h⟩ := bind_eq_ok h
    obtain ⟨⟨body, r₄⟩, hbody, h⟩ := bind_eq_ok h
    obtain ⟨⟨close, r₅⟩, hclose, h⟩ := bind_eq_ok h
    cases h
    exact .loop hword hcondition hdo hbody hclose
  · obtain ⟨⟨word, r₁⟩, hword, h⟩ := bind_eq_ok h
    obtain ⟨⟨first, r₂⟩, hfirst, h⟩ := bind_eq_ok h
    obtain ⟨⟨others, r₃⟩, hothers, h⟩ := bind_eq_ok h
    obtain ⟨⟨inWord, r₄⟩, hin, h⟩ := bind_eq_ok h
    obtain ⟨⟨body, r₅⟩, hbody, h⟩ := bind_eq_ok h
    obtain ⟨⟨close, r₆⟩, hclose, h⟩ := bind_eq_ok h
    cases h
    exact .block hword hfirst hothers hin hbody hclose
  · exact .simple h

/-! ## Definitions -/

inductive DefinitionRead (r : Reader) : Definition → Reader → Prop
  | func {word paren close : Token} {name : Identifier} {parameters : List Parameter}
      {body : List Statement} {r₁ : r.Shorter} {r₂ : r₁.1.Shorter} {r₃ : r₂.1.Shorter}
      {r₄ : r₃.1.NoLonger} {r₅ : r₄.1.Shorter} {r₆ : r₅.1.NoLonger} {node : Node}
      (hword : r.expect (.keyword .kwFun) = .ok (word, r₁))
      (hname : r₁.1.identifier = .ok (name, r₂))
      (hparen : r₂.1.expect .openParen = .ok (paren, r₃))
      (hparameters : r₃.1.parameters = .ok (parameters, r₄))
      (hclose : r₄.1.expect .closeParen = .ok (close, r₅))
      (hbody : functionBody r₅.1 = .ok (body, r₆)) (hnode : node.id = r₆.1.nextId) :
      DefinitionRead r (.func ⟨node, name, parameters⟩ body) r₆.1.bump
  | var {head : Variable} {r₁ : r.Shorter} (hhead : r.variableDefinition = .ok (head, r₁)) :
      DefinitionRead r (.var head) r₁.1

theorem definition_read {d : Definition} {hlt : r'.size < r.size}
    (h : definition r = .ok (d, ⟨r', hlt⟩)) : DefinitionRead r d r' := by
  rw [definition] at h
  obtain ⟨token, -, h⟩ := bind_eq_ok h
  simp only at h
  split at h
  · obtain ⟨⟨word, r₁⟩, hword, h⟩ := bind_eq_ok h
    obtain ⟨⟨name, r₂⟩, hname, h⟩ := bind_eq_ok h
    obtain ⟨⟨paren, r₃⟩, hparen, h⟩ := bind_eq_ok h
    obtain ⟨⟨parameters, r₄⟩, hparameters, h⟩ := bind_eq_ok h
    obtain ⟨⟨close, r₅⟩, hclose, h⟩ := bind_eq_ok h
    obtain ⟨⟨body, r₆⟩, hbody, h⟩ := bind_eq_ok h
    cases h
    exact .func hword hname hparen hparameters hclose hbody rfl
  · obtain ⟨⟨head, r₁⟩, hhead, h⟩ := bind_eq_ok h
    cases h
    exact .var hhead
  · cases h

inductive MoreDefinitionsRead (r : Reader) : List Definition → Reader → Prop
  | last {token : Token} (hpeek : r.peek = .ok token) (hin : token.kind = .keyword .kwIn) :
      MoreDefinitionsRead r [] r
  | more {first : Definition} {others : List Definition} {r₁ : r.Shorter} {r₂ : r₁.1.NoLonger}
      (hfirst : definition r = .ok (first, r₁))
      (hothers : moreDefinitions r₁.1 = .ok (others, r₂)) :
      MoreDefinitionsRead r (first :: others) r₂.1

theorem moreDefinitions_read {ds : List Definition} {hle : r'.size ≤ r.size}
    (h : moreDefinitions r = .ok (ds, ⟨r', hle⟩)) : MoreDefinitionsRead r ds r' := by
  rw [moreDefinitions] at h
  obtain ⟨token, hpeek, h⟩ := bind_eq_ok h
  simp only at h
  split at h
  · rename_i hin
    cases h
    exact .last hpeek hin
  · obtain ⟨⟨first, r₁⟩, hfirst, h⟩ := bind_eq_ok h
    obtain ⟨⟨others, r₂⟩, hothers, h⟩ := bind_eq_ok h
    cases h
    exact .more hfirst hothers

inductive DefinitionsRead (r : Reader) : List Definition → Reader → Prop
  | last {token : Token} (hpeek : r.peek = .ok token) (hend : token.kind = .endOfFile) :
      DefinitionsRead r [] r
  | more {first : Definition} {others : List Definition} {r₁ : r.Shorter} {r₂ : Reader}
      (hfirst : definition r = .ok (first, r₁)) (hothers : definitions r₁.1 = .ok (others, r₂)) :
      DefinitionsRead r (first :: others) r₂

theorem definitions_read {ds : List Definition} (h : definitions r = .ok (ds, r')) :
    DefinitionsRead r ds r' := by
  rw [definitions] at h
  obtain ⟨token, hpeek, h⟩ := bind_eq_ok h
  simp only at h
  split at h
  · rename_i hend
    cases h
    exact .last hpeek hend
  · obtain ⟨⟨first, r₁⟩, hfirst, h⟩ := bind_eq_ok h
    obtain ⟨⟨others, r₂⟩, hothers, h⟩ := bind_eq_ok h
    cases h
    exact .more hfirst hothers

end Reader

end NestedFun
