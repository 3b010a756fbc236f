import NestedFun.Proofs.StackHeights

namespace NestedFun

/-!
# Code of phrases in bodies

The expressions and the statements in the body of a function, each statement with whether its value
is kept. The code of the body has the code of all of them in it.
-/

/-- An expression, or a statement whose value may be kept. -/
inductive BodyPhrase where
  | expression (e : Expression)
  | statement (keep : Bool) (s : Statement)

def BodyPhrase.growth : BodyPhrase → Int
  | expression _ => 4
  | statement keep _ => if keep then 4 else 0

inductive BodyPhrase.Generates (context : Context) (frame : Frame) : BodyPhrase → Code → Prop
  | value {e : Expression} {g g' : Generated} {code : Code}
      (h : e.value context frame g = .ok (code, g')) : Generates context frame (.expression e) code
  | address {e : Expression} {g g' : Generated} {code : Code}
      (h : e.address context frame g = .ok (code, g')) :
      Generates context frame (.expression e) code
  | statement {keep : Bool} {s : Statement} {g g' : Generated} {code : Code}
      (h : s.generate context frame keep g = .ok (code, g')) :
      Generates context frame (.statement keep s) code

mutual

/-- A statement and everything inside it that belongs to the same function. -/
def Statement.phrases (keep : Bool) : Statement → List BodyPhrase
  | .eval node value => .statement keep (.eval node value) :: value.parts.map .expression
  | .assign node target source =>
    .statement keep (.assign node target source) ::
      (target.parts.map .expression ++ source.parts.map .expression)
  | .branch node condition positive negative =>
    .statement keep (.branch node condition positive negative) ::
      (condition.parts.map .expression ++ statementsPhrases false positive ++
        statementsPhrases false negative)
  | .loop node condition body =>
    .statement keep (.loop node condition body) ::
      (condition.parts.map .expression ++ statementsPhrases false body)
  | .block node definitions body =>
    .statement keep (.block node definitions body) :: statementsPhrases keep body

/-- Of statements one after the other, the value of the last one may be kept. -/
def statementsPhrases (keep : Bool) : List Statement → List BodyPhrase
  | [] => []
  | [s] => s.phrases keep
  | s :: ss => s.phrases false ++ statementsPhrases keep ss

end

def BodyPhrase.StandsIn (context : Context) (frame : Frame) (phrase : BodyPhrase) (code : Code) :
    Prop :=
  ∃ part : Code, part <:+: code ∧ phrase.Generates context frame part ∧
    Rises context.layout part.instructions phrase.growth

section

variable {context : Context} {frame : Frame} {phrase : BodyPhrase} {a b c : Code}

namespace BodyPhrase.StandsIn

theorem mono (h : phrase.StandsIn context frame a) (hwithin : a <:+: b) :
    phrase.StandsIn context frame b := by
  obtain ⟨part, hpart, hgenerates⟩ := h
  exact ⟨part, hpart.trans hwithin, hgenerates⟩

theorem append_left (h : phrase.StandsIn context frame b) :
    phrase.StandsIn context frame (a ++ b) :=
  h.mono (List.suffix_append a b).isInfix

theorem append_right (h : phrase.StandsIn context frame a) :
    phrase.StandsIn context frame (a ++ b) :=
  h.mono (List.prefix_append a b).isInfix

theorem flatten {codes : List Code} (h : phrase.StandsIn context frame c) (hmem : c ∈ codes) :
    phrase.StandsIn context frame codes.flatten :=
  h.mono (List.infix_of_mem_flatten hmem)

/-- A phrase stands in its own code. -/
theorem self (hgenerates : phrase.Generates context frame c)
    (hrises : Rises context.layout c.instructions phrase.growth) :
    phrase.StandsIn context frame c :=
  ⟨c, List.infix_rfl, hgenerates, hrises⟩

end BodyPhrase.StandsIn

open BodyPhrase.StandsIn

mutual

/-- All parts of an expression stand in the code of its value. -/
theorem Expression.value_contains (e : Expression) {g g' : Generated} {code : Code}
    (hcounts : ∀ part ∈ e.parts, context.Counts part)
    (h : e.value context frame g = .ok (code, g')) {part : Expression} (hpart : part ∈ e.parts) :
    (BodyPhrase.expression part).StandsIn context frame code := by
  have hself : (BodyPhrase.expression e).StandsIn context frame code :=
    .self (.value h) (e.value_rises hcounts h)
  cases e with
  | literal node value =>
      cases List.mem_singleton.mp hpart
      exact hself
  | name node name =>
      cases List.mem_singleton.mp hpart
      exact hself
  | call node name arguments =>
      rcases List.mem_cons.mp hpart with rfl | hpart
      · exact hself
      obtain ⟨_, pushed, call, -, hpushed, -, rfl⟩ := Expression.call_generated h
      exact (argumentValues_contain arguments (List.forall_mem_cons.mp hcounts).2 hpushed
        hpart).append_right
  | unary node operator operand =>
      rcases List.mem_cons.mp hpart with rfl | hpart
      · exact hself
      have hparts := (List.forall_mem_cons.mp hcounts).2
      rcases Expression.unary_generated h with
        ⟨-, hc⟩ | ⟨-, hc⟩ | ⟨c, hc, ⟨-, rfl⟩ | ⟨-, rfl⟩ | ⟨-, rfl⟩⟩
      · exact operand.value_contains hparts hc hpart
      · exact operand.address_contains hparts hc hpart
      all_goals exact (operand.value_contains hparts hc hpart).append_right
  | binary node operator left right =>
      rcases List.mem_cons.mp hpart with rfl | hpart
      · exact hself
      obtain ⟨hleft, hright⟩ := List.forall_mem_append.mp (List.forall_mem_cons.mp hcounts).2
      obtain ⟨r, g₁, l, hr, hl, rfl⟩ := Expression.binary_generated h
      rcases List.mem_append.mp hpart with hpart | hpart
      · exact (left.value_contains hleft hl hpart).append_left.append_right
      · exact (right.value_contains hright hr hpart).append_right.append_right

/-- All parts of an expression stand in the code of its address. -/
theorem Expression.address_contains (e : Expression) {g g' : Generated} {code : Code}
    (hcounts : ∀ part ∈ e.parts, context.Counts part)
    (h : e.address context frame g = .ok (code, g')) {part : Expression} (hpart : part ∈ e.parts) :
    (BodyPhrase.expression part).StandsIn context frame code := by
  have hself : (BodyPhrase.expression e).StandsIn context frame code :=
    .self (.address h) (e.address_rises hcounts h)
  cases e with
  | name node name =>
      cases List.mem_singleton.mp hpart
      exact hself
  | unary node operator operand =>
      rcases List.mem_cons.mp hpart with rfl | hpart
      · exact hself
      exact operand.value_contains (List.forall_mem_cons.mp hcounts).2
        (Expression.unary_address_generated h).2 hpart
  | literal node value => cases h
  | call node name arguments => cases h
  | binary node operator left right => cases h

theorem argumentValues_contain (es : List Expression) {g g' : Generated} {code : Code}
    (hcounts : ∀ part ∈ expressionParts es, context.Counts part)
    (h : argumentValues context frame es g = .ok (code, g')) {part : Expression}
    (hpart : part ∈ expressionParts es) :
    (BodyPhrase.expression part).StandsIn context frame code := by
  cases es with
  | nil => cases hpart
  | cons e es =>
      obtain ⟨hfirst, hothers⟩ := List.forall_mem_append.mp hcounts
      obtain ⟨others, g₁, first, ho, hf, rfl⟩ := argumentValues_cons_generated h
      rcases List.mem_append.mp hpart with hpart | hpart
      · exact (e.value_contains hfirst hf hpart).append_left
      · exact (argumentValues_contain es hothers ho hpart).append_right

end

/-- All parts of a value stand in its code. -/
theorem value_contains_all {e : Expression} {head : FunctionHead} {g g' : Generated} {code : Code}
    (hcounts : ∀ use ∈ e.uses head, context.Counts use.2)
    (h : e.value context frame g = .ok (code, g')) {phrase : BodyPhrase}
    (hphrase : phrase ∈ e.parts.map .expression) : phrase.StandsIn context frame code := by
  obtain ⟨part, hpart, rfl⟩ := List.mem_map.mp hphrase
  exact e.value_contains (counts_parts hcounts) h hpart

mutual

/-- Everything in a statement stands in its code. -/
theorem Statement.generate_contains (s : Statement) {head : FunctionHead} {keep : Bool}
    {g g' : Generated} {code : Code} (hcounts : ∀ use ∈ s.uses head, context.Counts use.2)
    (h : s.generate context frame keep g = .ok (code, g')) {phrase : BodyPhrase}
    (hphrase : phrase ∈ s.phrases keep) : phrase.StandsIn context frame code := by
  have hself : (BodyPhrase.statement keep s).StandsIn context frame code :=
    .self (.statement h) (s.generate_rises hcounts h)
  cases s with
  | eval node value =>
      rcases List.mem_cons.mp hphrase with rfl | hphrase
      · exact hself
      obtain ⟨c, hc, rfl⟩ := Statement.eval_generated h
      exact (value_contains_all hcounts hc hphrase).append_right
  | assign node target source =>
      rcases List.mem_cons.mp hphrase with rfl | hphrase
      · exact hself
      obtain ⟨htarget, hsource⟩ := List.forall_mem_append.mp hcounts
      obtain ⟨v, g₁, a, hv, ha, rfl⟩ := Statement.assign_generated h
      rcases List.mem_append.mp hphrase with hphrase | hphrase
      · obtain ⟨part, hpart, rfl⟩ := List.mem_map.mp hphrase
        exact (target.address_contains (counts_parts htarget) ha
          hpart).append_left.append_right.append_right
      · exact (value_contains_all hsource hv hphrase).append_right.append_right.append_right
  | branch node condition positive negative =>
      rcases List.mem_cons.mp hphrase with rfl | hphrase
      · exact hself
      obtain ⟨hfirst, hnegative⟩ := List.forall_mem_append.mp hcounts
      obtain ⟨hcondition, hpositive⟩ := List.forall_mem_append.mp hfirst
      obtain ⟨p, g₁, q, g₂, c, hp, hq, hc, rfl⟩ := Statement.branch_generated h
      rcases List.mem_append.mp hphrase with hphrase | hphrase
      · rcases List.mem_append.mp hphrase with hphrase | hphrase
        · exact (value_contains_all hcondition hc hphrase).flatten (by simp)
        · exact (generateStatements_contain positive hpositive hp hphrase).flatten (by simp)
      · exact (generateStatements_contain negative hnegative hq hphrase).flatten (by simp)
  | loop node condition body =>
      rcases List.mem_cons.mp hphrase with rfl | hphrase
      · exact hself
      obtain ⟨hcondition, hbody⟩ := List.forall_mem_append.mp hcounts
      obtain ⟨c, g₁, p, hc, hp, rfl⟩ := Statement.loop_generated h
      rcases List.mem_append.mp hphrase with hphrase | hphrase
      · exact (value_contains_all hcondition hc hphrase).flatten (by simp)
      · exact (generateStatements_contain body hbody hp hphrase).flatten (by simp)
  | block node ds body =>
      rcases List.mem_cons.mp hphrase with rfl | hphrase
      · exact hself
      obtain ⟨entry, g₁, c, hentry, hc, rfl⟩ := Statement.block_generated h
      exact (generateStatements_contain body (List.forall_mem_append.mp hcounts).2 hc
        hphrase).append_left

theorem generateStatements_contain (ss : List Statement) {head : FunctionHead} {keep : Bool}
    {g g' : Generated} {code : Code}
    (hcounts : ∀ use ∈ statementsUses head ss, context.Counts use.2)
    (h : generateStatements context frame keep ss g = .ok (code, g')) {phrase : BodyPhrase}
    (hphrase : phrase ∈ statementsPhrases keep ss) : phrase.StandsIn context frame code := by
  cases ss with
  | nil => cases hphrase
  | cons s ss =>
      obtain ⟨hs, hss⟩ := List.forall_mem_append.mp hcounts
      cases ss with
      | nil =>
          exact s.generate_contains hs (generateStatements_single_generated h) hphrase
      | cons s' ss =>
          obtain ⟨first, g₁, others, hfirst, hothers, rfl⟩ := generateStatements_cons_generated h
          rcases List.mem_append.mp hphrase with hphrase | hphrase
          · exact (s.generate_contains hs hfirst hphrase).append_right
          · exact (generateStatements_contain (s' :: ss) hss hothers hphrase).append_left

end

end

end NestedFun
