import NestedFun.Proofs.ErrorPlaces

namespace NestedFun

/-!
# The order of definitions

The definitions inside a program, listed with each function in front of those inside it, are in the
order in which they start in the text.
-/

structure InOrder (lo hi : Nat) (positions : List Nat) : Prop where
  le : lo ≤ hi
  pairwise : positions.Pairwise (· < ·)
  bounds : ∀ position ∈ positions, lo ≤ position ∧ position < hi

namespace InOrder

variable {lo mid hi : Nat} {a b : List Nat}

theorem nil (h : lo ≤ hi) : InOrder lo hi [] :=
  ⟨h, .nil, fun _ hmem => absurd hmem List.not_mem_nil⟩

theorem append (ha : InOrder lo mid a) (hb : InOrder mid hi b) : InOrder lo hi (a ++ b) := by
  refine ⟨ha.le.trans hb.le, List.pairwise_append.mpr ⟨ha.pairwise, hb.pairwise, ?_⟩, ?_⟩
  · intro x hx y hy
    exact (ha.bounds x hx).2.trans_le (hb.bounds y hy).1
  · intro x hx
    rcases List.mem_append.mp hx with hx | hx
    · exact ⟨(ha.bounds x hx).1, (ha.bounds x hx).2.trans_le hb.le⟩
    · exact ⟨ha.le.trans (hb.bounds x hx).1, (hb.bounds x hx).2⟩

/-- The start of a token in front of others. -/
theorem cons {position stop : Nat} (hlo : lo ≤ position) (hstop : position < stop)
    (h : InOrder stop hi a) : InOrder lo hi (position :: a) := by
  have hfirst : InOrder lo stop [position] :=
    ⟨by omega, List.pairwise_singleton _ _, fun x hx => by
      obtain rfl := List.mem_singleton.mp hx
      exact ⟨hlo, hstop⟩⟩
  exact hfirst.append h

theorem widen {lo' hi' : Nat} (h : InOrder lo hi a) (hlo : lo' ≤ lo) (hhi : hi ≤ hi') :
    InOrder lo' hi' a :=
  ⟨hlo.trans (h.le.trans hhi), h.pairwise, fun x hx =>
    ⟨hlo.trans (h.bounds x hx).1, (h.bounds x hx).2.trans_le hhi⟩⟩

end InOrder

/-! ## What derivations build -/

def definitionStarts (ds : List Definition) : List Nat := ds.map fun d => d.node.span.start

theorem definitionStarts_append (ds ds' : List Definition) :
    definitionStarts (ds ++ ds') = definitionStarts ds ++ definitionStarts ds' := List.map_append

def Phrase.positions : (p : Phrase) → p.Tree → List Nat
  | .definitions => fun ds => definitionStarts (definitionsInside ds)
  | .definition => fun d => definitionStarts d.inside
  | .functionBody | .statements | .moreStatements | .otherwise => fun ss =>
    definitionStarts (statementsInside ss)
  | .statement => fun s => definitionStarts s.inside
  | _ => fun _ => []

/-- A token is not empty and ends where the next value may start; definitions are in order. -/
def Symbol.InOrder (lo hi : Nat) : (s : Symbol) → s.Value → Prop
  | .token _ => fun token =>
    lo ≤ token.span.start ∧ token.span.start < token.span.stop ∧ token.span.stop = hi
  | .phrase p => fun v => NestedFun.InOrder lo hi (p.positions v)

def ValuesInOrder (hi : Nat) : Nat → (form : List Symbol) → Values form → Prop
  | lo, [], _ => lo ≤ hi
  | lo, s :: form, vs => ∃ mid, s.InOrder lo mid vs.1 ∧ ValuesInOrder hi mid form vs.2

theorem Symbol.InOrder.le {s : Symbol} {v : s.Value} {lo hi : Nat} (h : s.InOrder lo hi v) :
    lo ≤ hi := by
  cases s with
  | token kind =>
      obtain ⟨hlo, hlt, rfl⟩ := h
      omega
  | phrase p => exact NestedFun.InOrder.le h

theorem ValuesInOrder.le {hi lo : Nat} {form : List Symbol} {vs : Values form}
    (h : ValuesInOrder hi lo form vs) : lo ≤ hi := by
  induction form generalizing lo with
  | nil => exact h
  | cons s form ih =>
      obtain ⟨mid, hfirst, hrest⟩ := h
      exact hfirst.le.trans (ih hrest)

/-- What a rule makes of values in order is in order. -/
theorem Rule.build_inOrder {p : Phrase} (rule : Rule p) {vs : Values rule.form} {lo hi : Nat}
    (h : ValuesInOrder hi lo rule.form vs) : InOrder lo hi (p.positions (rule.build vs)) := by
  cases rule with
  | someDefinitions =>
      obtain ⟨first, others, _⟩ := vs
      obtain ⟨m₁, hfirst, m₂, hothers, hend⟩ := h
      show InOrder lo hi (definitionStarts (definitionsInside (first :: others)))
      rw [definitionsInside, definitionStarts_append]
      exact (InOrder.append hfirst hothers).widen le_rfl hend
  | functionDefinition =>
      obtain ⟨word, name, paren, parameters, close, body, _⟩ := vs
      obtain ⟨_, ⟨hlo, hlt, rfl⟩, m₂, hname, m₃, hparen, m₄, hparameters, m₅, hclose, m₆, hbody,
        hend⟩ := h
      have hhead := hname.le.trans (hparen.le.trans (hparameters.le.trans hclose.le))
      exact (InOrder.widen hbody hhead hend).cons hlo hlt
  | variableDefinition =>
      obtain ⟨word, name, equals, first, others, _⟩ := vs
      obtain ⟨_, ⟨hlo, hlt, rfl⟩, m₂, hname, m₃, hequals, m₄, hfirst, m₅, hothers, hend⟩ := h
      have hrest := hname.le.trans (hequals.le.trans (hfirst.le.trans (hothers.le.trans hend)))
      exact (InOrder.nil hrest).cons hlo hlt
  | someBody =>
      obtain ⟨m₁, hequals, m₂, hbody, hend⟩ := h
      exact InOrder.widen hbody hequals.le hend
  | statements =>
      obtain ⟨first, others, _⟩ := vs
      obtain ⟨m₁, hfirst, m₂, hothers, hend⟩ := h
      show InOrder lo hi (definitionStarts (statementsInside (first :: others)))
      rw [statementsInside, definitionStarts_append]
      exact (InOrder.append hfirst hothers).widen le_rfl hend
  | nextStatement =>
      obtain ⟨comma, first, others, _⟩ := vs
      obtain ⟨m₁, hcomma, m₂, hfirst, m₃, hothers, hend⟩ := h
      show InOrder lo hi (definitionStarts (statementsInside (first :: others)))
      rw [statementsInside, definitionStarts_append]
      exact (InOrder.append hfirst hothers).widen hcomma.le hend
  | simple =>
      obtain ⟨first, source, _⟩ := vs
      have hle := h.le
      cases source with
      | none => exact .nil hle
      | some source => exact .nil hle
  | branch =>
      obtain ⟨word, condition, word', positive, negative, close, _⟩ := vs
      obtain ⟨m₁, hword, m₂, hcondition, m₃, hword', m₄, hpositive, m₅, hnegative, m₆, hclose, hend⟩ := h
      show InOrder lo hi (definitionStarts (statementsInside positive ++ statementsInside negative))
      rw [definitionStarts_append]
      exact (InOrder.append hpositive hnegative).widen
        (hword.le.trans (hcondition.le.trans hword'.le)) (hclose.le.trans hend)
  | loop =>
      obtain ⟨word, condition, word', body, close, _⟩ := vs
      obtain ⟨m₁, hword, m₂, hcondition, m₃, hword', m₄, hbody, m₅, hclose, hend⟩ := h
      exact InOrder.widen hbody (hword.le.trans (hcondition.le.trans hword'.le)) (hclose.le.trans hend)
  | block =>
      obtain ⟨word, first, others, word', body, close, _⟩ := vs
      obtain ⟨m₁, hword, m₂, hfirst, m₃, hothers, m₄, hword', m₅, hbody, m₆, hclose, hend⟩ := h
      show InOrder lo hi (definitionStarts
        (first.inside ++ definitionsInside others ++ statementsInside body))
      rw [definitionStarts_append, definitionStarts_append]
      exact ((InOrder.append hfirst hothers).append (InOrder.widen hbody hword'.le le_rfl)).widen
        hword.le (hclose.le.trans hend)
  | otherwise =>
      obtain ⟨m₁, hword, m₂, hbody, hend⟩ := h
      exact InOrder.widen hbody hword.le hend
  | _ => exact .nil h.le

/-- The values of a derivation follow one another if its tokens do and are not empty. -/
theorem Derivation.values_inOrder {form : List Symbol} (d : Derivation form) {lo hi : Nat}
    (h : TokensStand (fun span => span.start < span.stop) hi lo d.tokens) :
    ValuesInOrder hi lo form d.values := by
  induction d generalizing lo hi with
  | nil => exact h
  | token token hkind rest ih =>
      obtain ⟨hspan, hlo, hrest⟩ := h
      exact ⟨token.span.stop, ⟨hlo, hspan, rfl⟩, ih hrest⟩
  | phrase rule parts rest ihParts ihRest =>
      obtain ⟨mid, hparts, hrest⟩ := tokensStand_append h
      exact ⟨mid, rule.build_inOrder (ihParts hparts), ihRest hrest⟩

/-! ## Numbers do not matter -/

mutual

theorem Definition.starts_unnumbered (d : Definition) :
    definitionStarts d.unnumbered.inside = definitionStarts d.inside := by
  cases d with
  | var head => rfl
  | func head body =>
      exact congrArg (head.span.start :: ·) (statementsStarts_unnumbered body)

theorem definitionsStarts_unnumbered (ds : List Definition) :
    definitionStarts (definitionsInside (definitionsUnnumbered ds))
      = definitionStarts (definitionsInside ds) := by
  cases ds with
  | nil => rfl
  | cons d ds =>
      rw [definitionsUnnumbered, definitionsInside, definitionsInside, definitionStarts_append,
        definitionStarts_append, d.starts_unnumbered, definitionsStarts_unnumbered ds]

theorem Statement.starts_unnumbered (s : Statement) :
    definitionStarts s.unnumbered.inside = definitionStarts s.inside := by
  cases s with
  | eval node value => rfl
  | assign node target source => rfl
  | branch node condition positive negative =>
      rw [Statement.unnumbered, Statement.inside, Statement.inside, definitionStarts_append,
        definitionStarts_append, statementsStarts_unnumbered positive,
        statementsStarts_unnumbered negative]
  | loop node condition body => exact statementsStarts_unnumbered body
  | block node ds body =>
      rw [Statement.unnumbered, Statement.inside, Statement.inside, definitionStarts_append,
        definitionStarts_append, definitionsStarts_unnumbered ds, statementsStarts_unnumbered body]

theorem statementsStarts_unnumbered (ss : List Statement) :
    definitionStarts (statementsInside (statementsUnnumbered ss))
      = definitionStarts (statementsInside ss) := by
  cases ss with
  | nil => rfl
  | cons s ss =>
      rw [statementsUnnumbered, statementsInside, statementsInside, definitionStarts_append,
        definitionStarts_append, s.starts_unnumbered, statementsStarts_unnumbered ss]

end

/-! ## Programs -/

/-- The definitions inside a program are listed in the order in which they start in the text. -/
theorem Program.definitions_ordered {cs : List Char} {program : Program}
    (h : parse cs = .ok program) :
    (definitionsInside program).Pairwise fun d e => d.node.span.start < e.node.span.start := by
  obtain ⟨d, hd, hvalue⟩ := spells_of_parse h
  have hpieces := (Cursor.start cs).pieces_scan
  rw [hd.items_eq] at hpieces
  have hstands := hpieces.tokensStand (Q := fun span => span.start < span.stop)
    fun _ => hpieces.nonempty
  obtain ⟨_, hvalues, -⟩ := d.values_inOrder hstands
  have hordered : (definitionStarts (definitionsInside d.values.1)).Pairwise (· < ·) :=
    InOrder.pairwise hvalues
  rw [← hvalue, unnumbered, definitionsStarts_unnumbered] at hordered
  exact List.pairwise_map.mp hordered

end NestedFun
