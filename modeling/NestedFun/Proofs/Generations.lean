import NestedFun.Proofs.Readings
import NestedFun.Segment.Fragments

namespace NestedFun

/-!
# Generations

What the parts of an expression, a statement or a definition have generated if the whole has
generated code: one lemma for each form, so that nothing else takes the generator apart.
-/

theorem Generation.bind_ok {α β : Type} {x : Generation α} {f : α → Generation β}
    {g : Generated} {r : β × Generated} (h : (x >>= f) g = .ok r) :
    ∃ a g', x g = .ok (a, g') ∧ f a g' = .ok r := by
  obtain ⟨⟨a, g'⟩, hx, hf⟩ := bind_eq_ok h
  exact ⟨a, g', hx, hf⟩

theorem Generation.lift_ok {α : Type} {x : Except InternalError α} {g g' : Generated} {a : α}
    (h : (liftM x : Generation α) g = .ok (a, g')) : x = .ok a ∧ g' = g := by
  obtain ⟨b, hx, hb⟩ := bind_eq_ok h
  cases hb
  exact ⟨hx, rfl⟩

theorem Layout.getElem?_of_frame {layout : Layout} {id : NodeId} {frame : Frame}
    (h : layout.frame id = .ok frame) : layout.frames[id]? = some frame := by
  rw [Layout.frame] at h
  split at h
  · cases h
    assumption
  · cases h

theorem Layout.getElem?_of_access {layout : Layout} {id : NodeId} {access : Access}
    (h : layout.access id = .ok access) : layout.accesses[id]? = some access := by
  rw [Layout.access] at h
  split at h
  · cases h
    assumption
  · cases h

def functionCode (head : FunctionHead) (frame : Frame) (bodyCode : Code) : Code :=
  Code.spanning head.span
      [.label frame.label, .push (.ofInt (headerSize - frame.localsSize)), .popn]
    ++ bodyCode
    ++ Code.spanning head.span [.push (.ofInt (frame.parametersSize - linkSize)), .retn frame]

section

variable {context : Context} {frame : Frame} {g g' : Generated} {code : Code}

/-! ## Expressions -/

theorem Expression.literal_generated {node : Node} {value : Literal}
    (h : (Expression.literal node value).value context frame g = .ok (code, g')) :
    (value.kind ≠ .string ∧ code = Code.spanning node.span (value.words.map .push) ∧ g' = g) ∨
      (value.kind = .string ∧ code = Code.spanning node.span [.name (dataLabel g.labels.next)] ∧
        g' = ⟨⟨g.labels.next + 1⟩, g.functions, g.storage, g.strings.push (Data.spanning node.span
          (.label (dataLabel g.labels.next) :: (value.words ++ [0]).map .word))⟩) := by
  rw [Expression.value] at h
  cases hkind : value.kind with
  | integer | character =>
      simp only [hkind] at h
      cases h
      exact .inl ⟨nofun, rfl, rfl⟩
  | string =>
      simp only [hkind] at h
      cases h
      exact .inr ⟨rfl, rfl, rfl⟩

theorem Expression.name_generated {node : Node} {name : Identifier}
    (h : (Expression.name node name).value context frame g = .ok (code, g')) :
    ∃ address, nameAddress context frame node = .ok address ∧
      code = address ++ Code.spanning node.span [.load] ∧ g' = g := by
  rw [Expression.value] at h
  obtain ⟨address, g₁, hlift, hlast⟩ := Generation.bind_ok h
  obtain ⟨haddress, rfl⟩ := Generation.lift_ok hlift
  cases hlast
  exact ⟨address, haddress, rfl, rfl⟩

theorem Expression.call_generated {node : Node} {callee : Identifier} {arguments : List Expression}
    (h : (Expression.call node callee arguments).value context frame g = .ok (code, g')) :
    ∃ calleeFrame pushed call, context.calleeOf node.id = .ok calleeFrame ∧
      argumentValues context frame arguments g = .ok (pushed, g') ∧
      callCode frame calleeFrame node = .ok call ∧ code = pushed ++ call := by
  rw [Expression.value] at h
  obtain ⟨calleeFrame, g₁, hlift, hrest⟩ := Generation.bind_ok h
  obtain ⟨hcallee, rfl⟩ := Generation.lift_ok hlift
  obtain ⟨pushed, g₂, hpushed, hrest⟩ := Generation.bind_ok hrest
  obtain ⟨call, g₃, hlift, hlast⟩ := Generation.bind_ok hrest
  obtain ⟨hcall, rfl⟩ := Generation.lift_ok hlift
  cases hlast
  exact ⟨calleeFrame, pushed, call, hcallee, hpushed, hcall, rfl⟩

theorem Expression.unary_generated {node : Node} {operator : UnaryOperator} {operand : Expression}
    (h : (Expression.unary node operator operand).value context frame g = .ok (code, g')) :
    (operator.kind = .identity ∧ operand.value context frame g = .ok (code, g')) ∨
      (operator.kind = .addressOf ∧ operand.address context frame g = .ok (code, g')) ∨
      ∃ c, operand.value context frame g = .ok (c, g') ∧
        (operator.kind = .not ∧ code = c ++ Code.spanning node.span [.oper .not] ∨
          operator.kind = .negate ∧ code = c ++ Code.spanning node.span [.oper .neg] ∨
          operator.kind = .dereference ∧ code = c ++ Code.spanning node.span [.load]) := by
  rw [Expression.value] at h
  cases hkind : operator.kind with
  | identity =>
      simp only [hkind] at h
      exact .inl ⟨rfl, h⟩
  | addressOf =>
      simp only [hkind] at h
      exact .inr (.inl ⟨rfl, h⟩)
  | not =>
      simp only [hkind] at h
      obtain ⟨c, g₁, hc, hlast⟩ := Generation.bind_ok h
      cases hlast
      exact .inr (.inr ⟨c, hc, .inl ⟨rfl, rfl⟩⟩)
  | negate =>
      simp only [hkind] at h
      obtain ⟨c, g₁, hc, hlast⟩ := Generation.bind_ok h
      cases hlast
      exact .inr (.inr ⟨c, hc, .inr (.inl ⟨rfl, rfl⟩)⟩)
  | dereference =>
      simp only [hkind] at h
      obtain ⟨c, g₁, hc, hlast⟩ := Generation.bind_ok h
      cases hlast
      exact .inr (.inr ⟨c, hc, .inr (.inr ⟨rfl, rfl⟩)⟩)

theorem Expression.binary_generated {node : Node} {operator : BinaryOperator}
    {left right : Expression}
    (h : (Expression.binary node operator left right).value context frame g = .ok (code, g')) :
    ∃ r g₁ l, right.value context frame g = .ok (r, g₁) ∧
      left.value context frame g₁ = .ok (l, g') ∧
      code = r ++ l ++ Code.spanning operator.span [.oper operator.kind.stackOperator] := by
  rw [Expression.value] at h
  obtain ⟨r, g₁, hr, hrest⟩ := Generation.bind_ok h
  obtain ⟨l, g₂, hl, hlast⟩ := Generation.bind_ok hrest
  cases hlast
  exact ⟨r, g₁, l, hr, hl, rfl⟩

theorem Expression.name_address_generated {node : Node} {name : Identifier}
    (h : (Expression.name node name).address context frame g = .ok (code, g')) :
    nameAddress context frame node = .ok code ∧ g' = g := by
  rw [Expression.address] at h
  exact Generation.lift_ok h

theorem Expression.unary_address_generated {node : Node} {operator : UnaryOperator}
    {operand : Expression}
    (h : (Expression.unary node operator operand).address context frame g = .ok (code, g')) :
    operator.kind = .dereference ∧ operand.value context frame g = .ok (code, g') := by
  rw [Expression.address] at h
  split at h
  · rename_i hkind
    exact ⟨hkind, h⟩
  · cases h

theorem argumentValues_cons_generated {e : Expression} {es : List Expression}
    (h : argumentValues context frame (e :: es) g = .ok (code, g')) :
    ∃ others g₁ first, argumentValues context frame es g = .ok (others, g₁) ∧
      e.value context frame g₁ = .ok (first, g') ∧ code = others ++ first := by
  rw [argumentValues] at h
  obtain ⟨others, g₁, hothers, hrest⟩ := Generation.bind_ok h
  obtain ⟨first, g₂, hfirst, hlast⟩ := Generation.bind_ok hrest
  cases hlast
  exact ⟨others, g₁, first, hothers, hfirst, rfl⟩

/-! ## Variables -/

theorem emitLocal_generated {head : Variable} (h : emitLocal context head g = .ok (code, g')) :
    ∃ offset depth size contents,
      context.layout.accesses[head.id]? = some (.relative offset depth size (some contents)) ∧
      code = Code.spanning head.span [.regn .framePointer, .push (.ofInt offset), .oper .add,
        .name (dataLabel g.labels.next), .init] ∧
      g' = ⟨⟨g.labels.next + 1⟩, g.functions, g.storage.push (head.id, Data.spanning head.span
        (.label (dataLabel g.labels.next) :: contents.words.map .word)), g.strings⟩ := by
  rw [emitLocal] at h
  obtain ⟨access, g₁, hlift, hrest⟩ := Generation.bind_ok h
  obtain ⟨haccess, rfl⟩ := Generation.lift_ok hlift
  split at hrest
  · rename_i offset depth size contents
    cases hrest
    exact ⟨offset, depth, size, contents, Layout.getElem?_of_access haccess, rfl, rfl⟩
  · cases hrest

theorem emitGlobal_generated {head : Variable} {u : Unit}
    (h : emitGlobal context head g = .ok (u, g')) : ∃ label size contents,
      context.layout.accesses[head.id]? = some (.absolute label size contents) ∧
      g' = { g with storage := g.storage.push (head.id, Data.spanning head.span
        [.label label, .reserve (.ofInt size) (some contents)]) } := by
  rw [emitGlobal] at h
  obtain ⟨access, g₁, hlift, hrest⟩ := Generation.bind_ok h
  obtain ⟨haccess, rfl⟩ := Generation.lift_ok hlift
  split at hrest
  · rename_i label size contents
    cases hrest
    exact ⟨label, size, contents, Layout.getElem?_of_access haccess, rfl⟩
  · cases hrest

/-! ## Statements -/

variable {keep : Bool}

theorem Statement.eval_generated {node : Node} {value : Expression}
    (h : (Statement.eval node value).generate context frame keep g = .ok (code, g')) :
    ∃ c, value.value context frame g = .ok (c, g') ∧
      code = c ++ if keep then [] else Code.spanning node.span [.push 4, .popn] := by
  rw [Statement.generate] at h
  obtain ⟨c, g₁, hc, hlast⟩ := Generation.bind_ok h
  cases hlast
  exact ⟨c, hc, rfl⟩

theorem Statement.assign_generated {node : Node} {target source : Expression}
    (h : (Statement.assign node target source).generate context frame keep g = .ok (code, g')) :
    ∃ v g₁ a, source.value context frame g = .ok (v, g₁) ∧
      target.address context frame g₁ = .ok (a, g') ∧
      code = v ++ a ++ Code.spanning node.span [.save] ++ keptZero keep node.span := by
  rw [Statement.generate] at h
  obtain ⟨v, g₁, hv, hrest⟩ := Generation.bind_ok h
  obtain ⟨a, g₂, ha, hlast⟩ := Generation.bind_ok hrest
  cases hlast
  exact ⟨v, g₁, a, hv, ha, rfl⟩

theorem Statement.branch_generated {node : Node} {condition : Expression}
    {positive negative : List Statement}
    (h : (Statement.branch node condition positive negative).generate context frame keep g
      = .ok (code, g')) :
    ∃ p g₁ q g₂ c,
      generateStatements context frame false positive { g with labels := ⟨g.labels.next + 1⟩ }
        = .ok (p, g₁) ∧
      generateStatements context frame false negative g₁ = .ok (q, g₂) ∧
      condition.value context frame g₂ = .ok (c, g') ∧ code = List.flatten [
        Code.spanning node.span [.name (branchLabels g.labels.next).condition, .ujmp,
          .label (branchLabels g.labels.next).positive],
        p,
        Code.spanning node.span [.name (branchLabels g.labels.next).stop, .ujmp,
          .label (branchLabels g.labels.next).negative],
        q,
        Code.spanning node.span [.name (branchLabels g.labels.next).stop, .ujmp,
          .label (branchLabels g.labels.next).condition],
        c,
        Code.spanning node.span [.name (branchLabels g.labels.next).positive,
          .name (branchLabels g.labels.next).negative, .cjmp,
          .label (branchLabels g.labels.next).stop],
        keptZero keep node.span] := by
  rw [Statement.generate] at h
  obtain ⟨labels, _, hlabels, hrest⟩ := Generation.bind_ok h
  cases hlabels
  obtain ⟨p, g₁, hp, hrest⟩ := Generation.bind_ok hrest
  obtain ⟨q, g₂, hq, hrest⟩ := Generation.bind_ok hrest
  obtain ⟨c, g₃, hc, hlast⟩ := Generation.bind_ok hrest
  cases hlast
  exact ⟨p, g₁, q, g₂, c, hp, hq, hc, rfl⟩

theorem Statement.loop_generated {node : Node} {condition : Expression} {body : List Statement}
    (h : (Statement.loop node condition body).generate context frame keep g = .ok (code, g')) :
    ∃ c g₁ p,
      condition.value context frame { g with labels := ⟨g.labels.next + 1⟩ } = .ok (c, g₁) ∧
      generateStatements context frame false body g₁ = .ok (p, g') ∧ code = List.flatten [
        Code.spanning node.span [.label (loopLabels g.labels.next).condition],
        c,
        Code.spanning node.span [.name (loopLabels g.labels.next).body,
          .name (loopLabels g.labels.next).stop, .cjmp, .label (loopLabels g.labels.next).body],
        p,
        Code.spanning node.span [.name (loopLabels g.labels.next).condition, .ujmp,
          .label (loopLabels g.labels.next).stop],
        keptZero keep node.span] := by
  rw [Statement.generate] at h
  obtain ⟨labels, _, hlabels, hrest⟩ := Generation.bind_ok h
  cases hlabels
  obtain ⟨c, g₁, hc, hrest⟩ := Generation.bind_ok hrest
  obtain ⟨p, g₂, hp, hlast⟩ := Generation.bind_ok hrest
  cases hlast
  exact ⟨c, g₁, p, hc, hp, rfl⟩

theorem Statement.block_generated {node : Node} {ds : List Definition} {body : List Statement}
    (h : (Statement.block node ds body).generate context frame keep g = .ok (code, g')) :
    ∃ entry g₁ c, generateDefinitions context ds g = .ok (entry, g₁) ∧
      generateStatements context frame keep body g₁ = .ok (c, g') ∧ code = entry ++ c := by
  rw [Statement.generate] at h
  obtain ⟨entry, g₁, hentry, hrest⟩ := Generation.bind_ok h
  obtain ⟨c, g₂, hc, hlast⟩ := Generation.bind_ok hrest
  cases hlast
  exact ⟨entry, g₁, c, hentry, hc, rfl⟩

theorem generateStatements_single_generated {s : Statement}
    (h : generateStatements context frame keep [s] g = .ok (code, g')) :
    s.generate context frame keep g = .ok (code, g') := by
  rwa [generateStatements] at h

/-- Only the last of several statements can keep its value. -/
theorem generateStatements_cons_generated {s s' : Statement} {ss : List Statement}
    (h : generateStatements context frame keep (s :: s' :: ss) g = .ok (code, g')) :
    ∃ first g₁ others, s.generate context frame false g = .ok (first, g₁) ∧
      generateStatements context frame keep (s' :: ss) g₁ = .ok (others, g') ∧
      code = first ++ others := by
  rw [generateStatements] at h
  · obtain ⟨first, g₁, hfirst, hrest⟩ := Generation.bind_ok h
    obtain ⟨others, g₂, hothers, hlast⟩ := Generation.bind_ok hrest
    cases hlast
    exact ⟨first, g₁, others, hfirst, hothers, rfl⟩
  · exact nofun

/-! ## Definitions -/

theorem Definition.var_generated {head : Variable}
    (h : (Definition.var head).generate context g = .ok (code, g')) :
    emitLocal context head g = .ok (code, g') := by
  rwa [Definition.generate] at h

/-- A function is code of its own, if it has a body; none is carried out where it stands. -/
theorem Definition.func_generated {head : FunctionHead} {body : List Statement}
    (h : (Definition.func head body).generate context g = .ok (code, g')) :
    code = [] ∧ (body = [] ∧ g' = g ∨ body ≠ [] ∧ ∃ frame c g₁,
      context.layout.frames[head.id]? = some frame ∧
      generateStatements context frame true body g = .ok (c, g₁) ∧
      g' = { g₁ with functions := g₁.functions.push (head.id, functionCode head frame c) }) := by
  rw [Definition.generate] at h
  split at h
  · rename_i hempty
    cases h
    exact ⟨rfl, .inl ⟨List.isEmpty_iff.mp hempty, rfl⟩⟩
  · rename_i hempty
    obtain ⟨frame, g₁, hlift, hrest⟩ := Generation.bind_ok h
    obtain ⟨hframe, rfl⟩ := Generation.lift_ok hlift
    obtain ⟨c, g₂, hc, hlast⟩ := Generation.bind_ok hrest
    cases hlast
    exact ⟨rfl, .inr ⟨fun hnil => hempty (List.isEmpty_iff.mpr hnil), frame, c, g₂,
      Layout.getElem?_of_frame hframe, hc, rfl⟩⟩

theorem generateDefinitions_cons_generated {d : Definition} {ds : List Definition}
    (h : generateDefinitions context (d :: ds) g = .ok (code, g')) :
    ∃ first g₁ others, d.generate context g = .ok (first, g₁) ∧
      generateDefinitions context ds g₁ = .ok (others, g') ∧ code = first ++ others := by
  rw [generateDefinitions] at h
  obtain ⟨first, g₁, hfirst, hrest⟩ := Generation.bind_ok h
  obtain ⟨others, g₂, hothers, hlast⟩ := Generation.bind_ok hrest
  cases hlast
  exact ⟨first, g₁, others, hfirst, hothers, rfl⟩

theorem forM_emit_cons_generated {d : Definition} {ds : List Definition} {u : PUnit}
    (h : ((d :: ds).forM (Definition.emit context) : Generation PUnit) g = .ok (u, g')) :
    ∃ g₁, d.emit context g = .ok ((), g₁) ∧
      (ds.forM (Definition.emit context) : Generation PUnit) g₁ = .ok (u, g') := by
  rw [List.forM_eq_forM, List.forM_cons] at h
  obtain ⟨_, g₁, hfirst, hrest⟩ := Generation.bind_ok h
  exact ⟨g₁, hfirst, hrest⟩

/-- A function at the top level is emitted like any other. -/
theorem Definition.func_emitted {head : FunctionHead} {body : List Statement} {u : Unit}
    (h : (Definition.func head body).emit context g = .ok (u, g')) :
    (Definition.func head body).generate context g = .ok ([], g') := by
  obtain ⟨code, g₁, hcode, hlast⟩ := Generation.bind_ok h
  cases hlast
  obtain rfl := (func_generated hcode).1
  exact hcode

end

end NestedFun
