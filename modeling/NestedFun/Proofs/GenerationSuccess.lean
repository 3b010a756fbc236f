import NestedFun.Proofs.Assembly

namespace NestedFun

/-!
# Code of every program

Generating code looks up what names mean and where that is stored, and fails only where a table has
no entry or the wrong one. It never does for a program whose names are bound and placed.
-/

namespace Generation

variable {α β : Type}

def Succeeds (x : Generation α) : Prop := ∀ g, ∃ a g', x g = .ok (a, g')

theorem succeeds_pure (a : α) : (pure a : Generation α).Succeeds := fun g => ⟨a, g, rfl⟩

theorem succeeds_lift {x : Except InternalError α} {a : α} (h : x = .ok a) :
    (liftM x : Generation α).Succeeds := fun g => ⟨a, g, by rw [h]; rfl⟩

theorem Succeeds.bind {x : Generation α} {f : α → Generation β} (hx : x.Succeeds)
    (hf : ∀ a, (f a).Succeeds) : (x >>= f).Succeeds := by
  intro g
  obtain ⟨a, g', ha⟩ := hx g
  obtain ⟨b, g'', hb⟩ := hf a g'
  refine ⟨b, g'', ?_⟩
  show x g >>= (fun r => f r.1 r.2) = _
  rw [ha]
  exact hb

/-- After what is looked up, only the value found matters. -/
theorem Succeeds.lift_bind {x : Except InternalError α} {f : α → Generation β} {a : α}
    (hx : x = .ok a) (hf : (f a).Succeeds) : ((liftM x : Generation α) >>= f).Succeeds := by
  intro g
  obtain ⟨b, g', hb⟩ := hf g
  refine ⟨b, g', ?_⟩
  rw [hx]
  exact hb

theorem Succeeds.map {x : Generation α} (hx : x.Succeeds) (f : α → β) :
    (x >>= fun a => pure (f a)).Succeeds := hx.bind fun _ => succeeds_pure _

theorem succeeds_freshDataLabel : freshDataLabel.Succeeds := fun _ => ⟨_, _, rfl⟩

theorem succeeds_freshBranchLabels : freshBranchLabels.Succeeds := fun _ => ⟨_, _, rfl⟩

theorem succeeds_freshLoopLabels : freshLoopLabels.Succeeds := fun _ => ⟨_, _, rfl⟩

theorem succeeds_emitFunction (id : NodeId) (code : Code) : (emitFunction id code).Succeeds :=
  fun _ => ⟨_, _, rfl⟩

theorem succeeds_emitVariable (id : NodeId) (data : Data) : (emitVariable id data).Succeeds :=
  fun _ => ⟨_, _, rfl⟩

theorem succeeds_emitString (data : Data) : (emitString data).Succeeds := fun _ => ⟨_, _, rfl⟩

end Generation

open Generation

section

variable {T : Target} {env : Env} {used limit : Int} {frame : Frame}

/-! ## Expressions -/

mutual

theorem Expression.value_succeeds (e : Expression) (hbound : e.Bound T.context.definitions env)
    (henv : env.Placed T.layout used limit) (hframe : frame.depth = env.depth) :
    (e.value T.context frame).Succeeds := by
  cases e with
  | literal node value =>
      rw [Expression.value]
      cases value.kind with
      | integer => exact succeeds_pure _
      | character => exact succeeds_pure _
      | string =>
          exact succeeds_freshDataLabel.bind fun _ =>
            (succeeds_emitString _).bind fun _ => succeeds_pure _
  | name node name =>
      obtain ⟨place, -, hok⟩ := nameAddress_ok hbound henv hframe
      rw [Expression.value]
      exact (succeeds_lift hok).map _
  | call node callee arguments =>
      obtain ⟨⟨meaning, head, body, hfind, hentity, -, htable⟩, harguments⟩ := hbound
      obtain ⟨callee', hcallee, hfits, -⟩ := henv.callee hfind hentity
      have hhops := (Env.find?_home hfind).2.1
      have hcalleeOf : T.context.calleeOf node.id = .ok callee' := by
        rw [Context.calleeOf, Context.definitionOf_ok htable]
        exact Layout.frame_ok hcallee
      have hcall := @callCode_ok frame callee' node meaning.hops (by rw [hfits.depth_eq]; omega)
      rw [Expression.value]
      exact .lift_bind hcalleeOf ((argumentValues_succeeds arguments harguments henv hframe).bind
        fun _ => .lift_bind hcall (succeeds_pure _))
  | unary node operator operand =>
      have hvalue := operand.value_succeeds hbound.2 henv hframe
      rw [Expression.value]
      cases hkind : operator.kind with
      | not => exact hvalue.map _
      | negate => exact hvalue.map _
      | identity => exact hvalue
      | addressOf => exact operand.address_succeeds (hbound.1 hkind) hbound.2 henv hframe
      | dereference => exact hvalue.map _
  | binary node operator left right =>
      rw [Expression.value]
      exact (right.value_succeeds hbound.2 henv hframe).bind fun _ =>
        (left.value_succeeds hbound.1 henv hframe).bind fun _ => succeeds_pure _

theorem Expression.address_succeeds (e : Expression) (hplace : e.isPlace = true)
    (hbound : e.Bound T.context.definitions env) (henv : env.Placed T.layout used limit)
    (hframe : frame.depth = env.depth) : (e.address T.context frame).Succeeds := by
  cases e with
  | literal node value => cases hplace
  | name node name =>
      obtain ⟨place, -, hok⟩ := nameAddress_ok hbound henv hframe
      rw [Expression.address]
      exact succeeds_lift hok
  | call node callee arguments => cases hplace
  | unary node operator operand =>
      rw [Expression.address, if_pos (of_decide_eq_true hplace)]
      exact operand.value_succeeds hbound.2 henv hframe
  | binary node operator left right => cases hplace

theorem argumentValues_succeeds (es : List Expression)
    (hbound : BoundExpressions T.context.definitions env es)
    (henv : env.Placed T.layout used limit) (hframe : frame.depth = env.depth) :
    (argumentValues T.context frame es).Succeeds := by
  cases es with
  | nil => exact succeeds_pure _
  | cons e es =>
      rw [argumentValues]
      exact (argumentValues_succeeds es hbound.2 henv hframe).bind fun _ =>
        (e.value_succeeds hbound.1 henv hframe).bind fun _ => succeeds_pure _

end

/-! ## Statements and definitions -/

theorem emitLocal_succeeds {head : Variable} {before after : Int} (hdepth : 0 < env.depth)
    (hplaced : head.Placed T.layout env.depth before after) :
    (emitLocal T.context head).Succeeds := by
  obtain ⟨-, hplaced⟩ := hplaced
  rw [if_neg (by omega)] at hplaced
  rw [emitLocal]
  exact .lift_bind (Layout.access_ok hplaced.1) (succeeds_freshDataLabel.bind fun _ =>
    (succeeds_emitVariable _ _).bind fun _ => succeeds_pure _)

theorem emitGlobal_succeeds {head : Variable} {before after : Int} (hdepth : env.depth = 0)
    (hplaced : head.Placed T.layout env.depth before after) :
    (emitGlobal T.context head).Succeeds := by
  obtain ⟨-, hplaced⟩ := hplaced
  rw [if_pos hdepth] at hplaced
  rw [emitGlobal]
  exact .lift_bind (Layout.access_ok hplaced.1) (succeeds_emitVariable _ _)

mutual

theorem Statement.generate_succeeds (s : Statement) {env : Env} {used limit before after : Int}
    {frame : Frame} {keep : Bool} (hbound : s.Bound T.context.definitions env)
    (henv : env.Placed T.layout used limit)
    (hplaced : s.Placed T.layout env.depth before after) (hused : used ≤ before)
    (hlimit : after ≤ limit) (hdepth : 0 < env.depth) (hframe : frame.depth = env.depth) :
    (s.generate T.context frame keep).Succeeds := by
  cases s with
  | eval node value =>
      rw [Statement.generate]
      exact (value.value_succeeds hbound henv hframe).map _
  | assign node target source =>
      rw [Statement.generate]
      exact (source.value_succeeds hbound.2.2 henv hframe).bind fun _ =>
        (target.address_succeeds hbound.1 hbound.2.1 henv hframe).map _
  | branch node condition positive negative =>
      obtain ⟨between, hpositive, hnegative⟩ := hplaced
      have hle₁ := hpositive.before_le
      have hle₂ := hnegative.before_le
      rw [Statement.generate]
      exact succeeds_freshBranchLabels.bind fun _ =>
        (generateStatements_succeeds positive hbound.2.1 henv hpositive hused (hle₂.trans hlimit)
          hdepth hframe).bind fun _ =>
        (generateStatements_succeeds negative hbound.2.2 henv hnegative (hused.trans hle₁) hlimit
          hdepth hframe).bind fun _ =>
        (condition.value_succeeds hbound.1 henv hframe).map _
  | loop node condition body =>
      rw [Statement.generate]
      exact succeeds_freshLoopLabels.bind fun _ =>
        (condition.value_succeeds hbound.1 henv hframe).bind fun _ =>
        (generateStatements_succeeds body hbound.2 henv hplaced hused hlimit hdepth hframe).map _
  | block node ds body =>
      obtain ⟨between, hds, hbody⟩ := hplaced
      have hle := hbody.before_le
      have henv' : Env.Placed T.layout (.definitions ds :: env) between limit :=
        .definitions henv hused hds (hle.trans hlimit)
      rw [← Env.depth_definitions ds env] at hds hbody hdepth hframe
      rw [Statement.generate]
      exact (generateDefinitions_succeeds ds hbound.2.1 henv' hds hdepth).bind fun _ =>
        (generateStatements_succeeds body hbound.2.2 henv' hbody le_rfl hlimit hdepth hframe).map _

theorem generateStatements_succeeds (ss : List Statement) {env : Env}
    {used limit before after : Int} {frame : Frame} {keep : Bool}
    (hbound : BoundStatements T.context.definitions env ss) (henv : env.Placed T.layout used limit)
    (hplaced : PlacedStatements T.layout env.depth before after ss) (hused : used ≤ before)
    (hlimit : after ≤ limit) (hdepth : 0 < env.depth) (hframe : frame.depth = env.depth) :
    (generateStatements T.context frame keep ss).Succeeds := by
  match ss with
  | [] => exact succeeds_pure _
  | [s] =>
      obtain ⟨between, hs, hnil⟩ := hplaced
      cases hnil
      rw [generateStatements]
      exact s.generate_succeeds hbound.1 henv hs hused hlimit hdepth hframe
  | s :: s' :: ss =>
      obtain ⟨between, hs, hss⟩ := hplaced
      have hle₁ := hs.before_le
      have hle₂ := PlacedStatements.before_le hss
      rw [generateStatements]
      · exact (s.generate_succeeds hbound.1 henv hs hused (hle₂.trans hlimit) hdepth hframe).bind
          fun _ => (generateStatements_succeeds (s' :: ss) hbound.2 henv hss (hused.trans hle₁)
            hlimit hdepth hframe).map _
      · simp

theorem Definition.generate_succeeds (d : Definition) {env : Env} {used limit before after : Int}
    (hbound : d.Bound T.context.definitions env) (henv : env.Placed T.layout used limit)
    (hplaced : d.Placed T.layout env.depth before after)
    (hdepth : 0 < env.depth ∨ ∃ head body, d = .func head body) :
    (d.generate T.context).Succeeds := by
  cases d with
  | var head =>
      rw [Definition.generate]
      rcases hdepth with hdepth | ⟨_, _, hd⟩
      · exact emitLocal_succeeds hdepth hplaced
      · cases hd
  | func head body =>
      obtain ⟨frame, hframe, hfits, henv', hbody⟩ := henv.enter hplaced
      rw [← Env.depth_parameters head env] at hbody
      rw [Definition.generate]
      split
      · exact succeeds_pure _
      · exact .lift_bind (Layout.frame_ok hframe)
          ((generateStatements_succeeds body hbound.2 henv' hbody le_rfl le_rfl (by simp)
            (by rw [hfits.depth_eq, Env.depth_parameters])).bind fun _ =>
            (succeeds_emitFunction _ _).map _)

theorem generateDefinitions_succeeds (ds : List Definition) {env : Env}
    {used limit before after : Int} (hbound : BoundDefinitions T.context.definitions env ds)
    (henv : env.Placed T.layout used limit)
    (hplaced : PlacedDefinitions T.layout env.depth before after ds) (hdepth : 0 < env.depth) :
    (generateDefinitions T.context ds).Succeeds := by
  cases ds with
  | nil => exact succeeds_pure _
  | cons d ds =>
      obtain ⟨between, hd, hds⟩ := hplaced
      rw [generateDefinitions]
      exact (d.generate_succeeds hbound.1 henv hd (.inl hdepth)).bind fun _ =>
        (generateDefinitions_succeeds ds hbound.2 henv hds hdepth).map _

end

theorem forM_emit_succeeds (ds : List Definition) {before after : Int}
    (hbound : BoundDefinitions T.context.definitions env ds) (henv : env.Placed T.layout 0 0)
    (hdepth : env.depth = 0) (hplaced : PlacedDefinitions T.layout env.depth before after ds) :
    (ds.forM (Definition.emit T.context) : Generation PUnit).Succeeds := by
  induction ds generalizing before with
  | nil => exact succeeds_pure _
  | cons d ds ih =>
      obtain ⟨between, hd, hds⟩ := hplaced
      rw [List.forM_eq_forM, List.forM_cons]
      refine Succeeds.bind ?_ fun _ => ih hbound.2 hds
      cases d with
      | var head => exact emitGlobal_succeeds hdepth hd
      | func head body =>
          exact (Definition.generate_succeeds (.func head body) hbound.1 henv hd
            (.inr ⟨head, body, rfl⟩)).map _

end

/-- Code is generated for every program whose names are bound and placed. -/
theorem Program.generate_succeeds (program : Program) {context : Context} (labels : LabelSupply)
    (hbound : BoundDefinitions context.definitions [.definitions program] program)
    (hplaced : PlacedDefinitions context.layout 0 0 0 program) :
    ∃ fragments labels', program.generate context labels = .ok (fragments, labels') := by
  have henv : Env.Placed context.layout [.definitions program] 0 0 :=
    .definitions .nil le_rfl hplaced le_rfl
  obtain ⟨u, g, hrun⟩ := forM_emit_succeeds (T := ⟨context, {}⟩) program hbound henv rfl hplaced
    { labels }
  refine ⟨.ofGenerated g, g.labels, ?_⟩
  show ((program.forM (Definition.emit context) : Generation PUnit).run { labels } >>= _) = _
  rw [StateT.run, hrun]
  rfl

end NestedFun
