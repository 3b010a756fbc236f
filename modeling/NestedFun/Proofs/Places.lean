import NestedFun.Proofs.Environment
import NestedFun.Proofs.Placement
import NestedFun.Segment.Fragments

namespace NestedFun

/-!
# Places of what a name means

A name stands for a variable whose place is known from the environment alone: at an offset in the
frame that is reached by so many static links, or at a label.
-/

/-- Everything in an environment has its place. In the frame of the innermost function so many bytes
of locals are in use, of all those that there are. -/
inductive Env.Placed (layout : Layout) : Env → Int → Int → Prop
  | nil : Placed layout [] 0 0
  | parameters {env : Env} {used limit : Int} {head : FunctionHead} {frame : Frame}
      (outer : Placed layout env used limit) (hframe : layout.frames[head.id]? = some frame)
      (hfits : frame.Fits env.depth head)
      (hparameters : ParametersPlaced layout (env.depth + 1) 4 head.parameters)
      (hsize : 8 ≤ frame.localsSize) :
      Placed layout (.parameters head :: env) 0 (frame.localsSize - 8)
  | definitions {env : Env} {used limit before after : Int} {ds : List Definition}
      (outer : Placed layout env used limit) (hused : used ≤ before)
      (hplaced : PlacedDefinitions layout env.depth before after ds) (hlimit : after ≤ limit) :
      Placed layout (.definitions ds :: env) after limit

theorem ParametersPlaced.mem {layout : Layout} {depth : Nat} {offset : Int} {ps : List Parameter}
    (h : ParametersPlaced layout depth offset ps) {p : Parameter} (hp : p ∈ ps) :
    ∃ o, layout.accesses[p.id]? = some (.relative o depth 4 none) ∧ offset ≤ o ∧
      o + 4 ≤ offset + 4 * ps.length := by
  induction ps generalizing offset with
  | nil => cases hp
  | cons q ps ih =>
      rw [List.length_cons]
      push_cast
      rcases List.mem_cons.mp hp with rfl | hp
      · exact ⟨offset, h.1, by omega, by omega⟩
      · obtain ⟨o, ho, hlow, hhigh⟩ := ih h.2 hp
        exact ⟨o, ho, by omega, by omega⟩

theorem Variable.Placed.before_le {layout : Layout} {depth : Nat} {before after : Int}
    {head : Variable} (h : head.Placed layout depth before after) : before ≤ after := by
  obtain ⟨_, h⟩ := h
  split at h
  · omega
  · omega

mutual

theorem Definition.Placed.before_le {d : Definition} {layout : Layout} {depth : Nat}
    {before after : Int} (h : d.Placed layout depth before after) : before ≤ after := by
  cases d with
  | var head => exact Variable.Placed.before_le h
  | func head body => exact h.1.ge

theorem PlacedDefinitions.before_le {ds : List Definition} {layout : Layout} {depth : Nat}
    {before after : Int} (h : PlacedDefinitions layout depth before after ds) :
    before ≤ after := by
  cases ds with
  | nil => exact h.ge
  | cons d ds =>
      obtain ⟨between, hfirst, hrest⟩ := h
      exact (Definition.Placed.before_le hfirst).trans (PlacedDefinitions.before_le hrest)

end

mutual

theorem Statement.Placed.before_le {s : Statement} {layout : Layout} {depth : Nat}
    {before after : Int} (h : s.Placed layout depth before after) : before ≤ after := by
  cases s with
  | eval node value => exact h.ge
  | assign node target source => exact h.ge
  | branch node condition positive negative =>
      obtain ⟨between, hpositive, hnegative⟩ := h
      exact (PlacedStatements.before_le hpositive).trans (PlacedStatements.before_le hnegative)
  | loop node condition body => exact PlacedStatements.before_le h
  | block node ds body =>
      obtain ⟨between, hds, hbody⟩ := h
      exact hds.before_le.trans (PlacedStatements.before_le hbody)

theorem PlacedStatements.before_le {ss : List Statement} {layout : Layout} {depth : Nat}
    {before after : Int} (h : PlacedStatements layout depth before after ss) :
    before ≤ after := by
  cases ss with
  | nil => exact h.ge
  | cons s ss =>
      obtain ⟨between, hfirst, hrest⟩ := h
      exact (Statement.Placed.before_le hfirst).trans (PlacedStatements.before_le hrest)

end

mutual

/-- Everything inside a definition that is placed is placed itself, outside all functions only if it
is the definition itself. -/
theorem Definition.Placed.inside {d : Definition} {layout : Layout} {depth : Nat}
    {before after : Int} (h : d.Placed layout depth before after) (hbefore : 0 ≤ before)
    {e : Definition} (hmem : e ∈ d.inside) : ∃ depth' b a, e.Placed layout depth' b a ∧ 0 ≤ b ∧
      (d = e ∧ depth' = depth ∨ 0 < depth') := by
  cases d with
  | var head =>
      cases List.mem_singleton.mp hmem
      exact ⟨depth, before, after, h, hbefore, .inl ⟨rfl, rfl⟩⟩
  | func head body =>
      rcases List.mem_cons.mp hmem with rfl | hmem
      · exact ⟨depth, before, after, h, hbefore, .inl ⟨rfl, rfl⟩⟩
      · obtain ⟨-, frame, -, -, -, hbody⟩ := h
        obtain ⟨depth', b, a, he, hb, hdepth⟩ :=
          PlacedStatements.inside hbody le_rfl depth.succ_pos hmem
        exact ⟨depth', b, a, he, hb, .inr hdepth⟩

theorem PlacedDefinitions.inside {ds : List Definition} {layout : Layout} {depth : Nat}
    {before after : Int} (h : PlacedDefinitions layout depth before after ds) (hbefore : 0 ≤ before)
    {e : Definition} (hmem : e ∈ definitionsInside ds) :
    ∃ depth' b a, e.Placed layout depth' b a ∧ 0 ≤ b ∧ (e ∈ ds ∧ depth' = depth ∨ 0 < depth') := by
  cases ds with
  | nil => cases hmem
  | cons d ds =>
      obtain ⟨between, hd, hds⟩ := h
      rcases List.mem_append.mp hmem with hmem | hmem
      · obtain ⟨depth', b, a, he, hb, hcases⟩ := hd.inside hbefore hmem
        refine ⟨depth', b, a, he, hb, hcases.imp_left ?_⟩
        rintro ⟨rfl, hdepth⟩
        exact ⟨List.mem_cons_self, hdepth⟩
      · obtain ⟨depth', b, a, he, hb, hcases⟩ :=
          PlacedDefinitions.inside hds (hbefore.trans hd.before_le) hmem
        refine ⟨depth', b, a, he, hb, hcases.imp_left ?_⟩
        rintro ⟨hds, hdepth⟩
        exact ⟨List.mem_cons_of_mem _ hds, hdepth⟩

theorem Statement.Placed.inside {s : Statement} {layout : Layout} {depth : Nat}
    {before after : Int} (h : s.Placed layout depth before after) (hbefore : 0 ≤ before)
    (hdepth : 0 < depth) {e : Definition} (hmem : e ∈ s.inside) :
    ∃ depth' b a, e.Placed layout depth' b a ∧ 0 ≤ b ∧ 0 < depth' := by
  cases s with
  | eval node value => cases hmem
  | assign node target source => cases hmem
  | branch node condition positive negative =>
      obtain ⟨between, hpositive, hnegative⟩ := h
      rcases List.mem_append.mp hmem with hmem | hmem
      · exact PlacedStatements.inside hpositive hbefore hdepth hmem
      · exact PlacedStatements.inside hnegative (hbefore.trans hpositive.before_le) hdepth hmem
  | loop node condition body => exact @PlacedStatements.inside body _ _ _ _ h hbefore hdepth _ hmem
  | block node ds body =>
      obtain ⟨between, hds, hbody⟩ := h
      rcases List.mem_append.mp hmem with hmem | hmem
      · obtain ⟨depth', b, a, he, hb, ⟨-, rfl⟩ | hpos⟩ := PlacedDefinitions.inside hds hbefore hmem
        · exact ⟨depth', b, a, he, hb, hdepth⟩
        · exact ⟨depth', b, a, he, hb, hpos⟩
      · exact PlacedStatements.inside hbody (hbefore.trans hds.before_le) hdepth hmem

theorem PlacedStatements.inside {ss : List Statement} {layout : Layout} {depth : Nat}
    {before after : Int} (h : PlacedStatements layout depth before after ss) (hbefore : 0 ≤ before)
    (hdepth : 0 < depth) {e : Definition} (hmem : e ∈ statementsInside ss) :
    ∃ depth' b a, e.Placed layout depth' b a ∧ 0 ≤ b ∧ 0 < depth' := by
  cases ss with
  | nil => cases hmem
  | cons s ss =>
      obtain ⟨between, hs, hss⟩ := h
      rcases List.mem_append.mp hmem with hmem | hmem
      · exact hs.inside hbefore hdepth hmem
      · exact PlacedStatements.inside hss (hbefore.trans hs.before_le) hdepth hmem

end

theorem PlacedDefinitions.mem {layout : Layout} {depth : Nat} {before after : Int}
    {ds : List Definition} (h : PlacedDefinitions layout depth before after ds) {d : Definition}
    (hd : d ∈ ds) : ∃ b a, d.Placed layout depth b a ∧ before ≤ b ∧ a ≤ after := by
  induction ds generalizing before with
  | nil => cases hd
  | cons e ds ih =>
      obtain ⟨between, hfirst, hrest⟩ := h
      have hle := hfirst.before_le
      have hle' := hrest.before_le
      rcases List.mem_cons.mp hd with rfl | hd
      · exact ⟨before, between, hfirst, le_rfl, hle'⟩
      · obtain ⟨b, a, hplaced, hb, ha⟩ := ih hrest hd
        exact ⟨b, a, hplaced, by omega, ha⟩

namespace Env.Placed

variable {layout : Layout} {env : Env} {used limit : Int}

/-- The environment around a function that is placed there. -/
theorem enter (h : env.Placed layout used limit) {head : FunctionHead} {body : List Statement}
    {before after : Int} (hplaced : (Definition.func head body).Placed layout env.depth before after) :
    ∃ frame, layout.frames[head.id]? = some frame ∧ frame.Fits env.depth head ∧
      Placed layout (.parameters head :: env) 0 (frame.localsSize - 8) ∧
      PlacedStatements layout (env.depth + 1) 0 (frame.localsSize - 8) body := by
  obtain ⟨_, frame, hframe, hfits, hparameters, hbody⟩ := hplaced
  have hsize := hbody.before_le
  exact ⟨frame, hframe, hfits, .parameters h hframe hfits hparameters (by omega), hbody⟩

/-- The bytes in use are at most those that there are, which is what the frame says. -/
theorem bounds (h : env.Placed layout used limit) : 0 ≤ used ∧ used ≤ limit ∧
    (0 < env.depth → ∃ id frame, env.path.head? = some id ∧ layout.frames[id]? = some frame ∧
      limit = frame.localsSize - 8) := by
  induction h with
  | nil => exact ⟨le_rfl, le_rfl, fun h => absurd h (by simp)⟩
  | @parameters env used limit head frame outer hframe hfits hparameters hsize ih =>
      exact ⟨le_rfl, by omega, fun _ => ⟨head.id, frame, rfl, hframe, rfl⟩⟩
  | @definitions env used limit before after ds outer hused hplaced hlimit ih =>
      have hle := hplaced.before_le
      refine ⟨by omega, hlimit, fun hdepth => ih.2.2 ?_⟩
      rwa [depth_definitions] at hdepth

theorem suffix (h : env.Placed layout used limit) {home : Env} (hhome : home <:+ env) :
    ∃ used limit, home.Placed layout used limit := by
  induction h with
  | nil =>
      rw [List.suffix_nil] at hhome
      exact ⟨0, 0, hhome ▸ .nil⟩
  | parameters outer hframe hfits hparameters hsize ih =>
      rcases List.suffix_cons_iff.mp hhome with rfl | hhome
      · exact ⟨_, _, .parameters outer hframe hfits hparameters hsize⟩
      · exact ih hhome
  | definitions outer hused hplaced hlimit ih =>
      rcases List.suffix_cons_iff.mp hhome with rfl | hhome
      · exact ⟨_, _, .definitions outer hused hplaced hlimit⟩
      · exact ih hhome

end Env.Placed

/-! ## Names -/

theorem mem_entities_function {ds : List Definition} {name : String} {head : FunctionHead}
    {body : List Statement}
    (h : (name, Entity.function head body) ∈ (Region.definitions ds).entities) :
    Definition.func head body ∈ ds ∧ name = head.name.text := by
  obtain ⟨d, hd, heq⟩ := List.mem_map.mp h
  cases d with
  | var head => cases heq
  | func head body =>
      cases heq
      exact ⟨hd, rfl⟩

theorem mem_entities_variable {ds : List Definition} {name : String} {id : NodeId}
    (h : (name, Entity.variable id) ∈ (Region.definitions ds).entities) :
    ∃ head, Definition.var head ∈ ds ∧ name = head.name.text ∧ id = head.id := by
  obtain ⟨d, hd, heq⟩ := List.mem_map.mp h
  cases d with
  | var head =>
      cases heq
      exact ⟨head, hd, rfl, rfl⟩
  | func head body => cases heq

/-- Where a variable stands, seen from a function: at an offset in the frame that so many static
links lead to, or at a label. -/
inductive Place where
  | slot (hops : Nat) (offset : Int)
  | global (label : String)

def Place.code : Place → List Instruction
  | slot hops offset => frameAddress hops ++ [.push (.ofInt offset), .oper .add]
  | global label => [.name label]

inductive Env.Finds (layout : Layout) (env : Env) (name : String) : Place → Prop
  | global {meaning : Meaning} {id : NodeId} {label : String} {size : Int} {contents : Contents}
      (hfind : env.find? name = some meaning) (hentity : meaning.entity = .variable id)
      (hdepth : meaning.home.depth = 0)
      (haccess : layout.accesses[id]? = some (.absolute label size contents)) :
      Finds layout env name (.global label)
  | slot {meaning : Meaning} {id : NodeId} {offset size : Int} {contents : Option Contents}
      (hfind : env.find? name = some meaning) (hentity : meaning.entity = .variable id)
      (hdepth : 0 < meaning.home.depth)
      (haccess : layout.accesses[id]?
        = some (.relative offset meaning.home.depth size contents)) :
      Finds layout env name (.slot meaning.hops offset)

namespace Env.Placed

variable {layout : Layout} {env : Env} {used limit : Int}

/-- Variables at the top level stand at labels, all others in frames of the function around them. -/
theorem access (h : env.Placed layout used limit) {name : String} {meaning : Meaning} {id : NodeId}
    (hfind : env.find? name = some meaning) (hentity : meaning.entity = .variable id) :
    (meaning.home.depth = 0 ∧ ∃ label size contents,
        layout.accesses[id]? = some (.absolute label size contents)) ∨
      (0 < meaning.home.depth ∧ ∃ offset size contents,
        layout.accesses[id]? = some (.relative offset meaning.home.depth size contents)) := by
  obtain ⟨region, outer, hhome, hlookup⟩ := Env.find?_region hfind
  obtain ⟨used', limit', hplaced⟩ := h.suffix (Env.find?_home hfind).1
  rw [hentity] at hlookup
  rw [hhome] at hplaced ⊢
  have hmem := mem_of_lookup hlookup
  cases hplaced with
  | parameters houter hframe hfits hparameters hsize =>
      obtain ⟨p, hp, heq⟩ := List.mem_map.mp hmem
      cases heq
      obtain ⟨offset, haccess, _⟩ := hparameters.mem hp
      exact .inr ⟨by simp, offset, 4, none, by rw [haccess, depth_parameters]⟩
  | definitions houter hused hds hlimit =>
      obtain ⟨head, hd, _, rfl⟩ := mem_entities_variable hmem
      obtain ⟨before, after, ⟨_, hvariable⟩, _⟩ := hds.mem hd
      rw [depth_definitions]
      split at hvariable
      · rename_i hzero
        exact .inl ⟨hzero, _, _, _, hvariable.1⟩
      · exact .inr ⟨by omega, _, _, _, hvariable.1⟩

/-- The function that a name means has a frame, and so has everything inside it. -/
theorem callee (h : env.Placed layout used limit) {name : String} {meaning : Meaning}
    {head : FunctionHead} {body : List Statement} (hfind : env.find? name = some meaning)
    (hentity : meaning.entity = .function head body) :
    ∃ frame, layout.frames[head.id]? = some frame ∧ frame.Fits meaning.home.depth head ∧
      Placed layout (.parameters head :: meaning.home) 0 (frame.localsSize - 8) ∧
      PlacedStatements layout (meaning.home.depth + 1) 0 (frame.localsSize - 8) body := by
  obtain ⟨region, outer, hhome, hlookup⟩ := Env.find?_region hfind
  obtain ⟨used', limit', hplaced⟩ := h.suffix (Env.find?_home hfind).1
  rw [hentity] at hlookup
  have hmem := mem_of_lookup hlookup
  rw [hhome] at hplaced ⊢
  cases hplaced with
  | parameters houter hframe hfits hparameters hsize =>
      obtain ⟨p, hp, heq⟩ := List.mem_map.mp hmem
      cases heq
  | definitions houter hused hds hlimit =>
      obtain ⟨before, after, hd, _⟩ := hds.mem (mem_entities_function hmem).1
      exact enter (.definitions houter hused hds hlimit) (by rwa [depth_definitions])

end Env.Placed

end NestedFun
