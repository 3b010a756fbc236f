import NestedFun.Scope.Basic
import Mathlib.Tactic

namespace NestedFun

/-!
# Lexical environments

What surrounds a place in a program, the innermost first. A name means what the innermost region
that has it says; how many functions lie between the name and its definition is counted on the way.
-/

/-- The parameters of a function, or definitions that see one another. -/
inductive Region where
  | parameters (head : FunctionHead)
  | definitions (definitions : List Definition)

inductive Entity where
  | variable (id : NodeId)
  | function (head : FunctionHead) (body : List Statement)

def Definition.entity : Definition → Entity
  | .func head body => .function head body
  | .var head => .variable head.id

namespace Region

def entities : Region → List (String × Entity)
  | parameters head =>
    head.parameters.map fun parameter => (parameter.name.text, .variable parameter.id)
  | definitions ds => ds.map fun definition => (definition.name.text, definition.entity)

/-- How many functions are left with a region. -/
def crossing : Region → Nat
  | parameters _ => 1
  | definitions _ => 0

end Region

/-- Regions around a place, the innermost first; the last holds the whole program. -/
abbrev Env := List Region

/-- What a name means: how many functions further out it is defined, what it stands for, and the
regions around its definition. -/
structure Meaning where
  hops : Nat
  entity : Entity
  home : Env

namespace Env

/-- How many functions surround a place. -/
def depth (env : Env) : Nat := (env.map Region.crossing).sum

def path : Env → List NodeId
  | [] => []
  | .parameters head :: env => head.id :: path env
  | .definitions _ :: env => path env

def find? : Env → String → Option Meaning
  | [], _ => none
  | region :: env, name =>
    match region.entities.lookup name with
    | some entity => some ⟨0, entity, region :: env⟩
    | none =>
      (find? env name).map fun meaning => { meaning with hops := meaning.hops + region.crossing }

@[simp] theorem depth_nil : depth [] = 0 := rfl

@[simp] theorem depth_parameters (head : FunctionHead) (env : Env) :
    depth (.parameters head :: env) = env.depth + 1 := by
  simp [depth, Region.crossing, Nat.add_comm]

@[simp] theorem depth_definitions (ds : List Definition) (env : Env) :
    depth (.definitions ds :: env) = env.depth := by
  simp [depth, Region.crossing]

theorem depth_cons (region : Region) (env : Env) :
    depth (region :: env) = region.crossing + env.depth := rfl

theorem depth_append (env env' : Env) : depth (env ++ env') = env.depth + env'.depth := by
  simp [depth]

theorem length_path (env : Env) : env.path.length = env.depth := by
  induction env with
  | nil => rfl
  | cons region env ih => cases region <;> simp [path, ih]

/-- The environment in which a name is defined surrounds the place of the name. -/
theorem find?_home {env : Env} {name : String} {meaning : Meaning}
    (h : env.find? name = some meaning) :
    meaning.home <:+ env ∧ env.depth = meaning.hops + meaning.home.depth ∧
      env.path.drop meaning.hops = meaning.home.path := by
  induction env generalizing meaning with
  | nil => cases h
  | cons region env ih =>
      rw [find?] at h
      split at h
      · cases h
        exact ⟨List.suffix_refl _, (Nat.zero_add _).symm, rfl⟩
      · obtain ⟨inner, hinner, rfl⟩ := Option.map_eq_some_iff.mp h
        obtain ⟨hsuffix, hdepth, hpath⟩ := ih hinner
        refine ⟨hsuffix.trans (List.suffix_cons region env), ?_, ?_⟩
        · rw [depth_cons, hdepth]
          show _ = inner.hops + region.crossing + inner.home.depth
          omega
        · cases region with
          | parameters head => exact hpath
          | definitions ds => exact hpath

/-- A name is found in the first region of the environment of its definition. -/
theorem find?_region {env : Env} {name : String} {meaning : Meaning}
    (h : env.find? name = some meaning) :
    ∃ region outer, meaning.home = region :: outer ∧
      region.entities.lookup name = some meaning.entity := by
  induction env generalizing meaning with
  | nil => cases h
  | cons region env ih =>
      rw [find?] at h
      split at h
      · rename_i entity hlookup
        cases h
        exact ⟨region, env, rfl, hlookup⟩
      · obtain ⟨inner, hinner, rfl⟩ := Option.map_eq_some_iff.mp h
        exact @ih inner hinner

end Env

theorem mem_of_lookup {β : Type} {xs : List (String × β)} {name : String} {b : β}
    (h : xs.lookup name = some b) : (name, b) ∈ xs := by
  induction xs with
  | nil => cases h
  | cons x xs ih =>
      rw [List.lookup_cons] at h
      split at h
      · rename_i heq
        cases h
        rw [eq_of_beq heq]
        exact List.mem_cons_self
      · exact List.mem_cons_of_mem _ (ih h)

/-- In a list of pairs with distinct first parts every pair is found. -/
theorem lookup_of_mem {β : Type} {xs : List (String × β)} {name : String} {b : β}
    (hnodup : (xs.map Prod.fst).Nodup) (h : (name, b) ∈ xs) : xs.lookup name = some b := by
  induction xs with
  | nil => cases h
  | cons x xs ih =>
      rw [List.map_cons, List.nodup_cons] at hnodup
      rw [List.lookup_cons]
      rcases List.mem_cons.mp h with rfl | h
      · simp
      · have hne : (name == x.1) = false := by
          rw [beq_eq_false_iff_ne]
          rintro rfl
          exact hnodup.1 (List.mem_map.mpr ⟨_, h, rfl⟩)
        rw [hne]
        exact ih hnodup.2 h

theorem lookup_eq_none {β : Type} {xs : List (String × β)} {name : String} :
    xs.lookup name = none ↔ name ∉ xs.map Prod.fst := by
  induction xs with
  | nil => simp
  | cons x xs ih =>
      rw [List.lookup_cons, List.map_cons, List.mem_cons, not_or]
      split
      · rename_i heq
        simp [eq_of_beq heq]
      · rename_i heq
        rw [ih]
        simp only [beq_eq_false_iff_ne] at heq
        simp [heq]

end NestedFun
