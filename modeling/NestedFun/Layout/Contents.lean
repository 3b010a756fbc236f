import NestedFun.Tree.Basic

namespace NestedFun

/-!
# Initial contents of variables

The initializers of a variable are encoded as words: the number of groups, then for every group how
often it is repeated, how many values it has, and the values. The machine expands the encoding into
the words of the variable.
-/

structure Contents where
  words : List Word
deriving DecidableEq

def Initializer.encode (initializer : Initializer) : List Word :=
  let values := initializer.value.words
  initializer.repeats :: Word.ofInt values.length :: values

/-- How often a group is repeated, and its values. -/
structure Group where
  repeats : Word
  values : List Word
deriving DecidableEq

/-- Splits words into groups. A length that is negative or too large is taken for the nearest one
that is possible, and a last word alone is no group. -/
def splitGroups : List Word → List Group
  | repeats :: length :: rest =>
    let count := length.toInt.toNat
    ⟨repeats, rest.take count⟩ :: splitGroups (rest.drop count)
  | _ => []
termination_by words => words.length
decreasing_by
  simp only [List.length_cons, List.length_drop]
  omega

/-- How many of so many words behind a length belong to its group. The words are counted by a word
themselves, and if that comes out negative there is no answer. -/
def valuesTaken? (length : Word) (left : Nat) : Option Nat :=
  let most := (Word.ofInt left).toInt
  if most < 0 then none else some (max 0 (min length.toInt most)).toNat

/-- `splitGroups` where the words that are left have to be counted. -/
def splitGroups? : List Word → Option (List Group)
  | repeats :: length :: rest => do
    let count ← valuesTaken? length rest.length
    return ⟨repeats, rest.take count⟩ :: (← splitGroups? (rest.drop count))
  | _ => some []
termination_by words => words.length
decreasing_by
  simp only [List.length_cons, List.length_drop]
  omega

/-- The bytes that a group expands to, as long as the numbers fit words. -/
def Group.size? (group : Group) : Option Int := do
  let count ← checked? (group.repeats.toInt * group.values.length)
  checked? (count * wordSize)

/-- The words that a group expands to; a group without values has none, however often it is
repeated. -/
def Group.expand (group : Group) : List Word :=
  if group.values.isEmpty then []
  else (List.replicate group.repeats.toInt.toNat group.values).flatten

namespace Contents

def ofVariable (head : Variable) : Contents :=
  ⟨Word.ofInt head.initializers.length :: head.initializers.flatMap Initializer.encode⟩

def groups (contents : Contents) : List Group :=
  splitGroups (contents.words.drop 1)

def groups? (contents : Contents) : Option (List Group) :=
  splitGroups? (contents.words.drop 1)

/-- The bytes that the contents expand to, as long as the words can be counted and the sizes on the
way fit words. -/
def size? (contents : Contents) : Option Int := do
  (← contents.groups?).foldlM (fun total group => do checked? (total + (← group.size?))) 0

/-- The words that the contents expand to, in memory order. -/
def expand (contents : Contents) : List Word :=
  contents.groups.flatMap Group.expand

def display (contents : Contents) : String :=
  Word.listing contents.words

end Contents

end NestedFun
