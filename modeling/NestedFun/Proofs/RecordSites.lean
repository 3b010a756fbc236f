import NestedFun.Proofs.Control
import NestedFun.Proofs.Evaluation

namespace NestedFun

/-!
# Where records stand in memory

Every record around a place has its variables in a frame or among the data. The words of different
variables are apart from one another, from the links between the frames and from their headers, so
that an assignment changes nothing else.
-/

/-- The address of the word of what a name stands for, if it is a variable, in a frame. -/
def Entity.site? (T : Target) (image : Image) (a : Int) : Entity → Option Int
  | .function _ _ => none
  | .variable id =>
    match T.layout.accesses[id]? with
    | some (.relative offset _ _ _) => some (a + offset)
    | some (.absolute label _ _) => (image.labels[label]?).map Int32.toInt
    | none => none

namespace Region

variable (T : Target) (image : Image) (a : Int)

def sites (region : Region) : List Int :=
  region.entities.filterMap fun entry => entry.2.site? T image a

def HasByte (region : Region) (i : Int) : Prop := ∃ x ∈ region.sites T image a, Memory.Block x 4 i

/-- The variables of a region have their words between two addresses, apart from one another. -/
structure Sited (region : Region) (low high : Int) : Prop where
  defined : ∀ entry ∈ region.entities, ∀ id, entry.2 = .variable id →
    ∃ x, entry.2.site? T image a = some x
  within : ∀ x ∈ region.sites T image a, low ≤ x ∧ x + 4 ≤ high
  apart : (region.sites T image a).Pairwise fun x y => x + 4 ≤ y ∨ y + 4 ≤ x

end Region

theorem Region.Sited.bounds {T : Target} {image : Image} {a low high : Int} {region : Region}
    (h : region.Sited T image a low high) {i : Int} (hi : region.HasByte T image a i) :
    low ≤ i ∧ i < high := by
  obtain ⟨x, hx, hblock⟩ := hi
  have hwithin := h.within x hx
  simp only [Memory.Block] at hblock
  omega

abbrev Site := Region × Int

section

variable (T : Target) (segments : Segments) (image : Image)

def HasByte (sites : List Site) (i : Int) : Prop := ∃ p ∈ sites, p.1.HasByte T image p.2 i

/-- The regions around a place with their frames, from the current frame on. Below its header, which
ends at `anchor`, so many bytes are used by the regions, of all those that the frame has. Every
frame starts with the address of the next one. -/
inductive Sited (m : Memory) : List Site → Int → Int → Int → Prop
  | top {ds : List Definition}
      (hregion : (Region.definitions ds).Sited T image 0 (Code.size segments.code) segments.dataStop)
      (hreserved : ∀ i, (Region.definitions ds).HasByte T image 0 i → segments.Reserves i)
      (hstart : Code.size segments.code ≤ segments.dataStop)
      (hsize : segments.dataStop ≤ m.size) : Sited m [(.definitions ds, 0)] m.size 0 0
  | parameters {r : Region} {b a anchor used limit : Int} {sites : List Site} {head : FunctionHead}
      {frame : Frame} (outer : Sited m ((r, b) :: sites) anchor used limit)
      (hframe : T.layout.frames[head.id]? = some frame) (hlocals : 8 ≤ frame.localsSize)
      (hparameters : 4 ≤ frame.parametersSize)
      (hregion : (Region.parameters head).Sited T image a (a + 4) (a + frame.parametersSize))
      (hlink : m.word a = .ofInt b) (hhigh : a + frame.parametersSize ≤ anchor - limit)
      (hlow : segments.dataStop ≤ a - frame.localsSize) :
      Sited m ((.parameters head, a) :: (r, b) :: sites) (a - 8) 0 (frame.localsSize - 8)
  | definitions {r : Region} {a anchor used limit before after : Int} {sites : List Site}
      {ds : List Definition} (outer : Sited m ((r, a) :: sites) anchor used limit)
      (hanchor : anchor = a - 8) (hused : used ≤ before) (hle : before ≤ after)
      (hlimit : after ≤ limit)
      (hregion : (Region.definitions ds).Sited T image a (anchor - after) (anchor - before)) :
      Sited m ((.definitions ds, a) :: (r, a) :: sites) anchor after limit

/-- A byte that code may change: one of the free part of the stack or of a variable. -/
def Changes (sites : List Site) (top : Int) (i : Int) : Prop :=
  (segments.dataStop ≤ i ∧ i < top) ∨ HasByte T image sites i

end

theorem hasByte_cons {T : Target} {image : Image} {p : Site} {sites : List Site} {i : Int} :
    HasByte T image (p :: sites) i ↔ p.1.HasByte T image p.2 i ∨ HasByte T image sites i := by
  simp [HasByte]

theorem hasByte_append {T : Target} {image : Image} {sites sites' : List Site} {i : Int} :
    HasByte T image (sites ++ sites') i ↔ HasByte T image sites i ∨ HasByte T image sites' i := by
  simp [HasByte, or_and_right, exists_or]

namespace Sited

variable {T : Target} {segments : Segments} {image : Image} {m m' : Memory} {r : Region}
  {p : Site} {sites : List Site} {a anchor used limit : Int}

theorem bounds (h : Sited T segments image m sites anchor used limit) :
    0 ≤ used ∧ used ≤ limit ∧ 0 ≤ segments.dataStop ∧ segments.dataStop ≤ anchor - limit ∧
      anchor ≤ m.size := by
  induction h with
  | top hregion hreserved hstart hsize =>
      have hcode := Code.size_nonneg segments.code
      exact ⟨le_rfl, le_rfl, by omega, by omega, le_rfl⟩
  | parameters outer hframe hlocals hparameters hregion hlink hhigh hlow ih =>
      exact ⟨le_rfl, by omega, by omega, by omega, by omega⟩
  | definitions outer hanchor hused hle hlimit hregion ih =>
      exact ⟨by omega, by omega, by omega, by omega, by omega⟩

/-- The bytes of variables stand among the data or above the free part of the stack. -/
theorem hasByte_bounds (h : Sited T segments image m sites anchor used limit) {i : Int}
    (hi : HasByte T image sites i) : (segments.Reserves i ∧ Code.size segments.code ≤ i ∧
      i < segments.dataStop) ∨ (anchor - used ≤ i ∧ i < m.size) := by
  induction h with
  | top hregion hreserved hstart hsize =>
      rcases hasByte_cons.mp hi with hi | ⟨p, hp, _⟩
      · exact .inl ⟨hreserved i hi, hregion.bounds hi⟩
      · cases hp
  | parameters outer hframe hlocals hparameters hregion hlink hhigh hlow ih =>
      have houter := outer.bounds
      rcases hasByte_cons.mp hi with hi | hi
      · have hbounds := hregion.bounds hi
        exact .inr ⟨by omega, by omega⟩
      · rcases ih hi with hi | hi
        · exact .inl hi
        · exact .inr ⟨by omega, hi.2⟩
  | definitions outer hanchor hused hle hlimit hregion ih =>
      have houter := outer.bounds
      rcases hasByte_cons.mp hi with hi | hi
      · have hbounds := hregion.bounds hi
        exact .inr ⟨by omega, by omega⟩
      · rcases ih hi with hi | hi
        · exact .inl hi
        · exact .inr ⟨by omega, hi.2⟩

/-- No byte belongs to variables of different regions. -/
theorem disjoint (h : Sited T segments image m (p :: sites) anchor used limit) {i : Int}
    (hi : p.1.HasByte T image p.2 i) : ¬ HasByte T image sites i := by
  intro hi'
  cases h with
  | top hregion hreserved hstart hsize =>
      obtain ⟨p, hp, _⟩ := hi'
      cases hp
  | parameters outer hframe hlocals hparameters hregion hlink hhigh hlow =>
      have houter := outer.bounds
      have hbounds := hregion.bounds hi
      rcases outer.hasByte_bounds hi' with hi' | hi' <;> omega
  | definitions outer hanchor hused hle hlimit hregion =>
      have houter := outer.bounds
      have hbounds := hregion.bounds hi
      rcases outer.hasByte_bounds hi' with hi' | hi' <;> omega

/-- Code in an inner block changes nothing that code around it may not change. -/
theorem changes_of_definitions {before after : Int} {ds : List Definition}
    (hused : used ≤ before) (hle : before ≤ after) (hlow : segments.dataStop ≤ anchor - after)
    (hregion : (Region.definitions ds).Sited T image a (anchor - after) (anchor - before)) {i : Int}
    (hi : Changes T segments image ((.definitions ds, a) :: sites) (anchor - after) i) :
    Changes T segments image sites (anchor - used) i := by
  rcases hi with hi | hi
  · exact .inl ⟨hi.1, by omega⟩
  · rcases hasByte_cons.mp hi with hi | hi
    · have hbounds := hregion.bounds hi
      exact .inl ⟨by omega, by omega⟩
    · exact .inr hi

/-- Nor does code in a function that is called. -/
theorem changes_of_parameters {head : FunctionHead} {stop top : Int}
    (hregion : (Region.parameters head).Sited T image a (a + 4) stop)
    (hlow : segments.dataStop ≤ a) (hstop : a + 4 ≤ stop) (htop : stop ≤ top) {i : Int}
    (hi : Changes T segments image ((.parameters head, a) :: sites) (a - 8) i) :
    Changes T segments image sites top i := by
  rcases hi with hi | hi
  · exact .inl ⟨hi.1, by omega⟩
  · rcases hasByte_cons.mp hi with hi | hi
    · have hbounds := hregion.bounds hi
      exact .inl ⟨by omega, by omega⟩
    · exact .inr hi

/-- The header and the link of a frame do not change. -/
theorem not_changes_header {head : FunctionHead}
    (h : Sited T segments image m ((.parameters head, a) :: sites) anchor used limit) {i : Int}
    (hlow : a - 8 ≤ i) (hhigh : i < a + 4) :
    ¬ Changes T segments image ((.parameters head, a) :: sites) (anchor - used) i := by
  cases h with
  | parameters outer hframe hlocals hparameters hregion hlink hstop hdata =>
      have houter := outer.bounds
      rintro (hi | hi)
      · omega
      · rcases hasByte_cons.mp hi with hi | hi
        · have hbounds := hregion.bounds hi
          omega
        · rcases outer.hasByte_bounds hi with hi | hi <;> omega

/-- Regions stay where they are when variables and the free part of the stack change. -/
theorem of_differs (h : Sited T segments image m sites anchor used limit)
    (hdiffers : Memory.Differs (Changes T segments image sites (anchor - used)) m m') :
    Sited T segments image m' sites anchor used limit := by
  induction h with
  | top hregion hreserved hstart hsize =>
      rw [← hdiffers.size_eq]
      exact .top hregion hreserved hstart (by rwa [hdiffers.size_eq])
  | @parameters r b a anchor used limit sites head frame outer hframe hlocals hparameters hregion
      hlink hhigh hlow ih =>
      have hall := Sited.parameters outer hframe hlocals hparameters hregion hlink hhigh hlow
      have houter := outer.bounds
      have hword : m'.word a = m.word a := by
        refine hdiffers.word_eq (by omega) fun i hi => ?_
        simp only [Memory.Block] at hi
        exact hall.not_changes_header (by omega) (by omega)
      refine .parameters (ih (hdiffers.mono fun i hi => ?_)) hframe hlocals hparameters hregion
        (hword.trans hlink) hhigh hlow
      exact changes_of_parameters hregion (by omega) (by omega) (by omega)
        (by rwa [sub_zero] at hi)
  | @definitions r a anchor used limit before after sites ds outer hanchor hused hle hlimit hregion
      ih =>
      have houter := outer.bounds
      refine .definitions (ih (hdiffers.mono fun i hi => ?_)) hanchor hused hle hlimit hregion
      exact changes_of_definitions hused hle (by omega) hregion hi

end Sited

namespace Sited

variable {T : Target} {segments : Segments} {image : Image} {m : Memory} {p q : Site}
  {front sites : List Site} {anchor used limit : Int}

/-- The regions further out have their places too, in frames that are not below. -/
theorem tail (h : Sited T segments image m (p :: q :: sites) anchor used limit) :
    ∃ anchor' used' limit', Sited T segments image m (q :: sites) anchor' used' limit' ∧
      anchor - limit ≤ anchor' - limit' := by
  cases h with
  | parameters outer hframe hlocals hparameters hregion hlink hhigh hlow =>
      exact ⟨_, _, _, outer, by omega⟩
  | definitions outer hanchor hused hle hlimit hregion => exact ⟨_, _, _, outer, le_rfl⟩

theorem tail_append (h : Sited T segments image m (q :: (front ++ p :: sites)) anchor used limit) :
    ∃ anchor' used' limit', Sited T segments image m (front ++ p :: sites) anchor' used' limit' ∧
      anchor - limit ≤ anchor' - limit' := by
  cases front with
  | nil => exact h.tail
  | cons r front => exact h.tail

theorem suffix (h : Sited T segments image m (front ++ p :: sites) anchor used limit) :
    ∃ anchor' used' limit', Sited T segments image m (p :: sites) anchor' used' limit' ∧
      anchor - limit ≤ anchor' - limit' := by
  induction front generalizing anchor used limit with
  | nil => exact ⟨_, _, _, h, le_rfl⟩
  | cons r front ih =>
      obtain ⟨_, _, _, hrest, hle⟩ := h.tail_append
      obtain ⟨_, _, _, hsuffix, hle'⟩ := ih hrest
      exact ⟨_, _, _, hsuffix, hle.trans hle'⟩

/-- No byte belongs to variables of a region and of one further out. -/
theorem disjoint_append (h : Sited T segments image m (front ++ p :: sites) anchor used limit)
    {i : Int} (hi : HasByte T image front i) : ¬ HasByte T image (p :: sites) i := by
  induction front generalizing anchor used limit with
  | nil =>
      obtain ⟨q, hq, _⟩ := hi
      cases hq
  | cons r front ih =>
      rcases hasByte_cons.mp hi with hi | hi
      · have hrest : ¬ HasByte T image (front ++ p :: sites) i := h.disjoint hi
        rw [hasByte_append] at hrest
        exact fun hi' => hrest (.inr hi')
      · obtain ⟨_, _, _, hrest, -⟩ := h.tail_append
        exact ih hrest hi

/-- Variables have their words in memory. -/
theorem word_bounds (h : Sited T segments image m sites anchor used limit) (hp : p ∈ sites)
    {x : Int} (hx : x ∈ p.1.sites T image p.2) : Code.size segments.code ≤ x ∧ x + 4 ≤ m.size ∧
      ∀ i, Memory.Block x 4 i → HasByte T image sites i := by
  have hall : ∀ i, Memory.Block x 4 i → HasByte T image sites i := fun i hi => ⟨p, hp, x, hx, hi⟩
  have hbounds := h.bounds
  have hcode : Code.size segments.code ≤ segments.dataStop := by
    clear hall hbounds hp
    induction h with
    | top hregion hreserved hstart hsize => exact hstart
    | parameters outer hframe hlocals hparameters hregion hlink hhigh hlow ih => exact ih
    | definitions outer hanchor hused hle hlimit hregion ih => exact ih
  have hfirst := h.hasByte_bounds (hall x ⟨le_rfl, by omega⟩)
  have hlast := h.hasByte_bounds (hall (x + 3) ⟨by omega, by omega⟩)
  exact ⟨by omega, by omega, hall⟩

end Sited

/-- In a function the current frame stands above the header at the anchor. -/
theorem Sited.frame_eq {T : Target} {segments : Segments} {image : Image} {m : Memory} {p : Site}
    {sites : List Site} {anchor used limit : Int}
    (h : Sited T segments image m (p :: sites) anchor used limit)
    (hdepth : 0 < Env.depth ((p :: sites).map Prod.fst)) : p.2 = anchor + 8 := by
  cases h with
  | top hregion hreserved hstart hsize => exact absurd hdepth (by simp)
  | parameters outer hframe hlocals hparameters hregion hlink hhigh hlow => exact (sub_add_cancel _ _).symm
  | definitions outer hanchor hused hle hlimit hregion =>
      rw [hanchor]
      exact (sub_add_cancel _ _).symm

end NestedFun
