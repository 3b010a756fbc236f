import NestedFun.Proofs.OperandSteps

namespace NestedFun

/-!
# Access to variables

The code for a name follows the links to the frame that has the variable, or names its label. Loading
from there reads what the records say, and saving there assigns.
-/

section

variable {T : Target} {program : Program} {segments : Segments} {image : Image}
  {sites front tail rest : List Site} {p q : Site} {anchor used limit pc : Int} {σ : List Word}
  {store : Store} {s : State} {more : Code} {span : Span} {name : String}

namespace Ready

/-- Links are followed. -/
theorem moves_links (h : Ready T segments image sites anchor used limit pc (.ofInt q.2 :: σ) store s)
    (hfits : ∀ d ∈ segments.data, d.item.Fits) (hsuffix : q :: rest <:+ sites)
    (hsplit : q :: rest = front ++ p :: tail)
    (hcode : image.Holds pc
      (Code.spanning span (List.replicate (Env.depth (front.map Prod.fst)) .load) ++ more)) :
    Moves T segments image sites anchor used limit 0 s
      (pc + Code.size (Code.spanning span (List.replicate (Env.depth (front.map Prod.fst)) .load)))
      (.ofInt p.2 :: σ) store := by
  induction front generalizing q rest pc s with
  | nil =>
      cases hsplit
      rw [show pc + Code.size (Code.spanning span
        (List.replicate (Env.depth (List.map Prod.fst ([] : List Site))) .load)) = pc from add_zero pc]
      exact .refl h
  | cons r front ih =>
      obtain ⟨rfl, htail⟩ := List.cons.inj hsplit
      obtain ⟨q', rest', hrest⟩ : ∃ q' rest', q' :: rest' = front ++ p :: tail := by
        cases front with
        | nil => exact ⟨_, _, rfl⟩
        | cons r' front => exact ⟨_, _, rfl⟩
      rw [htail.trans hrest.symm] at hsuffix
      have hsuffix' := (List.suffix_cons q (q' :: rest')).trans hsuffix
      obtain ⟨outside, hsites⟩ := hsuffix
      have hsited := h.sited
      rw [← hsites] at hsited
      obtain ⟨_, _, _, hsited, hle⟩ := hsited.suffix
      cases hsited with
      | parameters outer hframe hlocals hparameters hregion hlink hhigh hlow =>
          obtain ⟨h₀, hdata, hheap, hused, hlimit, hsize⟩ := h.room
          have hstart := h.stack.start_le
          have houter := outer.bounds
          rw [List.length_cons] at hheap
          rw [List.map_cons, Env.depth_parameters] at hcode ⊢
          have hload := h.moves_load hfits hcode (by omega) (by omega)
          rw [hlink] at hload
          have hrest' := hload.trans fun s' hs' => ih (q := (_, _)) hs' hsuffix' hrest
            ((image.holds_cons pc _ _).mp hcode).2
          rw [max_self, add_assoc] at hrest'
          exact hrest'
      | @definitions r a _ _ _ _ _ _ _ outer hanchor hused hle' hlimit hregion =>
          rw [List.map_cons, Env.depth_definitions] at hcode ⊢
          exact ih (q := (r, a)) h hsuffix' hrest hcode

/-- The address of the frame of a region around the place is pushed. -/
theorem moves_frameAddress (h : Ready T segments image sites anchor used limit pc σ store s)
    (hfits : ∀ d ∈ segments.data, d.item.Fits) (hdepth : 0 < Env.depth (sites.map Prod.fst))
    (hsplit : sites = front ++ p :: tail)
    (hcode : image.Holds pc
      (Code.spanning span (frameAddress (Env.depth (front.map Prod.fst))) ++ more)) :
    Moves T segments image sites anchor used limit (4 * σ.length + 4) s
      (pc + Code.size (Code.spanning span (frameAddress (Env.depth (front.map Prod.fst)))))
      (.ofInt p.2 :: σ) store := by
  obtain ⟨q, rest, hsites⟩ : ∃ q rest, sites = q :: rest := by
    cases sites with
    | nil => exact absurd hdepth (by simp)
    | cons q rest => exact ⟨q, rest, rfl⟩
  have hfp : s.fp = .ofInt q.2 := by
    have hsited := h.sited
    rw [hsites] at hsited hdepth
    rw [hsited.frame_eq hdepth]
    exact h.fp_eq (hsites ▸ hdepth)
  have hregn := h.moves_regn hfits hcode
  rw [hfp] at hregn
  have hsuffix : q :: rest <:+ sites := hsites ▸ List.suffix_refl _
  have hlinks := hregn.trans fun s' hs' => hs'.moves_links hfits hsuffix (hsites.symm.trans hsplit)
    ((image.holds_cons pc _ _).mp hcode).2
  rw [max_eq_left (by omega), add_assoc] at hlinks
  exact hlinks

end Ready

def Place.words : Place → Int
  | slot _ _ => 2
  | global _ => 1

theorem Place.words_pos (place : Place) : 0 < place.words := by
  cases place with
  | slot hops offset => exact two_pos
  | global label => exact one_pos

/-- A name stands for a variable: among the records it has a value, and among the sites a word. -/
structure Locates (T : Target) (image : Image) (sites : List Site) (records : List Record)
    (name : String) (front : List Site) (p : Site) (x : Int) (w : Word) : Prop where
  split : ∃ tail, sites = front ++ p :: tail
  site : ∃ id, p.1.entities.lookup name = some (.variable id) ∧
    (Entity.variable id).site? T image p.2 = some x
  value : ∃ inner outer, splitAt? records name = some (inner, .value w, outer) ∧
    front.length = inner.length

/-- What a place found for a name means in memory. -/
theorem Sited.locate {m : Memory} {records : List Record} {place : Place}
    (h : Sited T segments image m sites anchor used limit)
    (hfits : RecordsFit (sites.map Prod.fst) records)
    (hplace : Env.Finds T.layout (sites.map Prod.fst) name place) :
    ∃ front p x w, Locates T image sites records name front p x w ∧
      ((∃ offset, place = .slot (Env.depth (front.map Prod.fst)) offset ∧ x = p.2 + offset) ∨
        ∃ label, place = .global label ∧ image.labels[label]? = some (.ofInt x)) := by
  obtain ⟨meaning, id, hfind, hentity⟩ : ∃ meaning id,
      Env.find? (sites.map Prod.fst) name = some meaning ∧ meaning.entity = .variable id := by
    cases hplace with
    | global hfind hentity => exact ⟨_, _, hfind, hentity⟩
    | slot hfind hentity => exact ⟨_, _, hfind, hentity⟩
  obtain ⟨front, inner, cell, outer, henv, rfl, hsplit, hfront, houter, hcell⟩ := hfits.splitAt? hfind
  obtain ⟨region, home, hhome, hlookup⟩ := Env.find?_region hfind
  obtain ⟨-, hdepth, -⟩ := Env.find?_home hfind
  obtain ⟨fronts, back, rfl, hfronts, hback⟩ := List.map_eq_append_iff.mp henv
  rw [hhome] at hback
  obtain ⟨p, tail, rfl, hp, htail⟩ := List.map_eq_cons_iff.mp hback
  subst hp
  rw [hentity] at hlookup hcell
  cases cell with
  | function head body => exact hcell.elim
  | value w =>
      have hlength : fronts.length = inner.length := by
        rw [← hfront.length_eq, ← hfronts, List.length_map]
      obtain ⟨_, _, _, hsited, -⟩ := h.suffix
      obtain ⟨low, high, hregion⟩ := hsited.region
      obtain ⟨x, hx⟩ := hregion.defined _ (mem_of_lookup hlookup) id rfl
      refine ⟨fronts, p, x, w, ⟨⟨tail, rfl⟩, ⟨id, hlookup, hx⟩, ⟨inner, outer, hsplit, hlength⟩⟩, ?_⟩
      cases hplace with
      | global hfind' hentity' hdepth' haccess =>
          cases hfind.symm.trans hfind'
          cases hentity.symm.trans hentity'
          rw [Entity.site?, haccess] at hx
          obtain ⟨v, hv, hvx⟩ := Option.map_eq_some_iff.mp hx
          refine .inr ⟨_, rfl, ?_⟩
          rw [hv, ← hvx, Word.ofInt_toInt]
      | slot hfind' hentity' hdepth' haccess =>
          cases hfind.symm.trans hfind'
          cases hentity.symm.trans hentity'
          rw [Entity.site?, haccess] at hx
          have hhops : meaning.hops = Env.depth (fronts.map Prod.fst) := by
            rw [henv, ← hfronts, Env.depth_append] at hdepth
            omega
          exact .inl ⟨_, by rw [hhops], (Option.some.inj hx).symm⟩

/-- The address of the variable that a name stands for is pushed. -/
theorem Ready.moves_place {place : Place} {x : Int} {w : Word}
    (h : Ready T segments image sites anchor used limit pc σ store s)
    (hfits : ∀ d ∈ segments.data, d.item.Fits) (hdepth : 0 < Env.depth (sites.map Prod.fst))
    (hlocates : Locates T image sites store.records name front p x w)
    (hplace : (∃ offset, place = .slot (Env.depth (front.map Prod.fst)) offset ∧ x = p.2 + offset) ∨
      ∃ label, place = .global label ∧ image.labels[label]? = some (.ofInt x))
    (hcode : image.Holds pc (Code.spanning span place.code ++ more)) :
    Moves T segments image sites anchor used limit (4 * σ.length + 4 * place.words) s
      (pc + Code.size (Code.spanning span place.code)) (.ofInt x :: σ) store := by
  obtain ⟨tail, hsplit⟩ := hlocates.split
  rcases hplace with ⟨offset, rfl, rfl⟩ | ⟨label, rfl, hl⟩
  · have hcode' : image.Holds pc
        (Code.spanning span (frameAddress (Env.depth (front.map Prod.fst))) ++
          (Code.spanning span [.push (.ofInt offset), .oper .add] ++ more)) := by
      simpa [Place.code, Code.spanning] using hcode
    have hframe := h.moves_frameAddress hfits hdepth hsplit hcode'
    rw [Image.holds_append] at hcode'
    have hpush := hframe.trans fun s' hs' => hs'.moves_push hfits hcode'.2
    have hadd := hpush.trans fun s' hs' => hs'.moves_binary (o := .add) (w := .ofInt (p.2 + offset))
      hfits ((image.holds_cons _ _ _).mp hcode'.2).2 rfl (by rw [Operator.apply, Word.ofInt_add])
    refine hadd.congr ?_ ?_
    · rw [List.length_cons, Place.words]
      push_cast
      omega
    · rw [Place.code, spanning_append, Code.size_append, add_assoc, add_assoc]
      rfl
  · have hname := h.moves_name hfits hcode hl
    exact hname.congr (by rw [Place.words, mul_one]) rfl

/-- The word of a variable is read. -/
theorem Ready.moves_read {x : Int} {w : Word}
    (h : Ready T segments image sites anchor used limit pc (.ofInt x :: σ) store s)
    (hfits : ∀ d ∈ segments.data, d.item.Fits)
    (hlocates : Locates T image sites store.records name front p x w)
    (hcode : image.Holds pc (⟨span, .load⟩ :: more)) :
    Moves T segments image sites anchor used limit 0 s (pc + Instruction.load.size) (w :: σ)
      store := by
  obtain ⟨tail, rfl⟩ := hlocates.split
  obtain ⟨id, hlookup, hx⟩ := hlocates.site
  obtain ⟨inner, outer, hsplit, hlength⟩ := hlocates.value
  have hstart := h.dataStart_eq
  obtain ⟨hlow, hhigh, -⟩ := h.sited.word_bounds (p := p) (by simp)
    (List.mem_filterMap.mpr ⟨_, mem_of_lookup hlookup, hx⟩)
  have hload := h.moves_load hfits hcode (by omega) hhigh
  rwa [h.holds.read hlength hsplit hlookup hx] at hload

/-- A word is saved in a variable. -/
theorem Ready.moves_save {x : Int} {v w : Word}
    (h : Ready T segments image sites anchor used limit pc (.ofInt x :: w :: σ) store s)
    (hfits : ∀ d ∈ segments.data, d.item.Fits)
    (hlocates : Locates T image sites store.records name front p x v)
    (hcode : image.Holds pc (⟨span, .save⟩ :: more)) :
    Moves T segments image sites anchor used limit 0 s (pc + Instruction.save.size) σ
      { store with records := assignIn name w store.records } := by
  obtain ⟨tail, rfl⟩ := hlocates.split
  obtain ⟨id, hlookup, hx⟩ := hlocates.site
  obtain ⟨inner, outer, hsplit, hlength⟩ := hlocates.value
  obtain ⟨h₀, hdata, hheap, hused, hle, hsize⟩ := h.room
  obtain ⟨hlow, hhigh, hbytes⟩ := h.sited.word_bounds (p := p) (by simp)
    (List.mem_filterMap.mpr ⟨_, mem_of_lookup hlookup, hx⟩)
  have hcodeSize := Code.size_nonneg segments.code
  have hstack := h.stack
  obtain ⟨haddress, hw, hrest⟩ := h.words
  have hdataStart := h.dataStart_eq
  simp only [List.length_cons, Nat.cast_add, Nat.cast_one] at hstack haddress hw hrest hheap
  have hperform := Exec.perform_save image (hstack.advanced .save)
    (by show _ ≤ (s.memory.size : Int); omega) haddress (by show (s.memory.dataStart : Int) ≤ _; omega)
    hhigh
  have hdiffers := Memory.Differs.store s.memory (a := x) w (by omega)
  have hchanges : ∀ i, Memory.Block x 4 i →
      Changes T segments image (front ++ p :: tail) (anchor - used) i :=
    fun i hi => .inr (hbytes i hi)
  rw [show (s.advanced .save).memory.word _ = w from hw,
    show anchor - limit - 4 * ((σ.length : Int) + 1 + 1) + 8 = anchor - limit - 4 * σ.length by omega]
    at hperform
  refine .of_leads h (.of_step ((h.step_eq hcode nofun).trans hperform)) rfl ⟨?_, rfl, rfl, ?_⟩
  · constructor
    · exact h.advanced_pc .save
    · exact h.fp_eq
    · refine ⟨rfl, h.stack.start_le, ?_, ?_, ?_⟩
      · show s.heapEnd.toInt ≤ _
        omega
      · show _ ≤ ((s.memory.store x w).size : Int)
        rw [Memory.size_store]
        omega
      · show (s.memory.store x w).size < _
        rw [Memory.size_store]
        exact h.stack.size_lt
    · exact h.sited.of_differs (hdiffers.mono hchanges)
    · exact h.holds.assign h.sited hlength hsplit hlookup hx
    · refine Memory.HasWords.of_differs hdiffers (by omega) (fun i hi hi' => ?_)
        (by rwa [show anchor - limit - 4 * ((σ.length : Int) + 1 + 1) + 4 + 4
          = anchor - limit - 4 * σ.length by omega] at hrest)
      simp only [Memory.Block] at hi
      rcases h.sited.hasByte_bounds (hbytes i hi') with hi' | hi' <;> omega
    · refine h.intact.of_differs hfits hdiffers fun i hi => ?_
      rcases h.sited.hasByte_bounds (hbytes i hi) with hi | hi
      · exact .inl hi.1
      · exact .inr (by omega)
    · exact h.dataStart_eq
    · exact h.data_le
    · exact h.input_eq
    · exact h.output_eq
  · exact hdiffers.mono hchanges

theorem RecordsFit.splitAt?_variable {env : Env} {records : List Record}
    (h : RecordsFit env records) {layout : Layout} {place : Place}
    (hplace : env.Finds layout name place) :
    ∃ inner w outer, NestedFun.splitAt? records name = some (inner, .value w, outer) := by
  obtain ⟨meaning, id, hfind, hentity⟩ : ∃ meaning id,
      env.find? name = some meaning ∧ meaning.entity = .variable id := by
    cases hplace with
    | global hfind hentity => exact ⟨_, _, hfind, hentity⟩
    | slot hfind hentity => exact ⟨_, _, hfind, hentity⟩
  obtain ⟨front, inner, cell, outer, -, -, hsplit, -, -, hcell⟩ := h.splitAt? hfind
  rw [hentity] at hcell
  cases cell with
  | function head body => exact hcell.elim
  | value w => exact ⟨inner, w, outer, hsplit⟩

theorem Eval.readVariable_of_splitAt? {w : Word} {inner outer : List Record}
    (h : splitAt? store.records name = some (inner, .value w, outer)) :
    Eval.readVariable name store = .ok w store := by
  have hget : (get : Eval Store) store = .ok store store := rfl
  rw [Eval.readVariable, Eval.bind_eq, hget]
  simp only [h]
  rfl

/-- The code for a name reads the variable. -/
theorem Computes.read {n : Nat} {env : Env} {place : Place} (hdepth : 0 < env.depth)
    (hplace : env.Finds T.layout name place) :
    Computes T program segments n env used limit σ (Code.spanning span (place.code ++ [.load]))
      (Eval.readVariable name) (fun w => w :: σ) := by
  refine .of_moves fun store hrecords => ?_
  obtain ⟨inner, v, outer, hsplit⟩ := hrecords.splitAt?_variable hplace
  refine ⟨v, store, 4 * σ.length + 4 * place.words, ?_, hrecords, fun image sites anchor pc s hs => ?_⟩
  · exact Eval.readVariable_of_splitAt? hsplit
  · obtain rfl := hs.env_eq
    have hfits := hs.data_fits
    have hready := hs.ready
    have hcode := hs.holds
    obtain ⟨front, p, x, w, hlocates, hplaced⟩ := hready.sited.locate hrecords hplace
    obtain ⟨inner', outer', hsplit', -⟩ := hlocates.value
    cases hsplit.symm.trans hsplit'
    rw [spanning_append] at hcode
    have hmoves := hready.moves_place hfits hdepth hlocates hplaced hcode
    rw [Image.holds_append] at hcode
    have hpositive := place.words_pos
    refine (hmoves.trans fun s' hs' => hs'.moves_read hfits hlocates hcode.2).congr ?_ ?_
    · exact max_eq_left (by omega)
    · rw [spanning_append, Code.size_append, add_assoc]
      rfl

/-- The code that saves at a name assigns to the variable. -/
theorem Computes.assign {n : Nat} {env : Env} {place : Place} {w : Word} {span' : Span}
    (hdepth : 0 < env.depth) (hplace : env.Finds T.layout name place) :
    Computes T program segments n env used limit (w :: σ)
      (Code.spanning span place.code ++ Code.spanning span' [.save]) (Eval.assignVariable name w) (fun _ => σ) := by
  refine .of_moves fun store hrecords => ?_
  obtain ⟨inner, v, outer, hsplit⟩ := hrecords.splitAt?_variable hplace
  refine ⟨(), { store with records := assignIn name w store.records },
    4 * (w :: σ).length + 4 * place.words, rfl, hrecords.assignIn hsplit,
    fun image sites anchor pc s hs => ?_⟩
  obtain rfl := hs.env_eq
  have hfits := hs.data_fits
  have hready := hs.ready
  have hcode := hs.holds
  obtain ⟨front, p, x, v, hlocates, hplaced⟩ := hready.sited.locate hrecords hplace
  have hmoves := hready.moves_place hfits hdepth hlocates hplaced hcode
  rw [Image.holds_append] at hcode
  have hpositive := place.words_pos
  refine (hmoves.trans fun s' hs' => hs'.moves_save hfits hlocates hcode.2).congr ?_ ?_
  · exact max_eq_left (by omega)
  · rw [Code.size_append, add_assoc]
    rfl

end

end NestedFun
