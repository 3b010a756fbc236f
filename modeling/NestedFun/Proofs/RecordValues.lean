import NestedFun.Proofs.RecordSites

namespace NestedFun

/-!
# Values of records in memory

Records fit the regions around a place if they declare the same names, and hold in a memory if their
values are the words of the variables. What a name stands for is found in both in the same way, and
an assignment changes both in the same way.
-/

theorem lookup_forall₂ {β γ : Type} {R : β → γ → Prop} {xs : List (String × β)}
    {ys : List (String × γ)} (h : List.Forall₂ (fun x y => x.1 = y.1 ∧ R x.2 y.2) xs ys)
    (name : String) : (xs.lookup name = none ∧ ys.lookup name = none) ∨
      ∃ b c, xs.lookup name = some b ∧ ys.lookup name = some c ∧ R b c := by
  induction h with
  | nil => exact .inl ⟨rfl, rfl⟩
  | @cons x y xs ys hxy hrest ih =>
      obtain ⟨k, b⟩ := x
      obtain ⟨k', c⟩ := y
      obtain ⟨rfl, hR⟩ : k = k' ∧ R b c := hxy
      rw [List.lookup_cons, List.lookup_cons]
      cases hk : name == k with
      | true => exact .inr ⟨b, c, rfl, rfl, hR⟩
      | false => exact ih

/-- A name stands for a function that is declared under it, or for a variable. -/
def Cell.Fits : Entity → Cell → Prop
  | .variable _, .value _ => True
  | .function head body, .function head' body' => head' = head ∧ body' = body
  | .variable _, .function _ _ | .function _ _, .value _ => False

abbrev Record.Fits (region : Region) (record : Record) : Prop :=
  List.Forall₂ (fun entry cell => entry.1 = cell.1 ∧ Cell.Fits entry.2 cell.2) region.entities record

abbrev RecordsFit (env : Env) (records : List Record) : Prop :=
  List.Forall₂ Record.Fits env records

theorem RecordsFit.append {env env' : Env} {records records' : List Record}
    (h : RecordsFit env records) (h' : RecordsFit env' records') :
    RecordsFit (env ++ env') (records ++ records') :=
  List.rel_append h h'

/-- Names are found among records as they are among regions. -/
theorem RecordsFit.splitAt? {env : Env} {records : List Record} (h : RecordsFit env records)
    {name : String} {meaning : Meaning} (hfind : env.find? name = some meaning) :
    ∃ front inner cell outer, env = front ++ meaning.home ∧ records = inner ++ outer ∧
      NestedFun.splitAt? records name = some (inner, cell, outer) ∧ RecordsFit front inner ∧
      RecordsFit meaning.home outer ∧ cell.Fits meaning.entity := by
  induction h generalizing meaning with
  | nil => cases hfind
  | @cons region record env records hregion hrest ih =>
      rw [Env.find?] at hfind
      rw [NestedFun.splitAt?]
      rcases lookup_forall₂ hregion name with ⟨hnone, hnone'⟩ | ⟨entity, cell, hsome, hsome', hfits⟩
      · rw [hnone] at hfind
        obtain ⟨inner', hinner, rfl⟩ := Option.map_eq_some_iff.mp hfind
        obtain ⟨front, inner, cell, outer, rfl, rfl, hsplit, hfront, houter, hfits⟩ := ih hinner
        rw [hnone', hsplit]
        exact ⟨region :: front, record :: inner, cell, outer, rfl, rfl, rfl, .cons hregion hfront,
          houter, hfits⟩
      · rw [hsome] at hfind
        cases hfind
        rw [hsome']
        exact ⟨[], [], cell, record :: records, rfl, rfl, rfl, .nil, .cons hregion hrest, hfits⟩

theorem Record.Fits.assign {region : Region} {record : Record} (h : record.Fits region)
    {name : String} {w w' : Word} (hname : record.lookup name = some (.value w')) :
    (record.assign name w).Fits region := by
  rw [Record.Fits] at h ⊢
  generalize region.entities = entities at h
  induction h with
  | nil => cases hname
  | @cons entry cell entities record hcell hrest ih =>
      obtain ⟨k, entity⟩ := entry
      obtain ⟨k', cell⟩ := cell
      obtain ⟨rfl, hfits⟩ : k = k' ∧ cell.Fits entity := hcell
      rw [Record.assign]
      rw [List.lookup_cons] at hname
      by_cases heq : k = name
      · subst heq
        rw [beq_self_eq_true] at hname
        cases hname
        rw [if_pos rfl]
        refine .cons ⟨rfl, ?_⟩ hrest
        rcases entity with id | ⟨head, body⟩
        · trivial
        · exact hfits
      · rw [beq_eq_false_iff_ne.mpr (Ne.symm heq)] at hname
        rw [if_neg heq]
        exact .cons ⟨rfl, hfits⟩ (ih hname)

/-- Where a variable is found its record still fits after an assignment. -/
theorem RecordsFit.assignIn {env : Env} {records : List Record} (h : RecordsFit env records)
    {name : String} {w w' : Word} {inner outer : List Record}
    (hsplit : NestedFun.splitAt? records name = some (inner, .value w', outer)) :
    RecordsFit env (NestedFun.assignIn name w records) := by
  induction h generalizing inner with
  | nil => cases hsplit
  | @cons region record env records hregion hrest ih =>
      rw [NestedFun.splitAt?] at hsplit
      rw [NestedFun.assignIn]
      split at hsplit
      · rename_i c hc
        cases hsplit
        exact .cons (hregion.assign hc) hrest
      · obtain ⟨⟨inner', cell', outer'⟩, hsplit', heq⟩ := Option.map_eq_some_iff.mp hsplit
        cases heq
        exact .cons hregion (ih hsplit')

section

variable (T : Target) (image : Image) (m : Memory)

def Cell.Holds (a : Int) (entity : Entity) (cell : Cell) : Prop :=
  ∀ x w, entity.site? T image a = some x → cell = .value w → m.word x = w

def Record.Holds (a : Int) (entities : List (String × Entity)) (record : Record) : Prop :=
  List.Forall₂ (fun entry cell => entry.1 = cell.1 ∧ Cell.Holds T image m a entry.2 cell.2)
    entities record

def RecordsHold (sites : List Site) (records : List Record) : Prop :=
  List.Forall₂ (fun p record => record.Holds T image m p.2 p.1.entities) sites records

end

section

variable {T : Target} {segments : Segments} {image : Image} {m m' : Memory} {a : Int}
  {entities : List (String × Entity)} {record : Record} {name : String}

theorem Record.Holds.of_differs (h : record.Holds T image m a entities) {changed : Int → Prop}
    (hdiffers : Memory.Differs changed m m')
    (hchanged : ∀ x ∈ entities.filterMap fun entry => entry.2.site? T image a,
      0 ≤ x ∧ ∀ i, Memory.Block x 4 i → ¬ changed i) : record.Holds T image m' a entities := by
  induction h with
  | nil => exact .nil
  | @cons entry cell entities record hcell hrest ih =>
      constructor
      · refine ⟨hcell.1, fun x w hx hw => ?_⟩
        obtain ⟨h₀, hx'⟩ := hchanged x (List.mem_filterMap.mpr ⟨entry, List.mem_cons_self, hx⟩)
        rw [hdiffers.word_eq h₀ hx']
        exact hcell.2 x w hx hw
      · apply ih
        intro x hx
        obtain ⟨entry', hmem, hsite⟩ := List.mem_filterMap.mp hx
        exact hchanged x (List.mem_filterMap.mpr ⟨entry', List.mem_cons_of_mem _ hmem, hsite⟩)

/-- A variable that is found has its value at its site. -/
theorem Record.Holds.read (h : record.Holds T image m a entities) {entity : Entity} {w : Word}
    {x : Int} (hentity : entities.lookup name = some entity) (hx : entity.site? T image a = some x)
    (hw : record.lookup name = some (.value w)) : m.word x = w := by
  rcases lookup_forall₂ h name with ⟨hnone, _⟩ | ⟨entity', cell, hentity', hcell, hholds⟩
  · rw [hentity] at hnone
    cases hnone
  · rw [hentity] at hentity'
    rw [hw] at hcell
    cases hentity'
    cases hcell
    exact hholds x w hx rfl

/-- An assignment to a variable changes its value and its word. -/
theorem Record.Holds.assign (h : record.Holds T image m a entities) {entity : Entity} {w w' : Word}
    {x : Int} (hentity : entities.lookup name = some entity) (hx : entity.site? T image a = some x)
    (hw : record.lookup name = some (.value w'))
    (h₀ : ∀ y ∈ entities.filterMap (fun entry => entry.2.site? T image a), 0 ≤ y)
    (hapart : (entities.filterMap fun entry => entry.2.site? T image a).Pairwise
      fun x y => x + 4 ≤ y ∨ y + 4 ≤ x)
    (hsize : x + 4 ≤ m.size) :
    (record.assign name w).Holds T image (m.store x w) a entities := by
  induction h with
  | nil => cases hw
  | @cons entry cell entities record hcell hrest ih =>
      obtain ⟨k, e⟩ := entry
      obtain ⟨k', c⟩ := cell
      obtain ⟨rfl, hholds⟩ : k = k' ∧ c.Holds T image m a e := hcell
      have hrest₀ : ∀ y ∈ entities.filterMap (fun entry => entry.2.site? T image a), 0 ≤ y := by
        intro y hy
        obtain ⟨entry, hentry, hsite⟩ := List.mem_filterMap.mp hy
        exact h₀ y (List.mem_filterMap.mpr ⟨entry, List.mem_cons_of_mem _ hentry, hsite⟩)
      rw [Record.assign]
      rw [List.lookup_cons] at hw hentity
      by_cases heq : k = name
      · subst heq
        rw [beq_self_eq_true] at hw hentity
        cases hw
        cases hentity
        rw [if_pos rfl]
        have hx₀ : 0 ≤ x := h₀ x (List.mem_filterMap.mpr ⟨_, List.mem_cons_self, hx⟩)
        simp only [List.filterMap_cons, hx, List.pairwise_cons] at hapart
        constructor
        · refine ⟨rfl, fun y v hy hv => ?_⟩
          cases hv
          rw [Option.some.inj (hy.symm.trans hx)]
          exact Memory.word_store_same _ _ hx₀ hsize
        · refine Record.Holds.of_differs hrest (Memory.Differs.store m w hx₀) fun y hy =>
            ⟨hrest₀ y hy, ?_⟩
          intro i hi hi'
          have := hapart.1 y hy
          simp only [Memory.Block] at hi hi'
          omega
      · rw [beq_eq_false_iff_ne.mpr (Ne.symm heq)] at hw hentity
        rw [if_neg heq]
        have hmem : x ∈ entities.filterMap fun entry => entry.2.site? T image a :=
          List.mem_filterMap.mpr ⟨_, mem_of_lookup hentity, hx⟩
        have hx₀ := hrest₀ x hmem
        constructor
        · refine ⟨rfl, fun y v hy hv => ?_⟩
          have hy₀ : 0 ≤ y := h₀ y (List.mem_filterMap.mpr ⟨_, List.mem_cons_self, hy⟩)
          simp only [List.filterMap_cons, hy, List.pairwise_cons] at hapart
          rw [Memory.word_store_of_disjoint _ _ hx₀ hy₀ (hapart.1 x hmem)]
          exact hholds y v hy hv
        · apply ih hentity hw hrest₀
          cases hsite : e.site? T image a with
          | none => simpa only [List.filterMap_cons, hsite] using hapart
          | some y =>
              simp only [List.filterMap_cons, hsite, List.pairwise_cons] at hapart
              exact hapart.2

end

section

variable {T : Target} {segments : Segments} {image : Image} {m m' : Memory} {p : Site}
  {sites front : List Site} {records inner outer : List Record} {name : String}
  {anchor used limit : Int}

theorem RecordsHold.of_differs (h : RecordsHold T image m sites records) {changed : Int → Prop}
    (hdiffers : Memory.Differs changed m m') (h₀ : ∀ i, HasByte T image sites i → 0 ≤ i)
    (hchanged : ∀ i, HasByte T image sites i → ¬ changed i) :
    RecordsHold T image m' sites records := by
  induction h with
  | nil => exact .nil
  | @cons p record sites records hrecord hrest ih =>
      constructor
      · refine hrecord.of_differs hdiffers fun x hx => ?_
        have hbyte : ∀ i, Memory.Block x 4 i → HasByte T image (p :: sites) i :=
          fun i hi => hasByte_cons.mpr (.inl ⟨x, hx, hi⟩)
        exact ⟨h₀ x (hbyte x ⟨le_rfl, by omega⟩), fun i hi => hchanged i (hbyte i hi)⟩
      · apply ih
        · exact fun i hi => h₀ i (hasByte_cons.mpr (.inr hi))
        · exact fun i hi => hchanged i (hasByte_cons.mpr (.inr hi))

/-- A variable that is found has its value at its site. -/
theorem RecordsHold.read (h : RecordsHold T image m (front ++ p :: sites) records)
    (hfront : front.length = inner.length) {w : Word} {x : Int} {entity : Entity}
    (hsplit : splitAt? records name = some (inner, .value w, outer))
    (hentity : p.1.entities.lookup name = some entity) (hx : entity.site? T image p.2 = some x) :
    m.word x = w := by
  induction front generalizing records inner with
  | nil =>
      obtain rfl := List.length_eq_zero_iff.mp hfront.symm
      cases h with
      | cons hrecord hrest =>
          rw [splitAt?] at hsplit
          split at hsplit
          · rename_i cell hcell
            cases hsplit
            exact hrecord.read hentity hx hcell
          · obtain ⟨_, _, heq⟩ := Option.map_eq_some_iff.mp hsplit
            cases heq
  | cons q front ih =>
      cases h with
      | cons hrecord hrest =>
          rw [splitAt?] at hsplit
          split at hsplit
          · cases hsplit
            cases hfront
          · obtain ⟨⟨inner', cell, outer'⟩, hsplit', heq⟩ := Option.map_eq_some_iff.mp hsplit
            cases heq
            exact ih hrest (Nat.succ.inj hfront) hsplit'

theorem Sited.region (h : Sited T segments image m (p :: sites) anchor used limit) :
    ∃ low high, p.1.Sited T image p.2 low high := by
  cases h with
  | top hregion => exact ⟨_, _, hregion⟩
  | parameters outer hframe hlocals hparameters hregion => exact ⟨_, _, hregion⟩
  | definitions outer hanchor hused hle hlimit hregion => exact ⟨_, _, hregion⟩

theorem Sited.nonneg (h : Sited T segments image m sites anchor used limit) {i : Int}
    (hi : HasByte T image sites i) : 0 ≤ i := by
  have hbounds := h.bounds
  have hcode := Code.size_nonneg segments.code
  rcases h.hasByte_bounds hi with hi | hi <;> omega

/-- An assignment to a variable that is found changes its value and its word. -/
theorem RecordsHold.assign (h : RecordsHold T image m (front ++ p :: sites) records)
    (hsited : Sited T segments image m (front ++ p :: sites) anchor used limit)
    (hfront : front.length = inner.length) {w w' : Word} {x : Int} {entity : Entity}
    (hsplit : splitAt? records name = some (inner, .value w', outer))
    (hentity : p.1.entities.lookup name = some entity) (hx : entity.site? T image p.2 = some x) :
    RecordsHold T image (m.store x w) (front ++ p :: sites) (assignIn name w records) := by
  have hmem : x ∈ p.1.sites T image p.2 :=
    List.mem_filterMap.mpr ⟨_, mem_of_lookup hentity, hx⟩
  have hcode := Code.size_nonneg segments.code
  obtain ⟨hlow, hhigh, -⟩ := hsited.word_bounds (p := p) (by simp) hmem
  have hdiffers := Memory.Differs.store m (a := x) w (by omega)
  induction front generalizing records inner anchor used limit with
  | nil =>
      obtain rfl := List.length_eq_zero_iff.mp hfront.symm
      cases h with
      | cons hrecord hrest =>
          rw [splitAt?] at hsplit
          rw [assignIn]
          split at hsplit
          · rename_i cell hcell
            cases hsplit
            obtain ⟨low, high, hregion⟩ := hsited.region
            constructor
            · apply hrecord.assign hentity hx hcell
              · intro y hy
                exact hsited.nonneg (hasByte_cons.mpr (.inl ⟨y, hy, le_rfl, by omega⟩))
              · exact hregion.apart
              · exact hhigh
            · apply RecordsHold.of_differs hrest hdiffers
              · exact fun i hi => hsited.nonneg (hasByte_cons.mpr (.inr hi))
              · exact fun i hi hi' => hsited.disjoint ⟨x, hmem, hi'⟩ hi
          · obtain ⟨_, _, heq⟩ := Option.map_eq_some_iff.mp hsplit
            cases heq
  | cons q front ih =>
      cases h with
      | cons hrecord hrest =>
          rw [splitAt?] at hsplit
          rw [assignIn]
          split at hsplit
          · cases hsplit
            cases hfront
          · obtain ⟨⟨inner', cell, outer'⟩, hsplit', heq⟩ := Option.map_eq_some_iff.mp hsplit
            cases heq
            obtain ⟨_, _, _, htail, -⟩ := hsited.tail_append
            constructor
            · refine hrecord.of_differs hdiffers fun y hy => ?_
              have hbyte : ∀ i, Memory.Block y 4 i → q.1.HasByte T image q.2 i :=
                fun i hi => ⟨y, hy, hi⟩
              refine ⟨hsited.nonneg (hasByte_cons.mpr (.inl (hbyte y ⟨le_rfl, by omega⟩))),
                fun i hi hi' => hsited.disjoint (hbyte i hi) ?_⟩
              exact ⟨p, by simp, x, hmem, hi'⟩
            · exact ih hrest htail (Nat.succ.inj hfront) hsplit'

/-- Values of inner records stay when only variables further out change. -/
theorem RecordsHold.append_of_differs
    (h : RecordsHold T image m (front ++ p :: sites) (inner ++ outer))
    (hsited : Sited T segments image m (front ++ p :: sites) anchor used limit)
    (hfront : front.length = inner.length) {top : Int} (htop : top ≤ anchor - used)
    (hdiffers : Memory.Differs (Changes T segments image (p :: sites) top) m m')
    {outer' : List Record} (houter : RecordsHold T image m' (p :: sites) outer') :
    RecordsHold T image m' (front ++ p :: sites) (inner ++ outer') := by
  have hinner : RecordsHold T image m front inner := by
    have htake := List.forall₂_take front.length h
    rwa [List.take_left, hfront, List.take_left] at htake
  refine List.rel_append (RecordsHold.of_differs hinner hdiffers ?_ ?_) houter
  · exact fun i hi => hsited.nonneg (hasByte_append.mpr (.inl hi))
  · rintro i hi (hi' | hi')
    · rcases hsited.hasByte_bounds (hasByte_append.mpr (.inl hi)) with hi | hi <;> omega
    · exact hsited.disjoint_append hi hi'

end

end NestedFun
