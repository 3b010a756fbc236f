import NestedFun.Proofs.RecordValues

namespace NestedFun

/-!
# Records of calls, blocks and programs

The variables of every region have their sites where the layout puts them: parameters above the link
of a frame, locals below its header, and those of the program among the data.
-/

section

variable {T : Target} {image : Image} {a : Int}

theorem Region.Sited.of_entries {region : Region} {low high : Int}
    (h : ∀ entry ∈ region.entities, ∀ id, entry.2 = .variable id →
      ∃ x, entry.2.site? T image a = some x ∧ low ≤ x ∧ x + 4 ≤ high)
    (hapart : (region.sites T image a).Pairwise fun x y => x + 4 ≤ y ∨ y + 4 ≤ x) :
    region.Sited T image a low high where
  defined entry hentry id hid := (h entry hentry id hid).imp fun _ hx => hx.1
  within x hx := by
    obtain ⟨⟨name, entity⟩, hentry, hsite⟩ := List.mem_filterMap.mp hx
    rcases entity with id | ⟨head, body⟩
    · obtain ⟨y, hy, hlow, hhigh⟩ := h _ hentry id rfl
      rw [hsite] at hy
      cases hy
      exact ⟨hlow, hhigh⟩
    · cases hsite
  apart := hapart

variable (image a) in
theorem sites_parameters {depth : Nat} {ps : List Parameter} {offset : Int}
    (h : ParametersPlaced T.layout depth offset ps) :
    ∀ p ∈ ps, ∃ x, (Entity.variable p.id).site? T image a = some x ∧ a + offset ≤ x ∧
      x + 4 ≤ a + offset + 4 * ps.length := by
  intro p hp
  obtain ⟨o, ho, hlow, hhigh⟩ := h.mem hp
  refine ⟨a + o, by rw [Entity.site?, ho], by omega, by omega⟩

/-- Parameters have their words one behind the other above the link. -/
theorem sited_parameters {depth : Nat} {head : FunctionHead} {offset : Int}
    (h : ParametersPlaced T.layout depth offset head.parameters) :
    (Region.parameters head).Sited T image a (a + offset)
      (a + offset + 4 * head.parameters.length) := by
  apply Region.Sited.of_entries
  · intro entry hentry id hid
    obtain ⟨p, hp, rfl⟩ := List.mem_map.mp hentry
    exact sites_parameters image a h p hp
  · rw [Region.sites, Region.entities, List.filterMap_map]
    generalize head.parameters = ps at h
    induction ps generalizing offset with
    | nil => exact .nil
    | cons p ps ih =>
        have hsite : (Entity.variable p.id).site? T image a = some (a + offset) := by
          rw [Entity.site?, h.1]
        simp only [List.filterMap_cons, Function.comp_apply, hsite, List.pairwise_cons]
        refine ⟨fun y hy => .inl ?_, ih h.2⟩
        obtain ⟨q, hq, hsite'⟩ := List.mem_filterMap.mp hy
        obtain ⟨x, hx, hlow, -⟩ := sites_parameters image a h.2 q hq
        have heq : some y = some x := hsite'.symm.trans hx
        cases heq
        omega

variable (image a) in
theorem site_local {depth : Nat} {before after : Int} {head : Variable}
    (h : head.Placed T.layout depth before after) (hdepth : depth ≠ 0) :
    (Entity.variable head.id).site? T image a = some (a - 8 - after) ∧
      after = before + 4 * head.words.length := by
  obtain ⟨_, hplaced⟩ := h
  rw [if_neg hdepth] at hplaced
  refine ⟨?_, hplaced.2.1⟩
  simp only [Entity.site?, hplaced.1]
  congr 1
  omega

variable (image a) in
/-- Locals have their words one below the other below the header. -/
theorem sited_definitions {depth : Nat} {before after : Int} {ds : List Definition}
    (h : PlacedDefinitions T.layout depth before after ds) (hdepth : depth ≠ 0)
    (hstores : ∀ d ∈ ds, d.StoresWord) :
    (Region.definitions ds).Sited T image a (a - 8 - after) (a - 8 - before) := by
  have hentries : ∀ ds before, PlacedDefinitions T.layout depth before after ds →
      (∀ d ∈ ds, d.StoresWord) → ∀ head, Definition.var head ∈ ds →
      ∃ x, (Entity.variable head.id).site? T image a = some x ∧ a - 8 - after ≤ x ∧
        x + 4 ≤ a - 8 - before := by
    intro ds before h hstores head hd
    obtain ⟨b, b', hplaced, hb, hb'⟩ := h.mem hd
    obtain ⟨hsite, hafter⟩ := site_local image a hplaced hdepth
    have hlength := List.length_pos_of_ne_nil (hstores _ hd)
    exact ⟨_, hsite, by omega, by omega⟩
  apply Region.Sited.of_entries
  · intro entry hentry id hid
    obtain ⟨d, hd, rfl⟩ := List.mem_map.mp hentry
    rcases d with ⟨head, body⟩ | head
    · cases hid
    · exact hentries ds before h hstores head hd
  · rw [Region.sites, Region.entities, List.filterMap_map]
    induction ds generalizing before with
    | nil => exact .nil
    | cons d ds ih =>
        obtain ⟨between, hd, hds⟩ := h
        have hstores' := fun d hd => hstores d (List.mem_cons_of_mem _ hd)
        rcases d with ⟨head, body⟩ | head
        · exact ih hds hstores'
        · obtain ⟨hsite, -⟩ := site_local image a hd hdepth
          simp only [List.filterMap_cons, Function.comp_apply, Definition.entity, hsite,
            List.pairwise_cons]
          refine ⟨fun y hy => .inr ?_, ih hds hstores'⟩
          obtain ⟨e, he, hsite'⟩ := List.mem_filterMap.mp hy
          rcases e with ⟨head', body'⟩ | head'
          · cases hsite'
          · obtain ⟨x, hx, -, hhigh⟩ := hentries ds between hds hstores' head' he
            have heq : some y = some x := hsite'.symm.trans hx
            cases heq
            exact hhigh

end

/-! ## Data of the program -/

/-- Of two different labels that each stand before a reservation one reservation follows the
other. -/
theorem reserved_apart {data front back front' back' : Data} {l r l' r' : Located Datum}
    (hfits : ∀ d ∈ data, d.item.Fits) (h : data = front ++ l :: r :: back)
    (h' : data = front' ++ l' :: r' :: back') (hl : l.item.size = 0) (hl' : l'.item.size = 0)
    (hr : 0 < r.item.size) (hr' : 0 < r'.item.size) (hne : l ≠ l') :
    Data.size front + r.item.size ≤ Data.size front' ∨
      Data.size front' + r'.item.size ≤ Data.size front := by
  have hbetween : ∀ {front front' between : Data} {l r l' r' : Located Datum} {back back' : Data},
      (∀ d ∈ front ++ l :: r :: back, d.item.Fits) → l.item.size = 0 → 0 < r.item.size →
      l'.item.size = 0 → l ≠ l' → front' = front ++ between →
      l :: r :: back = between ++ l' :: r' :: back' →
      Data.size front + r.item.size ≤ Data.size front' := by
    intro front front' between l r l' r' back back' hfits hl hr hl' hne hfront hsplit
    rcases between with _ | ⟨x, _ | ⟨y, between⟩⟩
    · cases hsplit
      exact absurd rfl hne
    · cases hsplit
      omega
    · simp only [List.cons_append, List.cons.injEq] at hsplit
      obtain ⟨rfl, rfl, rfl⟩ := hsplit
      have hrest : 0 ≤ Data.size between := Data.size_nonneg fun d hd => hfits d (by simp [hd])
      rw [hfront]
      simp only [Data.size, List.map_append, List.map_cons, List.sum_append, List.sum_cons] at *
      omega
  rcases List.append_eq_append_iff.mp (h.symm.trans h') with ⟨between, hfront, hsplit⟩ |
    ⟨between, hfront, hsplit⟩
  · exact .inl (hbetween (h ▸ hfits) hl hr hl' hne hfront hsplit)
  · exact .inr (hbetween (h' ▸ hfits) hl' hr' hl (Ne.symm hne) hfront hsplit)

namespace Executable

variable {program : Program} {T : Target} {segments : Segments} {image : Image} {s : State}

/-- A variable at the top level has its words among the data, with its initial contents. -/
theorem site_global (h : Executable program T segments image s) {head : Variable}
    (hmem : .var head ∈ program) : ∃ x front l r back,
      (Entity.variable head.id).site? T image 0 = some x ∧ head.Sized ∧
      x = Code.size segments.code + Data.size front ∧ segments.data = front ++ l :: r :: back ∧
      l.item = .label head.name.text ∧
      r.item = .reserve (.ofInt (4 * head.words.length)) (some (.ofVariable head)) ∧
      r.item.size = 4 * (head.words.length : Int) ∧ (x, r) ∈ segments.placedData ∧
      x + 4 * head.words.length ≤ segments.dataStop ∧ s.memory.HasWords x head.words := by
  obtain ⟨code, hcode⟩ := h.inside_program.coded program [] (List.suffix_refl _)
  obtain ⟨_, hsized, hvariable⟩ := hcode.mem hmem
  have hdepth : Env.depth [.definitions program] = 0 := rfl
  rw [if_pos hdepth] at hvariable
  obtain ⟨haccess, hstorage⟩ := hvariable
  obtain ⟨front, back, hsplit⟩ := h.storage_within hstorage
  have hfits := h.data_fits
  have hlength : 4 * (head.words.length : Int) < 2147483648 := hsized.size_lt
  have hint : (Word.ofInt (4 * head.words.length)).toInt = 4 * head.words.length :=
    Word.toInt_ofInt (by omega) hlength
  have hcode₀ := Code.size_nonneg segments.code
  have hloaded := h.loaded
  have hdata := hloaded.data_le
  have hheap := hloaded.heap_le
  have hlt := hloaded.size_lt
  let l : Located Datum := ⟨head.span, .label head.name.text⟩
  let r : Located Datum :=
    ⟨head.span, .reserve (.ofInt (4 * head.words.length)) (some (.ofVariable head))⟩
  have hdataSplit : segments.data = front ++ l :: r :: back := by
    rw [← hsplit]
    simp [Data.spanning, l, r]
  have hrsize : r.item.size = 4 * (head.words.length : Int) := hint
  have hfront : 0 ≤ Data.size front :=
    Data.size_nonneg fun d hd => hfits d (by rw [hdataSplit]; simp [hd])
  have hback : 0 ≤ Data.size back :=
    Data.size_nonneg fun d hd => hfits d (by rw [hdataSplit]; simp [hd])
  have hsizes : Data.size segments.data
      = Data.size front + (0 + (4 * head.words.length + Data.size back)) := by
    rw [hdataSplit, ← hrsize]
    simp only [Data.size, List.map_append, List.map_cons, List.sum_append, List.sum_cons]
    rfl
  obtain ⟨x, hx⟩ : ∃ x, x = Code.size segments.code + Data.size front := ⟨_, rfl⟩
  -- the label of a global takes no bytes, so it stands for the contents
  have hplaced : ∀ entry ∈ [(x, l), (x + 0, r)], entry ∈ segments.placedData := by
    intro entry hentry
    rw [Segments.placedData, Segments.addressedData, hdataSplit, addressed_append]
    refine List.mem_append_right _ ?_
    change entry ∈ (_ + Data.size front, l) :: (_ + Data.size front + 0, r) :: _
    rw [← hx]
    rcases List.mem_cons.mp hentry with rfl | hentry
    · exact List.mem_cons_self
    · cases List.mem_singleton.mp hentry
      exact List.mem_cons_of_mem _ List.mem_cons_self
  have hlabel : image.labels[head.name.text]? = some (.ofInt x) :=
    hloaded.data _ (hplaced _ List.mem_cons_self)
  have hentry : (x, r) ∈ segments.placedData := by
    have := hplaced (x + 0, r) (by simp)
    rwa [add_zero] at this
  have hwords : s.memory.HasWords x (Contents.ofVariable head).expand :=
    hloaded.data _ hentry _ rfl
  refine ⟨x, front, l, r, back, ?_, hsized, hx, hdataSplit, rfl, rfl, hrsize, hentry, ?_, ?_⟩
  · simp only [Entity.site?, haccess, hlabel, Option.map_some]
    rw [Word.toInt_ofInt (by omega) (by omega)]
  · rw [Segments.dataStop]
    omega
  · rwa [hsized.expand_eq] at hwords

/-- The variables of the program have their words among the data. -/
theorem sited_program (h : Executable program T segments image s) (hstores : program.StoresWords) :
    (Region.definitions program).Sited T image 0 (Code.size segments.code) segments.dataStop := by
  have hwords : ∀ head, Definition.var head ∈ program → 0 < head.words.length := fun head hmem =>
    List.length_pos_of_ne_nil (hstores _ (mem_definitionsInside hmem))
  have hfits := h.data_fits
  apply Region.Sited.of_entries
  · intro entry hentry id hid
    obtain ⟨d, hd, rfl⟩ := List.mem_map.mp hentry
    rcases d with ⟨head, body⟩ | head
    · cases hid
    · cases hid
      have hlength := hwords head hd
      obtain ⟨x, front, l, r, back, hsite, hsized, hx, hsplit, _, _, _, _, hstop, _⟩ :=
        h.site_global hd
      have hfront : 0 ≤ Data.size front :=
        Data.size_nonneg fun d hd => hfits d (by rw [hsplit]; simp [hd])
      exact ⟨x, hsite, by omega, by omega⟩
  · rw [Region.sites, Region.entities, List.filterMap_map, List.pairwise_filterMap]
    have hnodup := names_nodup h.nodup
    rw [List.Nodup, List.pairwise_map] at hnodup
    refine hnodup.imp_of_mem fun {d e} hd he hne x hx y hy => ?_
    rcases d with ⟨head, body⟩ | head
    · cases hx
    rcases e with ⟨head', body'⟩ | head'
    · cases hy
    have hlength := hwords head hd
    have hlength' := hwords head' he
    obtain ⟨x', front, l, r, back, hsite, _, hx', hsplit, hl, _, hr, _, _, _⟩ := h.site_global hd
    obtain ⟨y', front', l', r', back', hsite', _, hy', hsplit', hl', _, hr', _, _, _⟩ :=
      h.site_global he
    cases hsite.symm.trans hx
    cases hsite'.symm.trans hy
    have hne' : l ≠ l' := by
      rintro rfl
      exact hne (Datum.label.inj (hl.symm.trans hl'))
    have hapart := reserved_apart hfits hsplit hsplit' (by rw [hl]; rfl) (by rw [hl']; rfl)
      (by omega) (by omega) hne'
    omega

theorem reserves_program (h : Executable program T segments image s) {i : Int}
    (hi : (Region.definitions program).HasByte T image 0 i) (hstores : program.StoresWords) :
    segments.Reserves i := by
  obtain ⟨x, hx, hblock⟩ := hi
  obtain ⟨entry, hentry, hsite⟩ := List.mem_filterMap.mp hx
  obtain ⟨d, hd, rfl⟩ := List.mem_map.mp hentry
  rcases d with ⟨head, body⟩ | head
  · cases hsite
  · have hlength := List.length_pos_of_ne_nil (hstores _ (mem_definitionsInside hd))
    obtain ⟨x', front, l, r, back, hsite', _, _, _, _, hr, hsize, hplaced, _, _⟩ := h.site_global hd
    cases hsite'.symm.trans hsite
    rw [hr] at hsize
    simp only [Datum.size] at hsize
    refine ⟨_, hplaced, _, _, hr, ?_⟩
    simp only [Memory.Block, hsize] at *
    omega

end Executable

/-! ## Records at the start -/

theorem Record.fits_ofDefinitions (ds : List Definition) :
    (Record.ofDefinitions ds).Fits (.definitions ds) := by
  rw [Record.Fits, Region.entities, Record.ofDefinitions, List.forall₂_map_left_iff,
    List.forall₂_map_right_iff, List.forall₂_same]
  intro d hd
  rcases d with ⟨head, body⟩ | head
  · exact ⟨rfl, rfl, rfl⟩
  · exact ⟨rfl, trivial⟩

theorem Record.fits_ofParameters {head : FunctionHead} {values : List Word}
    (h : head.parameters.length = values.length) :
    (Record.ofParameters head.parameters values).Fits (.parameters head) := by
  rw [Record.Fits, Region.entities, List.forall₂_map_left_iff]
  generalize head.parameters = ps at h
  induction ps generalizing values with
  | nil =>
      cases List.length_eq_zero_iff.mp h.symm
      exact .nil
  | cons p ps ih =>
      obtain ⟨w, values, rfl⟩ := List.exists_cons_of_length_eq_add_one h.symm
      exact .cons ⟨rfl, trivial⟩ (ih (Nat.succ.inj h))

/-- A record of definitions holds where every variable has its initial contents. -/
theorem Record.holds_ofDefinitions {T : Target} {image : Image} {m : Memory} {a : Int}
    {ds : List Definition} (h : ∀ head, Definition.var head ∈ ds →
      ∃ x, (Entity.variable head.id).site? T image a = some x ∧ m.word x = head.words.headD 0) :
    (Record.ofDefinitions ds).Holds T image m a (Region.definitions ds).entities := by
  rw [Record.Holds, Region.entities, Record.ofDefinitions, List.forall₂_map_left_iff,
    List.forall₂_map_right_iff, List.forall₂_same]
  intro d hd
  rcases d with ⟨head, body⟩ | head
  · exact ⟨rfl, fun x w _ hw => by cases hw⟩
  · refine ⟨rfl, fun x w hx hw => ?_⟩
    cases hw
    obtain ⟨x', hx', hword⟩ := h head hd
    cases hx'.symm.trans hx
    exact hword

/-- A record of parameters holds where their values stand behind one another. -/
theorem Record.holds_ofParameters {T : Target} {image : Image} {m : Memory} {a offset : Int}
    {depth : Nat} {head : FunctionHead} {values : List Word}
    (hlength : head.parameters.length = values.length)
    (hplaced : ParametersPlaced T.layout depth offset head.parameters)
    (hwords : m.HasWords (a + offset) values) :
    (Record.ofParameters head.parameters values).Holds T image m a
      (Region.parameters head).entities := by
  rw [Record.Holds, Region.entities, List.forall₂_map_left_iff]
  generalize head.parameters = ps at hlength hplaced
  induction ps generalizing values offset with
  | nil =>
      cases List.length_eq_zero_iff.mp hlength.symm
      exact .nil
  | cons p ps ih =>
      obtain ⟨w, values, rfl⟩ := List.exists_cons_of_length_eq_add_one hlength.symm
      constructor
      · refine ⟨rfl, fun x v hx hv => ?_⟩
        cases hv
        have hsite : (Entity.variable p.id).site? T image a = some (a + offset) := by
          rw [Entity.site?, hplaced.1]
        cases hsite.symm.trans hx
        exact hwords.1
      · have hrest := hwords.2
        rw [add_assoc] at hrest
        exact ih hrest (Nat.succ.inj hlength) hplaced.2

end NestedFun
