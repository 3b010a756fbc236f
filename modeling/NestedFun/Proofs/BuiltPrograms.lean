import NestedFun.Proofs.SegmentContents

namespace NestedFun

/-!
# Programs that are built

Every program that was read and resolved is laid out, its code is generated and its segments are
assembled. The only thing that can go wrong is that a segment does not fit the address space. The
counter of labels does not run over before that: whatever takes a number also names its label in an
instruction.
-/

/-! ## Numbers and instructions -/

def Mention.IsName (mention : Mention) : Prop := mention.kind = .name

instance (mention : Mention) : Decidable mention.IsName := inferInstanceAs (Decidable (_ = _))

/-- Naming a label takes an instruction with a size. -/
theorem Code.countP_isName_le (code : Code) :
    (code.mentions.countP fun mention => mention.IsName : Int) ≤ Code.size code := by
  induction code with
  | nil => exact le_rfl
  | cons i code ih =>
      have hfirst : ((Code.mentions [i]).countP fun mention => mention.IsName : Int) ≤ i.item.size := by
        obtain ⟨span, item⟩ := i
        cases item <;>
          simp [Code.mentions, Instruction.mention?, Mention.IsName, Instruction.size, wordSize]
      have hsplit : Code.mentions (i :: code) = Code.mentions [i] ++ Code.mentions code :=
        Code.mentions_append [i] code
      rw [hsplit, List.countP_append, Code.size_cons]
      push_cast
      omega

theorem Data.countP_isName (data : Data) :
    data.mentions.countP (fun mention => mention.IsName) = 0 := by
  refine List.countP_eq_zero.mpr fun mention hmention => ?_
  obtain ⟨⟨span, item⟩, -, hitem⟩ := List.mem_filterMap.mp hmention
  cases item <;> cases hitem
  simp [Mention.IsName]

/-- Whatever takes a number names a label of it. -/
theorem length_le_countP_isName (n : Nat) (sites : List LabelSite) :
    sites.length ≤ (mentionsFrom n sites).countP fun mention => mention.IsName := by
  induction sites generalizing n with
  | nil => exact Nat.zero_le _
  | cons site sites ih =>
      have hsite : 0 < (site.mentions n).countP fun mention => mention.IsName := by
        rw [LabelSite.mentions, List.countP_append]
        cases site.use <;> simp [LabelUse.named, Mention.IsName, Function.comp_def]
      have hrest := ih (n + 1)
      rw [mentionsFrom, List.countP_append, List.length_cons]
      omega

/-- A program takes no more numbers than its code has bytes. -/
theorem Program.GeneratedFrom.length_sites_le {program : Program} {context : Context} {n : Nat}
    {fragments : Fragments} {segments : Segments} (h : program.GeneratedFrom context n fragments)
    (hsegments : program.assemble context.layout fragments = .ok segments) :
    (program.sites.length : Int) ≤ Code.size segments.code := by
  obtain ⟨others, -, hmentions⟩ := h.mentions
  have hcount := hmentions.countP_eq fun mention => mention.IsName
  rw [Fragments.mentions, List.countP_append, List.countP_append, Data.countP_isName] at hcount
  have hsites := length_le_countP_isName n program.sites
  have hnames := fragments.code.countP_isName_le
  have hperm : Code.size fragments.code
      = Code.size (fragments.segments (definitionsInside program)).code :=
    (h.translated.code_perm.map _).sum_eq
  obtain ⟨main, exit, -, -, -, rfl⟩ := assemble_eq hsegments
  have hentry := (entryCode main exit).size_nonneg
  have hcode : Code.size ((⟨entryCode main exit, []⟩ ++ fragments.segments (definitionsInside program)
      ++ ⟨[], fragments.strings.flatten⟩ : Segments).code)
        = Code.size (entryCode main exit) + Code.size fragments.code := by
    rw [hperm]
    show Code.size (entryCode main exit ++ _ ++ []) = _
    rw [List.append_nil, Code.size_append]
  rw [hcode]
  omega

/-! ## Building -/

/-- What happens between a tree and its segments: everything succeeds and all numbers fit words, as
long as the sizes of the segments do. -/
structure Analysis.Builds (analysis : Analysis) (layout : Layout) (fragments : Fragments)
    (segments : Segments) : Prop where
  constants : ∀ head node value, (head, .literal node value) ∈ definitionsUses analysis.program →
    value.Fits
  initializers : ∀ head, .var head ∈ definitionsInside analysis.program →
    ∀ i ∈ head.initializers, i.value.Fits ∧ ∀ count, i.count = some count → count.Fits
  layOut : analysis.program.layOut = .ok layout
  inRange : layout.InRange
  generate : ∃ labels, analysis.program.generate ⟨analysis.resolution.definitions, layout⟩ {}
    = .ok (fragments, labels)
  assemble : analysis.program.assemble layout fragments = .ok segments
  code : ∀ entry ∈ segments.addressedCode, 0 ≤ entry.1 ∧
    entry.1 + entry.2.item.size ≤ Code.size segments.code
  data : ∀ entry ∈ segments.addressedData 0, 0 ≤ entry.1 ∧ 0 ≤ entry.2.item.size ∧
    entry.1 + entry.2.item.size ≤ Data.size segments.data
  compile : Code.size segments.code < wordBound → Data.size segments.data < wordBound →
    analysis.compile
      = .ok ⟨layout, fragments, segments, Code.size segments.code, Data.size segments.data⟩

/-- In a text that is not too long there are neither too many parameters nor too many words to be
counted. -/
theorem Program.short_of_parse {text : List Char} {program : Program}
    (h : Program.parse text = .ok program) (hlength : text.length ≤ 536870908) :
    (∀ head body, .func head body ∈ definitionsInside program →
      head.parameters.length ≤ 536870908) ∧
    (∀ head, .var head ∈ definitionsInside program →
      (Contents.ofVariable head).words.length < wordBound) ∧
    ∀ d ∈ definitionsInside program, d.Counted := by
  have hparameters : ∀ head body, .func head body ∈ definitionsInside program →
      head.parameters.length ≤ 536870908 := fun head body hd =>
    (Program.length_parameters_of_parse h hd).trans hlength
  have hwords : ∀ head, .var head ∈ definitionsInside program →
      (Contents.ofVariable head).words.length < wordBound := by
    intro head hhead
    have hle := Program.length_words_of_parse h hhead
    rw [wordBound]
    omega
  refine ⟨hparameters, hwords, fun d hd => ?_⟩
  cases d with
  | var head => exact (hwords head hd).le.trans (Nat.le_add_right _ 2)
  | func head body =>
      have hle := hparameters head body hd
      rw [Definition.Counted, wordBound]
      omega

/-- The back half of the compiler never fails on what the front half accepts, but for want of
addresses. -/
theorem Analysis.exists_builds {source : Source} {analysis : Analysis} (hsize : source.size < 268435456)
    (h : analyze source.withSystemDeclarations = .ok analysis) :
    ∃ layout fragments segments, analysis.Builds layout fragments segments := by
  obtain ⟨hprogram, hresolution⟩ := analyze_ok h
  have hlength := source.length_withSystemDeclarations_le
  have hread := parse_withSystemDeclarations hprogram
  have hwell := fun {head} (hhead : .var head ∈ definitionsInside analysis.program) =>
    Program.wellFormed_initializers hprogram hhead
  obtain ⟨hparameters, hwords, hcounted⟩ := Program.short_of_parse hprogram (by omega)
  obtain ⟨layout, hlayout⟩ := Program.layOut_succeeds hresolution ⟨hcounted, fun head => hwell⟩
  have hrange := (Program.layout_tiles hprogram hresolution hlayout).inRange
    (hread.placed hresolution hlayout).1 hparameters hwords
  obtain ⟨fragments, hgenerated⟩ := Analysis.generatedFrom h hlayout 0
  obtain ⟨segments, hsegments⟩ := hgenerated.translated.assemble_succeeds
  obtain ⟨-, -, inner, -, -, hcollects, -, hdata⟩ := Program.assemble_ok hsegments
  have hfits : ∀ d ∈ segments.data, d.item.Fits :=
    fun d hd => (hgenerated.translated.describes.datum hcollects (hdata ▸ hd)).1
  refine ⟨layout, fragments, segments, ?_, ?_, hlayout, hrange, ⟨_, hgenerated.generate⟩, hsegments,
    ?_, ?_, ?_⟩
  · intro head node value huse
    exact (isRead_definitionsUses hread.nodup_ids hread.wellFormed huse).wellFormed.fits
  · intro head hhead i hi
    exact ⟨(hwell hhead i hi).value_fits, (hwell hhead i hi).count_fits⟩
  · intro entry hentry
    have hbounds := addressed_bounds (fun _ _ => Int.natCast_nonneg _) entry hentry
    rwa [zero_add] at hbounds
  · intro entry hentry
    have hbounds := le_of_mem_addressed hfits entry hentry
    exact ⟨hbounds.1, (hfits _ (mem_of_mem_addressed hentry)).size_nonneg, by omega⟩
  · intro hcode hdata
    have hsites := hgenerated.length_sites_le hsegments
    have hnext : 0 + analysis.program.sites.length < UInt32.size := by
      simp only [wordBound] at hcode
      simp only [UInt32.size]
      omega
    have hcounted := @Program.generateCounted_of_lt _ _ {} _ _ hnext hgenerated.generate
    have hcodeSize : segments.codeSize = .ok (Code.size segments.code) :=
      totalSize_eq (List.forall_mem_map.mpr fun _ _ => Int.natCast_nonneg _) hcode
    have hdataSize : segments.dataSize = .ok (Data.size segments.data) :=
      totalSize_eq (List.forall_mem_map.mpr fun d hd => (hfits d hd).size_nonneg) hdata
    exact (bind_of_ok hlayout).trans ((bind_of_ok hcounted).trans
      ((bind_of_ok hsegments).trans ((bind_of_ok hcodeSize).trans
        (bind_of_ok hdataSize))))

def buildingSample : Source :=
  ⟨"var g = 3, 'x' fun main() = let var x = 2 * 7 fun f(n) = x + n + g in putstr(\"ok\"), f(1) end",
    .memory⟩

theorem Analysis.exists_builds_sample : ∃ analysis layout fragments segments compiled,
    buildingSample.size < 268435456 ∧
      analyze buildingSample.withSystemDeclarations = .ok analysis ∧
      analysis.Builds layout fragments segments ∧ Code.size segments.code < wordBound ∧
      Data.size segments.data < wordBound ∧ analysis.compile = .ok compiled ∧
      compiled.segments = segments := by
  have hchecks : (analyze buildingSample.withSystemDeclarations).toOption.any
      (fun analysis : Analysis => analysis.compile.toOption.any fun compiled : Compiled =>
        decide (compiled.codeSize < wordBound ∧ compiled.dataSize < wordBound)) = true := by
    rw [analyze_spelled buildingSample rfl (by decide)]
    decide +kernel
  obtain ⟨analysis, hanalyze, hchecks⟩ := (Option.any_eq_true _ _).mp hchecks
  obtain ⟨compiled, hcompile, hchecks⟩ := (Option.any_eq_true _ _).mp hchecks
  obtain ⟨hcode, hdata⟩ := of_decide_eq_true hchecks
  obtain ⟨layout, fragments, segments, hbuilds⟩ :=
    Analysis.exists_builds (by decide +kernel) (toOption_eq_some hanalyze)
  have hcompiles := toOption_eq_some hcompile
  obtain ⟨layout', hlayout, hrest⟩ := bind_eq_ok hcompiles
  cases hbuilds.layOut.symm.trans hlayout
  obtain ⟨⟨generated, counter⟩, hgenerated, hrest⟩ := bind_eq_ok hrest
  obtain ⟨n, -, hgenerated, -⟩ := Program.generateCounted_ok hgenerated
  obtain ⟨labels, hgenerate⟩ := hbuilds.generate
  cases hgenerate.symm.trans hgenerated
  obtain ⟨segments', hsegments, hrest⟩ := bind_eq_ok hrest
  cases hbuilds.assemble.symm.trans hsegments
  obtain ⟨codeSize, hcodeSize, hrest⟩ := bind_eq_ok hrest
  obtain ⟨dataSize, hdataSize, hrest⟩ := bind_eq_ok hrest
  cases hrest
  rw [(totalSize_ok hcodeSize).1] at hcode
  rw [(totalSize_ok hdataSize).1] at hdata
  exact ⟨analysis, layout, fragments, segments, _, by decide +kernel, toOption_eq_some hanalyze,
    hbuilds, hcode, hdata, hbuilds.compile hcode hdata, rfl⟩

end NestedFun
