import NestedFun.Proofs.PrintingPrograms
import NestedFun.Proofs.TextOutput

namespace NestedFun

/-!
# Printing string constants

The characters of a string constant pass through the tree, the data of the program and `putstr`, and
come out as they were written.
-/

/-! ## Output without a limit -/

theorem Output.write_all {output : Output} (hroom : output.room = none) (bytes : List UInt8) :
    ∃ output' : Output, output.write bytes = (output', true) ∧
      output'.bytes.data.toList = output.bytes.data.toList ++ bytes := by
  induction bytes generalizing output with
  | nil => exact ⟨output, rfl, (List.append_nil _).symm⟩
  | cons b bytes ih =>
      have hput : output.put? b = some { output with bytes := output.bytes.push b } := by
        rw [put?, hroom]
      obtain ⟨output', hwrite, hbytes⟩ := @ih { output with bytes := output.bytes.push b } hroom
      refine ⟨output', ?_, ?_⟩
      · rw [write, hput]
        exact hwrite
      · rw [hbytes]
        simp [ByteArray.data_push]

theorem Eval.print_all {store : Store} (hroom : store.output.room = none) (bytes : List UInt8) :
    ∃ output : Output, Eval.print bytes store = .ok 0 { store with output } ∧
      output.bytes.data.toList = store.output.bytes.data.toList ++ bytes := by
  obtain ⟨output, hwrite, hbytes⟩ := Output.write_all hroom bytes
  refine ⟨output, ?_, hbytes⟩
  rcases Eval.write_run bytes store with ⟨output', hok, hrun⟩ | ⟨output', hfull, -⟩
  · obtain rfl : output = output' := congrArg Prod.fst (hwrite.symm.trans hok)
    rw [print, Eval.bind_eq, hrun]
    rfl
  · rw [hwrite] at hfull
    cases hfull

theorem ofChar_ofNat : ∀ code : Fin 256, (Word.ofChar (Char.ofNat code) = 0 ↔ code.val = 0) ∧
    (Word.ofChar (Char.ofNat code)).toUInt32.toUInt8 = UInt8.ofNat code := by
  decide +kernel

/-- Characters with small codes are printed as bytes with these codes. -/
theorem printed_chars {codes : List Nat} (h : ∀ code ∈ codes, code < 256) :
    printed ((codes.map Char.ofNat).map Word.ofChar)
      = (codes.takeWhile fun code => code ≠ 0).map UInt8.ofNat := by
  induction codes with
  | nil => rfl
  | cons code codes ih =>
      obtain ⟨hcode, hcodes⟩ := List.forall_mem_cons.mp h
      obtain ⟨hzero, hbyte⟩ := ofChar_ofNat ⟨code, hcode⟩
      have ih := ih hcodes
      rw [printed] at ih ⊢
      rw [List.map_cons, List.map_cons]
      by_cases h₀ : code = 0
      · rw [List.takeWhile_cons_of_neg (by simpa using hzero.mpr h₀),
          List.takeWhile_cons_of_neg (by simpa using h₀)]
        rfl
      · rw [List.takeWhile_cons_of_pos (by simpa using fun h => h₀ (hzero.mp h)),
          List.takeWhile_cons_of_pos (by simpa using h₀), List.map_cons, List.map_cons, ih]
        exact congrArg (· :: _) hbyte

theorem PrintingBody.ne_nil {chars : List Char} {body : List Statement} (h : PrintingBody chars body) :
    body ≠ [] := by
  rintro rfl
  cases h

section

variable {T : Target} {program : Program} {segments : Segments} {image : Image} {s : State}
  {env : Env} {used limit : Int} {σ : List Word} {n : Nat} {chars : List Char}
  {body : List Statement} {code : Code} {meaning : Meaning} {callee : FunctionHead}

/-- The code of statements that print a text computes what they print, and the value 0. -/
theorem PrintingBody.computes (h : PrintingBody chars body) (henv : env.Inside T program)
    (hdepth : 0 < env.depth) (hfind : env.find? "putstr" = some meaning)
    (hentity : meaning.entity = .function callee []) (hname : callee.name.text = "putstr")
    (hcode : CodedStatements T env true body code) :
    Computes T program segments n env used limit σ code
      (Eval.print (printed (chars.map Word.ofChar))) (fun w => w :: σ) := by
  obtain @⟨evaluated, called, node, ended, value, putstr, text, zero, hputstr, htext, hchars, hzero,
    hdigits⟩ := h
  obtain ⟨first, others, ⟨call, hcall, rfl⟩, ⟨last, hlast, rfl⟩, rfl⟩ := hcode
  obtain ⟨meaning', head, body, frame, pushed, hfind', hentity', -, hframe, harguments, rfl⟩ := hcall
  rw [hputstr] at hfind'
  obtain rfl := Option.some.inj (hfind.symm.trans hfind')
  obtain ⟨rfl, rfl⟩ := Entity.function.inj (hentity.symm.trans hentity')
  obtain ⟨_, argument, rfl, hargument, rfl⟩ := harguments
  rcases hargument with ⟨hkind, -⟩ | ⟨-, k, rfl, hstring⟩
  · exact absurd htext hkind
  rcases hlast with ⟨-, w, hw, rfl⟩ | ⟨hkind, -⟩
  swap
  · exact absurd (hzero.symm.trans hkind) (by decide)
  have hwords : text.words = chars.map Word.ofChar := by
    rw [Literal.words, htext]
    exact congrArg (List.map Word.ofChar) (hchars ▸ String.toList_ofList)
  obtain rfl : w = 0 := by
    rw [Literal.words, hzero, hdigits] at hw
    exact (List.cons.inj hw).1.symm
  rw [hwords] at hstring
  have hprints : Computes T program segments n env used limit σ
      (Code.spanning node.span [.name (dataLabel k)] ++ Code.spanning called.span
        (frameAddress meaning.hops ++ [.name frame.label, .call frame]))
      (Eval.print (printed (chars.map Word.ofChar))) (fun w => w :: σ) := by
    rw [spanning_append]
    exact .prints henv hstring (pushesLink_frameAddress hdepth hfind) hfind hentity hframe hname
  have hdrop : ∀ w, Computes T program segments n env used limit (w :: σ)
      (Code.spanning evaluated.span [.push 4, .popn]) (pure (0 : Word)) (fun _ => σ) := fun _ => .drop
  have hpush : Computes T program segments n env used limit σ (Code.spanning value.span [.push 0])
      (pure 0) (fun w => w :: σ) := .push 0
  have haction : ∀ bytes, Eval.print bytes
      = (Eval.print bytes >>= fun _ => pure (0 : Word)) >>= fun _ => pure 0 := by
    simp [Eval.print]
  rw [haction]
  simpa using (hprints.bind hdrop).bind fun _ => hpush

/-- The function in front of the others is the one that a program starts with. -/
theorem lookup_main {head : FunctionHead} {declared : List Definition}
    (hname : head.name.text = "main") :
    (Region.definitions (.func head body :: declared)).entities.lookup "main"
      = some (.function head body) := by
  rw [← hname]
  exact List.lookup_cons_self

/-- The call of `main` in a program that prints a text. -/
theorem Executable.computes_printing {head : FunctionHead} {declared : List Definition} {main : Frame}
    {w : Word} (h : Executable (.func head body :: declared) T segments image s)
    (hname : head.name.text = "main") (hparameters : head.parameters = [])
    (hbody : PrintingBody chars body) (hdeclared : Declares declared systemNames)
    (hframe : T.layout.frames[head.id]? = some main)
    (hlabel : image.labels[main.label]? = some w) :
    Computes T (.func head body :: declared) segments 1 [.definitions (.func head body :: declared)] 0 0
      [] (Code.spanning .nowhere [.push 0, .name main.label, .call main])
      (Eval.call (fun _ => Eval.print (printed (chars.map Word.ofChar))) "main" []) (fun w => [w]) := by
  have hne := hbody.ne_nil
  have hfind : Env.find? [.definitions (.func head body :: declared)] "main"
      = some ⟨0, .function head body, [.definitions (.func head body :: declared)]⟩ := by
    rw [Env.find?, lookup_main hname]
  obtain ⟨-, ⟨-, code, hcode, hfragment, hinside, -, -, hplaced, -⟩ | ⟨hempty, -⟩⟩ :=
    h.callee h.inside_program hfind rfl hframe hlabel
  swap
  · exact absurd hempty hne
  obtain ⟨callee, hcallee, -, hputstr⟩ := @find?_putstr head body declared hname hparameters hdeclared
  have hlength : head.parameters.length = ([] : List Word).length := congrArg List.length hparameters
  let run : List Statement → Eval Word := fun _ => Eval.print (printed (chars.map Word.ofChar))
  have hrun : Computes T (.func head body :: declared) segments 0
      [.parameters head, .definitions (.func head body :: declared)] 0 (main.localsSize - 8) [] code
      (run body) (fun w => [w]) :=
    hbody.computes hinside (by simp) hputstr rfl hcallee hcode
  exact .call (pushesLink_program .nowhere) hfind rfl hne hframe hplaced hfragment hlength hrun

theorem Declares.storesWords {ds : List Definition} {names : List (String × Option String)}
    (h : Declares ds names) : ∀ d ∈ definitionsInside ds, d.StoresWord := by
  induction h with
  | nil => exact nofun
  | cons _ _ _ ih => exact List.forall_mem_cons.mpr ⟨trivial, ih⟩

/-- A program that prints a text has no variables. -/
theorem PrintingBody.storesWords {head : FunctionHead} {declared : List Definition}
    (hbody : PrintingBody chars body) (hdeclared : Declares declared systemNames) :
    Program.StoresWords (.func head body :: declared) := by
  cases hbody
  exact List.forall_mem_cons.mpr ⟨trivial, hdeclared.storesWords⟩

/-- What the call of `main` evaluates to if there is room for all output. -/
theorem Eval.call_printing {head : FunctionHead} {declared : List Definition} {store : Store}
    (hname : head.name.text = "main") (hparameters : head.parameters = []) (hbody : body ≠ [])
    (hrecords : RecordsFit [.definitions (.func head body :: declared)] store.records)
    (hroom : store.output.room = none) (bytes : List UInt8) :
    ∃ store', Eval.call (fun _ => Eval.print bytes) "main" [] store = .ok 0 store' ∧
      store'.output.bytes.data.toList = store.output.bytes.data.toList ++ bytes := by
  have hfind : Env.find? [.definitions (.func head body :: declared)] "main"
      = some ⟨0, .function head body, [.definitions (.func head body :: declared)]⟩ := by
    rw [Env.find?, lookup_main hname]
  obtain ⟨front, inner, cell, outer, -, -, hsplit, -, -, hcell⟩ := hrecords.splitAt? hfind
  cases cell with
  | value w => exact hcell.elim
  | function head' body' =>
      obtain ⟨rfl, rfl⟩ := hcell
      obtain ⟨output, hprint, hbytes⟩ := @Eval.print_all
        { store with records := .ofParameters head'.parameters [] :: outer } hroom bytes
      refine ⟨{ store with records := inner ++ outer, output }, ?_, hbytes⟩
      rw [Eval.call_of_splitAt? hsplit (congrArg List.length hparameters),
        if_neg (by simpa using hbody), Eval.inside_eq, hprint]
      rfl

/-- A loaded program that prints a text does so and exits with 0, if the stack does not meet the
heap. -/
theorem Executable.prints {head : FunctionHead} {declared : List Definition}
    (h : Executable (.func head body :: declared) T segments image s)
    (hname : head.name.text = "main") (hparameters : head.parameters = [])
    (hbody : PrintingBody chars body) (hdeclared : Declares declared systemNames)
    (hroom : s.output.room = none) :
    Overruns image s ∨ ∃ s', Ends image s (.exited 0) s' ∧ s'.output.bytes.data.toList
      = s.output.bytes.data.toList ++ printed (chars.map Word.ofChar) := by
  obtain ⟨head', body', main, exit, hmain, -, hframe, -, ⟨w, hlabel⟩, hexit, hexitLabel, hsize, hcode,
    -⟩ := h.entry
  obtain ⟨rfl, rfl⟩ := Entity.function.inj (Option.some.inj ((lookup_main hname).symm.trans hmain))
  have hrecords : RecordsFit [.definitions (.func head body :: declared)]
      [.ofDefinitions (.func head body :: declared)] := .cons (Record.fits_ofDefinitions _) .nil
  have hcomputes := h.computes_printing hname hparameters hbody hdeclared hframe hlabel
    ⟨_, s.input, s.output⟩ hrecords
  obtain ⟨store, hresult, hbytes⟩ := @Eval.call_printing body head declared ⟨_, s.input, s.output⟩ hname
    hparameters hbody.ne_nil hrecords hroom (printed (chars.map Word.ofChar))
  rw [ComputesFrom, hresult] at hcomputes
  obtain ⟨-, need, stack, hneed⟩ := hcomputes
  have hattains := h.follows_main hcode (hexit ▸ hexitLabel) hsize
    (hneed image _ _ _ s (h.poised (hbody.storesWords hdeclared) hcode))
  by_cases hlevel : s.heapEnd.toInt ≤ s.memory.size - needWithExit need (.ok 0 store)
  · obtain ⟨s', hends, houtput⟩ := hattains.fits hlevel
    exact .inr ⟨s', hends, houtput ▸ hbytes⟩
  · exact .inl (hattains.overruns (by omega))

end

/-- A program that prints a string constant is accepted. Wherever it is loaded, the stack meets the
heap or it exits with 0, after it has written the characters that the constant spells up to the first
with the code 0. -/
theorem prints_as_written {raw : String} (hraw : IsStringConstant raw.toList) {source : Source}
    (hsource : source.contents = printing raw) :
    (∃ codes, Decodes raw.toList codes) ∧
      (∃ analysis, analyze source.withSystemDeclarations = .ok analysis) ∧
      ∀ codes, Decodes raw.toList codes → ∀ memorySize input analysis compiled image s₀,
        Started source memorySize input {} analysis compiled image s₀ →
        Overruns image s₀ ∨ ∃ s, Ends image s₀ (.exited 0) s ∧
          s.output.bytes.data.toList = (codes.takeWhile fun code => code ≠ 0).map UInt8.ofNat := by
  obtain ⟨codes, hcodes⟩ := isStringConstant_iff.mp hraw
  obtain ⟨_, _, _, _, hanalyze, -⟩ := analyze_printing hcodes hsource
  refine ⟨⟨codes, hcodes⟩, ⟨_, hanalyze⟩, ?_⟩
  intro codes hcodes memorySize input analysis compiled image s₀ h
  obtain ⟨head, body, declared, resolution, hanalyze, hname, hparameters, hbody, hdeclared⟩ :=
    analyze_printing hcodes hsource
  obtain rfl := Except.ok.inj (h.analyzed.symm.trans hanalyze)
  obtain ⟨hexecutable, -, -, houtput⟩ := Executable.of_compile h.analyzed h.compiles h.loads
  refine (hexecutable.prints hname hparameters hbody hdeclared (houtput ▸ rfl)).imp_right ?_
  rintro ⟨s, hends, hbytes⟩
  refine ⟨s, hends, ?_⟩
  rw [hbytes, printed_chars hcodes.code_lt, houtput]
  rfl

def constantSample : String := "\"a\\n\\\"\\\\\\41\\00z\""

def spelledConstant : Spelled constantSample := .literal _

theorem decodes_constantSample : Decodes constantSample.toList [97, 10, 34, 92, 65, 0, 122] := by
  rw [spelledConstant.toList_eq]
  refine ⟨[['a'], ['\\', 'n'], ['\\', '"'], ['\\', '\\'], ['\\', '4', '1'], ['\\', '0', '0'], ['z']],
    rfl, ?_⟩
  exact .cons (.plain (by decide) (by decide) (by decide)) <| .cons .newline <| .cons .quote <|
    .cons .backslash <| .cons (@ElementCode.hex _ _ _ 4 1 rfl rfl) <|
    .cons (@ElementCode.hex _ _ _ 0 0 rfl rfl) <|
    .cons (.plain (by decide) (by decide) (by decide)) .nil

theorem prints_as_written_sample : IsStringConstant constantSample.toList ∧
    ∃ analysis compiled image s₀ s,
      Started ⟨printing constantSample, .memory⟩ 300 [] {} analysis compiled image s₀ ∧
        Ends image s₀ (.exited 0) s ∧ s.output.bytes.data.toList = [97, 10, 34, 92, 65] := by
  have hconstant := isStringConstant_iff.mpr ⟨_, decodes_constantSample⟩
  have hspelled : printing constantSample = String.ofList spelledConstant.printing.chars := by
    rw [← spelledConstant.printing.toList_eq, String.ofList_toList]
  have hchecks : (start? ⟨printing constantSample, .memory⟩ 300 [] {}).any (fun r =>
      decide ((runFor r.2.2.1 100 r.2.2.2).1 = .exited 0)) = true := by
    rw [start?_spelled _ hspelled (by decide)]
    decide +kernel
  obtain ⟨analysis, compiled, image, s₀, h, htest⟩ := exists_started hchecks
  obtain ⟨-, -, hprints⟩ := @prints_as_written _ hconstant ⟨printing constantSample, .memory⟩ rfl
  have hends : Ends image s₀ (.exited 0) (runFor image 100 s₀).2 :=
    ⟨Outcome.noConfusion, 100, Prod.ext (of_decide_eq_true htest) rfl⟩
  rcases hprints _ decodes_constantSample 300 [] _ _ _ _ h with
    ⟨a, b, stack, s', hover⟩ | ⟨s, hs, hbytes⟩
  · exact absurd (hends.unique hover).1 Outcome.noConfusion
  · exact ⟨hconstant, analysis, compiled, image, s₀, s, h, hs, hbytes⟩

end NestedFun
