import NestedFun.Proofs.ProgramEvaluation

namespace NestedFun

/-!
# Texts in evaluations

The text of a string constant stands among the data of the program, with a zero behind it. `putstr`
writes the low bytes of its words up to the first zero.
-/

/-- What is written of a text: the low bytes of its words, up to the first zero. -/
def printed (words : List Word) : List UInt8 :=
  (words.takeWhile fun w => w ≠ 0).map fun w => w.toUInt32.toUInt8

/-- Writing bytes, with the result of a system function that has none. -/
def Eval.print (bytes : List UInt8) : Eval Word := Eval.write bytes >>= fun _ => pure 0

/-- Copying a text writes its bytes as long as there is room. -/
theorem Memory.copyText_eq {m : Memory} {words : List Word} {i : Nat} {output : Output}
    (hwords : m.HasWords i (words ++ [0])) (hroom : i + 4 * (words.length + 1) ≤ m.size) :
    m.copyText output i = ((output.write (printed words)).1,
      if (output.write (printed words)).2 then .ok () else .error (.console .outputFull)) := by
  induction words generalizing i output with
  | nil =>
      have hzero : m.getWord i = 0 := hwords.1
      rw [copyText, if_pos (by simp only [wordSize, List.length_nil] at *; omega)]
      simp only [hzero, if_true]
      rfl
  | cons w words ih =>
      obtain ⟨hw, hwords⟩ := hwords
      have hw : m.getWord i = w := hw
      rw [List.length_cons] at hroom
      rw [copyText, if_pos (by simp only [wordSize]; omega)]
      simp only [hw]
      by_cases hzero : w = 0
      · rw [if_pos hzero, printed, List.takeWhile_cons_of_neg (by simpa using hzero)]
        rfl
      · rw [if_neg hzero, printed, List.takeWhile_cons_of_pos (by simpa using hzero), List.map_cons,
          Output.write]
        cases output.put? w.toUInt32.toUInt8 with
        | none => rfl
        | some output => exact ih (i := i + 4) hwords (by omega)

/-- Writing the text at an address is writing its bytes. -/
theorem Exec.emitText_eq {s : State} {words : List Word} {a : Int}
    (hstart : s.memory.dataStart ≤ a) (hstop : a + 4 * (words.length + 1) ≤ s.memory.size)
    (hsize : s.memory.size < 2147483648) (hwords : s.memory.HasWords a (words ++ [0])) :
    Exec.emitText (.ofInt a) s = Exec.emit (printed words) s := by
  obtain ⟨i, rfl⟩ := Int.eq_ofNat_of_zero_le (a := a) (by omega)
  have hholds : s.memory.Holds (.ofInt i) :=
    (s.memory.holds_ofInt (by omega) (by omega)).mpr ⟨hstart, by omega⟩
  have hint : (Word.ofInt i).toInt.toNat = i := by
    rw [Word.toInt_ofInt (by omega) (by omega), Int.toNat_natCast]
  rw [Exec.emitText, if_pos hholds, hint, Memory.copyText_eq hwords (by omega)]
  rcases Exec.emit_run (printed words) s with ⟨output, hwrite, hok⟩ | ⟨output, hwrite, herror⟩
  · rw [hok, hwrite]
    rfl
  · rw [herror, hwrite]
    rfl

section

variable {T : Target} {program : Program} {segments : Segments} {image : Image} {s₀ : State}
  {env : Env} {used limit : Int} {σ : List Word} {n : Nat}

/-- The text of a string constant stands among the data at the address of its label. -/
theorem Executable.text_addressed (h : Executable program T segments image s₀) {span : Span} {k : Nat}
    {words : List Word}
    (hstring : Data.spanning span (.label (dataLabel k) :: words.map .word) ∈ T.fragments.strings) :
    ∃ a : Int, image.labels[dataLabel k]? = some (.ofInt a) ∧ Code.size segments.code ≤ a ∧
      a + 4 * words.length ≤ segments.dataStop ∧ ∀ m, segments.Intact m → m.HasWords a words :=
  h.words_addressed (h.string_within hstring)

/-- In a state that is ready, `putstr` at the address of a text writes the text. -/
theorem Ready.does_putstr {sites : List Site} {anchor pc : Int} {words : List Word} {a : Int}
    {store : Store} {s e : State} (h : Ready T segments image sites anchor used limit pc σ store s)
    (hstart : Code.size segments.code ≤ a)
    (hstop : a + 4 * (words ++ [0]).length ≤ segments.dataStop)
    (hwords : s.memory.HasWords a (words ++ [0])) (hmemory : e.memory = s.memory)
    (hinput : e.input = store.input) (houtput : e.output = store.output)
    (hread : Exec.read (e.sp + 4) e = .ok (.ofInt a) e) :
    SystemFunction.putstr.Does (Eval.print (printed words)) store e := by
  obtain ⟨h₀, hdata, hheapLe, hused, hle, hsize⟩ := h.room
  have hlt := h.stack.size_lt
  have hdataStart := h.dataStart_eq
  have hdataLe := h.data_le
  rw [List.length_append, List.length_singleton] at hstop
  push_cast at hstop
  have hemit : Exec.emitText (.ofInt a) e = Exec.emit (printed words) e :=
    Exec.emitText_eq (by rw [hmemory]; omega) (by rw [hmemory]; omega) (by rw [hmemory]; omega)
      (hmemory ▸ hwords)
  have hsystem : Exec.system .putstr (Exec.read (e.sp + 4)) e
      = (Exec.emitText (.ofInt a) >>= fun _ => pure 0) e := Exec.bind_ok hread
  refine .of_write (printed words) (by decide) (hsystem.trans ?_) rfl houtput hinput
  simp only [bind, EStateM.bind, hemit]

variable {span span' span'' : Span} {k : Nat} {words : List Word} {link : Code} {name : String}
  {meaning : Meaning} {head : FunctionHead} {frame : Frame}

/-- The code of a call of `putstr` for a string constant writes the text of the constant. -/
theorem Computes.prints (henv : env.Inside T program)
    (hstring : Data.spanning span (.label (dataLabel k) :: (words ++ [0]).map .word)
      ∈ T.fragments.strings)
    (hlink : PushesLink T program segments env used limit meaning.home link)
    (hfind : env.find? name = some meaning) (hentity : meaning.entity = .function head [])
    (hframe : T.layout.frames[head.id]? = some frame) (hname : head.name.text = "putstr") :
    Computes T program segments n env used limit σ (Code.spanning span' [.name (dataLabel k)]
        ++ (link ++ Code.spanning span'' [.name frame.label, .call frame]))
      (Eval.print (printed words)) (fun w => w :: σ) := by
  intro store hrecords
  refine (Eval.write_described (printed words) store).imp (fun _ => False.elim) fun hsame => ?_
  refine ⟨fun w store' h => hsame w store' h ▸ hrecords, max (4 * σ.length + 4)
    (max (4 * (σ.length + 1) + 8) 0), [frame.label], fun image sites anchor pc s hs => ?_⟩
  obtain ⟨s₁, h₁⟩ := hs.executable
  obtain ⟨a, hlabel, hstart, hstop, hwords⟩ := h₁.text_addressed hstring
  have hpushed := hs.ready.moves_name hs.data_fits hs.holds hlabel
  have hpiece := (Code.HasAt.append (Code.HasAt.self (Code.spanning span' [.name (dataLabel k)]
    ++ (link ++ Code.spanning span'' [.name frame.label, .call frame])))).2
  have hsize : Code.size (Code.spanning span' [.name (dataLabel k)])
      = (Instruction.name (dataLabel k)).size := add_zero _
  rw [zero_add, hsize] at hpiece
  rw [Code.size_append, ← add_assoc, hsize]
  refine hpushed.achieves fun s' hs' hkept => ?_
  have hpoised : Poised T program segments env used limit ([.ofInt a] ++ σ) _ store image sites anchor
      _ s' := ⟨hs.at_position hpiece, hs'⟩
  obtain ⟨front, hfront⟩ := (Env.find?_home hfind).1
  obtain ⟨region, home, hhome, -⟩ := Env.find?_region hfind
  obtain ⟨fronts, p, tail, w, -, -, -, hw, pc', hcode, hpc', hmoves⟩ :=
    hpoised.moves_callee hlink hfront.symm (hhome ▸ List.cons_ne_nil _ _)
  obtain ⟨hfits, ⟨hbody, -⟩ | ⟨-, -, function, hfunction, rfl, harity⟩⟩ :=
    h₁.callee henv hfind hentity hframe hw
  · exact absurd rfl hbody
  obtain rfl : function = .putstr :=
    Option.some.inj (by rw [← SystemFunction.ofName?_name function, hfunction, hname]; rfl)
  refine hmoves.achieves fun s'' hs'' hkept' => ?_
  refine (hs''.calls_doing hs.data_fits hcode ?_ fun e hmemory hinput houtput hread =>
    hs''.does_putstr hstart hstop (hwords _ hs''.intact) hmemory hinput houtput
      (hread _ rfl)).imp fun hachieves => ?_
  · rw [hfits.parametersSize_eq, harity]
    rfl
  · refine hachieves.of_leads (.refl _ _) rfl rfl fun v store' s₃ _ hs₃ => ?_
    rw [← hpc']
    exact ⟨hs₃.1, (hkept.trans hkept').trans hs₃.2⟩

end

end NestedFun
