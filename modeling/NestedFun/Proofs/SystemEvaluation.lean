import NestedFun.Proofs.StraightCode
import NestedFun.Proofs.SystemCalls

namespace NestedFun

/-!
# System functions in evaluations

A system function does to the console of the machine what evaluation says, and what it leaves is the
result of the call.
-/

namespace Eval

theorem bind_ok {α β : Type} {f : Eval α} {g : α → Eval β} {store store' : Store} {v : α}
    (h : f store = .ok v store') : (f >>= g) store = g v store' := by
  rw [bind_eq, h]

theorem bind_error {α β : Type} {f : Eval α} {g : α → Eval β} {store store' : Store} {halt : Halt}
    (h : f store = .error halt store') : (f >>= g) store = .error halt store' := by
  rw [bind_eq, h]

theorem takeLine_run (store : Store) : (modifyGet fun store : Store =>
      let (line, rest) := splitLine store.input
      (line, { store with input := rest }) : Eval (List UInt8)) store
    = .ok (splitLine store.input).1 { store with input := (splitLine store.input).2 } := rfl

/-- What is written goes to the output as far as there is room. -/
theorem write_run (bytes : List UInt8) (store : Store) :
    (∃ output, store.output.write bytes = (output, true) ∧
        write bytes store = .ok () { store with output }) ∨
      ∃ output, store.output.write bytes = (output, false) ∧
        write bytes store = .error (.faulted (.console .outputFull)) { store with output } := by
  rcases hw : store.output.write bytes with ⟨output, complete⟩
  have hmodify : (modifyGet fun store : Store => ((store.output.write bytes).2,
      { store with output := (store.output.write bytes).1 }) : Eval Bool) store
      = .ok complete { store with output } := by
    show EStateM.Result.ok _ _ = _
    rw [hw]
  have hwrite : write bytes store = _ := bind_ok hmodify
  rw [hwrite]
  cases complete with
  | true => exact .inl ⟨output, rfl, rfl⟩
  | false => exact .inr ⟨output, rfl, rfl⟩

end Eval

/-- A system function does to the console what an evaluation says: it ends the program, has a result,
or fails. -/
inductive SystemFunction.Does (function : SystemFunction) (action : Eval Word) (store : Store)
    (s : State) : Prop
  | exits (code : Word) (hfunction : function = .exit)
      (heval : action store = .error (.exited code) store)
      (hexec : Exec.system function (Exec.read (s.sp + 4)) s = .ok code s)
  | answers (v : Word) (input : List UInt8) (output : Output) (hfunction : function ≠ .exit)
      (heval : action store = .ok v { store with input, output })
      (hexec : Exec.system function (Exec.read (s.sp + 4)) s = .ok v { s with input, output })
  | fails (kind : FaultKind) (input : List UInt8) (output : Output)
      (heval : action store = .error (.faulted kind) { store with input, output })
      (hexec : Exec.system function (Exec.read (s.sp + 4)) s = .error kind { s with input, output })

/-- A system function that writes bytes. -/
theorem SystemFunction.Does.of_write {function : SystemFunction} {action : Eval Word}
    {store : Store} {s : State} (bytes : List UInt8) (hfunction : function ≠ .exit)
    (hexec : Exec.system function (Exec.read (s.sp + 4)) s
      = (Exec.emit bytes >>= fun _ => pure 0) s)
    (heval : action store = (Eval.write bytes >>= fun _ => pure 0) store)
    (houtput : s.output = store.output) (hinput : s.input = store.input) :
    function.Does action store s := by
  obtain ⟨memory, pc, sp, fp, heapEnd, callStack, input, output⟩ := s
  obtain ⟨records, input', output'⟩ := store
  obtain rfl : input = input' := hinput
  obtain rfl : output = output' := houtput
  rcases Eval.write_run bytes ⟨records, input, output⟩ with ⟨out, hwrite, hok⟩ | ⟨out, hwrite, herror⟩
  · rcases Exec.emit_run bytes ⟨memory, pc, sp, fp, heapEnd, callStack, input, output⟩ with
      ⟨out', hwrite', hok'⟩ | ⟨out', hwrite', -⟩
    · cases hwrite.symm.trans hwrite'
      exact .answers 0 input out hfunction (heval.trans (Eval.bind_ok hok))
        (hexec.trans (Exec.bind_ok hok'))
    · cases hwrite.symm.trans hwrite'
  · rcases Exec.emit_run bytes ⟨memory, pc, sp, fp, heapEnd, callStack, input, output⟩ with
      ⟨out', hwrite', -⟩ | ⟨out', hwrite', herror'⟩
    · cases hwrite.symm.trans hwrite'
    · cases hwrite.symm.trans hwrite'
      exact .fails (.console .outputFull) input out (heval.trans (Eval.bind_error herror))
        (hexec.trans (Exec.bind_error herror'))

/-- Machine and evaluation agree on the system functions that do not deal with addresses. -/
theorem SystemFunction.does {function : SystemFunction} {arguments : List Word} {store : Store}
    {s : State} (harity : arguments.length = function.arity)
    (hread : ∀ w, arguments = [w] → Exec.read (s.sp + 4) s = .ok w s)
    (hinput : s.input = store.input) (houtput : s.output = store.output)
    (hputstr : function ≠ .putstr) (hnew : function ≠ .new) :
    function.Does (Eval.system function arguments) store s := by
  obtain ⟨memory, pc, sp, fp, heapEnd, callStack, input, output⟩ := s
  obtain ⟨records, input', output'⟩ := store
  obtain rfl : input = input' := hinput
  obtain rfl : output = output' := houtput
  cases function with
  | exit =>
      obtain ⟨code, rfl⟩ := List.length_eq_one_iff.mp harity
      exact .exits code rfl rfl (hread code rfl)
  | putstr => exact absurd rfl hputstr
  | new => exact absurd rfl hnew
  | del =>
      obtain ⟨w, rfl⟩ := List.length_eq_one_iff.mp harity
      exact .answers 0 input output (by decide) rfl rfl
  | getint =>
      obtain rfl := List.length_eq_zero_iff.mp harity
      have htake := Eval.takeLine_run ⟨records, input, output⟩
      have htake' := Exec.takeLine_run ⟨memory, pc, sp, fp, heapEnd, callStack, input, output⟩
      cases hline : readInteger (splitLine input).1 with
      | ok value =>
          refine .answers value (splitLine input).2 output (by decide) ?_ ?_
          · refine (Eval.bind_ok htake).trans ?_
            simp only [hline]
            rfl
          · rw [Exec.system, Exec.bind_ok htake']
            simp only [hline]
            rfl
      | error error =>
          refine .fails (.console error) (splitLine input).2 output ?_ ?_
          · refine (Eval.bind_ok htake).trans ?_
            simp only [hline]
            rfl
          · rw [Exec.system, Exec.bind_ok htake']
            simp only [hline]
            rfl
  | getchr =>
      obtain rfl := List.length_eq_zero_iff.mp harity
      cases input with
      | nil => exact .answers (-1) [] output (by decide) rfl rfl
      | cons b input => exact .answers (.ofInt b.toNat) input output (by decide) rfl rfl
  | putint =>
      obtain ⟨w, rfl⟩ := List.length_eq_one_iff.mp harity
      have hread' := hread w rfl
      exact .of_write w.numeral.toUTF8.toList (by decide) (Exec.bind_ok hread') rfl rfl rfl
  | putchr =>
      obtain ⟨w, rfl⟩ := List.length_eq_one_iff.mp harity
      have hread' := hread w rfl
      exact .of_write [w.toUInt32.toUInt8] (by decide) (Exec.bind_ok hread') rfl rfl rfl

/-- Writing leaves the records. -/
theorem Eval.write_described (bytes : List UInt8) (store : Store) :
    Describes ((Eval.write bytes >>= fun _ => pure (0 : Word)) store) (fun _ => False) (∀ v store',
      (Eval.write bytes >>= fun _ => pure (0 : Word)) store = .ok v store' →
        store'.records = store.records) := by
  rcases Eval.write_run bytes store with ⟨output, -, hok⟩ | ⟨output, -, herror⟩
  · rw [Eval.bind_ok hok]
    rintro v store' h
    cases h
    rfl
  · rw [Eval.bind_error herror]
    exact nofun

/-- What a system function does to the console is always described, and it leaves the records. -/
theorem Eval.system_described {function : SystemFunction} {arguments : List Word} {store : Store}
    (harity : arguments.length = function.arity) (hputstr : function ≠ .putstr)
    (hnew : function ≠ .new) :
    Describes (Eval.system function arguments store) (fun _ => False) (∀ v store',
      Eval.system function arguments store = .ok v store' → store'.records = store.records) := by
  cases function with
  | putstr => exact absurd rfl hputstr
  | new => exact absurd rfl hnew
  | exit =>
      obtain ⟨code, rfl⟩ := List.length_eq_one_iff.mp harity
      exact nofun
  | del =>
      obtain ⟨w, rfl⟩ := List.length_eq_one_iff.mp harity
      rintro v store' h
      cases h
      rfl
  | getint =>
      obtain rfl := List.length_eq_zero_iff.mp harity
      have hrun : Eval.system .getint [] store = _ := Eval.bind_ok (Eval.takeLine_run store)
      rw [hrun]
      cases readInteger (splitLine store.input).1 with
      | ok value =>
          rintro v store' h
          cases h
          rfl
      | error error => exact nofun
  | getchr =>
      obtain rfl := List.length_eq_zero_iff.mp harity
      obtain ⟨records, input, output⟩ := store
      cases input with
      | nil =>
          rintro v store' h
          cases h
          rfl
      | cons b input =>
          rintro v store' h
          cases h
          rfl
  | putint =>
      obtain ⟨w, rfl⟩ := List.length_eq_one_iff.mp harity
      exact write_described w.numeral.toUTF8.toList store
  | putchr =>
      obtain ⟨w, rfl⟩ := List.length_eq_one_iff.mp harity
      exact write_described [w.toUInt32.toUInt8] store

end NestedFun
