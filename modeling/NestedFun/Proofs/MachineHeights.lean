import NestedFun.Proofs.FunctionHeights
import NestedFun.Proofs.MachineSteps
import NestedFun.Proofs.WordArithmetic

namespace NestedFun

/-!
# Heights in the machine

The effects of instructions are what the machine does: an instruction that stays in a function moves
the top of the stack by its effect and leaves the frame pointer, a call starts a frame at the height
of a header, and a return demands the height at which code gets to it.
-/

/-- Whenever a computation succeeds, it has added a number of bytes to the stack of the frame. -/
def Exec.Raises {α : Type} (d : Int) (x : Exec α) : Prop :=
  ∀ s a s', x s = .ok a s' → s'.sp = s.sp - .ofInt d ∧ s'.fp = s.fp

namespace Exec

variable {α β : Type} {d e : Int} {s s' : State} {image : Image}

theorem Raises.congr {x : Exec α} (h : x.Raises d) (hd : d = e) : x.Raises e := hd ▸ h

theorem Raises.bind {x : Exec α} {f : α → Exec β} (hx : x.Raises d) (hf : ∀ a, (f a).Raises e) :
    (x >>= f).Raises (d + e) := by
  intro s b s' hrun
  obtain ⟨a, t, ha, hb⟩ := of_bind_ok hrun
  obtain ⟨hsp, hfp⟩ := hx s a t ha
  obtain ⟨hsp', hfp'⟩ := hf a t b s' hb
  refine ⟨?_, hfp'.trans hfp⟩
  rw [hsp', hsp, ← Word.ofInt_add]
  grind

/-- A computation that leaves the registers of the stack. -/
theorem Raises.of_eq {x : Exec α}
    (h : ∀ s a s', x s = .ok a s' → s'.sp = s.sp ∧ s'.fp = s.fp) : x.Raises 0 := by
  intro s a s' hrun
  obtain ⟨hsp, hfp⟩ := h s a s' hrun
  refine ⟨?_, hfp⟩
  rw [hsp]
  show s.sp = s.sp - 0
  grind

theorem raises_pure (a : α) : (pure a : Exec α).Raises 0 := .of_eq fun s b s' h => by
  cases h
  exact ⟨rfl, rfl⟩

theorem raises_throw (kind : FaultKind) : (throw kind : Exec α).Raises d := fun s a s' h => by
  cases h

theorem raises_get : (get : Exec State).Raises 0 := .of_eq fun s a s' h => by
  cases h
  exact ⟨rfl, rfl⟩

theorem raises_read (a : Word) : (read a).Raises 0 := .of_eq fun s v s' h => by
  obtain rfl := read_ok h
  exact ⟨rfl, rfl⟩

theorem raises_write (a v : Word) : (write a v).Raises 0 := .of_eq fun s u s' h => by
  simp only [write] at h
  split at h
  · cases h
    exact ⟨rfl, rfl⟩
  · cases h

theorem raises_jump (target : Word) : (jump image target).Raises 0 := .of_eq fun s u s' h => by
  obtain rfl := jump_ok h
  exact ⟨rfl, rfl⟩

theorem raises_push (v : Word) : (push v).Raises 4 := by
  intro s u s' h
  simp only [push] at h
  split at h
  · cases h
  · split at h
    · cases h
      exact ⟨rfl, rfl⟩
    · cases h

theorem raises_pop : pop.Raises (-4) := by
  intro s v s' h
  obtain rfl := pop_ok h
  refine ⟨?_, rfl⟩
  show s.sp + 4 = s.sp - (-4)
  grind

theorem raises_moveTop (distance : Word) : (moveTop distance).Raises (-distance.toInt) := by
  intro s u s' h
  simp only [moveTop] at h
  split at h
  · cases h
  · split at h
    · cases h
    · cases h
      refine ⟨?_, rfl⟩
      show Word.ofInt (s.sp.toInt + distance.toInt) = s.sp - .ofInt (-distance.toInt)
      conv_rhs => rw [← Word.ofInt_toInt s.sp, Word.ofInt_sub, Int.sub_neg]

theorem raises_operate (operator : Operator) :
    (operate operator).Raises (if operator.isUnary then 0 else -4) := by
  rw [operate]
  cases hunary : operator.isUnary with
  | true =>
      refine (raises_pop.bind fun y => (raises_pure 0).bind (e := 4) fun x => ?_).congr (by simp)
      dsimp only
      split
      · exact raises_push _
      · exact raises_throw _
  | false =>
      refine (raises_pop.bind fun y => raises_pop.bind (e := 4) fun x => ?_).congr (by simp)
      dsimp only
      split
      · exact raises_push _
      · exact raises_throw _

theorem raises_copyWords (n : Nat) (source target : Word) :
    (copyWords n source target).Raises 0 := by
  induction n generalizing source target with
  | zero => exact raises_pure target
  | succ n ih =>
      exact ((raises_read _).bind fun _ => (raises_write _ _).bind fun _ => ih _ _).congr rfl

theorem raises_copyRepeated (length : Nat) (source : Word) (n : Nat) (target : Word) :
    (copyRepeated length source n target).Raises 0 := by
  induction n generalizing target with
  | zero => exact raises_pure target
  | succ n ih => exact ((raises_copyWords length source target).bind fun _ => ih _).congr rfl

theorem raises_expandGroups (n : Nat) (source target : Word) :
    (expandGroups n source target).Raises 0 := by
  induction n generalizing source target with
  | zero => exact raises_pure _
  | succ n ih =>
      exact ((raises_read _).bind fun _ => (raises_read _).bind fun _ =>
        (raises_copyRepeated _ _ _ _).bind fun _ => ih _ _).congr rfl

theorem raises_modifyGet {f : State → α × State}
    (hf : ∀ s, (f s).2.sp = s.sp ∧ (f s).2.fp = s.fp) : (modifyGet f : Exec α).Raises 0 :=
  .of_eq fun s a s' h => by
    cases h
    exact hf s

theorem raises_emit (bytes : List UInt8) : (emit bytes).Raises 0 := by
  rw [emit]
  refine ((raises_modifyGet fun s => ⟨rfl, rfl⟩).bind (e := 0) fun complete => ?_).congr rfl
  split
  · exact raises_throw _
  · exact raises_pure _

theorem raises_emitText (a : Word) : (emitText a).Raises 0 := .of_eq fun s u s' h => by
  simp only [emitText] at h
  split at h
  · split at h
    · cases h
      exact ⟨rfl, rfl⟩
    · cases h
  · cases h

theorem raises_allocate (size : Word) : (allocate size).Raises 0 := .of_eq fun s a s' h => by
  simp only [allocate] at h
  split at h
  · cases h
  · split at h
    · cases h
      exact ⟨rfl, rfl⟩
    · cases h

theorem raises_takeLine : takeLine.Raises 0 := raises_modifyGet fun _ => ⟨rfl, rfl⟩

theorem raises_takeByte : takeByte.Raises 0 := raises_modifyGet fun _ => ⟨rfl, rfl⟩

/-- The work of a system function leaves the stack as it is. -/
theorem raises_system (function : SystemFunction) {argument : Exec Word}
    (h : argument.Raises 0) : (system function argument).Raises 0 := by
  cases function with
  | exit => exact h
  | getint =>
      refine (raises_takeLine.bind (e := 0) fun line => ?_).congr rfl
      split
      · exact raises_pure _
      · exact raises_throw _
  | putint => exact (h.bind fun _ => (raises_emit _).bind fun _ => raises_pure _).congr rfl
  | getchr =>
      refine (raises_takeByte.bind (e := 0) fun b => ?_).congr rfl
      split
      · exact raises_pure _
      · exact raises_pure _
  | putchr => exact (h.bind fun _ => (raises_emit _).bind fun _ => raises_pure _).congr rfl
  | putstr => exact (h.bind fun _ => (raises_emitText _).bind fun _ => raises_pure _).congr rfl
  | new => exact (h.bind fun _ => raises_allocate _).congr rfl
  | del => exact raises_pure 0

/-- What follows a computation without any effect of its own. -/
theorem Raises.done {x : Exec Unit} (h : x.Raises d) :
    (x >>= fun _ => (pure none : Exec (Option Word))).Raises d :=
  (h.bind fun _ => raises_pure none).congr (Int.add_zero d)

end Exec

/-- An instruction that neither moves the stack by a popped number of bytes, calls nor returns adds
what its effect says. -/
theorem Instruction.effect_performed {image : Image} {i : Instruction} {before : List Instruction}
    {d : Int} {exit : Exit} (h : i.effect? before = some (d, exit)) (hpopn : i ≠ .popn)
    (hcall : ∀ frame, i ≠ .call frame) (hretn : ∀ frame, i ≠ .retn frame) :
    (Exec.perform image i).Raises d := by
  open Exec in
  cases i with
  | label l =>
      cases h
      exact raises_pure none
  | push v =>
      cases h
      exact (raises_push v).done
  | popn => exact absurd rfl hpopn
  | regn register =>
      cases h
      exact (raises_get.bind fun s => (raises_push s.fp).done).congr rfl
  | oper operator =>
      cases h
      exact (raises_operate operator).done
  | load =>
      cases h
      exact (raises_pop.bind fun a => (raises_read a).bind fun v => (raises_push v).done).congr rfl
  | save =>
      cases h
      exact (raises_pop.bind fun a => raises_pop.bind fun v => (raises_write a v).done).congr rfl
  | name l =>
      cases h
      simp only [perform]
      cases image.addressOf l with
      | ok a => exact (raises_push a).done
      | error kind => exact (raises_throw (d := 4) kind).done
  | call frame => exact absurd rfl (hcall frame)
  | retn frame => exact absurd rfl (hretn frame)
  | ujmp =>
      simp only [effect?] at h
      split at h
      · cases h
        exact (raises_pop.bind fun target => (raises_jump target).done).congr rfl
      · cases h
  | cjmp =>
      simp only [effect?] at h
      split at h
      · cases h
        exact (raises_pop.bind fun negative => raises_pop.bind fun positive =>
          raises_pop.bind fun condition => (raises_jump _).done).congr rfl
      · cases h
  | init =>
      cases h
      exact (raises_pop.bind fun encoding => raises_pop.bind fun destination =>
        Raises.done ((raises_read _).bind fun groups => raises_expandGroups _ _ _)).congr rfl

section

variable {image : Image} {s s' : State} {r : Option Word}

/-- A number of bytes is popped with the word that says how many. -/
theorem Instruction.popn_performed {n : Word} (htop : s.memory.read s.sp = .ok n)
    (hrun : Exec.perform image .popn s = .ok r s') :
    s'.sp = s.sp - .ofInt (-4 - n.toInt) ∧ s'.fp = s.fp := by
  obtain ⟨v, t, hpop, hrest⟩ := Exec.of_bind_ok hrun
  obtain ⟨hsp, hfp⟩ := Exec.raises_pop s v t hpop
  cases (Exec.read_of_pop hpop).symm.trans htop
  obtain ⟨hsp', hfp'⟩ := (Exec.raises_moveTop _).done t r s' hrest
  refine ⟨?_, hfp'.trans hfp⟩
  rw [hsp', hsp, Int.sub_eq_add_neg, ← Word.ofInt_add]
  grind

/-- An instruction that stays in the function adds what its effect says, when what the instruction in
front has pushed is on top. -/
theorem Instruction.stays_performed {i : Instruction} {before : List Instruction} {d : Int}
    {exit : Exit} (h : i.effect? before = some (d, exit)) (hexit : exit ≠ .leave)
    (hcall : ∀ callee, i ≠ .call callee)
    (htop : ∀ v rest, before = .push v :: rest → s.memory.read s.sp = .ok v)
    (hrun : Exec.perform image i s = .ok r s') : s'.sp = s.sp - .ofInt d ∧ s'.fp = s.fp := by
  by_cases hpopn : i = .popn
  · subst hpopn
    simp only [effect?] at h
    split at h
    · rename_i n rest
      cases h
      exact popn_performed (htop n rest rfl) hrun
    · cases h
  · have hretn : ∀ frame, i ≠ .retn frame :=
      fun frame hi => hexit ((leaves_iff h).mpr ⟨frame, hi⟩)
    exact effect_performed h hpopn hcall hretn s r s' hrun

/-- A call of code starts a frame where the arguments and the static link end. Its height is that of
the header. -/
theorem Instruction.call_performed {frame : Frame} {target : Word}
    (htop : s.memory.read s.sp = .ok target) (hcode : SystemFunction.ofAddress? target = none)
    (hrun : Exec.perform image (.call frame) s = .ok r s') :
    s'.fp = s.sp + 4 ∧ s'.sp = s'.fp - .ofInt headerSize := by
  obtain ⟨v, t, hpop, hrest⟩ := Exec.of_bind_ok hrun
  cases (Exec.read_of_pop hpop).symm.trans htop
  obtain rfl := Exec.pop_ok hpop
  rw [Exec.call] at hrest
  obtain ⟨_, t, henter, hrest⟩ := Exec.of_bind_ok hrest
  cases henter
  simp only [hcode] at hrest
  obtain ⟨_, t, hget, hrest⟩ := Exec.of_bind_ok hrest
  cases hget
  obtain ⟨_, t, hjump, hrest⟩ := Exec.of_bind_ok hrest
  obtain ⟨hsp, -⟩ := Exec.raises_jump _ _ _ t hjump
  obtain ⟨_, t', hmodify, hrest⟩ := Exec.of_bind_ok hrest
  cases hmodify
  obtain ⟨hsp', hfp'⟩ :=
    (Exec.raises_push _).bind (fun _ => (Exec.raises_push _).done) _ _ _ hrest
  refine ⟨?_, hfp' ▸ hsp'⟩
  rw [hfp']
  show t.sp = s.sp + 4
  rw [hsp]
  show s.sp + 4 - 0 = s.sp + 4
  grind

/-- A call of a system function replaces the arguments, the static link and the address by the
result, unless the program ends. -/
theorem Instruction.system_performed {frame : Frame} {target : Word} {function : SystemFunction}
    (htop : s.memory.read s.sp = .ok target)
    (hfunction : SystemFunction.ofAddress? target = some function)
    (hrun : Exec.perform image (.call frame) s = .ok none s') :
    s'.sp = s.sp + .ofInt frame.parametersSize ∧ s'.fp = s.fp := by
  obtain ⟨v, t, hpop, hrest⟩ := Exec.of_bind_ok hrun
  cases (Exec.read_of_pop hpop).symm.trans htop
  obtain rfl := Exec.pop_ok hpop
  rw [Exec.call] at hrest
  obtain ⟨_, t, henter, hrest⟩ := Exec.of_bind_ok hrest
  cases henter
  simp only [hfunction] at hrest
  obtain ⟨_, t, hget, hrest⟩ := Exec.of_bind_ok hrest
  cases hget
  obtain ⟨result, t, hsystem, hrest⟩ := Exec.of_bind_ok hrest
  obtain ⟨-, hfp⟩ := Exec.raises_system function (Exec.raises_read _) _ _ t hsystem
  split at hrest
  · cases hrest
  obtain ⟨_, t₁, hwrite, hrest⟩ := Exec.of_bind_ok hrest
  obtain ⟨-, hfp'⟩ := Exec.raises_write _ _ t _ t₁ hwrite
  obtain ⟨_, t₂, hmodify, hrest⟩ := Exec.of_bind_ok hrest
  cases hmodify
  cases hrest
  refine ⟨?_, hfp'.trans hfp⟩
  show s.sp + .ofInt linkSize + .ofInt (frame.parametersSize - linkSize) = _
  rw [Int32.add_assoc, Word.ofInt_add, add_sub_cancel]

/-- A return demands that nothing but the result and the number of bytes to be dropped is above the
locals. It leaves the result below those bytes. -/
theorem Instruction.retn_performed {frame : Frame} {kept : Word}
    (htop : s.memory.read s.sp = .ok kept)
    (hrun : Exec.perform image (.retn frame) s = .ok r s') :
    s.sp = s.fp - .ofInt (frame.localsSize + headerSize) ∧ s'.sp = s.fp + kept := by
  obtain ⟨_, t, hret, hdone⟩ := Exec.of_bind_ok hrun
  cases hdone
  rw [Exec.ret] at hret
  obtain ⟨v, t, hpop, hrest⟩ := Exec.of_bind_ok hret
  cases (Exec.read_of_pop hpop).symm.trans htop
  obtain rfl := Exec.pop_ok hpop
  obtain ⟨result, t, hresult, hrest⟩ := Exec.of_bind_ok hrest
  obtain ⟨hsp, hfp⟩ := Exec.raises_pop _ _ t hresult
  obtain ⟨_, t', hget, hrest⟩ := Exec.of_bind_ok hrest
  cases hget
  dsimp only at hrest
  split at hrest
  · cases hrest
  rename_i hexpected
  obtain ⟨caller, t₁, -, hrest⟩ := Exec.of_bind_ok hrest
  obtain ⟨address, t₂, -, hrest⟩ := Exec.of_bind_ok hrest
  obtain ⟨_, t₃, -, hrest⟩ := Exec.of_bind_ok hrest
  obtain ⟨_, t₄, hmodify, hrest⟩ := Exec.of_bind_ok hrest
  cases hmodify
  obtain ⟨_, t₅, hleave, hjump⟩ := Exec.of_bind_ok hrest
  cases hleave
  obtain ⟨hsp', -⟩ := Exec.raises_jump address _ _ s' hjump
  have hframe : t.sp = t.fp - .ofInt frame.localsSize := by simpa using hexpected
  have hwords : Word.ofInt (-4) = -4 ∧ Word.ofInt headerSize = 8 ∧ Word.ofInt 0 = 0 := by decide
  rw [hwords.1] at hsp
  rw [hwords.2.2] at hsp'
  constructor
  · rw [← Word.ofInt_add, hwords.2.1]
    grind
  · rw [hsp']
    grind

end

/-! ## Functions -/

def State.HasHeight (s : State) (x : Int) : Prop := s.sp = s.fp - .ofInt x

/-- The machine keeps to the heights of a function: they are the bytes between the top of the stack
and the frame pointer. -/
structure Frame.KeepsHeights (frame : Frame) (code : List Instruction) (height : Nat → Int)
    (image : Image) : Prop where
  /-- Inside the function, when what the instruction in front has pushed is on top. -/
  steps : ∀ n m d i s s' r, code[n]? = some i → (∀ callee, i ≠ .call callee) → Edge code n m d →
    (∀ v before, (code.take n).reverse = .push v :: before → s.memory.read s.sp = .ok v) →
    s.HasHeight (height n) → Exec.perform image i s = .ok r s' →
      s'.fp = s.fp ∧ s'.HasHeight (height m)
  /-- A called function starts at the height of the header, with its frame where the result comes
  to be at the height behind the call when all that was pushed for the call is dropped. -/
  calls : ∀ n callee s s' r target, code[n]? = some (.call callee) → s.HasHeight (height n) →
    s.memory.read s.sp = .ok target → SystemFunction.ofAddress? target = none →
    Exec.perform image (.call callee) s = .ok r s' → s'.HasHeight headerSize ∧
      s'.fp + .ofInt (callee.parametersSize - linkSize) = s.fp - .ofInt (height (n + 1))
  systemCalls : ∀ n callee s s' target function, code[n]? = some (.call callee) →
    s.HasHeight (height n) → s.memory.read s.sp = .ok target →
    SystemFunction.ofAddress? target = some function →
    Exec.perform image (.call callee) s = .ok none s' →
      s'.fp = s.fp ∧ s'.HasHeight (height (n + 1))
  /-- The function returns only at the height of its last instruction. The result is left where all
  that was pushed for the call has been dropped. -/
  returns : ∀ n s s' r, code[n]? = some (.retn frame) →
    s.memory.read s.sp = .ok (.ofInt (frame.parametersSize - linkSize)) →
    Exec.perform image (.retn frame) s = .ok r s' →
      s.HasHeight (height n) ∧ s'.sp = s.fp + .ofInt (frame.parametersSize - linkSize)

/-- The height behind a call. -/
theorem Frame.Balances.height_call {frame callee : Frame} {code : List Instruction}
    {height : Nat → Int} (h : frame.Balances code height) {n : Nat}
    (hi : code[n]? = some (.call callee)) :
    height (n + 1) = height n - callee.parametersSize := by
  obtain ⟨d, exit, heffect, -⟩ := h.effects n _ hi
  obtain ⟨rfl, rfl⟩ := Instruction.effect_call heffect
  exact h.edges n (n + 1) _ (.next hi heffect)

/-- The height in front of the return. -/
theorem Frame.Balances.height_return {frame : Frame} {code : List Instruction}
    {height : Nat → Int} (h : frame.Balances code height) {n : Nat}
    (hi : code[n]? = some (.retn frame)) : height n = frame.localsSize + headerSize := by
  obtain ⟨d, exit, heffect, -, -, hlast⟩ := h.effects n _ hi
  obtain ⟨-, rfl⟩ := Instruction.effect_retn heffect
  obtain ⟨front, hcode, hheight, -⟩ := h.leaves
  have hlength : n + 1 = front.length + 2 := by
    rw [hlast rfl, hcode, List.length_append]
    rfl
  rw [← hheight, Nat.add_right_cancel hlength]

/-- Consistent heights are those that the machine has. -/
theorem Frame.Balances.keepsHeights {frame : Frame} {code : List Instruction} {height : Nat → Int}
    (h : frame.Balances code height) (image : Image) : frame.KeepsHeights code height image := by
  constructor
  · intro n m d i s s' r hi hcall hedge htop hs hrun
    obtain ⟨exit, heffect, hexit⟩ : ∃ exit, i.effect? (code.take n).reverse = some (d, exit) ∧
        exit ≠ .leave := by
      cases hedge with
      | next hi' heffect =>
          cases hi.symm.trans hi'
          exact ⟨_, heffect, by simp⟩
      | jump hi' heffect hl hm =>
          cases hi.symm.trans hi'
          exact ⟨_, heffect, by simp⟩
    obtain ⟨hsp, hfp⟩ := Instruction.stays_performed heffect hexit hcall htop hrun
    refine ⟨hfp, ?_⟩
    rw [State.HasHeight, hsp, hfp, hs, h.edges n m d hedge, ← Word.ofInt_add]
    grind
  · intro n callee s s' r target hi hs htop hcode hrun
    obtain ⟨hfp, hsp⟩ := Instruction.call_performed htop hcode hrun
    have hlink : (4 : Word) = .ofInt linkSize := rfl
    refine ⟨hsp, ?_⟩
    rw [hfp, hs, h.height_call hi, hlink, Int32.add_assoc, Word.ofInt_add, add_sub_cancel,
      ← Word.ofInt_sub]
    grind
  · intro n callee s s' target function hi hs htop hfunction hrun
    obtain ⟨hsp, hfp⟩ := Instruction.system_performed htop hfunction hrun
    refine ⟨hfp, ?_⟩
    rw [State.HasHeight, hsp, hfp, hs, h.height_call hi, ← Word.ofInt_sub]
    grind
  · intro n s s' r hi htop hrun
    rw [State.HasHeight, h.height_return hi]
    exact Instruction.retn_performed htop hrun

end NestedFun
