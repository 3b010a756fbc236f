import NestedFun.Proofs.VariableAccess

namespace NestedFun

/-!
# Code without jumps

The code of constants and operators, and the code that keeps or drops the value of a statement,
compute what evaluation says.
-/

/-- The operator of the machine finds the left operand on top of the stack. -/
theorem BinaryKind.apply_stackOperator (kind : BinaryKind) (x y : Word) :
    kind.stackOperator.apply y x = kind.apply x y := by
  cases kind with
  | add => rw [stackOperator, Operator.apply, BinaryKind.apply, Int32.add_comm]
  | multiply => rw [stackOperator, Operator.apply, BinaryKind.apply, Int32.mul_comm]
  | and => rw [stackOperator, Operator.apply, BinaryKind.apply, Bool.and_comm]
  | or => rw [stackOperator, Operator.apply, BinaryKind.apply, Bool.or_comm]
  | equal => simp only [stackOperator, Operator.apply, BinaryKind.apply, eq_comm]
  | notEqual => simp only [stackOperator, Operator.apply, BinaryKind.apply, ne_comm]
  | _ => rfl

theorem BinaryKind.isUnary_stackOperator (kind : BinaryKind) :
    kind.stackOperator.isUnary = false := by
  cases kind <;> rfl

namespace Computes

variable {T : Target} {program : Program} {segments : Segments} {n : Nat} {env : Env}
  {used limit : Int} {σ : List Word} {span : Span} {w x y : Word}

/-- No code computes what is there already. -/
theorem nil {α : Type} (v : α) :
    Computes T program segments n env used limit σ [] (pure v) (fun _ => σ) := by
  refine .of_moves fun store hrecords => ⟨v, store, 0, rfl, hrecords, ?_⟩
  intro image sites anchor pc s hs
  exact (Moves.refl hs.ready).congr rfl (add_zero pc).symm

/-- An instruction that always moves on. -/
theorem of_instruction {α : Type} {i : Instruction} {v : α} {σ' : α → List Word} (need : Int)
    (h : ∀ image sites anchor pc s store, (∀ d ∈ segments.data, d.item.Fits) →
      Ready T segments image sites anchor used limit pc σ store s →
      image.Holds pc (⟨span, i⟩ :: []) →
      Moves T segments image sites anchor used limit need s (pc + i.size) (σ' v) store) :
    Computes T program segments n env used limit σ (Code.spanning span [i]) (pure v) σ' := by
  refine .of_moves fun store hrecords => ⟨v, store, need, rfl, hrecords, ?_⟩
  intro image sites anchor pc s hs
  refine (h image sites anchor pc s store hs.data_fits hs.ready hs.holds).congr rfl ?_
  rw [Code.spanning, List.map_cons, List.map_nil, Code.size_cons, Code.size_nil, add_zero]

theorem push (w : Word) :
    Computes T program segments n env used limit σ (Code.spanning span [.push w]) (pure w)
      (fun v => v :: σ) :=
  of_instruction _ fun _ _ _ _ _ _ hfits hready hcode =>
    hready.moves_push hfits hcode

theorem unary {o : Operator} (ho : o.isUnary = true) (hresult : o.apply 0 x = .ok w) :
    Computes T program segments n env used limit (x :: σ) (Code.spanning span [.oper o]) (pure w)
      (fun v => v :: σ) :=
  of_instruction 0 fun _ _ _ _ _ _ hfits hready hcode =>
    hready.moves_unary hfits hcode ho hresult

/-- The value of a statement is dropped. -/
theorem drop :
    Computes T program segments n env used limit (x :: σ) (Code.spanning span [.push 4, .popn])
      (pure w) (fun _ => σ) := by
  refine .of_moves fun store hrecords => ⟨w, store, max (4 * (x :: σ).length + 4) 0, rfl, hrecords, ?_⟩
  intro image sites anchor pc s hs
  have hfits := hs.data_fits
  have hpush := hs.ready.moves_push hfits hs.holds
  have hpop := hpush.trans fun s' hs' => Ready.moves_popn [x] (n := 4) hs' hfits
    ((Image.holds_cons _ _ _ _).mp hs.holds).2 rfl
  exact hpop.congr rfl (add_assoc _ _ _)

/-- The word that a statement without a value leaves. -/
theorem keptZero (keep : Bool) :
    Computes T program segments n env used limit σ (NestedFun.keptZero keep span) (pure (0 : Word))
      (fun w => if keep then w :: σ else σ) := by
  cases keep with
  | false => exact nil 0
  | true => exact push 0

/-- The result of a binary operator, or the division by zero that stops it. -/
theorem binary (kind : BinaryKind) :
    Computes T program segments n env used limit (x :: y :: σ)
      (Code.spanning span [.oper kind.stackOperator])
      (match kind.apply x y with
        | .ok w => pure w
        | .error kind => throw (.faulted kind))
      (fun w => w :: σ) := by
  cases hresult : kind.apply x y with
  | ok w =>
      rw [← kind.apply_stackOperator] at hresult
      exact of_instruction 0 fun _ _ _ _ _ _ hfits hready hcode =>
        hready.moves_binary hfits hcode kind.isUnary_stackOperator hresult
  | error fault =>
      rw [← kind.apply_stackOperator] at hresult
      refine fun store hrecords => ⟨nofun, 0, [], fun image sites anchor pc s hs => ?_⟩
      obtain ⟨h₀, hdata, hheapLe, hused, hle, hsize⟩ := hs.ready.room
      obtain ⟨hx, hy, -⟩ := hs.ready.words
      have hstack := hs.ready.stack
      simp only [List.length_cons, Nat.cast_add, Nat.cast_one] at hstack hx hy hheapLe
      rw [← hx, ← hy] at hresult
      have hperform := Exec.perform_binary_error image
        (hstack.advanced (.oper kind.stackOperator)) (by show _ ≤ (s.memory.size : Int); omega)
        kind.isUnary_stackOperator hresult
      have hends := Ends.of_error ((hs.ready.step_eq hs.holds nofun).trans hperform)
      exact ⟨fun _ => ⟨_, hends, hs.ready.output_eq⟩, fun hlevel => by omega⟩

end Computes

end NestedFun
