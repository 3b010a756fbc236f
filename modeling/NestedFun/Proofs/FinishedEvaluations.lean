import NestedFun.Proofs.Evaluation

namespace NestedFun

/-!
# Finished evaluations

Whether an evaluation is finished depends on how many calls and rounds of loops it may carry out
inside one another. Once it is finished its result stays the same with more of them.
-/

def Finished {α : Type} (result : EStateM.Result Halt Store α) : Prop :=
  ∀ store, result ≠ .error .unfinished store

/-- The second evaluation has the results of the first one, where that is finished. -/
def Eval.Continues {α : Type} (f g : Eval α) : Prop :=
  ∀ store, Finished (f store) → g store = f store

namespace Eval.Continues

variable {α β : Type} {f f' f'' : Eval α} {g g' : α → Eval β}

theorem refl (f : Eval α) : Continues f f := fun _ _ => rfl

theorem trans (h : Continues f f') (h' : Continues f' f'') : Continues f f'' := by
  intro store hfinished
  have heq := h store hfinished
  rw [h' store (heq.symm ▸ hfinished), heq]

theorem bind (hf : Continues f f') (hg : ∀ v, Continues (g v) (g' v)) :
    Continues (f >>= g) (f' >>= g') := by
  intro store hfinished
  rw [bind_eq] at hfinished ⊢
  rw [bind_eq]
  cases hresult : f store with
  | ok v store' =>
      rw [hresult] at hfinished
      rw [hf store (by rw [hresult]; exact nofun), hresult]
      exact hg v store' hfinished
  | error halt store' =>
      rw [hresult] at hfinished
      have hhalt : halt ≠ .unfinished := fun heq => hfinished store' (by rw [heq])
      rw [hf store (by rw [hresult]; exact fun _ heq => hhalt (EStateM.Result.error.inj heq).1),
        hresult]

variable {run run' : List Statement → Eval Word}

theorem inside {f f' : Eval Word} (h : Continues f f') (record : Record) (inner outer : List Record) :
    Continues (Eval.inside record inner outer f) (Eval.inside record inner outer f') :=
  bind (refl _) fun _ => bind h fun _ => refl _

theorem call (h : ∀ statements, Continues (run statements) (run' statements)) (name : String)
    (arguments : List Word) : Continues (Eval.call run name arguments) (Eval.call run' name arguments) := by
  refine bind (refl _) fun store => ?_
  split
  · split
    · exact refl _
    · split
      · exact refl _
      · exact inside (h _) _ _ _
  · exact refl _

end Eval.Continues

section

variable {run run' : List Statement → Eval Word}

mutual

theorem Expression.evaluate_continues (e : Expression)
    (hrun : ∀ statements, Eval.Continues (run statements) (run' statements)) :
    Eval.Continues (e.evaluate run) (e.evaluate run') := by
  cases e with
  | literal node value => exact .refl _
  | name node name => exact .refl _
  | call node callee arguments =>
      exact (evaluateArguments_continues arguments hrun).bind fun _ => .call hrun _ _
  | unary node operator operand =>
      rw [Expression.evaluate, Expression.evaluate]
      split
      · exact (operand.evaluate_continues hrun).bind fun _ => .refl _
      · exact operand.evaluate_continues hrun
      · exact (operand.evaluate_continues hrun).bind fun _ => .refl _
      · exact .refl _
      · exact .refl _
  | binary node operator left right =>
      exact (right.evaluate_continues hrun).bind fun _ =>
        (left.evaluate_continues hrun).bind fun _ => .refl _

theorem evaluateArguments_continues (es : List Expression)
    (hrun : ∀ statements, Eval.Continues (run statements) (run' statements)) :
    Eval.Continues (evaluateArguments run es) (evaluateArguments run' es) := by
  cases es with
  | nil => exact .refl _
  | cons e es =>
      exact (evaluateArguments_continues es hrun).bind fun _ =>
        (e.evaluate_continues hrun).bind fun _ => .refl _

end

mutual

theorem Statement.evaluate_continues (s : Statement)
    (hrun : ∀ statements, Eval.Continues (run statements) (run' statements)) :
    Eval.Continues (s.evaluate run) (s.evaluate run') := by
  cases s with
  | eval node value => exact value.evaluate_continues hrun
  | assign node target source =>
      exact (source.evaluate_continues hrun).bind fun _ => .refl _
  | branch node condition positive negative =>
      refine (condition.evaluate_continues hrun).bind fun w => ?_
      by_cases hw : w ≠ 0
      · simp only [if_pos hw]
        exact (evaluateStatements_continues positive hrun).bind fun _ => .refl _
      · simp only [if_neg hw]
        exact (evaluateStatements_continues negative hrun).bind fun _ => .refl _
  | loop node condition body =>
      refine (condition.evaluate_continues hrun).bind fun w => ?_
      split
      · exact (evaluateStatements_continues body hrun).bind fun _ => hrun _
      · exact .refl _
  | block node ds body =>
      exact .bind (.refl _) fun _ => .inside (evaluateStatements_continues body hrun) _ _ _

theorem evaluateStatements_continues (ss : List Statement)
    (hrun : ∀ statements, Eval.Continues (run statements) (run' statements)) :
    Eval.Continues (evaluateStatements run ss) (evaluateStatements run' ss) := by
  rcases ss with _ | ⟨s, _ | ⟨t, ss⟩⟩
  · exact .refl _
  · exact s.evaluate_continues hrun
  · exact (s.evaluate_continues hrun).bind fun _ => evaluateStatements_continues (t :: ss) hrun

end

end

/-- More calls and rounds of loops do not change results. -/
theorem evaluateUpTo_continues {m n : Nat} (hle : m ≤ n) (ss : List Statement) :
    Eval.Continues (evaluateUpTo m ss) (evaluateUpTo n ss) := by
  have hsucc : ∀ m ss, Eval.Continues (evaluateUpTo m ss) (evaluateUpTo (m + 1) ss) := by
    intro m
    induction m with
    | zero => exact fun ss store hfinished => absurd rfl (hfinished store)
    | succ m ih => exact fun ss => evaluateStatements_continues ss ih
  induction n, hle using Nat.le_induction with
  | base => exact .refl _
  | succ n _ ih => exact ih.trans (hsucc n ss)

/-- A program has one result only. -/
theorem Program.evaluate_mono {program : Program} {m n : Nat} {input : List UInt8} {output : Output}
    (hle : m ≤ n) (hfinished : Finished (program.evaluate m input output)) :
    program.evaluate n input output = program.evaluate m input output :=
  Eval.Continues.call (evaluateUpTo_continues hle) _ _ _ hfinished

end NestedFun
