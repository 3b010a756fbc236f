import NestedFun.Proofs.Sentences

namespace NestedFun

/-!
# Where syntax errors are reported

The tokens in front of a syntax error can start a program, and with the token at the error they cannot.
-/

namespace Program

/-- A syntax error is at the first token with which no program goes on. -/
theorem first_offending_token {cs : List Char} {tokens : List Token} {e : CompileError}
    (hlex : (Cursor.start cs).scan.all = tokens.map .ok) (hfits : ∀ token ∈ tokens, token.Fits)
    (h : parse cs = .error e) : ∃ front next back wanted, tokens = front ++ next :: back ∧
      e = ⟨next.span, .syntactic (.expected wanted next.kind)⟩ ∧
        Viable (front.map Token.kind) ∧ ¬ Viable ((front ++ [next]).map Token.kind) := by
  obtain ⟨own, last, rfl, hitems, hlast⟩ := List.map_eq_append_iff.mp hlex.symm
  obtain ⟨stop, rfl, hstop⟩ := List.map_eq_singleton_iff.mp hlast
  cases hstop
  obtain ⟨front, next, back, wanted, htokens, hhalts, rfl⟩ := halts_of_parse hitems.symm
    (fun token hmem => hfits token (List.mem_append_left _ hmem)) h
  obtain ⟨hviable, hnot⟩ := hhalts.viable
  refine ⟨front, next, back, wanted, htokens, rfl, hviable, ?_⟩
  rw [List.map_append]
  exact hnot

def commaSample : Spelled "fun f(a, b) = a fun g(a,) = f(a, a)" := .literal _

theorem first_offending_token_sample : ∃ tokens e,
    (Cursor.start commaSample.chars).scan.all = tokens.map .ok ∧ (∀ token ∈ tokens, token.Fits) ∧
      parse commaSample.chars = .error e ∧ e.span = ⟨24, 25⟩ ∧
        ∃ front next back wanted, tokens = front ++ next :: back ∧
          e = ⟨next.span, .syntactic (.expected wanted next.kind)⟩ ∧
            Viable (front.map Token.kind) ∧ ¬ Viable ((front ++ [next]).map Token.kind) := by
  have hlexed : ((Tokens.ofText commaSample.chars).ending.toOption.isSome &&
      (Tokens.ofText commaSample.chars).list.all fun token => token.kind ≠ .integer) = true := by
    decide +kernel
  obtain ⟨hending, hnone⟩ := (Bool.and_eq_true _ _).mp hlexed
  obtain ⟨token, htoken⟩ := Option.isSome_iff_exists.mp hending
  have hitems := Tokens.ofItems_ok (toOption_eq_some htoken)
  have hparsed : (match parse commaSample.chars with
      | .error e => decide (e.span = ⟨24, 25⟩)
      | .ok _ => false) = true := by
    decide +kernel
  have hlex : (Cursor.start commaSample.chars).scan.all = ((Tokens.ofText commaSample.chars).list
      ++ [endToken (Cursor.start commaSample.chars).scan.stop]).map .ok := by
    rw [Scan.all, List.map_append]
    exact congrArg (· ++ _) hitems
  have hfits : ∀ token ∈ (Tokens.ofText commaSample.chars).list
      ++ [endToken (Cursor.start commaSample.chars).scan.stop], token.Fits := by
    intro token hmem
    rcases List.mem_append.mp hmem with hmem | hmem
    · exact Token.fits_of_kind (of_decide_eq_true (List.all_eq_true.mp hnone token hmem))
    · rw [List.mem_singleton.mp hmem]
      exact Token.fits_of_kind (by decide)
  cases h : parse commaSample.chars with
  | ok program => rw [h] at hparsed; cases hparsed
  | error e =>
      rw [h] at hparsed
      exact ⟨_, e, hlex, hfits, rfl, of_decide_eq_true hparsed, first_offending_token hlex hfits h⟩

end Program

end NestedFun
