import NestedFun.Proofs.MaximalMunch

namespace NestedFun

/-!
# Looking ahead

Showing a token ahead of time changes nothing about what is lexed. However calls of `peek` and `next`
are mixed, a lexer answers every call with the token or error that would be next if it had never been
asked to show one; a token that is shown is answered again, all else is used up.
-/

namespace Lexer

/-- Whether a call leaves its answer to be given again: so it is with a token that is only shown. -/
def leaves : Look → Except CompileError Token → Bool
  | .peek, .ok _ => true
  | _, _ => false

/-- The answers to some calls without the tokens that are only shown. -/
def used : List Look → List (Except CompileError Token) → List (Except CompileError Token)
  | look :: looks, answer :: answers =>
    if leaves look answer then used looks answers else answer :: used looks answers
  | _, _ => []

def after (lexer : Lexer) : List Look → Lexer
  | [] => lexer
  | look :: looks => (lexer.look look).2.after looks

section

variable (lexer : Lexer) (looks looks' : List Look)

theorem length_answers : (lexer.answers looks).length = looks.length := by
  induction looks generalizing lexer with
  | nil => rfl
  | cons look looks ih => rw [answers, List.length_cons, List.length_cons, ih]

theorem answers_append :
    lexer.answers (looks ++ looks') = lexer.answers looks ++ (lexer.after looks).answers looks' := by
  induction looks generalizing lexer with
  | nil => rfl
  | cons look looks ih => rw [List.cons_append, answers, ih, answers, after, List.cons_append]

/-- The answer to a call between others. -/
theorem answers_getElem? (look : Look) :
    (lexer.answers (looks ++ look :: looks'))[looks.length]? = some ((lexer.after looks).look look).1 := by
  rw [answers_append, List.getElem?_append_right (length_answers lexer looks).le, length_answers,
    Nat.sub_self]
  rfl

theorem used_append :
    used (looks ++ looks') (lexer.answers (looks ++ looks'))
      = used looks (lexer.answers looks) ++ used looks' ((lexer.after looks).answers looks') := by
  induction looks generalizing lexer with
  | nil => rfl
  | cons look looks ih =>
      rw [List.cons_append, answers, answers, after, used, used, ih]
      split
      · rfl
      · rw [List.cons_append]

end

/-! ## A lexer that has shown a token -/

/-- The first lexer has shown the next token of the second at most. -/
inductive Ahead : Lexer → Lexer → Prop
  | level (cursor : Cursor) : Ahead ⟨cursor, none⟩ ⟨cursor, none⟩
  | shown {cursor cursor' : Cursor} {token : Token} (h : cursor.next = (.ok token, cursor')) :
      Ahead ⟨cursor', some token⟩ ⟨cursor, none⟩

variable {lexer plain : Lexer}

/-- Every call is answered by what comes next. Only a token that is shown stays next. -/
theorem Ahead.look (h : Ahead lexer plain) (look : Look) :
    (lexer.look look).1 = plain.next.1 ∧
      Ahead (lexer.look look).2 (if leaves look plain.next.1 then plain else plain.next.2) := by
  cases h with
  | level cursor =>
      cases hnext : cursor.next with
      | mk outcome cursor' =>
          cases look with
          | next =>
              simp only [Lexer.look, Lexer.next, hnext]
              exact ⟨trivial, .level cursor'⟩
          | peek =>
              cases outcome with
              | ok token =>
                  simp only [Lexer.look, Lexer.next, Lexer.peek, hnext]
                  exact ⟨trivial, .shown hnext⟩
              | error e =>
                  simp only [Lexer.look, Lexer.next, Lexer.peek, hnext]
                  exact ⟨trivial, .level cursor'⟩
  | @shown cursor cursor' token hnext =>
      cases look with
      | next =>
          simp only [Lexer.look, Lexer.next, hnext]
          exact ⟨trivial, .level cursor'⟩
      | peek =>
          simp only [Lexer.look, Lexer.next, Lexer.peek, hnext]
          exact ⟨trivial, .shown hnext⟩

/-- After several calls as many of the answers of the other lexer are used up as have been used. -/
theorem Ahead.after (h : Ahead lexer plain) (looks : List Look) :
    Ahead (lexer.after looks) (plain.afterCalls (used looks (lexer.answers looks)).length) := by
  induction looks generalizing lexer plain with
  | nil => exact h
  | cons look looks ih =>
      obtain ⟨hanswer, hrest⟩ := h.look look
      rw [Lexer.after, answers, used, hanswer]
      split at hrest
      · rename_i hleaves
        rw [if_pos hleaves]
        exact ih hrest
      · rename_i hleaves
        rw [if_neg hleaves, List.length_cons, afterCalls_succ]
        exact ih hrest

/-- What is used up are the first answers of the other lexer. -/
theorem Ahead.used_prefix (h : Ahead lexer plain) (looks : List Look) {n : Nat} (hn : looks.length ≤ n) :
    used looks (lexer.answers looks) <+: plain.answers (List.replicate n .next) := by
  induction looks generalizing lexer plain n with
  | nil => exact List.nil_prefix
  | cons look looks ih =>
      rw [List.length_cons] at hn
      obtain ⟨hanswer, hrest⟩ := h.look look
      rw [answers, used, hanswer]
      split at hrest
      · rename_i hleaves
        rw [if_pos hleaves]
        exact ih hrest (Nat.le_of_succ_le hn)
      · rename_i hleaves
        obtain ⟨m, rfl⟩ : ∃ m, n = m + 1 := Nat.exists_eq_succ_of_ne_zero (by omega)
        rw [if_neg hleaves, List.replicate_succ, answers]
        exact List.prefix_cons_inj _ |>.mpr (ih hrest (Nat.le_of_succ_le_succ hn))

theorem peeked_of_peek {token : Token} (h : lexer.peek.1 = .ok token) :
    lexer.peek.2.peeked = some token := by
  cases hpeeked : lexer.peeked with
  | some token' =>
      simp only [peek, hpeeked] at h ⊢
      exact congrArg some (Except.ok.inj h)
  | none =>
      rcases hnext : lexer.cursor.next with ⟨_ | token', cursor⟩
      · simp only [peek, hpeeked, hnext] at h
        cases h
      · simp only [peek, hpeeked, hnext] at h ⊢
        exact congrArg some (Except.ok.inj h)

/-- A token that has been shown is shown again and again, and then it is taken. -/
theorem answers_shown {token : Token} (h : lexer.peeked = some token) (m : Nat) (looks : List Look) :
    lexer.answers (List.replicate m .peek ++ .next :: looks)
        = List.replicate (m + 1) (.ok token) ++ lexer.next.2.answers looks ∧
      used (List.replicate m .peek ++ .next :: looks)
          (lexer.answers (List.replicate m .peek ++ .next :: looks))
        = .ok token :: used looks (lexer.next.2.answers looks) := by
  have hagain : lexer.look .peek = (.ok token, lexer) := by simp only [look, peek, h]
  have htaken : lexer.look .next = (.ok token, lexer.next.2) := by simp only [look, next, h]
  induction m with
  | zero =>
      rw [List.replicate_zero, List.nil_append, answers, htaken]
      exact ⟨rfl, rfl⟩
  | succ m ih =>
      rw [List.replicate_succ, List.cons_append, answers, hagain, ih.1]
      rw [ih.1] at ih
      exact ⟨rfl, ih.2⟩

/-! ## Whole texts -/

/-- How calls of `peek` and `next` go through a text. What is used up are the answers that `next` alone
would have given, from the first on. A token that is shown is the one of them that comes next, and it is
the answer to the next call of `next`. -/
structure LooksAhead (cs : List Char) (looks : List Look) : Prop where
  used_prefix : ∀ n, looks.length ≤ n → used looks ((ofText cs).answers looks)
    <+: (ofText cs).answers (List.replicate n .next)
  shows : ∀ before behind token, looks = before ++ .peek :: behind →
    ((ofText cs).answers looks)[before.length]? = some (.ok token) →
      ∀ n, (used before ((ofText cs).answers before)).length < n →
        ((ofText cs).answers (List.replicate n .next))[(used before ((ofText cs).answers before)).length]?
          = some (.ok token)
  takes : ∀ before m behind token,
    looks = before ++ Look.peek :: (List.replicate m .peek ++ .next :: behind) →
      ((ofText cs).answers looks)[before.length]? = some (.ok token) →
        ((ofText cs).answers looks)[before.length + (m + 1)]? = some (.ok token) ∧
          (used looks ((ofText cs).answers looks))[(used before ((ofText cs).answers before)).length]?
            = some (.ok token)

/-- Peeking never changes what is lexed. -/
theorem looks_ahead (cs : List Char) (looks : List Look) : LooksAhead cs looks := by
  have hstart : Ahead (ofText cs) (ofText cs) := .level (.start cs)
  refine ⟨fun n hn => hstart.used_prefix looks hn, ?_, ?_⟩
  · rintro before behind token rfl hanswer n hn
    rw [answers_getElem?, ((hstart.after before).look .peek).1] at hanswer
    rw [answers_afterCalls (ofText cs) hn]
    exact hanswer
  · rintro before m behind token rfl hanswer
    rw [answers_getElem?] at hanswer
    have hshown : ((ofText cs).after before).peek.1 = .ok token := Option.some.inj hanswer
    obtain ⟨hanswers, hused⟩ := answers_shown (peeked_of_peek hshown) m behind
    have hlook : ((ofText cs).after before).look .peek
        = (.ok token, ((ofText cs).after before).peek.2) := Prod.ext hshown rfl
    constructor
    · rw [answers_append, List.getElem?_append_right (by rw [length_answers]; omega), length_answers,
        Nat.add_sub_cancel_left, answers, hlook, List.getElem?_cons_succ, hanswers,
        List.getElem?_append_left (by simp), List.getElem?_replicate, if_pos (Nat.lt_succ_self m)]
    · rw [used_append, List.getElem?_append_right (Nat.le_refl _), Nat.sub_self, answers, hlook]
      exact congrArg (·[0]?) hused

/-- A text with an error, which a failing peek uses up. -/
theorem looks_ahead_sample :
    LooksAhead "a $ 1".toList [.peek, .peek, .next, .peek, .peek, .next, .next] ∧
      ((ofText "a $ 1".toList).answers [.peek, .peek, .next, .peek, .peek, .next, .next]).map outcomeKind?
        = [some .identifier, some .identifier, some .identifier, none, some .integer, some .integer,
          some .endOfFile] :=
  ⟨looks_ahead _ _, by decide +kernel⟩

end Lexer

end NestedFun
