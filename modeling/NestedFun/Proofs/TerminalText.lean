import NestedFun.Listing.Segments
import NestedFun.Proofs.LabelForms

namespace NestedFun

/-!
# Text on terminals

What a terminal shows of the pieces that listings consist of: printable characters and line feeds
are shown as they are, and the sequences that select colours leave nothing. Nothing else is relied
on, and the standard terminal keeps to it.
-/

/-- A character from the blank to the tilde. -/
def Char.IsPrintable (c : Char) : Prop := ' ' ≤ c ∧ c ≤ '~'

instance (c : Char) : Decidable (Char.IsPrintable c) := inferInstanceAs (Decidable (_ ∧ _))

def IsPrintable (s : String) : Prop := ∀ c ∈ s.toList, Char.IsPrintable c

instance (s : String) : Decidable (IsPrintable s) := List.decidableBAll _ _

namespace IsPrintable

@[simp] theorem append {s t : String} : IsPrintable (s ++ t) ↔ IsPrintable s ∧ IsPrintable t := by
  simp only [IsPrintable, String.toList_append, List.mem_append, or_imp, forall_and]

theorem blanks (n : Nat) : IsPrintable (String.ofList (List.replicate n ' ')) := by
  intro c hc
  rw [String.toList_ofList] at hc
  rw [(List.mem_replicate.mp hc).2]
  decide

theorem natural (n : Nat) : IsPrintable (toString n) := by
  intro c hc
  have hdigit := isDigit_of_mem_numeral hc
  simp only [Char.isDigit, Bool.and_eq_true, decide_eq_true_eq] at hdigit
  have hzero : (' ' : Char) ≤ '0' := by decide
  have hnine : ('9' : Char) ≤ '~' := by decide
  exact ⟨Char.le_trans hzero hdigit.1, Char.le_trans hdigit.2 hnine⟩

theorem integer (n : Int) : IsPrintable (toString n) := by
  cases n with
  | ofNat m => exact natural m
  | negSucc m => exact append.mpr ⟨by decide, natural (m + 1)⟩

theorem numeral (w : Word) : IsPrintable w.numeral := integer w.toInt

theorem intercalate {separator : String} (hseparator : IsPrintable separator) {ss : List String}
    (h : ∀ s ∈ ss, IsPrintable s) : IsPrintable (separator.intercalate ss) := by
  induction ss with
  | nil => exact nofun
  | cons s ss ih =>
      obtain ⟨hs, hss⟩ := List.forall_mem_cons.mp h
      cases ss with
      | nil =>
          rw [String.intercalate_singleton]
          exact hs
      | cons t ss =>
          rw [String.intercalate_cons_cons, append, append]
          exact ⟨⟨hs, hseparator⟩, ih hss⟩

theorem listing (ws : List Word) : IsPrintable (Word.listing ws) := by
  rw [Word.listing, append, append]
  exact ⟨⟨by decide, intercalate (by decide) (List.forall_mem_map.mpr fun w _ => numeral w)⟩,
    by decide⟩

theorem padLeft {s : String} (h : IsPrintable s) (width : Nat) :
    IsPrintable (NestedFun.padLeft width s) :=
  append.mpr ⟨blanks _, h⟩

theorem register (register : Register) : IsPrintable register.text := by
  cases register
  decide

theorem operator (operator : Operator) : IsPrintable operator.text := by
  cases operator <;> decide

end IsPrintable

namespace Terminal

/-- What is relied on when listings are shown. Of texts that are not printable, nothing is said. -/
structure Lawful (terminal : Terminal) : Prop where
  paint_uncoloured : ∀ colour text, terminal.paint false colour text = text
  paint_coloured : ∀ colour text, IsPrintable text → text ≠ "" →
    terminal.paint true colour text = colourSequence colour.code ++ text ++ colourSequence 0
  paint_empty : ∀ colour, terminal.paint true colour "" = ""
  strip_empty : terminal.strip "" = ""
  strip_printable : ∀ text rest, IsPrintable text →
    terminal.strip (text ++ rest) = text ++ terminal.strip rest
  strip_newline : ∀ rest, terminal.strip ("\n" ++ rest) = "\n" ++ terminal.strip rest
  strip_sequence : ∀ n rest, terminal.strip (colourSequence n ++ rest) = terminal.strip rest

/-- A terminal shows a text as another one, whatever follows. -/
def Shows (terminal : Terminal) (s t : String) : Prop :=
  ∀ rest, terminal.strip (s ++ rest) = t ++ terminal.strip rest

namespace Shows

variable {terminal : Terminal} {s s' t t' : String}

theorem strip (hterminal : terminal.Lawful) (h : terminal.Shows s t) : terminal.strip s = t := by
  have hend := h ""
  rw [hterminal.strip_empty, String.append_empty, String.append_empty] at hend
  exact hend

theorem append (h : terminal.Shows s t) (h' : terminal.Shows s' t') :
    terminal.Shows (s ++ s') (t ++ t') := by
  intro rest
  rw [String.append_assoc, h, h', String.append_assoc]

theorem empty : terminal.Shows "" "" := by
  intro rest
  rw [String.empty_append, String.empty_append]

theorem join {α : Type} {f g : α → String} {xs : List α} (h : ∀ x ∈ xs, terminal.Shows (f x) (g x)) :
    terminal.Shows (String.join (xs.map f)) (String.join (xs.map g)) := by
  induction xs with
  | nil => exact empty
  | cons x xs ih =>
      obtain ⟨hx, hxs⟩ := List.forall_mem_cons.mp h
      simp only [List.map_cons, String.join_cons]
      exact hx.append (ih hxs)

end Shows

namespace Lawful

variable {terminal : Terminal}

theorem shows_printable (hterminal : terminal.Lawful) {s : String} (h : IsPrintable s) :
    terminal.Shows s s :=
  fun rest => hterminal.strip_printable s rest h

theorem shows_sequence (hterminal : terminal.Lawful) (n : Nat) :
    terminal.Shows (colourSequence n) "" := by
  intro rest
  rw [hterminal.strip_sequence, String.empty_append]

theorem shows_painted (hterminal : terminal.Lawful) (colour : Colour) {text : String}
    (h : IsPrintable text) : terminal.Shows (terminal.paint true colour text) text := by
  by_cases hempty : text = ""
  · rw [hempty, hterminal.paint_empty]
    exact .empty
  · have hshown := ((hterminal.shows_sequence colour.code).append
      (hterminal.shows_printable h)).append (hterminal.shows_sequence 0)
    rw [String.empty_append, String.append_empty] at hshown
    rw [hterminal.paint_coloured colour text h hempty]
    exact hshown

/-- The colour of a piece does not matter to what is shown of it. -/
theorem shows_piece (hterminal : terminal.Lawful) (coloured : Bool) {piece : Piece}
    (h : IsPrintable piece.text) : terminal.Shows (piece.render terminal coloured) piece.text := by
  rcases piece with ⟨colour | colour, text⟩
  · exact hterminal.shows_printable h
  · cases coloured with
    | false =>
        show terminal.Shows (terminal.paint false colour text) text
        rw [hterminal.paint_uncoloured]
        exact hterminal.shows_printable h
    | true => exact hterminal.shows_painted colour h

theorem shows_line (hterminal : terminal.Lawful) (coloured : Bool) {pieces : List Piece}
    (h : ∀ piece ∈ pieces, IsPrintable piece.text) :
    terminal.Shows (renderLine terminal coloured pieces)
      (String.join (pieces.map Piece.text) ++ "\n") :=
  (Shows.join fun piece hpiece => hterminal.shows_piece coloured (h piece hpiece)).append
    hterminal.strip_newline

end Lawful

end Terminal

/-! ## The standard terminal -/

theorem Char.IsPrintable.shown {c : Char} (h : Char.IsPrintable c) :
    TerminalState.shown .ground c = [c] := by
  have hblank : ' ' ≤ c := h.1
  have htilde : c ≤ '~' := h.2
  have hcontrol : ¬ '\x80' ≤ c := fun hle =>
    absurd (Char.le_def.mp (Char.le_trans hle htilde)) (by decide)
  simp [TerminalState.shown, hblank, hcontrol]

theorem Char.IsPrintable.advance {c : Char} (h : Char.IsPrintable c) :
    TerminalState.advance .ground c = .ground := by
  have hne : c ≠ '\x1b' := by
    rintro rfl
    exact absurd h (by decide)
  rw [TerminalState.advance, if_neg hne]

theorem control_digit {d : Char} (h : d.isDigit = true) :
    TerminalState.shown .control d = [] ∧ TerminalState.advance .control d = .control := by
  simp only [Char.isDigit, Bool.and_eq_true, decide_eq_true_eq] at h
  have hat : ¬ '@' ≤ d := fun hle => absurd (Char.le_def.mp (Char.le_trans hle h.2)) (by decide)
  have hne : ∀ c : Char, ¬ '0' ≤ c → d ≠ c := fun c hc heq => hc (heq ▸ h.1)
  simp [TerminalState.shown, TerminalState.advance, TerminalState.interrupt, hat, hne]

/-- Characters that leave a terminal in its state are shown one by one. -/
theorem shownChars_append {state : TerminalState} {cs : List Char}
    (h : ∀ c ∈ cs, state.advance c = state) (rest : List Char) :
    shownChars state (cs ++ rest) = cs.flatMap state.shown ++ shownChars state rest := by
  induction cs with
  | nil => rfl
  | cons c cs ih =>
      obtain ⟨hc, hcs⟩ := List.forall_mem_cons.mp h
      rw [List.cons_append, shownChars, hc, ih hcs, List.flatMap_cons, List.append_assoc]

theorem shownChars_printable {s : String} (h : IsPrintable s) (rest : List Char) :
    shownChars .ground (s.toList ++ rest) = s.toList ++ shownChars .ground rest := by
  have hshown : s.toList.flatMap (TerminalState.shown .ground) = s.toList :=
    (List.flatMap_congr fun c hc => (h c hc).shown).trans (List.flatMap_singleton' s.toList)
  rw [shownChars_append fun c hc => (h c hc).advance, hshown]

/-- A numbered sequence is over at the letter behind the number, and nothing of it is shown. -/
theorem shownChars_sequence (n : Nat) (rest : List Char) :
    shownChars .ground ((colourSequence n).toList ++ rest) = shownChars .ground rest := by
  have hdigits : ∀ d ∈ (toString n).toList, TerminalState.shown .control d = [] ∧
      TerminalState.advance .control d = .control :=
    fun d hd => control_digit (isDigit_of_mem_numeral hd)
  have hshown : (toString n).toList.flatMap (TerminalState.shown .control) = [] :=
    List.flatMap_eq_nil_iff.mpr fun d hd => (hdigits d hd).1
  have hsequence : (colourSequence n).toList = '\x1b' :: '[' :: ((toString n).toList ++ ['m']) := by
    simp [colourSequence]
  rw [hsequence, List.cons_append, List.cons_append, List.append_assoc]
  show shownChars .control ((toString n).toList ++ 'm' :: rest) = _
  rw [shownChars_append fun d hd => (hdigits d hd).2, hshown]
  rfl

namespace Terminal

theorem standard_strip_append (s rest : String) :
    standard.strip (s ++ rest) = String.ofList (shownChars .ground (s.toList ++ rest.toList)) := by
  rw [← String.toList_append]
  rfl

/-- What is relied on holds of escape sequences and of the terminal that takes them out. -/
theorem standard_lawful : standard.Lawful where
  paint_uncoloured := fun _ _ => rfl
  paint_coloured := by
    intro colour text _ hne
    simp [standard, colourSequence, hne]
  paint_empty := fun _ => rfl
  strip_empty := rfl
  strip_printable := by
    intro text rest h
    rw [standard_strip_append, shownChars_printable h, String.ofList_append, String.ofList_toList]
    rfl
  strip_newline := by
    intro rest
    rw [standard_strip_append]
    exact String.ofList_append
  strip_sequence := by
    intro n rest
    rw [standard_strip_append, shownChars_sequence]
    rfl

end Terminal

end NestedFun
