import NestedFun.Proofs.ErrorPlaces

namespace NestedFun

/-!
# Rows and columns

A text is cut into lines at its line feeds. The row of a position is the number of its line, and the
column tells how far into the line it is, so the two together give the position back; what is shown
of a span is that line.
-/

/-! ## Lines -/

def lines (cs : List Char) : List (List Char) := cs.splitOn '\n'

/-- The number of bytes of lines, each with a line feed behind it. -/
def linesLength (ls : List (List Char)) : Nat := (ls.map fun line => byteLength line + 1).sum

theorem lines_cons_newline (cs : List Char) : lines ('\n' :: cs) = [] :: lines cs :=
  List.splitOn_append_cons_self [] cs

theorem lines_cons {c : Char} (cs : List Char) (hc : c ≠ '\n') :
    lines (c :: cs) = (lines cs).modifyHead (c :: ·) := by
  rw [lines, List.splitOn_cons_eq_if_modifyHead, if_neg (by simpa using hc), lines]

theorem lines_append_newline (cs ds : List Char) : lines (cs ++ '\n' :: ds) = lines cs ++ lines ds :=
  List.splitOn_append_cons_self cs ds

theorem lines_eq_singleton {cs : List Char} (h : '\n' ∉ cs) : lines cs = [cs] :=
  List.splitOn_eq_singleton h

theorem length_lines (cs : List Char) : (lines cs).length = cs.count '\n' + 1 := by
  induction cs with
  | nil => rfl
  | cons c cs ih =>
      by_cases hc : c = '\n'
      · rw [hc, lines_cons_newline, List.length_cons, ih, List.count_cons_self]
      · rw [lines_cons cs hc, List.length_modifyHead, ih, List.count_cons_of_ne hc]

/-- A text with a line feed behind it is its lines with their line feeds. -/
theorem linesLength_lines (cs : List Char) : linesLength (lines cs) = byteLength cs + 1 := by
  induction cs with
  | nil => rfl
  | cons c cs ih =>
      by_cases hc : c = '\n'
      · have hsize : '\n'.utf8Size = 1 := rfl
        rw [hc, lines_cons_newline, byteLength_cons, hsize, linesLength, List.map_cons, List.sum_cons,
          ← linesLength, ih, byteLength_nil]
        omega
      · obtain ⟨line, ls, hlines⟩ : ∃ line ls, lines cs = line :: ls :=
          List.exists_cons_of_ne_nil (List.splitOn_ne_nil '\n' cs)
        rw [lines_cons cs hc, byteLength_cons]
        rw [hlines] at ih ⊢
        simp only [linesLength, List.modifyHead_cons, List.map_cons, List.sum_cons,
          byteLength_cons] at ih ⊢
        omega

/-! ## The line of a position -/

/-- In front of the last line there is nothing or a line feed. -/
theorem lastLine_cases (cs : List Char) : '\n' ∉ lastLine cs ∧
    (cs = lastLine cs ∨ ∃ above, cs = above ++ '\n' :: lastLine cs) := by
  induction cs using List.reverseRecOn with
  | nil => exact ⟨List.not_mem_nil, .inl rfl⟩
  | append_singleton cs c ih =>
      by_cases hc : c = '\n'
      · rw [hc, lastLine_append_newline]
        exact ⟨List.not_mem_nil, .inr ⟨cs, rfl⟩⟩
      · have hc' : '\n' ∉ [c] := fun h => hc (List.mem_singleton.mp h).symm
        rw [lastLine_append hc']
        refine ⟨fun h => (List.mem_append.mp h).elim ih.1 hc', ?_⟩
        rcases ih.2 with h | ⟨above, h⟩
        · exact .inl (congrArg (· ++ [c]) h)
        · exact .inr ⟨above, by rw [← List.cons_append, ← List.append_assoc, ← h]⟩

/-- Behind the first line there is nothing or a line feed. -/
theorem firstLine_cases (cs : List Char) : '\n' ∉ firstLine cs ∧
    (cs = firstLine cs ∨ ∃ below, cs = firstLine cs ++ '\n' :: below) := by
  induction cs with
  | nil => exact ⟨List.not_mem_nil, .inl rfl⟩
  | cons c cs ih =>
      by_cases hc : c = '\n'
      · have hline : firstLine (c :: cs) = [] := List.takeWhile_cons_of_neg (by simp [hc])
        rw [hline, hc]
        exact ⟨List.not_mem_nil, .inr ⟨cs, rfl⟩⟩
      · have hline : firstLine (c :: cs) = c :: firstLine cs :=
          List.takeWhile_cons_of_pos (by simp [hc])
        rw [hline]
        refine ⟨fun h => (List.mem_cons.mp h).elim (fun h => hc h.symm) ih.1, ?_⟩
        rcases ih.2 with h | ⟨below, h⟩
        · exact .inl (congrArg (c :: ·) h)
        · exact .inr ⟨below, congrArg (c :: ·) h⟩

/-- Where a text is cut in two, one of its lines consists of the last line in front and the first line
behind. The lines above it are those of the part in front. -/
theorem lines_append (cs ds : List Char) : ∃ above below,
    lines (cs ++ ds) = above ++ (lastLine cs ++ firstLine ds) :: below ∧
      above.length = cs.count '\n' ∧ linesLength above + byteLength (lastLine cs) = byteLength cs := by
  obtain ⟨hlast, hcs⟩ := lastLine_cases cs
  obtain ⟨hfirst, hds⟩ := firstLine_cases ds
  have hline : '\n' ∉ lastLine cs ++ firstLine ds := by simpa using ⟨hlast, hfirst⟩
  have hbelow : ∃ below, lines (lastLine cs ++ ds) = (lastLine cs ++ firstLine ds) :: below := by
    rcases hds with h | ⟨below, h⟩
    · rw [← h] at hline ⊢
      exact ⟨[], lines_eq_singleton hline⟩
    · refine ⟨lines below, ?_⟩
      conv_lhs => rw [h]
      rw [← List.append_assoc, lines_append_newline, lines_eq_singleton hline]
      rfl
  obtain ⟨below, hbelow⟩ := hbelow
  rcases hcs with h | ⟨above, h⟩
  · refine ⟨[], below, ?_, ?_, ?_⟩
    · conv_lhs => rw [h]
      exact hbelow
    · rw [h, List.count_eq_zero.mpr hlast]
      rfl
    · rw [← h]
      exact Nat.zero_add _
  · refine ⟨lines above, below, ?_, ?_, ?_⟩
    · conv_lhs => rw [h]
      rw [List.append_assoc, List.cons_append, lines_append_newline, hbelow]
    · conv_rhs => rw [h]
      rw [length_lines, List.count_append, List.count_cons_self, List.count_eq_zero.mpr hlast]
    · conv_rhs => rw [h]
      have hsize : '\n'.utf8Size = 1 := rfl
      rw [linesLength_lines, byteLength_append, byteLength_cons, hsize]
      omega

/-! ## Positions -/

namespace Source

def IsBoundary (source : Source) (position : Nat) : Prop :=
  ∃ before after, source.contents.toList = before ++ after ∧ position = byteLength before

/-- A position has a row and a column. The lines above, each with its line feed, and what stands in front
of the position on its own line are as many bytes as there are in front of the position. -/
structure Located (source : Source) (position row column : Nat) (line : List Char) : Prop where
  row_eq : source.row? position = some row
  column_eq : source.column? position = some column
  row_pos : 1 ≤ row
  column_pos : 1 ≤ column
  line_eq : (lines source.contents.toList)[row - 1]? = some line
  position_eq : position
    = linesLength ((lines source.contents.toList).take (row - 1)) + (column - 1)
  column_le : column - 1 ≤ byteLength line

variable {source : Source} {before after : List Char}

theorem located (h : source.contents.toList = before ++ after) :
    source.Located (byteLength before) (before.count '\n' + 1) (byteLength (lastLine before) + 1)
      (lastLine before ++ firstLine after) := by
  obtain ⟨above, below, hlines, hlength, hsum⟩ := lines_append before after
  refine ⟨by rw [row?, split?_eq h]; rfl, by rw [column?, split?_eq h]; rfl, Nat.le_add_left 1 _,
    Nat.le_add_left 1 _, ?_, ?_, ?_⟩
  · rw [h, hlines, Nat.add_sub_cancel, ← hlength, List.getElem?_append_right (Nat.le_refl _), Nat.sub_self]
    rfl
  · rw [h, hlines, Nat.add_sub_cancel, Nat.add_sub_cancel, ← hlength, List.take_left, hsum]
  · rw [byteLength_append, Nat.add_sub_cancel]
    exact Nat.le_add_right _ _

/-- Positions with the same row and column are the same. -/
theorem Located.unique {position position' row column : Nat} {line line' : List Char}
    (h : source.Located position row column line) (h' : source.Located position' row column line') :
    position' = position :=
  h'.position_eq.trans h.position_eq.symm

/-- What is shown of a span that starts at a position. -/
theorem highlight?_eq (h : source.contents.toList = before ++ after) (stop : Nat) :
    source.highlight? ⟨byteLength before, stop⟩
      = some (String.ofList (lastLine before ++ firstLine after ++ ['\n']
        ++ List.replicate (byteLength (lastLine before)) ' '
        ++ List.replicate
          (max 1 (min stop (byteLength before + byteLength (firstLine after)) - byteLength before)) '^')) := by
  have hstart : min (byteLength before) source.size = byteLength before :=
    Nat.min_eq_left (by rw [size_eq h]; omega)
  have hcarets : ∀ a b : Nat, max (a + 1) b - a = max 1 (b - a) := by omega
  rw [highlight?]
  simp only [split?_eq h, hstart, hcarets]
  rfl

/-- Rows and columns locate positions. Every position between characters is found by its row and column,
and no other position has the same; what is shown of a span that starts there is the line with its number,
and carets below the span up to the end of the line. -/
theorem locates_positions (source : Source) {position : Nat} (h : source.IsBoundary position) :
    ∃ row column line, source.Located position row column line ∧
      (∀ stop, source.highlight? ⟨position, stop⟩ = some (String.ofList (line ++ ['\n']
        ++ List.replicate (column - 1) ' '
        ++ List.replicate (max 1 (min stop
          (linesLength ((lines source.contents.toList).take (row - 1)) + byteLength line)
            - position)) '^'))) ∧
      ∀ position', source.IsBoundary position' → source.row? position' = some row →
        source.column? position' = some column → position' = position := by
  obtain ⟨before, after, hcontents, rfl⟩ := h
  have hlocated := located hcontents
  refine ⟨_, _, _, hlocated, fun stop => ?_, ?_⟩
  · have hstop := hlocated.position_eq
    rw [Nat.add_sub_cancel (byteLength (lastLine before)) 1] at hstop
    rw [highlight?_eq hcontents, byteLength_append, ← Nat.add_assoc, ← hstop, Nat.add_sub_cancel]
  · rintro _ ⟨before', after', hcontents', rfl⟩ hrow hcolumn
    have hlocated' := located hcontents'
    rw [← Option.some.inj (hrow.symm.trans hlocated'.row_eq),
      ← Option.some.inj (hcolumn.symm.trans hlocated'.column_eq)] at hlocated'
    exact hlocated.unique hlocated'

def linesSample : Source := ⟨String.ofList ['é', '\n', 'a', 'b', '\n', 'c'], .memory⟩

/-- The second character of the second line, with a span that goes on behind the line. -/
theorem locates_positions_sample : linesSample.IsBoundary 4 ∧
    linesSample.Located 4 2 2 ['a', 'b'] ∧
      linesSample.highlight? ⟨4, 7⟩ = some (String.ofList ['a', 'b', '\n', ' ', '^']) := by
  have hcontents : linesSample.contents.toList = ['é', '\n', 'a'] ++ ['b', '\n', 'c'] :=
    String.toList_ofList
  have hboundary : linesSample.IsBoundary 4 := ⟨_, _, hcontents, by decide⟩
  obtain ⟨row, column, line, hlocated, hshown, -⟩ := locates_positions linesSample hboundary
  obtain rfl : 2 = row := Option.some.inj ((located hcontents).row_eq.symm.trans hlocated.row_eq)
  obtain rfl : 2 = column :=
    Option.some.inj ((located hcontents).column_eq.symm.trans hlocated.column_eq)
  obtain rfl : ['a', 'b'] = line :=
    Option.some.inj ((located hcontents).line_eq.symm.trans hlocated.line_eq)
  refine ⟨hboundary, hlocated, (hshown 7).trans ?_⟩
  rw [hcontents]
  decide +kernel

end Source

end NestedFun
