import NestedFun.Compiler
import NestedFun.Proofs.Positions
import NestedFun.Proofs.ScopeErrors
import NestedFun.Proofs.Sentences

namespace NestedFun

/-!
# Errors can be shown

Every error of a text points at a stretch of it that begins and ends between characters. The line in
front of it is ASCII, so counting bytes is counting characters. Only at the end of the text there may be
a comment on the line.
-/

/-! ## Pointing at a stretch -/

theorem splitAtByte?_append (before after : List Char) :
    splitAtByte? (byteLength before) (before ++ after) = some (before, after) := by
  induction before with
  | nil => rw [byteLength_nil, splitAtByte?, List.nil_append]
  | cons c before ih =>
      obtain ⟨n, hn⟩ : ∃ n, c.utf8Size + byteLength before = n + 1 :=
        Nat.exists_eq_succ_of_ne_zero (by have := c.utf8Size_pos; omega)
      rw [List.cons_append, byteLength_cons, hn, splitAtByte?, if_pos (by omega),
        show n + 1 - c.utf8Size = byteLength before by omega, ih]
      rfl

theorem byteLength_eq_length {cs : List Char} (h : ∀ c ∈ cs, c.toNat < 128) :
    byteLength cs = cs.length := by
  induction cs with
  | nil => rfl
  | cons c cs ih =>
      obtain ⟨hc, hcs⟩ := List.forall_mem_cons.mp h
      have hsize : c.utf8Size = 1 := Char.utf8Size_eq_one_iff.mpr
        (UInt32.le_iff_toNat_le.mpr (Nat.le_of_lt_succ hc))
      rw [byteLength_cons, hsize, ih hcs, List.length_cons, Nat.add_comm]

namespace Source

variable {source : Source} {before inside after : List Char}

theorem size_eq (h : source.contents.toList = before ++ after) :
    source.size = byteLength before + byteLength after := by
  rw [size, String.utf8ByteSize_eq_byteLength, h, byteLength_append]

theorem split?_eq (h : source.contents.toList = before ++ after) :
    source.split? (byteLength before) = some (before, after) := by
  rw [split?, Nat.min_eq_left (by rw [size_eq h]; omega), h, splitAtByte?_append]

/-- A message about a stretch of the text: row, column, the line, and carets below the stretch. -/
def pointed (source : Source) (message : String) (before inside after : List Char) (indent : Nat) :
    String :=
  let row := before.count '\n' + 1
  let line := lastLine before ++ firstLine (inside ++ after)
  let carets := max 1 (min (byteLength inside) (byteLength (firstLine (inside ++ after))))
  let highlight := String.ofList
    (line ++ ['\n'] ++ List.replicate indent ' ' ++ List.replicate carets '^')
  s!"{message} ({source.origin.display}:{row}:{indent + 1})\n{highlight}"

theorem annotate?_eq (h : source.contents.toList = before ++ (inside ++ after)) (message : String) :
    source.annotate? ⟨byteLength before, byteLength before + byteLength inside⟩ message
      = some (source.pointed message before inside after (byteLength (lastLine before))) := by
  have hsplit := split?_eq h
  have hcarets : ∀ a b c : Nat, max (a + 1) (min (a + b) (a + c)) - a = max 1 (min b c) := by
    intro a b c
    omega
  have hstart : min (byteLength before) source.size = byteLength before :=
    Nat.min_eq_left (by rw [size_eq h]; omega)
  rw [annotate?, row?, column?, highlight?]
  simp only [hsplit, hstart, hcarets]
  rfl

end Source

/-! ## Tokens -/

namespace Tokens

/-- Every token of a text is marked. -/
theorem marked {cs : List Char} {token : Token} (h : token ∈ (ofText cs).list) :
    Marked cs token.span := by
  obtain ⟨front, back, hitems⟩ := List.append_of_mem h
  have hall : ∃ tail, (Cursor.start cs).scan.items = (ofText cs).list.map .ok ++ tail := by
    rcases items_eq (Cursor.start cs).scan.stop (Cursor.start cs).scan.items with
      ⟨hall, -⟩ | ⟨e, tail, hall, -⟩
    · exact ⟨[], hall.trans (List.append_nil _).symm⟩
    · exact ⟨_, hall⟩
  obtain ⟨tail, hall⟩ := hall
  rw [hitems, List.map_append, List.map_cons, List.append_assoc, List.cons_append] at hall
  exact marked_of_items hall

/-- The error that the tokens of a text end with is marked. -/
theorem marked_error {cs : List Char} {e : CompileError} (h : (ofText cs).ending = .error e) :
    Marked cs e.span := by
  rcases items_eq (Cursor.start cs).scan.stop (Cursor.start cs).scan.items with
    ⟨-, hok⟩ | ⟨e', back, hitems, herror⟩
  · cases hok.symm.trans h
  · cases herror.symm.trans h
    exact marked_of_items hitems

end Tokens

theorem Marked.joins (cs : List Char) : Span.Joins (Marked cs) where
  le _ h := h.le.1
  join _ _ ha hb h := ha.join hb h

/-- Tokens are not empty. -/
theorem Pieces.nonempty {position : Nat} {cs : List Char} {tokens : List Token} {token : Token}
    (h : Pieces position cs (tokens.map .ok)) (hmem : token ∈ tokens) :
    token.span.start < token.span.stop := by
  obtain ⟨before, text, rest, -, htext, hspan⟩ := h.covers (.ok token) (List.mem_map_of_mem hmem)
  have hpos : 0 < byteLength text := Nat.pos_of_ne_zero fun hzero => htext (byteLength_eq_zero hzero)
  have hspan' : token.span = ⟨position + byteLength before,
      position + byteLength before + byteLength text⟩ := hspan
  rw [hspan']
  exact Nat.lt_add_of_pos_right hpos

/-- Tokens that cover a text one behind the other stand in it. -/
theorem Pieces.tokensStand {Q : Span → Prop} {position : Nat} {cs : List Char} {tokens : List Token}
    (h : Pieces position cs (tokens.map .ok)) (hQ : ∀ token ∈ tokens, Q token.span) :
    TokensStand Q (position + byteLength cs) position tokens := by
  induction tokens generalizing position cs with
  | nil => exact Nat.le_add_right _ _
  | cons token tokens ih =>
      obtain ⟨hfirst, hothers⟩ := List.forall_mem_cons.mp hQ
      rw [List.map_cons] at h
      cases h with
      | @piece _ gap text rest _ _ hgap hspan hmunched h =>
          have hrest := ih h hothers
          have hspan' : token.span = ⟨position + byteLength gap,
              position + byteLength gap + byteLength text⟩ := hspan
          refine ⟨hfirst, ?_, ?_⟩
          · rw [hspan']
            exact Nat.le_add_right _ _
          · rw [hspan']
            simpa only [byteLength_append, Nat.add_assoc] using hrest

/-- Every span in the tree of a text is marked. -/
theorem Program.spanned_of_parse {cs : List Char} {program : Program} (h : parse cs = .ok program) :
    SpannedDefinitions (Marked cs) program := by
  obtain ⟨d, hd, hvalue⟩ := spells_of_parse h
  have hlist : (Tokens.ofText cs).list = d.tokens := by rw [Tokens.ofText_of_items hd.items_eq]
  have hpieces := (Cursor.start cs).pieces_scan
  rw [hd.items_eq] at hpieces
  refine spannedDefinitions_unnumbered program ?_
  have hstands := hpieces.tokensStand fun token hmem => Tokens.marked (hlist ▸ hmem)
  rw [← Program.unnumbered, hvalue]
  exact d.spanned (Marked.joins cs) hstands

/-! ## Errors -/

/-- An error is marked, or it is at the end of a text that may end in a comment. -/
def CompileError.Placed (cs : List Char) (e : CompileError) : Prop :=
  Marked cs e.span ∨ e.span = ⟨byteLength cs, byteLength cs⟩ ∧ EndsInComment cs

/-- The end of a text. -/
theorem placed_end {cs : List Char} (cause : Cause) (h : AsciiLine cs ∨ EndsInComment cs) :
    CompileError.Placed cs ⟨⟨byteLength cs, byteLength cs⟩, cause⟩ := by
  rcases h with h | h
  · exact .inl ⟨cs, [], [], by simp, rfl, h⟩
  · exact .inr ⟨rfl, h⟩

theorem Program.parse_placed {cs : List Char} {e : CompileError} (h : parse cs = .error e) :
    e.Placed cs := by
  cases fails_of_parse h with
  | lexical hending => exact .inl (Tokens.marked_error hending)
  | integer hmem hlarge => exact .inl (Tokens.marked hmem)
  | @halts front back next wanted hupcoming _ hhalts =>
      have hnext : next ∈ (Reader.ofText cs).upcoming := hupcoming ▸ by simp
      rcases List.mem_append.mp hnext with hnext | hnext
      · exact .inl (Tokens.marked hnext)
      · have hending : (Reader.ofText cs).tokens.ending = .ok next := by
          cases hcase : (Reader.ofText cs).tokens.ending with
          | error e => rw [hcase] at hnext; cases hnext
          | ok token => rw [hcase] at hnext; rw [List.mem_singleton.mp hnext]
        have hitems := Tokens.ofItems_ok hending
        obtain rfl : endToken (byteLength cs) = next := by
          have hstop : (Cursor.start cs).scan.stop = byteLength cs :=
            (Cursor.scan_stop _).trans (Nat.zero_add _)
          have htokens := Tokens.ofText_of_items hitems
          rw [hstop] at htokens
          exact Except.ok.inj ((congrArg Tokens.ending htokens).symm.trans hending)
        exact placed_end (.syntactic (.expected wanted .endOfFile)) (asciiLine_of_items hitems)

theorem marked_nowhere (cs : List Char) : Marked cs .nowhere := ⟨[], [], cs, rfl, rfl, nofun⟩

/-- A text has an error if it is no program or if its names have no meaning. -/
theorem analyze_eq_error {source : Source} {e : CompileError} (h : analyze source = .error e) :
    Program.parse source.contents.toList = .error e ∨
      ∃ program, Program.parse source.contents.toList = .ok program ∧
        Program.resolve program = .error e := by
  rcases bind_eq_error h with h | ⟨program, hprogram, h⟩
  · exact .inl h
  · refine .inr ⟨program, hprogram, ?_⟩
    rcases bind_eq_error h with h | ⟨resolution, -, h⟩
    · exact h
    · cases h

/-- Every error of a text is at a place in it. -/
theorem analyze_placed {source : Source} {e : CompileError} (h : analyze source = .error e) :
    e.Placed source.contents.toList := by
  rcases analyze_eq_error h with h | ⟨program, hparse, h⟩
  · exact Program.parse_placed h
  · have hblames := Program.resolve_blames (P := CompileError.Placed source.contents.toList)
      (fun _ _ => .inl) (Program.spanned_of_parse hparse) .nil .nil List.not_mem_nil
      (marked_nowhere _) (fun d hd => absurd hd List.not_mem_nil)
    rw [List.append_nil] at hblames
    exact hblames e h

/-- Every error of a text can be shown. It is at a stretch of the text, and the column and the blanks in
front of the carets count the characters of the line in front of it, unless the text ends there, behind a
comment. -/
theorem analyze_shows_errors (source : Source) (e : CompileError) (h : analyze source = .error e) :
    ∃ before inside after indent, source.contents.toList = before ++ (inside ++ after) ∧
      e.span = ⟨byteLength before, byteLength before + byteLength inside⟩ ∧
      e.span.stop ≤ source.size ∧
      e.render? source = some (source.pointed e.message before inside after indent) ∧
      ((∀ c ∈ lastLine before, c.toNat < 128) ∧ indent = (lastLine before).length ∨
        inside = [] ∧ after = [] ∧ EndsInComment before ∧ indent = byteLength (lastLine before)) := by
  have hshow : ∀ {before inside after}, source.contents.toList = before ++ (inside ++ after) →
      e.span = ⟨byteLength before, byteLength before + byteLength inside⟩ →
      e.span.stop ≤ source.size ∧ e.render? source
        = some (source.pointed e.message before inside after (byteLength (lastLine before))) := by
    intro before inside after hcontents hspan
    refine ⟨?_, by rw [CompileError.render?, hspan, Source.annotate?_eq hcontents]⟩
    rw [hspan, Source.size_eq hcontents, byteLength_append, ← Nat.add_assoc]
    exact Nat.le_add_right _ _
  rcases analyze_placed h with ⟨before, inside, after, hcontents, hspan, hascii⟩ | ⟨hspan, hcomment⟩
  · obtain ⟨hle, hrender⟩ := hshow hcontents hspan
    exact ⟨before, inside, after, _, hcontents, hspan, hle, hrender,
      .inl ⟨hascii, byteLength_eq_length hascii⟩⟩
  · have hcontents : source.contents.toList = source.contents.toList ++ ([] ++ []) := by simp
    obtain ⟨hle, hrender⟩ := hshow hcontents hspan
    exact ⟨source.contents.toList, [], [], _, hcontents, hspan, hle, hrender,
      .inr ⟨rfl, rfl, hcomment, rfl⟩⟩

def strangeSample : Spelled "# è\nfun main() = 1 é" := .literal _

theorem analyze_shows_errors_sample : ∃ e, analyze ⟨"# è\nfun main() = 1 é", .memory⟩ = .error e ∧
    e.span = ⟨20, 22⟩ ∧ ∃ before inside after indent, strangeSample.chars = before ++ (inside ++ after) ∧
      e.span = ⟨byteLength before, byteLength before + byteLength inside⟩ ∧
      e.span.stop ≤ Source.size ⟨"# è\nfun main() = 1 é", .memory⟩ ∧
      e.render? ⟨"# è\nfun main() = 1 é", .memory⟩
        = some (Source.pointed ⟨"# è\nfun main() = 1 é", .memory⟩ e.message before inside after indent) ∧
      ((∀ c ∈ lastLine before, c.toNat < 128) ∧ indent = (lastLine before).length ∨
        inside = [] ∧ after = [] ∧ EndsInComment before ∧ indent = byteLength (lastLine before)) := by
  have hparsed : (match Program.parse strangeSample.chars with
      | .error e => decide (e.span = ⟨20, 22⟩)
      | .ok _ => false) = true := by
    decide +kernel
  cases h : Program.parse strangeSample.chars with
  | ok program => rw [h] at hparsed; cases hparsed
  | error e =>
      rw [h] at hparsed
      have herror : analyze ⟨"# è\nfun main() = 1 é", .memory⟩ = .error e := by
        rw [analyze, strangeSample.toList_eq, h]
        rfl
      refine ⟨e, herror, of_decide_eq_true hparsed, ?_⟩
      rw [← strangeSample.toList_eq]
      exact analyze_shows_errors _ e herror

def commentSample : Spelled "fun main() = # é" := .literal _

/-- Behind such a comment there are fewer characters than bytes. -/
theorem analyze_shows_end_behind_comment : ∃ e before,
    analyze ⟨"fun main() = # é", .memory⟩ = .error e ∧
      Source.split? ⟨"fun main() = # é", .memory⟩ e.span.start = some (before, []) ∧
      (∃ c ∈ lastLine before, ¬ c.toNat < 128) ∧
      Source.column? ⟨"fun main() = # é", .memory⟩ e.span.start = some 18 ∧
      (lastLine before).length + 1 = 17 := by
  have hparsed : (match Program.parse commentSample.chars with
      | .error e => decide (e.span.start = byteLength commentSample.chars)
      | .ok _ => false) = true := by
    decide +kernel
  cases h : Program.parse commentSample.chars with
  | ok program => rw [h] at hparsed; cases hparsed
  | error e =>
      rw [h] at hparsed
      have hsplit : Source.split? ⟨"fun main() = # é", .memory⟩ e.span.start
          = some (commentSample.chars, []) := by
        rw [of_decide_eq_true hparsed]
        exact Source.split?_eq (commentSample.toList_eq.trans (List.append_nil _).symm)
      have herror : analyze ⟨"fun main() = # é", .memory⟩ = .error e := by
        rw [analyze, commentSample.toList_eq, h]
        rfl
      have hlast : lastLine commentSample.chars = "fun main() = # é".toList := by decide +kernel
      refine ⟨e, commentSample.chars, herror, hsplit, ⟨'é', ?_, by decide⟩, ?_, by decide +kernel⟩
      · rw [hlast]
        decide +kernel
      · rw [Source.column?, hsplit]
        decide +kernel

end NestedFun
