import NestedFun.Proofs.FunctionBodies
import NestedFun.Proofs.StackHeights

namespace NestedFun

/-!
# Heights of the stack in functions

The instructions of every function have heights at all positions, which every step from one
position to another respects: over the bytes of the header at the entry, never below the locals
between the prologue and the epilogue, and with nothing but the result and the number of bytes to
be dropped on top of the locals at the return.
-/

/-! ## Walks and positions -/

/-- The height at a position, of those in front of all instructions and that behind the last. -/
def heightAt (heights : List Int) (top : Int) (n : Nat) : Int := ((heights ++ [top])[n]?).getD 0

namespace Walks

variable {known known' : String → Int → Prop} {before code a b c : List Instruction}
  {heights heights' : List Int} {x d top top' : Int} {layout : Layout}

theorem start (h : Walks known before x code heights top) :
    (heights ++ [top])[0]? = some x := by
  cases h with
  | nil => rfl
  | cons _ _ _ => rfl

/-- What a walk does at a position. -/
theorem at_position (h : Walks known before x code heights top) {n : Nat} {i : Instruction}
    (hi : code[n]? = some i) :
    ∃ y e exit, (heights ++ [top])[n]? = some y ∧
      i.effect? ((code.take n).reverse ++ before) = some (e, exit) ∧
      (heights ++ [top])[n + 1]? = some (y + e) ∧ ∀ l ∈ exit.labels, known l (y + e) := by
  induction h generalizing n with
  | nil => cases hi
  | @cons before code first x₀ d top exit heights heffect hjumps hrest ih =>
      cases n with
      | zero =>
          cases hi
          exact ⟨x₀, d, exit, rfl, heffect, hrest.start, hjumps⟩
      | succ n =>
          obtain ⟨y, e, exit', hy, heffect', hnext, hjumps'⟩ := ih hi
          exact ⟨y, e, exit', hy, by simpa using heffect', hnext, hjumps'⟩

/-- A walk through two parts is a walk through the first and then one through the second. -/
theorem split (h : Walks known before x (a ++ b) heights top) :
    ∃ front back middle, heights = front ++ back ∧ Walks known before x a front middle ∧
      Walks known (a.reverse ++ before) middle b back top := by
  induction a generalizing before x heights with
  | nil => exact ⟨[], heights, x, rfl, .nil, h⟩
  | cons i a ih =>
      cases h with
      | cons heffect hjumps hrest =>
          obtain ⟨front, back, middle, rfl, hfront, hback⟩ := ih hrest
          exact ⟨_ :: front, back, middle, rfl, .cons heffect hjumps hfront, by simpa using hback⟩

/-- The height between two parts. -/
theorem heightAt_split (ha : Walks known before x a heights d)
    (hb : Walks known (a.reverse ++ before) d b heights' top) :
    heightAt (heights ++ heights') top a.length = d := by
  rw [heightAt, List.append_assoc, List.getElem?_append_right ha.length_eq.le, ha.length_eq,
    Nat.sub_self, hb.start]
  rfl

/-- Heights do not depend on which labels are known. -/
theorem unique (h : Walks known before x code heights top)
    (h' : Walks known' before x code heights' top') : heights = heights' ∧ top = top' := by
  induction h generalizing heights' with
  | nil =>
      cases h'
      exact ⟨rfl, rfl⟩
  | cons heffect hjumps hrest ih =>
      cases h' with
      | cons heffect' hjumps' hrest' =>
          cases heffect.symm.trans heffect'
          obtain ⟨rfl, rfl⟩ := ih hrest'
          exact ⟨rfl, rfl⟩

/-- Wherever code stands that adds a number of bytes, it adds as many. -/
theorem rises (h : Walks known before x (a ++ c ++ b) heights top) (hc : Rises layout c d) :
    heightAt heights top (a.length + c.length) = heightAt heights top a.length + d := by
  obtain ⟨front, back, middle, rfl, hfront, hback⟩ := h.split
  obtain ⟨first, second, y, rfl, hfirst, hsecond⟩ := hfront.split
  obtain ⟨-, jumps, -, -, hwalk⟩ := hc
  obtain ⟨-, hmiddle⟩ := hsecond.unique
    (hwalk (fun _ _ => True) (a.reverse ++ before) y fun _ _ _ => trivial)
  have hstop := heightAt_split hfront hback
  have hrest : Walks known (a.reverse ++ before) y (c ++ b) (second ++ back) top :=
    hsecond.append (by simpa using hback)
  have hstart := heightAt_split hfirst hrest
  rw [List.length_append] at hstop
  rw [hstop, List.append_assoc, hstart, hmiddle]

end Walks

theorem exists_of_mem_marks {code : List Instruction} {heights : List Int} {l : String} {x : Int}
    (h : (l, x) ∈ marks code heights) :
    ∃ n : Nat, code[n]? = some (.label l) ∧ heights[n]? = some x := by
  obtain ⟨⟨i, y⟩, hentry, hmark⟩ := List.mem_filterMap.mp h
  obtain ⟨l', hl', heq⟩ := Option.map_eq_some_iff.mp hmark
  cases heq
  obtain ⟨n, hn⟩ := List.getElem?_of_mem hentry
  obtain ⟨hi, hy⟩ := List.getElem?_zip_eq_some.mp hn
  refine ⟨n, ?_, hy⟩
  cases i with
  | label l' =>
      cases hl'
      exact hi
  | _ => cases hl'

def ClosedWalk (x : Int) (code : List Instruction) (heights : List Int) (top : Int) : Prop :=
  Walks (fun l x => (l, x) ∈ marks code heights) [] x code heights top

/-- What happens at a position of a closed walk. -/
theorem ClosedWalk.at_position {code : List Instruction} {heights : List Int} {x top : Int}
    (h : ClosedWalk x code heights top) {n : Nat} {i : Instruction} (hi : code[n]? = some i) :
    ∃ d exit, i.effect? (code.take n).reverse = some (d, exit) ∧
      heightAt heights top (n + 1) = heightAt heights top n + d ∧
      ∀ l ∈ exit.labels, ∃ m : Nat, code[m]? = some (.label l) ∧
        heightAt heights top m = heightAt heights top n + d := by
  obtain ⟨y, d, exit, hy, heffect, hnext, hjumps⟩ := Walks.at_position h hi
  rw [List.append_nil] at heffect
  have hheight : heightAt heights top n = y := by
    rw [heightAt, hy]
    rfl
  rw [hheight]
  refine ⟨d, exit, heffect, ?_, fun l hl => ?_⟩
  · rw [heightAt, hnext]
    rfl
  · obtain ⟨m, hm, hmark⟩ := exists_of_mem_marks (hjumps l hl)
    refine ⟨m, hm, ?_⟩
    have hlt := (List.getElem?_eq_some_iff.mp hmark).1
    rw [heightAt, List.getElem?_append_left hlt, hmark]
    rfl

theorem heightAt_length (heights : List Int) (top : Int) :
    heightAt heights top heights.length = top := by
  simp [heightAt]

/-- A label that stands once stands at one position. -/
theorem label_position_unique {code : List Instruction}
    (hnodup : (code.filterMap Instruction.label?).Nodup) {l : String} {m n : Nat}
    (hm : code[m]? = some (.label l)) (hn : code[n]? = some (.label l)) : m = n := by
  have hpairs := List.pairwise_iff_getElem.mp (List.pairwise_filterMap.mp hnodup)
  obtain ⟨hm', hlabel⟩ := List.getElem?_eq_some_iff.mp hm
  obtain ⟨hn', hlabel'⟩ := List.getElem?_eq_some_iff.mp hn
  rcases Nat.lt_trichotomy m n with hlt | heq | hlt
  · exact absurd rfl (hpairs m n hm' hn' hlt l (by rw [hlabel]; rfl) l (by rw [hlabel']; rfl))
  · exact heq
  · exact absurd rfl (hpairs n m hn' hm' hlt l (by rw [hlabel']; rfl) l (by rw [hlabel]; rfl))

/-! ## Control flow -/

/-- Control can go from one position of instructions to another, and the height changes. -/
inductive Edge (code : List Instruction) : Nat → Nat → Int → Prop
  | next {n : Nat} {i : Instruction} {d : Int} (hi : code[n]? = some i)
      (heffect : i.effect? (code.take n).reverse = some (d, .next)) : Edge code n (n + 1) d
  | jump {n m : Nat} {i : Instruction} {d : Int} {labels : List String} {l : String}
      (hi : code[n]? = some i)
      (heffect : i.effect? (code.take n).reverse = some (d, .jump labels)) (hl : l ∈ labels)
      (hm : code[m]? = some (.label l)) : Edge code n m d

/-- Control can reach a position with a height, from the entry with that of the header. -/
inductive ReachedWith (code : List Instruction) : Nat → Int → Prop
  | entry : ReachedWith code 0 headerSize
  | step {n m : Nat} {x d : Int} (h : ReachedWith code n x) (hedge : Edge code n m d) :
      ReachedWith code m (x + d)

/-- Every edge respects the heights of a closed walk. -/
theorem ClosedWalk.edge {code : List Instruction} {heights : List Int} {x top : Int}
    (h : ClosedWalk x code heights top)
    (hnodup : (code.filterMap Instruction.label?).Nodup) {n m : Nat} {d : Int}
    (hedge : Edge code n m d) : heightAt heights top m = heightAt heights top n + d := by
  cases hedge with
  | next hi heffect =>
      obtain ⟨d', exit, heffect', hnext, -⟩ := h.at_position hi
      cases heffect.symm.trans heffect'
      exact hnext
  | jump hi heffect hl hm =>
      obtain ⟨d', exit, heffect', -, hjumps⟩ := h.at_position hi
      cases heffect.symm.trans heffect'
      obtain ⟨m', hm', hheight⟩ := hjumps _ hl
      rw [label_position_unique hnodup hm hm']
      exact hheight

theorem Instruction.effect_call {frame : Frame} {before : List Instruction} {d : Int} {exit : Exit}
    (h : (call frame).effect? before = some (d, exit)) :
    d = -frame.parametersSize ∧ exit = .next := by
  simp only [effect?] at h
  split at h
  · split at h
    · cases h
      exact ⟨rfl, rfl⟩
    · cases h
  · cases h

theorem Instruction.effect_retn {frame : Frame} {before : List Instruction} {d : Int} {exit : Exit}
    (h : (retn frame).effect? before = some (d, exit)) : d = -headerSize ∧ exit = .leave := by
  simp only [effect?] at h
  split at h
  · cases h
    exact ⟨rfl, rfl⟩
  · cases h

/-- Control leaves only with a return. -/
theorem Instruction.leaves_iff {i : Instruction} {before : List Instruction} {d : Int} {exit : Exit}
    (h : i.effect? before = some (d, exit)) : exit = .leave ↔ ∃ frame, i = .retn frame := by
  cases i with
  | label | load | push | name | regn | oper | save | init =>
      cases h
      simp
  | popn | ujmp | cjmp =>
      simp only [effect?] at h
      split at h
      · cases h
        simp
      · cases h
  | call frame =>
      rw [(effect_call h).2]
      simp
  | retn frame =>
      rw [(effect_retn h).2]
      simp

structure Frame.Balances (frame : Frame) (code : List Instruction) (height : Nat → Int) :
    Prop where
  entry : code[0]? = some (.label frame.label) ∧ height 0 = headerSize
  /-- The prologue makes room for the locals. -/
  prologue : code[1]? = some (.push (.ofInt (headerSize - frame.localsSize))) ∧
    code[2]? = some .popn ∧ height 3 = frame.localsSize
  floor : ∀ n, 3 ≤ n → n < code.length → frame.localsSize ≤ height n
  /-- Every instruction has an effect, after which control goes on inside the code, except that it
  leaves at the end. -/
  effects : ∀ (n : Nat) (i : Instruction), code[n]? = some i → ∃ d exit,
    i.effect? (code.take n).reverse = some (d, exit) ∧ (exit = .next → n + 1 < code.length) ∧
      (∀ l ∈ exit.labels, ∃ m : Nat, code[m]? = some (.label l)) ∧
      (exit = .leave → n + 1 = code.length)
  edges : ∀ n m d, Edge code n m d → height m = height n + d
  nodup_labels : (code.filterMap Instruction.label?).Nodup
  /-- However a position is reached, its height is the same. -/
  reached : ∀ n x, ReachedWith code n x → n < code.length ∧ x = height n
  /-- The only return is the last instruction. It finds the number of bytes that are to be dropped
  and the result above the locals. -/
  leaves : ∃ front, code
      = front ++ [Instruction.push (.ofInt (frame.parametersSize - linkSize)), .retn frame] ∧
    height (front.length + 1) = frame.localsSize + headerSize ∧ ∀ f, .retn f ∉ front

def Frame.prologue (frame : Frame) : List Instruction :=
  [.label frame.label, .push (.ofInt (headerSize - frame.localsSize)), .popn]

def Frame.around (frame : Frame) (body : List Instruction) : List Instruction :=
  frame.prologue ++ (body ++
    [Instruction.push (.ofInt (frame.parametersSize - linkSize)), .retn frame])

theorem Frame.around_eq (frame : Frame) (body : List Instruction) : frame.around body
    = (frame.prologue ++ body ++ [.push (.ofInt (frame.parametersSize - linkSize))]) ++
      [.retn frame] := by
  simp [around]

theorem Code.instructions_functionCode (head : FunctionHead) (frame : Frame) (code : Code) :
    (functionCode head frame code).instructions = frame.around code.instructions := by
  simp [functionCode, Frame.around, Frame.prologue]

def Frame.heights (frame : Frame) (jumps : List Int) : List Int :=
  [8, 8, 12] ++ (jumps ++ [frame.localsSize + 4, frame.localsSize + 8])

/-- A walk through a function whose body adds the result to the stack. -/
theorem Rises.walks_around {layout : Layout} {body : List Instruction} {frame : Frame}
    (h : Rises layout body 4) (hsize : headerSize ≤ frame.localsSize)
    (hlt : frame.localsSize < 2147483648) :
    ∃ jumps : List Int, (∀ x ∈ jumps, frame.localsSize ≤ x) ∧
      heightAt (frame.heights jumps) frame.localsSize 3 = frame.localsSize ∧
      ClosedWalk 8 (frame.around body) (frame.heights jumps) frame.localsSize := by
  obtain ⟨-, jumps, hlength, hjumps, hwalk⟩ := h
  have hheader : headerSize = 8 := rfl
  refine ⟨jumps.map (frame.localsSize + ·), ?_, ?_⟩
  · refine List.forall_mem_map.mpr fun x hx => ?_
    have := hjumps x hx
    omega
  · have hreserved : (Word.ofInt (headerSize - frame.localsSize)).toInt
        = headerSize - frame.localsSize := Word.toInt_ofInt (by omega) (by omega)
    have hmarks : ∀ l x, (l, x) ∈ marks body jumps → (l, frame.localsSize + x)
        ∈ marks (frame.around body) (frame.heights (jumps.map (frame.localsSize + ·))) := by
      intro l x hx
      rw [Frame.around, Frame.heights, marks_append rfl, marks_append (by simpa using hlength)]
      exact List.mem_append_right _ (List.mem_append_left _ (mem_marks_map _ hx))
    unfold ClosedWalk
    generalize marks (frame.around body) _ = known at hmarks ⊢
    have hprologue : Walks (fun l x => (l, x) ∈ known) [] 8 frame.prologue [8, 8, 12]
        frame.localsSize := by
      have hpopn : frame.localsSize
          = 8 + 4 + (-4 - (Word.ofInt (headerSize - frame.localsSize)).toInt) := by omega
      refine .label (.step rfl (.step rfl ?_))
      rw [← hpopn]
      exact .nil
    have hepilogue (before : List Instruction) :
        Walks (fun l x => (l, x) ∈ known) before (frame.localsSize + 4)
          [Instruction.push (.ofInt (frame.parametersSize - linkSize)), .retn frame]
          [frame.localsSize + 4, frame.localsSize + 8] frame.localsSize := by
      have hpush : frame.localsSize + 4 + 4 = frame.localsSize + 8 := by omega
      have hretn : frame.localsSize + 8 + -8 = frame.localsSize := by omega
      refine .step rfl ?_
      rw [hpush]
      refine .cons rfl (by simp [Exit.labels]) ?_
      rw [hretn]
      exact .nil
    have hrest := (hwalk (fun l x => (l, x) ∈ known) frame.prologue.reverse frame.localsSize
      hmarks).append (hepilogue _)
    exact ⟨Walks.heightAt_split hprologue hrest, hprologue.append hrest⟩

section

variable {layout : Layout} {frame : Frame} {body : List Instruction} {jumps : List Int}

/-- Only the last instruction of a function is a return. -/
theorem Frame.around_at (hadmits : ∀ i ∈ body, layout.Admits i) {n : Nat} {i : Instruction}
    (hi : (frame.around body)[n]? = some i) :
    (n + 1 < (frame.around body).length ∧ ∀ f, i ≠ .retn f) ∨
      (n + 1 = (frame.around body).length ∧ i = .retn frame) := by
  have hstays : ∀ i ∈ frame.prologue ++ body ++
      [.push (.ofInt (frame.parametersSize - linkSize))], ∀ f, i ≠ .retn f := by
    simp only [List.forall_mem_append]
    refine ⟨⟨by simp [prologue], ?_⟩, by simp⟩
    rintro _ hi f rfl
    exact hadmits _ hi
  rw [around_eq] at hi ⊢
  generalize frame.prologue ++ body ++ [Instruction.push (.ofInt (frame.parametersSize - linkSize))]
    = front at hi hstays ⊢
  rw [List.length_append, List.length_singleton]
  rcases Nat.lt_or_ge n front.length with hlt | hge
  · rw [List.getElem?_append_left hlt] at hi
    exact .inl ⟨by omega, hstays i (List.mem_of_getElem? hi)⟩
  · rw [List.getElem?_append_right hge, List.getElem?_singleton] at hi
    split at hi
    · cases hi
      exact .inr ⟨by omega, rfl⟩
    · cases hi

/-- Behind the prologue the height is never below the locals. -/
theorem Frame.le_heightAt (hjumps : ∀ x ∈ jumps, frame.localsSize ≤ x) {n : Nat} (hn : 3 ≤ n)
    (hlt : n < (frame.heights jumps).length) :
    frame.localsSize ≤ heightAt (frame.heights jumps) frame.localsSize n := by
  have hall : ∀ x ∈ jumps ++ [frame.localsSize + 4, frame.localsSize + 8], frame.localsSize ≤ x :=
    List.forall_mem_append.mpr ⟨hjumps, by simp⟩
  obtain ⟨x, hx⟩ : ∃ x, (frame.heights jumps)[n]? = some x := ⟨_, List.getElem?_eq_getElem hlt⟩
  rw [heightAt, List.getElem?_append_left hlt, hx]
  rw [Frame.heights, List.getElem?_append_right hn] at hx
  exact hall _ (List.mem_of_getElem? hx)

/-- A walk through a function takes an effect from every instruction, after which control goes on
inside. -/
theorem Frame.effects_around (hadmits : ∀ i ∈ body, layout.Admits i)
    (h : ClosedWalk 8 (frame.around body) (frame.heights jumps) frame.localsSize) {n : Nat}
    {i : Instruction} (hi : (frame.around body)[n]? = some i) : ∃ d exit,
    i.effect? ((frame.around body).take n).reverse = some (d, exit) ∧
      (exit = .next → n + 1 < (frame.around body).length) ∧
      (∀ l ∈ exit.labels, ∃ m : Nat, (frame.around body)[m]? = some (.label l)) ∧
      (exit = .leave → n + 1 = (frame.around body).length) := by
  obtain ⟨d, exit, heffect, -, hlabels⟩ := h.at_position hi
  have hleaves := Instruction.leaves_iff heffect
  refine ⟨d, exit, heffect, ?_, fun l hl => ?_, ?_⟩
  · rintro rfl
    rcases around_at hadmits hi with ⟨hlt, -⟩ | ⟨-, rfl⟩
    · exact hlt
    · cases hleaves.mpr ⟨frame, rfl⟩
  · obtain ⟨m, hm, -⟩ := hlabels l hl
    exact ⟨m, hm⟩
  · intro hleave
    obtain ⟨f, rfl⟩ := hleaves.mp hleave
    rcases around_at hadmits hi with ⟨-, hne⟩ | ⟨hn, -⟩
    · exact absurd rfl (hne f)
    · exact hn

/-- A position that control reaches has the height with which it is reached. -/
theorem Frame.reached_around (hadmits : ∀ i ∈ body, layout.Admits i)
    (h : ClosedWalk 8 (frame.around body) (frame.heights jumps) frame.localsSize)
    (hnodup : ((frame.around body).filterMap Instruction.label?).Nodup) {n : Nat} {x : Int}
    (hreaches : ReachedWith (frame.around body) n x) :
    n < (frame.around body).length ∧ x = heightAt (frame.heights jumps) frame.localsSize n := by
  induction hreaches with
  | entry => exact ⟨by simp [Frame.around], rfl⟩
  | step hreaches hedge ih =>
      refine ⟨?_, by rw [h.edge hnodup hedge, ih.2]⟩
      cases hedge with
      | next hi heffect =>
          obtain ⟨d, exit, heffect', hnext, -⟩ := effects_around hadmits h hi
          cases heffect.symm.trans heffect'
          exact hnext rfl
      | jump hi heffect hl hm => exact (List.getElem?_eq_some_iff.mp hm).1

/-- The return finds the result and the number of bytes to be dropped above the locals. -/
theorem Frame.height_at_return
    (h : ClosedWalk 8 (frame.around body) (frame.heights jumps) frame.localsSize)
    {front : List Instruction} (hcode : frame.around body = front ++ [.retn frame]) :
    heightAt (frame.heights jumps) frame.localsSize front.length
      = frame.localsSize + headerSize := by
  have hreturn : (frame.around body)[front.length]? = some (.retn frame) := by simp [hcode]
  have hlength : (frame.heights jumps).length = front.length + 1 := by
    rw [Walks.length_eq h, hcode, List.length_append, List.length_singleton]
  obtain ⟨d, exit, heffect, hheight, -⟩ := h.at_position hreturn
  rw [← hlength, heightAt_length] at hheight
  have hdrop := (Instruction.effect_retn heffect).1
  omega

end

/-- A function whose body adds the result has heights at all positions, and whatever stands in it
adds to the height what it adds to the stack. -/
theorem Rises.balances_around {layout : Layout} {body : List Instruction} {frame : Frame}
    (h : Rises layout body 4) (hsize : headerSize ≤ frame.localsSize)
    (hlt : frame.localsSize < 2147483648)
    (hnodup : ((frame.around body).filterMap Instruction.label?).Nodup) :
    ∃ height : Nat → Int, frame.Balances (frame.around body) height ∧
      ∀ a b c d, frame.around body = a ++ c ++ b → Rises layout c d →
        height (a.length + c.length) = height a.length + d := by
  obtain ⟨jumps, hjumps, hprologue, hwalk⟩ := h.walks_around hsize hlt
  have hadmits := h.1
  have hlength := Walks.length_eq hwalk
  refine ⟨heightAt (frame.heights jumps) frame.localsSize, {
      entry := ⟨rfl, rfl⟩
      prologue := ⟨rfl, rfl, hprologue⟩
      floor := fun n hn hlt => Frame.le_heightAt hjumps hn (by omega)
      effects := fun n i hi => Frame.effects_around hadmits hwalk hi
      edges := fun n m d hedge => hwalk.edge hnodup hedge
      nodup_labels := hnodup
      reached := fun n x hreaches => Frame.reached_around hadmits hwalk hnodup hreaches
      leaves := by
        have hheight := Frame.height_at_return hwalk (frame.around_eq body)
        rw [List.length_append] at hheight
        refine ⟨frame.prologue ++ body, by simp [Frame.around], hheight, ?_⟩
        simp only [List.mem_append, not_or]
        exact fun f => ⟨by simp [Frame.prologue], hadmits _⟩ }, ?_⟩
  intro a b c d hcode hc
  rw [ClosedWalk, hcode] at hwalk
  exact hwalk.rises hc

end NestedFun
