import NestedFun.Proofs.Loading

namespace NestedFun

/-!
# Addresses of the code

The bytes of loaded code: where instructions start, that behind every one of them another one starts
or the code ends, and the registers with which a machine begins.
-/

/-- Whether the code of an image goes on behind every instruction, with another one or with the end
of the code. -/
def Image.Contiguous (image : Image) (codeSize : Nat) : Prop :=
  ∀ (pc : Word) (i : Instruction), image.fetch? pc = some i →
    (image.fetch? (pc + .ofInt i.size)).isSome ∨ (pc + .ofInt i.size).toInt = codeSize

theorem codeBytes_append (a b : Code) : codeBytes (a ++ b) = codeBytes a ++ codeBytes b := by
  induction a with
  | nil => rfl
  | cons i a ih => simp only [List.cons_append, codeBytes_cons, ih, List.append_assoc]

/-- The bytes of code are empty or start with an instruction. -/
theorem codeBytes_head (code : Code) :
    codeBytes code = [] ∨ ∃ i, (codeBytes code)[0]? = some (some i) := by
  induction code with
  | nil => exact .inl rfl
  | cons first code ih =>
      rw [codeBytes_cons]
      by_cases h : first.item.size = 0
      · simpa [h] using ih
      · simp [h]

/-- An instruction that stands in the bytes of code stands in the code, at that address. -/
theorem exists_of_codeBytes {code : Code} {n : Nat} {i : Instruction}
    (h : (codeBytes code)[n]? = some (some i)) :
    ∃ before span rest, code = before ++ ⟨span, i⟩ :: rest ∧ (codeBytes before).length = n ∧
      i.size ≠ 0 := by
  induction code generalizing n with
  | nil => cases h
  | cons first code ih =>
      have hinside (n : Nat) (h : (codeBytes code)[n]? = some (some i)) :
          ∃ before span rest, first :: code = before ++ ⟨span, i⟩ :: rest ∧
            (codeBytes before).length = first.item.size + n ∧ i.size ≠ 0 := by
        obtain ⟨before, span, rest, hcode, hlength, hsize⟩ := ih h
        refine ⟨first :: before, span, rest, by rw [hcode, List.cons_append], ?_, hsize⟩
        have h₁ := length_codeBytes (first :: before)
        have h₂ := length_codeBytes before
        rw [Code.size_cons] at h₁
        omega
      rw [codeBytes_cons] at h
      by_cases hsize : first.item.size = 0
      · rw [if_pos hsize, List.nil_append] at h
        simpa [hsize] using hinside n h
      · rw [if_neg hsize] at h
        by_cases hn : n < first.item.size
        · cases n with
          | zero =>
              have hi : first.item = i := by simpa using h
              exact ⟨[], first.span, code, by rw [← hi]; rfl, rfl, hi ▸ hsize⟩
          | succ n =>
              rw [List.getElem?_append_left (by simp; omega), List.getElem?_cons_succ,
                List.getElem?_replicate] at h
              split at h <;> cases h
        · rw [List.getElem?_append_right (by simp; omega)] at h
          obtain ⟨before, span, rest, hcode, hlength, hi⟩ := hinside _ h
          refine ⟨before, span, rest, hcode, ?_, hi⟩
          simp only [List.length_cons, List.length_replicate] at hlength
          omega

/-- What an image made of code finds at an address. -/
theorem Image.fetch?_codeBytes {code : Code} {labels : LabelTable} {pc : Word} {i : Instruction} :
    Image.fetch? ⟨(codeBytes code).toArray, labels⟩ pc = some i ↔
      0 ≤ pc.toInt ∧ (codeBytes code)[pc.toInt.toNat]? = some (some i) := by
  rw [Image.fetch?, List.getElem?_toArray]
  by_cases hpc : pc < 0
  · have hneg : pc.toInt < 0 := Int32.lt_iff_toInt_lt.mp hpc
    rw [if_pos hpc]
    constructor
    · intro h
      cases h
    · rintro ⟨h, -⟩
      omega
  · have hpos : 0 ≤ pc.toInt := Int32.le_iff_toInt_le.mp (Int32.not_lt.mp hpc)
    rw [if_neg hpc, Option.join_eq_some_iff]
    exact ⟨fun h => ⟨hpos, h⟩, fun h => h.2⟩

theorem contiguous_codeBytes {code : Code} {labels : LabelTable} (hlt : code.size < 2147483648) :
    Image.Contiguous ⟨(codeBytes code).toArray, labels⟩ (codeBytes code).length := by
  intro pc i hfetch
  obtain ⟨hpos, hbyte⟩ := Image.fetch?_codeBytes.mp hfetch
  obtain ⟨before, span, rest, hcode, hlength, -⟩ := exists_of_codeBytes hbyte
  have htotal := length_codeBytes code
  have hcut : codeBytes code = codeBytes (before ++ [⟨span, i⟩]) ++ codeBytes rest := by
    rw [← codeBytes_append, List.append_assoc]
    exact congrArg codeBytes hcode
  have hnext : ((codeBytes (before ++ [⟨span, i⟩])).length : Int) = pc.toInt + i.size := by
    rw [length_codeBytes, Code.size_append, ← length_codeBytes before, Code.size_cons,
      Code.size_nil]
    dsimp only
    omega
  have hle := congrArg List.length hcut
  rw [List.length_append] at hle
  have hpc : (pc + .ofInt i.size).toInt = pc.toInt + i.size := by
    rw [← Word.ofInt_toInt pc, Word.ofInt_add, Word.ofInt_toInt,
      Word.toInt_ofInt (by omega) (by omega)]
  rcases codeBytes_head rest with hend | ⟨j, hj⟩
  · right
    rw [hend] at hle
    rw [hpc]
    simp at hle
    omega
  · left
    have hfetch' : Image.fetch? ⟨(codeBytes code).toArray, labels⟩ (pc + .ofInt i.size) = some j :=
      Image.fetch?_codeBytes.mpr ⟨by omega, ?_⟩
    · rw [hfetch']
      rfl
    · rw [hpc, ← hnext, Int.toNat_natCast, hcut, List.getElem?_append_right le_rfl, Nat.sub_self,
        hj]

theorem Memory.writeWords_extent (m : Memory) (a : Word) (ws : List Word) :
    (m.writeWords a ws).1.size = m.size ∧ (m.writeWords a ws).1.dataStart = m.dataStart := by
  induction ws generalizing m a with
  | nil => exact ⟨rfl, rfl⟩
  | cons w ws ih =>
      rw [writeWords]
      split
      · obtain ⟨hsize, hstart⟩ := ih (m.setWord a.toInt.toNat w) (a.after 1)
        exact ⟨hsize.trans (m.size_setWord _ w), hstart⟩
      · exact ⟨rfl, rfl⟩

theorem Memory.writeAll_extent {m m' : Memory} {a : Int} {ws : List Word}
    (h : m.writeAll a ws = .ok m') : m'.size = m.size ∧ m'.dataStart = m.dataStart := by
  have hextent := m.writeWords_extent (.ofInt a) ws
  rw [Memory.writeAll] at h
  split at h
  · rename_i m₁ hrun
    cases h
    rwa [hrun] at hextent
  · cases h

/-- Loading data leaves the extent of the memory alone. -/
theorem loadData_extent (entries : List (Int × Located Datum)) {labels labels' : LabelTable}
    {m m' : Memory} (h : loadData labels m entries = .ok (labels', m')) :
    m'.size = m.size ∧ m'.dataStart = m.dataStart := by
  induction entries generalizing labels m with
  | nil =>
      cases h
      exact ⟨rfl, rfl⟩
  | cons entry entries ih =>
      obtain ⟨a, d⟩ := entry
      rcases loadData_cons_ok h with ⟨l, labels₁, -, -, h⟩ | ⟨m₁, -, hwrite, h⟩
      · exact ih h
      · obtain ⟨hsize, hstart⟩ := Memory.writeAll_extent hwrite
        obtain ⟨hsize', hstart'⟩ := ih h
        exact ⟨hsize'.trans hsize, hstart'.trans hstart⟩

section

variable {segments : Segments} {memorySize : Nat} {input : List UInt8} {output : Output}
  {image : Image} {s : State}

structure Segments.Starts (segments : Segments) (memorySize : Nat) (image : Image) (s : State) :
    Prop where
  code_eq : image.code = (codeBytes segments.code).toArray
  size_eq : s.memory.size = usableMemory memorySize
  dataStart_eq : (s.memory.dataStart : Int) = Code.size segments.code
  room : Code.size segments.code + Data.size segments.data ≤ usableMemory memorySize
  pc_eq : s.pc = 0
  sp_eq : s.sp = .ofInt (usableMemory memorySize)
  heapEnd_eq : s.heapEnd = (Word.ofInt (Code.size segments.code + Data.size segments.data)).alignUp

theorem Segments.load_starts (h : segments.load memorySize input output = .ok (image, s)) :
    segments.Starts memorySize image s := by
  obtain ⟨-, -, hroom, labels₁, labels₂, m, -, hloads, -, rfl, rfl⟩ := load_steps h
  obtain ⟨hsize, hstart⟩ := loadData_extent _ hloads
  have hstart' : (m.dataStart : Int) = Code.size segments.code := by
    rw [hstart]
    exact Int.toNat_of_nonneg (Code.size_nonneg segments.code)
  exact ⟨rfl, hsize.trans (size_zeroBytes _), hstart', hroom, rfl, rfl, rfl⟩

theorem Segments.Starts.contiguous (h : segments.Starts memorySize image s)
    (hdata : 0 ≤ Data.size segments.data) : image.Contiguous s.memory.dataStart := by
  obtain ⟨code, labels⟩ := image
  obtain rfl : code = (codeBytes segments.code).toArray := h.code_eq
  have hlength := length_codeBytes segments.code
  have hstart := h.dataStart_eq
  have hroom := h.room
  have hlt := usableMemory_lt memorySize
  rw [show s.memory.dataStart = (codeBytes segments.code).length by omega]
  exact contiguous_codeBytes (by omega)

theorem Segments.Starts.toInt_heapEnd (h : segments.Starts memorySize image s)
    (hdata : 0 ≤ Data.size segments.data) :
    s.heapEnd.toInt = (Code.size segments.code + Data.size segments.data + 3) / 4 * 4 := by
  have hcode := Code.size_nonneg segments.code
  have hroom := h.room
  have hlt := usableMemory_lt memorySize
  have hmod := usableMemory_mod memorySize
  have hstop : (Word.ofInt (Code.size segments.code + Data.size segments.data)).toInt
      = Code.size segments.code + Data.size segments.data :=
    Word.toInt_ofInt (by omega) (by omega)
  rw [h.heapEnd_eq, Word.toInt_alignUp (by omega) (by omega), hstop]

theorem Segments.Starts.addressed_of_fetch (h : segments.Starts memorySize image s) {pc : Word}
    {i : Instruction} (hfetch : image.fetch? pc = some i) :
    ∃ entry ∈ segments.addressedCode, entry.2.item.size ≠ 0 ∧ pc.toInt = entry.1 ∧
      image.fetch? pc = some entry.2.item := by
  obtain ⟨code, labels⟩ := image
  obtain rfl : code = (codeBytes segments.code).toArray := h.code_eq
  obtain ⟨hpos, hbyte⟩ := Image.fetch?_codeBytes.mp hfetch
  obtain ⟨before, span, rest, hcode, hlength, hsize⟩ := exists_of_codeBytes hbyte
  have haddress := length_codeBytes before
  refine ⟨(pc.toInt, ⟨span, i⟩), ?_, hsize, rfl, hfetch⟩
  rw [Segments.addressedCode, hcode, addressed_append, List.mem_append]
  right
  have hstart : (0 : Int) + (before.map fun i => (i.item.size : Int)).sum = pc.toInt := by
    have : Code.size before = pc.toInt := by omega
    rw [Int.zero_add]
    exact this
  rw [hstart]
  exact List.mem_cons_self

end

end NestedFun
