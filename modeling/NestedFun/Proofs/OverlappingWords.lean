import NestedFun.Proofs.MemoryLaws

namespace NestedFun

/-!
# Words at any address

Addresses need not be multiples of the word size, so words overlap. What is read at an address is made
of four bytes, the lowest first; after a word has been written, each of them is a byte of that word or
the one that was there before.
-/

namespace Word

/-- The byte at a place of a word; the lowest byte comes first. -/
def byte (w : Word) (i : Nat) : UInt8 := UInt8.ofNat (w.toUInt32.toNat / 256 ^ i)

def ofBytes (f : Nat → UInt8) : Word :=
  ((f 0).toUInt32 ||| (f 1).toUInt32 <<< 8 ||| (f 2).toUInt32 <<< 16
    ||| (f 3).toUInt32 <<< 24).toInt32

theorem byte_eq_shift (w : Word) {i : Nat} (h : i < 4) :
    w.byte i = (w.toUInt32 >>> (8 * i).toUInt32).toUInt8 := by
  have hcases : i = 0 ∨ i = 1 ∨ i = 2 ∨ i = 3 := by omega
  rw [byte, ← UInt8.toNat_inj]
  rcases hcases with rfl | rfl | rfl | rfl <;> simp [Nat.shiftRight_eq_div_pow]

/-- The bytes that a word is made of are its bytes. -/
theorem byte_ofBytes (f : Nat → UInt8) {i : Nat} (h : i < 4) : (ofBytes f).byte i = f i := by
  have hcases : i = 0 ∨ i = 1 ∨ i = 2 ∨ i = 3 := by omega
  rw [byte_eq_shift _ h]
  apply UInt8.eq_of_toBitVec_eq
  apply BitVec.eq_of_getLsbD_eq
  intro k hk
  rcases hcases with rfl | rfl | rfl | rfl
  · simp [ofBytes]
  · simp [ofBytes]
    grind
  · simp [ofBytes]
    grind
  · simp [ofBytes]
    grind

theorem ofBytes_congr {f g : Nat → UInt8} (h : ∀ i < 4, f i = g i) : ofBytes f = ofBytes g := by
  rw [ofBytes, ofBytes, h 0 (by omega), h 1 (by omega), h 2 (by omega), h 3 (by omega)]

theorem ofBytes_byte (w : Word) : ofBytes w.byte = w := by
  have hbytes := word_of_bytes w.toUInt32
  have hfirst : w.byte 0 = w.toUInt32.toUInt8 := by
    rw [byte_eq_shift w (by omega)]
    simp
  rw [ofBytes, hfirst, byte_eq_shift w (by omega), byte_eq_shift w (by omega), byte_eq_shift w (by omega)]
  exact (congrArg UInt32.toInt32 hbytes).trans rfl

/-- A word at address `b` after the word `v` has been written at address `a`. -/
def mixed (a b : Int) (v old : Word) : Word :=
  ofBytes fun i => if a ≤ b + i ∧ b + i < a + 4 then v.byte (b + i - a).toNat else old.byte i

/-- The three upper bytes of -2 and a byte of 5. -/
example : mixed 3 4 (-2) 0x05060708 = 0x05ffffff := by decide +kernel

theorem mixed_self (a : Int) (v old : Word) : mixed a a v old = v := by
  refine Eq.trans (ofBytes_congr fun i hi => ?_) (ofBytes_byte v)
  rw [if_pos (by omega), show (a + i - a).toNat = i by omega]

theorem mixed_of_apart {a b : Int} (v old : Word) (h : 4 ≤ |a - b|) : mixed a b v old = old := by
  refine Eq.trans (ofBytes_congr fun i hi => ?_) (ofBytes_byte old)
  rw [if_neg (by rcases le_abs.mp h with h | h <;> omega)]

end Word

namespace Memory

theorem byte_getWord (m : Memory) (p : Nat) {i : Nat} (h : i < 4) :
    (m.getWord p).byte i = m.byte (p + i) :=
  Word.byte_ofBytes (fun j => m.byte (p + j)) h

theorem byte_setWord_inside (m : Memory) {p i : Nat} (v : Word) (hp : p + 4 ≤ m.size) (hi : i < 4) :
    (m.setWord p v).byte (p + i) = v.byte i := by
  rw [← byte_getWord _ p hi, getWord_setWord_same m v hp]

/-- A word that is read after another was written anywhere. -/
theorem getWord_setWord (m : Memory) {p : Nat} (q : Nat) (v : Word) (hp : p + 4 ≤ m.size) :
    (m.setWord p v).getWord q = Word.mixed p q v (m.getWord q) := by
  refine Word.ofBytes_congr (f := fun i => (m.setWord p v).byte (q + i)) fun i hi => ?_
  split
  · rename_i hinside
    rw [← byte_setWord_inside m v hp (by omega)]
    congr 1
    omega
  · rename_i houtside
    rw [byte_setWord_of_outside m v (by omega), byte_getWord m q hi]

theorem holds_setWord (m : Memory) (p : Nat) (v a : Word) : (m.setWord p v).Holds a ↔ m.Holds a := by
  rw [Holds, Holds, size_setWord, dataStart_setWord]

/-- What is read after a word has been written: its bytes where the two overlap, and else those that were
there before. -/
theorem read_setWord (m : Memory) {a : Word} (h : m.Holds a) (v b : Word) :
    (m.setWord a.toInt.toNat v).read b = (m.read b).map (Word.mixed a.toInt b.toInt v) := by
  have hstart := h.1
  have hstop : a.toInt + 4 ≤ m.size := h.2
  by_cases hb : m.Holds b
  · have hstart' := hb.1
    have ha₀ : (a.toInt.toNat : Int) = a.toInt := Int.toNat_of_nonneg (by omega)
    have hb₀ : (b.toInt.toNat : Int) = b.toInt := Int.toNat_of_nonneg (by omega)
    rw [read, read, if_pos hb, if_pos ((m.holds_setWord _ v b).mpr hb),
      getWord_setWord m _ v (by omega), ha₀, hb₀]
    rfl
  · rw [read, read, if_neg hb, if_neg fun h' => hb ((m.holds_setWord _ v b).mp h')]
    rfl

/-! ## The laws -/

/-- A word is written at an address: what every address reads from then on. -/
structure Stores (m : Memory) (a v : Word) (m' : Memory) : Prop where
  write_eq : m.write a v = .ok m'
  size_eq : m'.size = m.size
  dataStart_eq : m'.dataStart = m.dataStart
  read_same : m'.read a = .ok v
  read_apart : ∀ b : Word, 4 ≤ |a.toInt - b.toInt| → m'.read b = m.read b
  read_across : ∀ b : Word, |a.toInt - b.toInt| < 4 →
    m'.read b = (m.read b).map (Word.mixed a.toInt b.toInt v)

/-- No word can be read or written at an address, and an attempt leaves the memory as it was. -/
structure Refuses (m : Memory) (a : Word) : Prop where
  read_eq : m.read a = .error (.invalidAddress a)
  write_eq : ∀ v, m.write a v = .error (.invalidAddress a)
  unchanged : ∀ v, m.writeWords a [v] = (m, .error (.invalidAddress a))

/-- Writes words at addresses one after the other, up to the first that finds no place. What has been
written before stays. -/
def writeEach (m : Memory) : List (Int × Word) → Memory × Except FaultKind Unit
  | [] => (m, .ok ())
  | (a, v) :: words =>
    match m.write (.ofInt a) v with
    | .ok m' => m'.writeEach words
    | .error kind => (m, .error kind)

def inRow (a : Int) (vs : List Word) : List (Int × Word) :=
  vs.mapIdx fun i v => (a + 4 * i, v)

theorem inRow_cons (a : Int) (v : Word) (vs : List Word) :
    inRow a (v :: vs) = (a, v) :: inRow (a + 4) vs := by
  rw [inRow, List.mapIdx_cons, inRow]
  congr 1
  · simp
  · refine congrArg (List.mapIdx · vs) (funext fun i => funext fun w => ?_)
    have hshift : a + 4 * ((i + 1 : Nat) : Int) = a + 4 + 4 * i := by
      push_cast
      ring
    rw [hshift]

theorem stores_setWord (m : Memory) {a : Word} (h : m.Holds a) (v : Word) :
    m.Stores a v (m.setWord a.toInt.toNat v) where
  write_eq := by rw [write, if_pos h]
  size_eq := m.size_setWord _ v
  dataStart_eq := rfl
  read_same := by
    rw [read_setWord m h, read, if_pos h]
    exact congrArg Except.ok (Word.mixed_self _ _ _)
  read_apart b hb := by
    rw [read_setWord m h]
    cases m.read b with
    | ok old => exact congrArg Except.ok (Word.mixed_of_apart v old hb)
    | error e => rfl
  read_across b _ := read_setWord m h v b

theorem refuses (m : Memory) {a : Word} (h : ¬ m.Holds a) : m.Refuses a where
  read_eq := by rw [read, if_neg h]
  write_eq v := by rw [write, if_neg h]
  unchanged v := by rw [writeWords, if_neg h]

theorem writeWords_eq (m : Memory) (a : Int) (vs : List Word) :
    m.writeWords (.ofInt a) vs = m.writeEach (inRow a vs) := by
  induction vs generalizing m a with
  | nil => rfl
  | cons v vs ih =>
      rw [inRow_cons, writeWords, writeEach, write]
      split
      · rw [Word.after_one, ih]
      · rfl

/-- The laws of the memory at every alignment: exactly at the addresses from the start of the data to
four bytes before the end words are read and written; and several words are written one after the other. -/
theorem word_store_laws (m : Memory) (a : Word) :
    (if (m.dataStart : Int) ≤ a.toInt ∧ a.toInt ≤ (m.size : Int) - 4 then
        (∃ w, m.read a = .ok w) ∧ ∀ v, ∃ m', m.Stores a v m'
      else m.Refuses a) ∧
    ∀ vs, m.writeWords a vs = m.writeEach (inRow a.toInt vs) := by
  have hholds : ((m.dataStart : Int) ≤ a.toInt ∧ a.toInt ≤ (m.size : Int) - 4) ↔ m.Holds a := by
    have hsize : (wordSize : Int) = 4 := rfl
    rw [Holds, hsize]
    omega
  constructor
  · split
    · rename_i h
      have hold := hholds.mp h
      exact ⟨⟨_, if_pos hold⟩, fun v => ⟨_, m.stores_setWord hold v⟩⟩
    · rename_i h
      exact m.refuses fun hold => h (hholds.mpr hold)
  · intro vs
    conv_lhs => rw [← Word.ofInt_toInt a]
    exact m.writeWords_eq a.toInt vs

end Memory

end NestedFun
