import NestedFun.Machine.Memory
import NestedFun.Proofs.WordArithmetic
import Mathlib.Tactic

namespace NestedFun

/-!
# Laws of the memory

A word that was written is read back, and words that do not overlap it stay as they were. Two
memories are compared by the bytes in which they may differ.
-/

theorem getLsbD_mod_byte (x : BitVec 32) (i : Nat) :
    (x % 256#32).getLsbD i = (decide (i < 8) && x.getLsbD i) := by
  have h : (x % 256#32).toNat = x.toNat % 2 ^ 8 := by simp [BitVec.toNat_umod]
  rw [BitVec.getLsbD, BitVec.getLsbD, h, Nat.testBit_mod_two_pow]

/-- The four bytes of a word make up the word. -/
theorem word_of_bytes (w : UInt32) :
    w.toUInt8.toUInt32 ||| (w >>> 8).toUInt8.toUInt32 <<< 8
      ||| (w >>> 16).toUInt8.toUInt32 <<< 16 ||| (w >>> 24).toUInt8.toUInt32 <<< 24 = w := by
  apply UInt32.eq_of_toBitVec_eq
  apply BitVec.eq_of_getLsbD_eq
  intro i hi
  simp [getLsbD_mod_byte]
  by_cases h8 : i < 8
  · grind
  by_cases h16 : i < 16
  · simp [h8, h16, hi]
    grind
  by_cases h24 : i < 24
  · simp [h8, h16, h24, hi]
    grind
  · simp [h8, h16, h24, hi]
    grind

theorem get!_setByte (bytes : ByteArray) (i j : Nat) (b : UInt8) :
    (setByte bytes i b).get! j = if i = j ∧ j < bytes.size then b else bytes.get! j := by
  rw [setByte]
  cases bytes with
  | mk bs =>
      show (bs.set! i b)[j]! = if i = j ∧ j < bs.size then b else bs[j]!
      rw [Array.set!_eq_setIfInBounds]
      by_cases h : j < bs.size
      · simp [h, getElem!_pos, Array.getElem_setIfInBounds]
      · simp [h, getElem!_neg]

theorem size_setByte (bytes : ByteArray) (i : Nat) (b : UInt8) :
    (setByte bytes i b).size = bytes.size := by
  rw [setByte]
  cases bytes with
  | mk bs =>
      show (bs.set! i b).size = bs.size
      simp

namespace Memory

@[simp] theorem size_setWord (m : Memory) (i : Nat) (v : Word) :
    (m.setWord i v).size = m.size := by
  simp only [setWord, size, size_setByte]

@[simp] theorem dataStart_setWord (m : Memory) (i : Nat) (v : Word) :
    (m.setWord i v).dataStart = m.dataStart := rfl

theorem byte_setWord_of_outside (m : Memory) {i j : Nat} (v : Word) (h : j < i ∨ i + 4 ≤ j) :
    (m.setWord i v).byte j = m.byte j := by
  simp only [setWord, byte, get!_setByte]
  rw [if_neg (by omega), if_neg (by omega), if_neg (by omega), if_neg (by omega)]

theorem getWord_setWord_same (m : Memory) {i : Nat} (v : Word) (h : i + 4 ≤ m.size) :
    (m.setWord i v).getWord i = v := by
  have hsize : m.bytes.size = m.size := rfl
  have h₀ : (m.setWord i v).byte i = v.toUInt32.toUInt8 := by
    simp only [setWord, byte, get!_setByte, size_setByte, true_and]
    rw [if_neg (by omega), if_neg (by omega), if_neg (by omega), if_pos (by omega)]
  have h₁ : (m.setWord i v).byte (i + 1) = (v.toUInt32 >>> 8).toUInt8 := by
    simp only [setWord, byte, get!_setByte, size_setByte, true_and]
    rw [if_neg (by omega), if_neg (by omega), if_pos (by omega)]
  have h₂ : (m.setWord i v).byte (i + 2) = (v.toUInt32 >>> 16).toUInt8 := by
    simp only [setWord, byte, get!_setByte, size_setByte, true_and]
    rw [if_neg (by omega), if_pos (by omega)]
  have h₃ : (m.setWord i v).byte (i + 3) = (v.toUInt32 >>> 24).toUInt8 := by
    simp only [setWord, byte, get!_setByte, size_setByte, true_and]
    rw [if_pos (by omega)]
  rw [getWord, h₀, h₁, h₂, h₃, word_of_bytes]
  rfl

/-- Words with the same bytes are the same. -/
theorem getWord_congr {m m' : Memory} {i : Nat}
    (h : ∀ j, i ≤ j → j < i + 4 → m'.byte j = m.byte j) : m'.getWord i = m.getWord i := by
  simp only [getWord]
  rw [h i (by omega) (by omega), h (i + 1) (by omega) (by omega),
    h (i + 2) (by omega) (by omega), h (i + 3) (by omega) (by omega)]

/-- The word at an address that is reckoned as an integer. -/
def word (m : Memory) (a : Int) : Word := m.getWord a.toNat

def store (m : Memory) (a : Int) (v : Word) : Memory := m.setWord a.toNat v

@[simp] theorem size_store (m : Memory) (a : Int) (v : Word) : (m.store a v).size = m.size :=
  size_setWord m a.toNat v

@[simp] theorem dataStart_store (m : Memory) (a : Int) (v : Word) :
    (m.store a v).dataStart = m.dataStart := rfl

theorem word_store_same (m : Memory) {a : Int} (v : Word) (h₀ : 0 ≤ a) (h : a + 4 ≤ m.size) :
    (m.store a v).word a = v :=
  getWord_setWord_same m v (by omega)

theorem word_store_of_disjoint (m : Memory) {a b : Int} (v : Word) (ha : 0 ≤ a) (hb : 0 ≤ b)
    (h : b + 4 ≤ a ∨ a + 4 ≤ b) : (m.store a v).word b = m.word b :=
  getWord_congr fun j h₁ h₂ => byte_setWord_of_outside m v (by omega)

theorem holds_ofInt (m : Memory) {a : Int} (h₀ : 0 ≤ a) (h₁ : a < 2147483648) :
    m.Holds (.ofInt a) ↔ m.dataStart ≤ a ∧ a + 4 ≤ m.size := by
  rw [Holds, Word.toInt_ofInt (by omega) h₁]
  rfl

theorem read_ofInt (m : Memory) {a : Int} (h₀ : 0 ≤ a) (h₁ : a < 2147483648)
    (hstart : m.dataStart ≤ a) (hstop : a + 4 ≤ m.size) :
    m.read (.ofInt a) = .ok (m.word a) := by
  rw [read, if_pos ((m.holds_ofInt h₀ h₁).mpr ⟨hstart, hstop⟩),
    Word.toInt_ofInt (by omega) h₁, word]

/-! ## Where two memories differ -/

structure Differs (changed : Int → Prop) (m m' : Memory) : Prop where
  size_eq : m'.size = m.size
  dataStart_eq : m'.dataStart = m.dataStart
  byte_eq : ∀ i : Nat, ¬ changed i → m'.byte i = m.byte i

def Block (a n : Int) (i : Int) : Prop := a ≤ i ∧ i < a + n

namespace Differs

theorem refl (changed : Int → Prop) (m : Memory) : Differs changed m m :=
  ⟨rfl, rfl, fun _ _ => rfl⟩

theorem trans {changed : Int → Prop} {m₁ m₂ m₃ : Memory} (h₁ : Differs changed m₁ m₂)
    (h₂ : Differs changed m₂ m₃) : Differs changed m₁ m₃ where
  size_eq := h₂.size_eq.trans h₁.size_eq
  dataStart_eq := h₂.dataStart_eq.trans h₁.dataStart_eq
  byte_eq i hi := (h₂.byte_eq i hi).trans (h₁.byte_eq i hi)

theorem mono {changed changed' : Int → Prop} {m m' : Memory} (h : Differs changed m m')
    (hsub : ∀ i, changed i → changed' i) : Differs changed' m m' where
  size_eq := h.size_eq
  dataStart_eq := h.dataStart_eq
  byte_eq i hi := h.byte_eq i fun hc => hi (hsub i hc)

theorem store (m : Memory) {a : Int} (v : Word) (h₀ : 0 ≤ a) :
    Differs (Block a 4) m (m.store a v) where
  size_eq := size_store m a v
  dataStart_eq := rfl
  byte_eq i hi := byte_setWord_of_outside m v (by simp only [Block] at hi; omega)

/-- A word none of whose bytes may have changed is the same. -/
theorem word_eq {changed : Int → Prop} {m m' : Memory} (h : Differs changed m m') {a : Int}
    (h₀ : 0 ≤ a) (ha : ∀ i, Block a 4 i → ¬ changed i) : m'.word a = m.word a :=
  getWord_congr fun j h₁ h₂ => h.byte_eq j (ha j (by simp only [Block]; omega))

/-- Whether and what an address reads is the same unless bytes of the word may have changed. -/
theorem read_eq {changed : Int → Prop} {m m' : Memory} (h : Differs changed m m') {a : Word}
    (ha : m.Holds a → ∀ i, Block a.toInt 4 i → ¬ changed i) : m'.read a = m.read a := by
  have hholds : m'.Holds a ↔ m.Holds a := by
    rw [Holds, Holds, h.size_eq, h.dataStart_eq]
  by_cases hold : m.Holds a
  · have h₀ : 0 ≤ a.toInt := le_trans (Int.natCast_nonneg _) hold.1
    rw [read, read, if_pos hold, if_pos (hholds.mpr hold)]
    exact congrArg Except.ok (h.word_eq h₀ (ha hold))
  · rw [read, read, if_neg hold, if_neg fun hnot => hold (hholds.mp hnot)]

end Differs

/-! ## Words in a row -/

def HasWords (m : Memory) : Int → List Word → Prop
  | _, [] => True
  | a, w :: ws => m.word a = w ∧ HasWords m (a + 4) ws

@[simp] theorem hasWords_nil (m : Memory) (a : Int) : m.HasWords a [] := trivial

@[simp] theorem hasWords_cons (m : Memory) (a : Int) (w : Word) (ws : List Word) :
    m.HasWords a (w :: ws) ↔ m.word a = w ∧ m.HasWords (a + 4) ws := Iff.rfl

theorem hasWords_append (m : Memory) (a : Int) (ws ws' : List Word) :
    m.HasWords a (ws ++ ws') ↔ m.HasWords a ws ∧ m.HasWords (a + 4 * ws.length) ws' := by
  induction ws generalizing a with
  | nil => simp
  | cons w ws ih =>
      have h : a + 4 + 4 * (ws.length : Int) = a + 4 * ((w :: ws).length : Int) := by
        rw [List.length_cons]
        push_cast
        ring
      rw [List.cons_append, hasWords_cons, hasWords_cons, ih, h, and_assoc]

theorem HasWords.of_differs {changed : Int → Prop} {m m' : Memory} (h : Differs changed m m')
    {a : Int} {ws : List Word} (h₀ : 0 ≤ a)
    (ha : ∀ i, Block a (4 * ws.length) i → ¬ changed i) (hws : m.HasWords a ws) :
    m'.HasWords a ws := by
  induction ws generalizing a with
  | nil => trivial
  | cons w ws ih =>
      simp only [List.length_cons, Nat.cast_add, Nat.cast_one] at ha
      refine ⟨?_, ih (by omega) (fun i hi => ha i ?_) hws.2⟩
      · rw [h.word_eq h₀ fun i hi => ha i (by simp only [Block] at *; omega)]
        exact hws.1
      · simp only [Block] at *
        omega

def storeAll (m : Memory) (a : Int) : List Word → Memory
  | [] => m
  | w :: ws => storeAll (m.store a w) (a + 4) ws

theorem storeAll_append (m : Memory) (a : Int) (ws ws' : List Word) :
    m.storeAll a (ws ++ ws') = (m.storeAll a ws).storeAll (a + 4 * ws.length) ws' := by
  induction ws generalizing m a with
  | nil => simp [storeAll]
  | cons w ws ih =>
      have h : a + 4 + 4 * (ws.length : Int) = a + 4 * ((w :: ws).length : Int) := by
        rw [List.length_cons]
        push_cast
        ring
      rw [List.cons_append, storeAll, ih, h, storeAll]

theorem differs_storeAll (m : Memory) {a : Int} (ws : List Word) (h₀ : 0 ≤ a) :
    Differs (Block a (4 * ws.length)) m (m.storeAll a ws) := by
  induction ws generalizing m a with
  | nil => exact Differs.refl _ m
  | cons w ws ih =>
      have h₁ : Differs (Block a (4 * (w :: ws).length)) m (m.store a w) :=
        (Differs.store m w h₀).mono fun i hi => by
          simp only [Block, List.length_cons] at *
          omega
      have h₂ : Differs (Block a (4 * (w :: ws).length)) (m.store a w)
          ((m.store a w).storeAll (a + 4) ws) :=
        (ih (m.store a w) (a := a + 4) (by omega)).mono fun i hi => by
          simp only [Block, List.length_cons] at *
          omega
      exact h₁.trans h₂

theorem hasWords_storeAll (m : Memory) {a : Int} (ws : List Word) (h₀ : 0 ≤ a)
    (h : a + 4 * ws.length ≤ m.size) : (m.storeAll a ws).HasWords a ws := by
  induction ws generalizing m a with
  | nil => trivial
  | cons w ws ih =>
      simp only [List.length_cons, Nat.cast_add, Nat.cast_one] at h
      refine ⟨?_, ih (m.store a w) (by omega) (by rw [size_store]; omega)⟩
      have hrest := differs_storeAll (m.store a w) (a := a + 4) ws (by omega)
      rw [storeAll, hrest.word_eq h₀ fun i hi => by simp only [Block] at *; omega]
      exact word_store_same m w h₀ (by omega)

/-- Writing words succeeds where all of them find a place. -/
theorem writeWords_ofInt (m : Memory) {a : Int} (ws : List Word) (h₀ : 0 ≤ a)
    (hstart : m.dataStart ≤ a) (hstop : a + 4 * ws.length ≤ m.size) (h₁ : m.size < 2147483648) :
    m.writeWords (.ofInt a) ws = (m.storeAll a ws, .ok ()) := by
  induction ws generalizing m a with
  | nil => rfl
  | cons w ws ih =>
      simp only [List.length_cons, Nat.cast_add, Nat.cast_one] at hstop
      have hlt : a < 2147483648 := by omega
      have hholds : m.Holds (.ofInt a) := (m.holds_ofInt h₀ hlt).mpr ⟨hstart, by omega⟩
      rw [writeWords, if_pos hholds, Word.toInt_ofInt (by omega) hlt, Word.after_one]
      exact ih (m.store a w) (by omega) (by rw [dataStart_store]; omega)
        (by rw [size_store]; omega) (by rw [size_store]; exact h₁)

end Memory

end NestedFun
