import Mathlib.Data.Nat.Bitwise
import Mathlib.Tactic.Common

/-!
# Byte memories

A memory maps addresses to bytes. A word is four bytes, the lowest one first.
-/

namespace Mos.Lib

abbrev Bytes := Nat → UInt8

namespace Bytes

def word (m : Bytes) (a : Nat) : Nat :=
  (m a).toNat + 256 * (m (a + 1)).toNat + 65536 * (m (a + 2)).toNat + 16777216 * (m (a + 3)).toNat

def setWord (m : Bytes) (a v : Nat) : Bytes := fun i =>
  if a ≤ i ∧ i < a + 4 then UInt8.ofNat (v / 256 ^ (i - a)) else m i

/-- The bytes of `l` from `a` on. -/
def setList (m : Bytes) (a : Nat) (l : List UInt8) : Bytes := fun i =>
  if a ≤ i ∧ i < a + l.length then l.getD (i - a) 0 else m i

/-- The `n` bytes of `m'` from `b` on are copied to `a`. -/
def copy (m : Bytes) (a : Nat) (m' : Bytes) (b n : Nat) : Bytes := fun i =>
  if a ≤ i ∧ i < a + n then m' (b + (i - a)) else m i

/-- The string at `a` is `l`. -/
def holds (m : Bytes) : Nat → List UInt8 → Bool
  | a, [] => m a == 0
  | a, c :: l => m a == c && m.holds (a + 1) l

theorem word_lt (m : Bytes) (a : Nat) : m.word a < 2 ^ 32 := by
  have h0 := (m a).toNat_lt
  have h1 := (m (a + 1)).toNat_lt
  have h2 := (m (a + 2)).toNat_lt
  have h3 := (m (a + 3)).toNat_lt
  unfold word
  omega

theorem word_congr {m m' : Bytes} {a : Nat} (h : ∀ i, a ≤ i → i < a + 4 → m i = m' i) :
    m.word a = m'.word a := by
  unfold word
  rw [h a (by omega) (by omega), h (a + 1) (by omega) (by omega), h (a + 2) (by omega) (by omega),
    h (a + 3) (by omega) (by omega)]

theorem word_zero {m : Bytes} {a : Nat} (h : ∀ i, a ≤ i → i < a + 4 → m i = 0) : m.word a = 0 := by
  unfold word
  rw [h a (by omega) (by omega), h (a + 1) (by omega) (by omega), h (a + 2) (by omega) (by omega),
    h (a + 3) (by omega) (by omega)]
  rfl

theorem setWord_of_ne {m : Bytes} {a v i : Nat} (h : i < a ∨ a + 4 ≤ i) : m.setWord a v i = m i := by
  unfold setWord
  rw [if_neg (by omega)]

theorem word_setWord_self (m : Bytes) (a v : Nat) : (m.setWord a v).word a = v % 2 ^ 32 := by
  have hb : ∀ k < 4, ((m.setWord a v) (a + k)).toNat = v / 256 ^ k % 256 := by
    intro k hk
    unfold setWord
    rw [if_pos (by omega), Nat.add_sub_cancel_left, UInt8.toNat_ofNat']
  have h0 := hb 0 (by omega)
  have h1 := hb 1 (by omega)
  have h2 := hb 2 (by omega)
  have h3 := hb 3 (by omega)
  unfold word
  rw [Nat.add_zero] at h0
  rw [h0, h1, h2, h3]
  omega

theorem word_setWord_of_ne {m : Bytes} {a b : Nat} (v : Nat) (h : b + 4 ≤ a ∨ a + 4 ≤ b) :
    (m.setWord a v).word b = m.word b :=
  word_congr fun i h1 h2 => setWord_of_ne (by omega)

theorem word_setWord {m : Bytes} {a b : Nat} (v : Nat) (ha : a % 4 = 0) (hb : b % 4 = 0) :
    (m.setWord a v).word b = if b = a then v % 2 ^ 32 else m.word b := by
  split
  · rename_i h
    rw [h, word_setWord_self]
  · exact word_setWord_of_ne v (by omega)

theorem setWord_setWord (m : Bytes) (a v w : Nat) : (m.setWord a v).setWord a w = m.setWord a w := by
  funext i
  unfold setWord
  split <;> rfl

/-- A word is what its bytes are. -/
theorem ofNat_word (m : Bytes) (a : Nat) {k : Nat} (hk : k < 4) :
    UInt8.ofNat (m.word a / 256 ^ k) = m (a + k) := by
  have h0 := (m a).toNat_lt
  have h1 := (m (a + 1)).toNat_lt
  have h2 := (m (a + 2)).toNat_lt
  have h3 := (m (a + 3)).toNat_lt
  apply UInt8.toNat_inj.mp
  rw [UInt8.toNat_ofNat']
  unfold word
  rcases k with _ | _ | _ | _ | k
  · rw [Nat.pow_zero, Nat.div_one, show a + 0 = a from rfl]
    omega
  · rw [show 256 ^ (0 + 1) = 256 from rfl, show a + (0 + 1) = a + 1 from rfl]
    omega
  · rw [show 256 ^ (0 + 1 + 1) = 65536 from rfl, show a + (0 + 1 + 1) = a + 2 from rfl]
    omega
  · rw [show 256 ^ (0 + 1 + 1 + 1) = 16777216 from rfl, show a + (0 + 1 + 1 + 1) = a + 3 from rfl]
    omega
  · omega

theorem setWord_word_eq_copy (m m' : Bytes) (a b : Nat) :
    m.setWord a (m'.word b) = m.copy a m' b 4 := by
  funext i
  unfold setWord copy
  split
  · exact ofNat_word m' b (by omega)
  · rfl

theorem copy_self (m : Bytes) (a n : Nat) : m.copy a m a n = m := by
  funext i
  unfold copy
  split
  · exact congrArg m (by omega)
  · rfl

theorem setWord_word (m : Bytes) (a : Nat) : m.setWord a (m.word a) = m := by
  rw [setWord_word_eq_copy, copy_self]

theorem copy_zero (m m' : Bytes) (a b : Nat) : m.copy a m' b 0 = m := by
  funext i
  unfold copy
  rw [if_neg (by omega)]

theorem copy_append (m m' : Bytes) (a b j n : Nat) :
    (m.copy a m' b j).copy (a + j) m' (b + j) n = m.copy a m' b (j + n) := by
  funext i
  unfold copy
  by_cases h : a + j ≤ i ∧ i < a + j + n
  · rw [if_pos h, if_pos (by omega), show b + j + (i - (a + j)) = b + (i - a) by omega]
  · rw [if_neg h]
    by_cases hj : a ≤ i ∧ i < a + j
    · rw [if_pos hj, if_pos (by omega)]
    · rw [if_neg hj, if_neg (by omega)]

theorem copy_of_mem {m m' : Bytes} {a b n i : Nat} (h : i < n) : m.copy a m' b n (a + i) = m' (b + i) := by
  unfold copy
  rw [if_pos (by omega), Nat.add_sub_cancel_left]

theorem copy_of_ne {m m' : Bytes} {a b n i : Nat} (h : i < a ∨ a + n ≤ i) :
    m.copy a m' b n i = m i := by
  unfold copy
  rw [if_neg (by omega)]

theorem setList_of_ne {m : Bytes} {a i : Nat} {l : List UInt8} (h : i < a ∨ a + l.length ≤ i) :
    m.setList a l i = m i := by
  unfold setList
  rw [if_neg (by omega)]

theorem word_setList_of_ne {m : Bytes} {a b : Nat} {l : List UInt8}
    (h : b + 4 ≤ a ∨ a + l.length ≤ b) : (m.setList a l).word b = m.word b :=
  word_congr fun i h1 h2 => setList_of_ne (by omega)

theorem holds_congr {m m' : Bytes} {a : Nat} {l : List UInt8}
    (h : ∀ i, a ≤ i → i ≤ a + l.length → m i = m' i) : m.holds a l = m'.holds a l := by
  induction l generalizing a with
  | nil =>
    unfold holds
    rw [h a (by omega) (by simp)]
  | cons c l ih =>
    unfold holds
    rw [List.length_cons] at h
    rw [h a (by omega) (by omega), ih fun i h1 h2 => h i (by omega) (by omega)]

theorem holds_iff {m : Bytes} {a : Nat} {l : List UInt8} :
    m.holds a l = true ↔ (∀ i (h : i < l.length), m (a + i) = l[i]) ∧ m (a + l.length) = 0 := by
  induction l generalizing a with
  | nil => simp [holds]
  | cons c l ih =>
    have hadd : ∀ i, a + 1 + i = a + (i + 1) := fun i => by omega
    unfold holds
    rw [Bool.and_eq_true, beq_iff_eq, ih]
    simp only [hadd, List.length_cons]
    constructor
    · rintro ⟨h0, h1, h2⟩
      refine ⟨fun i hi => ?_, h2⟩
      rcases i with _ | i
      · exact h0
      · exact h1 i (by omega)
    · rintro ⟨h1, h2⟩
      exact ⟨h1 0 (by omega), fun i hi => h1 (i + 1) (by omega), h2⟩

theorem holds_setList (m : Bytes) (a : Nat) (l : List UInt8) :
    (m.setList a (l ++ [0])).holds a l = true := by
  have hlen : (l ++ [0]).length = l.length + 1 := by rw [List.length_append, List.length_singleton]
  refine holds_iff.mpr ⟨fun i hi => ?_, ?_⟩
  · unfold setList
    rw [if_pos (by omega), Nat.add_sub_cancel_left, List.getD_append _ _ _ _ hi,
      List.getD_eq_getElem _ _ hi]
  · unfold setList
    rw [if_pos (by omega), Nat.add_sub_cancel_left, List.getD_append_right _ _ _ _ (le_refl _),
      Nat.sub_self]
    rfl

end Bytes

end Mos.Lib
