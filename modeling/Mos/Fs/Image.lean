import Mos.Fs.File
import Mathlib.Data.Nat.Bitwise

/-!
# The tree of files in the block cache

The contents of all blocks are one memory, addressed as the cache is. Every block that a
file holds has one owner: the file and what the block is for. The depth of a directory in
the tree rises from a directory to its files.
-/

namespace Mos.Fs

open Lib (Bytes)

/-! ## Addresses -/

theorem diskAddr_eq (b : Nat) : diskAddr b = 0x10000000 + b * 4096 := rfl

theorem fileAt_eq (blk j : Nat) : fileAt blk j = blk + 256 * j := rfl

theorem blockOf_eq (a : Nat) : blockOf a = (a - 0x10000000) / 4096 := rfl

theorem blockOf_add (b : Nat) {k : Nat} (h : k < 4096) : blockOf (diskAddr b + k) = b := by
  rw [blockOf_eq, diskAddr_eq]
  omega

/-! ## The bitmap -/

/-- The word of the bitmap that holds the bit of the block. -/
def bitAt (b : Nat) : Nat := diskAddr 2 + 4 * (b / 32)

def isFree (c : Bytes) (b : Nat) : Bool := (c.word (bitAt b)).testBit (b % 32)

/-- The bit of the block is set. -/
def release (c : Bytes) (b : Nat) : Bytes :=
  c.setWord (bitAt b) (c.word (bitAt b) ||| 1 <<< (b % 32))

/-- The bit of the block is cleared. -/
def claim (c : Bytes) (b : Nat) : Bytes :=
  c.setWord (bitAt b) (c.word (bitAt b) &&& (2 ^ 32 - 1 - 1 <<< (b % 32)))

/-- The blocks behind the super block and the bitmap. -/
def InRange (n b : Nat) : Prop := 3 + n / BLOCK_SIZE_BIT ≤ b ∧ b < n

theorem InRange.three_le {n b : Nat} (h : InRange n b) : 3 ≤ b :=
  Nat.le_trans (Nat.le_add_right ..) h.1

theorem bitAt_mod (b : Nat) : bitAt b % 4 = 0 := by
  unfold bitAt
  rw [diskAddr_eq]
  omega

theorem bitAt_lt {n b x : Nat} (hb : b < n) (hx : InRange n x) :
    diskAddr 2 ≤ bitAt b ∧ bitAt b + 4 ≤ diskAddr x := by
  obtain ⟨hx, -⟩ := hx
  have : BLOCK_SIZE_BIT = 32768 := rfl
  unfold bitAt
  rw [this] at hx
  rw [diskAddr_eq, diskAddr_eq]
  omega

theorem or_lt {w : Nat} (h : w < 2 ^ 32) (k : Nat) (hk : k < 32) : w ||| 1 <<< k < 2 ^ 32 := by
  refine Nat.or_lt_two_pow h ?_
  rw [Nat.one_shiftLeft]
  exact Nat.pow_lt_pow_right (by omega) hk

theorem testBit_or_one (w k i : Nat) : (w ||| 1 <<< k).testBit i = (w.testBit i || decide (k = i)) := by
  rw [Nat.testBit_or, Nat.one_shiftLeft, Nat.testBit_two_pow]

theorem testBit_and_not {w k i : Nat} (hk : k < 32) (hi : i < 32) :
    (w &&& (2 ^ 32 - 1 - 1 <<< k)).testBit i = (w.testBit i && !decide (k = i)) := by
  have hlt : 1 <<< k < 2 ^ 32 := by
    rw [Nat.one_shiftLeft]
    exact Nat.pow_lt_pow_right (by omega) hk
  have heq : 2 ^ 32 - 1 - 1 <<< k = 2 ^ 32 - (1 <<< k + 1) := by omega
  rw [Nat.testBit_and, heq, Nat.testBit_two_pow_sub_succ hlt, Nat.one_shiftLeft,
    Nat.testBit_two_pow]
  simp [hi]

theorem and_lt {w : Nat} (h : w < 2 ^ 32) (x : Nat) : w &&& x < 2 ^ 32 :=
  Nat.lt_of_le_of_lt Nat.and_le_left h

theorem same_word {b x : Nat} (h : bitAt b = bitAt x) : b / 32 = x / 32 := by
  unfold bitAt at h
  omega

theorem isFree_release (c : Bytes) (b x : Nat) :
    isFree (release c b) x = (isFree c x || decide (b = x)) := by
  unfold isFree release
  rw [Lib.Bytes.word_setWord _ (bitAt_mod b) (bitAt_mod x)]
  split
  · rename_i h
    have hdiv := same_word h
    rw [Nat.mod_eq_of_lt (or_lt (Lib.Bytes.word_lt c _) _ (Nat.mod_lt _ (by omega))),
      testBit_or_one, h]
    congr 1
    rw [decide_eq_decide]
    omega
  · rename_i h
    have : b ≠ x := fun hbx => h (by rw [hbx])
    simp [this]

theorem isFree_claim (c : Bytes) (b x : Nat) :
    isFree (claim c b) x = (isFree c x && !decide (b = x)) := by
  unfold isFree claim
  rw [Lib.Bytes.word_setWord _ (bitAt_mod b) (bitAt_mod x)]
  split
  · rename_i h
    have hdiv := same_word h
    rw [Nat.mod_eq_of_lt (and_lt (Lib.Bytes.word_lt c _) _),
      testBit_and_not (Nat.mod_lt _ (by omega)) (Nat.mod_lt _ (by omega)), h]
    congr 2
    rw [decide_eq_decide]
    omega
  · rename_i h
    have : b ≠ x := fun hbx => h (by rw [hbx])
    simp [this]

/-- A block that was free is free again. -/
theorem release_claim {c : Bytes} {b : Nat} (h : isFree c b = true) : release (claim c b) b = c := by
  have hlt := Lib.Bytes.word_lt c (bitAt b)
  have hk : b % 32 < 32 := Nat.mod_lt _ (by omega)
  have hword : (claim c b).word (bitAt b) =
      c.word (bitAt b) &&& (2 ^ 32 - 1 - 1 <<< (b % 32)) := by
    unfold claim
    rw [Lib.Bytes.word_setWord_self, Nat.mod_eq_of_lt (and_lt hlt _)]
  have hback : (claim c b).word (bitAt b) ||| 1 <<< (b % 32) = c.word (bitAt b) := by
    rw [hword]
    refine Nat.eq_of_testBit_eq fun i => ?_
    by_cases hi : i < 32
    · rw [testBit_or_one, testBit_and_not hk hi]
      by_cases hb : b % 32 = i
      · subst hb
        unfold isFree at h
        simp [h]
      · simp [hb]
    · have hpow : 2 ^ 32 ≤ 2 ^ i := Nat.pow_le_pow_right (by omega) (by omega)
      rw [Nat.testBit_lt_two_pow (Nat.lt_of_lt_of_le (or_lt (and_lt hlt _) _ hk) hpow),
        Nat.testBit_lt_two_pow (Nat.lt_of_lt_of_le hlt hpow)]
  unfold release
  rw [hback]
  unfold claim
  rw [Lib.Bytes.setWord_setWord, Lib.Bytes.setWord_word]

/-! ## Blocks of files -/

/-- Where the number of the block is kept. -/
def ptrAt (c : Bytes) (f : Nat) : Use → Nat
  | .index => indirectAt f
  | .block i => if i < NDIRECT then directAt f i else diskAddr (c.word (indirectAt f)) + 4 * i

/-- The file can hold a block for that use. -/
def HasUse (c : Bytes) (f : Nat) : Use → Prop
  | .index => True
  | .block i => i < NDIRECT ∨ i < NINDIRECT ∧ c.word (indirectAt f) ≠ 0

instance (c : Bytes) (f : Nat) : (u : Use) → Decidable (HasUse c f u)
  | .index => isTrue trivial
  | .block i => inferInstanceAs (Decidable (i < NDIRECT ∨ i < NINDIRECT ∧ c.word (indirectAt f) ≠ 0))

/-- The block that the file holds for that use, or 0. -/
def heldBlock (c : Bytes) (f : Nat) (u : Use) : Nat :=
  if HasUse c f u then c.word (ptrAt c f u) else 0

theorem ptrAt_direct (c : Bytes) (f : Nat) {i : Nat} (h : i < 10) :
    ptrAt c f (.block i) = f + 136 + 4 * i := if_pos h

theorem ptrAt_entry (c : Bytes) (f : Nat) {i : Nat} (h : ¬ i < 10) :
    ptrAt c f (.block i) = diskAddr (c.word (indirectAt f)) + 4 * i := if_neg h

theorem hasUse_block {c : Bytes} {f i : Nat} :
    HasUse c f (.block i) ↔ i < 10 ∨ i < 1024 ∧ c.word (indirectAt f) ≠ 0 := Iff.rfl

/-- The root is a file, and so is every `struct File` in a block of a directory. So is what is in
`Z`: files that are still in use when their directory may have lost its block. -/
inductive IsFile (c : Bytes) (Z : Set Nat) : Nat → Prop where
  | root : IsFile c Z (diskAddr 1 + 8)
  | extra {z : Nat} (hz : z ∈ Z) : IsFile c Z z
  | slot {d i j : Nat} (hd : IsFile c Z d) (ht : c.word (typeAt d) = FTYPE_DIR)
      (hb : heldBlock c d (.block i) ≠ 0) (hj : j < FILE2BLK) :
      IsFile c Z (fileAt (diskAddr (heldBlock c d (.block i))) j)

/-- Where a file can be: at the root or in a block that is no index block. -/
def Seat (n : Nat) (own : Nat → Option (Nat × Use)) (f : Nat) : Prop :=
  f = diskAddr 1 + 8 ∨ ∃ b j, InRange n b ∧ j < FILE2BLK ∧ (∀ g, own b ≠ some (g, .index)) ∧
    f = fileAt (diskAddr b) j

/-- `own` gives the owner of a block and `dep` the depth of the files in a block. -/
structure Owned (n : Nat) (own : Nat → Option (Nat × Use)) (dep : Nat → Nat) (Z : Set Nat)
    (c : Bytes) : Prop where
  owner : ∀ {f u}, IsFile c Z f → heldBlock c f u ≠ 0 → own (heldBlock c f u) = some (f, u)
  range : ∀ {f u}, IsFile c Z f → heldBlock c f u ≠ 0 → InRange n (heldBlock c f u)
  used : ∀ {f u}, IsFile c Z f → heldBlock c f u ≠ 0 → isFree c (heldBlock c f u) = false
  deeper : ∀ {f i}, IsFile c Z f → c.word (typeAt f) = FTYPE_DIR → heldBlock c f (.block i) ≠ 0 →
    dep (heldBlock c f (.block i)) = dep (blockOf f) + 1
  unused : ∀ {f}, IsFile c Z f → c.word (indirectAt f) ≠ 0 → ∀ i < NDIRECT,
    c.word (diskAddr (c.word (indirectAt f)) + 4 * i) = 0
  extras : ∀ z ∈ Z, Seat n own z

/-! ## Where files and pointers are -/

section

variable {n : Nat} {own : Nat → Option (Nat × Use)} {dep : Nat → Nat} {Z : Set Nat} {c : Bytes}

theorem Owned.seat (h : Owned n own dep Z c) {f : Nat} (hf : IsFile c Z f) : Seat n own f := by
  cases hf with
  | root => exact Or.inl rfl
  | extra hz => exact h.extras _ hz
  | slot hd ht hb hj =>
    exact Or.inr ⟨_, _, h.range hd hb, hj, fun g hg => by simp [h.owner hd hb] at hg, rfl⟩

theorem Seat.bounds {f : Nat} (h : Seat n own f) :
    diskAddr 1 + 8 ≤ f ∧ f % 4 = 0 ∧ (f < diskAddr 1 + 9 ∨ diskAddr 3 ≤ f) := by
  rcases h with rfl | ⟨b, j, hb, hj, -, rfl⟩
  · exact ⟨Nat.le_refl _, rfl, Or.inl (Nat.lt_succ_self _)⟩
  · have := hb.three_le
    rw [fileAt_eq, diskAddr_eq, diskAddr_eq, diskAddr_eq]
    omega

theorem Seat.apart {f g : Nat} (hf : Seat n own f) (hg : Seat n own g) (hne : f ≠ g) :
    f + 256 ≤ g ∨ g + 256 ≤ f := by
  have h16 : FILE2BLK = 16 := rfl
  rcases hf with rfl | ⟨b, j, hb, hj, -, rfl⟩ <;>
  rcases hg with rfl | ⟨b', j', hb', hj', -, rfl⟩
  · exact absurd rfl hne
  · have := hb'.three_le
    simp only [fileAt_eq, diskAddr_eq]
    omega
  · have := hb.three_le
    simp only [fileAt_eq, diskAddr_eq]
    omega
  · rw [h16] at hj hj'
    simp only [fileAt_eq, diskAddr_eq] at hne ⊢
    omega

theorem Seat.page {f : Nat} (h : Seat n own f) {k : Nat} (hk : k < 256) :
    blockOf (f + k) = blockOf f := by
  rcases h with rfl | ⟨b, j, -, hj, -, rfl⟩
  · rw [blockOf_add 1 (by omega), Nat.add_assoc, blockOf_add 1 (by omega)]
  · have h16 : FILE2BLK = 16 := rfl
    rw [h16] at hj
    rw [fileAt_eq, Nat.add_assoc, blockOf_add b (by omega), blockOf_add b (by omega)]

theorem Seat.off_index {f g b : Nat} (hf : Seat n own f) (hb : own b = some (g, .index))
    (hr : InRange n b) : f + 256 ≤ diskAddr b ∨ diskAddr b + 4096 ≤ f := by
  rcases hf with rfl | ⟨b', j, -, hj, hown, rfl⟩
  · have := hr.three_le
    simp only [diskAddr_eq]
    omega
  · have hne : b' ≠ b := by
      rintro rfl
      exact hown g hb
    have h16 : FILE2BLK = 16 := rfl
    rw [h16] at hj
    simp only [fileAt_eq, diskAddr_eq]
    omega

theorem heldBlock_index (c : Bytes) (f : Nat) :
    heldBlock c f .index = c.word (indirectAt f) := if_pos trivial

theorem Owned.index (h : Owned n own dep Z c) {f : Nat} (hf : IsFile c Z f)
    (hne : c.word (indirectAt f) ≠ 0) :
    own (c.word (indirectAt f)) = some (f, .index) ∧ InRange n (c.word (indirectAt f)) := by
  have hb : heldBlock c f .index ≠ 0 := by rwa [heldBlock_index]
  have h1 := h.owner hf hb
  have h2 := h.range hf hb
  rw [heldBlock_index] at h1 h2
  exact ⟨h1, h2⟩

/-- A pointer lies in its file or in the index block of its file. -/
theorem ptrAt_cases {f : Nat} {u : Use} (hu : HasUse c f u) :
    (f + 136 ≤ ptrAt c f u ∧ ptrAt c f u + 4 ≤ f + 180) ∨
      c.word (indirectAt f) ≠ 0 ∧ diskAddr (c.word (indirectAt f)) + 40 ≤ ptrAt c f u ∧
        ptrAt c f u + 4 ≤ diskAddr (c.word (indirectAt f)) + 4096 := by
  cases u with
  | index =>
    left
    simp only [ptrAt, indirectAt]
    omega
  | block i =>
    by_cases hi : i < 10
    · left
      rw [ptrAt_direct c f hi]
      omega
    · right
      obtain ⟨h1, h2⟩ := (hasUse_block.mp hu).resolve_left hi
      rw [ptrAt_entry c f hi]
      exact ⟨h2, by omega, by omega⟩

theorem ptrAt_index (c : Bytes) (f : Nat) : ptrAt c f .index = f + 176 := rfl

theorem ptrAt_mod {f : Nat} (hf : f % 4 = 0) (u : Use) : ptrAt c f u % 4 = 0 := by
  rcases u with _ | i
  · rw [ptrAt_index]
    omega
  · by_cases hi : i < 10
    · rw [ptrAt_direct c f hi]
      omega
    · rw [ptrAt_entry c f hi, diskAddr_eq]
      omega

theorem Owned.ptr_off_file (h : Owned n own dep Z c) {f g : Nat} (hf : IsFile c Z f) (hg : IsFile c Z g)
    {v : Use} (hv : HasUse c g v) :
    ptrAt c g v + 4 ≤ f ∨ f + 256 ≤ ptrAt c g v ∨
      f = g ∧ f + 136 ≤ ptrAt c g v ∧ ptrAt c g v + 4 ≤ f + 180 := by
  rcases ptrAt_cases hv with ⟨h1, h2⟩ | ⟨hne, h1, h2⟩
  · by_cases hfg : f = g
    · subst hfg
      exact Or.inr (Or.inr ⟨rfl, h1, h2⟩)
    · have := (h.seat hf).apart (h.seat hg) hfg
      omega
  · obtain ⟨hown, hr⟩ := h.index hg hne
    have := (h.seat hf).off_index hown hr
    omega

/-- The pointers of one file are apart. -/
theorem Owned.ptr_inj (h : Owned n own dep Z c) {f : Nat} (hf : IsFile c Z f) {u v : Use}
    (hu : HasUse c f u) (hv : HasUse c f v) (heq : ptrAt c f u = ptrAt c f v) : u = v := by
  have hpage : ∀ {i}, HasUse c f (.block i) → ¬ i < 10 →
      f + 256 ≤ ptrAt c f (.block i) ∨ ptrAt c f (.block i) + 4 ≤ f := by
    intro i hi hlt
    obtain ⟨hi, hne⟩ := (hasUse_block.mp hi).resolve_left hlt
    obtain ⟨hown, hr⟩ := h.index hf hne
    have hoff := (h.seat hf).off_index hown hr
    rw [ptrAt_entry c f hlt]
    omega
  rcases u with _ | i <;> rcases v with _ | j
  · rfl
  · rw [ptrAt_index] at heq
    by_cases hj : j < 10
    · rw [ptrAt_direct c f hj] at heq
      omega
    · have := hpage hv hj
      omega
  · rw [ptrAt_index] at heq
    by_cases hi : i < 10
    · rw [ptrAt_direct c f hi] at heq
      omega
    · have := hpage hu hi
      omega
  · by_cases hi : i < 10 <;> by_cases hj : j < 10
    · rw [ptrAt_direct c f hi, ptrAt_direct c f hj] at heq
      congr 1
      omega
    · have := hpage hv hj
      rw [ptrAt_direct c f hi] at heq
      omega
    · have := hpage hu hi
      rw [ptrAt_direct c f hj] at heq
      omega
    · rw [ptrAt_entry c f hi, ptrAt_entry c f hj] at heq
      congr 1
      omega

theorem Owned.ptr_ne (h : Owned n own dep Z c) {f g : Nat} (hf : IsFile c Z f) (hg : IsFile c Z g)
    {u v : Use} (hu : HasUse c f u) (hv : HasUse c g v) (hne : (f, u) ≠ (g, v)) :
    ptrAt c f u ≠ ptrAt c g v := by
  intro heq
  by_cases hfg : f = g
  · subst hfg
    exact hne (by rw [h.ptr_inj hf hu hv heq])
  · have h1 := h.ptr_off_file hf hg hv
    have h2 := h.ptr_off_file hg hf hu
    rcases ptrAt_cases hu with h3 | ⟨hnf, h3, h4⟩
    · omega
    rcases ptrAt_cases hv with h5 | ⟨hng, h5, h6⟩
    · omega
    -- The index blocks of two files are two blocks.
    have hblk : c.word (indirectAt f) ≠ c.word (indirectAt g) := by
      intro hw
      have hown := (h.index hf hnf).1
      rw [hw, (h.index hg hng).1] at hown
      exact hfg (Prod.mk.inj (Option.some.inj hown)).1.symm
    rw [diskAddr_eq] at h3 h4 h5 h6
    omega

/-! ## What an update keeps -/

theorem heldBlock_congr {c c' : Bytes} {f : Nat} {u : Use}
    (hi : c'.word (indirectAt f) = c.word (indirectAt f))
    (hp : HasUse c f u → c'.word (ptrAt c f u) = c.word (ptrAt c f u)) :
    heldBlock c' f u = heldBlock c f u := by
  have hptr : ptrAt c' f u = ptrAt c f u := by
    rcases u with _ | i
    · rfl
    · simp only [ptrAt, hi]
  have hhas : HasUse c' f u ↔ HasUse c f u := by
    rcases u with _ | i
    · exact Iff.rfl
    · rw [hasUse_block, hasUse_block, hi]
  unfold heldBlock
  by_cases hu : HasUse c f u
  · rw [if_pos hu, if_pos (hhas.mpr hu), hptr, hp hu]
  · rw [if_neg hu, if_neg (fun h => hu (hhas.mp h))]

/-- An update after which every file holds at most the blocks it held, and no more files are
directories that hold blocks. -/
structure Shrinks (Z : Set Nat) (c c' : Bytes) : Prop where
  types : ∀ {f}, IsFile c Z f → c'.word (typeAt f) = FTYPE_DIR →
    c.word (typeAt f) = FTYPE_DIR ∨ ∀ i, heldBlock c' f (.block i) = 0
  held : ∀ {f} u, IsFile c Z f → heldBlock c' f u = 0 ∨ heldBlock c' f u = heldBlock c f u
  used : ∀ {f} u, IsFile c Z f → heldBlock c' f u ≠ 0 → isFree c (heldBlock c f u) = false →
    isFree c' (heldBlock c f u) = false
  unused : ∀ {f}, IsFile c Z f → c'.word (indirectAt f) ≠ 0 → ∀ i < NDIRECT,
    c'.word (diskAddr (c.word (indirectAt f)) + 4 * i) =
      c.word (diskAddr (c.word (indirectAt f)) + 4 * i)

theorem Shrinks.held_eq {c' : Bytes} (h : Shrinks Z c c') {f : Nat} {u : Use} (hf : IsFile c Z f)
    (hne : heldBlock c' f u ≠ 0) : heldBlock c' f u = heldBlock c f u :=
  (h.held u hf).resolve_left hne

theorem Shrinks.isFile {c' : Bytes} (h : Shrinks Z c c') {f : Nat} (hf : IsFile c' Z f) :
    IsFile c Z f := by
  induction hf with
  | root => exact .root
  | extra hz => exact .extra hz
  | slot _ ht hb hj ih =>
    have heq := h.held_eq ih hb
    rw [heq]
    exact .slot ih ((h.types ih ht).resolve_right fun hz => hb (hz _)) (heq ▸ hb) hj

theorem Shrinks.owned {c' : Bytes} (h : Shrinks Z c c') (ho : Owned n own dep Z c) :
    Owned n own dep Z c' where
  owner := by
    intro f u hf hb
    have heq := h.held_eq (h.isFile hf) hb
    rw [heq]
    exact ho.owner (h.isFile hf) (heq ▸ hb)
  range := by
    intro f u hf hb
    have heq := h.held_eq (h.isFile hf) hb
    rw [heq]
    exact ho.range (h.isFile hf) (heq ▸ hb)
  used := by
    intro f u hf hb
    have heq := h.held_eq (h.isFile hf) hb
    rw [heq]
    exact h.used u (h.isFile hf) hb (ho.used (h.isFile hf) (heq ▸ hb))
  deeper := by
    intro f i hf ht hb
    have heq := h.held_eq (h.isFile hf) hb
    rw [heq]
    exact ho.deeper (h.isFile hf) ((h.types (h.isFile hf) ht).resolve_right fun hz => hb (hz _))
      (heq ▸ hb)
  unused := by
    intro f hf hb i hi
    have hb' : heldBlock c' f .index ≠ 0 := by rwa [heldBlock_index]
    have heq := h.held_eq (h.isFile hf) hb'
    rw [heldBlock_index, heldBlock_index] at heq
    rw [heq, h.unused (h.isFile hf) hb i hi]
    exact ho.unused (h.isFile hf) (heq ▸ hb) i hi
  extras := ho.extras

/-- An update that leaves types and held blocks as they are. -/
structure Alike (Z : Set Nat) (c c' : Bytes) : Prop where
  types : ∀ {f}, IsFile c Z f → c'.word (typeAt f) = c.word (typeAt f)
  held : ∀ {f} u, IsFile c Z f → heldBlock c' f u = heldBlock c f u
  used : ∀ {f} u, IsFile c Z f → heldBlock c f u ≠ 0 → isFree c (heldBlock c f u) = false →
    isFree c' (heldBlock c f u) = false
  unused : ∀ {f}, IsFile c Z f → c.word (indirectAt f) ≠ 0 → ∀ i < NDIRECT,
    c'.word (diskAddr (c.word (indirectAt f)) + 4 * i) =
      c.word (diskAddr (c.word (indirectAt f)) + 4 * i)

theorem Alike.shrinks {c' : Bytes} (h : Alike Z c c') : Shrinks Z c c' where
  types := fun hf ht => Or.inl ((h.types hf).symm.trans ht)
  held := fun u hf => Or.inr (h.held u hf)
  used := fun u hf hb => h.used u hf (h.held u hf ▸ hb)
  unused := by
    intro f hf hb
    have := h.held .index hf
    rw [heldBlock_index, heldBlock_index] at this
    exact h.unused hf (this ▸ hb)

theorem blockOf_fileAt (b : Nat) {j : Nat} (h : j < FILE2BLK) :
    blockOf (fileAt (diskAddr b) j) = b := by
  have h16 : FILE2BLK = 16 := rfl
  rw [fileAt_eq]
  exact blockOf_add b (by omega)

theorem Owned.isFile_keep (h : Owned n own dep Z c) {c' : Bytes} {k : Nat}
    (hk : ∀ d, IsFile c Z d → dep (blockOf d) < k → c'.word (typeAt d) = c.word (typeAt d) ∧
      ∀ i, heldBlock c' d (.block i) = heldBlock c d (.block i))
    {f : Nat} (hf : IsFile c Z f) (hd : dep (blockOf f) ≤ k) : IsFile c' Z f := by
  induction hf with
  | root => exact .root
  | extra hz => exact .extra hz
  | slot hd' ht hb hj ih =>
    rw [blockOf_fileAt _ hj, h.deeper hd' ht hb] at hd
    obtain ⟨htype, hheld⟩ := hk _ hd' (by omega)
    rw [← hheld]
    exact .slot (ih (by omega)) (htype.trans ht) (by rwa [hheld]) hj

theorem Alike.isFile {c' : Bytes} (h : Alike Z c c') {f : Nat} (hf : IsFile c Z f) : IsFile c' Z f := by
  induction hf with
  | root => exact .root
  | extra hz => exact .extra hz
  | slot hd ht hb hj ih =>
    rw [← h.held _ hd]
    exact .slot ih ((h.types hd).trans ht) (by rwa [h.held _ hd]) hj

theorem Seat.off_bitmap {f b : Nat} (h : Seat n own f) (hb : b < n) :
    bitAt b + 4 ≤ f ∨ f + 256 ≤ bitAt b := by
  rcases h with rfl | ⟨b', j, hr, hj, -, rfl⟩
  · right
    unfold bitAt
    rw [diskAddr_eq, diskAddr_eq]
    omega
  · have := (bitAt_lt hb hr).2
    rw [fileAt_eq]
    omega

theorem Owned.ptr_off_bitmap (h : Owned n own dep Z c) {g b : Nat} {v : Use} (hg : IsFile c Z g)
    (hv : HasUse c g v) (hb : b < n) : bitAt b + 4 ≤ ptrAt c g v ∨ ptrAt c g v + 4 ≤ bitAt b := by
  have hoff := (h.seat hg).off_bitmap hb
  rcases ptrAt_cases hv with h1 | ⟨hne, h1, h2⟩
  · omega
  · have := (bitAt_lt hb (h.index hg hne).2).2
    omega

/-- An update of a `struct File` that does not reach its type and its pointers. -/
theorem Owned.alike_of_fields (h : Owned n own dep Z c) {c' : Bytes} {f : Nat} (hf : IsFile c Z f)
    (hc : ∀ a, c' a ≠ c a → f ≤ a ∧ a < f + 132 ∨ f + 180 ≤ a ∧ a < f + 256) : Alike Z c c' := by
  have hsame : ∀ x, (∀ a, x ≤ a → a < x + 4 → ¬ (f ≤ a ∧ a < f + 132 ∨ f + 180 ≤ a ∧ a < f + 256)) →
      c'.word x = c.word x := by
    intro x hx
    refine Lib.Bytes.word_congr fun a h1 h2 => ?_
    by_contra hne
    exact hx a h1 h2 (hc a hne)
  have htype : ∀ {g}, IsFile c Z g → ∀ k, k + 4 ≤ 180 → 132 ≤ k → c'.word (g + k) = c.word (g + k) := by
    intro g hg k hk1 hk2
    refine hsame _ fun a h1 h2 => ?_
    by_cases hfg : f = g
    · omega
    · have := (h.seat hf).apart (h.seat hg) hfg
      omega
  have hentry : ∀ {g}, IsFile c Z g → c.word (indirectAt g) ≠ 0 → ∀ i < 1024,
      c'.word (diskAddr (c.word (indirectAt g)) + 4 * i) =
        c.word (diskAddr (c.word (indirectAt g)) + 4 * i) := by
    intro g hg hne i hi
    obtain ⟨hown, hr⟩ := h.index hg hne
    have := (h.seat hf).off_index hown hr
    exact hsame _ fun a h1 h2 => by omega
  refine ⟨fun hg => htype hg 132 (by omega) (by omega), fun {g} u hg => ?_, fun {g} u hg hb hu => ?_,
    fun hg hne i hi => hentry hg hne i (Nat.lt_trans hi (by decide))⟩
  · refine heldBlock_congr (htype hg 176 (by omega) (by omega)) fun hu => ?_
    rcases u with _ | i
    · exact htype hg 176 (by omega) (by omega)
    · by_cases hi : i < 10
      · rw [ptrAt_direct c g hi, Nat.add_assoc]
        exact htype hg _ (by omega) (by omega)
      · obtain ⟨h1, h2⟩ := (hasUse_block.mp hu).resolve_left hi
        rw [ptrAt_entry c g hi]
        exact hentry hg h2 i h1
  · have hoff := (h.seat hf).off_bitmap (h.range hg hb).2
    unfold isFree at hu ⊢
    rw [hsame _ fun a h1 h2 => by omega]
    exact hu

/-! ## One pointer changes -/

/-- An update of the pointer of `f` for `u` to `b` that leaves the other words of files alone. -/
structure Repoints (Z : Set Nat) (f : Nat) (u : Use) (b : Nat) (c c' : Bytes) : Prop where
  types : ∀ {g}, IsFile c Z g → c'.word (typeAt g) = c.word (typeAt g)
  ptrs : ∀ {g v}, IsFile c Z g → HasUse c g v → (f, u) ≠ (g, v) →
    c'.word (ptrAt c g v) = c.word (ptrAt c g v)
  self : c'.word (ptrAt c f u) = b

section

variable {c' : Bytes} {f b : Nat} {u : Use}

theorem heldBlock_of {f : Nat} {u : Use} (hu : HasUse c f u) :
    heldBlock c f u = c.word (ptrAt c f u) := if_pos hu

theorem hasUse_of_held {f : Nat} {u : Use} (hb : heldBlock c f u ≠ 0) : HasUse c f u := by
  by_contra h
  exact hb (if_neg h)

theorem Repoints.held (h : Repoints Z f u b c c') (hu : HasUse c f u) {g : Nat} (hg : IsFile c Z g)
    (hne : (f, u) ≠ (g, .index)) (v : Use) :
    heldBlock c' g v = if (f, u) = (g, v) then b else heldBlock c g v := by
  have hind : c'.word (indirectAt g) = c.word (indirectAt g) := h.ptrs (v := .index) hg trivial hne
  by_cases heq : (f, u) = (g, v)
  · rw [if_pos heq]
    obtain ⟨rfl, rfl⟩ := Prod.mk.inj heq
    rcases u with _ | i
    · exact absurd rfl hne
    · have hu' : HasUse c' f (.block i) := by rwa [hasUse_block, hind]
      have hptr : ptrAt c' f (.block i) = ptrAt c f (.block i) := by simp only [ptrAt, hind]
      rw [heldBlock_of hu', hptr, h.self]
  · rw [if_neg heq]
    exact heldBlock_congr hind fun hv => h.ptrs hg hv heq

theorem Repoints.held_direct (h : Repoints Z f .index b c c') (hf : IsFile c Z f) {i : Nat}
    (hi : i < 10) : heldBlock c' f (.block i) = heldBlock c f (.block i) := by
  have hv : HasUse c f (.block i) := hasUse_block.mpr (Or.inl hi)
  have hv' : HasUse c' f (.block i) := hasUse_block.mpr (Or.inl hi)
  rw [heldBlock_of hv, heldBlock_of hv', ptrAt_direct c' f hi, ptrAt_direct c f hi]
  have := h.ptrs hf hv (by simp)
  rwa [ptrAt_direct c f hi] at this

theorem Repoints.held_index (h : Repoints Z f .index b c c') : heldBlock c' f .index = b := by
  rw [heldBlock_index]
  exact h.self

/-- The words of an index block that are not used keep off the pointers. -/
theorem Owned.unused_off_ptr (h : Owned n own dep Z c) {f g : Nat} {u : Use} (hf : IsFile c Z f)
    (hg : IsFile c Z g) (hu : HasUse c f u) (hne : c.word (indirectAt g) ≠ 0) {i : Nat} (hi : i < 10) :
    diskAddr (c.word (indirectAt g)) + 4 * i + 4 ≤ ptrAt c f u ∨
      ptrAt c f u + 4 ≤ diskAddr (c.word (indirectAt g)) + 4 * i := by
  obtain ⟨hown, hr⟩ := h.index hg hne
  rcases ptrAt_cases hu with ⟨h1, h2⟩ | ⟨hnf, h1, h2⟩
  · have := (h.seat hf).off_index hown hr
    omega
  · by_cases hfg : f = g
    · subst hfg
      omega
    · have hblk : c.word (indirectAt f) ≠ c.word (indirectAt g) := by
        intro hw
        have := (h.index hf hnf).1
        rw [hw, hown] at this
        exact hfg (Prod.mk.inj (Option.some.inj this)).1.symm
      rw [diskAddr_eq] at h1 h2 ⊢
      omega

/-! ## A block is taken away -/

/-- The block is free again and its pointer is cleared. -/
def cleared (c : Bytes) (f : Nat) (u : Use) : Bytes :=
  (release c (heldBlock c f u)).setWord (ptrAt c f u) 0

theorem word_release {x : Nat} (h : bitAt b + 4 ≤ x ∨ x + 4 ≤ bitAt b) :
    (release c b).word x = c.word x := Lib.Bytes.word_setWord_of_ne _ (by omega)

theorem Owned.repoints_cleared (h : Owned n own dep Z c) (hf : IsFile c Z f)
    (hb : heldBlock c f u ≠ 0) : Repoints Z f u 0 c (cleared c f u) := by
  have hu := hasUse_of_held hb
  have hn := (h.range hf hb).2
  have hmod := ptrAt_mod (c := c) (h.seat hf).bounds.2.1 u
  unfold cleared
  refine ⟨fun {g} hg => ?_, fun {g v} hg hv hne => ?_, Lib.Bytes.word_setWord_self ..⟩
  · have hoff := (h.seat hg).off_bitmap hn
    have hptr := h.ptr_off_file hg hf hu
    rw [Lib.Bytes.word_setWord_of_ne _ (by unfold typeAt; omega),
      word_release (by unfold typeAt; omega)]
  · have hmod' := ptrAt_mod (c := c) (h.seat hg).bounds.2.1 v
    have hoff := h.ptr_off_bitmap hg hv hn
    rw [Lib.Bytes.word_setWord _ hmod hmod', if_neg (h.ptr_ne hg hf hv hu hne.symm),
      word_release hoff]

theorem Owned.isFree_cleared (h : Owned n own dep Z c) (hf : IsFile c Z f) (hb : heldBlock c f u ≠ 0)
    {x : Nat} (hx : x < n) :
    isFree (cleared c f u) x = (isFree c x || decide (heldBlock c f u = x)) := by
  have hoff := h.ptr_off_bitmap hf (hasUse_of_held hb) hx
  rw [← isFree_release]
  unfold cleared isFree
  rw [Lib.Bytes.word_setWord_of_ne _ hoff]

theorem Owned.shrinks_cleared (h : Owned n own dep Z c) (hf : IsFile c Z f)
    (hb : heldBlock c f u ≠ 0) : Shrinks Z c (cleared c f u) := by
  have hu := hasUse_of_held hb
  have hn := (h.range hf hb).2
  have hr := h.repoints_cleared hf hb
  have hheld : ∀ {g} v, IsFile c Z g → heldBlock (cleared c f u) g v = 0 ∨
      (f, u) ≠ (g, v) ∧ heldBlock (cleared c f u) g v = heldBlock c g v := by
    intro g v hg
    by_cases hzero : (f, u) = (g, .index)
    · -- The file has no index block and no entries any more.
      obtain ⟨rfl, rfl⟩ := Prod.mk.inj hzero
      rcases v with _ | i
      · exact Or.inl hr.held_index
      · by_cases hi : i < 10
        · exact Or.inr ⟨by simp, hr.held_direct hf hi⟩
        · left
          unfold heldBlock
          rw [if_neg]
          rw [hasUse_block]
          rintro (h' | ⟨-, h'⟩)
          · exact hi h'
          · exact h' hr.self
    · rw [hr.held hu hg hzero v]
      by_cases heq : (f, u) = (g, v)
      · exact Or.inl (if_pos heq)
      · exact Or.inr ⟨heq, if_neg heq⟩
  refine ⟨fun hg ht => Or.inl ((hr.types hg).symm.trans ht), fun {g} v hg => ?_,
    fun {g} v hg hne hfree => ?_, fun {g} hg hne i hi => ?_⟩
  · exact (hheld v hg).imp_right And.right
  · obtain ⟨hne', heq⟩ := (hheld v hg).resolve_left hne
    rw [heq] at hne
    rw [h.isFree_cleared hf hb (h.range hg hne).2, hfree, Bool.false_or, decide_eq_false_iff_not]
    intro hsame
    have h1 := h.owner hf hb
    rw [hsame, h.owner hg hne] at h1
    exact hne' (Option.some.inj h1).symm
  · have hne' : c.word (indirectAt g) ≠ 0 := by
      have := (hheld .index hg).resolve_left (by rwa [heldBlock_index])
      rw [heldBlock_index, heldBlock_index] at this
      rwa [← this.2]
    have h10 : NDIRECT = 10 := rfl
    rw [h10] at hi
    have hoff := h.unused_off_ptr hf hg hu hne' hi
    have hbit := (bitAt_lt hn (h.index hg hne').2).2
    unfold cleared
    rw [Lib.Bytes.word_setWord_of_ne _ (by omega), word_release (by omega)]

/-! ## A block is given -/

def zeroPage (c : Bytes) (b : Nat) : Bytes := c.copy (diskAddr b) (fun _ => 0) 0 BLOCK_SIZE

/-- The content of `c` with the bit of `b` cleared, in a new page of zeros if `fresh`. -/
def taken (c : Bytes) (b : Nat) (fresh : Bool) : Bytes :=
  if fresh then zeroPage (claim c b) b else claim c b

/-- The block `b` is given to `f`. -/
def given (c : Bytes) (f : Nat) (u : Use) (b : Nat) (fresh : Bool) : Bytes :=
  (taken c b fresh).setWord (ptrAt c f u) b

theorem zeroPage_of_ne {a : Nat} (h : a < diskAddr b ∨ diskAddr b + 4096 ≤ a) :
    zeroPage c b a = c a := by
  have h4096 : BLOCK_SIZE = 4096 := rfl
  unfold zeroPage Lib.Bytes.copy
  rw [if_neg (by omega)]

theorem zeroPage_self {a : Nat} (h1 : diskAddr b ≤ a) (h2 : a < diskAddr b + 4096) :
    zeroPage c b a = 0 := by
  have h4096 : BLOCK_SIZE = 4096 := rfl
  unfold zeroPage Lib.Bytes.copy
  rw [if_pos (by omega)]

theorem taken_of_ne {fresh : Bool} {a : Nat} (h : a < diskAddr b ∨ diskAddr b + 4096 ≤ a)
    (hbit : a < bitAt b ∨ bitAt b + 4 ≤ a) : taken c b fresh a = c a := by
  unfold taken
  split
  · rw [zeroPage_of_ne h]
    exact Lib.Bytes.setWord_of_ne hbit
  · exact Lib.Bytes.setWord_of_ne hbit

theorem word_taken {fresh : Bool} {x : Nat} (h : x + 4 ≤ diskAddr b ∨ diskAddr b + 4096 ≤ x)
    (hbit : x + 4 ≤ bitAt b ∨ bitAt b + 4 ≤ x) : (taken c b fresh).word x = c.word x :=
  Lib.Bytes.word_congr fun i h1 h2 => taken_of_ne (by omega) (by omega)

/-- A free block that can be given to a file. No file in use is left in it. -/
structure Grantable (n : Nat) (Z : Set Nat) (c : Bytes) (b : Nat) : Prop where
  range : InRange n b
  small : b < 2 ^ 32
  free : isFree c b = true
  extras : ∀ z ∈ Z, blockOf z ≠ b

/-- No file lies in a free block. -/
theorem Owned.off_free (h : Owned n own dep Z c) (hb : Grantable n Z c b)
    {g : Nat} (hg : IsFile c Z g) : g + 256 ≤ diskAddr b ∨ diskAddr b + 4096 ≤ g := by
  cases hg with
  | root =>
    have := hb.range.three_le
    simp only [diskAddr_eq]
    omega
  | extra hzg =>
    have hne := hb.extras _ hzg
    have h16 : FILE2BLK = 16 := rfl
    rcases h.extras _ hzg with rfl | ⟨b', j, -, hj, -, rfl⟩
    · have := hb.range.three_le
      simp only [diskAddr_eq]
      omega
    · rw [blockOf_fileAt b' hj] at hne
      rw [h16] at hj
      simp only [fileAt_eq, diskAddr_eq]
      omega
  | @slot d i j hd ht hne hj =>
    have hblk : heldBlock c d (.block i) ≠ b := by
      intro heq
      have := h.used hd hne
      rw [heq, hb.free] at this
      exact absurd this (by simp)
    have h16 : FILE2BLK = 16 := rfl
    rw [h16] at hj
    simp only [fileAt_eq, diskAddr_eq]
    omega

theorem Owned.ptr_off_free (h : Owned n own dep Z c) (hb : Grantable n Z c b)
    {g : Nat} {v : Use} (hg : IsFile c Z g) (hv : HasUse c g v) :
    ptrAt c g v + 4 ≤ diskAddr b ∨ diskAddr b + 4096 ≤ ptrAt c g v := by
  have hoff := h.off_free hb hg
  rcases ptrAt_cases hv with h1 | ⟨hne, h1, h2⟩
  · omega
  · have hblk : c.word (indirectAt g) ≠ b := by
      intro heq
      have := h.used (u := .index) hg (by rwa [heldBlock_index])
      rw [heldBlock_index, heq, hb.free] at this
      exact absurd this (by simp)
    rw [diskAddr_eq] at h1 h2 ⊢
    omega

theorem Owned.repoints_given (h : Owned n own dep Z c) (hf : IsFile c Z f) (hu : HasUse c f u)
    (hb : Grantable n Z c b) (fresh : Bool) :
    Repoints Z f u b c (given c f u b fresh) := by
  have hn := hb.range.2
  have hmod := ptrAt_mod (c := c) (h.seat hf).bounds.2.1 u
  unfold given
  refine ⟨fun {g} hg => ?_, fun {g v} hg hv hne => ?_, ?_⟩
  · have hoff := (h.seat hg).off_bitmap hn
    have hptr := h.ptr_off_file hg hf hu
    have hpage := h.off_free hb hg
    unfold typeAt
    rw [Lib.Bytes.word_setWord_of_ne _ (by omega), word_taken (by omega) (by omega)]
  · have hmod' := ptrAt_mod (c := c) (h.seat hg).bounds.2.1 v
    have hoff := h.ptr_off_bitmap hg hv hn
    have hpage := h.ptr_off_free hb hg hv
    rw [Lib.Bytes.word_setWord _ hmod hmod', if_neg (h.ptr_ne hg hf hv hu hne.symm),
      word_taken hpage hoff.symm]
  · rw [Lib.Bytes.word_setWord_self, Nat.mod_eq_of_lt hb.small]

theorem isFree_given_of_ne {fresh : Bool} {x : Nat} (hb : InRange n b) (hx : x < n)
    (hptr : bitAt x + 4 ≤ ptrAt c f u ∨ ptrAt c f u + 4 ≤ bitAt x) :
    isFree (given c f u b fresh) x = (isFree c x && !decide (b = x)) := by
  have hpage := (bitAt_lt hx hb).2
  rw [← isFree_claim]
  unfold given taken isFree
  rw [Lib.Bytes.word_setWord_of_ne _ (by omega)]
  split
  · rw [Lib.Bytes.word_congr fun i h1 h2 => zeroPage_of_ne (by omega)]
  · rfl

/-- The page that a block given to a file for its own use has, apart from data. -/
def Blank (c : Bytes) (b : Nat) : Prop := ∀ a, diskAddr b ≤ a → a < diskAddr b + 4096 → c a = 0

theorem Blank.word (h : Blank c b) {x : Nat} (h1 : diskAddr b ≤ x) (h2 : x + 4 ≤ diskAddr b + 4096) :
    c.word x = 0 := Lib.Bytes.word_zero fun i h3 h4 => h i (by omega) (by omega)

/-- A blank page holds no pointers. -/
theorem Blank.held (h : Blank c b) {j : Nat} (hj : j < FILE2BLK) (v : Use) :
    heldBlock c (fileAt (diskAddr b) j) v = 0 := by
  have h16 : FILE2BLK = 16 := rfl
  rw [h16] at hj
  have hind : c.word (indirectAt (fileAt (diskAddr b) j)) = 0 := by
    unfold indirectAt
    rw [fileAt_eq]
    exact h.word (by omega) (by omega)
  rcases v with _ | i
  · rw [heldBlock_index, hind]
  · unfold heldBlock
    split
    · rename_i hu
      have hi := (hasUse_block.mp hu).resolve_right fun hx => hx.2 hind
      rw [ptrAt_direct c _ hi, fileAt_eq]
      exact h.word (by omega) (by omega)
    · rfl

theorem Owned.blank_given (h : Owned n own dep Z c) (hf : IsFile c Z f) (hu : HasUse c f u)
    (hb : Grantable n Z c b) {fresh : Bool} (hblank : Blank (taken c b fresh) b) :
    Blank (given c f u b fresh) b := by
  intro a h1 h2
  have hoff := h.ptr_off_free hb hf hu
  unfold given
  rw [Lib.Bytes.setWord_of_ne (by omega)]
  exact hblank a h1 h2

/-- What a file holds when `b` has been given to `f`. -/
theorem Owned.held_given (h : Owned n own dep Z c) (hf : IsFile c Z f) (hu : HasUse c f u)
    (hroom : heldBlock c f u = 0) (hb : Grantable n Z c b)
    {fresh : Bool} (hblank : u = .index → Blank (taken c b fresh) b) {g : Nat} (hg : IsFile c Z g)
    (v : Use) :
    heldBlock (given c f u b fresh) g v = if (f, u) = (g, v) then b else heldBlock c g v := by
  have hr := h.repoints_given hf hu hb fresh
  by_cases hzero : (f, u) = (g, .index)
  · -- The index block has no entries yet.
    obtain ⟨rfl, rfl⟩ := Prod.mk.inj hzero
    rcases v with _ | i
    · rw [if_pos rfl]
      exact hr.held_index
    · rw [if_neg (by simp)]
      by_cases hi : i < 10
      · exact hr.held_direct hf hi
      · have hself : (given c f .index b fresh).word (indirectAt f) = b := hr.self
        have hnone : heldBlock c f (.block i) = 0 := by
          unfold heldBlock
          rw [if_neg]
          rw [heldBlock_index] at hroom
          rw [hasUse_block]
          rintro (h' | ⟨-, h'⟩)
          · exact hi h'
          · exact h' hroom
        rw [hnone]
        unfold heldBlock
        split
        · rename_i hu'
          have hi' := ((hasUse_block.mp hu').resolve_left hi).1
          rw [ptrAt_entry _ _ hi, hself]
          exact (h.blank_given hf hu hb (hblank rfl)).word (by omega) (by omega)
        · rfl
  · exact hr.held hu hg hzero v

/-- The files of the new block, if it is one of a directory, hold nothing. -/
theorem Owned.isFile_given (h : Owned n own dep Z c) (hf : IsFile c Z f) (hu : HasUse c f u)
    (hroom : heldBlock c f u = 0) (hb : Grantable n Z c b)
    {fresh : Bool}
    (hblank : u = .index ∨ c.word (typeAt f) = FTYPE_DIR → Blank (taken c b fresh) b) {g : Nat}
    (hg : IsFile (given c f u b fresh) Z g) :
    IsFile c Z g ∨ c.word (typeAt f) = FTYPE_DIR ∧ ∃ j < FILE2BLK, g = fileAt (diskAddr b) j := by
  have hr := h.repoints_given hf hu hb fresh
  induction hg with
  | root => exact Or.inl .root
  | extra hzg => exact Or.inl (.extra hzg)
  | @slot d i j hd ht hne hj ih =>
    rcases ih with hd' | ⟨htf, k, hk, rfl⟩
    · rw [h.held_given hf hu hroom hb (fun hx => hblank (Or.inl hx)) hd'] at hne ⊢
      rw [hr.types hd'] at ht
      by_cases heq : (f, u) = (d, .block i)
      · rw [if_pos heq]
        obtain ⟨rfl, rfl⟩ := Prod.mk.inj heq
        exact Or.inr ⟨ht, j, hj, rfl⟩
      · rw [if_neg heq] at hne ⊢
        exact Or.inl (.slot hd' ht hne hj)
    · exact absurd ((h.blank_given hf hu hb (hblank (Or.inr htf))).held hk _) hne

theorem Owned.blockOf_ne (h : Owned n own dep Z c) (hb : Grantable n Z c b)
    {g : Nat} (hg : IsFile c Z g) : blockOf g ≠ b := by
  cases hg with
  | root =>
    have := hb.range.three_le
    rw [blockOf_add 1 (by omega)]
    omega
  | extra hzg => exact hb.extras _ hzg
  | @slot d i j hd ht hne hj =>
    rw [blockOf_fileAt _ hj]
    intro heq
    have := h.used hd hne
    rw [heq, hb.free] at this
    exact absurd this (by simp)

theorem Owned.given (h : Owned n own dep Z c) (hf : IsFile c Z f) (hu : HasUse c f u)
    (hroom : heldBlock c f u = 0) (hb : Grantable n Z c b)
    {fresh : Bool}
    (hblank : u = .index ∨ c.word (typeAt f) = FTYPE_DIR → Blank (taken c b fresh) b) :
    Owned n (Function.update own b (some (f, u)))
      (Function.update dep b (dep (blockOf f) + 1)) Z (given c f u b fresh) := by
  have hr := h.repoints_given hf hu hb fresh
  have hheld := fun {g : Nat} (hg : IsFile c Z g) v =>
    h.held_given hf hu hroom hb (fun hx => hblank (Or.inl hx)) hg v
  have hold : ∀ {g}, IsFile c Z g → ∀ v, heldBlock c g v ≠ 0 → heldBlock c g v ≠ b := by
    intro g hg v hne heq
    have := h.used hg hne
    rw [heq, hb.free] at this
    exact absurd this (by simp)
  -- Only the files that were there hold blocks.
  have hof : ∀ {g v}, IsFile (Fs.given c f u b fresh) Z g → heldBlock (Fs.given c f u b fresh) g v ≠ 0 →
      IsFile c Z g := by
    intro g v hg hne
    rcases h.isFile_given hf hu hroom hb hblank hg with hg' | ⟨htf, j, hj, rfl⟩
    · exact hg'
    · exact absurd ((h.blank_given hf hu hb (hblank (Or.inr htf))).held hj _) hne
  refine ⟨fun {g v} hg hne => ?_, fun {g v} hg hne => ?_, fun {g v} hg hne => ?_,
    fun {g i} hg ht hne => ?_, fun {g} hg hne i hi => ?_, fun z hzg => ?_⟩
  · have hg' := hof hg hne
    rw [hheld hg'] at hne ⊢
    by_cases heq : (f, u) = (g, v)
    · rw [if_pos heq, Function.update_self, heq]
    · rw [if_neg heq] at hne ⊢
      rw [Function.update_of_ne (hold hg' v hne)]
      exact h.owner hg' hne
  · have hg' := hof hg hne
    rw [hheld hg'] at hne ⊢
    by_cases heq : (f, u) = (g, v)
    · rw [if_pos heq]
      exact hb.range
    · rw [if_neg heq] at hne ⊢
      exact h.range hg' hne
  · have hg' := hof hg hne
    have hfree' : ∀ x < n, isFree (Fs.given c f u b fresh) x = (isFree c x && !decide (b = x)) :=
      fun x hx => isFree_given_of_ne hb.range hx (h.ptr_off_bitmap hf hu hx)
    rw [hheld hg'] at hne ⊢
    by_cases heq : (f, u) = (g, v)
    · rw [if_pos heq, hfree' b hb.range.2]
      simp
    · rw [if_neg heq] at hne ⊢
      rw [hfree' _ (h.range hg' hne).2, h.used hg' hne, Bool.false_and]
  · have hg' := hof hg hne
    rw [hr.types hg'] at ht
    rw [Function.update_of_ne (h.blockOf_ne hb hg')]
    rw [hheld hg'] at hne ⊢
    by_cases heq : (f, u) = (g, .block i)
    · rw [if_pos heq, Function.update_self, (Prod.mk.inj heq).1]
    · rw [if_neg heq] at hne ⊢
      rw [Function.update_of_ne (hold hg' _ hne)]
      exact h.deeper hg' ht hne
  · have h10 : NDIRECT = 10 := rfl
    rw [h10] at hi
    have hne' : heldBlock (Fs.given c f u b fresh) g .index ≠ 0 := by rwa [heldBlock_index]
    have hg' := hof hg hne'
    rw [← heldBlock_index] at hne ⊢
    rw [hheld hg'] at hne ⊢
    by_cases heq : (f, u) = (g, .index)
    · rw [if_pos heq]
      exact (h.blank_given hf hu hb (hblank (Or.inl (Prod.mk.inj heq).2))).word
        (by omega) (by omega)
    · rw [if_neg heq] at hne ⊢
      rw [heldBlock_index] at hne ⊢
      have hoff := h.unused_off_ptr hf hg' hu hne hi
      have hbit := (bitAt_lt hb.range.2 (h.index hg' hne).2).2
      have hpage := hold hg' .index (by rwa [heldBlock_index])
      rw [heldBlock_index] at hpage
      have hword := h.unused hg' hne i hi
      unfold Fs.given
      rw [Lib.Bytes.word_setWord_of_ne _ (by omega), word_taken _ (by omega)]
      · exact hword
      · rw [diskAddr_eq, diskAddr_eq]
        omega
  · have hne := hb.extras _ hzg
    rcases h.extras z hzg with rfl | ⟨b', j, hr', hj, hown, rfl⟩
    · exact Or.inl rfl
    · rw [blockOf_fileAt b' hj] at hne
      exact Or.inr ⟨b', j, hr', hj, by rwa [Function.update_of_ne hne], rfl⟩

/-! ## Other updates -/

/-- The type of a file is set. Only a file without blocks becomes a directory. -/
theorem Owned.shrinks_type (h : Owned n own dep Z c) (hf : IsFile c Z f) {ty : Nat}
    (hty : ty % 2 ^ 32 = FTYPE_DIR → ∀ i, heldBlock c f (.block i) = 0) :
    Shrinks Z c (c.setWord (typeAt f) ty) := by
  have hword : ∀ x, (x + 4 ≤ f ∨ f + 256 ≤ x ∨ f + 136 ≤ x) →
      (c.setWord (typeAt f) ty).word x = c.word x := by
    intro x hx
    unfold typeAt
    exact Lib.Bytes.word_setWord_of_ne _ (by omega)
  have hheld : ∀ {g} v, IsFile c Z g → heldBlock (c.setWord (typeAt f) ty) g v = heldBlock c g v := by
    intro g v hg
    refine heldBlock_congr (hword _ ?_) fun hv => hword _ ?_
    · unfold indirectAt
      by_cases hfg : f = g
      · omega
      · have := (h.seat hf).apart (h.seat hg) hfg
        omega
    · have := h.ptr_off_file hf hg hv
      omega
  refine ⟨fun {g} hg ht => ?_, fun v hg => Or.inr (hheld v hg), fun {g} v hg hne hfree => ?_,
    fun {g} hg hne i hi => ?_⟩
  · by_cases hfg : f = g
    · subst hfg
      rw [Lib.Bytes.word_setWord_self] at ht
      exact Or.inr fun i => (hheld _ hg).trans (hty ht i)
    · left
      have := (h.seat hf).apart (h.seat hg) hfg
      rw [← ht]
      exact (hword _ (by unfold typeAt; omega)).symm
  · rw [hheld v hg] at hne
    have hoff := (h.seat hf).off_bitmap (h.range hg hne).2
    unfold isFree at hfree ⊢
    rwa [hword _ (by omega)]
  · have hind := hheld .index hg
    rw [heldBlock_index, heldBlock_index] at hind
    rw [hind] at hne
    obtain ⟨hown, hr⟩ := h.index hg hne
    have hoff := (h.seat hf).off_index hown hr
    have h10 : NDIRECT = 10 := rfl
    exact hword _ (by omega)

theorem Owned.isFile_type (h : Owned n own dep Z c) (hf : IsFile c Z f) (ty : Nat) {g : Nat}
    (hg : IsFile c Z g) (hd : dep (blockOf g) ≤ dep (blockOf f)) :
    IsFile (c.setWord (typeAt f) ty) Z g := by
  refine h.isFile_keep (fun d hd hlt => ?_) hg hd
  have hfd : f ≠ d := by
    rintro rfl
    exact absurd hlt (Nat.lt_irrefl _)
  have hap := (h.seat hf).apart (h.seat hd) hfd
  have hword : ∀ x, (x + 4 ≤ f ∨ f + 256 ≤ x) → (c.setWord (typeAt f) ty).word x = c.word x := by
    intro x hx
    unfold typeAt
    exact Lib.Bytes.word_setWord_of_ne _ (by omega)
  refine ⟨hword _ (by unfold typeAt; omega), fun i => ?_⟩
  refine heldBlock_congr (hword _ (by unfold indirectAt; omega)) fun hv => hword _ ?_
  have := h.ptr_off_file hf hd hv
  omega

theorem Seat.off_page {g : Nat} (h : Seat n own g) (hb : 3 ≤ b) (hne : blockOf g ≠ b) :
    g + 256 ≤ diskAddr b ∨ diskAddr b + 4096 ≤ g := by
  rcases h with rfl | ⟨b', j, -, hj, -, rfl⟩
  · simp only [diskAddr_eq]
    omega
  · rw [blockOf_fileAt b' hj] at hne
    have h16 : FILE2BLK = 16 := rfl
    rw [h16] at hj
    simp only [fileAt_eq, diskAddr_eq]
    omega

/-- An update of the page of a block that holds no files and no pointers. -/
theorem Owned.alike_of_page (h : Owned n own dep Z c) (hb : 3 + n / BLOCK_SIZE_BIT ≤ b)
    (hfiles : ∀ g, IsFile c Z g → blockOf g ≠ b) (hindex : ∀ g, IsFile c Z g → c.word (indirectAt g) ≠ b)
    (hc : ∀ a, c' a ≠ c a → diskAddr b ≤ a ∧ a < diskAddr b + 4096) : Alike Z c c' := by
  have hword : ∀ x, (x + 4 ≤ diskAddr b ∨ diskAddr b + 4096 ≤ x) → c'.word x = c.word x := by
    intro x hx
    refine Lib.Bytes.word_congr fun a h1 h2 => ?_
    by_contra hne
    have := hc a hne
    omega
  have hoff : ∀ {g}, IsFile c Z g → g + 256 ≤ diskAddr b ∨ diskAddr b + 4096 ≤ g := fun hg =>
    (h.seat hg).off_page (Nat.le_trans (Nat.le_add_right ..) hb) (hfiles _ hg)
  have hentry : ∀ {g}, IsFile c Z g → ∀ i < 1024,
      c'.word (diskAddr (c.word (indirectAt g)) + 4 * i) =
        c.word (diskAddr (c.word (indirectAt g)) + 4 * i) := by
    intro g hg i hi
    have hne := hindex g hg
    refine hword _ ?_
    simp only [diskAddr_eq]
    omega
  have hind : ∀ {g}, IsFile c Z g → c'.word (indirectAt g) = c.word (indirectAt g) := by
    intro g hg
    have := hoff hg
    exact hword _ (by unfold indirectAt; omega)
  refine ⟨fun {g} hg => ?_, fun {g} v hg => ?_, fun {g} v hg hne hfree => ?_,
    fun hg _ i hi => hentry hg i (Nat.lt_trans hi (by decide))⟩
  · have := hoff hg
    exact hword _ (by unfold typeAt; omega)
  · refine heldBlock_congr (hind hg) fun hv => ?_
    have := hoff hg
    rcases v with _ | i
    · exact hind hg
    · by_cases hi : i < 10
      · rw [ptrAt_direct c g hi]
        exact hword _ (by omega)
      · obtain ⟨h1, -⟩ := (hasUse_block.mp hv).resolve_left hi
        rw [ptrAt_entry c g hi]
        exact hentry hg i h1
  · have hx := (h.range hg hne).2
    have hbit : bitAt (heldBlock c g v) + 4 ≤ diskAddr b := by
      have : BLOCK_SIZE_BIT = 32768 := rfl
      rw [this] at hb
      unfold bitAt
      rw [diskAddr_eq, diskAddr_eq]
      omega
    unfold isFree at hfree ⊢
    rwa [hword _ (by omega)]

end

end

end Mos.Fs
