import Mos.Lib.Bytes
import Mos.Lib.Program

/-!
# Memory and string routines (`lib/string.c`)

Addresses have 32 bits and wrap. Every byte can be accessed, and a word only at a multiple of 4.
-/

namespace Mos.Strings

open Lib (Bytes wp wp_mono wp_ite)

inductive Stop where
  /-- A word at an address that is no multiple of 4. -/
  | fault
  /-- A loop that has not ended. -/
  | turns
  deriving DecidableEq, Repr

abbrev Mem := EStateM Stop Bytes

/-- An address plus an offset. -/
def wrap (a : Nat) : Nat := a % 2 ^ 32

/-! ## `memcpy` and `memset` -/

/-- `while (go(dst) && dst < max)` on bytes, for `k` turns at most. -/
def moveBytes (move : Nat → Nat → Mem Unit) (go : Nat → Bool) (max : Nat) :
    Nat → Nat → Nat → Mem (Nat × Nat)
  | 0, _, _ => throw .turns
  | k + 1, dst, src => do
    if go dst ∧ dst < max then do
      move dst src
      moveBytes move go max k (wrap (dst + 1)) (wrap (src + 1))
    else
      return (dst, src)

/-- `while (dst + 4 <= max)` on words, for `k` turns at most. -/
def moveWords (move : Nat → Nat → Mem Unit) (max : Nat) : Nat → Nat → Nat → Mem (Nat × Nat)
  | 0, _, _ => throw .turns
  | k + 1, dst, src => do
    if wrap (dst + 4) ≤ max then do
      move dst src
      moveWords move max k (wrap (dst + 4)) (wrap (src + 4))
    else
      return (dst, src)

/-- The loops on bytes up to a word, on words, and on the bytes that are left. -/
def moveAligned (byte word : Nat → Nat → Mem Unit) (max k dst src : Nat) : Mem Unit := do
  let (dst, src) ← moveBytes byte (fun d => d % 4 != 0) max k dst src
  let (dst, src) ← moveWords word max k dst src
  let _ ← moveBytes byte (fun _ => true) max k dst src

/-- `*(char *)dst = *(char *)src` -/
def copyByte (dst src : Nat) : Mem Unit := modify fun m => Function.update m dst (m src)

/-- `*(uint32_t *)dst = *(uint32_t *)src` -/
def copyWord (dst src : Nat) : Mem Unit := do
  if dst % 4 = 0 ∧ src % 4 = 0 then modify fun m => m.setWord dst (m.word src) else throw .fault

def memcpy (k dst src n : Nat) : Mem Nat := do
  let max := wrap (dst + n)
  if src % 4 ≠ dst % 4 then do
    let _ ← moveBytes copyByte (fun _ => true) max k dst src
    return dst
  else do
    moveAligned copyByte copyWord max k dst src
    return dst

/-- `c & 0xff` -/
def lowByte (c : Int) : UInt8 := UInt8.ofNat (c % 256).toNat

def storeByte (byte : UInt8) (dst : Nat) : Mem Unit := modify fun m => Function.update m dst byte

def storeWord (word dst : Nat) : Mem Unit := do
  if dst % 4 = 0 then modify fun m => m.setWord dst word else throw .fault

/-- `byte | byte << 8 | byte << 16 | byte << 24` -/
def wordOf (byte : UInt8) : Nat :=
  byte.toNat ||| byte.toNat <<< 8 ||| byte.toNat <<< 16 ||| byte.toNat <<< 24

/-- There is no source, so that of the loops stays unused. -/
def memset (k dst : Nat) (c : Int) (n : Nat) : Mem Nat := do
  let byte := lowByte c
  let word := wordOf byte
  moveAligned (fun dst _ => storeByte byte dst) (fun dst _ => storeWord word dst) (wrap (dst + n)) k dst 0
  return dst

/-! ## Strings -/

/-- The `n` bytes at `a`. -/
def view (m : Bytes) (a n : Nat) : List UInt8 := (List.range n).map fun i => m (a + i)

/-- `strlen` from `s` on after `n` characters, for `k` turns at most. -/
def strlenFrom : Nat → Nat → Nat → Mem Nat
  | 0, _, _ => throw .turns
  | k + 1, s, n => do
    if (← get) s = 0 then return n else strlenFrom k (wrap (s + 1)) (n + 1)

def strlen (k s : Nat) : Mem Nat := strlenFrom k s 0

/-- `while ((*dst++ = *src++) != 0)`, for `k` turns at most. -/
def strcpy : Nat → Nat → Nat → Mem Unit
  | 0, _, _ => throw .turns
  | k + 1, dst, src => do
    copyByte dst src
    if (← get) dst = 0 then return () else strcpy k (wrap (dst + 1)) (wrap (src + 1))

theorem view_congr {m m' : Bytes} {a n : Nat} (h : ∀ i, a ≤ i → i < a + n → m i = m' i) :
    view m a n = view m' a n := by
  unfold view
  apply List.map_congr_left
  intro i hi
  exact h (a + i) (by omega) (by have := List.mem_range.mp hi; omega)

theorem view_append (m : Bytes) (a j n : Nat) : view m a (j + n) = view m a j ++ view m (a + j) n := by
  unfold view
  rw [List.range_add, List.map_append, List.map_map]
  simp only [Function.comp_def, Nat.add_assoc]

theorem view_copy (m m' : Bytes) (a b n : Nat) : view (m.copy a m' b n) a n = view m' b n := by
  unfold view
  apply List.map_congr_left
  intro i hi
  exact Bytes.copy_of_mem (List.mem_range.mp hi)

/-! ## The loops -/

variable {byte word : Nat → Nat → Mem Unit} {m m' : Bytes} {dst src n j k : Nat}

/-- After `j` bytes, those of `m'` from `b` on are at `dst`. -/
structure MovesBytes (byte : Nat → Nat → Mem Unit) (m m' : Bytes) (dst src b n : Nat) : Prop where
  byte : ∀ j < n, wp (byte (dst + j) (wrap (src + j))) (fun _ s => s = m.copy dst m' b (j + 1))
    (fun _ _ => False) (m.copy dst m' b j)

structure Moves (byte word : Nat → Nat → Mem Unit) (m m' : Bytes) (dst src b n : Nat) : Prop
    extends MovesBytes byte m m' dst src b n where
  word : ∀ j, j + 4 ≤ n → (dst + j) % 4 = 0 →
    wp (word (dst + j) (wrap (src + j))) (fun _ s => s = m.copy dst m' b (j + 4))
      (fun _ _ => False) (m.copy dst m' b j)

theorem wrap_add (a j i : Nat) : wrap (wrap (a + j) + i) = wrap (a + (j + i)) := by
  unfold wrap
  omega

theorem wrap_of_lt {a : Nat} (h : a < 2 ^ 32) : wrap a = a := Nat.mod_eq_of_lt h

variable {b : Nat}

/-- The loop on bytes moves those that are left, or stops at the first that is not to go. -/
theorem moveBytes_spec (h : MovesBytes byte m m' dst src b n) (go : Nat → Bool)
    (hn : dst + n < 2 ^ 32) (hj : j ≤ n) :
    wp (moveBytes byte go (dst + n) k (dst + j) (wrap (src + j)))
      (fun r s => ∃ i, j ≤ i ∧ i ≤ n ∧ r = (dst + i, wrap (src + i)) ∧ s = m.copy dst m' b i ∧
        (i < n → go (dst + i) = false))
      (fun _ _ => k ≤ n - j) (m.copy dst m' b j) := by
  induction k generalizing j with
  | zero =>
    unfold moveBytes
    rw [Lib.wp_throw]
    exact Nat.zero_le _
  | succ k ih =>
    unfold moveBytes
    rw [wp_ite]
    constructor
    · rintro ⟨-, hlt⟩
      rw [Lib.wp_bind]
      refine wp_mono (h.byte j (by omega)) ?_ (fun _ _ h => h.elim)
      rintro _ _ rfl
      rw [wrap_add, Nat.add_assoc, wrap_of_lt (by omega)]
      refine wp_mono (ih (by omega)) ?_ (fun _ _ hk => by omega)
      rintro r s ⟨i, hji, hrest⟩
      exact ⟨i, by omega, hrest⟩
    · intro hstop
      rw [Lib.wp_pure]
      refine ⟨j, Nat.le_refl _, hj, rfl, rfl, fun hlt => ?_⟩
      exact Bool.eq_false_iff.mpr fun hgo => hstop ⟨hgo, by omega⟩

/-- The loop on words moves as many as fit, from a whole word on. -/
theorem moveWords_spec (h : Moves byte word m m' dst src b n) (hn : dst + n < 2 ^ 32 - 4) (hj : j ≤ n)
    (ha : j < n → (dst + j) % 4 = 0) (hk : n - j < k) :
    wp (moveWords word (dst + n) k (dst + j) (wrap (src + j)))
      (fun r s => ∃ i, i ≤ n ∧ r = (dst + i, wrap (src + i)) ∧ s = m.copy dst m' b i)
      (fun _ _ => False) (m.copy dst m' b j) := by
  induction k generalizing j with
  | zero => omega
  | succ k ih =>
    unfold moveWords
    rw [wrap_of_lt (by omega), wp_ite]
    constructor
    · intro hle
      have halign := ha (by omega)
      rw [Lib.wp_bind]
      refine wp_mono (h.word j (by omega) halign) ?_ (fun _ _ h => h)
      rintro _ _ rfl
      rw [wrap_add, Nat.add_assoc]
      exact ih (by omega) (by omega) (by omega)
    · intro _
      rw [Lib.wp_pure]
      exact ⟨j, hj, rfl, rfl⟩

theorem moveRest_spec (h : MovesBytes byte m m' dst src b n) (hn : dst + n < 2 ^ 32) (hj : j ≤ n)
    (hk : n - j < k) :
    wp (do
      let _ ← moveBytes byte (fun _ => true) (dst + n) k (dst + j) (wrap (src + j)))
      (fun _ s => s = m.copy dst m' b n) (fun _ _ => False) (m.copy dst m' b j) := by
  rw [Lib.wp_bind]
  refine wp_mono (moveBytes_spec h _ hn hj) ?_ (fun _ _ hle => absurd hk (by omega))
  rintro r s ⟨i, -, hi, -, rfl, hgo⟩
  obtain rfl : i = n := by
    by_contra hne
    exact Bool.noConfusion (hgo (by omega))
  rw [Lib.wp_pure]

/-- All bytes are moved, if the range is not close to the end of the addresses. -/
theorem moveAligned_spec (h : Moves byte word m m' dst src b n) (hsrc : src < 2 ^ 32)
    (hn : dst + n < 2 ^ 32 - 4) (hk : n < k) :
    wp (moveAligned byte word (dst + n) k dst src) (fun _ s => s = m.copy dst m' b n)
      (fun _ _ => False) m := by
  have hstart : m.copy dst m' b 0 = m := Bytes.copy_zero _ _ _ _
  have hfirst := moveBytes_spec (k := k) h.toMovesBytes (fun d => d % 4 != 0) (by omega) (Nat.zero_le n)
  rw [Nat.add_zero, Nat.add_zero, wrap_of_lt hsrc, hstart] at hfirst
  unfold moveAligned
  rw [Lib.wp_bind]
  refine wp_mono hfirst ?_ (fun _ _ hle => absurd hk (by omega))
  rintro _ _ ⟨i, -, hi, rfl, rfl, hgo⟩
  have halign : i < n → (dst + i) % 4 = 0 := fun hlt => by simpa using hgo hlt
  simp only
  rw [Lib.wp_bind]
  refine wp_mono (moveWords_spec h hn hi halign (by omega)) ?_ (fun _ _ h => h)
  rintro _ _ ⟨l, hl, rfl, rfl⟩
  exact moveRest_spec h.toMovesBytes (by omega) hl (by omega)

/-! ### The end of the addresses -/

/-- From a whole word on, the loop on words does not end if the last word is in reach. -/
theorem moveWords_endless {max : Nat} (hmax : 2 ^ 32 - 4 ≤ max) (hd : dst < 2 ^ 32) (ha : dst % 4 = 0)
    (s : Bytes) : wp (moveWords word max k dst src) (fun _ _ => False) (fun _ _ => True) s := by
  induction k generalizing dst src s with
  | zero =>
    unfold moveWords
    rw [Lib.wp_throw]
    trivial
  | succ k ih =>
    unfold moveWords
    rw [wp_ite]
    constructor
    · intro _
      rw [Lib.wp_bind]
      refine wp_mono (Lib.wp_trivial _) (fun _ s' _ => ?_) (fun _ _ _ => trivial)
      exact ih (by unfold wrap; omega) (by unfold wrap; omega) s'
    · intro hgt
      unfold wrap at hgt
      omega

/-- In the last word of the addresses the loop on words goes too far. -/
theorem moveAligned_overrun (h : Moves byte word m m' dst src b n) (hsrc : src < 2 ^ 32)
    (hn : dst + n < 2 ^ 32) (hlast : 2 ^ 32 - 4 ≤ dst + n)
    (hfault : ∀ d s x, d % 4 ≠ 0 → wp (word d s) (fun _ _ => False) (fun _ _ => True) x) :
    wp (moveAligned byte word (dst + n) k dst src) (fun _ _ => False) (fun _ _ => True) m := by
  have hstart : m.copy dst m' b 0 = m := Bytes.copy_zero _ _ _ _
  have hfirst := moveBytes_spec (k := k) h.toMovesBytes (fun d => d % 4 != 0) hn (Nat.zero_le n)
  rw [Nat.add_zero, Nat.add_zero, wrap_of_lt hsrc, hstart] at hfirst
  unfold moveAligned
  rw [Lib.wp_bind]
  refine wp_mono hfirst ?_ (fun _ _ _ => trivial)
  rintro _ _ ⟨i, -, hi, rfl, rfl, hgo⟩
  simp only
  rw [Lib.wp_bind]
  by_cases ha : (dst + i) % 4 = 0
  · exact wp_mono (moveWords_endless hlast (by omega) ha _) (fun _ _ h => h.elim) (fun _ _ h => h)
  · -- The bytes are moved, and `dst` is in the last word.
    have hin : i = n := by
      by_contra hne
      have hgone := hgo (by omega)
      rw [bne_eq_false_iff_eq] at hgone
      exact ha hgone
    cases k with
    | zero =>
      unfold moveWords
      rw [Lib.wp_throw]
      trivial
    | succ k =>
      unfold moveWords
      rw [if_pos (by unfold wrap; omega), Lib.wp_bind]
      exact wp_mono (hfault _ _ _ ha) (fun _ _ h => h.elim) (fun _ _ h => h)

theorem moveBytes_none {go : Nat → Bool} (k : Nat) (s : Bytes) :
    wp (moveBytes byte go 0 k dst src) (fun r s' => r = (dst, src) ∧ s' = s) (fun _ _ => k = 0) s := by
  cases k with
  | zero =>
    unfold moveBytes
    rw [Lib.wp_throw]
  | succ k =>
    unfold moveBytes
    rw [if_neg (by omega), Lib.wp_pure]
    exact ⟨rfl, rfl⟩

/-- A range up to the end of the addresses stays as it is, unless it is the last word. -/
theorem moveAligned_top (h : Moves byte word m m' dst src b n) (hsrc : src < 2 ^ 32)
    (hd : dst < 2 ^ 32) (hn : dst + n = 2 ^ 32) :
    wp (moveAligned byte word 0 k dst src)
      (fun _ s => if n = 4 then s = m.copy dst m' b n else s = m) (fun _ _ => k < 2) m := by
  unfold moveAligned
  rw [Lib.wp_bind]
  refine wp_mono (moveBytes_none k m) ?_ (fun _ _ hk => by omega)
  rintro _ _ ⟨rfl, rfl⟩
  simp only
  rw [Lib.wp_bind]
  cases k with
  | zero =>
    unfold moveWords
    rw [Lib.wp_throw]
    exact Nat.zero_lt_two
  | succ k =>
    unfold moveWords
    rw [wp_ite]
    constructor
    · intro hle
      have h4 : n = 4 := by
        unfold wrap at hle
        omega
      have hword := h.word 0 (by omega) (by omega)
      rw [Nat.add_zero, Nat.add_zero, Nat.zero_add, wrap_of_lt hsrc, Bytes.copy_zero] at hword
      rw [Lib.wp_bind]
      refine wp_mono hword ?_ (fun _ _ h => h.elim)
      rintro _ _ rfl
      cases k with
      | zero =>
        unfold moveWords
        rw [Lib.wp_throw]
        omega
      | succ k =>
        unfold moveWords
        rw [if_neg (by unfold wrap; omega), Lib.wp_pure, Lib.wp_bind]
        refine wp_mono (moveBytes_none _ _) ?_ (fun _ _ hk => by omega)
        rintro _ _ ⟨-, rfl⟩
        rw [Lib.wp_pure, if_pos h4, h4]
    · intro hgt
      have h4 : n ≠ 4 := by
        unfold wrap at hgt
        omega
      rw [Lib.wp_pure]
      simp only
      rw [Lib.wp_bind]
      refine wp_mono (moveBytes_none _ _) ?_ (fun _ _ hk => by omega)
      rintro _ _ ⟨-, rfl⟩
      rw [Lib.wp_pure, if_neg h4]

/-! ## What `memcpy` and `memset` store -/

theorem copy_succ (m m' : Bytes) (a b j : Nat) :
    Function.update (m.copy a m' b j) (a + j) (m' (b + j)) = m.copy a m' b (j + 1) := by
  funext i
  unfold Bytes.copy
  by_cases hi : i = a + j
  · subst hi
    rw [Function.update_self, if_pos (by omega), Nat.add_sub_cancel_left]
  · rw [Function.update_of_ne hi]
    by_cases hlt : a ≤ i ∧ i < a + j
    · rw [if_pos hlt, if_pos (by omega)]
    · rw [if_neg hlt, if_neg (by omega)]

theorem movesBytes_copy (m : Bytes) (hsrc : src + n ≤ 2 ^ 32)
    (hapart : dst + n ≤ src ∨ src + n ≤ dst) : MovesBytes copyByte m m dst src src n where
  byte j hj := by
    unfold copyByte
    rw [Lib.wp_modify, wrap_of_lt (by omega), Bytes.copy_of_ne (by omega)]
    exact copy_succ m m dst src j

theorem moves_copy (m : Bytes) (ha : src % 4 = dst % 4) (hsrc : src + n ≤ 2 ^ 32)
    (hapart : dst + n ≤ src ∨ src + n ≤ dst) : Moves copyByte copyWord m m dst src src n where
  toMovesBytes := movesBytes_copy m hsrc hapart
  word j hj halign := by
    unfold copyWord
    rw [wrap_of_lt (by omega), if_pos (by omega), Lib.wp_modify]
    have hword : (m.copy dst m src j).word (src + j) = m.word (src + j) :=
      Bytes.word_congr fun i _ _ => Bytes.copy_of_ne (by omega)
    rw [hword, Bytes.setWord_word_eq_copy]
    exact Bytes.copy_append m m dst src j 4

theorem wordOf_eq (c : UInt8) (a : Nat) : wordOf c = Bytes.word (fun _ => c) a := by
  have hall : ∀ x : Fin 256, x.1 ||| x.1 <<< 8 ||| x.1 <<< 16 ||| x.1 <<< 24 =
      x.1 + 256 * x.1 + 65536 * x.1 + 16777216 * x.1 := by decide +kernel
  exact hall ⟨c.toNat, c.toNat_lt⟩

theorem moves_fill (m : Bytes) (c : UInt8) (dst n : Nat) :
    Moves (fun dst _ => storeByte c dst) (fun dst _ => storeWord (wordOf c) dst) m (fun _ => c) dst 0 0 n where
  byte j _ := by
    unfold storeByte
    rw [Lib.wp_modify]
    exact copy_succ m (fun _ => c) dst 0 j
  word j _ halign := by
    unfold storeWord
    rw [if_pos halign, Lib.wp_modify, wordOf_eq c (0 + j), Bytes.setWord_word_eq_copy]
    exact Bytes.copy_append m (fun _ => c) dst 0 j 4

theorem copyWord_fault {s : Nat} (hd : dst % 4 ≠ 0) (x : Bytes) :
    wp (copyWord dst s) (fun _ _ => False) (fun _ _ => True) x := by
  unfold copyWord
  rw [if_neg (fun h => hd h.1), Lib.wp_throw]
  trivial

theorem storeWord_fault {v : Nat} (hd : dst % 4 ≠ 0) (x : Bytes) :
    wp (storeWord v dst) (fun _ _ => False) (fun _ _ => True) x := by
  unfold storeWord
  rw [if_neg hd, Lib.wp_throw]
  trivial

theorem memcpy_bytes (m : Bytes) (ha : src % 4 ≠ dst % 4) (hsrc : src + n ≤ 2 ^ 32)
    (hn : dst + n < 2 ^ 32) (hapart : dst + n ≤ src ∨ src + n ≤ dst) (hs : src < 2 ^ 32) (hk : n < k) :
    wp (memcpy k dst src n) (fun r s => r = dst ∧ s = m.copy dst m src n) (fun _ _ => False) m := by
  have hrest := moveRest_spec (movesBytes_copy m hsrc hapart) hn (Nat.zero_le n) (k := k) (by omega)
  rw [Nat.add_zero, Nat.add_zero, wrap_of_lt hs, Bytes.copy_zero, Lib.wp_bind] at hrest
  unfold memcpy
  simp only
  rw [if_pos ha, wrap_of_lt hn, Lib.wp_bind]
  refine wp_mono hrest (fun _ s hs' => ?_) (fun _ _ h => h)
  rw [Lib.wp_pure] at hs' ⊢
  exact ⟨rfl, hs'⟩

theorem memcpy_aligned {Q : Bytes → Prop} {E : Stop → Bytes → Prop} {m : Bytes} (ha : src % 4 = dst % 4)
    (h : wp (moveAligned copyByte copyWord (wrap (dst + n)) k dst src) (fun _ => Q) E m) :
    wp (memcpy k dst src n) (fun r s => r = dst ∧ Q s) E m := by
  unfold memcpy
  simp only
  rw [if_neg (fun hne => hne ha), Lib.wp_bind]
  refine wp_mono h (fun _ s hs => ?_) (fun _ _ h => h)
  rw [Lib.wp_pure]
  exact ⟨rfl, hs⟩

theorem memset_aligned {Q : Bytes → Prop} {E : Stop → Bytes → Prop} {c : Int} {m : Bytes}
    (h : wp (moveAligned (fun dst _ => storeByte (lowByte c) dst)
      (fun dst _ => storeWord (wordOf (lowByte c)) dst) (wrap (dst + n)) k dst 0) (fun _ => Q) E m) :
    wp (memset k dst c n) (fun r s => r = dst ∧ Q s) E m := by
  unfold memset
  simp only
  rw [Lib.wp_bind]
  refine wp_mono h (fun _ s hs => ?_) (fun _ _ h => h)
  rw [Lib.wp_pure]
  exact ⟨rfl, hs⟩

/-! ## What `strlen` and `strcpy` do -/

/-- The string at `a` has `n` characters. -/
structure StringAt (m : Bytes) (a n : Nat) : Prop where
  chars : ∀ i < n, m (a + i) ≠ 0
  nul : m (a + n) = 0
  low : a + n < 2 ^ 32

theorem strlenFrom_spec {a : Nat} (h : StringAt m a n) (hj : j ≤ n) :
    wp (strlenFrom k (a + j) j) (fun r s => r = n ∧ s = m) (fun _ _ => k ≤ n - j) m := by
  have hlow := h.low
  induction k generalizing j with
  | zero =>
    unfold strlenFrom
    rw [Lib.wp_throw]
    exact Nat.zero_le _
  | succ k ih =>
    unfold strlenFrom
    rw [Lib.wp_bind, Lib.wp_get, wp_ite]
    constructor
    · intro h0
      have hjn : j = n := by
        by_contra hne
        exact h.chars j (by omega) h0
      rw [Lib.wp_pure]
      exact ⟨hjn, rfl⟩
    · intro h0
      have hlt : j < n := by
        by_contra hge
        obtain rfl : j = n := by omega
        exact h0 h.nul
      rw [wrap_of_lt (by omega), Nat.add_assoc]
      exact wp_mono (ih hlt) (fun _ _ h => h) (fun _ _ hk => by omega)

theorem strlen_spec {a : Nat} (h : StringAt m a n) :
    wp (strlen k a) (fun r s => r = n ∧ s = m) (fun _ _ => k ≤ n) m :=
  strlenFrom_spec h (Nat.zero_le n)

/-- Where `strlen` ends there is a `NUL`. -/
theorem strlenFrom_nul {a : Nat} :
    wp (strlenFrom k (wrap (a + j)) j) (fun r s => s = m ∧ (a + r < 2 ^ 32 → m (a + r) = 0))
      (fun _ _ => True) m := by
  induction k generalizing j with
  | zero =>
    unfold strlenFrom
    rw [Lib.wp_throw]
    trivial
  | succ k ih =>
    unfold strlenFrom
    rw [Lib.wp_bind, Lib.wp_get, wp_ite]
    constructor
    · intro h0
      rw [Lib.wp_pure]
      refine ⟨rfl, fun hlow => ?_⟩
      rwa [wrap_of_lt hlow] at h0
    · intro _
      rw [wrap_add]
      exact ih

theorem strcpyFrom_spec (h : StringAt m src n) (hd : dst + n < 2 ^ 32)
    (hapart : dst + n < src ∨ src + n < dst) (hj : j ≤ n) :
    wp (strcpy k (dst + j) (src + j)) (fun _ s => s = m.copy dst m src (n + 1)) (fun _ _ => k ≤ n - j)
      (m.copy dst m src j) := by
  have hlow := h.low
  induction k generalizing j with
  | zero =>
    unfold strcpy
    rw [Lib.wp_throw]
    exact Nat.zero_le _
  | succ k ih =>
    have hsrc : m.copy dst m src j (src + j) = m (src + j) := Bytes.copy_of_ne (by omega)
    have hbyte : m.copy dst m src (j + 1) (dst + j) = m (src + j) := Bytes.copy_of_mem (Nat.lt_succ_self j)
    unfold strcpy copyByte
    rw [Lib.wp_bind, Lib.wp_modify, hsrc, copy_succ, Lib.wp_bind, Lib.wp_get, hbyte, wp_ite]
    constructor
    · intro h0
      have hjn : j = n := by
        by_contra hne
        exact h.chars j (by omega) h0
      rw [Lib.wp_pure, hjn]
    · intro h0
      have hlt : j < n := by
        by_contra hge
        obtain rfl : j = n := by omega
        exact h0 h.nul
      rw [wrap_of_lt (by omega), wrap_of_lt (by omega), Nat.add_assoc, Nat.add_assoc]
      exact wp_mono (ih hlt) (fun _ _ h => h) (fun _ _ hk => by omega)

theorem strcpy_spec (h : StringAt m src n) (hd : dst + n < 2 ^ 32)
    (hapart : dst + n < src ∨ src + n < dst) :
    wp (strcpy k dst src) (fun _ s => s = m.copy dst m src (n + 1)) (fun _ _ => k ≤ n) m := by
  have hspec := strcpyFrom_spec (k := k) h hd hapart (Nat.zero_le n)
  rwa [Bytes.copy_zero] at hspec

/-! ## Where `memcpy` and `memset` are right -/

/-- `memcpy` ends, and in any memory just the `n` bytes at `dst` are those at `src`. -/
def Copies (dst src n : Nat) : Prop :=
  ∀ m : Bytes, ∃ k, memcpy k dst src n m = .ok dst (m.copy dst m src n)

/-- `memset` ends, and in any memory just the `n` bytes at `dst` are `c & 0xff`. -/
def Fills (dst : Nat) (c : Int) (n : Nat) : Prop :=
  ∀ m : Bytes, ∃ k, memset k dst c n m = .ok dst (m.copy dst (fun _ => lowByte c) 0 n)

/-- The range is not close to the end of the addresses, or is the last word. -/
def Clear (dst n : Nat) : Prop := dst + n < 2 ^ 32 - 4 ∨ (dst = 2 ^ 32 - 4 ∧ n = 4)

theorem exists_run {x : Nat → Mem Nat} {r : Nat} {s' s : Bytes} (k : Nat)
    (h : wp (x k) (fun a t => a = r ∧ t = s') (fun _ _ => False) s) : ∃ k, x k s = .ok r s' := by
  obtain ⟨_, _, hrun, rfl, rfl⟩ := Lib.exists_of_wp h
  exact ⟨k, hrun⟩

theorem memcpy_spec (m : Bytes) (hsrc : src < 2 ^ 32) (hs : src + n ≤ 2 ^ 32) (hn : dst + n < 2 ^ 32 - 4)
    (hapart : dst + n ≤ src ∨ src + n ≤ dst) (hk : n < k) :
    wp (memcpy k dst src n) (fun r s => r = dst ∧ s = m.copy dst m src n) (fun _ _ => False) m := by
  by_cases ha : src % 4 = dst % 4
  · apply memcpy_aligned ha
    rw [wrap_of_lt (by omega)]
    exact moveAligned_spec (moves_copy m ha hs hapart) hsrc hn hk
  · exact memcpy_bytes m ha hs (by omega) hapart hsrc hk

theorem copies_of_clear (hsrc : src < 2 ^ 32) (hd : dst < 2 ^ 32) (hs : src + n ≤ 2 ^ 32)
    (ha : src % 4 = dst % 4) (hapart : dst + n ≤ src ∨ src + n ≤ dst) (hclear : Clear dst n) :
    Copies dst src n := by
  intro m
  rcases hclear with hlow | ⟨rfl, rfl⟩
  · exact exists_run (n + 1) (memcpy_spec m hsrc hs hlow hapart (Nat.lt_succ_self n))
  · refine exists_run 2 (memcpy_aligned ha ?_)
    have hmoves := moves_copy m ha hs hapart
    refine wp_mono (moveAligned_top hmoves hsrc hd rfl) (fun _ s h => ?_) (fun _ _ h => by omega)
    rwa [if_pos rfl] at h

theorem fills_of_clear (c : Int) (hd : dst < 2 ^ 32) (hclear : Clear dst n) : Fills dst c n := by
  intro m
  refine exists_run (n + 2) (memset_aligned ?_)
  have hmoves := moves_fill m (lowByte c) dst n
  rcases hclear with hlow | ⟨rfl, rfl⟩
  · rw [wrap_of_lt (by omega)]
    exact moveAligned_spec hmoves (by omega) hlow (by omega)
  · refine wp_mono (moveAligned_top hmoves (by omega) hd rfl) (fun _ s h => ?_) (fun _ _ h => by omega)
    rwa [if_pos rfl] at h

theorem moveAligned_not_clear (h : Moves byte word m m' dst src b n) (hsrc : src < 2 ^ 32)
    (hd : dst < 2 ^ 32) (hn : dst + n ≤ 2 ^ 32) (hnot : ¬ Clear dst n)
    (hfault : ∀ d s x, d % 4 ≠ 0 → wp (word d s) (fun _ _ => False) (fun _ _ => True) x) :
    wp (moveAligned byte word (wrap (dst + n)) k dst src) (fun _ s => dst + n = 2 ^ 32 ∧ s = m)
      (fun _ _ => True) m := by
  unfold Clear at hnot
  by_cases htop : dst + n = 2 ^ 32
  · rw [htop]
    refine wp_mono (moveAligned_top h hsrc hd htop) (fun _ s hs => ?_) (fun _ _ _ => trivial)
    rw [if_neg (by omega)] at hs
    exact ⟨rfl, hs⟩
  · rw [wrap_of_lt (by omega)]
    refine wp_mono (moveAligned_overrun h hsrc (by omega) (by omega) hfault) ?_ (fun _ _ _ => trivial)
    exact fun _ _ hfalse => hfalse.elim

/-- The byte at `src` is the only one that is not zero. -/
def single (src : Nat) : Bytes := Function.update (fun _ => 0) src 1

theorem single_copy_ne (hne : dst ≠ src) (hn : 0 < n) :
    (single src).copy dst (single src) src n ≠ single src := by
  intro h
  have hbyte := congrFun h (dst + 0)
  rw [Bytes.copy_of_mem hn, Nat.add_zero, Nat.add_zero] at hbyte
  unfold single at hbyte
  rw [Function.update_self, Function.update_of_ne hne] at hbyte
  exact absurd hbyte (by decide)

theorem fill_ne (c : UInt8) (hn : 0 < n) :
    Bytes.copy (fun _ => c + 1) dst (fun _ => c) 0 n ≠ fun _ => c + 1 := by
  intro h
  have hbyte := congrArg UInt8.toNat (congrFun h (dst + 0))
  rw [Bytes.copy_of_mem hn, UInt8.toNat_add] at hbyte
  have hlt := c.toNat_lt
  have hone : (1 : UInt8).toNat = 1 := rfl
  omega

theorem clear_of_copies (hsrc : src < 2 ^ 32) (hd : dst < 2 ^ 32) (hs : src + n ≤ 2 ^ 32)
    (hn : dst + n ≤ 2 ^ 32) (ha : src % 4 = dst % 4) (hapart : dst + n ≤ src ∨ src + n ≤ dst)
    (h : Copies dst src n) : Clear dst n := by
  by_contra hnot
  obtain ⟨k, hrun⟩ := h (single src)
  have hend := moveAligned_not_clear (k := k) (moves_copy (single src) ha hs hapart) hsrc hd hn hnot
    fun _ _ x hd => copyWord_fault hd x
  obtain ⟨-, htop, hsame⟩ := Lib.wp_run_ok (memcpy_aligned ha hend) hrun
  exact single_copy_ne (by omega) (by omega) hsame

theorem clear_of_fills (c : Int) (hd : dst < 2 ^ 32) (hn : dst + n ≤ 2 ^ 32) (h : Fills dst c n) :
    Clear dst n := by
  by_contra hnot
  obtain ⟨k, hrun⟩ := h (fun _ => lowByte c + 1)
  have hend := moveAligned_not_clear (k := k) (moves_fill (fun _ => lowByte c + 1) (lowByte c) dst n)
    (Nat.two_pow_pos 32) hd hn hnot fun _ _ x hd => storeWord_fault hd x
  obtain ⟨-, htop, hsame⟩ := Lib.wp_run_ok (memset_aligned hend) hrun
  exact fill_ne (lowByte c) (by omega) hsame

/-- Bytes are copied one by one up to the last address but one. -/
theorem copies_bytes_iff (hsrc : src < 2 ^ 32) (hd : dst < 2 ^ 32) (hs : src + n ≤ 2 ^ 32)
    (hn : dst + n ≤ 2 ^ 32) (ha : src % 4 ≠ dst % 4) (hapart : dst + n ≤ src ∨ src + n ≤ dst) :
    Copies dst src n ↔ dst + n < 2 ^ 32 := by
  constructor
  · intro h
    by_contra hnot
    have htop : dst + n = 2 ^ 32 := by omega
    obtain ⟨k, hrun⟩ := h (single src)
    have hend : wp (memcpy k dst src n) (fun r s => r = dst ∧ s = single src) (fun _ _ => True)
        (single src) := by
      unfold memcpy
      simp only
      rw [if_pos ha, htop, Lib.wp_bind]
      refine wp_mono (moveBytes_none k (single src)) ?_ (fun _ _ _ => trivial)
      rintro _ _ ⟨-, rfl⟩
      rw [Lib.wp_pure]
      exact ⟨rfl, rfl⟩
    obtain ⟨-, hsame⟩ := Lib.wp_run_ok hend hrun
    exact single_copy_ne (by omega) (by omega) hsame
  · intro hlt m
    exact exists_run (n + 1) (memcpy_bytes m ha hs hlt hapart hsrc (Nat.lt_succ_self n))

/-- Both are right on every range, at every alignment, that is not close to the end of the
addresses. -/
theorem copies_fills_iff (dst src n : Nat) (c : Int) (hd : dst < 2 ^ 32) (hn : dst + n ≤ 2 ^ 32)
    (hsrc : src < 2 ^ 32) (hs : src + n ≤ 2 ^ 32) :
    ((dst + n ≤ src ∨ src + n ≤ dst) →
      (Copies dst src n ↔ if src % 4 = dst % 4 then Clear dst n else dst + n < 2 ^ 32)) ∧
      (Fills dst c n ↔ Clear dst n) := by
  refine ⟨fun hapart => ?_, clear_of_fills c hd hn, fills_of_clear c hd⟩
  split
  · rename_i ha
    exact ⟨clear_of_copies hsrc hd hs hn ha hapart, copies_of_clear hsrc hd hs ha hapart⟩
  · rename_i ha
    exact copies_bytes_iff hsrc hd hs hn ha hapart

/-- The last page is neither filled nor copied to. -/
theorem not_copies_fills_last_page :
    ¬ Copies 0xFFFFF000 0x80000000 4096 ∧ ¬ Fills 0xFFFFF000 0 4096 := by
  constructor
  · intro h
    have hclear := clear_of_copies (by omega) (by omega) (by omega) (by omega) (by omega) (by omega) h
    unfold Clear at hclear
    omega
  · intro h
    have hclear := clear_of_fills 0 (by omega) (by omega) h
    unfold Clear at hclear
    omega

theorem copies_fills_low :
    Copies 0x1001 0x2003 5 ∧ Copies 0x1001 0x2001 9 ∧ Fills 0x1001 300 9 := by
  have hodd := copies_fills_iff 0x1001 0x2003 5 300 (by omega) (by omega) (by omega) (by omega)
  have heven := copies_fills_iff 0x1001 0x2001 9 300 (by omega) (by omega) (by omega) (by omega)
  refine ⟨(hodd.1 (by omega)).mpr ?_, (heven.1 (by omega)).mpr ?_, heven.2.mpr (.inl (by omega))⟩
  · rw [if_neg (by omega)]
    omega
  · rw [if_pos (by omega)]
    exact .inl (by omega)

end Mos.Strings
