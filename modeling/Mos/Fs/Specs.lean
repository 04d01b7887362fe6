import Mos.Fs.Edit
import Mos.Fs.Effects

/-!
# What the functions of the server do

Each function is a sequence of edits of the contents of the blocks. Under a condition on
the marks of a run the functions on files do not stop, apart from two assertions.
-/

namespace Mos.Fs

open Lib (Bytes Proc Prog Cond provided)
open Lib.Proc (Trace World)

/-! ## The server -/

/-- The super block and the bitmap are in memory, and so is every file that is open. -/
structure Mounted (n : Nat) (s : Server) : Prop where
  super : s.super = diskAddr 1
  bitmap : s.bitmap = diskAddr 2
  one : s.mapped 1 = true
  bits : ∀ b < n, s.mapped (2 + b / BLOCK_SIZE_BIT) = true
  files : ∀ i, (s.opentab i).o_file ≠ 0 → s.cached (s.opentab i).o_file = true

structure Ready (n : Nat) (Z : Set Nat) (s : Server) : Prop extends Mounted n s where
  sound : Sound n Z s.content

theorem Kept.mounted {n : Nat} {s s' : Server} (h : Kept s s') (hs : Mounted n s) : Mounted n s' where
  super := h.super.trans hs.super
  bitmap := h.bitmap.trans hs.bitmap
  one := h.mapped hs.one
  bits := fun b hb => h.mapped (hs.bits b hb)
  files := by
    intro i hi
    rw [h.opentab] at hi ⊢
    exact h.cached (hs.files i hi)

/-! ## Contents -/

theorem cached_iff {s : Server} {a : Nat} :
    s.cached a = true ↔ DISKMAP ≤ a ∧ s.mapped (blockOf a) = true := by
  unfold Server.cached
  rw [Bool.and_eq_true, decide_eq_true_eq]

theorem cached_add {s : Server} {a k : Nat} (h : s.cached a = true)
    (hk : blockOf (a + k) = blockOf a) : s.cached (a + k) = true := by
  rw [cached_iff] at h ⊢
  exact ⟨Nat.le_trans h.1 (Nat.le_add_right ..), by rw [hk]; exact h.2⟩

theorem blockOf_word {a i : Nat} (ha : a % 4 = 0) (hi : i < 4) (hle : DISKMAP ≤ a) :
    blockOf (a + i) = blockOf a := by
  have : DISKMAP = 0x10000000 := rfl
  rw [blockOf_eq, blockOf_eq]
  omega

theorem mem_eq_content {s : Server} {a : Nat} (h : s.cached a = true) : s.mem a = s.content a := by
  unfold Server.content
  rw [if_pos h]

theorem cached_word {s : Server} {a k : Nat} (h : s.cached a = true) (ha : a % 4 = 0) (hk : k < 4) :
    s.cached (a + k) = true := cached_add h (blockOf_word ha hk (cached_iff.mp h).1)

theorem word_eq_content {s : Server} {a : Nat} (h : s.cached a = true) (ha : a % 4 = 0) :
    s.mem.word a = s.content.word a := by
  refine Lib.Bytes.word_congr fun i hi1 hi2 => mem_eq_content ?_
  obtain ⟨k, rfl⟩ := Nat.exists_eq_add_of_le hi1
  exact cached_word h ha (by omega)

theorem content_setMem {s : Server} {m c : Bytes} (hin : ∀ x, s.cached x = true → m x = c x)
    (hout : ∀ x, s.cached x = false → c x = s.content x) : (s.setMem m).content = c := by
  funext x
  unfold Server.content
  show (if s.cached x = true then m x else s.stored x) = c x
  split
  · exact hin x ‹_›
  · rename_i hx
    have := hout x (by simpa using hx)
    unfold Server.content at this
    rw [this, if_neg hx]

theorem content_setWord {s : Server} {a : Nat} (v : Nat) (h : s.cached a = true) (ha : a % 4 = 0) :
    (s.setMem (s.mem.setWord a v)).content = s.content.setWord a v := by
  refine content_setMem (fun x hx => ?_) fun x hx => Lib.Bytes.setWord_of_ne ?_
  · unfold Lib.Bytes.setWord
    rw [mem_eq_content hx]
  · by_contra hin
    obtain ⟨k, rfl⟩ := Nat.exists_eq_add_of_le (show a ≤ x by omega)
    rw [cached_word h ha (by omega)] at hx
    exact absurd hx (by simp)

theorem content_setList {s : Server} {a : Nat} {l : List UInt8}
    (h : ∀ k < l.length, s.cached (a + k) = true) :
    (s.setMem (s.mem.setList a l)).content = s.content.setList a l := by
  refine content_setMem (fun x hx => ?_) fun x hx => Lib.Bytes.setList_of_ne ?_
  · unfold Lib.Bytes.setList
    rw [mem_eq_content hx]
  · by_contra hin
    obtain ⟨k, rfl⟩ := Nat.exists_eq_add_of_le (show a ≤ x by omega)
    rw [h k (by omega)] at hx
    exact absurd hx (by simp)

theorem page_iff {a b : Nat} :
    DISKMAP ≤ a ∧ blockOf a = b ↔ diskAddr b ≤ a ∧ a < diskAddr b + 4096 := by
  have hmap : DISKMAP = 0x10000000 := rfl
  rw [blockOf_eq, diskAddr_eq]
  omega

theorem cached_mapZero {s : Server} {b x : Nat} :
    (s.mapZero b).cached x = (decide (DISKMAP ≤ x ∧ blockOf x = b) || s.cached x) := by
  unfold Server.cached Server.mapZero
  by_cases hx : blockOf x = b <;> by_cases hd : DISKMAP ≤ x <;> simp [hx, hd]

theorem content_mapZero (s : Server) (b : Nat) :
    (s.mapZero b).content = zeroPage s.content b := by
  funext x
  unfold Server.content
  rw [cached_mapZero]
  by_cases hx : DISKMAP ≤ x ∧ blockOf x = b
  · obtain ⟨h1, h2⟩ := page_iff.mp hx
    rw [zeroPage_self h1 h2, decide_eq_true hx, Bool.true_or, if_pos rfl]
    exact zeroPage_self (c := s.mem) h1 h2
  · have hout := (not_congr page_iff).mp hx
    have hmem : (s.mapZero b).mem x = s.mem x := zeroPage_of_ne (c := s.mem) (by omega)
    rw [zeroPage_of_ne (by omega), decide_eq_false hx, Bool.false_or, hmem]
    rfl

/-- Reading a block that is not in memory changes no contents. -/
theorem content_read (s : Server) {b : Nat} (hm : s.mapped b = false) :
    ((s.mapZero b).ideRead b).content = s.content := by
  have h4096 : BLOCK_SIZE = 4096 := rfl
  have hmap : DISKMAP = 0x10000000 := rfl
  have hcached : ∀ x, ((s.mapZero b).ideRead b).cached x = (s.mapZero b).cached x := fun _ => rfl
  funext x
  unfold Server.content
  rw [hcached, cached_mapZero]
  by_cases hx : DISKMAP ≤ x ∧ blockOf x = b
  · obtain ⟨h1, h2⟩ := page_iff.mp hx
    have hnot : s.cached x = false := by
      unfold Server.cached
      rw [hx.2, hm, Bool.and_false]
    rw [decide_eq_true hx, Bool.true_or, if_pos rfl, hnot, if_neg (by simp)]
    unfold Server.ideRead Server.mapZero Lib.Bytes.copy Server.stored
    simp only
    rw [if_pos (by omega), if_pos hx.1]
    refine congrArg s.disk ?_
    rw [diskAddr_eq] at h1 h2 ⊢
    rw [h4096, hmap]
    omega
  · have hout := (not_congr page_iff).mp hx
    have hcopy : ∀ (m m' : Bytes) k, m.copy (diskAddr b) m' k BLOCK_SIZE x = m x := by
      intro m m' k
      unfold Lib.Bytes.copy
      rw [if_neg (by omega)]
    rw [decide_eq_false hx, Bool.false_or]
    unfold Server.ideRead Server.mapZero Server.stored
    simp only [hcopy]

theorem content_ideWrite {s : Server} {b : Nat} (hm : s.mapped b = true) :
    (s.ideWrite b).content = s.content := by
  have h4096 : BLOCK_SIZE = 4096 := rfl
  have hmap : DISKMAP = 0x10000000 := rfl
  funext x
  unfold Server.content
  show (if s.cached x = true then s.mem x else (s.ideWrite b).stored x) = _
  split
  · rfl
  · rename_i hx
    unfold Server.stored Server.ideWrite Lib.Bytes.copy
    simp only
    split
    · rename_i hd
      rw [if_neg]
      intro hin
      refine hx (cached_iff.mpr ⟨hd, ?_⟩)
      rw [h4096] at hin
      have hb : blockOf x = b := by
        rw [blockOf_eq]
        omega
      rw [hb, hm]
    · rfl

/-! ## Memory -/

section

variable {M : Cond Call Reply} {E : Stop → Server → Trace Call Reply → Prop} {s : Server}
  {t : Trace Call Reply}

theorem provided_loadWord {va : Nat} {Q : Nat → Server → Trace Call Reply → Prop}
    (hc : s.cached va = true) (ha : va % 4 = 0) :
    provided M (loadWord va) Q E s t ↔ (M.Holds t → Q (s.content.word va) s t) := by
  unfold loadWord
  simp [Lib.provided_bind, Lib.provided_get, Lib.provided_pure, hc, word_eq_content hc ha]

/-- A word of the memory is set. -/
def Server.put (s : Server) (a v : Nat) : Server := s.setMem (s.mem.setWord a v)

theorem provided_storeWord {va v : Nat} {Q : Unit → Server → Trace Call Reply → Prop}
    (hc : s.cached va = true) :
    provided M (storeWord va v) Q E s t ↔ (M.Holds t → Q () (s.put va v) t) := by
  unfold storeWord
  simp [Lib.provided_bind, Lib.provided_get, Lib.provided_set, hc, Server.put]

theorem provided_storeList {va : Nat} {l : List UInt8} {Q : Unit → Server → Trace Call Reply → Prop}
    (hc : s.cached va = true) :
    provided M (storeList va l) Q E s t ↔ (M.Holds t → Q () (s.setMem (s.mem.setList va l)) t) := by
  unfold storeList
  simp [Lib.provided_bind, Lib.provided_get, Lib.provided_set, hc]

theorem provided_mark {m : Mark} {Q : Unit → Server → Trace Call Reply → Prop} :
    provided M (mark m) Q E s t ↔
      (M.Holds (t ++ [⟨.mark m s.content, ()⟩]) → Q () s (t ++ [⟨.mark m s.content, ()⟩])) := by
  unfold mark
  simp only [Lib.provided_bind, Lib.provided_get, Lib.provided_call]
  exact ⟨fun h hm => h (M.closed hm) () hm, fun h _ _ => h⟩

/-! ## Blocks -/

theorem provided_writeBlock {b : Nat} {Q : Unit → Server → Trace Call Reply → Prop}
    (hm : s.mapped b = true) :
    provided M (writeBlock b) Q E s t ↔ (M.Holds t → Q () (s.ideWrite b) t) := by
  unfold writeBlock
  simp [Lib.provided_bind, Lib.provided_get, Lib.provided_set, hm]

variable {n : Nat}

theorem Mounted.cached_nblocks (hs : Mounted n s) : s.cached (diskAddr 1 + 4) = true :=
  cached_iff.mpr ⟨by decide, by rw [blockOf_add 1 (by omega)]; exact hs.one⟩

theorem Mounted.cached_bit (hs : Mounted n s) {b : Nat} (hb : b < n) : s.cached (bitAt b) = true := by
  have h1 : BLOCK_SIZE_BIT = 32768 := rfl
  have h2 : DISKMAP = 0x10000000 := rfl
  have hblk : blockOf (bitAt b) = 2 + b / BLOCK_SIZE_BIT := by
    unfold bitAt
    rw [blockOf_eq, diskAddr_eq, h1]
    omega
  refine cached_iff.mpr ⟨?_, by rw [hblk]; exact hs.bits b hb⟩
  unfold bitAt
  rw [diskAddr_eq]
  omega

theorem provided_nblocks (hs : Mounted n s) {Q : Nat → Server → Trace Call Reply → Prop} :
    provided M nblocks Q E s t ↔ (M.Holds t → Q (s.content.word (diskAddr 1 + 4)) s t) := by
  unfold nblocks
  rw [Lib.provided_bind, Lib.provided_get, hs.super, provided_loadWord hs.cached_nblocks (by decide)]
  exact ⟨fun h ht => h ht ht, fun h ht _ => h ht⟩

theorem bitmapWord_eq (hs : Mounted n s) (b : Nat) : bitmapWord s b = bitAt b := by
  unfold bitmapWord bitAt
  rw [hs.bitmap]

theorem provided_loadBit (hs : Mounted n s) {b : Nat} (hb : b < n)
    {Q : Bool → Server → Trace Call Reply → Prop} :
    provided M (loadBit b) Q E s t ↔ (M.Holds t → Q (isFree s.content b) s t) := by
  unfold loadBit
  simp only [Lib.provided_bind, Lib.provided_get, bitmapWord_eq hs, Lib.provided_pure,
    provided_loadWord (hs.cached_bit hb) (bitAt_mod b)]
  exact ⟨fun h ht => h ht ht ht, fun h ht _ _ => h ht⟩

/-- The state after `setBit`. -/
def Server.released (s : Server) (b : Nat) : Server :=
  s.put (bitAt b) (s.content.word (bitAt b) ||| 1 <<< (b % 32))

/-- The state after `clearBit`. -/
def Server.claimed (s : Server) (b : Nat) : Server :=
  s.put (bitAt b) (s.content.word (bitAt b) &&& (2 ^ 32 - 1 - 1 <<< (b % 32)))

theorem provided_setBit (hs : Mounted n s) {b : Nat} (hb : b < n)
    {Q : Unit → Server → Trace Call Reply → Prop} :
    provided M (setBit b) Q E s t ↔ (M.Holds t → Q () (s.released b) t) := by
  unfold setBit
  simp only [Lib.provided_bind, Lib.provided_get, bitmapWord_eq hs,
    provided_loadWord (hs.cached_bit hb) (bitAt_mod b), provided_storeWord (hs.cached_bit hb)]
  exact ⟨fun h ht => h ht ht ht, fun h ht _ _ => h ht⟩

theorem provided_clearBit (hs : Mounted n s) {b : Nat} (hb : b < n)
    {Q : Unit → Server → Trace Call Reply → Prop} :
    provided M (clearBit b) Q E s t ↔ (M.Holds t → Q () (s.claimed b) t) := by
  unfold clearBit
  simp only [Lib.provided_bind, Lib.provided_get, bitmapWord_eq hs,
    provided_loadWord (hs.cached_bit hb) (bitAt_mod b), provided_storeWord (hs.cached_bit hb)]
  exact ⟨fun h ht => h ht ht ht, fun h ht _ _ => h ht⟩

theorem content_put {a v : Nat} (hc : s.cached a = true) (ha : a % 4 = 0) :
    (s.put a v).content = s.content.setWord a v := content_setWord v hc ha

theorem kept_put (s : Server) (a v : Nat) : Kept s (s.put a v) := kept_setMem s _

theorem content_released (hs : Mounted n s) {b : Nat} (hb : b < n) :
    (s.released b).content = release s.content b := content_put (hs.cached_bit hb) (bitAt_mod b)

theorem content_claimed (hs : Mounted n s) {b : Nat} (hb : b < n) :
    (s.claimed b).content = claim s.content b := content_put (hs.cached_bit hb) (bitAt_mod b)

theorem provided_freeBlock (hs : Mounted n s) (hn : s.content.word (diskAddr 1 + 4) = n) {b : Nat}
    (h0 : b ≠ 0) (hb : b < n) {Q : Unit → Server → Trace Call Reply → Prop} :
    provided M (freeBlock b) Q E s t ↔ (M.Holds t → Q () (s.released b) t) := by
  unfold freeBlock
  rw [Lib.provided_bind, provided_nblocks hs, hn, if_neg (by omega), provided_setBit hs hb]
  exact ⟨fun h ht => h ht ht, fun h ht _ => h ht⟩

theorem Mounted.super_ne (hs : Mounted n s) : s.super ≠ 0 := by
  rw [hs.super]
  decide

theorem provided_isNonexistent (hs : Mounted n s) (hn : s.content.word (diskAddr 1 + 4) = n) {b : Nat}
    (hb : b < n) {Q : Bool → Server → Trace Call Reply → Prop} :
    provided M (isNonexistent b) Q E s t ↔ (M.Holds t → Q false s t) := by
  have hdec : decide (b ≥ n) = false := decide_eq_false (Nat.not_le_of_lt hb)
  unfold isNonexistent
  rw [Lib.provided_bind, Lib.provided_get, if_neg hs.super_ne, Lib.provided_bind, provided_nblocks hs,
    hn, Lib.provided_pure, hdec]
  exact ⟨fun h ht => h ht ht ht, fun h ht _ _ => h ht⟩

theorem provided_isKnownFree (hs : Mounted n s) (hn : s.content.word (diskAddr 1 + 4) = n) {b : Nat}
    (hb : b < n) {Q : Bool → Server → Trace Call Reply → Prop} :
    provided M (isKnownFree b) Q E s t ↔ (M.Holds t → Q (isFree s.content b) s t) := by
  have hbitmap : s.bitmap ≠ 0 := by
    rw [hs.bitmap]
    decide
  unfold isKnownFree blockIsFree
  rw [Lib.provided_bind, Lib.provided_get, if_neg hbitmap, Lib.provided_bind, Lib.provided_get,
    if_neg hs.super_ne, Lib.provided_bind, provided_nblocks hs, hn, if_neg (Nat.not_le_of_lt hb),
    provided_loadBit hs hb]
  exact ⟨fun h ht => h ht ht ht ht, fun h ht _ _ _ => h ht⟩

/-- The block is in memory and the contents are as before. -/
structure Loaded (b : Nat) (s s' : Server) : Prop where
  kept : Kept s s'
  content : s'.content = s.content
  mapped : s'.mapped b = true

theorem kept_read (s : Server) (b : Nat) : Kept s ((s.mapZero b).ideRead b) :=
  (kept_mapZero s b).trans (kept_ideRead _ b)

theorem mapped_mapZero (s : Server) (b : Nat) : (s.mapZero b).mapped b = true :=
  Function.update_self ..

theorem loadBlock_spec (s : Server) (t : Trace Call Reply) (b : Nat) :
    provided M (loadBlock b)
      (fun r s' t' => match r with
        | .ok blk => blk = diskAddr b ∧ Loaded b s s'
        | .error e => s' = s ∧ t' = t ++ [⟨.memAlloc (diskAddr b), .error e⟩] ∧ s.mapped b = false)
      E s t := by
  unfold loadBlock
  rw [Lib.provided_bind, Lib.provided_get]
  intro _
  rw [Lib.provided_ite]
  constructor
  · intro hm
    rw [Lib.provided_pure]
    exact fun _ => ⟨rfl, Kept.refl s, rfl, hm⟩
  · intro hm
    rw [Lib.provided_bind, Lib.provided_call]
    rintro (e | u) _
    · rw [Lib.provided_pure]
      exact fun _ => ⟨rfl, rfl, by simpa using hm⟩
    · simp only [Lib.provided_bind, Lib.provided_modify, Lib.provided_pure]
      exact fun _ _ => ⟨trivial, kept_read s b, content_read s (by simpa using hm), mapped_mapZero s b⟩

theorem readBlock_spec (hs : Mounted n s) (hn : s.content.word (diskAddr 1 + 4) = n) {b : Nat}
    (hb : b < n) (hused : isFree s.content b = false) :
    provided M (readBlock b)
      (fun r s' t' => match r with
        | .ok blk => blk = diskAddr b ∧ Loaded b s s'
        | .error e => s' = s ∧ t' = t ++ [⟨.memAlloc (diskAddr b), .error e⟩] ∧ s.mapped b = false)
      E s t := by
  unfold readBlock
  rw [Lib.provided_bind, provided_isNonexistent hs hn hb]
  intro _
  rw [if_neg (by simp), Lib.provided_bind, provided_isKnownFree hs hn hb, hused]
  intro _
  rw [if_neg (by simp)]
  exact loadBlock_spec s t b

/-- What is left of a block that a file may get: it is taken, from the bitmap and with a page. -/
structure Took (n b : Nat) (s s' : Server) : Prop where
  kept : Kept s s'
  range : InRange n b
  free : isFree s.content b = true
  content : ∃ fresh, s'.content = taken s.content b fresh
  mapped : s'.mapped b = true

theorem mapBlock_spec (s : Server) (t : Trace Call Reply) (b : Nat) :
    provided M (mapBlock b)
      (fun r s' t' => match r with
        | .ok () => Kept s s' ∧ s'.mapped b = true ∧
          (s'.content = s.content ∨ s'.content = zeroPage s.content b)
        | .error e => s' = s ∧ t' = t ++ [⟨.memAlloc (diskAddr b), .error e⟩])
      E s t := by
  unfold mapBlock
  rw [Lib.provided_bind, Lib.provided_get]
  intro _
  rw [Lib.provided_ite]
  constructor
  · intro hm
    rw [Lib.provided_pure]
    exact fun _ => ⟨Kept.refl s, hm, Or.inl rfl⟩
  · intro hm
    rw [Lib.provided_bind, Lib.provided_call]
    rintro (e | u) _
    · simp [Lib.provided_pure]
    · simp only [Lib.provided_bind, Lib.provided_modify, Lib.provided_pure]
      exact fun _ _ => ⟨kept_mapZero s b, mapped_mapZero s b, Or.inr (content_mapZero s b)⟩

/-- The loop takes the first free block. -/
theorem allocFrom_spec (hs : Mounted n s) {k b : Nat} (hk : k = 0 ∨ k + b ≤ n) :
    provided M (allocFrom k b)
      (fun r s' t' => t' = t ∧ match r with
        | .ok b' => Kept s s' ∧ b ≤ b' ∧ b' < n ∧ isFree s.content b' = true ∧
          s'.content = claim s.content b'
        | .error _ => s' = s)
      E s t := by
  induction k generalizing b with
  | zero =>
    unfold allocFrom
    rw [Lib.provided_pure]
    exact fun _ => ⟨rfl, rfl⟩
  | succ k ih =>
    have hb : b < n := by omega
    unfold allocFrom
    rw [Lib.provided_bind, provided_loadBit hs hb]
    intro _
    rw [Lib.provided_ite]
    constructor
    · intro hfree
      have hmounted : Mounted n (s.claimed b) := (kept_put s _ _).mounted hs
      have hbit : (s.claimed b).mapped (b / BLOCK_SIZE_BIT + 2) = true := by
        rw [Nat.add_comm]
        exact hmounted.bits b hb
      rw [Lib.provided_bind, provided_clearBit hs hb]
      intro _
      rw [Lib.provided_bind, provided_writeBlock hbit, Lib.provided_pure]
      refine fun _ _ => ⟨rfl, (kept_put s _ _).trans (kept_ideWrite _ _), Nat.le_refl _, hb, hfree, ?_⟩
      rw [content_ideWrite hbit, content_claimed hs hb]
    · intro _
      refine Lib.provided_mono (ih (by omega)) (fun r s' t' _ h => ⟨h.1, ?_⟩) fun _ _ _ _ => id
      rcases r with e | b'
      · exact h.2
      · exact ⟨h.2.1, by omega, h.2.2.2⟩

/-- The super block and the bitmap are in order. -/
structure Base (n : Nat) (c : Bytes) : Prop where
  blocks : c.word (diskAddr 1 + 4) = n
  small : n ≤ 2 ^ 18
  reserved : ∀ b < n, b < 3 + n / BLOCK_SIZE_BIT → isFree c b = false

theorem Sound.base {Z : Set Nat} {c : Bytes} (h : Sound n Z c) : Base n c :=
  ⟨h.blocks, h.small, h.reserved⟩

theorem Base.in_range {c : Bytes} (h : Base n c) {b : Nat} (hb : b < n)
    (hfree : isFree c b = true) : InRange n b := by
  refine ⟨?_, hb⟩
  by_contra hlt
  have := h.reserved b hb (by omega)
  rw [hfree] at this
  exact absurd this (by simp)

/-- A block is taken, or the contents are as before. -/
theorem allocBlock_spec (hs : Mounted n s) (hbase : Base n s.content) :
    provided M allocBlock
      (fun r s' _ => match r with
        | .ok b => Took n b s s'
        | .error _ => Kept s s' ∧ s'.content = s.content)
      E s t := by
  unfold allocBlock allocBlockNum
  rw [Lib.provided_bind, Lib.provided_bind, provided_nblocks hs, hbase.blocks]
  intro _
  refine Lib.provided_mono (allocFrom_spec hs (by omega)) (fun r s₁ t₁ _ h => ?_) fun _ _ _ _ => id
  obtain ⟨-, h⟩ := h
  rcases r with e | b
  · rw [Lib.provided_pure]
    exact fun _ => ⟨h ▸ Kept.refl s, by rw [h]⟩
  · obtain ⟨hk, h3, hb, hfree, hc⟩ := h
    have hrange := hbase.in_range hb hfree
    have hs₁ := hk.mounted hs
    have hn₁ : s₁.content.word (diskAddr 1 + 4) = n := by
      have hbit := bitAt_lt hb hrange
      have h12 : diskAddr 1 + 4096 = diskAddr 2 := rfl
      rw [hc]
      unfold claim
      rw [Lib.Bytes.word_setWord_of_ne _ (by omega), hbase.blocks]
    rw [Lib.provided_bind]
    refine Lib.provided_mono (mapBlock_spec s₁ t₁ b) (fun r s₂ t₂ _ h => ?_) fun _ _ _ _ => id
    rcases r with e | u
    · -- The block is given back.
      obtain ⟨rfl, -⟩ := h
      rw [Lib.provided_bind, provided_freeBlock hs₁ hn₁ (by omega) hb, Lib.provided_pure]
      refine fun _ _ => ⟨hk.trans (kept_put _ _ _), ?_⟩
      rw [content_released hs₁ hb, hc, release_claim hfree]
    · obtain ⟨hk₂, hm, hz⟩ := h
      rw [Lib.provided_pure]
      refine fun _ => ⟨hk.trans hk₂, hrange, hfree, ?_, hm⟩
      rcases hz with hz | hz
      · exact ⟨false, by rw [hz, hc]; rfl⟩
      · exact ⟨true, by rw [hz, hc]; rfl⟩

end

end Mos.Fs
