import Mathlib.Order.Bounds.Basic
import Mos.Fs.Lookup

/-!
# The block allocator (`fs/fs.c`)

What the bitmap stands for is a pool of block numbers: those that are free and those that
have been handed out. `alloc_block_num` and `free_block` call nobody, so a run of them is
a computation on the state of the server.
-/

namespace Mos.Fs

open Lib (Bytes Proc Prog)

/-! ## Pools -/

/-- Free numbers below `n`, and numbers that were taken and not given back. -/
structure Pool (n : Nat) where
  free : Set Nat
  held : Set Nat
  below : ∀ b ∈ free, b < n
  apart : ∀ b ∈ held, b ∉ free

variable {n : Nat}

namespace Pool

def take (p : Pool n) (b : Nat) : Pool n where
  free := p.free \ {b}
  held := insert b p.held
  below x hx := p.below x hx.1
  apart x hx hfree := by
    rcases hx with rfl | hx
    · exact hfree.2 rfl
    · exact p.apart x hx hfree.1

def give (p : Pool n) (b : Nat) (hb : b < n) : Pool n where
  free := insert b p.free
  held := p.held \ {b}
  below x hx := by
    rcases hx with rfl | hx
    · exact hb
    · exact p.below x hx
  apart x hx hfree := by
    rcases hfree with rfl | hfree
    · exact hx.2 rfl
    · exact p.apart x hx.1 hfree

theorem take_free (p : Pool n) (b : Nat) : (p.take b).free = p.free \ {b} := rfl

theorem give_free (p : Pool n) {b : Nat} (hb : b < n) : (p.give b hb).free = insert b p.free := rfl

/-- The numbers that may be taken. -/
def usable (p : Pool n) : Set Nat := {b | b ∈ p.free ∧ 3 ≤ b}

/-- Everything below `n` whose bit is set is free, and nothing has been taken. -/
def ofBits (n : Nat) (bit : Nat → Bool) : Pool n where
  free := {b | b < n ∧ bit b = true}
  held := ∅
  below _ hb := hb.1
  apart _ hb := absurd hb (Set.notMem_empty _)

end Pool

/-- A call of the allocator and what it has returned. -/
inductive Event where
  | alloc (r : Except Err Nat)
  | free (b : Nat)

/-- The calls of a pool: the least usable number is taken; 0 and what lies outside is not given. -/
inductive Pool.Step : Pool n → Event → Pool n → Prop
  | took {p : Pool n} {b : Nat} (h : IsLeast p.usable b) : Step p (.alloc (.ok b)) (p.take b)
  | full {p : Pool n} (h : p.usable = ∅) : Step p (.alloc (.error .noDisk)) p
  | gave {p : Pool n} {b : Nat} (h0 : b ≠ 0) (hb : b < n) : Step p (.free b) (p.give b hb)
  | kept {p : Pool n} {b : Nat} (h : b = 0 ∨ n ≤ b) : Step p (.free b) p

inductive Pool.Steps : Pool n → List Event → Pool n → Prop
  | done (p : Pool n) : Steps p [] p
  | step {p p₁ p' : Pool n} {e : Event} {es : List Event} (h : Step p e p₁) (rest : Steps p₁ es p') :
      Steps p (e :: es) p'

/-! ## The bitmap in memory -/

/-- The super block and the bitmap are in memory, and the disk has `n` blocks. -/
structure Bitmap (n : Nat) (s : Server) : Prop where
  super : s.super = diskAddr 1
  bitmap : s.bitmap = diskAddr 2
  one : s.mapped 1 = true
  bits : ∀ b < n, s.mapped (2 + b / BLOCK_SIZE_BIT) = true
  size : s.mem.word (diskAddr 1 + 4) = n

theorem Mounted.inMemory {s : Server} (h : Mounted n s)
    (hn : s.content.word (diskAddr 1 + 4) = n) : Bitmap n s where
  super := h.super
  bitmap := h.bitmap
  one := h.one
  bits := h.bits
  size := (word_eq_content h.cached_nblocks (by decide)).trans hn

variable {s s' : Server}

theorem returns_loadWord {va : Nat} (h : s.cached va = true) :
    (loadWord va).Returns s (s.mem.word va) s := by
  refine (Prog.returns_get s).bind ?_
  rw [if_pos h]
  exact Prog.returns_pure _ s

theorem returns_storeWord {va : Nat} (v : Nat) (h : s.cached va = true) :
    (storeWord va v).Returns s () (s.setMem (s.mem.setWord va v)) := by
  refine (Prog.returns_get s).bind ?_
  rw [if_pos h]
  exact Prog.returns_set s _

theorem returns_writeBlock {b : Nat} (h : s.mapped b = true) :
    (writeBlock b).Returns s () (s.ideWrite b) := by
  refine (Prog.returns_get s).bind ?_
  rw [if_pos h]
  exact Prog.returns_set s _

namespace Bitmap

theorem cached_bit (h : Bitmap n s) {b : Nat} (hb : b < n) : s.cached (bitAt b) = true := by
  have hbit : BLOCK_SIZE_BIT = 32768 := rfl
  have hmap : DISKMAP = 0x10000000 := rfl
  have hblock : blockOf (bitAt b) = 2 + b / BLOCK_SIZE_BIT := by
    unfold bitAt
    rw [blockOf_eq, diskAddr_eq, hbit]
    omega
  refine cached_iff.mpr ⟨?_, by rw [hblock]; exact h.bits b hb⟩
  unfold bitAt
  rw [diskAddr_eq]
  omega

theorem word_eq (h : Bitmap n s) (b : Nat) : bitmapWord s b = bitAt b := by
  unfold bitmapWord bitAt
  rw [h.bitmap]

theorem returns_nblocks (h : Bitmap n s) : nblocks.Returns s n s := by
  refine (Prog.returns_get s).bind ?_
  have hcached : s.cached (diskAddr 1 + 4) = true :=
    cached_iff.mpr ⟨by decide, by rw [blockOf_add 1 (by omega)]; exact h.one⟩
  rw [h.super, ← h.size]
  exact returns_loadWord hcached

theorem returns_loadBit (h : Bitmap n s) {b : Nat} (hb : b < n) :
    (loadBit b).Returns s (isFree s.mem b) s := by
  refine (Prog.returns_get s).bind ?_
  rw [h.word_eq]
  exact (returns_loadWord (h.cached_bit hb)).bind (Prog.returns_pure _ s)

theorem returns_setBit (h : Bitmap n s) {b : Nat} (hb : b < n) :
    (setBit b).Returns s () (s.setMem (release s.mem b)) := by
  refine (Prog.returns_get s).bind ?_
  rw [h.word_eq]
  exact (returns_loadWord (h.cached_bit hb)).bind (returns_storeWord _ (h.cached_bit hb))

theorem returns_clearBit (h : Bitmap n s) {b : Nat} (hb : b < n) :
    (clearBit b).Returns s () (s.setMem (claim s.mem b)) := by
  refine (Prog.returns_get s).bind ?_
  rw [h.word_eq]
  exact (returns_loadWord (h.cached_bit hb)).bind (returns_storeWord _ (h.cached_bit hb))

theorem of_setWord (h : Bitmap n s) (b v : Nat) : Bitmap n (s.setMem (s.mem.setWord (bitAt b) v)) where
  super := h.super
  bitmap := h.bitmap
  one := h.one
  bits := h.bits
  size := by
    have hfar : diskAddr 1 + 4 + 4 ≤ bitAt b := by
      unfold bitAt
      rw [diskAddr_eq, diskAddr_eq]
      omega
    exact (Lib.Bytes.word_setWord_of_ne _ (by omega)).trans h.size

theorem ideWrite (h : Bitmap n s) (b : Nat) : Bitmap n (s.ideWrite b) :=
  ⟨h.super, h.bitmap, h.one, h.bits, h.size⟩

end Bitmap

/-! ## The two functions -/

/-- The state after the block has been taken: the bit is cleared, and the block of the bitmap that
holds it is on the disk. -/
def Server.taking (s : Server) (b : Nat) : Server :=
  (s.setMem (claim s.mem b)).ideWrite (b / BLOCK_SIZE_BIT + 2)

theorem Bitmap.taking (h : Bitmap n s) (b : Nat) : Bitmap n (s.taking b) :=
  (h.of_setWord b _).ideWrite _

/-- The loop stops at the first block that is free. -/
theorem Bitmap.returns_allocFrom (h : Bitmap n s) {k b : Nat} (hk : k = 0 ∨ k + b = n) :
    ((allocFrom k b).Returns s (.error .noDisk) s ∧
      ∀ x, b ≤ x → x < b + k → isFree s.mem x = false) ∨
    ∃ x, (allocFrom k b).Returns s (.ok x) (s.taking x) ∧ b ≤ x ∧ x < n ∧
      isFree s.mem x = true ∧ ∀ y, b ≤ y → y < x → isFree s.mem y = false := by
  induction k generalizing b with
  | zero => exact Or.inl ⟨Prog.returns_pure _ s, fun x hx hlt => by omega⟩
  | succ k ih =>
    have hb : b < n := by omega
    cases hbit : isFree s.mem b with
    | true =>
      refine Or.inr ⟨b, ?_, Nat.le_refl b, hb, hbit, fun y hy hlt => by omega⟩
      refine (h.returns_loadBit hb).bind ?_
      rw [if_pos hbit]
      have hmapped : (s.setMem (claim s.mem b)).mapped (b / BLOCK_SIZE_BIT + 2) = true := by
        rw [Nat.add_comm]
        exact h.bits b hb
      exact (h.returns_clearBit hb).bind
        ((returns_writeBlock hmapped).bind (Prog.returns_pure _ _))
    | false =>
      have hstep : ∀ r s', (allocFrom k (b + 1)).Returns s r s' →
          (allocFrom (k + 1) b).Returns s r s' := by
        intro r s' hr
        refine (h.returns_loadBit hb).bind ?_
        rw [if_neg (by simp [hbit])]
        exact hr
      have hfirst : ∀ y, b ≤ y → y ≠ b → b + 1 ≤ y := fun y _ _ => by omega
      rcases ih (by omega : k = 0 ∨ k + (b + 1) = n) with ⟨hr, hnone⟩ | ⟨x, hr, hx, hlt, hfree, hleast⟩
      · refine Or.inl ⟨hstep _ _ hr, fun x hx hlt => ?_⟩
        rcases eq_or_ne x b with rfl | hne
        · exact hbit
        · exact hnone x (hfirst x hx hne) (by omega)
      · refine Or.inr ⟨x, hstep _ _ hr, by omega, hlt, hfree, fun y hy hyx => ?_⟩
        rcases eq_or_ne y b with rfl | hne
        · exact hbit
        · exact hleast y (hfirst y hy hne) hyx

theorem Bitmap.returns_allocBlockNum (h : Bitmap n s) :
    (allocBlockNum.Returns s (.error .noDisk) s ∧ ∀ x < n, 3 ≤ x → isFree s.mem x = false) ∨
    ∃ b, allocBlockNum.Returns s (.ok b) (s.taking b) ∧ 3 ≤ b ∧ b < n ∧ isFree s.mem b = true ∧
      ∀ y, 3 ≤ y → y < b → isFree s.mem y = false := by
  rcases h.returns_allocFrom (by omega : n - 3 = 0 ∨ n - 3 + 3 = n) with
    ⟨hr, hnone⟩ | ⟨b, hr, hb⟩
  · exact Or.inl ⟨h.returns_nblocks.bind hr, fun x hx h3 => hnone x h3 (by omega)⟩
  · exact Or.inr ⟨b, h.returns_nblocks.bind hr, hb⟩

/-- The state after `free_block`. -/
def Server.freeing (n : Nat) (s : Server) (b : Nat) : Server :=
  if b = 0 ∨ n ≤ b then s else s.setMem (release s.mem b)

theorem Bitmap.returns_freeBlock (h : Bitmap n s) (b : Nat) :
    (freeBlock b).Returns s () (s.freeing n b) := by
  refine h.returns_nblocks.bind ?_
  unfold Server.freeing
  split_ifs with hb
  · exact Prog.returns_pure _ s
  · exact h.returns_setBit (by omega)

theorem Bitmap.freeing (h : Bitmap n s) (b : Nat) : Bitmap n (s.freeing n b) := by
  unfold Server.freeing
  split_ifs
  · exact h
  · exact h.of_setWord b _

/-! ## Runs -/

inductive AllocCall where
  | alloc
  | free (b : Nat)

/-- A call, with what it has returned. -/
def AllocCall.serve : AllocCall → Serv Event
  | .alloc => do return .alloc (← allocBlockNum)
  | .free b => do
    freeBlock b
    return .free b

def serveAll : List AllocCall → Serv (List Event)
  | [] => return []
  | r :: rs => do
    let e ← r.serve
    return e :: (← serveAll rs)

/-- The bitmap stands for the free numbers of the pool. -/
def Pool.Stands (p : Pool n) (s : Server) : Prop := p.free = {b | b < n ∧ isFree s.mem b = true}

theorem Pool.Stands.usable {p : Pool n} (h : p.Stands s) :
    p.usable = {b | b < n ∧ isFree s.mem b = true ∧ 3 ≤ b} := by
  unfold Pool.usable
  rw [h]
  ext b
  simp [and_assoc]

theorem Pool.Stands.taking {p : Pool n} (h : p.Stands s) (b : Nat) :
    (p.take b).Stands (s.taking b) := by
  have hmem : (s.taking b).mem = claim s.mem b := rfl
  unfold Pool.Stands at h ⊢
  rw [hmem, Pool.take_free, h]
  ext x
  constructor
  · rintro ⟨⟨hx, hfree⟩, hne⟩
    have hbx : b ≠ x := fun hbx => hne hbx.symm
    exact ⟨hx, by simp [isFree_claim, hfree, hbx]⟩
  · rintro ⟨hx, hfree⟩
    rw [isFree_claim, Bool.and_eq_true] at hfree
    refine ⟨⟨hx, hfree.1⟩, ?_⟩
    rintro rfl
    simp at hfree

theorem Pool.Stands.freeing {p : Pool n} (h : p.Stands s) {b : Nat} (h0 : b ≠ 0) (hb : b < n) :
    (p.give b hb).Stands (s.freeing n b) := by
  unfold Server.freeing
  rw [if_neg (by omega)]
  have hmem : (s.setMem (release s.mem b)).mem = release s.mem b := rfl
  unfold Pool.Stands at h ⊢
  rw [hmem, Pool.give_free, h]
  ext x
  constructor
  · rintro (rfl | ⟨hx, hfree⟩)
    · exact ⟨hb, by simp [isFree_release]⟩
    · exact ⟨hx, by simp [isFree_release, hfree]⟩
  · rintro ⟨hx, hfree⟩
    rw [isFree_release, Bool.or_eq_true, decide_eq_true_eq] at hfree
    rcases hfree with hfree | rfl
    · exact Or.inr ⟨hx, hfree⟩
    · exact Or.inl rfl

/-- A call of the allocator is one of the pool. -/
theorem Bitmap.simulates (h : Bitmap n s) {p : Pool n} (hp : p.Stands s) (r : AllocCall) :
    ∃ e s' p', r.serve.Returns s e s' ∧ p.Step e p' ∧ Bitmap n s' ∧ p'.Stands s' := by
  cases r with
  | alloc =>
    rcases h.returns_allocBlockNum with ⟨hr, hnone⟩ | ⟨b, hr, h3, hb, hfree, hleast⟩
    · refine ⟨_, s, p, hr.bind (Prog.returns_pure _ s), .full ?_, h, hp⟩
      rw [hp.usable]
      refine Set.eq_empty_of_forall_notMem fun x ⟨hx, hfree, h3⟩ => ?_
      exact absurd hfree (by simp [hnone x hx h3])
    · refine ⟨_, _, p.take b, hr.bind (Prog.returns_pure _ _), .took ?_, h.taking b, hp.taking b⟩
      rw [hp.usable]
      refine ⟨⟨hb, hfree, h3⟩, fun y ⟨_, hy, hy3⟩ => ?_⟩
      by_contra hlt
      exact absurd hy (by simp [hleast y hy3 (by omega)])
  | free b =>
    have hr := h.returns_freeBlock b
    by_cases hb : b = 0 ∨ n ≤ b
    · refine ⟨_, _, p, hr.bind (Prog.returns_pure _ _), .kept hb, h.freeing b, ?_⟩
      unfold Server.freeing
      rw [if_pos hb]
      exact hp
    · have h0 : b ≠ 0 := fun h0 => hb (Or.inl h0)
      have hlt : b < n := Nat.lt_of_not_le fun hle => hb (Or.inr hle)
      exact ⟨_, _, p.give b hlt, hr.bind (Prog.returns_pure _ _), .gave h0 hlt, h.freeing b,
        hp.freeing h0 hlt⟩

theorem Bitmap.simulates_all (h : Bitmap n s) {p : Pool n} (hp : p.Stands s) (rs : List AllocCall) :
    ∃ es s' p', (serveAll rs).Returns s es s' ∧ p.Steps es p' ∧ Bitmap n s' ∧ p'.Stands s' := by
  induction rs generalizing s p with
  | nil => exact ⟨[], s, p, Prog.returns_pure _ s, .done p, h, hp⟩
  | cons r rs ih =>
    obtain ⟨e, s₁, p₁, hr, hstep, h₁, hp₁⟩ := h.simulates hp r
    obtain ⟨es, s', p', hrs, hsteps, h', hp'⟩ := ih h₁ hp₁
    exact ⟨e :: es, s', p', hr.bind (hrs.bind (Prog.returns_pure _ _)), .step hstep hsteps, h', hp'⟩

/-! ## What a call changes -/

/-- The bit of `b` has changed and its block of the bitmap is on the disk. -/
structure Synced (b : Nat) (s s' : Server) : Prop where
  bits : ∀ x, x ≠ b → isFree s'.mem x = isFree s.mem x
  mem : ∀ a, a < bitAt b ∨ bitAt b + 4 ≤ a → s'.mem a = s.mem a
  holds : diskAddr (b / BLOCK_SIZE_BIT + 2) ≤ bitAt b ∧
    bitAt b + 4 ≤ diskAddr (b / BLOCK_SIZE_BIT + 2) + BLOCK_SIZE
  written : ∀ i < BLOCK_SIZE, s'.disk ((b / BLOCK_SIZE_BIT + 2) * BLOCK_SIZE + i) =
    s'.mem (diskAddr (b / BLOCK_SIZE_BIT + 2) + i)
  disk : ∀ a, a / BLOCK_SIZE ≠ b / BLOCK_SIZE_BIT + 2 → s'.disk a = s.disk a

theorem synced_taking (s : Server) (b : Nat) : Synced b s (s.taking b) := by
  have hbit : BLOCK_SIZE_BIT = 32768 := rfl
  have hblock : BLOCK_SIZE = 4096 := rfl
  have hmem : (s.taking b).mem = claim s.mem b := rfl
  have hdisk : (s.taking b).disk = s.disk.copy ((b / BLOCK_SIZE_BIT + 2) * BLOCK_SIZE)
    (claim s.mem b) (diskAddr (b / BLOCK_SIZE_BIT + 2)) BLOCK_SIZE := rfl
  constructor
  · intro x hx
    rw [hmem, isFree_claim, decide_eq_false (Ne.symm hx), Bool.not_false, Bool.and_true]
  · intro a ha
    rw [hmem]
    exact Lib.Bytes.setWord_of_ne (by omega)
  · unfold bitAt
    rw [diskAddr_eq, diskAddr_eq, hbit, hblock]
    omega
  · intro i hi
    rw [hdisk, hmem]
    unfold Lib.Bytes.copy
    rw [if_pos (by omega), Nat.add_sub_cancel_left]
  · intro a ha
    rw [hdisk]
    unfold Lib.Bytes.copy
    rw [if_neg]
    rw [hblock] at ha ⊢
    omega

/-- In every run from any bitmap the free bits are the free numbers of the pool. Wherever the run has
got to, `alloc_block_num` takes the least of them from 3 on, which is not held, and syncs its block
of the bitmap, or there is none; and `free_block` gives a valid number back. -/
theorem block_allocator (h : Bitmap n s) (calls : List AllocCall) :
    ∃ es s' p, (serveAll calls).Returns s es s' ∧ (Pool.ofBits n (isFree s.mem)).Steps es p ∧
      p.free = {b | b < n ∧ isFree s'.mem b = true} ∧
      ((allocBlockNum.Returns s' (.error .noDisk) s' ∧ p.usable = ∅) ∨
        ∃ b s'', allocBlockNum.Returns s' (.ok b) s'' ∧ IsLeast p.usable b ∧ b ∉ p.held ∧
          isFree s''.mem b = false ∧ Synced b s' s'') ∧
      ∀ b, ∃ s'', (freeBlock b).Returns s' () s'' ∧ s''.disk = s'.disk ∧
        ∀ x, isFree s''.mem x = (isFree s'.mem x || decide (x = b ∧ b ≠ 0 ∧ b < n)) := by
  obtain ⟨es, s', p, hrun, hsteps, h', hp⟩ :=
    h.simulates_all (p := Pool.ofBits n (isFree s.mem)) rfl calls
  refine ⟨es, s', p, hrun, hsteps, hp, ?_, fun b => ⟨_, h'.returns_freeBlock b, ?_, fun x => ?_⟩⟩
  · rcases h'.returns_allocBlockNum with ⟨hr, hnone⟩ | ⟨b, hr, h3, hb, hfree, hleast⟩
    · refine Or.inl ⟨hr, ?_⟩
      rw [hp.usable]
      refine Set.eq_empty_of_forall_notMem fun x ⟨hx, hfree, h3⟩ => ?_
      exact absurd hfree (by simp [hnone x hx h3])
    · have hmem : b ∈ p.usable := hp.usable ▸ ⟨hb, hfree, h3⟩
      refine Or.inr ⟨b, _, hr, ⟨hmem, fun y hy => ?_⟩, fun hheld => p.apart b hheld hmem.1, ?_,
        synced_taking s' b⟩
      · rw [hp.usable] at hy
        by_contra hlt
        exact absurd hy.2.1 (by simp [hleast y hy.2.2 (by omega)])
      · exact (isFree_claim s'.mem b b).trans (by simp)
  · unfold Server.freeing
    split_ifs <;> rfl
  · unfold Server.freeing
    split_ifs with hb
    · have hno : ¬ (x = b ∧ b ≠ 0 ∧ b < n) := by omega
      rw [decide_eq_false hno, Bool.or_false]
    · refine (isFree_release s'.mem b x).trans ?_
      congr 1
      rw [decide_eq_decide]
      omega

/-- The first free block of an empty image is taken, block 7 is given back, and a block is taken. -/
theorem block_allocator_fresh : ∃ es s' p,
    (serveAll [.alloc, .free 7, .alloc]).Returns fresh es s' ∧
      (Pool.ofBits 1024 (isFree fresh.mem)).Steps es p := by
  have hn : fresh.content.word (diskAddr 1 + 4) = 1024 := by decide +kernel
  obtain ⟨es, s', p, hrun, hsteps, -⟩ :=
    block_allocator (ready_fresh.toMounted.inMemory hn) [.alloc, .free 7, .alloc]
  exact ⟨es, s', p, hrun, hsteps⟩

end Mos.Fs
