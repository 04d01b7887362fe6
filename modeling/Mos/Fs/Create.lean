import Mos.Fs.Lookup

/-!
# Creating files

A directory with a free `struct File` takes a new file. Otherwise it has to grow, and its
size is raised before a block is looked for.
-/

namespace Mos.Fs

open Lib (Bytes Proc Prog Cond provided)
open Lib.Proc (Trace World)

/-! ## What the growth of a file leaves alone -/

/-- The `struct File` at `f` is in memory, and apart from the bitmap and from free blocks. -/
structure Anchored (n f : Nat) (s : Server) : Prop where
  mounted : Mounted n s
  base : Base n s.content
  cached : ∀ k < 256, s.cached (f + k) = true
  aligned : f % 4 = 0
  above : diskAddr 1 + 8 ≤ f
  bitmap : ∀ b < n, bitAt b + 4 ≤ f ∨ f + 256 ≤ bitAt b
  off : ∀ b, InRange n b → isFree s.content b = true → f + 256 ≤ diskAddr b ∨ diskAddr b + 4096 ≤ f

/-- `f` is still anchored, and its size is as it was in the contents `c`. -/
structure Steady (n f : Nat) (c : Bytes) (s : Server) : Prop where
  anchored : Anchored n f s
  size : s.content.word (sizeAt f) = c.word (sizeAt f)

/-- A word that is not in the super block, the bitmap or the size of `f`. -/
structure Elsewhere (n f p : Nat) : Prop where
  aligned : p % 4 = 0
  above : diskAddr 1 + 8 ≤ p
  bitmap : ∀ b < n, bitAt b + 4 ≤ p ∨ p + 4 ≤ bitAt b
  size : p + 4 ≤ sizeAt f ∨ sizeAt f + 4 ≤ p

section

variable {n f : Nat} {s : Server} {c : Bytes}

theorem Ready.anchored (hs : Ready n ∅ s) (hf : IsFile s.content ∅ f) (hc : s.cached f = true) :
    Anchored n f s := by
  obtain ⟨own, dep, ho⟩ := hs.sound.tree
  have hseat := ho.seat hf
  refine ⟨hs.toMounted, hs.sound.base, fun k hk => hs.file_word hf hc hk, hs.file_mod hf,
    hseat.bounds.1, fun b hb => hseat.off_bitmap hb, fun b hb hfree => ?_⟩
  exact ho.off_free (hs.sound.grantable hb hfree fun z hz => absurd hz (Set.notMem_empty z)) hf

theorem Anchored.of_intact {s' : Server} (h : Anchored n f s) (hin : Intact s s') : Anchored n f s' where
  mounted := hin.kept.mounted h.mounted
  base := hin.content ▸ h.base
  cached := fun k hk => hin.kept.cached (h.cached k hk)
  aligned := h.aligned
  above := h.above
  bitmap := h.bitmap
  off := hin.content ▸ h.off

theorem Steady.of_intact {s' : Server} (h : Steady n f c s) (hin : Intact s s') : Steady n f c s' :=
  ⟨h.anchored.of_intact hin, hin.content ▸ h.size⟩

theorem isFree_setWord {p v b : Nat} (h : bitAt b + 4 ≤ p ∨ p + 4 ≤ bitAt b) :
    isFree (c.setWord p v) b = isFree c b := by
  unfold isFree
  rw [Lib.Bytes.word_setWord_of_ne v h]

theorem Anchored.put (h : Anchored n f s) {p : Nat} (v : Nat) (hp : s.cached p = true)
    (haligned : p % 4 = 0) (habove : diskAddr 1 + 8 ≤ p)
    (hbits : ∀ b < n, bitAt b + 4 ≤ p ∨ p + 4 ≤ bitAt b) : Anchored n f (s.put p v) := by
  have hcontent := content_put (v := v) hp haligned
  refine ⟨(kept_put s p v).mounted h.mounted, ⟨?_, h.base.small, ?_⟩,
    fun k hk => (kept_put s p v).cached (h.cached k hk), h.aligned, h.above, h.bitmap, ?_⟩
  · rw [hcontent, Lib.Bytes.word_setWord_of_ne v (by omega), h.base.blocks]
  · intro b hb hlt
    rw [hcontent, isFree_setWord (hbits b hb)]
    exact h.base.reserved b hb hlt
  · intro b hb hfree
    rw [hcontent, isFree_setWord (hbits b hb.2)] at hfree
    exact h.off b hb hfree

theorem Steady.put (h : Steady n f c s) {p : Nat} (v : Nat) (hp : s.cached p = true)
    (helse : Elsewhere n f p) : Steady n f c (s.put p v) := by
  refine ⟨h.anchored.put v hp helse.aligned helse.above helse.bitmap, ?_⟩
  rw [content_put hp helse.aligned, Lib.Bytes.word_setWord_of_ne v (by have := helse.size; omega), h.size]

theorem isFree_taken {b x : Nat} {fresh : Bool} (hb : InRange n b) (hx : x < n) :
    isFree (taken c b fresh) x = (isFree c x && !decide (b = x)) := by
  have hpage := (bitAt_lt hx hb).2
  rw [← isFree_claim]
  unfold taken isFree
  split
  · rw [Lib.Bytes.word_congr fun i h1 h2 => zeroPage_of_ne (by omega)]
  · rfl

/-- A block is taken. -/
theorem Steady.took {s' : Server} {b : Nat} (h : Steady n f c s) (ht : Took n b s s') :
    Steady n f c s' := by
  obtain ⟨fresh, hcontent⟩ := ht.content
  have hoff := h.anchored.off b ht.range ht.free
  have hthree := ht.range.three_le
  have hbit := bitAt_lt ht.range.2 ht.range
  have hbitmap := h.anchored.bitmap b ht.range.2
  have h12 : diskAddr 1 + 4096 = diskAddr 2 := rfl
  refine ⟨⟨ht.kept.mounted h.anchored.mounted, ⟨?_, h.anchored.base.small, ?_⟩,
    fun k hk => ht.kept.cached (h.anchored.cached k hk), h.anchored.aligned, h.anchored.above,
    h.anchored.bitmap, ?_⟩, ?_⟩
  · rw [hcontent, word_taken (by omega) (by omega), h.anchored.base.blocks]
  · intro x hx hlt
    rw [hcontent, isFree_taken ht.range hx, h.anchored.base.reserved x hx hlt, Bool.false_and]
  · intro x hx hfree
    rw [hcontent, isFree_taken ht.range hx.2, Bool.and_eq_true] at hfree
    exact h.anchored.off x hx hfree.1
  · have hsize : sizeAt f = f + 128 := rfl
    rw [hcontent, word_taken (by omega) (by omega), h.size]

theorem Anchored.elsewhere_field (h : Anchored n f s) {k : Nat} (h1 : 136 ≤ k) (h2 : k + 4 ≤ 256)
    (hk : k % 4 = 0) : Elsewhere n f (f + k) := by
  have hsize : sizeAt f = f + 128 := rfl
  have habove := h.above
  have haligned := h.aligned
  refine ⟨by omega, by omega, fun b hb => ?_, by omega⟩
  have := h.bitmap b hb
  omega

theorem elsewhere_entry {r i : Nat} (hr : InRange n r)
    (hoff : f + 256 ≤ diskAddr r ∨ diskAddr r + 4096 ≤ f) (hi : i < 1024) :
    Elsewhere n f (diskAddr r + 4 * i) := by
  have hsize : sizeAt f = f + 128 := rfl
  have hthree := hr.three_le
  have heq := diskAddr_eq r
  have hone : diskAddr 1 = 0x10000000 + 4096 := rfl
  refine ⟨by omega, by omega, fun b hb => ?_, by omega⟩
  have := (bitAt_lt hb hr).2
  omega

/-! ## The growth of a file -/

section

variable {t : Trace Call Reply}

/-- The index block is apart from the file. -/
def IndexApart (n f : Nat) (c : Bytes) : Prop :=
  InRange n (c.word (indirectAt f)) ∧ (f + 256 ≤ diskAddr (c.word (indirectAt f)) ∨
    diskAddr (c.word (indirectAt f)) + 4096 ≤ f)

/-- `f` is still anchored with its size, and so is its index block if there is one. -/
structure Settled (n f : Nat) (c : Bytes) (s : Server) : Prop extends Steady n f c s where
  index : s.content.word (indirectAt f) ≠ 0 → IndexApart n f s.content

theorem Settled.of_index (h : Settled n f c s) {s' : Server} (hs : Steady n f c s')
    (hidx : s'.content.word (indirectAt f) = s.content.word (indirectAt f)) : Settled n f c s' := by
  refine ⟨hs, fun hne => ?_⟩
  rw [hidx] at hne
  have := h.index hne
  unfold IndexApart at this ⊢
  rwa [hidx]

theorem Settled.of_intact (h : Settled n f c s) {s' : Server} (hin : Intact s s') :
    Settled n f c s' :=
  h.of_index (h.toSteady.of_intact hin) (by rw [hin.content])

theorem Settled.put (h : Settled n f c s) {p : Nat} (v : Nat) (hp : s.cached p = true)
    (helse : Elsewhere n f p) (hidx : p + 4 ≤ indirectAt f ∨ indirectAt f + 4 ≤ p) :
    Settled n f c (s.put p v) := by
  refine h.of_index (h.toSteady.put v hp helse) ?_
  rw [content_put hp helse.aligned, Lib.Bytes.word_setWord_of_ne v (by omega)]

/-- A stop is not looked at. -/
abbrev AnyStop : Stop → Server → Trace Call Reply → Prop := fun _ _ _ => True

theorem readBlock_intact (hs : Mounted n s) (hn : s.content.word (diskAddr 1 + 4) = n) (b : Nat) :
    provided memory (readBlock b)
      (fun r s' _ => Intact s s' ∧ ∀ blk, r = .ok blk → blk = diskAddr b ∧ s'.mapped b = true)
      AnyStop s t := by
  by_cases hb : b < n
  · unfold readBlock
    rw [Lib.provided_bind, provided_isNonexistent hs hn hb]
    intro _
    rw [if_neg (by simp), Lib.provided_bind, provided_isKnownFree hs hn hb]
    intro _
    rw [Lib.provided_ite]
    refine ⟨fun _ => by rw [Lib.provided_throw]; exact fun _ => trivial, fun _ => ?_⟩
    refine Lib.provided_mono (loadBlock_spec s t b) (fun r s' t' _ h => ?_) fun _ _ _ _ => id
    rcases r with e | blk
    · exact ⟨h.1 ▸ .refl s, fun _ h => nomatch h⟩
    · exact ⟨h.2.intact, fun _ heq => Except.ok.inj heq ▸ ⟨h.1, h.2.mapped⟩⟩
  · have hdec : decide (b ≥ n) = true := decide_eq_true (Nat.le_of_not_lt hb)
    unfold readBlock isNonexistent
    rw [Lib.provided_bind, Lib.provided_bind, Lib.provided_get, if_neg hs.super_ne, Lib.provided_bind,
      provided_nblocks hs, hn, Lib.provided_pure, hdec, if_pos rfl, Lib.provided_throw]
    exact fun _ _ _ _ => trivial

theorem Settled.took (h : Settled n f c s) {s' : Server} {b : Nat} (ht : Took n b s s') :
    Settled n f c s' := by
  obtain ⟨fresh, hcontent⟩ := ht.content
  have hoff := h.anchored.off b ht.range ht.free
  have hbitmap := h.anchored.bitmap b ht.range.2
  have hidx : indirectAt f = f + 176 := rfl
  refine h.of_index (h.toSteady.took ht) ?_
  rw [hcontent, word_taken (by omega) (by omega)]

theorem allocBlock_settled (h : Settled n f c s) :
    provided memory allocBlock
      (fun r s' _ => Settled n f c s' ∧ Kept s s' ∧ ∀ b, r = .ok b → InRange n b ∧
        (f + 256 ≤ diskAddr b ∨ diskAddr b + 4096 ≤ f))
      AnyStop s t := by
  refine Lib.provided_mono (allocBlock_spec h.anchored.mounted h.anchored.base)
    (fun r s' t' _ hr => ?_) fun _ _ _ _ => id
  rcases r with e | b
  · exact ⟨h.of_intact ⟨hr.1, hr.2⟩, hr.1, fun _ h => nomatch h⟩
  · exact ⟨h.took hr, hr.kept, fun _ heq => Except.ok.inj heq ▸ ⟨hr.range, h.anchored.off b hr.range hr.free⟩⟩

theorem indirectBlock_settled (h : Settled n f c s) :
    provided memory (indirectBlock f true)
      (fun r s' _ => Settled n f c s' ∧ (r = .ok () → IndexApart n f s'.content))
      AnyStop s t := by
  have hword : s.cached (indirectAt f) = true := h.anchored.cached 176 (by omega)
  have hmod : indirectAt f % 4 = 0 := by
    have := h.anchored.aligned
    unfold indirectAt
    omega
  unfold indirectBlock
  rw [Lib.provided_bind, provided_loadWord hword hmod]
  intro _
  by_cases hzero : s.content.word (indirectAt f) = 0
  · rw [if_pos hzero, if_neg (by simp), Lib.provided_bind]
    refine Lib.provided_mono (allocBlock_settled h) (fun r s₁ t₁ _ h₁ => ?_) fun _ _ _ _ => id
    rcases r with e | r
    · rw [Lib.provided_pure]
      exact fun _ => ⟨h₁.1, fun h => nomatch h⟩
    · obtain ⟨h₁, -, hr⟩ := h₁
      obtain ⟨hrange, hoff⟩ := hr r rfl
      have hword₁ : s₁.cached (indirectAt f) = true := h₁.anchored.cached 176 (by omega)
      have hsmall := h₁.anchored.base.small
      have hlt : r < 2 ^ 32 := by
        have := hrange.2
        omega
      have hfield := h₁.anchored.elsewhere_field (k := 176) (by omega) (by omega) (by omega)
      simp only
      rw [Lib.provided_bind, provided_mark]
      intro _
      rw [Lib.provided_bind, provided_storeWord hword₁, Lib.provided_pure]
      have hnew : (s₁.put (indirectAt f) r).content.word (indirectAt f) = r := by
        rw [content_put hword₁ hmod, Lib.Bytes.word_setWord_self, Nat.mod_eq_of_lt hlt]
      have hapart : IndexApart n f (s₁.put (indirectAt f) r).content := by
        unfold IndexApart
        rw [hnew]
        exact ⟨hrange, hoff⟩
      exact fun _ _ => ⟨⟨h₁.toSteady.put r hword₁ hfield, fun _ => hapart⟩, fun _ => hapart⟩
  · rw [if_neg hzero, Lib.provided_pure]
    exact fun _ => ⟨h, fun _ => h.index hzero⟩

theorem fileBlockWalk_settled (h : Settled n f c s) (i : Nat) :
    provided memory (fileBlockWalk f i true)
      (fun r s' _ => Settled n f c s' ∧ ∀ p, r = .ok p → Elsewhere n f p ∧ s'.cached p = true ∧
        (p + 4 ≤ indirectAt f ∨ indirectAt f + 4 ≤ p))
      AnyStop s t := by
  have hindirect : indirectAt f = f + 176 := rfl
  unfold fileBlockWalk
  by_cases hi : i < NDIRECT
  · have hi10 : i < 10 := hi
    rw [if_pos hi, Lib.provided_pure]
    refine fun _ => ⟨h, fun p hp => ?_⟩
    obtain rfl := Except.ok.inj hp
    unfold directAt
    rw [Nat.add_assoc]
    exact ⟨h.anchored.elsewhere_field (by omega) (by omega) (by omega),
      h.anchored.cached _ (by omega), by omega⟩
  · rw [if_neg hi]
    by_cases hlt : i < NINDIRECT
    · have hi1024 : i < 1024 := hlt
      rw [if_pos hlt, Lib.provided_bind]
      refine Lib.provided_mono (indirectBlock_settled h) (fun r s₁ t₁ _ h₁ => ?_)
        fun _ _ _ _ => id
      rcases r with e | u
      · rw [Lib.provided_pure]
        exact fun _ => ⟨h₁.1, fun _ h => nomatch h⟩
      · obtain ⟨h₁, hidx₁⟩ := h₁
        obtain ⟨hrange, hoff⟩ := hidx₁ rfl
        have hmod : indirectAt f % 4 = 0 := by
          have := h₁.anchored.aligned
          unfold indirectAt
          omega
        have hword : s₁.cached (indirectAt f) = true := h₁.anchored.cached 176 (by omega)
        simp only
        rw [Lib.provided_bind, provided_loadWord hword hmod]
        intro _
        rw [Lib.provided_bind]
        refine Lib.provided_mono (readBlock_intact h₁.anchored.mounted h₁.anchored.base.blocks _)
          (fun r s₂ t₂ _ h₂ => ?_) fun _ _ _ _ => id
        rcases r with e | blk
        · rw [Lib.provided_pure]
          exact fun _ => ⟨h₁.of_intact h₂.1, fun _ h => nomatch h⟩
        · obtain ⟨hin, hblk⟩ := h₂
          obtain ⟨rfl, hm⟩ := hblk blk rfl
          rw [Lib.provided_pure]
          refine fun _ => ⟨h₁.of_intact hin, fun p hp => ?_⟩
          obtain rfl := Except.ok.inj hp
          refine ⟨elsewhere_entry hrange hoff hi1024, cached_iff.mpr ⟨?_, ?_⟩, by omega⟩
          · rw [diskAddr_eq]
            exact Nat.le_trans (Nat.le_add_right ..) (Nat.le_add_right ..)
          · rw [blockOf_add _ (by omega)]
            exact hm
    · rw [if_neg hlt, Lib.provided_pure]
      exact fun _ => ⟨h, fun _ h => nomatch h⟩

/-- Whatever becomes of a block more, the size of the file stays. -/
theorem fileGetBlock_settled (h : Settled n f c s) (i : Nat) :
    provided memory (fileGetBlock f i) (fun _ s' _ => Settled n f c s') AnyStop s t := by
  unfold fileGetBlock fileMapBlock
  rw [Lib.provided_bind, Lib.provided_bind]
  refine Lib.provided_mono (fileBlockWalk_settled h i) (fun r s₁ t₁ _ h₁ => ?_) fun _ _ _ _ => id
  have hread : ∀ (b : Nat) (s₂ : Server) (t₂ : Trace Call Reply), Settled n f c s₂ →
      provided memory (readBlock b) (fun _ s' _ => Settled n f c s') AnyStop s₂ t₂ := fun b s₂ t₂ h₂ =>
    Lib.provided_mono (readBlock_intact h₂.anchored.mounted h₂.anchored.base.blocks b)
      (fun _ _ _ _ hr => h₂.of_intact hr.1) fun _ _ _ _ => id
  rcases r with e | p
  · rw [Lib.provided_pure]
    intro _
    rw [Lib.provided_pure]
    exact fun _ => h₁.1
  · obtain ⟨h₁, hp⟩ := h₁
    obtain ⟨helse, hcached, hidx⟩ := hp p rfl
    simp only
    rw [Lib.provided_bind, provided_loadWord hcached helse.aligned]
    intro _
    by_cases hzero : s₁.content.word p = 0
    · rw [if_pos hzero, if_neg (by simp), Lib.provided_bind]
      refine Lib.provided_mono (allocBlock_settled h₁) (fun r s₂ t₂ _ h₂ => ?_) fun _ _ _ _ => id
      rcases r with e | b
      · rw [Lib.provided_pure]
        intro _
        rw [Lib.provided_pure]
        exact fun _ => h₂.1
      · obtain ⟨h₂, hk, -⟩ := h₂
        have hcached₂ := hk.cached hcached
        simp only
        rw [Lib.provided_bind, provided_mark]
        intro _
        rw [Lib.provided_bind, provided_storeWord hcached₂, Lib.provided_pure]
        exact fun _ _ => hread _ _ _ (h₂.put b hcached₂ helse hidx)
    · rw [if_neg hzero, Lib.provided_pure]
      exact fun _ => hread _ _ _ h₁

/-- The size of the directory is raised, whether there is a block or not. -/
theorem growDir_spec (h : Anchored n f s)
    (hidx : s.content.word (indirectAt f) ≠ 0 → IndexApart n f s.content) (i : Nat) :
    provided memory (growDir f i)
      (fun _ s' _ => s'.content.word (sizeAt f) =
        (s.content.word (sizeAt f) + BLOCK_SIZE) % 2 ^ 32)
      AnyStop s t := by
  have hword : s.cached (sizeAt f) = true := h.cached 128 (by omega)
  have hmod : sizeAt f % 4 = 0 := by
    have := h.aligned
    unfold sizeAt
    omega
  have hsize : sizeAt f = f + 128 := rfl
  have habove := h.above
  unfold growDir setSize
  rw [Lib.provided_bind, provided_loadWord hword hmod]
  intro _
  rw [Lib.provided_bind, Lib.provided_bind, provided_mark]
  intro _
  rw [provided_storeWord hword]
  intro _
  have hanchored := h.put (s.content.word (sizeAt f) + BLOCK_SIZE) hword hmod (by omega) fun b hb => by
    have := h.bitmap b hb
    omega
  have hsame : (s.put (sizeAt f) (s.content.word (sizeAt f) + BLOCK_SIZE)).content.word (indirectAt f) =
      s.content.word (indirectAt f) := by
    rw [content_put hword hmod, Lib.Bytes.word_setWord_of_ne]
    unfold indirectAt
    omega
  have hnew : (s.put (sizeAt f) (s.content.word (sizeAt f) + BLOCK_SIZE)).content.word (sizeAt f) =
      (s.content.word (sizeAt f) + BLOCK_SIZE) % 2 ^ 32 := by
    rw [content_put hword hmod, Lib.Bytes.word_setWord_self]
  refine Lib.provided_mono (fileGetBlock_settled (i := i) ⟨⟨hanchored, rfl⟩, fun hne => ?_⟩)
    (fun _ _ _ _ hr => hr.size.trans hnew) fun _ _ _ _ => id
  unfold IndexApart at hidx ⊢
  rw [hsame] at hne ⊢
  exact hidx hne

theorem freeFile_none {b : Nat} (hm : s.mapped b = true) (h : s.freeFile (diskAddr b) = none) :
    ∀ j < FILE2BLK, s.content (fileAt (diskAddr b) j) ≠ 0 := by
  intro j hj hzero
  unfold Server.freeFile at h
  rw [Option.map_eq_none_iff, List.find?_eq_none] at h
  refine h j (List.mem_range.mpr hj) ?_
  have hcached : s.cached (fileAt (diskAddr b) j) = true := cached_slot hm hj (k := 0) (by omega)
  rw [mem_eq_content hcached, beq_iff_eq]
  exact hzero

/-- The directory has no `struct File` left if there is none in its blocks, which are in memory. -/
theorem allocFileFrom_spec {dir : Nat} (hs : Ready n ∅ s) (hd : IsFile s.content ∅ dir)
    (hc : s.cached dir = true) {k i : Nat}
    (hheld : ∀ i' < i + k, heldBlock s.content dir (.block i') ≠ 0)
    (hmem : ∀ i' < i + k, InMemory s dir i') :
    provided memory (allocFileFrom dir k i)
      (fun r s' _ => ∀ e, r = .error e →
        (∀ i', i ≤ i' → i' < i + k → ∀ j < FILE2BLK,
          s.content (fileAt (diskAddr (heldBlock s.content dir (.block i'))) j) ≠ 0) ∧
        s'.content.word (sizeAt dir) = (s.content.word (sizeAt dir) + BLOCK_SIZE) % 2 ^ 32)
      AnyStop s t := by
  induction k generalizing i s t with
  | zero =>
    unfold allocFileFrom
    obtain ⟨own, dep, ho⟩ := hs.sound.tree
    refine Lib.provided_mono (growDir_spec (hs.anchored hd hc) (fun hne => ?_) i)
      (fun r s' t' _ hr e _ => ⟨fun i' h1 h2 => absurd h2 (by omega), hr⟩) fun _ _ _ _ => id
    obtain ⟨hown, hrange⟩ := ho.index hd hne
    exact ⟨hrange, (ho.seat hd).off_index hown hrange⟩
  | succ k ih =>
    have hi : i < i + (k + 1) := by omega
    unfold allocFileFrom
    rw [Lib.provided_bind]
    refine Lib.provided_mono (fileGetBlock_spec hs hd hc (hheld i hi)) (fun r s₁ t₁ _ h => ?_)
      fun _ _ _ _ => id
    rcases r with e | blk
    · exact absurd (hmem i hi) h.2.2
    · obtain ⟨hin, rfl, hmem₁⟩ := h
      have hm := hmem₁.block
      rw [hin.content] at hm
      simp only
      rw [Lib.provided_bind, Lib.provided_get]
      intro _
      rcases hfree : s₁.freeFile (diskAddr (heldBlock s.content dir (.block i))) with _ | f
      · have hfull := freeFile_none hm hfree
        rw [hin.content] at hfull
        have hgoal := ih (t := t₁) (hin.ready hs) (hin.content ▸ hd) (hin.kept.cached hc) (i := i + 1)
          (fun i' hi' => hin.content ▸ hheld i' (by omega))
          fun i' hi' => hin.inMemory (hmem i' (by omega))
        rw [hin.content] at hgoal
        refine Lib.provided_mono hgoal (fun r s' t' _ h e he => ⟨fun i' h1 h2 => ?_, (h e he).2⟩)
          fun _ _ _ _ => id
        by_cases heq : i' = i
        · exact heq ▸ hfull
        · exact (h e he).1 i' (by omega) (by omega)
      · simp only
        rw [Lib.provided_pure]
        exact fun _ _ he => nomatch he

/-! ## Failed creation -/

/-- A `struct File` of the directory is free. -/
def HasSlot (c : Bytes) (d : Nat) : Prop :=
  ∃ i < c.word (sizeAt d) / BLOCK_SIZE, ∃ j < FILE2BLK,
    c (fileAt (diskAddr (heldBlock c d (.block i))) j) = 0

theorem dirAllocFile_spec {dir : Nat} (hs : Ready n ∅ s) (hd : IsFile s.content ∅ dir)
    (hc : s.cached dir = true)
    (hheld : ∀ i < s.content.word (sizeAt dir) / BLOCK_SIZE, heldBlock s.content dir (.block i) ≠ 0)
    (hmem : ∀ i < s.content.word (sizeAt dir) / BLOCK_SIZE, InMemory s dir i) :
    provided memory (dirAllocFile dir)
      (fun r s' _ => ∀ e, r = .error e → ¬ HasSlot s.content dir ∧
        s'.content.word (sizeAt dir) = (s.content.word (sizeAt dir) + BLOCK_SIZE) % 2 ^ 32)
      AnyStop s t := by
  have hword : s.cached (sizeAt dir) = true := hs.file_word hd hc (by omega)
  have hmod := hs.file_mod hd
  unfold dirAllocFile
  rw [Lib.provided_bind, provided_loadWord hword (by unfold sizeAt; omega)]
  intro _
  refine Lib.provided_mono (allocFileFrom_spec hs hd hc (fun i hi => hheld i (by omega))
    fun i hi => hmem i (by omega)) (fun r s' t' _ h e he => ⟨?_, (h e he).2⟩) fun _ _ _ _ => id
  rintro ⟨i, hi, j, hj, hzero⟩
  exact (h e he).1 i (Nat.zero_le i) (by omega) j hj hzero

/-- Every directory has its size and its entries, up to the pointers that lead back to directories,
and every path leads where it led. -/
structure Untouched (c c' : Bytes) : Prop where
  size : ∀ d, IsFile c ∅ d → c'.word (sizeAt d) = c.word (sizeAt d)
  entries : ∀ d, IsFile c ∅ d → c.word (typeAt d) = FTYPE_DIR →
    ∀ i < c.word (sizeAt d) / BLOCK_SIZE,
      heldBlock c' d (.block i) = heldBlock c d (.block i) ∧ ∀ j < FILE2BLK, ∀ k < 256,
        k < 180 ∨ 184 ≤ k → c' (fileAt (diskAddr (heldBlock c d (.block i))) j + k) =
          c (fileAt (diskAddr (heldBlock c d (.block i))) j + k)
  walks : ∀ path, resolve c' (components path) = resolve c (components path)

theorem SameFiles.untouched {c' : Bytes} (h : SameFiles n ∅ c c') (hn : NoHoles ∅ c) :
    Untouched c c' where
  size := fun _ hd => h.size hd
  entries := fun d hd ht i hi => ⟨h.alike.held _ hd, fun _ hj k hk hk' =>
    h.bytes _ (.slot hd ht (hn d hd ht i hi) hj) k hk hk'⟩
  walks := fun _ => h.resolve hn _

/-- The file cannot be created for lack of a block, and not for lack of memory. -/
def DiskFull (n : Nat) (c : Bytes) (path : Name) (t : Trace Call Reply) : Prop :=
  (∃ d name, resolve c (components path) = .missing d name ∧ ¬ HasSlot c d) ∧
    (∀ b < n, isFree c b = false) ∧ ∀ va e, ⟨.memAlloc va, .error e⟩ ∉ t

/-- The directory of a new file has a free `struct File`, or there is no memory for the walk there. -/
def Roomy (w : World Call Reply) (s : Server) (path : Name) : Prop :=
  ∀ d name, resolve s.content (components path) = .missing d name →
    HasSlot s.content d ∨ ((walkPath path).run w s).2.1 = .ok (.failed .noMem)

end

end

theorem raised_ne (x : Nat) : (x + BLOCK_SIZE) % 2 ^ 32 ≠ x := by
  have h : BLOCK_SIZE = 4096 := rfl
  omega

/-- The part of `file_create` after the walk, in the directory where the name is missing. -/
theorem createIn_spec {n : Nat} {s : Server} {t : Trace Call Reply} {dir mode : Nat} {name : Name}
    (hs : Ready n ∅ s) (hn : NoHoles ∅ s.content) (hd : IsFile s.content ∅ dir)
    (ht : s.content.word (typeAt dir) = FTYPE_DIR) (hm : Walk.Cached s (.missing dir name)) :
    provided memory
      (do
        match ← dirAllocFile dir with
        | .error _ => return .error .notFound
        | .ok f =>
          fillFile f mode name
          return .ok f)
      (fun (r : Except Err Nat) s' _ => ∀ e, r = .error e → ¬ HasSlot s.content dir ∧
        s'.content.word (sizeAt dir) = (s.content.word (sizeAt dir) + BLOCK_SIZE) % 2 ^ 32)
      AnyStop s t := by
  rw [Lib.provided_bind]
  refine Lib.provided_mono (dirAllocFile_spec hs hd hm.1 (hn dir hd ht) hm.2)
    (fun r s₁ t₁ _ h => ?_) fun _ _ _ _ => id
  rcases r with e | f
  · rw [Lib.provided_pure]
    exact fun _ _ _ => h e rfl
  · simp only
    rw [Lib.provided_bind]
    refine Lib.provided_mono (Lib.provided_any _) (fun _ s₂ t₂ _ _ => ?_) fun _ _ _ _ => id
    rw [Lib.provided_pure]
    exact fun _ _ he => nomatch he

theorem SameFiles.hasSlot {n : Nat} {c c' : Bytes} (h : SameFiles n ∅ c c') (hn : NoHoles ∅ c)
    {d : Nat} (hd : IsFile c ∅ d) (ht : c.word (typeAt d) = FTYPE_DIR) :
    HasSlot c' d ↔ HasSlot c d := by
  have hbyte : ∀ i < c.word (sizeAt d) / BLOCK_SIZE, ∀ j < FILE2BLK,
      c' (fileAt (diskAddr (heldBlock c d (.block i))) j) =
        c (fileAt (diskAddr (heldBlock c d (.block i))) j) := fun i hi j hj =>
    h.bytes _ (.slot hd ht (hn d hd ht i hi) hj) 0 (by omega) (by omega)
  unfold HasSlot
  rw [h.size hd]
  constructor <;>
  · rintro ⟨i, hi, j, hj, hzero⟩
    refine ⟨i, hi, j, hj, ?_⟩
    first
      | rwa [h.alike.held _ hd, hbyte i hi j hj] at hzero
      | rwa [h.alike.held _ hd, hbyte i hi j hj]

/-- A creation that fails leaves the tree as it was exactly if the directory does not have to grow. -/
theorem create_failure_iff {n : Nat} {s s' : Server} {w : World Call Reply} {t : Trace Call Reply}
    {mode : Nat} {path : Name} {e : Err} (hs : Ready n ∅ s) (hn : NoHoles ∅ s.content)
    (hrun : (fileCreate mode path).run w s = (t, .ok (.error e), s')) (ht : memory.Holds t) :
    (Untouched s.content s'.content ∧ (DiskFull n s.content path t → e = .noDisk)) ↔
      Roomy w s path := by
  have hnil : memory.Holds [] := fun _ he => nomatch he
  unfold fileCreate at hrun
  unfold Roomy
  rcases hwalk : (walkPath path).run w s with ⟨t₁, x, s₁⟩
  rcases x with stop | r
  · rw [Lib.Prog.run_bind_error hwalk] at hrun
    exact absurd (congrArg (·.2.1) hrun) (by simp)
  · rw [Lib.Prog.run_bind hwalk] at hrun
    have ht₁ : memory.Holds t₁ := (Lib.provided_part (Lib.provided_any _) hrun ht).1
    obtain ⟨hk, hl, hmeans⟩ := Lib.provided_run_ok
      (walkPath_spec (E := fun _ _ _ => False) hs hn path) hwalk hnil ht₁
    have hsame := hl.same hs.sound
    rcases r with ⟨parent, file⟩ | ⟨dir, name⟩ | e'
    · have heq : (t₁, Except.ok (Except.error Err.fileExists), s₁) = (t, .ok (.error e), s') := hrun
      cases heq
      rcases hmeans with ⟨hres, -⟩ | ⟨hres, -⟩
      · rw [← hres]
        refine iff_of_true ⟨hsame.untouched hn, fun hfull => ?_⟩ fun d name h => nomatch h
        obtain ⟨⟨d, name, h, -⟩, -⟩ := hfull
        rw [← hres] at h
        exact nomatch h
      · exact nomatch hres
    · rcases hmeans with ⟨hres, hcached⟩ | ⟨hres, -⟩
      · have hmissing := hres.symm
        obtain ⟨-, -, -, -, -, hdir, -⟩ := resolve_missing.mp hmissing
        have hfile : IsFile s.content ∅ dir := by
          have := resolve_inTree hn (components path)
          rwa [hmissing] at this
        have hready : Ready n ∅ s₁ := ⟨hk.mounted hs.toMounted, hsame.sound⟩
        obtain ⟨hslot, hsize⟩ := (Lib.provided_part (createIn_spec hready (hsame.noHoles hn)
          (hsame.isFile.mpr hfile) ((hsame.alike.types hfile).trans hdir) hcached) hrun ht).2 e rfl
        rw [hsame.hasSlot hn hfile hdir] at hslot
        rw [hsame.size hfile] at hsize
        refine iff_of_false (fun h => ?_) fun h => ?_
        · rw [h.1.size dir hfile] at hsize
          exact raised_ne _ hsize.symm
        · rcases h dir name hmissing with h | h
          · exact hslot h
          · exact absurd h (by simp)
      · exact nomatch hres
    · have heq : (t₁, Except.ok (Except.error e'), s₁) = (t, .ok (.error e), s') := hrun
      cases heq
      refine iff_of_true ⟨hsame.untouched hn, fun hfull => ?_⟩ fun d name h => ?_
      · obtain ⟨⟨d, name, h, -⟩, -, hgranted⟩ := hfull
        rcases hmeans with ⟨hres, -⟩ | ⟨-, hrefused⟩
        · rw [← hres] at h
          exact nomatch h
        · obtain ⟨b, -, -, hin⟩ := hrefused
          exact absurd hin (hgranted _ _)
      · rcases hmeans with ⟨hres, -⟩ | ⟨hres, -⟩
        · rw [← hres] at h
          exact nomatch h
        · exact Or.inr (congrArg Except.ok hres)

/-! ## A directory that does not grow -/

/-- The world where there is no memory. -/
def exhausted : World Call Reply := fun _ c =>
  match c with
  | .mark .. => ()
  | .memAlloc _ => .error .noMem
  | .pageref _ => (0 : Nat)
  | .ipcSend .. => (0 : Int)

/-- The file `a` is created in the empty tree, when there is no memory. -/
def cramped : Trace Call Reply × Except Stop (Except Err Nat) × Server :=
  (fileCreate 0 [97]).run exhausted fresh

theorem cramped_failed :
    (fileCreate 0 [97]).run exhausted fresh = (cramped.1, .ok (.error .notFound), cramped.2.2) := by
  have h : cramped.2.1 = .ok (.error .notFound) := by decide +kernel
  rw [← h]
  rfl

theorem memory_exhausted {α : Type} (x : Serv α) (s : Server) : memory.Holds (x.run exhausted s).1 :=
  Proc.run_answers (P := (quiet Any True).answers)
    (fun _ c => by cases c <;> first | exact Or.inr rfl | exact trivial) _ fun _ he => nomatch he

theorem create_failure_iff_cramped :
    (Untouched fresh.content cramped.2.2.content ∧
      (DiskFull 1024 fresh.content [97] cramped.1 → Err.notFound = .noDisk)) ↔
      Roomy exhausted fresh [97] :=
  create_failure_iff ready_fresh noHoles_fresh cramped_failed (memory_exhausted _ _)

/-- The root has a size without blocks, and the error is that of a missing file. -/
theorem not_create_failure :
    ¬ ∀ n s path mode w t e s', Ready n ∅ s → NoHoles ∅ s.content →
      (fileCreate mode path).run w s = (t, .ok (.error e), s') → memory.Holds t →
      Untouched s.content s'.content ∧ (DiskFull n s.content path t → e = .noDisk) := by
  intro h
  have hbad := (h 1024 fresh [97] 0 exhausted cramped.1 .notFound cramped.2.2 ready_fresh noHoles_fresh
    cramped_failed (memory_exhausted _ _)).1.size (diskAddr 1 + 8) .root
  exact absurd hbad (by decide +kernel)

end Mos.Fs
