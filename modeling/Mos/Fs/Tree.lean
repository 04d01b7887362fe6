import Mos.Fs.Lookup

/-!
# The tree of files while it grows

Files get blocks, and directories get files. The server stops nowhere on the way, and the
tree stays a tree if what is given is in order.
-/

namespace Mos.Fs

open Lib (Bytes Cond provided)
open Lib.Proc (Trace World)

/-! ## The tree -/

/-- The directory of the file is not known, or it is in memory. -/
def Linked (s : Server) (f : Nat) : Prop :=
  s.content.word (dirAt f) = 0 ∨ s.cached (s.content.word (dirAt f)) = true

/-- The tree is in order, and so are the links of the root and of the files in use. -/
structure Tree (n : Nat) (Z : Set Nat) (s : Server) : Prop extends Ready n Z s where
  links : ∀ f, f = diskAddr 1 + 8 ∨ f ∈ Z → Linked s f

/-- All files are still there, and there may be more. Those in `F` may have got blocks. -/
structure Grown (n : Nat) (Z F : Set Nat) (s s' : Server) : Prop where
  kept : Kept s s'
  sound : Sound n Z s'.content
  isFile : ∀ {f}, IsFile s.content Z f → IsFile s'.content Z f
  types : ∀ {f}, IsFile s.content Z f → s'.content.word (typeAt f) = s.content.word (typeAt f)
  links : ∀ {f}, IsFile s.content Z f → Linked s f → Linked s' f
  others : ∀ {f}, IsFile s.content Z f → f ∉ F → SameFile F s.content s'.content f

section

variable {n : Nat} {Z Z' F F' : Set Nat} {s s' s'' : Server}

theorem Linked.keep {f : Nat} (h : Linked s f) (hk : Kept s s')
    (hdir : s'.content.word (dirAt f) = s.content.word (dirAt f)) : Linked s' f := by
  unfold Linked at h ⊢
  rw [hdir]
  exact h.imp_right hk.cached

theorem Intact.linked {f : Nat} (h : Intact s s') (hl : Linked s f) : Linked s' f :=
  hl.keep h.kept (by rw [h.content])

theorem Tree.of_intact (hs : Tree n Z s) (h : Intact s s') : Tree n Z s' :=
  ⟨h.ready hs.toReady, fun f hf => h.linked (hs.links f hf)⟩

theorem Tree.insert (hs : Tree n Z s) {f : Nat} (hf : IsFile s.content Z f) (hl : Linked s f) :
    Tree n (insert f Z) s := by
  refine ⟨⟨hs.toMounted, hs.sound.of_files fun z hz => ?_⟩, fun g hg => ?_⟩
  · rcases Set.mem_insert_iff.mp hz with rfl | hz
    · exact hf
    · exact .extra hz
  · rcases hg with hg | hg
    · exact hs.links g (Or.inl hg)
    · rcases Set.mem_insert_iff.mp hg with rfl | hg
      · exact hl
      · exact hs.links g (Or.inr hg)

theorem Tree.mono (hs : Tree n Z s) (h : Z' ⊆ Z) : Tree n Z' s :=
  ⟨⟨hs.toMounted, hs.sound.of_files fun _ hz => .extra (h hz)⟩,
    fun f hf => hs.links f (hf.imp_right fun hz => h hz)⟩

theorem Grown.refl (hs : Sound n Z s.content) : Grown n Z F s s where
  kept := Kept.refl s
  sound := hs
  isFile := id
  types := fun _ => rfl
  links := fun _ => id
  others := fun _ _ => .refl _ _

theorem Grown.trans (h : Grown n Z F s s') (h' : Grown n Z F s' s'') : Grown n Z F s s'' where
  kept := h.kept.trans h'.kept
  sound := h'.sound
  isFile := fun hf => h'.isFile (h.isFile hf)
  types := fun hf => (h'.types (h.isFile hf)).trans (h.types hf)
  links := fun hf hl => h'.links (h.isFile hf) (h.links hf hl)
  others := fun hf hout => (h.others hf hout).trans (h'.others (h.isFile hf) hout)

theorem Grown.weaken (h : Grown n Z F s s') (hF : F ⊆ F') : Grown n Z F' s s' :=
  { h with others := fun hf hout => (h.others hf fun hin => hout (hF hin)).weaken hF }

theorem Intact.grown (h : Intact s s') (hs : Ready n Z s) : Grown n Z F s s' where
  kept := h.kept
  sound := h.content ▸ hs.sound
  isFile := fun hf => h.content ▸ hf
  types := fun _ => by rw [h.content]
  links := fun _ hl => h.linked hl
  others := fun _ _ => by rw [h.content]; exact .refl _ _

theorem Grown.ready (h : Grown n Z F s s') (hs : Ready n Z s) : Ready n Z s' :=
  ⟨h.kept.mounted hs.toMounted, h.sound⟩

theorem Grown.tree (h : Grown n Z F s s') (hs : Tree n Z s) : Tree n Z s' := by
  refine ⟨h.ready hs.toReady, fun f hf => h.links ?_ (hs.links f hf)⟩
  rcases hf with rfl | hf
  · exact .root
  · exact .extra hf

/-- The file is one of the tree and in memory. -/
structure Present (Z : Set Nat) (s : Server) (f : Nat) : Prop where
  isFile : IsFile s.content Z f
  cached : s.cached f = true
  linked : Linked s f

theorem Grown.present (h : Grown n Z F s s') {f : Nat} (hf : Present Z s f) : Present Z s' f :=
  ⟨h.isFile hf.isFile, h.kept.cached hf.cached, h.links hf.isFile hf.linked⟩

theorem Tree.root (hs : Tree n Z s) : Present Z s (diskAddr 1 + 8) where
  isFile := .root
  cached := cached_iff.mpr ⟨by decide, by rw [blockOf_add 1 (by omega)]; exact hs.one⟩
  linked := hs.links _ (Or.inl rfl)

/-! ## Blocks for a file -/

/-- What a block must be like that a file gets: an index block and a block of a directory are blank,
and no file in use is left in any block. -/
def Fits (Z : Set Nat) (f : Nat) (u : Use) (b : Nat) (c : Bytes) : Prop :=
  (u = .index ∨ c.word (typeAt f) = FTYPE_DIR → Blank c b) ∧ ∀ z ∈ Z, blockOf z ≠ b

/-- The file has got the block `b`. -/
structure Gave (f : Nat) (u : Use) (b : Nat) (c c' : Bytes) : Prop where
  bytes : ∀ k < 136, c' (f + k) = c (f + k)
  held : ∀ v, heldBlock c' f v = if u = v then b else heldBlock c f v
  blank : u = .index ∨ c.word (typeAt f) = FTYPE_DIR → Blank c' b
  ne : b ≠ 0

/-- A block that has been taken is stored in a pointer that was 0. -/
theorem Took.give {f b : Nat} {u : Use} (ht : Took n b s s') (hs : Ready n Z s)
    (hf : IsFile s.content Z f) (hu : HasUse s.content f u) (hroom : heldBlock s.content f u = 0)
    (hc : s.cached (ptrAt s.content f u) = true) (hfits : Fits Z f u b s'.content) :
    Grown n Z {f} s (s'.put (ptrAt s.content f u) b) ∧
      Gave f u b s.content (s'.put (ptrAt s.content f u) b).content := by
  obtain ⟨own, dep, ho⟩ := hs.sound.tree
  obtain ⟨fresh, hcontent⟩ := ht.content
  have hgrant := hs.sound.grantable ht.range ht.free hfits.2
  have hgiven : (s'.put (ptrAt s.content f u) b).content = given s.content f u b fresh := by
    rw [content_put (ht.kept.cached hc) (ptrAt_mod (hs.file_mod hf) u), hcontent]
    rfl
  have hblank : u = .index ∨ s.content.word (typeAt f) = FTYPE_DIR →
      Blank (taken s.content b fresh) b := by
    have hpage := ho.off_free hgrant hf
    have hbit := (ho.seat hf).off_bitmap ht.range.2
    have htype : s'.content.word (typeAt f) = s.content.word (typeAt f) := by
      rw [hcontent]
      unfold typeAt
      exact word_taken (by omega) (by omega)
    rw [← htype, ← hcontent]
    exact hfits.1
  have hindex : u = .index → Blank (taken s.content b fresh) b := fun hx => hblank (Or.inl hx)
  have hkept := ht.kept.trans (kept_put s' (ptrAt s.content f u) b)
  have hthree := ht.range.three_le
  constructor
  · refine ⟨hkept, ?_, fun hg => ?_, fun hg => ?_, fun hg hl => hl.keep hkept ?_, fun hg hout => ?_⟩
    · rw [hgiven]
      exact hs.sound.give hf hu hroom hgrant hblank
    · rw [hgiven]
      exact hs.sound.isFile_give hf hu hroom hgrant hindex hg
    · rw [hgiven]
      exact (ho.repoints_given hf hu hgrant fresh).types hg
    · rw [hgiven]
      exact hs.sound.dir_give hf hg hu hgrant fresh
    · rw [hgiven]
      exact hs.sound.other_give hf hg hout hu hroom hgrant hindex
  · rw [hgiven]
    refine ⟨hs.sound.bytes_give hf hf hu hgrant fresh, fun v => ?_, fun hux => ?_, by omega⟩
    · rw [ho.held_given hf hu hroom hgrant hindex hf v]
      simp only [Prod.mk.injEq, true_and]
    · exact ho.blank_given hf hu hgrant (hblank hux)

/-- The file has the same blocks. There may be an index block more. -/
structure Keeps (f : Nat) (c c' : Bytes) : Prop where
  bytes : ∀ k < 136, c' (f + k) = c (f + k)
  held : ∀ i, heldBlock c' f (.block i) = heldBlock c f (.block i)

/-- The file has the same blocks, up to a hole that may have been filled. -/
structure Fills (f i : Nat) (c c' : Bytes) : Prop where
  bytes : ∀ k < 136, c' (f + k) = c (f + k)
  held : ∀ j, j ≠ i ∨ heldBlock c f (.block i) ≠ 0 →
    heldBlock c' f (.block j) = heldBlock c f (.block j)
  blank : heldBlock c f (.block i) = 0 → c.word (typeAt f) = FTYPE_DIR →
    heldBlock c' f (.block i) = 0 ∨ Blank c' (heldBlock c' f (.block i))

theorem Keeps.refl (f : Nat) (c : Bytes) : Keeps f c c := ⟨fun _ _ => rfl, fun _ => rfl⟩

theorem Intact.keeps (h : Intact s s') (f : Nat) : Keeps f s.content s'.content :=
  h.content ▸ .refl f _

theorem Keeps.trans {f : Nat} {c c' c'' : Bytes} (h : Keeps f c c') (h' : Keeps f c' c'') :
    Keeps f c c'' :=
  ⟨fun k hk => (h'.bytes k hk).trans (h.bytes k hk), fun i => (h'.held i).trans (h.held i)⟩

theorem Keeps.fills {f i : Nat} {c c' c'' : Bytes} (h : Keeps f c c') (h' : Fills f i c' c'') :
    Fills f i c c'' where
  bytes := fun k hk => (h'.bytes k hk).trans (h.bytes k hk)
  held := fun j hj => (h'.held j (hj.imp_right fun hne => h.held i ▸ hne)).trans (h.held j)
  blank := fun h0 ht => h'.blank ((h.held i).trans h0) ((word_of_bytes h.bytes (by omega)).trans ht)

theorem Fills.refl (f i : Nat) (c : Bytes) : Fills f i c c :=
  ⟨fun _ _ => rfl, fun _ _ => rfl, fun h0 _ => Or.inl h0⟩

theorem Gave.keeps {f b : Nat} {c c' : Bytes} (h : Gave f .index b c c') : Keeps f c c' :=
  ⟨h.bytes, fun i => (h.held _).trans (if_neg (by simp))⟩

theorem Gave.fills {f i b : Nat} {c c' : Bytes} (h : Gave f (.block i) b c c')
    (hroom : heldBlock c f (.block i) = 0) : Fills f i c c' where
  bytes := h.bytes
  held := fun j hj => (h.held _).trans (if_neg fun heq =>
    (hj.resolve_right fun hne => hne hroom) (Use.block.inj heq).symm)
  blank := fun _ ht => Or.inr (by rw [h.held, if_pos rfl]; exact h.blank (Or.inr ht))

end

/-- Where the server marks that it gives a block, the block fits. -/
def Gives (M : Cond Call Reply) (Z : Set Nat) : Prop :=
  ∀ t f u b c, M.Holds (t ++ [⟨.mark (.gives f u b) c, ()⟩]) → Fits Z f u b c

section

variable {M : Cond Call Reply} {E : Stop → Server → Trace Call Reply → Prop} {s : Server}
  {t : Trace Call Reply} {n : Nat} {Z : Set Nat}

/-- There may be an index block more, and nothing has changed if that is not asked for. -/
structure Indexed (n : Nat) (Z : Set Nat) (f : Nat) (alloc : Bool) (s s' : Server) : Prop where
  grown : Grown n Z {f} s s'
  keeps : Keeps f s.content s'.content
  intact : alloc = false → Intact s s'

theorem Intact.indexed {s' : Server} (h : Intact s s') (hs : Ready n Z s) (f : Nat) (alloc : Bool) :
    Indexed n Z f alloc s s' := ⟨h.grown hs, h.keeps f, fun _ => h⟩

theorem Indexed.and_intact {f : Nat} {alloc : Bool} {s' s'' : Server} (h : Indexed n Z f alloc s s')
    (h' : Intact s' s'') (hs : Ready n Z s) : Indexed n Z f alloc s s'' :=
  ⟨h.grown.trans (h'.grown (h.grown.ready hs)), h.keeps.trans (h'.keeps f),
    fun ha => (h.intact ha).trans h'⟩

/-- The index block is there, or there is none to get. -/
theorem indirectBlock_grown (hs : Ready n Z s) {f : Nat} {alloc : Bool} (hf : IsFile s.content Z f)
    (hc : s.cached f = true) (hg : alloc = true → Gives M Z) :
    provided M (indirectBlock f alloc)
      (fun r s' _ => Indexed n Z f alloc s s' ∧
        (r = .ok () → s'.content.word (indirectAt f) ≠ 0)) E s t := by
  have hmod := hs.file_mod hf
  have hword : s.cached (indirectAt f) = true := hs.file_word hf hc (by omega)
  have hself := (Intact.refl s).indexed hs f alloc
  unfold indirectBlock
  rw [Lib.provided_bind, provided_loadWord hword (by unfold indirectAt; omega), Lib.provided_ite]
  refine fun _ => ⟨fun hzero => ?_, fun hne => ?_⟩
  · rw [Lib.provided_ite]
    refine ⟨fun _ => ?_, fun halloc => ?_⟩
    · rw [Lib.provided_pure]
      exact fun _ => ⟨hself, nofun⟩
    · have ha : alloc = true := by simpa using halloc
      rw [Lib.provided_bind]
      refine Lib.provided_mono (allocBlock_spec hs.toMounted hs.sound.base) (fun r s₁ t₁ _ h => ?_)
        fun _ _ _ _ => id
      rcases r with e | b
      · rw [Lib.provided_pure]
        exact fun _ => ⟨Intact.indexed ⟨h.1, h.2⟩ hs f alloc, nofun⟩
      · simp only
        rw [Lib.provided_bind, provided_mark]
        intro hm
        have hroom : heldBlock s.content f .index = 0 := (heldBlock_index _ _).trans hzero
        obtain ⟨hgrown, hgave⟩ := h.give (u := .index) hs hf trivial hroom hword (hg ha _ _ _ _ _ hm)
        rw [Lib.provided_bind, provided_storeWord (h.kept.cached hword), Lib.provided_pure]
        refine fun _ _ => ⟨⟨hgrown, hgave.keeps, fun hx => absurd (hx.symm.trans ha) (by simp)⟩,
          fun _ => ?_⟩
        have hheld := hgave.held .index
        rw [if_pos rfl, heldBlock_index] at hheld
        exact fun h0 => hgave.ne (hheld.symm.trans h0)
  · rw [Lib.provided_pure]
    exact fun _ => ⟨hself, fun _ => hne⟩

/-- The pointer to a block of the file. -/
theorem fileBlockWalk_grown (hs : Ready n Z s) {f i : Nat} {alloc : Bool} (hf : IsFile s.content Z f)
    (hc : s.cached f = true) (hg : alloc = true → Gives M Z) :
    provided M (fileBlockWalk f i alloc)
      (fun r s' _ => Indexed n Z f alloc s s' ∧ ∀ p, r = .ok p → HasUse s'.content f (.block i) ∧
        p = ptrAt s'.content f (.block i) ∧ s'.cached p = true) E s t := by
  have hi1024 : NINDIRECT = 1024 := rfl
  have hself := (Intact.refl s).indexed hs f alloc
  unfold fileBlockWalk
  rw [Lib.provided_ite]
  refine ⟨fun hi => ?_, fun hi => ?_⟩
  · have hi10 : i < 10 := hi
    rw [Lib.provided_pure]
    refine fun _ => ⟨hself, fun p hp => ?_⟩
    obtain rfl := Except.ok.inj hp
    refine ⟨Or.inl hi, (if_pos hi).symm, ?_⟩
    unfold directAt
    rw [Nat.add_assoc]
    exact hs.file_word hf hc (by omega)
  rw [Lib.provided_ite]
  refine ⟨fun hlt => ?_, fun _ => ?_⟩
  · rw [Lib.provided_bind]
    refine Lib.provided_mono (indirectBlock_grown hs hf hc hg) (fun r s₁ t₁ _ h => ?_)
      fun _ _ _ _ => id
    obtain ⟨hindexed, hindex⟩ := h
    rcases r with e | u
    · rw [Lib.provided_pure]
      exact fun _ => ⟨hindexed, nofun⟩
    · have hs₁ := hindexed.grown.ready hs
      have hf₁ := hindexed.grown.isFile hf
      have hmod := hs₁.file_mod hf₁
      have hne := hindex rfl
      have hheld := hs₁.held (u := .index) hf₁ (by rwa [heldBlock_index])
      rw [heldBlock_index] at hheld
      have hword : s₁.cached (indirectAt f) = true :=
        hs₁.file_word hf₁ (hindexed.grown.kept.cached hc) (by omega)
      simp only
      rw [Lib.provided_bind, provided_loadWord hword (by unfold indirectAt; omega)]
      intro _
      rw [Lib.provided_bind]
      refine Lib.provided_mono (readBlock_used hs₁ hheld.1 hheld.2) (fun r s₂ t₂ _ h => ?_)
        fun _ _ _ _ => id
      obtain ⟨hin, h⟩ := h
      rcases r with e | blk
      · rw [Lib.provided_pure]
        exact fun _ => ⟨hindexed.and_intact hin hs, nofun⟩
      · obtain ⟨rfl, hm⟩ := h
        rw [Lib.provided_pure, hin.content]
        refine fun _ => ⟨hindexed.and_intact hin hs, fun p hp => ?_⟩
        obtain rfl := Except.ok.inj hp
        refine ⟨Or.inr ⟨hlt, hne⟩, (if_neg hi).symm, cached_iff.mpr ⟨?_, ?_⟩⟩
        · rw [diskAddr_eq]
          exact Nat.le_trans (Nat.le_add_right ..) (Nat.le_add_right ..)
        · rw [blockOf_add _ (by omega)]
          exact hm
  · rw [Lib.provided_pure]
    exact fun _ => ⟨hself, nofun⟩

/-- A hole may have been filled, and nothing has changed if that is not asked for. -/
structure Filled (n : Nat) (Z : Set Nat) (f i : Nat) (alloc : Bool) (s s' : Server) : Prop where
  grown : Grown n Z {f} s s'
  fills : Fills f i s.content s'.content
  intact : alloc = false → Intact s s'

theorem Indexed.filled {f i : Nat} {alloc : Bool} {s' : Server} (h : Indexed n Z f alloc s s') :
    Filled n Z f i alloc s s' := ⟨h.grown, h.keeps.fills (.refl f i _), h.intact⟩

theorem fileMapBlock_grown (hs : Ready n Z s) {f i : Nat} {alloc : Bool} (hf : IsFile s.content Z f)
    (hc : s.cached f = true) (hg : alloc = true → Gives M Z) :
    provided M (fileMapBlock f i alloc)
      (fun r s' _ => Filled n Z f i alloc s s' ∧
        ∀ b, r = .ok b → b = heldBlock s'.content f (.block i) ∧ b ≠ 0) E s t := by
  unfold fileMapBlock
  rw [Lib.provided_bind]
  refine Lib.provided_mono (fileBlockWalk_grown hs hf hc hg) (fun r s₁ t₁ _ h => ?_)
    fun _ _ _ _ => id
  obtain ⟨hindexed, hptr⟩ := h
  rcases r with e | p
  · rw [Lib.provided_pure]
    exact fun _ => ⟨hindexed.filled, nofun⟩
  · obtain ⟨hu, rfl, hp⟩ := hptr p rfl
    have hs₁ := hindexed.grown.ready hs
    have hf₁ := hindexed.grown.isFile hf
    simp only
    rw [Lib.provided_bind, provided_loadWord hp (ptrAt_mod (hs₁.file_mod hf₁) _),
      ← heldBlock_of hu, Lib.provided_ite]
    refine fun _ => ⟨fun hroom => ?_, fun hne => ?_⟩
    · rw [Lib.provided_ite]
      refine ⟨fun _ => ?_, fun halloc => ?_⟩
      · rw [Lib.provided_pure]
        exact fun _ => ⟨hindexed.filled, nofun⟩
      · have ha : alloc = true := by simpa using halloc
        rw [Lib.provided_bind]
        refine Lib.provided_mono (allocBlock_spec hs₁.toMounted hs₁.sound.base)
          (fun r s₂ t₂ _ h => ?_) fun _ _ _ _ => id
        rcases r with e | b
        · rw [Lib.provided_pure]
          exact fun _ => ⟨(hindexed.and_intact ⟨h.1, h.2⟩ hs).filled, nofun⟩
        · simp only
          rw [Lib.provided_bind, provided_mark]
          intro hm
          obtain ⟨hgrown, hgave⟩ := h.give hs₁ hf₁ hu hroom hp (hg ha _ _ _ _ _ hm)
          rw [Lib.provided_bind, provided_storeWord (h.kept.cached hp), Lib.provided_pure]
          refine fun _ _ => ⟨⟨hindexed.grown.trans hgrown, hindexed.keeps.fills (hgave.fills hroom),
            fun hx => absurd (hx.symm.trans ha) (by simp)⟩, fun b' hb' => ?_⟩
          obtain rfl := Except.ok.inj hb'
          exact ⟨((hgave.held _).trans (if_pos rfl)).symm, hgave.ne⟩
    · rw [Lib.provided_pure]
      refine fun _ => ⟨hindexed.filled, fun b hb => ?_⟩
      obtain rfl := Except.ok.inj hb
      exact ⟨rfl, hne⟩

/-- A block of the file is in memory, a new one if need be. -/
theorem fileGetBlock_grown (hs : Ready n Z s) {f i : Nat} (hf : IsFile s.content Z f)
    (hc : s.cached f = true) (hg : Gives M Z) :
    provided M (fileGetBlock f i)
      (fun r s' _ => Grown n Z {f} s s' ∧ Fills f i s.content s'.content ∧ ∀ blk, r = .ok blk →
        blk = diskAddr (heldBlock s'.content f (.block i)) ∧
        heldBlock s'.content f (.block i) ≠ 0 ∧
        s'.mapped (heldBlock s'.content f (.block i)) = true) E s t := by
  unfold fileGetBlock
  rw [Lib.provided_bind]
  refine Lib.provided_mono (fileMapBlock_grown hs hf hc fun _ => hg) (fun r s₁ t₁ _ h => ?_)
    fun _ _ _ _ => id
  obtain ⟨hfilled, hheld⟩ := h
  rcases r with e | b
  · rw [Lib.provided_pure]
    exact fun _ => ⟨hfilled.grown, hfilled.fills, nofun⟩
  · obtain ⟨rfl, hne⟩ := hheld b rfl
    have hs₁ := hfilled.grown.ready hs
    obtain ⟨hrange, hused⟩ := hs₁.held (hfilled.grown.isFile hf) hne
    refine Lib.provided_mono (readBlock_used hs₁ hrange hused) (fun r s₂ t₂ _ h => ?_)
      fun _ _ _ _ => id
    obtain ⟨hin, h⟩ := h
    rw [hin.content]
    refine ⟨hfilled.grown.trans (hin.grown hs₁), hfilled.fills, fun blk hblk => ?_⟩
    subst hblk
    exact ⟨h.1, hne, h.2⟩

/-! ## Files in a directory -/

theorem Ready.file_lt (hs : Ready n Z s) {f : Nat} (hf : IsFile s.content Z f) : f < 2 ^ 32 := by
  obtain ⟨own, dep, ho⟩ := hs.sound.tree
  have hsmall := hs.sound.small
  have h16 : FILE2BLK = 16 := rfl
  rcases ho.seat hf with rfl | ⟨b, j, hb, hj, -, rfl⟩
  · decide
  · have := hb.2
    rw [fileAt_eq, diskAddr_eq]
    omega

/-- The directory of a file is stored in it. -/
theorem Ready.link (hs : Ready n Z s) {f dir : Nat} (hf : IsFile s.content Z f)
    (hc : s.cached f = true) (hd : IsFile s.content Z dir) (hdc : s.cached dir = true) :
    Grown n Z .univ s (s.put (dirAt f) dir) ∧ Present Z (s.put (dirAt f) dir) f := by
  have hword : s.cached (dirAt f) = true := hs.file_word hf hc (by omega)
  have hmod := hs.file_mod hf
  have hcontent := content_put (v := dir) hword (show dirAt f % 4 = 0 by unfold dirAt; omega)
  have hsame := hs.sound.link hf dir
  have hkept := kept_put s (dirAt f) dir
  have hself : Linked (s.put (dirAt f) dir) f := by
    unfold Linked
    rw [hcontent, Lib.Bytes.word_setWord_self, Nat.mod_eq_of_lt (hs.file_lt hd)]
    exact Or.inr (hkept.cached hdc)
  rw [← hcontent] at hsame
  refine ⟨⟨hkept, hsame.sound, hsame.alike.isFile, hsame.alike.types, fun {g} hg hl => ?_,
    fun _ hout => absurd (Set.mem_univ _) hout⟩,
    hsame.alike.isFile hf, hkept.cached hc, hself⟩
  by_cases hfg : f = g
  · exact hfg ▸ hself
  · have hoff := hs.sound.off_file hf hg hfg
    refine hl.keep hkept ?_
    rw [hcontent, Lib.Bytes.word_setWord_of_ne _ (by unfold dirAt; omega)]

theorem fileNamed_some {blk f : Nat} {name : Name} (h : s.fileNamed blk name = some f) :
    ∃ j < FILE2BLK, f = fileAt blk j := by
  unfold Server.fileNamed at h
  obtain ⟨j, hj, rfl⟩ := Option.map_eq_some_iff.mp h
  exact ⟨j, List.mem_range.mp (List.mem_of_find?_eq_some hj), rfl⟩

theorem freeFile_some {blk f : Nat} (h : s.freeFile blk = some f) :
    (∃ j < FILE2BLK, f = fileAt blk j) ∧ s.mem f = 0 := by
  unfold Server.freeFile at h
  obtain ⟨j, hj, rfl⟩ := Option.map_eq_some_iff.mp h
  exact ⟨⟨j, List.mem_range.mp (List.mem_of_find?_eq_some hj), rfl⟩,
    beq_iff_eq.mp (List.find?_some (p := fun j => s.mem (fileAt blk j) == 0) hj)⟩

/-- Holes of a directory are filled on the way. -/
theorem lookupFrom_grown (hs : Ready n Z s) {dir : Nat} (hd : IsFile s.content Z dir)
    (hc : s.cached dir = true) (ht : s.content.word (typeAt dir) = FTYPE_DIR) (hg : Gives M Z)
    (name : Name) (k i : Nat) :
    provided M (lookupFrom dir name k i)
      (fun r s' _ => Grown n Z .univ s s' ∧ ∀ f, r = .ok f → Present Z s' f) E s t := by
  induction k generalizing i s t with
  | zero =>
    unfold lookupFrom
    rw [Lib.provided_pure]
    exact fun _ => ⟨.refl hs.sound, fun _ h => by cases h⟩
  | succ k ih =>
    unfold lookupFrom
    rw [Lib.provided_bind]
    refine Lib.provided_mono (fileGetBlock_grown hs hd hc hg) (fun r s₁ t₁ _ h => ?_)
      fun _ _ _ _ => id
    obtain ⟨hgrown, -, hblk⟩ := h
    replace hgrown := hgrown.weaken (Set.subset_univ _)
    rcases r with e | blk
    · rw [Lib.provided_pure]
      exact fun _ => ⟨hgrown, fun _ h => by cases h⟩
    · obtain ⟨rfl, hne, hm⟩ := hblk blk rfl
      have hs₁ := hgrown.ready hs
      have hd₁ := hgrown.isFile hd
      have hc₁ := hgrown.kept.cached hc
      have ht₁ := (hgrown.types hd).trans ht
      simp only
      rw [Lib.provided_bind, Lib.provided_get]
      intro _
      rcases hfound : s₁.fileNamed (diskAddr (heldBlock s₁.content dir (.block i))) name with _ | f
      · refine Lib.provided_mono (ih hs₁ hd₁ hc₁ ht₁ (i + 1)) (fun r s₂ t₂ _ h => ?_)
          fun _ _ _ _ => id
        exact ⟨hgrown.trans h.1, h.2⟩
      · obtain ⟨j, hj, rfl⟩ := fileNamed_some hfound
        have hf := cached_slot hm hj (k := 0) (by omega)
        have hdir : s₁.cached (dirAt (fileAt (diskAddr (heldBlock s₁.content dir (.block i))) j)) =
            true := cached_slot hm hj (by omega)
        obtain ⟨hlink, hpresent⟩ := hs₁.link (.slot hd₁ ht₁ hne hj) hf hd₁ hc₁
        simp only
        rw [Lib.provided_bind, provided_storeWord hdir, Lib.provided_pure]
        refine fun _ _ => ⟨hgrown.trans hlink, fun f hf => ?_⟩
        obtain rfl := Except.ok.inj hf
        exact hpresent

theorem dirLookup_grown (hs : Ready n Z s) {dir : Nat} (hd : IsFile s.content Z dir)
    (hc : s.cached dir = true) (ht : s.content.word (typeAt dir) = FTYPE_DIR) (hg : Gives M Z)
    (name : Name) :
    provided M (dirLookup dir name)
      (fun r s' _ => Grown n Z .univ s s' ∧ ∀ f, r = .ok f → Present Z s' f) E s t := by
  have hmod := hs.file_mod hd
  have hword : s.cached (sizeAt dir) = true := hs.file_word hd hc (by omega)
  unfold dirLookup
  rw [Lib.provided_bind, provided_loadWord hword (by unfold sizeAt; omega)]
  exact fun _ => lookupFrom_grown hs hd hc ht hg name _ 0

/-- A field of a file that is neither its type nor a pointer is set. -/
theorem Ready.set_size (hs : Ready n Z s) {f : Nat} (hf : IsFile s.content Z f)
    (hc : s.cached f = true) (v : Nat) : Grown n Z {f} s (s.put (sizeAt f) v) := by
  have hword : s.cached (sizeAt f) = true := hs.file_word hf hc (by omega)
  have hmod := hs.file_mod hf
  have hcontent := content_put (v := v) hword (show sizeAt f % 4 = 0 by unfold sizeAt; omega)
  obtain ⟨hsound, halike⟩ := hs.sound.of_fields hf (setWord_fields (v := v) (k := 128) (by omega))
  have hkept := kept_put s (sizeAt f) v
  have hfields : ∀ a, s.content.setWord (sizeAt f) v a ≠ s.content a → f + 128 ≤ a ∧ a < f + 132 := by
    intro a hne
    by_contra hout
    exact hne (Lib.Bytes.setWord_of_ne (by unfold sizeAt; omega))
  refine ⟨hkept, ?_, fun hg => ?_, fun hg => ?_, fun hg hl => hl.keep hkept ?_, fun hg hout => ?_⟩
  · rw [hcontent]
    exact hsound
  · rw [hcontent]
    exact halike.isFile hg
  · rw [hcontent]
    exact halike.types hg
  · rw [hcontent]
    refine hs.sound.dir_of_fields hf hg fun a hne => ?_
    have := hfields a hne
    omega
  · rw [hcontent]
    refine hs.sound.other_of_struct hf hg hout fun a hne => ?_
    have := hfields a hne
    omega

/-- A directory gets a size that is larger, and a block more. -/
theorem growDir_grown (hs : Ready n Z s) {dir : Nat} (hd : IsFile s.content Z dir)
    (hc : s.cached dir = true) (hg : Gives M Z) (i : Nat) :
    provided M (growDir dir i)
      (fun r s' _ => Grown n Z {dir} s s' ∧
        Fills dir i (s.put (sizeAt dir) (s.content.word (sizeAt dir) + BLOCK_SIZE)).content s'.content ∧
        ∀ f, r = .ok f → f = diskAddr (heldBlock s'.content dir (.block i)) ∧
          heldBlock s'.content dir (.block i) ≠ 0 ∧
          s'.mapped (heldBlock s'.content dir (.block i)) = true) E s t := by
  have hmod := hs.file_mod hd
  have hword : s.cached (sizeAt dir) = true := hs.file_word hd hc (by omega)
  have hgrown := hs.set_size hd hc (s.content.word (sizeAt dir) + BLOCK_SIZE)
  unfold growDir setSize
  rw [Lib.provided_bind, provided_loadWord hword (by unfold sizeAt; omega)]
  intro _
  rw [Lib.provided_bind, Lib.provided_bind, provided_mark]
  intro _
  rw [provided_storeWord hword]
  exact fun _ => Lib.provided_mono (fileGetBlock_grown (hgrown.ready hs) (hgrown.isFile hd)
    (hgrown.kept.cached hc) hg) (fun _ _ _ _ h => ⟨hgrown.trans h.1, h.2⟩) fun _ _ _ _ => id

theorem allocFileFrom_grown (hs : Ready n Z s) {dir : Nat} (hd : IsFile s.content Z dir)
    (hc : s.cached dir = true) (ht : s.content.word (typeAt dir) = FTYPE_DIR) (hg : Gives M Z)
    (k i : Nat) :
    provided M (allocFileFrom dir k i)
      (fun r s' _ => Grown n Z {dir} s s' ∧ ∀ f, r = .ok f → IsFile s'.content Z f ∧ s'.cached f = true)
      E s t := by
  induction k generalizing i s t with
  | zero =>
    refine Lib.provided_mono (growDir_grown hs hd hc hg i) (fun r s₁ t₁ _ h => ?_) fun _ _ _ _ => id
    refine ⟨h.1, fun f hf => ?_⟩
    -- The first file of the new block.
    obtain ⟨rfl, hne, hm⟩ := h.2.2 f hf
    have h0 : (0 : Nat) < FILE2BLK := by decide
    exact ⟨.slot (h.1.isFile hd) ((h.1.types hd).trans ht) hne h0, cached_slot hm h0 (k := 0) (by omega)⟩
  | succ k ih =>
    unfold allocFileFrom
    rw [Lib.provided_bind]
    refine Lib.provided_mono (fileGetBlock_grown hs hd hc hg) (fun r s₁ t₁ _ h => ?_)
      fun _ _ _ _ => id
    obtain ⟨hgrown, -, hblk⟩ := h
    rcases r with e | blk
    · rw [Lib.provided_pure]
      exact fun _ => ⟨hgrown, fun _ h => by cases h⟩
    · obtain ⟨rfl, hne, hm⟩ := hblk blk rfl
      have hd₁ := hgrown.isFile hd
      have ht₁ := (hgrown.types hd).trans ht
      simp only
      rw [Lib.provided_bind, Lib.provided_get]
      intro _
      rcases hfound : s₁.freeFile (diskAddr (heldBlock s₁.content dir (.block i))) with _ | f
      · refine Lib.provided_mono (ih (hgrown.ready hs) hd₁ (hgrown.kept.cached hc) ht₁ (i + 1))
          (fun r s₂ t₂ _ h => ?_) fun _ _ _ _ => id
        exact ⟨hgrown.trans h.1, h.2⟩
      · obtain ⟨⟨j, hj, rfl⟩, -⟩ := freeFile_some hfound
        simp only
        rw [Lib.provided_pure]
        refine fun _ => ⟨hgrown, fun f hf => ?_⟩
        obtain rfl := Except.ok.inj hf
        exact ⟨.slot hd₁ ht₁ hne hj, cached_slot hm hj (k := 0) (by omega)⟩

theorem dirAllocFile_grown (hs : Ready n Z s) {dir : Nat} (hd : IsFile s.content Z dir)
    (hc : s.cached dir = true) (ht : s.content.word (typeAt dir) = FTYPE_DIR) (hg : Gives M Z) :
    provided M (dirAllocFile dir)
      (fun r s' _ => Grown n Z {dir} s s' ∧ ∀ f, r = .ok f → IsFile s'.content Z f ∧ s'.cached f = true)
      E s t := by
  have hmod := hs.file_mod hd
  have hword : s.cached (sizeAt dir) = true := hs.file_word hd hc (by omega)
  unfold dirAllocFile
  rw [Lib.provided_bind, provided_loadWord hword (by unfold sizeAt; omega)]
  exact fun _ => allocFileFrom_grown hs hd hc ht hg _ 0

/-! ## Walking -/

/-- The file that the names lead to is there, or the directory where a name is missing. -/
def Walk.There (Z : Set Nat) (s : Server) : Walk → Prop
  | .found _ file => Present Z s file
  | .missing dir name => Present Z s dir ∧ s.content.word (typeAt dir) = FTYPE_DIR ∧
    name.length < MAXNAMELEN
  | .failed _ => True

theorem enter_grown (hs : Ready n Z s) {file : Nat} (hf : Present Z s file) (hg : Gives M Z)
    (name : Name) :
    provided M (enter file name) (fun w s' _ => Grown n Z .univ s s' ∧ w.There Z s') E s t := by
  have hmod := hs.file_mod hf.isFile
  have hword : s.cached (typeAt file) = true := hs.file_word hf.isFile hf.cached (by omega)
  unfold enter
  rw [Lib.provided_ite]
  refine ⟨fun _ => ?_, fun hshort => ?_⟩
  · rw [Lib.provided_pure]
    exact fun _ => ⟨.refl hs.sound, trivial⟩
  rw [Lib.provided_bind, provided_loadWord hword (by unfold typeAt; omega), Lib.provided_ite]
  refine fun _ => ⟨fun _ => ?_, fun htype => ?_⟩
  · rw [Lib.provided_pure]
    exact fun _ => ⟨.refl hs.sound, trivial⟩
  have ht := not_not.mp htype
  rw [Lib.provided_bind]
  refine Lib.provided_mono (dirLookup_grown hs hf.isFile hf.cached ht hg name)
    (fun r s₁ t₁ _ h => ?_) fun _ _ _ _ => id
  obtain ⟨hgrown, hfound⟩ := h
  rcases r with e | f
  · have hmissing : Walk.There Z s₁ (.missing file name) :=
      ⟨hgrown.present hf, (hgrown.types hf.isFile).trans ht, Nat.lt_of_not_le hshort⟩
    by_cases he : e = .notFound
    · subst he
      simp only
      rw [Lib.provided_pure]
      exact fun _ => ⟨hgrown, hmissing⟩
    · simp only
      rw [Lib.provided_pure]
      exact fun _ => ⟨hgrown, trivial⟩
  · simp only
    rw [Lib.provided_pure]
    exact fun _ => ⟨hgrown, hfound f rfl⟩

theorem foldlM_grown (hs : Ready n Z s) {w : Walk} (hw : w.There Z s) (hg : Gives M Z)
    (names : List Name) :
    provided M (names.foldlM Walk.advance w) (fun r s' _ => Grown n Z .univ s s' ∧ r.There Z s') E s t := by
  induction names generalizing w s t with
  | nil =>
    rw [List.foldlM_nil, Lib.provided_pure]
    exact fun _ => ⟨.refl hs.sound, hw⟩
  | cons name names ih =>
    rcases w with ⟨dir, file⟩ | ⟨dir, name'⟩ | e
    · rw [List.foldlM_cons, Lib.provided_bind]
      refine Lib.provided_mono (enter_grown hs hw hg name) (fun w s₁ t₁ _ h => ?_) fun _ _ _ _ => id
      refine Lib.provided_mono (ih (h.1.ready hs) h.2) (fun r s₂ t₂ _ h' => ?_) fun _ _ _ _ => id
      exact ⟨h.1.trans h'.1, h'.2⟩
    · rw [foldlM_missing, if_neg (List.cons_ne_nil _ _), Lib.provided_pure]
      exact fun _ => ⟨.refl hs.sound, trivial⟩
    · rw [foldlM_failed, Lib.provided_pure]
      exact fun _ => ⟨.refl hs.sound, trivial⟩

theorem walkPath_grown (hs : Tree n Z s) (hg : Gives M Z) (path : Name) :
    provided M (walkPath path) (fun w s' _ => Grown n Z .univ s s' ∧ w.There Z s') E s t := by
  have hroot : s.root = diskAddr 1 + 8 := by
    unfold Server.root
    rw [hs.super]
  rw [walkPath_eq, Lib.provided_bind, Lib.provided_get, hroot]
  exact fun _ => foldlM_grown hs.toReady (w := .found 0 _) hs.root hg _

theorem fileOpen_grown (hs : Tree n Z s) (hg : Gives M Z) (path : Name) :
    provided M (fileOpen path)
      (fun r s' _ => Grown n Z .univ s s' ∧ ∀ f, r = .ok f → Present Z s' f) E s t := by
  unfold fileOpen
  rw [Lib.provided_bind]
  refine Lib.provided_mono (walkPath_grown hs hg path) (fun w s₁ t₁ _ h => ?_) fun _ _ _ _ => id
  rcases w with ⟨dir, file⟩ | ⟨dir, name⟩ | e
  · rw [Lib.provided_pure]
    refine fun _ => ⟨h.1, fun f hf => ?_⟩
    obtain rfl := Except.ok.inj hf
    exact h.2
  · rw [Lib.provided_pure]
    exact fun _ => ⟨h.1, nofun⟩
  · rw [Lib.provided_pure]
    exact fun _ => ⟨h.1, nofun⟩

end

end Mos.Fs
