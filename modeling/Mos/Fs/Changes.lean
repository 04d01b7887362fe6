import Mos.Fs.Tree

/-!
# The tree of files while it changes

Files are made, truncated, flushed and removed. Each function changes one file, and the
server gives up in two places only.
-/

namespace Mos.Fs

open Lib (Bytes Cond provided)
open Lib.Proc (Trace World)

/-! ## The tree after a part of a request -/

/-- The tree is still in order. Of the files in use, those in `F` may have changed. -/
structure Stays (n : Nat) (Z F : Set Nat) (s s' : Server) : Prop where
  kept : Kept s s'
  sound : Sound n Z s'.content
  links : ∀ {g}, g = diskAddr 1 + 8 ∨ g ∈ Z → Linked s g → Linked s' g
  others : ∀ {g}, g ∈ Z → g ∉ F → SameFile F s.content s'.content g

section

variable {n : Nat} {Z F F' : Set Nat} {s s' s'' : Server}

theorem isFile_inUse {c : Bytes} {g : Nat} (hg : g = diskAddr 1 + 8 ∨ g ∈ Z) : IsFile c Z g := by
  rcases hg with rfl | hg
  · exact .root
  · exact .extra hg

theorem Stays.refl (hs : Sound n Z s.content) : Stays n Z F s s :=
  ⟨Kept.refl s, hs, fun _ => id, fun _ _ => .refl _ _⟩

theorem Stays.trans (h : Stays n Z F s s') (h' : Stays n Z F s' s'') : Stays n Z F s s'' :=
  ⟨h.kept.trans h'.kept, h'.sound, fun hg hl => h'.links hg (h.links hg hl),
    fun hg hout => (h.others hg hout).trans (h'.others hg hout)⟩

theorem Stays.weaken (h : Stays n Z F s s') (hF : F ⊆ F') : Stays n Z F' s s' :=
  { h with others := fun hg hout => (h.others hg fun hin => hout (hF hin)).weaken hF }

theorem Grown.stays (h : Grown n Z F s s') : Stays n Z F s s' :=
  ⟨h.kept, h.sound, fun hg => h.links (isFile_inUse hg), fun hg => h.others (.extra hg)⟩

theorem Intact.stays (h : Intact s s') (hs : Ready n Z s) : Stays n Z F s s' := (h.grown hs).stays

theorem Stays.ready (h : Stays n Z F s s') (hs : Ready n Z s) : Ready n Z s' :=
  ⟨h.kept.mounted hs.toMounted, h.sound⟩

theorem Stays.tree (h : Stays n Z F s s') (hs : Tree n Z s) : Tree n Z s' :=
  ⟨h.ready hs.toReady, fun g hg => h.links hg (hs.links g hg)⟩

/-- The name and the type of `f` have stayed. -/
def Titled (f : Nat) (c c' : Bytes) : Prop :=
  ∀ k < 136, k < 128 ∨ 132 ≤ k → c' (f + k) = c (f + k)

theorem Titled.type {f : Nat} {c c' : Bytes} (h : Titled f c c') :
    c'.word (typeAt f) = c.word (typeAt f) := by
  refine Lib.Bytes.word_congr fun a h1 h2 => ?_
  obtain ⟨k, rfl⟩ := Nat.exists_eq_add_of_le (show f ≤ a by unfold typeAt at h1; omega)
  unfold typeAt at h1 h2
  exact h k (by omega) (by omega)

theorem Titled.trans {f : Nat} {c c' c'' : Bytes} (h : Titled f c c') (h' : Titled f c' c'') :
    Titled f c c'' := fun k hk hout => (h' k hk hout).trans (h k hk hout)

/-- Only the file `f` may have changed, and it holds no block that it did not hold. -/
structure Cuts (n : Nat) (Z : Set Nat) (f : Nat) (s s' : Server) : Prop extends Stays n Z {f} s s' where
  held : ∀ u, heldBlock s'.content f u = 0 ∨ heldBlock s'.content f u = heldBlock s.content f u
  title : Titled f s.content s'.content

theorem Cuts.trans {f : Nat} (h : Cuts n Z f s s') (h' : Cuts n Z f s' s'') : Cuts n Z f s s'' where
  toStays := h.toStays.trans h'.toStays
  held u := by
    rcases h'.held u with h0 | heq
    · exact Or.inl h0
    · rw [heq]
      exact h.held u
  title := h.title.trans h'.title

theorem Intact.title (h : Intact s s') (f : Nat) : Titled f s.content s'.content :=
  fun _ _ _ => by rw [h.content]

theorem Cuts.refl (hs : Sound n Z s.content) (f : Nat) : Cuts n Z f s s :=
  ⟨.refl hs, fun _ => Or.inr rfl, fun _ _ _ => rfl⟩

theorem Intact.cuts (h : Intact s s') (hs : Ready n Z s) (f : Nat) : Cuts n Z f s s' :=
  ⟨h.stays hs, fun _ => by rw [h.content]; exact Or.inr rfl, h.title f⟩

theorem Ready.of_fields (hs : Ready n Z s) {f : Nat} (hf : IsFile s.content Z f) (hk : Kept s s')
    (hsound : Sound n Z s'.content)
    (hc : ∀ a, s'.content a ≠ s.content a → f ≤ a ∧ a < f + 180) : Stays n Z {f} s s' := by
  refine ⟨hk, hsound, fun hg hl => hl.keep hk (hs.sound.dir_of_fields hf (isFile_inUse hg) hc),
    fun hg hout => hs.sound.other_of_struct hf (.extra hg) hout fun a hne => ?_⟩
  have := hc a hne
  omega

theorem kept_released (s : Server) (b : Nat) : Kept s (s.released b) := kept_put s _ _

/-- A block is taken away from a file. -/
theorem Ready.clear (hs : Ready n Z s) {f : Nat} {u : Use} (hf : IsFile s.content Z f)
    (hb : heldBlock s.content f u ≠ 0) (hc : s.cached (ptrAt s.content f u) = true) :
    Cuts n Z f s ((s.released (heldBlock s.content f u)).put (ptrAt s.content f u) 0) := by
  obtain ⟨own, dep, ho⟩ := hs.sound.tree
  have hrange := (hs.held hf hb).1
  have hk := kept_released s (heldBlock s.content f u)
  have hcontent : ((s.released (heldBlock s.content f u)).put (ptrAt s.content f u) 0).content =
      cleared s.content f u := by
    rw [content_put (hk.cached hc) (ptrAt_mod (hs.file_mod hf) u),
      content_released hs.toMounted hrange.2]
    rfl
  have hkept := hk.trans (kept_put (s.released (heldBlock s.content f u)) (ptrAt s.content f u) 0)
  refine ⟨⟨hkept, ?_, fun hg hl => hl.keep hkept ?_, fun hg hout => ?_⟩, fun v => ?_, ?_⟩
  · rw [hcontent]
    exact hs.sound.clear hf hb
  · rw [hcontent]
    exact hs.sound.dir_clear hf (isFile_inUse hg) hb
  · rw [hcontent]
    exact hs.sound.other_clear hf (.extra hg) hout hb
  · rw [hcontent]
    exact (ho.shrinks_cleared hf hb).held v hf
  · have hptr := ho.ptr_off_file hf hf (hasUse_of_held hb)
    have hbit := (ho.seat hf).off_bitmap hrange.2
    intro k hk _
    rw [hcontent]
    unfold cleared release
    rw [Lib.Bytes.setWord_of_ne (by omega), Lib.Bytes.setWord_of_ne (by omega)]

end

/-- Where the server marks that it makes a directory, the `struct File` holds no blocks. -/
def Creates (M : Cond Call Reply) : Prop :=
  ∀ t f mode c, M.Holds (t ++ [⟨.mark (.creates f mode) c, ()⟩]) → mode = O_MKDIR →
    ∀ i, heldBlock c f (.block i) = 0

/-- Where the server marks that it flushes a directory, that is a file of the tree. -/
def Flushes (M : Cond Call Reply) (Z : Set Nat) : Prop :=
  ∀ t d c, M.Holds (t ++ [⟨.mark (.flushes d) c, ()⟩]) → IsFile c Z d

theorem Flushes.mono {M : Cond Call Reply} {Z Z' : Set Nat} (h : Flushes M Z) (hz : Z ⊆ Z') :
    Flushes M Z' := fun t d c hm => (h t d c hm).of_files fun _ hz' => .extra (hz hz')

/-- The server gives up: it could not clear a block, or send an answer. -/
def GivesUp (e : Stop) : Prop := e = .panic .clearBlock ∨ e = .panic .notSent

section

variable {M : Cond Call Reply} {E : Stop → Server → Trace Call Reply → Prop} {s : Server}
  {t : Trace Call Reply} {n : Nat} {Z : Set Nat}

/-! ## Making files -/

theorem fillFile_stays (hs : Ready n Z s) {f : Nat} (hf : IsFile s.content Z f)
    (hc : s.cached f = true) (hcreate : Creates M) {name : Name} (hname : name.length < MAXNAMELEN)
    (mode : Nat) :
    provided M (fillFile f mode name) (fun _ s' _ => Stays n Z {f} s s' ∧
      s'.content = (s.content.setWord (typeAt f) (typeOf mode)).setList f (name ++ [0]) ∧
      (mode = O_MKDIR → ∀ i, heldBlock s'.content f (.block i) = 0)) E s t := by
  have h128 : MAXNAMELEN = 128 := rfl
  have hlen : (name ++ [0]).length ≤ 128 := by
    rw [List.length_append, List.length_singleton]
    omega
  have hword : s.cached (typeAt f) = true := hs.file_word hf hc (by omega)
  have hmod := hs.file_mod hf
  have hk := kept_put s (typeAt f) (typeOf mode)
  have htype : (if mode = O_MKDIR then FTYPE_DIR else FTYPE_REG) = typeOf mode := rfl
  unfold fillFile
  rw [htype, Lib.provided_bind, provided_mark]
  intro hm
  rw [Lib.provided_bind, provided_storeWord hword]
  intro _
  rw [provided_storeList (hk.cached hc)]
  intro _
  have hcontent := content_setList (s := s.put (typeAt f) (typeOf mode)) (l := name ++ [0])
    fun k hk' => hk.cached (hs.file_word hf hc (show k < 256 by omega))
  rw [content_put hword (by unfold typeAt; omega)] at hcontent
  obtain ⟨hsound, hblank⟩ := hs.sound.create hf (hcreate _ _ _ _ hm) hname
  rw [← hcontent] at hsound hblank
  refine ⟨hs.of_fields hf (hk.trans (kept_setMem _ _)) hsound fun a hne => ?_, hcontent, hblank⟩
  · by_contra hout
    refine hne ((congrFun hcontent a).trans ?_)
    rw [Lib.Bytes.setList_of_ne (by omega), Lib.Bytes.setWord_of_ne (by unfold typeAt; omega)]

theorem fileCreate_stays (hs : Tree n Z s) (hg : Gives M Z) (hcreate : Creates M) (mode : Nat)
    (path : Name) :
    provided M (fileCreate mode path) (fun _ s' _ => Stays n Z .univ s s') E s t := by
  unfold fileCreate
  rw [Lib.provided_bind]
  refine Lib.provided_mono (walkPath_grown hs hg path) (fun w s₁ t₁ _ h => ?_) fun _ _ _ _ => id
  obtain ⟨hgrown, hthere⟩ := h
  have hstays := hgrown.stays
  have hs₁ := hgrown.ready hs.toReady
  rcases w with ⟨dir, file⟩ | ⟨dir, name⟩ | e
  · rw [Lib.provided_pure]
    exact fun _ => hstays
  · obtain ⟨hdir, ht, hname⟩ := hthere
    rw [Lib.provided_bind]
    refine Lib.provided_mono (dirAllocFile_grown hs₁ hdir.isFile hdir.cached ht hg)
      (fun r s₂ t₂ _ h => ?_) fun _ _ _ _ => id
    have hstays₂ := hstays.trans (h.1.stays.weaken (Set.subset_univ _))
    rcases r with e | f
    · rw [Lib.provided_pure]
      exact fun _ => hstays₂
    · obtain ⟨hf, hc⟩ := h.2 f rfl
      rw [Lib.provided_bind]
      refine Lib.provided_mono (fillFile_stays (h.1.ready hs₁) hf hc hcreate hname mode)
        (fun _ s₃ t₃ _ h => ?_) fun _ _ _ _ => id
      rw [Lib.provided_pure]
      exact fun _ => hstays₂.trans (h.1.weaken (Set.subset_univ _))
  · rw [Lib.provided_pure]
    exact fun _ => hstays

/-! ## Taking blocks away -/

theorem fileClearBlock_cuts (hs : Ready n Z s) {f : Nat} (hf : f ∈ Z) (hc : s.cached f = true)
    (i : Nat) :
    provided M (fileClearBlock f i) (fun _ s' _ => Cuts n Z f s s') E s t := by
  have hfile : ∀ {c}, IsFile c Z f := .extra hf
  unfold fileClearBlock
  rw [Lib.provided_bind]
  refine Lib.provided_mono (fileBlockWalk_grown hs hfile hc nofun) (fun r s₁ t₁ _ h => ?_)
    fun _ _ _ _ => id
  obtain ⟨hindexed, hptr⟩ := h
  have hin := hindexed.intact rfl
  have hs₁ := hin.ready hs
  rcases r with e | p
  · rw [Lib.provided_pure]
    exact fun _ => hin.cuts hs f
  · obtain ⟨hu, rfl, hp⟩ := hptr p rfl
    simp only
    rw [Lib.provided_bind, provided_loadWord hp (ptrAt_mod (hs₁.file_mod hfile) _),
      ← heldBlock_of hu, Lib.provided_ite]
    refine fun _ => ⟨fun _ => ?_, fun hne => ?_⟩
    · rw [Lib.provided_pure]
      exact fun _ => hin.cuts hs f
    · obtain ⟨hrange, -⟩ := hs₁.held hfile hne
      rw [Lib.provided_bind, provided_mark]
      intro _
      rw [Lib.provided_bind, provided_freeBlock hs₁.toMounted hs₁.sound.blocks hne hrange.2]
      intro _
      rw [Lib.provided_bind, provided_storeWord ((kept_released _ _).cached hp), Lib.provided_pure]
      exact fun _ _ => (hin.cuts hs f).trans (hs₁.clear hfile hne hp)

theorem clearBlocks_cuts (hs : Ready n Z s) {f : Nat} (hf : f ∈ Z) (hc : s.cached f = true)
    (hE : ∀ e s t, GivesUp e → E e s t) (k i : Nat) :
    provided M (clearBlocks f k i) (fun _ s' _ => Cuts n Z f s s') E s t := by
  induction k generalizing i s t with
  | zero =>
    unfold clearBlocks
    rw [Lib.provided_pure]
    exact fun _ => .refl hs.sound f
  | succ k ih =>
    unfold clearBlocks clearOrPanic
    rw [Lib.provided_bind, Lib.provided_bind]
    refine Lib.provided_mono (fileClearBlock_cuts hs hf hc i) (fun r s₁ t₁ _ h => ?_)
      fun _ _ _ _ => id
    rcases r with e | u
    · rw [Lib.provided_throw]
      exact fun _ => hE _ _ _ (Or.inl rfl)
    · rw [Lib.provided_pure]
      exact fun _ => Lib.provided_mono (ih (h.ready hs) (h.kept.cached hc) (i + 1))
        (fun _ s₂ t₂ _ h' => h.trans h') fun _ _ _ _ => id

theorem freeIndirect_cuts (hs : Ready n Z s) {f : Nat} (hf : f ∈ Z) (hc : s.cached f = true) :
    provided M (freeIndirect f) (fun _ s' _ => Cuts n Z f s s') E s t := by
  have hfile : IsFile s.content Z f := .extra hf
  have hmod := hs.file_mod hfile
  have hword : s.cached (indirectAt f) = true := hs.file_word hfile hc (by omega)
  unfold freeIndirect
  rw [Lib.provided_bind, provided_loadWord hword (by unfold indirectAt; omega), ← heldBlock_index,
    Lib.provided_ite]
  refine fun _ => ⟨fun _ => ?_, fun hne => ?_⟩
  · rw [Lib.provided_pure]
    exact fun _ => .refl hs.sound f
  · obtain ⟨hrange, -⟩ := hs.held hfile hne
    rw [Lib.provided_bind, provided_mark]
    intro _
    rw [Lib.provided_bind, provided_freeBlock hs.toMounted hs.sound.blocks hne hrange.2]
    intro _
    rw [provided_storeWord ((kept_released _ _).cached hword)]
    exact fun _ => hs.clear hfile hne hword

/-- Only the size changes, to `v`. -/
theorem setSize_cuts (hs : Ready n Z s) {f : Nat} (hf : f ∈ Z) (hc : s.cached f = true) (v : Nat) :
    provided M (setSize f v)
      (fun _ s' _ => Cuts n Z f s s' ∧ s'.content.word (sizeAt f) = v % 2 ^ 32) E s t := by
  have hfile : IsFile s.content Z f := .extra hf
  have hmod := hs.file_mod hfile
  have hword : s.cached (sizeAt f) = true := hs.file_word hfile hc (by omega)
  have hcontent := content_put (v := v) hword (show sizeAt f % 4 = 0 by unfold sizeAt; omega)
  have halike := (hs.sound.of_fields hfile (setWord_fields (v := v) (k := 128) (by omega))).2
  unfold setSize
  rw [Lib.provided_bind, provided_mark]
  intro _
  rw [provided_storeWord hword]
  refine fun _ => ⟨⟨(hs.set_size hfile hc v).stays, fun u => Or.inr ?_, fun k hk hout => ?_⟩, ?_⟩
  · rw [hcontent]
    exact halike.held u hfile
  · rw [hcontent]
    exact Lib.Bytes.setWord_of_ne (by unfold sizeAt; omega)
  · rw [hcontent]
    exact Lib.Bytes.word_setWord_self ..

theorem fileTruncate_cuts (hs : Ready n Z s) {f : Nat} (hf : f ∈ Z) (hc : s.cached f = true)
    (hE : ∀ e s t, GivesUp e → E e s t) (v : Nat) :
    provided M (fileTruncate f v)
      (fun _ s' _ => Cuts n Z f s s' ∧ s'.content.word (sizeAt f) = v % 2 ^ 32) E s t := by
  have hfile : IsFile s.content Z f := .extra hf
  have hmod := hs.file_mod hfile
  have hword : s.cached (sizeAt f) = true := hs.file_word hfile hc (by omega)
  unfold fileTruncate
  rw [Lib.provided_bind, provided_mark]
  intro _
  rw [Lib.provided_bind, provided_loadWord hword (by unfold sizeAt; omega)]
  intro _
  rw [Lib.provided_bind]
  refine Lib.provided_mono (clearBlocks_cuts hs hf hc hE _ _) (fun _ s₁ t₁ _ h => ?_)
    fun _ _ _ _ => id
  have hset : ∀ {s₂ t₂}, Cuts n Z f s s₂ → provided M (setSize f v)
      (fun _ s' _ => Cuts n Z f s s' ∧ s'.content.word (sizeAt f) = v % 2 ^ 32) E s₂ t₂ := fun h₂ =>
    Lib.provided_mono (setSize_cuts (h₂.ready hs) hf (h₂.kept.cached hc) v)
      (fun _ _ _ _ h₃ => ⟨h₂.trans h₃.1, h₃.2⟩) fun _ _ _ _ => id
  rw [Lib.provided_ite]
  refine ⟨fun _ => ?_, fun _ => hset h⟩
  rw [Lib.provided_bind]
  exact Lib.provided_mono (freeIndirect_cuts (h.ready hs) hf (h.kept.cached hc))
    (fun _ s₂ t₂ _ h₂ => hset (h.trans h₂)) fun _ _ _ _ => id

/-! ## Flushing -/

theorem mapped_of_dirty {b : Nat} (h : s.blockIsDirty b = true) : s.mapped b = true := by
  unfold Server.blockIsDirty at h
  rw [Bool.and_eq_true] at h
  exact h.1

theorem intact_write {b : Nat} (hm : s.mapped b = true) : Intact s (s.ideWrite b) :=
  ⟨kept_ideWrite s b, content_ideWrite hm⟩

theorem flushFrom_intact (hs : Ready n Z s) {f : Nat} (hf : IsFile s.content Z f)
    (hc : s.cached f = true) (k i : Nat) :
    provided M (flushFrom f k i) (fun _ s' _ => Intact s s') E s t := by
  induction k generalizing i s t with
  | zero =>
    unfold flushFrom
    rw [Lib.provided_pure]
    exact fun _ => .refl s
  | succ k ih =>
    have hrest : ∀ {s₁ t₁}, Intact s s₁ →
        provided M (flushFrom f k (i + 1)) (fun _ s' _ => Intact s s') E s₁ t₁ := fun h =>
      Lib.provided_mono (ih (h.ready hs) (h.content ▸ hf) (h.kept.cached hc) (i + 1))
        (fun _ _ _ _ h' => h.trans h') fun _ _ _ _ => id
    unfold flushFrom flushBlock
    rw [Lib.provided_bind, Lib.provided_bind]
    refine Lib.provided_mono (fileMapBlock_grown hs hf hc fun h => by cases h) (fun r s₁ t₁ _ h => ?_)
      fun _ _ _ _ => id
    have hin := h.1.intact rfl
    rcases r with e | b
    · rw [Lib.provided_pure]
      exact fun _ => hrest hin
    · simp only
      rw [Lib.provided_bind, Lib.provided_get, Lib.provided_ite]
      refine fun _ => ⟨fun hdirty => ?_, fun _ => ?_⟩
      · rw [provided_writeBlock (mapped_of_dirty hdirty)]
        exact fun _ => hrest (hin.trans (intact_write (mapped_of_dirty hdirty)))
      · rw [Lib.provided_pure]
        exact fun _ => hrest hin

theorem fileFlush_intact (hs : Ready n Z s) {f : Nat} (hf : IsFile s.content Z f)
    (hc : s.cached f = true) :
    provided M (fileFlush f) (fun _ s' _ => Intact s s') E s t := by
  have hmod := hs.file_mod hf
  have hword : s.cached (sizeAt f) = true := hs.file_word hf hc (by omega)
  unfold fileFlush
  rw [Lib.provided_bind, provided_loadWord hword (by unfold sizeAt; omega)]
  exact fun _ => flushFrom_intact hs hf hc _ 0

theorem flushDir_intact (hs : Ready n Z s) {f : Nat} (hf : IsFile s.content Z f)
    (hc : s.cached f = true) (hl : Linked s f) (hflush : Flushes M Z) :
    provided M (flushDir f) (fun _ s' _ => Intact s s') E s t := by
  have hmod := hs.file_mod hf
  have hword : s.cached (dirAt f) = true := hs.file_word hf hc (by omega)
  unfold flushDir
  rw [Lib.provided_bind, provided_loadWord hword (by unfold dirAt; omega), Lib.provided_ite]
  refine fun _ => ⟨fun _ => ?_, fun hne => ?_⟩
  · rw [Lib.provided_pure]
    exact fun _ => .refl s
  · rw [Lib.provided_bind, provided_mark]
    intro hm
    exact fileFlush_intact hs (hflush _ _ _ hm) (hl.resolve_left hne)

theorem fileClose_intact (hs : Ready n Z s) {f : Nat} (hf : IsFile s.content Z f)
    (hc : s.cached f = true) (hl : Linked s f) (hflush : Flushes M Z) :
    provided M (fileClose f) (fun _ s' _ => Intact s s') E s t := by
  unfold fileClose
  rw [Lib.provided_bind]
  refine Lib.provided_mono (fileFlush_intact hs hf hc) (fun _ s₁ t₁ _ h => ?_) fun _ _ _ _ => id
  exact Lib.provided_mono (flushDir_intact (h.ready hs) (h.content ▸ hf) (h.kept.cached hc)
    (h.linked hl) hflush) (fun _ _ _ _ h' => h.trans h') fun _ _ _ _ => id

theorem fileSetSize_cuts (hs : Ready n Z s) {f : Nat} (hf : f ∈ Z) (hc : s.cached f = true)
    (hl : Linked s f) (hflush : Flushes M Z) (hE : ∀ e s t, GivesUp e → E e s t) (v : Nat) :
    provided M (fileSetSize f v) (fun _ s' _ => Cuts n Z f s s') E s t := by
  have hfile : ∀ {c}, IsFile c Z f := .extra hf
  have hmod := hs.file_mod hfile
  have hword : s.cached (sizeAt f) = true := hs.file_word hfile hc (by omega)
  have hrest : ∀ {s₁ t₁}, Cuts n Z f s s₁ →
      provided M (do setSize f v; flushDir f) (fun _ s' _ => Cuts n Z f s s') E s₁ t₁ := by
    intro s₁ t₁ h₁
    rw [Lib.provided_bind]
    refine Lib.provided_mono (setSize_cuts (h₁.ready hs) hf (h₁.kept.cached hc) v)
      (fun _ s₂ t₂ _ h₂ => ?_) fun _ _ _ _ => id
    have h := h₁.trans h₂.1
    exact Lib.provided_mono (flushDir_intact (h.ready hs) hfile (h.kept.cached hc)
      (h.links (Or.inr hf) hl) hflush) (fun _ _ _ _ h₃ => h.trans (h₃.cuts (h.ready hs) f))
      fun _ _ _ _ => id
  unfold fileSetSize shrinkFile
  rw [Lib.provided_bind, Lib.provided_bind, provided_loadWord hword (by unfold sizeAt; omega),
    Lib.provided_ite]
  refine fun _ => ⟨fun _ => ?_, fun _ => ?_⟩
  · exact Lib.provided_mono (fileTruncate_cuts hs hf hc hE v) (fun _ s₁ t₁ _ h => hrest h.1)
      fun _ _ _ _ => id
  · rw [Lib.provided_pure]
    exact fun _ => hrest (.refl hs.sound f)

theorem syncFrom_intact (k i : Nat) :
    provided M (syncFrom k i) (fun _ s' _ => Intact s s') E s t := by
  induction k generalizing i s t with
  | zero =>
    unfold syncFrom
    rw [Lib.provided_pure]
    exact fun _ => .refl s
  | succ k ih =>
    unfold syncFrom
    rw [Lib.provided_bind, Lib.provided_get, Lib.provided_ite]
    refine fun _ => ⟨fun hdirty => ?_, fun _ => ih (i + 1)⟩
    have hm := mapped_of_dirty hdirty
    rw [Lib.provided_bind, provided_writeBlock hm]
    exact fun _ => Lib.provided_mono (ih (i + 1)) (fun _ _ _ _ h => (intact_write hm).trans h)
      fun _ _ _ _ => id

theorem fsSync_intact (hs : Mounted n s) :
    provided M fsSync (fun _ s' _ => Intact s s') E s t := by
  unfold fsSync
  rw [Lib.provided_bind, provided_nblocks hs]
  exact fun _ => syncFrom_intact _ 0

theorem dirtyBlock_intact (b : Nat) :
    provided M (dirtyBlock b) (fun _ s' _ => Intact s s') E s t := by
  unfold dirtyBlock
  simp only [Lib.provided_bind, Lib.provided_get, Lib.provided_ite, Lib.provided_pure,
    Lib.provided_set]
  exact fun _ => ⟨fun _ _ => .refl s, fun _ => ⟨fun _ _ => .refl s,
    fun _ _ _ => ⟨kept_setDirty s b, rfl⟩⟩⟩

theorem fileDirty_intact (hs : Ready n Z s) {f : Nat} (hf : IsFile s.content Z f)
    (hc : s.cached f = true) (offset : Nat) :
    provided M (fileDirty f offset) (fun _ s' _ => Intact s s') E s t := by
  unfold fileDirty
  rw [Lib.provided_bind]
  refine Lib.provided_mono (fileMapBlock_grown hs hf hc nofun) (fun r s₁ t₁ _ h => ?_)
    fun _ _ _ _ => id
  have hin := h.1.intact rfl
  rcases r with e | b
  · rw [Lib.provided_pure]
    exact fun _ => hin
  · exact Lib.provided_mono (dirtyBlock_intact b) (fun _ s₂ t₂ _ h₂ => hin.trans h₂) fun _ _ _ _ => id

/-! ## Removing -/

/-- After the removal of `f`, which has no name and no contents any more. -/
structure Removed (n : Nat) (Z : Set Nat) (f : Nat) (s s' : Server) : Prop extends
    Stays n Z {f} s s' where
  held : ∀ u, heldBlock s'.content f u = 0 ∨ heldBlock s'.content f u = heldBlock s.content f u
  type : s'.content.word (typeAt f) = s.content.word (typeAt f)
  unnamed : s'.content f = 0
  empty : s'.content.word (sizeAt f) = 0

theorem removeFile_removed (hs : Ready n Z s) {f : Nat} (hf : f ∈ Z) (hc : s.cached f = true)
    (hl : Linked s f) (hflush : Flushes M Z) (hE : ∀ e s t, GivesUp e → E e s t) :
    provided M (removeFile f) (fun _ s' _ => Removed n Z f s s') E s t := by
  have hfile : ∀ {c}, IsFile c Z f := .extra hf
  unfold removeFile
  rw [Lib.provided_bind]
  refine Lib.provided_mono (fileTruncate_cuts hs hf hc hE 0) (fun _ s₁ t₁ _ h => ?_)
    fun _ _ _ _ => id
  obtain ⟨h₁, hsize⟩ := h
  have hs₁ := h₁.ready hs
  have hc₁ := h₁.kept.cached hc
  rw [Lib.provided_bind, provided_mark]
  intro _
  rw [Lib.provided_bind, provided_storeList hc₁]
  intro _
  have hk := kept_setMem s₁ (s₁.mem.setList f [0])
  have hcontent := content_setList (s := s₁) (a := f) (l := [0]) fun k hk' =>
    hs₁.file_word hfile hc₁ (by rw [List.length_singleton] at hk'; omega)
  obtain ⟨hsound, halike⟩ := hs₁.sound.of_fields hfile (setList_fields (f := f) (l := [0]) (by simp))
  have h₂ : Stays n Z {f} s₁ (s₁.setMem (s₁.mem.setList f [0])) := by
    refine hs₁.of_fields hfile hk (by rwa [hcontent]) fun a hne => ?_
    by_contra hout
    refine hne ((congrFun hcontent a).trans (Lib.Bytes.setList_of_ne ?_))
    rw [List.length_singleton]
    omega
  have hremoved : Removed n Z f s (s₁.setMem (s₁.mem.setList f [0])) := by
    refine ⟨h₁.toStays.trans h₂, fun u => ?_, ?_, ?_, ?_⟩
    · rw [hcontent, halike.held u hfile]
      exact h₁.held u
    · rw [hcontent, halike.types hfile]
      exact h₁.title.type
    · rw [hcontent]
      unfold Lib.Bytes.setList
      simp
    · rw [hcontent, Lib.Bytes.word_setList_of_ne (by rw [List.length_singleton]; unfold sizeAt; omega),
        hsize, Nat.zero_mod]
  have hs₂ := hremoved.ready hs
  rw [Lib.provided_bind]
  refine Lib.provided_mono (fileFlush_intact hs₂ hfile (hk.cached hc₁)) (fun _ s₃ t₃ _ h₃ => ?_)
    fun _ _ _ _ => id
  refine Lib.provided_mono (flushDir_intact (h₃.ready hs₂) hfile (h₃.kept.cached (hk.cached hc₁))
    (h₃.linked (hremoved.links (Or.inr hf) hl)) hflush) (fun _ s₄ t₄ _ h₄ => ?_) fun _ _ _ _ => id
  have hin := h₃.trans h₄
  refine ⟨hremoved.toStays.trans (hin.stays hs₂), ?_, ?_, ?_, ?_⟩
  all_goals rw [hin.content]
  exacts [hremoved.held, hremoved.type, hremoved.unnamed, hremoved.empty]

theorem fileRemove_tree (hs : Tree n Z s) (hg : Gives M Z) (hflush : Flushes M Z)
    (hE : ∀ e s t, GivesUp e → E e s t) (path : Name) (type : Nat) :
    provided M (fileRemove path type) (fun _ s' _ => Kept s s' ∧ Tree n Z s') E s t := by
  unfold fileRemove
  rw [Lib.provided_bind]
  refine Lib.provided_mono (walkPath_grown hs hg path) (fun w s₁ t₁ _ h => ?_) fun _ _ _ _ => id
  obtain ⟨hgrown, hthere⟩ := h
  have hs₁ := hgrown.tree hs
  rcases w with ⟨dir, f⟩ | ⟨dir, name⟩ | e
  · have hfile : Present Z s₁ f := hthere
    have hmod := hs₁.file_mod hfile.isFile
    have hword : s₁.cached (typeAt f) = true := hs₁.file_word hfile.isFile hfile.cached (by omega)
    rw [Lib.provided_bind, provided_loadWord hword (by unfold typeAt; omega), Lib.provided_ite]
    refine fun _ => ⟨fun _ => ?_, fun _ => ?_⟩
    · rw [Lib.provided_pure]
      exact fun _ => ⟨hgrown.kept, hs₁⟩
    · have htree := hs₁.insert hfile.isFile hfile.linked
      rw [Lib.provided_bind]
      refine Lib.provided_mono (removeFile_removed htree.toReady (Set.mem_insert f Z) hfile.cached
        hfile.linked (hflush.mono (Set.subset_insert f Z)) hE) (fun _ s₂ t₂ _ h₂ => ?_)
        fun _ _ _ _ => id
      rw [Lib.provided_pure]
      exact fun _ => ⟨hgrown.kept.trans h₂.kept, (h₂.tree htree).mono (Set.subset_insert f Z)⟩
  · rw [Lib.provided_pure]
    exact fun _ => ⟨hgrown.kept, hs₁⟩
  · rw [Lib.provided_pure]
    exact fun _ => ⟨hgrown.kept, hs₁⟩

end

end Mos.Fs
