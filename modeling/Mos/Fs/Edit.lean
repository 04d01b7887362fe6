import Mos.Fs.Image

/-!
# Edits of the tree of files

What the server does to the contents of the blocks, one edit after another: it gives a
block to a file, takes one away, and sets fields of a `struct File`. Each keeps the tree a
tree.
-/

namespace Mos.Fs

open Lib (Bytes)

/-- The super block and the bitmap are in order, and so is the tree. -/
structure Sound (n : Nat) (Z : Set Nat) (c : Bytes) : Prop where
  blocks : c.word (diskAddr 1 + 4) = n
  small : n ≤ 2 ^ 18
  reserved : ∀ b < n, b < 3 + n / BLOCK_SIZE_BIT → isFree c b = false
  tree : ∃ own dep, Owned n own dep Z c

def typeOf (mode : Nat) : Nat := if mode = O_MKDIR then FTYPE_DIR else FTYPE_REG

theorem typeOf_lt (mode : Nat) : typeOf mode < 2 ^ 32 := by
  unfold typeOf
  split <;> decide

section

variable {n : Nat} {own : Nat → Option (Nat × Use)} {dep : Nat → Nat} {Z Z' : Set Nat}
  {c c' : Bytes}

theorem IsFile.of_files (hz : ∀ z ∈ Z', IsFile c Z z) {f : Nat} (hf : IsFile c Z' f) :
    IsFile c Z f := by
  induction hf with
  | root => exact .root
  | extra h => exact hz _ h
  | slot _ ht hb hj ih => exact .slot ih ht hb hj

theorem Owned.of_files (h : Owned n own dep Z c) (hz : ∀ z ∈ Z', IsFile c Z z) :
    Owned n own dep Z' c where
  owner := fun hf => h.owner (hf.of_files hz)
  range := fun hf => h.range (hf.of_files hz)
  used := fun hf => h.used (hf.of_files hz)
  deeper := fun hf => h.deeper (hf.of_files hz)
  unused := fun hf => h.unused (hf.of_files hz)
  extras := fun z hz' => h.seat (hz z hz')

theorem Sound.of_files (h : Sound n Z c) (hz : ∀ z ∈ Z', IsFile c Z z) : Sound n Z' c := by
  obtain ⟨own, dep, ho⟩ := h.tree
  exact ⟨h.blocks, h.small, h.reserved, own, dep, ho.of_files hz⟩

theorem Owned.keeps_base (h : Owned n own dep Z c) {f : Nat} (hf : IsFile c Z f)
    (hc : ∀ a, c' a ≠ c a → f ≤ a ∧ a < f + 256) :
    c'.word (diskAddr 1 + 4) = c.word (diskAddr 1 + 4) ∧ ∀ b < n, isFree c' b = isFree c b := by
  have hword : ∀ x, (x + 4 ≤ f ∨ f + 256 ≤ x) → c'.word x = c.word x := by
    intro x hx
    refine Lib.Bytes.word_congr fun a h1 h2 => ?_
    by_contra hne
    have := hc a hne
    omega
  have hbounds := (h.seat hf).bounds
  refine ⟨hword _ (by omega), fun b hb => ?_⟩
  have := (h.seat hf).off_bitmap hb
  unfold isFree
  rw [hword _ (by omega)]

theorem Sound.of_shrinks (h : Sound n Z c) (hs : Shrinks Z c c')
    (hblocks : c'.word (diskAddr 1 + 4) = c.word (diskAddr 1 + 4))
    (hfree : ∀ b < n, b < 3 + n / BLOCK_SIZE_BIT → isFree c' b = isFree c b) : Sound n Z c' := by
  obtain ⟨own, dep, ho⟩ := h.tree
  exact ⟨hblocks.trans h.blocks, h.small, fun b hb hr => (hfree b hb hr).trans (h.reserved b hb hr),
    own, dep, hs.owned ho⟩

theorem Sound.of_fields (h : Sound n Z c) {f : Nat} (hf : IsFile c Z f)
    (hc : ∀ a, c' a ≠ c a → f ≤ a ∧ a < f + 132 ∨ f + 180 ≤ a ∧ a < f + 256) :
    Sound n Z c' ∧ Alike Z c c' := by
  obtain ⟨own, dep, ho⟩ := h.tree
  have ha := ho.alike_of_fields hf hc
  obtain ⟨h1, h2⟩ := ho.keeps_base hf fun a hne => by
    have := hc a hne
    omega
  exact ⟨h.of_shrinks ha.shrinks h1 fun b hb _ => h2 b hb, ha⟩

theorem setWord_fields {f k v : Nat} (hk : k + 4 ≤ 132 ∨ 180 ≤ k ∧ k + 4 ≤ 256) (a : Nat)
    (hne : c.setWord (f + k) v a ≠ c a) : f ≤ a ∧ a < f + 132 ∨ f + 180 ≤ a ∧ a < f + 256 := by
  by_contra hout
  exact hne (Lib.Bytes.setWord_of_ne (by omega))

theorem setList_fields {f : Nat} {l : List UInt8} (hl : l.length ≤ 128) (a : Nat)
    (hne : c.setList f l a ≠ c a) : f ≤ a ∧ a < f + 132 ∨ f + 180 ≤ a ∧ a < f + 256 := by
  by_contra hout
  exact hne (Lib.Bytes.setList_of_ne (by omega))

theorem Sound.grantable (h : Sound n Z c) {b : Nat} (hb : InRange n b) (hfree : isFree c b = true)
    (hz : ∀ z ∈ Z, blockOf z ≠ b) : Grantable n Z c b := by
  refine ⟨hb, ?_, hfree, hz⟩
  have h1 := hb.2
  have h2 := h.small
  omega

theorem Sound.give (h : Sound n Z c) {f u b} {fresh : Bool} (hf : IsFile c Z f) (hu : HasUse c f u)
    (hroom : heldBlock c f u = 0) (hb : Grantable n Z c b)
    (hblank : u = .index ∨ c.word (typeAt f) = FTYPE_DIR → Blank (taken c b fresh) b) :
    Sound n Z (given c f u b fresh) := by
  obtain ⟨own, dep, ho⟩ := h.tree
  refine ⟨?_, h.small, fun x hx hr => ?_, _, _, ho.given hf hu hroom hb hblank⟩
  · have hbounds := (ho.seat hf).bounds
    have hbit := bitAt_lt hb.range.2 hb.range
    have hthree := hb.range.three_le
    have hptr : diskAddr 1 + 8 ≤ ptrAt c f u := by
      rcases ptrAt_cases hu with h1 | ⟨hne, h1, -⟩
      · omega
      · have := (ho.index hf hne).2.three_le
        rw [diskAddr_eq] at h1 ⊢
        omega
    rw [← h.blocks]
    unfold given
    rw [Lib.Bytes.word_setWord_of_ne _ (by omega), word_taken]
    · left
      rw [diskAddr_eq, diskAddr_eq]
      omega
    · left
      have h12 : diskAddr 1 + 4096 = diskAddr 2 := rfl
      omega
  · rw [isFree_given_of_ne hb.range hx (ho.ptr_off_bitmap hf hu hx), h.reserved x hx hr,
      Bool.false_and]

theorem Sound.clear (h : Sound n Z c) {f u} (hf : IsFile c Z f) (hb : heldBlock c f u ≠ 0) :
    Sound n Z (cleared c f u) := by
  obtain ⟨own, dep, ho⟩ := h.tree
  refine h.of_shrinks (ho.shrinks_cleared hf hb) ?_ fun x hx hr => ?_
  · have hbounds := (ho.seat hf).bounds
    have hbit := bitAt_lt (ho.range hf hb).2 (ho.range hf hb)
    have hptr : diskAddr 1 + 8 ≤ ptrAt c f u := by
      rcases ptrAt_cases (hasUse_of_held hb) with h1 | ⟨hne, h1, -⟩
      · omega
      · have := (ho.index hf hne).2.three_le
        rw [diskAddr_eq] at h1 ⊢
        omega
    have h12 : diskAddr 1 + 4096 = diskAddr 2 := rfl
    unfold cleared
    rw [Lib.Bytes.word_setWord_of_ne _ (by omega), word_release (by omega)]
  · rw [ho.isFree_cleared hf hb hx]
    have := (ho.range hf hb).1
    have hne : heldBlock c f u ≠ x := by omega
    simp [hne]

theorem Sound.create (h : Sound n Z c) {f mode : Nat} {name : Name} (hf : IsFile c Z f)
    (hmode : mode = O_MKDIR → ∀ i, heldBlock c f (.block i) = 0) (hname : name.length < MAXNAMELEN) :
    Sound n Z ((c.setWord (typeAt f) (typeOf mode)).setList f (name ++ [0])) ∧
      (mode = O_MKDIR → ∀ i,
        heldBlock ((c.setWord (typeAt f) (typeOf mode)).setList f (name ++ [0])) f (.block i) = 0) := by
  obtain ⟨own, dep, ho⟩ := h.tree
  have hty : typeOf mode % 2 ^ 32 = FTYPE_DIR → ∀ i, heldBlock c f (.block i) = 0 := by
    intro ht
    refine hmode ?_
    by_contra hne
    unfold typeOf at ht
    rw [if_neg hne] at ht
    exact absurd ht (by decide)
  have hs := ho.shrinks_type hf hty
  obtain ⟨h1, h2⟩ := ho.keeps_base hf fun a (hne : c.setWord (typeAt f) (typeOf mode) a ≠ c a) => by
    by_contra hout
    exact hne (Lib.Bytes.setWord_of_ne (by unfold typeAt; omega))
  have hsound := h.of_shrinks hs h1 fun b hb _ => h2 b hb
  have hf' := ho.isFile_type hf (typeOf mode) hf (Nat.le_refl _)
  have hlen : (name ++ [0]).length ≤ 128 := by
    have h128 : MAXNAMELEN = 128 := rfl
    rw [List.length_append, List.length_singleton]
    omega
  obtain ⟨hnamed, halike⟩ := hsound.of_fields hf' (setList_fields hlen)
  refine ⟨hnamed, fun hdir i => (halike.held _ hf').trans ?_⟩
  rcases hs.held (.block i) hf with h0 | heq
  · exact h0
  · exact heq.trans (hmode hdir i)

/-! ## The pointers to directories -/

theorem Sound.dir_of_fields (h : Sound n Z c) {f g : Nat} (hf : IsFile c Z f) (hg : IsFile c Z g)
    (hc : ∀ a, c' a ≠ c a → f ≤ a ∧ a < f + 180) : c'.word (dirAt g) = c.word (dirAt g) := by
  obtain ⟨own, dep, ho⟩ := h.tree
  refine Lib.Bytes.word_congr fun a h1 h2 => ?_
  unfold dirAt at h1 h2
  by_contra hne
  have hin := hc a hne
  by_cases hfg : f = g
  · omega
  · have := (ho.seat hf).apart (ho.seat hg) hfg
    omega

theorem Sound.dir_give (h : Sound n Z c) {f g b : Nat} {u : Use} (hf : IsFile c Z f)
    (hg : IsFile c Z g) (hu : HasUse c f u) (hb : Grantable n Z c b) (fresh : Bool) :
    (given c f u b fresh).word (dirAt g) = c.word (dirAt g) := by
  obtain ⟨own, dep, ho⟩ := h.tree
  have hptr := ho.ptr_off_file hg hf hu
  have hpage := ho.off_free hb hg
  have hbit := (ho.seat hg).off_bitmap hb.range.2
  unfold given dirAt
  rw [Lib.Bytes.word_setWord_of_ne _ (by omega), word_taken (by omega) (by omega)]

theorem Sound.dir_clear (h : Sound n Z c) {f g : Nat} {u : Use} (hf : IsFile c Z f)
    (hg : IsFile c Z g) (hb : heldBlock c f u ≠ 0) :
    (cleared c f u).word (dirAt g) = c.word (dirAt g) := by
  obtain ⟨own, dep, ho⟩ := h.tree
  have hptr := ho.ptr_off_file hg hf (hasUse_of_held hb)
  have hbit := (ho.seat hg).off_bitmap (ho.range hf hb).2
  unfold cleared dirAt
  rw [Lib.Bytes.word_setWord_of_ne _ (by omega), word_release (by omega)]

/-! ## The other files -/

/-- The file has the same name, size, type and blocks, and the same contents but for blocks with a file
of `F` in them. -/
structure SameFile (F : Set Nat) (c c' : Bytes) (g : Nat) : Prop where
  bytes : ∀ k < 136, c' (g + k) = c (g + k)
  held : ∀ u, heldBlock c' g u = heldBlock c g u
  data : ∀ i, heldBlock c g (.block i) ≠ 0 → (∀ f ∈ F, blockOf f ≠ heldBlock c g (.block i)) →
    ∀ k < 4096, c' (diskAddr (heldBlock c g (.block i)) + k) =
      c (diskAddr (heldBlock c g (.block i)) + k)

theorem SameFile.refl {F : Set Nat} (c : Bytes) (g : Nat) : SameFile F c c g :=
  ⟨fun _ _ => rfl, fun _ => rfl, fun _ _ _ _ _ => rfl⟩

theorem SameFile.trans {F : Set Nat} {c'' : Bytes} {g : Nat} (h : SameFile F c c' g)
    (h' : SameFile F c' c'' g) : SameFile F c c'' g where
  bytes := fun k hk => (h'.bytes k hk).trans (h.bytes k hk)
  held := fun u => (h'.held u).trans (h.held u)
  data := by
    intro i hb hF k hk
    have hd := h'.data i
    rw [h.held] at hd
    exact (hd hb hF k hk).trans (h.data i hb hF k hk)

theorem SameFile.weaken {F F' : Set Nat} {g : Nat} (h : SameFile F c c' g) (hF : F ⊆ F') :
    SameFile F' c c' g :=
  { h with data := fun i hb hout => h.data i hb fun f hf => hout f (hF hf) }

theorem word_of_bytes {g k : Nat} (h : ∀ k < 136, c' (g + k) = c (g + k)) (hk : k + 4 ≤ 136) :
    c'.word (g + k) = c.word (g + k) := by
  refine Lib.Bytes.word_congr fun a h1 h2 => ?_
  obtain ⟨j, rfl⟩ := Nat.exists_eq_add_of_le (show g ≤ a by omega)
  exact h j (by omega)

theorem SameFile.size {F : Set Nat} {g : Nat} (h : SameFile F c c' g) :
    c'.word (sizeAt g) = c.word (sizeAt g) := word_of_bytes h.bytes (by omega)

theorem SameFile.type {F : Set Nat} {g : Nat} (h : SameFile F c c' g) :
    c'.word (typeAt g) = c.word (typeAt g) := word_of_bytes h.bytes (by omega)

theorem Owned.page_off_ptr (h : Owned n own dep Z c) {f g i : Nat} {u : Use} (hf : IsFile c Z f)
    (hg : IsFile c Z g) (hne : g ≠ f) (hb : heldBlock c g (.block i) ≠ 0)
    (hout : blockOf f ≠ heldBlock c g (.block i)) (hu : HasUse c f u) :
    ptrAt c f u + 4 ≤ diskAddr (heldBlock c g (.block i)) ∨
      diskAddr (heldBlock c g (.block i)) + 4096 ≤ ptrAt c f u := by
  have hoff := (h.seat hf).off_page (h.range hg hb).three_le hout
  rcases ptrAt_cases hu with h1 | ⟨hindex, h1, h2⟩
  · omega
  · have hblk : c.word (indirectAt f) ≠ heldBlock c g (.block i) := by
      intro heq
      have h3 := (h.index hf hindex).1
      rw [heq, h.owner hg hb] at h3
      exact hne (Prod.mk.inj (Option.some.inj h3)).1
    simp only [diskAddr_eq] at h1 h2 ⊢
    omega

/-- A store in a `struct File` keeps the other files. -/
theorem Sound.other_of_struct (h : Sound n Z c) {f g : Nat} (hf : IsFile c Z f) (hg : IsFile c Z g)
    (hne : g ≠ f) (hc : ∀ a, c' a ≠ c a → f ≤ a ∧ a < f + 256) : SameFile {f} c c' g := by
  obtain ⟨own, dep, ho⟩ := h.tree
  have hoff := (ho.seat hf).apart (ho.seat hg) (Ne.symm hne)
  have hword : ∀ x, (x + 4 ≤ f ∨ f + 256 ≤ x) → c'.word x = c.word x := by
    intro x hx
    refine Lib.Bytes.word_congr fun a h1 h2 => ?_
    by_contra hch
    have := hc a hch
    omega
  refine ⟨fun k hk => ?_, fun u => heldBlock_congr (hword _ ?_) fun hu => hword _ ?_,
    fun i hb hout k hk => ?_⟩
  · by_contra hch
    have := hc _ hch
    omega
  · unfold indirectAt
    omega
  · have := ho.ptr_off_file hf hg hu
    omega
  · by_contra hch
    have := hc _ hch
    have := (ho.seat hf).off_page (ho.range hg hb).three_le (hout f rfl)
    omega

theorem Sound.bytes_give (h : Sound n Z c) {f g b : Nat} {u : Use} (hf : IsFile c Z f)
    (hg : IsFile c Z g) (hu : HasUse c f u) (hb : Grantable n Z c b) (fresh : Bool) :
    ∀ k < 136, given c f u b fresh (g + k) = c (g + k) := by
  intro k hk
  obtain ⟨own, dep, ho⟩ := h.tree
  have hptr := ho.ptr_off_file hg hf hu
  have hpage := ho.off_free hb hg
  have hbit := (ho.seat hg).off_bitmap hb.range.2
  unfold given
  rw [Lib.Bytes.setWord_of_ne (by omega), taken_of_ne (by omega) (by omega)]

theorem Sound.other_give (h : Sound n Z c) {f g b : Nat} {u : Use} {fresh : Bool}
    (hf : IsFile c Z f) (hg : IsFile c Z g) (hne : g ≠ f) (hu : HasUse c f u)
    (hroom : heldBlock c f u = 0) (hb : Grantable n Z c b)
    (hblank : u = .index → Blank (taken c b fresh) b) :
    SameFile {f} c (given c f u b fresh) g := by
  obtain ⟨own, dep, ho⟩ := h.tree
  refine ⟨h.bytes_give hf hg hu hb fresh, fun v => ?_, fun i hbg hout k hk => ?_⟩
  · rw [ho.held_given hf hu hroom hb hblank hg v, if_neg]
    exact fun heq => hne (Prod.mk.inj heq).1.symm
  · have hptr := ho.page_off_ptr hf hg hne hbg (hout f rfl) hu
    have hbit := (bitAt_lt hb.range.2 (ho.range hg hbg)).2
    have hblk : heldBlock c g (.block i) ≠ b := by
      intro heq
      have := ho.used hg hbg
      rw [heq, hb.free] at this
      exact absurd this (by simp)
    unfold given
    rw [Lib.Bytes.setWord_of_ne (by omega), taken_of_ne _ (by omega)]
    simp only [diskAddr_eq]
    omega

theorem Sound.other_clear (h : Sound n Z c) {f g : Nat} {u : Use} (hf : IsFile c Z f)
    (hg : IsFile c Z g) (hne : g ≠ f) (hb : heldBlock c f u ≠ 0) :
    SameFile {f} c (cleared c f u) g := by
  obtain ⟨own, dep, ho⟩ := h.tree
  have hu := hasUse_of_held hb
  have hptr := ho.ptr_off_file hg hf hu
  have hbit := (ho.seat hg).off_bitmap (ho.range hf hb).2
  refine ⟨fun k hk => ?_, fun v => ?_, fun i hbg hout k hk => ?_⟩
  · unfold cleared release
    rw [Lib.Bytes.setWord_of_ne (by omega), Lib.Bytes.setWord_of_ne (by omega)]
  · have hfg : ∀ v, (f, u) ≠ (g, v) := fun v heq => hne (Prod.mk.inj heq).1.symm
    rw [(ho.repoints_cleared hf hb).held hu hg (hfg _), if_neg (hfg v)]
  · have hptr' := ho.page_off_ptr hf hg hne hbg (hout f rfl) hu
    have hbit' := (bitAt_lt (ho.range hf hb).2 (ho.range hg hbg)).2
    unfold cleared release
    rw [Lib.Bytes.setWord_of_ne (by omega), Lib.Bytes.setWord_of_ne (by omega)]

/-! ## Files below -/

/-- A file that gets a block stays with all files. -/
theorem Sound.isFile_give (h : Sound n Z c) {f g b : Nat} {u : Use} {fresh : Bool} (hf : IsFile c Z f)
    (hu : HasUse c f u) (hroom : heldBlock c f u = 0) (hb : Grantable n Z c b)
    (hblank : u = .index → Blank (taken c b fresh) b) (hg : IsFile c Z g) :
    IsFile (given c f u b fresh) Z g := by
  obtain ⟨own, dep, ho⟩ := h.tree
  have hr := ho.repoints_given hf hu hb fresh
  induction hg with
  | root => exact .root
  | extra hz => exact .extra hz
  | @slot d i j hd ht hne hj ih =>
    have hheld := ho.held_given hf hu hroom hb hblank hd (.block i)
    rw [if_neg] at hheld
    · rw [← hheld] at hne ⊢
      exact .slot ih ((hr.types hd).trans ht) hne hj
    · intro heq
      obtain ⟨rfl, rfl⟩ := Prod.mk.inj heq
      exact hne hroom

end

end Mos.Fs
