import Mathlib.Data.List.Find
import Mos.Fs.Path
import Mos.Fs.Run
import Mos.Fs.Specs

/-!
# What the names of a tree mean

A name in a directory and a path from the root mean a file by the contents of the blocks
alone. The functions of the server find that file, and change at most the pointers from
files to their directories.
-/

namespace Mos.Fs

open Lib (Bytes Proc Prog Cond provided)
open Lib.Proc (Trace World)

/-! ## Names -/

/-- The first file of the block at `blk` with that name. -/
def namedIn (c : Bytes) (blk : Nat) (name : Name) : Option Nat :=
  ((List.range FILE2BLK).find? fun j => c.holds (fileAt blk j) name).map (fileAt blk)

/-- The first file of the directory with that name, from block `i` on in `k` blocks. -/
def lookupIn (c : Bytes) (dir : Nat) (name : Name) : Nat → Nat → Option Nat
  | 0, _ => none
  | k + 1, i =>
    match namedIn c (diskAddr (heldBlock c dir (.block i))) name with
    | some f => some f
    | none => lookupIn c dir name k (i + 1)

/-- The file of that name in the directory. -/
def lookup (c : Bytes) (dir : Nat) (name : Name) : Option Nat :=
  lookupIn c dir name (c.word (sizeAt dir) / BLOCK_SIZE) 0

/-- What the name means in a file that may be a directory. -/
def below (c : Bytes) (file : Nat) (name : Name) : Walk :=
  if name.length ≥ MAXNAMELEN then
    .failed .badPath
  else if c.word (typeAt file) ≠ FTYPE_DIR then
    .failed .notFound
  else
    match lookup c file name with
    | some f => .found file f
    | none => .missing file name

/-- A name more, from what the names so far mean. -/
def Walk.step (c : Bytes) : Walk → Name → Walk
  | .found _ file, name => below c file name
  | .missing .., _ => .failed .notFound
  | .failed e, _ => .failed e

/-- What the names mean, from the root on. -/
def resolve (c : Bytes) (names : List Name) : Walk :=
  names.foldl (Walk.step c) (.found 0 (diskAddr 1 + 8))

theorem resolve_snoc (c : Bytes) (names : List Name) (name : Name) :
    resolve c (names ++ [name]) = (resolve c names).step c name := by
  unfold resolve
  rw [List.foldl_append, List.foldl_cons, List.foldl_nil]

theorem below_missing {c : Bytes} {file d : Nat} {name name' : Name} :
    below c file name = .missing d name' ↔ file = d ∧ name = name' ∧ name.length < MAXNAMELEN ∧
      c.word (typeAt file) = FTYPE_DIR ∧ lookup c file name = none := by
  unfold below
  split
  · rename_i hlong
    simp only [reduceCtorEq, false_iff]
    exact fun h => absurd h.2.2.1 (Nat.not_lt_of_le hlong)
  · rename_i hlong
    split
    · rename_i ht
      simp only [reduceCtorEq, false_iff]
      exact fun h => ht h.2.2.2.1
    · rename_i ht
      rcases hf : lookup c file name with _ | f
      · simp only [Walk.missing.injEq, and_true]
        exact ⟨fun h => ⟨h.1, h.2, Nat.lt_of_not_le hlong, not_not.mp ht⟩, fun h => ⟨h.1, h.2.1⟩⟩
      · simp

/-- Only the last name is missing, in a directory that is there. -/
theorem resolve_missing {c : Bytes} {names : List Name} {d : Nat} {name : Name} :
    resolve c names = .missing d name ↔ ∃ above parent, names = above ++ [name] ∧
      resolve c above = .found parent d ∧ name.length < MAXNAMELEN ∧
      c.word (typeAt d) = FTYPE_DIR ∧ lookup c d name = none := by
  constructor
  · intro h
    obtain rfl | ⟨above, last, rfl⟩ := List.eq_nil_or_concat' names
    · exact absurd h (by simp [resolve])
    · rw [resolve_snoc] at h
      rcases habove : resolve c above with ⟨parent, file⟩ | ⟨dir, name'⟩ | e
      · rw [habove] at h
        obtain ⟨rfl, rfl, hrest⟩ := below_missing.mp h
        exact ⟨above, parent, rfl, habove, hrest⟩
      · rw [habove] at h
        exact absurd h (by simp [Walk.step])
      · rw [habove] at h
        exact absurd h (by simp [Walk.step])
  · rintro ⟨above, parent, rfl, habove, hrest⟩
    rw [resolve_snoc, habove]
    exact below_missing.mpr ⟨rfl, rfl, hrest⟩

/-- Every directory has the blocks that its size says. -/
def NoHoles (Z : Set Nat) (c : Bytes) : Prop :=
  ∀ d, IsFile c Z d → c.word (typeAt d) = FTYPE_DIR →
    ∀ i < c.word (sizeAt d) / BLOCK_SIZE, heldBlock c d (.block i) ≠ 0

theorem namedIn_some {c : Bytes} {blk f : Nat} {name : Name} (h : namedIn c blk name = some f) :
    ∃ j < FILE2BLK, f = fileAt blk j := by
  unfold namedIn at h
  obtain ⟨j, hj, rfl⟩ := Option.map_eq_some_iff.mp h
  exact ⟨j, List.mem_range.mp (List.mem_of_find?_eq_some hj), rfl⟩

theorem lookupIn_some {c : Bytes} {dir f : Nat} {name : Name} {k i : Nat}
    (h : lookupIn c dir name k i = some f) :
    ∃ i' < i + k, ∃ j < FILE2BLK, f = fileAt (diskAddr (heldBlock c dir (.block i'))) j := by
  induction k generalizing i with
  | zero => exact absurd h (by simp [lookupIn])
  | succ k ih =>
    unfold lookupIn at h
    split at h
    · rename_i g hg
      obtain ⟨j, hj, rfl⟩ := namedIn_some hg
      cases h
      exact ⟨i, by omega, j, hj, rfl⟩
    · obtain ⟨i', hi', hj⟩ := ih h
      exact ⟨i', by omega, hj⟩

/-! ## Links to directories -/

/-- Pointers from files to their directories have changed. -/
inductive Links (Z : Set Nat) (c : Bytes) : Bytes → Prop where
  | refl : Links Z c c
  | link {c' f v} (h : Links Z c c') (hf : IsFile c' Z f) : Links Z c (c'.setWord (dirAt f) v)

section

variable {n : Nat} {Z : Set Nat} {c c' : Bytes}

theorem Links.trans {c'' : Bytes} (h : Links Z c c') (h' : Links Z c' c'') : Links Z c c'' := by
  induction h' with
  | refl => exact h
  | link _ hf ih => exact ih.link hf

/-- The files are the same, up to the pointers to their directories. -/
structure SameFiles (n : Nat) (Z : Set Nat) (c c' : Bytes) : Prop where
  sound : Sound n Z c'
  alike : Alike Z c c'
  bytes : ∀ f, IsFile c Z f → ∀ k < 256, k < 180 ∨ 184 ≤ k → c' (f + k) = c (f + k)
  same_free : ∀ b < n, isFree c' b = isFree c b

theorem SameFiles.refl (h : Sound n Z c) : SameFiles n Z c c where
  sound := h
  alike := ⟨fun _ => rfl, fun _ _ => rfl, fun _ _ _ => id, fun _ _ _ _ => rfl⟩
  bytes := fun _ _ _ _ _ => rfl
  same_free := fun _ _ => rfl

theorem Sound.off_file (h : Sound n Z c) {f g : Nat} (hf : IsFile c Z f) (hg : IsFile c Z g)
    (hne : f ≠ g) : f + 256 ≤ g ∨ g + 256 ≤ f := by
  obtain ⟨own, dep, ho⟩ := h.tree
  exact (ho.seat hf).apart (ho.seat hg) hne

theorem Sound.link (h : Sound n Z c) {f : Nat} (hf : IsFile c Z f) (v : Nat) :
    SameFiles n Z c (c.setWord (dirAt f) v) := by
  have hfields := setWord_fields (c := c) (f := f) (k := 180) (v := v) (by omega)
  obtain ⟨own, dep, ho⟩ := h.tree
  obtain ⟨hsound, halike⟩ := h.of_fields hf hfields
  refine ⟨hsound, halike, fun g hg k hk hk' => ?_, ?_⟩
  · refine Lib.Bytes.setWord_of_ne ?_
    show g + k < f + 180 ∨ f + 180 + 4 ≤ g + k
    by_cases hfg : f = g
    · omega
    · have := h.off_file hf hg hfg
      omega
  · refine (ho.keeps_base hf fun a hne => ?_).2
    have := hfields a hne
    omega

theorem SameFiles.trans {c'' : Bytes} (h : SameFiles n Z c c') (h' : SameFiles n Z c' c'') :
    SameFiles n Z c c'' where
  sound := h'.sound
  alike :=
    { types := fun hf => (h'.alike.types (h.alike.isFile hf)).trans (h.alike.types hf)
      held := fun u hf => (h'.alike.held u (h.alike.isFile hf)).trans (h.alike.held u hf)
      used := fun {f} u hf hb hu => by
        have heq := h.alike.held u hf
        have := h'.alike.used u (h.alike.isFile hf) (by rwa [heq])
        rw [heq] at this
        exact this (h.alike.used u hf hb hu)
      unused := fun {f} hf hne i hi => by
        have heq := h.alike.held .index hf
        rw [heldBlock_index, heldBlock_index] at heq
        have := h'.alike.unused (h.alike.isFile hf) (by rwa [heq]) i hi
        rw [heq] at this
        exact this.trans (h.alike.unused hf hne i hi) }
  bytes := fun f hf k hk hk' =>
    (h'.bytes f (h.alike.isFile hf) k hk hk').trans (h.bytes f hf k hk hk')
  same_free := fun b hb => (h'.same_free b hb).trans (h.same_free b hb)

theorem Links.same (h : Links Z c c') (hs : Sound n Z c) : SameFiles n Z c c' := by
  induction h with
  | refl => exact .refl hs
  | link _ hf ih => exact ih.trans (ih.sound.link hf _)

theorem SameFiles.isFile (h : SameFiles n Z c c') {f : Nat} : IsFile c' Z f ↔ IsFile c Z f :=
  ⟨h.alike.shrinks.isFile, h.alike.isFile⟩

theorem SameFiles.size (h : SameFiles n Z c c') {f : Nat} (hf : IsFile c Z f) :
    c'.word (sizeAt f) = c.word (sizeAt f) := by
  refine Lib.Bytes.word_congr fun i h1 h2 => ?_
  obtain ⟨k, rfl⟩ := Nat.exists_eq_add_of_le (show f ≤ i by unfold sizeAt at h1; omega)
  unfold sizeAt at h1 h2
  exact h.bytes f hf k (by omega) (by omega)

theorem SameFiles.holds (h : SameFiles n Z c c') {f : Nat} (hf : IsFile c Z f) {name : Name}
    (hname : name.length < MAXNAMELEN) : c'.holds f name = c.holds f name := by
  have h128 : MAXNAMELEN = 128 := rfl
  refine Lib.Bytes.holds_congr fun i h1 h2 => ?_
  obtain ⟨k, rfl⟩ := Nat.exists_eq_add_of_le h1
  exact h.bytes f hf k (by omega) (by omega)

/-! ## The meaning of names stays -/

theorem SameFiles.lookupIn (h : SameFiles n Z c c') {dir : Nat} (hd : IsFile c Z dir)
    (ht : c.word (typeAt dir) = FTYPE_DIR) {name : Name} (hname : name.length < MAXNAMELEN)
    {k i : Nat} (hheld : ∀ i' < i + k, heldBlock c dir (.block i') ≠ 0) :
    lookupIn c' dir name k i = lookupIn c dir name k i := by
  induction k generalizing i with
  | zero => rfl
  | succ k ih =>
    have hnamed : namedIn c' (diskAddr (heldBlock c dir (.block i))) name =
        namedIn c (diskAddr (heldBlock c dir (.block i))) name := by
      unfold namedIn
      refine congrArg _ (List.find?_congr fun j hj => ?_)
      exact h.holds (.slot hd ht (hheld i (by omega)) (List.mem_range.mp hj)) hname
    unfold Fs.lookupIn
    rw [h.alike.held _ hd, hnamed, ih fun i' hi' => hheld i' (by omega)]

theorem SameFiles.lookup (h : SameFiles n Z c c') (hn : NoHoles Z c) {dir : Nat}
    (hd : IsFile c Z dir) (ht : c.word (typeAt dir) = FTYPE_DIR) {name : Name}
    (hname : name.length < MAXNAMELEN) : lookup c' dir name = lookup c dir name := by
  unfold Fs.lookup
  rw [h.size hd]
  exact h.lookupIn hd ht hname fun i' hi' => hn dir hd ht i' (by omega)

theorem SameFiles.noHoles (h : SameFiles n Z c c') (hn : NoHoles Z c) : NoHoles Z c' := by
  intro d hd ht i hi
  rw [h.isFile] at hd
  rw [h.alike.types hd] at ht
  rw [h.size hd] at hi
  rw [h.alike.held _ hd]
  exact hn d hd ht i hi

theorem lookup_isFile (hn : NoHoles Z c) {dir f : Nat} {name : Name} (hd : IsFile c Z dir)
    (ht : c.word (typeAt dir) = FTYPE_DIR) (h : lookup c dir name = some f) : IsFile c Z f := by
  obtain ⟨i, hi, j, hj, rfl⟩ := lookupIn_some h
  exact .slot hd ht (hn dir hd ht i (by omega)) hj

/-- The file that the names lead to is one of the tree. -/
def Walk.InTree (c : Bytes) (Z : Set Nat) : Walk → Prop
  | .found _ file => IsFile c Z file
  | .missing dir _ => IsFile c Z dir
  | .failed _ => True

theorem Walk.step_inTree (hn : NoHoles Z c) {w : Walk} (hw : w.InTree c Z) (name : Name) :
    (w.step c name).InTree c Z := by
  rcases w with ⟨dir, file⟩ | ⟨dir, name'⟩ | e
  · show (below c file name).InTree c Z
    unfold below
    by_cases hlong : name.length ≥ MAXNAMELEN
    · rw [if_pos hlong]
      exact trivial
    · rw [if_neg hlong]
      by_cases ht : c.word (typeAt file) ≠ FTYPE_DIR
      · rw [if_pos ht]
        exact trivial
      · rw [if_neg ht]
        split
        · rename_i f hf
          exact lookup_isFile hn hw (not_not.mp ht) hf
        · exact hw
  · exact trivial
  · exact trivial

theorem resolve_inTree (hn : NoHoles Z c) (names : List Name) : (resolve c names).InTree c Z := by
  induction names using List.reverseRecOn with
  | nil => exact IsFile.root
  | append_singleton names name ih =>
    rw [resolve_snoc]
    exact Walk.step_inTree hn ih name

theorem SameFiles.step (h : SameFiles n Z c c') (hn : NoHoles Z c) {w : Walk} (hw : w.InTree c Z)
    (name : Name) : w.step c' name = w.step c name := by
  rcases w with ⟨dir, file⟩ | ⟨dir, name'⟩ | e
  · have htype : c'.word (typeAt file) = c.word (typeAt file) := h.alike.types hw
    show below c' file name = below c file name
    unfold below
    rw [htype]
    by_cases hlong : name.length ≥ MAXNAMELEN
    · rw [if_pos hlong, if_pos hlong]
    · rw [if_neg hlong, if_neg hlong]
      by_cases ht : c.word (typeAt file) ≠ FTYPE_DIR
      · rw [if_pos ht, if_pos ht]
      · rw [if_neg ht, if_neg ht, h.lookup hn hw (not_not.mp ht) (by omega)]
  · rfl
  · rfl

theorem SameFiles.foldl_step (h : SameFiles n Z c c') (hn : NoHoles Z c) {w : Walk}
    (hw : w.InTree c Z) (names : List Name) :
    names.foldl (Walk.step c') w = names.foldl (Walk.step c) w := by
  induction names generalizing w with
  | nil => rfl
  | cons name names ih =>
    rw [List.foldl_cons, List.foldl_cons, h.step hn hw, ih (Walk.step_inTree hn hw name)]

theorem SameFiles.resolve (h : SameFiles n Z c c') (hn : NoHoles Z c) (names : List Name) :
    resolve c' names = resolve c names := h.foldl_step hn (show Walk.InTree c Z (.found 0 _) from IsFile.root) names

end

/-! ## Reading blocks of files -/

/-- There was no page for a block that is in use. -/
def Refused (n : Nat) (c : Bytes) (e : Err) (t : Trace Call Reply) : Prop :=
  ∃ b < n, isFree c b = false ∧ ⟨.memAlloc (diskAddr b), .error e⟩ ∈ t

/-- The contents are as before, and what was in memory still is. -/
structure Intact (s s' : Server) : Prop where
  kept : Kept s s'
  content : s'.content = s.content

theorem Intact.refl (s : Server) : Intact s s := ⟨Kept.refl s, rfl⟩

theorem Intact.trans {s s' s'' : Server} (h : Intact s s') (h' : Intact s' s'') : Intact s s'' :=
  ⟨h.kept.trans h'.kept, h'.content.trans h.content⟩

theorem Loaded.intact {b : Nat} {s s' : Server} (h : Loaded b s s') : Intact s s' := ⟨h.kept, h.content⟩

theorem Intact.ready {n : Nat} {Z : Set Nat} {s s' : Server} (h : Intact s s') (hs : Ready n Z s) :
    Ready n Z s' := ⟨h.kept.mounted hs.toMounted, h.content ▸ hs.sound⟩

section

variable {M : Cond Call Reply} {E : Stop → Server → Trace Call Reply → Prop} {s : Server}
  {t : Trace Call Reply} {n : Nat} {Z : Set Nat}

/-- The block of the file is in memory, and so is the index block if it is needed. -/
structure InMemory (s : Server) (f i : Nat) : Prop where
  block : s.mapped (heldBlock s.content f (.block i)) = true
  index : ¬ i < NDIRECT → s.mapped (s.content.word (indirectAt f)) = true

theorem Intact.inMemory {s s' : Server} (h : Intact s s') {f i : Nat} (hm : InMemory s f i) :
    InMemory s' f i := by
  constructor
  · rw [h.content]
    exact h.kept.mapped hm.block
  · rw [h.content]
    exact fun hi => h.kept.mapped (hm.index hi)

theorem readBlock_used (hs : Ready n Z s) {b : Nat} (hb : InRange n b)
    (hused : isFree s.content b = false) :
    provided M (readBlock b)
      (fun r s' t' => Intact s s' ∧ match r with
        | .ok blk => blk = diskAddr b ∧ s'.mapped b = true
        | .error e => Refused n s.content e t' ∧ s.mapped b = false)
      E s t := by
  refine Lib.provided_mono (readBlock_spec hs.toMounted hs.sound.blocks hb.2 hused)
    (fun r s' t' _ h => ?_) fun _ _ _ _ => id
  rcases r with e | blk
  · obtain ⟨rfl, rfl, hm⟩ := h
    exact ⟨.refl s', ⟨b, hb.2, hused, List.mem_append_right _ List.mem_cons_self⟩, hm⟩
  · exact ⟨h.2.intact, h.1, h.2.mapped⟩

theorem Ready.file_word (hs : Ready n Z s) {f : Nat} (hf : IsFile s.content Z f)
    (hc : s.cached f = true) {k : Nat} (hk : k < 256) : s.cached (f + k) = true := by
  obtain ⟨own, dep, ho⟩ := hs.sound.tree
  exact cached_add hc ((ho.seat hf).page hk)

theorem Ready.file_mod (hs : Ready n Z s) {f : Nat} (hf : IsFile s.content Z f) : f % 4 = 0 := by
  obtain ⟨own, dep, ho⟩ := hs.sound.tree
  exact (ho.seat hf).bounds.2.1

theorem Ready.held (hs : Ready n Z s) {f : Nat} {u : Use} (hf : IsFile s.content Z f)
    (hb : heldBlock s.content f u ≠ 0) :
    InRange n (heldBlock s.content f u) ∧ isFree s.content (heldBlock s.content f u) = false := by
  obtain ⟨own, dep, ho⟩ := hs.sound.tree
  exact ⟨ho.range hf hb, ho.used hf hb⟩

/-- With an index block, the pointer to a block is found. -/
theorem fileBlockWalk_spec (hs : Ready n Z s) {f i : Nat} {alloc : Bool} (hf : IsFile s.content Z f)
    (hc : s.cached f = true) (hu : HasUse s.content f (.block i)) :
    provided M (fileBlockWalk f i alloc)
      (fun r s' t' => Intact s s' ∧ match r with
        | .ok ptr => ptr = ptrAt s.content f (.block i) ∧ s'.cached ptr = true ∧
          (¬ i < NDIRECT → s'.mapped (s.content.word (indirectAt f)) = true)
        | .error e => Refused n s.content e t' ∧ ¬ InMemory s f i)
      E s t := by
  have hmod := hs.file_mod hf
  have hi1024 : NINDIRECT = 1024 := rfl
  unfold fileBlockWalk
  by_cases hi : i < NDIRECT
  · rw [if_pos hi, Lib.provided_pure, show ptrAt s.content f (.block i) = directAt f i from if_pos hi]
    have hi10 : i < 10 := hi
    unfold directAt
    rw [Nat.add_assoc]
    exact fun _ => ⟨.refl s, rfl, hs.file_word hf hc (by omega), fun h => absurd hi h⟩
  · obtain ⟨hlt, hne⟩ := hu.resolve_left hi
    have hb : heldBlock s.content f .index ≠ 0 := by rwa [heldBlock_index]
    have hheld := hs.held hf hb
    rw [heldBlock_index] at hheld
    have hptr : ptrAt s.content f (.block i) = diskAddr (s.content.word (indirectAt f)) + 4 * i :=
      if_neg hi
    have hword : s.cached (indirectAt f) = true := hs.file_word hf hc (by omega)
    have hwmod : indirectAt f % 4 = 0 := by
      unfold indirectAt
      omega
    rw [if_neg hi, if_pos hlt, Lib.provided_bind]
    unfold indirectBlock
    rw [Lib.provided_bind, provided_loadWord hword hwmod]
    intro _
    rw [if_neg hne, Lib.provided_pure]
    intro _
    rw [Lib.provided_bind, provided_loadWord hword hwmod]
    intro _
    rw [Lib.provided_bind]
    refine Lib.provided_mono (readBlock_used hs hheld.1 hheld.2) (fun r s' t' _ h => ?_)
      fun _ _ _ _ => id
    rcases r with e | blk
    · rw [Lib.provided_pure]
      refine fun _ => ⟨h.1, h.2.1, fun hin => ?_⟩
      rw [hin.index hi] at h
      exact absurd h.2.2 (by simp)
    · obtain ⟨hin, rfl, hm⟩ := h
      rw [Lib.provided_pure, hptr]
      refine fun _ => ⟨hin, rfl, cached_iff.mpr ⟨?_, ?_⟩, fun _ => hm⟩
      · rw [diskAddr_eq]
        exact Nat.le_trans (Nat.le_add_right ..) (Nat.le_add_right ..)
      · rw [blockOf_add _ (by omega)]
        exact hm

theorem fileMapBlock_spec (hs : Ready n Z s) {f i : Nat} {alloc : Bool} (hf : IsFile s.content Z f)
    (hc : s.cached f = true) (hb : heldBlock s.content f (.block i) ≠ 0) :
    provided M (fileMapBlock f i alloc)
      (fun r s' t' => Intact s s' ∧ match r with
        | .ok b => b = heldBlock s.content f (.block i) ∧
          (¬ i < NDIRECT → s'.mapped (s.content.word (indirectAt f)) = true)
        | .error e => Refused n s.content e t' ∧ ¬ InMemory s f i)
      E s t := by
  have hu := hasUse_of_held hb
  have hheld := heldBlock_of hu
  unfold fileMapBlock
  rw [Lib.provided_bind]
  refine Lib.provided_mono (fileBlockWalk_spec hs hf hc hu) (fun r s' t' _ h => ?_) fun _ _ _ _ => id
  rcases r with e | ptr
  · rw [Lib.provided_pure]
    exact fun _ => h
  · obtain ⟨hin, rfl, hcached, hindex⟩ := h
    rw [Lib.provided_bind, provided_loadWord hcached (ptrAt_mod (hs.file_mod hf) _), hin.content,
      ← hheld]
    intro _
    rw [if_neg hb, Lib.provided_pure]
    exact fun _ => ⟨hin, rfl, hindex⟩

/-- A block that the file holds is in memory, or there is no page for a block in use. -/
theorem fileGetBlock_spec (hs : Ready n Z s) {f i : Nat} (hf : IsFile s.content Z f)
    (hc : s.cached f = true) (hb : heldBlock s.content f (.block i) ≠ 0) :
    provided M (fileGetBlock f i)
      (fun r s' t' => Intact s s' ∧ match r with
        | .ok blk => blk = diskAddr (heldBlock s.content f (.block i)) ∧ InMemory s' f i
        | .error e => Refused n s.content e t' ∧ ¬ InMemory s f i)
      E s t := by
  unfold fileGetBlock
  rw [Lib.provided_bind]
  refine Lib.provided_mono (fileMapBlock_spec hs hf hc hb) (fun r s₁ t₁ _ h => ?_) fun _ _ _ _ => id
  rcases r with e | b
  · rw [Lib.provided_pure]
    exact fun _ => h
  · obtain ⟨hin, rfl, hindex⟩ := h
    obtain ⟨hrange, hused⟩ := hs.held hf hb
    have hused' : isFree s₁.content (heldBlock s.content f (.block i)) = false := by
      rw [hin.content]
      exact hused
    refine Lib.provided_mono (readBlock_used (hin.ready hs) hrange hused') (fun r s₂ t₂ _ h => ?_)
      fun _ _ _ _ => id
    rw [hin.content] at h
    refine ⟨hin.trans h.1, ?_⟩
    rcases r with e | blk
    · refine ⟨h.2.1, fun hm => ?_⟩
      rw [hin.kept.mapped hm.block] at h
      exact absurd h.2.2 (by simp)
    · refine ⟨h.2.1, ?_, ?_⟩
      · rw [(hin.trans h.1).content]
        exact h.2.2
      · rw [(hin.trans h.1).content]
        exact fun hi => h.1.kept.mapped (hindex hi)

/-! ## Looking up -/

theorem cached_slot {b j : Nat} (hm : s.mapped b = true) (hj : j < FILE2BLK) {k : Nat} (hk : k < 256) :
    s.cached (fileAt (diskAddr b) j + k) = true := by
  have h16 : FILE2BLK = 16 := rfl
  have hmap : DISKMAP = 0x10000000 := rfl
  refine cached_iff.mpr ⟨?_, ?_⟩
  · rw [fileAt_eq, diskAddr_eq]
    omega
  · rw [fileAt_eq, Nat.add_assoc, blockOf_add b (by omega)]
    exact hm

theorem fileNamed_eq {b : Nat} (hm : s.mapped b = true) {name : Name}
    (hname : name.length < MAXNAMELEN) :
    s.fileNamed (diskAddr b) name = namedIn s.content (diskAddr b) name := by
  have h128 : MAXNAMELEN = 128 := rfl
  unfold Server.fileNamed namedIn
  refine congrArg _ (List.find?_congr fun j hj => Lib.Bytes.holds_congr fun a h1 h2 => ?_)
  obtain ⟨k, rfl⟩ := Nat.exists_eq_add_of_le h1
  exact mem_eq_content (cached_slot hm (List.mem_range.mp hj) (by omega))

theorem lookupFrom_spec (hs : Ready n Z s) {dir : Nat} {name : Name} (hd : IsFile s.content Z dir)
    (hc : s.cached dir = true) (ht : s.content.word (typeAt dir) = FTYPE_DIR)
    (hname : name.length < MAXNAMELEN) {k i : Nat}
    (hheld : ∀ i' < i + k, heldBlock s.content dir (.block i') ≠ 0) :
    provided M (lookupFrom dir name k i)
      (fun r s' t' => Kept s s' ∧ Links Z s.content s'.content ∧ match r with
        | .ok f => lookupIn s.content dir name k i = some f ∧ s'.cached f = true
        | .error e => e = .notFound ∧ lookupIn s.content dir name k i = none ∧ Intact s s' ∧
            (∀ i', i ≤ i' → i' < i + k → InMemory s' dir i') ∨ Refused n s.content e t')
      E s t := by
  induction k generalizing i s t with
  | zero =>
    unfold lookupFrom
    rw [Lib.provided_pure]
    exact fun _ => ⟨.refl s, .refl, Or.inl ⟨rfl, rfl, .refl s, fun i' h1 h2 => by omega⟩⟩
  | succ k ih =>
    have hb := hheld i (by omega)
    unfold lookupFrom
    rw [Lib.provided_bind]
    refine Lib.provided_mono (fileGetBlock_spec hs hd hc hb) (fun r s₁ t₁ _ h => ?_) fun _ _ _ _ => id
    rcases r with e | blk
    · rw [Lib.provided_pure, h.1.content]
      exact fun _ => ⟨h.1.kept, .refl, Or.inr h.2.1⟩
    · obtain ⟨hin, rfl, hmem⟩ := h
      have hm := hmem.block
      rw [hin.content] at hm
      have hnamed := fileNamed_eq hm hname
      rw [hin.content] at hnamed
      simp only
      rw [Lib.provided_bind, Lib.provided_get, hnamed]
      intro _
      unfold lookupIn
      rcases hcase : namedIn s.content (diskAddr (heldBlock s.content dir (.block i))) name with _ | f
      · -- The name is not in this block.
        have hgoal := ih (t := t₁) (hin.ready hs) (hin.content ▸ hd)
          (hin.kept.cached hc) (hin.content ▸ ht) (i := i + 1)
          fun i' hi' => hin.content ▸ hheld i' (by omega)
        rw [hin.content] at hgoal
        refine Lib.provided_mono hgoal (fun r s' t' _ h => ⟨hin.kept.trans h.1, h.2.1, ?_⟩)
          fun _ _ _ _ => id
        rcases r with e | f
        · rcases h.2.2 with ⟨he, hnone, hin', hall⟩ | hr
          · refine Or.inl ⟨he, hnone, hin.trans hin', fun i' h1 h2 => ?_⟩
            by_cases heq : i' = i
            · exact heq ▸ hin'.inMemory hmem
            · exact hall i' (by omega) (by omega)
          · exact Or.inr hr
        · exact h.2.2
      · obtain ⟨j, hj, rfl⟩ := namedIn_some hcase
        have hf : IsFile s.content Z (fileAt (diskAddr (heldBlock s.content dir (.block i))) j) :=
          .slot hd ht hb hj
        have hdir : s₁.cached (dirAt (fileAt (diskAddr (heldBlock s.content dir (.block i))) j)) =
            true := cached_slot hm hj (by omega)
        have hmod := hs.file_mod hf
        simp only
        rw [Lib.provided_bind, provided_storeWord hdir, Lib.provided_pure]
        refine fun _ _ => ⟨hin.kept.trans (kept_put ..), ?_, rfl, ?_⟩
        · rw [content_put hdir (by unfold dirAt; omega), hin.content]
          exact Links.refl.link hf
        · exact (kept_put ..).cached (cached_slot hm hj (k := 0) (by omega))

/-- The file of that name in a directory without holes is found, or there is no page for a block in
use. -/
theorem dirLookup_spec (hs : Ready n Z s) (hn : NoHoles Z s.content) {dir : Nat} {name : Name}
    (hd : IsFile s.content Z dir) (hc : s.cached dir = true)
    (ht : s.content.word (typeAt dir) = FTYPE_DIR) (hname : name.length < MAXNAMELEN) :
    provided M (dirLookup dir name)
      (fun r s' t' => Kept s s' ∧ Links Z s.content s'.content ∧ match r with
        | .ok f => lookup s.content dir name = some f ∧ s'.cached f = true
        | .error e => e = .notFound ∧ lookup s.content dir name = none ∧ Intact s s' ∧
            (∀ i < s.content.word (sizeAt dir) / BLOCK_SIZE, InMemory s' dir i) ∨
            Refused n s.content e t')
      E s t := by
  have hword : s.cached (sizeAt dir) = true := hs.file_word hd hc (by omega)
  have hmod := hs.file_mod hd
  unfold dirLookup
  rw [Lib.provided_bind, provided_loadWord hword (by unfold sizeAt; omega)]
  refine fun _ => Lib.provided_mono
    (lookupFrom_spec hs hd hc ht hname fun i' hi' => hn dir hd ht i' (by omega))
    (fun r s' t' _ h => ⟨h.1, h.2.1, ?_⟩) fun _ _ _ _ => id
  rcases r with e | f
  · refine h.2.2.imp_left fun h => ⟨h.1, h.2.1, h.2.2.1, fun i hi => h.2.2.2 i (Nat.zero_le i) ?_⟩
    rwa [Nat.zero_add]
  · exact h.2.2

/-! ## Walking -/

/-- Memory can only run out. -/
def memory : Cond Call Reply := (quiet Any True).expected

theorem memory_obliging {α : Type} (x : Serv α) (refs : Nat → Nat) (s : Server) :
    memory.Holds (x.run (obliging refs) s).1 :=
  Lib.Proc.run_answers (P := (quiet Any True).answers)
    (fun _ c => by cases c <;> first | exact Or.inl rfl | exact trivial) _ fun _ he => nomatch he

/-- What the names lead to is in memory, and all of a directory where a name is missing. -/
def Walk.Cached (s : Server) : Walk → Prop
  | .found _ file => s.cached file = true
  | .missing dir _ => s.cached dir = true ∧
    ∀ i < s.content.word (sizeAt dir) / BLOCK_SIZE, InMemory s dir i
  | .failed _ => True

/-- The result of a walk: what the names mean, or an error because there was no page for a block in
use. -/
def Means (n : Nat) (c : Bytes) (w r : Walk) (s' : Server) (t : Trace Call Reply) : Prop :=
  r = w ∧ r.Cached s' ∨ r = .failed .noMem ∧ Refused n c .noMem t

theorem memory.noMem {t : Trace Call Reply} (h : memory.Holds t) {va : Nat} {e : Err}
    (he : ⟨.memAlloc va, .error e⟩ ∈ t) : e = .noMem := by
  rcases h _ he with h | h
  · exact absurd h (by simp)
  · exact Except.error.inj h

theorem SameFiles.refused {c c' : Bytes} (h : SameFiles n Z c c') {e : Err} {t : Trace Call Reply}
    (hr : Refused n c' e t) : Refused n c e t := by
  obtain ⟨b, hb, hused, ht⟩ := hr
  exact ⟨b, hb, (h.same_free b hb) ▸ hused, ht⟩

end

section

variable {E : Stop → Server → Trace Call Reply → Prop} {s : Server} {t : Trace Call Reply} {n : Nat}
  {Z : Set Nat} {c : Bytes}

theorem enter_spec (hc : Sound n Z c) (hn : NoHoles Z c) (hs : Mounted n s)
    (hl : Links Z c s.content) {file : Nat} (hf : IsFile c Z file) (hm : s.cached file = true)
    (name : Name) :
    provided memory (enter file name)
      (fun r s' t' => Kept s s' ∧ Links Z c s'.content ∧ Means n c (below c file name) r s' t')
      E s t := by
  have hsame := hl.same hc
  have hready : Ready n Z s := ⟨hs, hsame.sound⟩
  have hf' := hsame.isFile.mpr hf
  have htype := hsame.alike.types hf
  have hmod := hready.file_mod hf'
  have hword : s.cached (typeAt file) = true := hready.file_word hf' hm (by omega)
  unfold enter below
  by_cases hlong : name.length ≥ MAXNAMELEN
  · rw [if_pos hlong, if_pos hlong, Lib.provided_pure]
    exact fun _ => ⟨.refl s, hl, Or.inl ⟨rfl, trivial⟩⟩
  · rw [if_neg hlong, if_neg hlong, Lib.provided_bind,
      provided_loadWord hword (by unfold typeAt; omega), htype]
    intro _
    by_cases hdir : c.word (typeAt file) ≠ FTYPE_DIR
    · rw [if_pos hdir, if_pos hdir, Lib.provided_pure]
      exact fun _ => ⟨.refl s, hl, Or.inl ⟨rfl, trivial⟩⟩
    · have ht := not_not.mp hdir
      rw [if_neg hdir, if_neg hdir, Lib.provided_bind]
      refine Lib.provided_mono (dirLookup_spec hready (hsame.noHoles hn) hf' hm (htype.trans ht)
        (Nat.lt_of_not_le hlong)) (fun r s' t' hmem h => ?_) fun _ _ _ _ => id
      obtain ⟨hk, hl', h⟩ := h
      rw [hsame.lookup hn hf ht (Nat.lt_of_not_le hlong)] at h
      rcases r with e | f
      · rcases h with ⟨rfl, h⟩ | h
        · simp only [h.1]
          rw [Lib.provided_pure]
          refine fun _ => ⟨hk, hl.trans hl', Or.inl ⟨rfl, hk.cached hm, ?_⟩⟩
          rw [h.2.1.content]
          exact h.2.2
        · obtain rfl : e = .noMem := memory.noMem hmem h.choose_spec.2.2
          simp only
          rw [Lib.provided_pure]
          exact fun _ => ⟨hk, hl.trans hl', Or.inr ⟨rfl, hsame.refused h⟩⟩
      · obtain ⟨h, hm'⟩ := h
        simp only [h]
        rw [Lib.provided_pure]
        exact fun _ => ⟨hk, hl.trans hl', Or.inl ⟨rfl, hm'⟩⟩

theorem advance_spec (hc : Sound n Z c) (hn : NoHoles Z c) (hs : Mounted n s)
    (hl : Links Z c s.content) {w : Walk} (hw : w.InTree c Z) (hm : w.Cached s) (name : Name) :
    provided memory (w.advance name)
      (fun r s' t' => Kept s s' ∧ Links Z c s'.content ∧ Means n c (w.step c name) r s' t')
      E s t := by
  rcases w with ⟨dir, file⟩ | ⟨dir, name'⟩ | e
  · exact enter_spec hc hn hs hl hw hm name
  · unfold Walk.advance
    rw [Lib.provided_pure]
    exact fun _ => ⟨.refl s, hl, Or.inl ⟨rfl, trivial⟩⟩
  · unfold Walk.advance
    rw [Lib.provided_pure]
    exact fun _ => ⟨.refl s, hl, Or.inl ⟨rfl, trivial⟩⟩

theorem foldlM_spec (hc : Sound n Z c) (hn : NoHoles Z c) (hs : Mounted n s)
    (hl : Links Z c s.content) {w : Walk} (hw : w.InTree c Z) (hm : w.Cached s) (names : List Name) :
    provided memory (names.foldlM Walk.advance w)
      (fun r s' t' => Kept s s' ∧ Links Z c s'.content ∧
        Means n c (names.foldl (Walk.step c) w) r s' t')
      E s t := by
  induction names generalizing w s t with
  | nil =>
    rw [List.foldlM_nil, Lib.provided_pure]
    exact fun _ => ⟨.refl s, hl, Or.inl ⟨rfl, hm⟩⟩
  | cons name names ih =>
    rw [List.foldlM_cons, List.foldl_cons, Lib.provided_bind]
    refine Lib.provided_mono (advance_spec hc hn hs hl hw hm name) (fun r s₁ t₁ _ h => ?_)
      fun _ _ _ _ => id
    obtain ⟨hk, hl₁, ⟨rfl, hm₁⟩ | ⟨rfl, hr⟩⟩ := h
    · refine Lib.provided_mono (ih (hk.mounted hs) hl₁ (Walk.step_inTree hn hw name) hm₁)
        (fun r s₂ t₂ _ h => ⟨hk.trans h.1, h.2⟩) fun _ _ _ _ => id
    · -- Nothing is done after an error.
      rw [foldlM_failed, Lib.provided_pure]
      exact fun _ => ⟨hk, hl₁, Or.inr ⟨rfl, hr⟩⟩

theorem walkPath_spec (hs : Ready n Z s) (hn : NoHoles Z s.content) (path : Name) :
    provided memory (walkPath path)
      (fun r s' t' => Kept s s' ∧ Links Z s.content s'.content ∧
        Means n s.content (resolve s.content (components path)) r s' t')
      E s t := by
  have hroot : s.root = diskAddr 1 + 8 := by
    unfold Server.root
    rw [hs.super]
  rw [walkPath_eq, Lib.provided_bind, Lib.provided_get, hroot]
  refine fun _ => foldlM_spec hs.sound hn hs.toMounted .refl
    (show Walk.InTree s.content Z (.found 0 _) from IsFile.root) ?_ _
  exact cached_iff.mpr ⟨by decide, by rw [blockOf_add 1 (by omega)]; exact hs.one⟩

end

/-- `walk_path` is the fold of `dir_lookup` over the names of the path, and slashes do not matter
beyond parting names. In a tree without holes it finds what the names mean, or lacks the page for a
block in use. -/
theorem walkPath_exact :
    (∀ path, walkPath path = do (components path).foldlM Walk.advance (.found 0 (← get).root)) ∧
    (∀ a b c, isSlash c = true → (a = [] ∨ b = [] ∨ (∃ d ∈ a.getLast?, isSlash d = true) ∨
      ∃ d ∈ b.head?, isSlash d = true) → walkPath (a ++ c :: b) = walkPath (a ++ b)) ∧
    (∀ n Z s path w t x s', Ready n Z s → NoHoles Z s.content →
      (walkPath path).run w s = (t, x, s') → memory.Holds t →
      ∃ r, x = .ok r ∧ Means n s.content (resolve s.content (components path)) r s' t) ∧
    ∀ c names d name, resolve c names = .missing d name ↔ ∃ above parent, names = above ++ [name] ∧
      resolve c above = .found parent d ∧ name.length < MAXNAMELEN ∧
      c.word (typeAt d) = FTYPE_DIR ∧ lookup c d name = none := by
  refine ⟨walkPath_eq, fun a b c hc h => ?_, fun n Z s path w t x s' hs hn hrun ht => ?_,
    fun _ _ _ _ => resolve_missing⟩
  · rw [walkPath_eq, walkPath_eq, components_slash a b hc h]
  · have hnil : memory.Holds [] := fun _ he => nomatch he
    have hspec := walkPath_spec (E := fun _ _ _ => False) (t := []) hs hn path
    rcases x with e | r
    · exact (Lib.provided_run_error hspec hrun hnil ht).elim
    · exact ⟨r, rfl, (Lib.provided_run_ok hspec hrun hnil ht).2.2⟩

/-! ## The empty tree -/

theorem isFile_bare {c : Bytes} (h : ∀ i, heldBlock c (diskAddr 1 + 8) (.block i) = 0) {f : Nat}
    (hf : IsFile c ∅ f) : f = diskAddr 1 + 8 := by
  induction hf with
  | root => rfl
  | extra hz => exact absurd hz (Set.notMem_empty _)
  | slot _ _ hb _ ih =>
    subst ih
    exact absurd (h _) hb

theorem heldBlock_bare {c : Bytes} (hi : c.word (indirectAt (diskAddr 1 + 8)) = 0)
    (hd : ∀ i < 10, c.word (diskAddr 1 + 8 + 136 + 4 * i) = 0) (u : Use) :
    heldBlock c (diskAddr 1 + 8) u = 0 := by
  unfold heldBlock
  split
  · rename_i hu
    rcases u with _ | i
    · exact hi
    · by_cases hlt : i < 10
      · rw [ptrAt_direct _ _ hlt]
        exact hd i hlt
      · exact absurd hi ((hasUse_block.mp hu).resolve_left hlt).2
  · rfl

theorem sound_bare {n : Nat} {c : Bytes} (hn : c.word (diskAddr 1 + 4) = n) (hsmall : n ≤ 2 ^ 18)
    (hres : ∀ b < n, b < 3 + n / BLOCK_SIZE_BIT → isFree c b = false)
    (hheld : ∀ u, heldBlock c (diskAddr 1 + 8) u = 0) : Sound n ∅ c := by
  refine ⟨hn, hsmall, hres, fun _ => none, fun _ => 0, ?_⟩
  have hroot := fun f => isFile_bare (c := c) (f := f) fun i => hheld _
  constructor
  · intro f u hf hb
    rw [hroot f hf] at hb
    exact absurd (hheld u) hb
  · intro f u hf hb
    rw [hroot f hf] at hb
    exact absurd (hheld u) hb
  · intro f u hf hb
    rw [hroot f hf] at hb
    exact absurd (hheld u) hb
  · intro f i hf _ hb
    rw [hroot f hf] at hb
    exact absurd (hheld _) hb
  · intro f hf hb
    rw [hroot f hf, ← heldBlock_index] at hb
    exact absurd (hheld _) hb
  · exact fun z hz => absurd hz (Set.notMem_empty z)

theorem held_fresh (u : Use) : heldBlock fresh.content (diskAddr 1 + 8) u = 0 :=
  heldBlock_bare (by decide +kernel) (by decide +kernel) u

theorem ready_fresh : Ready 1024 ∅ fresh where
  super := by decide +kernel
  bitmap := by decide +kernel
  one := by decide +kernel
  bits := by
    intro b hb
    have h : BLOCK_SIZE_BIT = 32768 := rfl
    rw [h, Nat.div_eq_of_lt (by omega)]
    decide +kernel
  files := by
    intro i hi
    exact absurd rfl hi
  sound := sound_bare (by decide +kernel) (by decide) (by
    intro b hb hlt
    have h : 3 + 1024 / BLOCK_SIZE_BIT = 3 := rfl
    have hall : ∀ b < 3, isFree fresh.content b = false := by decide +kernel
    exact hall b (h ▸ hlt)) held_fresh

theorem noHoles_fresh : NoHoles ∅ fresh.content := by
  intro d hd _ i hi
  have hsize : fresh.content.word (sizeAt (diskAddr 1 + 8)) = 0 := by decide +kernel
  rw [isFile_bare (fun i => held_fresh _) hd, hsize] at hi
  exact absurd hi (by simp)

end Mos.Fs
