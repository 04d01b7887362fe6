import Mos.Fs.Changes

/-!
# Directories as maps

A directory is the list of its slots, and a lookup finds the first one with the name. A
file that is made adds one name, and a file that is removed takes one name away.
-/

namespace Mos.Fs

open Lib (Bytes)

/-! ## Names -/

/-- No name is empty or has a terminator in it. -/
def Proper (names : List Name) : Prop := ∀ name ∈ names, name ≠ [] ∧ 0 ∉ name

theorem Proper.init {names : List Name} {name : Name} (h : Proper (names ++ [name])) : Proper names :=
  fun x hx => h x (List.mem_append_left _ hx)

theorem Proper.last {names : List Name} {name : Name} (h : Proper (names ++ [name])) :
    name ≠ [] ∧ 0 ∉ name := h name (List.mem_append_right _ List.mem_cons_self)

theorem mem_of_splitOnP {path name : Name} (h : name ∈ path.splitOnP isSlash) : ∀ x ∈ name, x ∈ path := by
  induction path generalizing name with
  | nil =>
    rw [List.splitOnP_nil, List.mem_singleton] at h
    subst h
    exact fun _ hx => hx
  | cons c path ih =>
    rw [List.splitOnP_cons_eq_if_modifyHead] at h
    split at h
    · rcases List.mem_cons.mp h with rfl | h
      · exact fun _ hx => absurd hx List.not_mem_nil
      · exact fun x hx => List.mem_cons_of_mem _ (ih h x hx)
    · rcases hsplit : path.splitOnP isSlash with _ | ⟨first, rest⟩
      · exact absurd hsplit (List.splitOnP_ne_nil _ _)
      · rw [hsplit, List.modifyHead_cons] at h
        rcases List.mem_cons.mp h with rfl | h
        · intro x hx
          rcases List.mem_cons.mp hx with rfl | hx
          · exact List.mem_cons_self
          · exact List.mem_cons_of_mem _ (ih (hsplit ▸ List.mem_cons_self) x hx)
        · exact fun x hx => List.mem_cons_of_mem _ (ih (hsplit ▸ List.mem_cons_of_mem _ h) x hx)

theorem proper_components {path : Name} (h : 0 ∉ path) : Proper (components path) := by
  intro name hname
  unfold components at hname
  rw [List.mem_filter, decide_eq_true_eq] at hname
  exact ⟨hname.2, fun h0 => h (mem_of_splitOnP hname.1 0 h0)⟩

theorem holds_inj {c : Bytes} {a : Nat} {l l' : Name} (h : c.holds a l = true) (h' : c.holds a l' = true)
    (hl : 0 ∉ l) (hl' : 0 ∉ l') : l = l' := by
  obtain ⟨hall, hend⟩ := Lib.Bytes.holds_iff.mp h
  obtain ⟨hall', hend'⟩ := Lib.Bytes.holds_iff.mp h'
  have hlen : l.length = l'.length := by
    rcases Nat.lt_trichotomy l.length l'.length with hlt | heq | hlt
    · exact absurd (hend ▸ hall' _ hlt ▸ List.getElem_mem hlt) hl'
    · exact heq
    · exact absurd (hend' ▸ hall _ hlt ▸ List.getElem_mem hlt) hl
  exact List.ext_getElem hlen fun i h1 h2 => (hall i h1).symm.trans (hall' i h2)

theorem holds_first {c : Bytes} {a : Nat} {l : Name} (h : c.holds a l = true) (hne : l ≠ [])
    (h0 : 0 ∉ l) : c a ≠ 0 := by
  obtain ⟨x, l, rfl⟩ := List.exists_cons_of_ne_nil hne
  have := (Lib.Bytes.holds_iff.mp h).1 0 (Nat.zero_lt_succ _)
  intro heq
  rw [Nat.add_zero, heq] at this
  exact h0 (this ▸ List.mem_cons_self)

theorem holds_false {c : Bytes} {g : Nat} (h0 : c g = 0) {name : Name} (hne : name ≠ [])
    (hz : 0 ∉ name) : c.holds g name = false := by
  by_contra htrue
  rw [Bool.not_eq_false] at htrue
  exact holds_first htrue hne hz h0

/-! ## Slots -/

def blockSlots (blk : Nat) : List Nat := (List.range FILE2BLK).map (fileAt blk)

/-- The slots of a directory. -/
def slots (c : Bytes) (dir : Nat) : List Nat :=
  (List.range (c.word (sizeAt dir) / BLOCK_SIZE)).flatMap fun i =>
    blockSlots (diskAddr (heldBlock c dir (.block i)))

theorem namedIn_eq (c : Bytes) (blk : Nat) (name : Name) :
    namedIn c blk name = (blockSlots blk).find? fun g => c.holds g name := by
  unfold namedIn blockSlots
  rw [List.find?_map]
  rfl

theorem lookupIn_eq (c : Bytes) (dir : Nat) (name : Name) (k i : Nat) :
    lookupIn c dir name k i = ((List.range' i k).flatMap fun i =>
      blockSlots (diskAddr (heldBlock c dir (.block i)))).find? fun g => c.holds g name := by
  induction k generalizing i with
  | zero => rfl
  | succ k ih =>
    unfold lookupIn
    rw [List.range'_succ, List.flatMap_cons, List.find?_append, ← namedIn_eq, ih]
    rcases namedIn c (diskAddr (heldBlock c dir (.block i))) name with _ | f <;> rfl

theorem lookup_eq (c : Bytes) (dir : Nat) (name : Name) :
    lookup c dir name = (slots c dir).find? fun g => c.holds g name := by
  unfold lookup slots
  rw [lookupIn_eq, List.range_eq_range']

theorem mem_blockSlots {blk g : Nat} : g ∈ blockSlots blk ↔ ∃ j < FILE2BLK, g = fileAt blk j := by
  unfold blockSlots
  simp only [List.mem_map, List.mem_range, eq_comm]

theorem mem_slots {c : Bytes} {dir g : Nat} : g ∈ slots c dir ↔
    ∃ i < c.word (sizeAt dir) / BLOCK_SIZE, ∃ j < FILE2BLK,
      g = fileAt (diskAddr (heldBlock c dir (.block i))) j := by
  unfold slots
  simp only [List.mem_flatMap, List.mem_range, mem_blockSlots]

theorem lookup_mem {c : Bytes} {dir g : Nat} {name : Name} (h : lookup c dir name = some g) :
    g ∈ slots c dir ∧ c.holds g name = true := by
  rw [lookup_eq] at h
  exact ⟨List.mem_of_find?_eq_some h, List.find?_some (p := fun g => c.holds g name) h⟩

theorem slots_congr {c c' : Bytes} {dir : Nat}
    (hsize : c'.word (sizeAt dir) / BLOCK_SIZE = c.word (sizeAt dir) / BLOCK_SIZE)
    (hheld : ∀ i < c.word (sizeAt dir) / BLOCK_SIZE,
      heldBlock c' dir (.block i) = heldBlock c dir (.block i)) : slots c' dir = slots c dir := by
  unfold slots
  rw [hsize]
  exact List.flatMap_congr fun i hi => by rw [hheld i (List.mem_range.mp hi)]

section

variable {n : Nat} {Z : Set Nat} {c c' : Bytes}

/-- No block is missing up to the size of the directory. -/
def Full (c : Bytes) (dir : Nat) : Prop :=
  ∀ i < c.word (sizeAt dir) / BLOCK_SIZE, heldBlock c dir (.block i) ≠ 0

theorem NoHoles.full (hn : NoHoles Z c) {d : Nat} (hd : IsFile c Z d)
    (ht : c.word (typeAt d) = FTYPE_DIR) : Full c d := hn d hd ht

theorem slot_isFile {dir g : Nat} (hd : IsFile c Z dir) (ht : c.word (typeAt dir) = FTYPE_DIR)
    (hfull : Full c dir) (hg : g ∈ slots c dir) : IsFile c Z g := by
  obtain ⟨i, hi, j, hj, rfl⟩ := mem_slots.mp hg
  exact .slot hd ht (hfull i hi) hj

theorem slot_owner (hs : Sound n Z c) {d d' g : Nat} (hd : IsFile c Z d) (hfull : Full c d)
    (hd' : IsFile c Z d') (hfull' : Full c d') (hg : g ∈ slots c d) (hg' : g ∈ slots c d') : d = d' := by
  obtain ⟨own, dep, ho⟩ := hs.tree
  obtain ⟨i, hi, j, hj, rfl⟩ := mem_slots.mp hg
  obtain ⟨i', hi', j', hj', heq⟩ := mem_slots.mp hg'
  have hblk := congrArg blockOf heq
  rw [blockOf_fileAt _ hj, blockOf_fileAt _ hj'] at hblk
  have hown := ho.owner hd (hfull i hi)
  rw [hblk, ho.owner hd' (hfull' i' hi')] at hown
  exact (Prod.mk.inj (Option.some.inj hown)).1.symm

theorem root_not_slot (hs : Sound n Z c) {d : Nat} (hd : IsFile c Z d) (hfull : Full c d) :
    diskAddr 1 + 8 ∉ slots c d := by
  obtain ⟨own, dep, ho⟩ := hs.tree
  intro hg
  obtain ⟨i, hi, j, hj, heq⟩ := mem_slots.mp hg
  have hthree := (ho.range hd (hfull i hi)).three_le
  have hblk := congrArg blockOf heq
  rw [blockOf_fileAt _ hj, blockOf_add 1 (by omega)] at hblk
  omega

theorem slot_ne (hs : Sound n Z c) {dir f : Nat} (hd : IsFile c Z dir)
    (ht : c.word (typeAt dir) = FTYPE_DIR) (hfull : Full c dir) (hf : f ∈ slots c dir) : dir ≠ f := by
  obtain ⟨own, dep, ho⟩ := hs.tree
  obtain ⟨i, hi, j, hj, rfl⟩ := mem_slots.mp hf
  intro heq
  have hdeep := ho.deeper hd ht (hfull i hi)
  have hblk := congrArg blockOf heq
  rw [blockOf_fileAt _ hj] at hblk
  rw [hblk] at hdeep
  omega

/-! ## Paths -/

theorem below_found {file d g : Nat} {name : Name} :
    below c file name = .found d g ↔ file = d ∧ name.length < MAXNAMELEN ∧
      c.word (typeAt file) = FTYPE_DIR ∧ lookup c file name = some g := by
  unfold below
  by_cases hlong : name.length ≥ MAXNAMELEN
  · rw [if_pos hlong]
    simp only [reduceCtorEq, false_iff]
    exact fun h => absurd h.2.1 (Nat.not_lt_of_le hlong)
  · rw [if_neg hlong]
    by_cases ht : c.word (typeAt file) ≠ FTYPE_DIR
    · rw [if_pos ht]
      simp only [reduceCtorEq, false_iff]
      exact fun h => ht h.2.2.1
    · rw [if_neg ht]
      rcases lookup c file name with _ | f
      · simp
      · simp only [Walk.found.injEq, Option.some.injEq]
        exact ⟨fun h => ⟨h.1, Nat.lt_of_not_le hlong, not_not.mp ht, h.2⟩, fun h => ⟨h.1, h.2.2.2⟩⟩

theorem resolve_found {names : List Name} {name : Name} {d g : Nat} :
    resolve c (names ++ [name]) = .found d g ↔ (∃ parent, resolve c names = .found parent d) ∧
      name.length < MAXNAMELEN ∧ c.word (typeAt d) = FTYPE_DIR ∧ lookup c d name = some g := by
  rw [resolve_snoc]
  rcases resolve c names with ⟨dir, file⟩ | ⟨dir, name'⟩ | e
  · show below c file name = _ ↔ _
    rw [below_found]
    constructor
    · rintro ⟨rfl, h⟩
      exact ⟨⟨dir, rfl⟩, h⟩
    · rintro ⟨⟨parent, hp⟩, h⟩
      obtain ⟨rfl, rfl⟩ := Walk.found.inj hp
      exact ⟨rfl, h⟩
  · simp [Walk.step]
  · simp [Walk.step]

theorem found_isFile (hn : NoHoles Z c) {names : List Name} {d g : Nat}
    (h : resolve c names = .found d g) : IsFile c Z g := by
  have := resolve_inTree (Z := Z) hn names
  rw [h] at this
  exact this

/-- A file has one path. -/
theorem resolve_injective (hs : Sound n Z c) (hn : NoHoles Z c) {p q : List Name} {d d' g : Nat}
    (hp : Proper p) (hq : Proper q) (h : resolve c p = .found d g) (h' : resolve c q = .found d' g) :
    p = q := by
  induction p using List.reverseRecOn generalizing q d d' g with
  | nil =>
    obtain ⟨rfl, rfl⟩ : d = 0 ∧ g = diskAddr 1 + 8 := by
      have := Walk.found.inj h
      exact ⟨this.1.symm, this.2.symm⟩
    obtain rfl | ⟨above, name, rfl⟩ := List.eq_nil_or_concat' q
    · rfl
    · obtain ⟨⟨parent, hparent⟩, -, ht, hl⟩ := resolve_found.mp h'
      exact absurd (lookup_mem hl).1 (root_not_slot hs (found_isFile hn hparent) (hn.full (found_isFile hn hparent) ht))
  | append_singleton p name ih =>
    obtain ⟨⟨parent, hparent⟩, -, ht, hl⟩ := resolve_found.mp h
    have hd := found_isFile hn hparent
    obtain rfl | ⟨above, name', rfl⟩ := List.eq_nil_or_concat' q
    · obtain rfl : g = diskAddr 1 + 8 := (Walk.found.inj h').2.symm
      exact absurd (lookup_mem hl).1 (root_not_slot hs hd (hn.full hd ht))
    · obtain ⟨⟨parent', hparent'⟩, -, ht', hl'⟩ := resolve_found.mp h'
      have hd' := found_isFile hn hparent'
      obtain rfl := slot_owner hs hd (hn.full hd ht) hd' (hn.full hd' ht') (lookup_mem hl).1
        (lookup_mem hl').1
      rw [ih hp.init hq.init hparent hparent',
        holds_inj (lookup_mem hl).2 (lookup_mem hl').2 hp.last.2 hq.last.2]

/-- What a path leads to, with its type. -/
def entry (c : Bytes) (names : List Name) : Option (Nat × Nat) :=
  match resolve c names with
  | .found _ f => some (f, c.word (typeAt f))
  | .missing .. | .failed _ => none

theorem entry_found {names : List Name} {d g : Nat} (h : resolve c names = .found d g) :
    entry c names = some (g, c.word (typeAt g)) := by
  unfold entry
  rw [h]

theorem entry_none {names : List Name} : entry c names = none ↔ ∀ d g, resolve c names ≠ .found d g := by
  unfold entry
  rcases resolve c names with ⟨d, g⟩ | ⟨d, name⟩ | e <;> simp

/-- At most what `name` means in `dir` has changed, and what is in the file `f`. -/
structure Rebinds (Z : Set Nat) (dir : Nat) (name : Name) (f : Nat) (c c' : Bytes) : Prop where
  types : ∀ g, IsFile c Z g → g ≠ f → c'.word (typeAt g) = c.word (typeAt g)
  lookups : ∀ g, IsFile c Z g → g ≠ f → c.word (typeAt g) = FTYPE_DIR → ∀ nm, nm ≠ [] → 0 ∉ nm →
    nm.length < MAXNAMELEN → (g, nm) ≠ (dir, name) → lookup c' g nm = lookup c g nm

/-- Paths that do not go through the name mean what they meant, unless they lead to `f`. -/
theorem Rebinds.resolve (h : Rebinds Z dir name f c c') (hs : Sound n Z c) (hn : NoHoles Z c)
    {above : List Name} {parent : Nat} (hp : Proper (above ++ [name]))
    (habove : resolve c above = .found parent dir)
    (hreach : ∀ q d, Proper q → ¬ (above ++ [name]) <+: q → resolve c q ≠ .found d f)
    {names : List Name} (hnames : Proper names) (hout : ¬ (above ++ [name]) <+: names) :
    resolve c' names = resolve c names := by
  induction names using List.reverseRecOn with
  | nil => rfl
  | append_singleton q nm ih =>
    have hq : ¬ (above ++ [name]) <+: q := fun hpre => hout (hpre.trans (List.prefix_append _ _))
    rw [resolve_snoc, resolve_snoc, ih hnames.init hq]
    rcases hres : Fs.resolve c q with ⟨d, g⟩ | ⟨d, nm'⟩ | e
    · have hg := found_isFile hn hres
      have hgf : g ≠ f := by
        rintro rfl
        exact hreach q d hnames.init hq hres
      show below c' g nm = below c g nm
      unfold below
      rw [h.types g hg hgf]
      by_cases hlong : nm.length ≥ MAXNAMELEN
      · rw [if_pos hlong, if_pos hlong]
      · by_cases ht : c.word (typeAt g) ≠ FTYPE_DIR
        · rw [if_neg hlong, if_neg hlong, if_pos ht, if_pos ht]
        · rw [if_neg hlong, if_neg hlong, if_neg ht, if_neg ht, h.lookups g hg hgf (not_not.mp ht) nm
            hnames.last.1 hnames.last.2 (Nat.lt_of_not_le hlong)]
          rintro heq
          obtain ⟨rfl, rfl⟩ := Prod.mk.inj heq
          have hsame := resolve_injective hs hn hp.init hnames.init habove hres
          exact hout (hsame ▸ List.prefix_rfl)
    · rfl
    · rfl

theorem Rebinds.entry (h : Rebinds Z dir name f c c') (hs : Sound n Z c) (hn : NoHoles Z c)
    {above : List Name} {parent : Nat} (hp : Proper (above ++ [name]))
    (habove : Fs.resolve c above = .found parent dir)
    (hreach : ∀ q d, Proper q → ¬ (above ++ [name]) <+: q → Fs.resolve c q ≠ .found d f)
    {names : List Name} (hnames : Proper names) (hout : ¬ (above ++ [name]) <+: names) :
    Fs.entry c' names = Fs.entry c names := by
  unfold Fs.entry
  rw [h.resolve hs hn hp habove hreach hnames hout]
  rcases hold : Fs.resolve c names with ⟨d, g⟩ | ⟨d, nm⟩ | e
  · have hgf : g ≠ f := by
      rintro rfl
      exact hreach names d hnames hout hold
    show some (g, c'.word (typeAt g)) = some (g, c.word (typeAt g))
    rw [h.types g (found_isFile hn hold) hgf]
  · rfl
  · rfl

theorem holds_name {g : Nat} (hb : ∀ k < 128, c' (g + k) = c (g + k)) {name : Name}
    (hlong : name.length < MAXNAMELEN) : c'.holds g name = c.holds g name := by
  have h128 : MAXNAMELEN = 128 := rfl
  refine Lib.Bytes.holds_congr fun a h1 h2 => ?_
  obtain ⟨k, rfl⟩ := Nat.exists_eq_add_of_le h1
  exact hb k (by omega)

theorem SameFile.holds {F : Set Nat} {g : Nat} (h : SameFile F c c' g) {name : Name}
    (hlong : name.length < MAXNAMELEN) : c'.holds g name = c.holds g name :=
  holds_name (fun k hk => h.bytes k (by omega)) hlong

theorem lookup_congr {dir : Nat} {name : Name} (hslots : slots c' dir = slots c dir)
    (hholds : ∀ g ∈ slots c dir, c'.holds g name = c.holds g name) :
    lookup c' dir name = lookup c dir name := by
  rw [lookup_eq, lookup_eq, hslots]
  exact List.find?_congr hholds

theorem Keeps.slots {dir : Nat} (h : Keeps dir c c') : slots c' dir = slots c dir := by
  refine slots_congr ?_ fun i _ => h.held i
  rw [show c'.word (sizeAt dir) = c.word (sizeAt dir) from word_of_bytes h.bytes (by omega)]

theorem SameFile.keeps {F : Set Nat} {g : Nat} (h : SameFile F c c' g) : Keeps g c c' :=
  ⟨h.bytes, fun _ => h.held _⟩

theorem not_prefix_init {above : List Name} {name : Name} : ¬ (above ++ [name]) <+: above := by
  intro hpre
  have hlen := hpre.length_le
  rw [List.length_append, List.length_singleton] at hlen
  omega

/-! ## Directories in order -/

/-- The file is the root or has a name. -/
def Used (c : Bytes) (f : Nat) : Prop := f = diskAddr 1 + 8 ∨ c f ≠ 0

theorem used_congr {f : Nat} (h : c' f = c f) : Used c' f ↔ Used c f := by
  unfold Used
  rw [h]

theorem found_used {names : List Name} {d g : Nat} (h : resolve c names = .found d g)
    (hnames : Proper names) : Used c g := by
  obtain rfl | ⟨above, name, rfl⟩ := List.eq_nil_or_concat' names
  · exact Or.inl (Walk.found.inj h).2.symm
  · obtain ⟨-, -, -, hl⟩ := resolve_found.mp h
    exact Or.inr (holds_first (lookup_mem hl).2 hnames.last.1 hnames.last.2)

/-- The names in a directory differ. -/
def Distinct (c : Bytes) (dir : Nat) : Prop :=
  ∀ g ∈ slots c dir, ∀ g' ∈ slots c dir, ∀ name, name ≠ [] → 0 ∉ name → name.length < MAXNAMELEN →
    c.holds g name = true → c.holds g' name = true → g = g'

/-- A directory has the blocks up to its size and no others, its names differ, and a file without a
name is empty. -/
structure Orderly (Z : Set Nat) (c : Bytes) : Prop where
  full : NoHoles Z c
  tight : ∀ d, IsFile c Z d → c.word (typeAt d) = FTYPE_DIR → Used c d →
    ∀ i, c.word (sizeAt d) / BLOCK_SIZE ≤ i → heldBlock c d (.block i) = 0
  distinct : ∀ d, IsFile c Z d → c.word (typeAt d) = FTYPE_DIR → Distinct c d
  vacant : ∀ g, IsFile c Z g → ¬ Used c g → c.word (sizeAt g) = 0

theorem slots_empty {dir : Nat} (h : c.word (sizeAt dir) = 0) : slots c dir = [] := by
  unfold slots
  rw [h]
  rfl

theorem SameFile.used {F : Set Nat} {g : Nat} (h : SameFile F c c' g) : Used c' g ↔ Used c g :=
  used_congr (h.bytes 0 (by omega))

theorem SameFile.full {F : Set Nat} {g : Nat} (h : SameFile F c c' g) (hfull : Full c g) : Full c' g := by
  intro i hi
  rw [h.size] at hi
  rw [h.held]
  exact hfull i hi

theorem SameFile.slots {F : Set Nat} {dir : Nat} (h : SameFile F c c' dir) : slots c' dir = slots c dir :=
  slots_congr (by rw [h.size]) fun _ _ => h.held _

/-- An update of the file `f`. -/
structure Touches (Z F : Set Nat) (f : Nat) (c c' : Bytes) : Prop where
  same : ∀ g, IsFile c Z g → g ≠ f → SameFile F c c' g
  dir : c'.word (typeAt f) = FTYPE_DIR → ∀ i, heldBlock c' f (.block i) = 0 ∨
    c.word (typeAt f) = FTYPE_DIR ∧ heldBlock c' f (.block i) = heldBlock c f (.block i)

theorem Touches.isFile {F : Set Nat} {f : Nat} (h : Touches Z F f c c') {g : Nat} (hg : IsFile c' Z g) :
    IsFile c Z g := by
  induction hg with
  | root => exact .root
  | extra hz => exact .extra hz
  | @slot d i j hd ht hb hj ih =>
    by_cases hdf : d = f
    · subst hdf
      obtain ⟨ht', heq⟩ := (h.dir ht i).resolve_left hb
      rw [heq] at hb ⊢
      exact .slot ih ht' hb hj
    · have hsame := h.same d ih hdf
      rw [hsame.type] at ht
      rw [hsame.held] at hb ⊢
      exact .slot ih ht hb hj

/-- The file is empty after the update, and no other file in its directory has its name. -/
theorem Touches.orderly {F : Set Nat} {f : Nat} (h : Touches Z F f c c') (ho : Orderly Z c)
    (hsize : c'.word (sizeAt f) = 0)
    (hempty : Used c' f → c'.word (typeAt f) = FTYPE_DIR → ∀ i, heldBlock c' f (.block i) = 0)
    (hname : ∀ d, IsFile c Z d → c.word (typeAt d) = FTYPE_DIR → f ∈ slots c d → ∀ g ∈ slots c d,
      g ≠ f → ∀ name, name ≠ [] → 0 ∉ name → c'.holds f name = true → c.holds g name = false) :
    Orderly Z c' := by
  refine ⟨fun d hd ht => ?_, fun d hd ht hu i hi => ?_, fun d hd ht => ?_, fun g hg hu => ?_⟩
  · by_cases hdf : d = f
    · subst hdf
      intro i hi
      rw [hsize] at hi
      exact absurd hi (Nat.not_lt_zero i)
    · have hsame := h.same d (h.isFile hd) hdf
      exact hsame.full (ho.full d (h.isFile hd) (hsame.type ▸ ht))
  · by_cases hdf : d = f
    · subst hdf
      exact hempty hu ht i
    · have hsame := h.same d (h.isFile hd) hdf
      rw [hsame.size] at hi
      rw [hsame.held]
      exact ho.tight d (h.isFile hd) (hsame.type ▸ ht) (hsame.used.mp hu) i hi
  · by_cases hdf : d = f
    · subst hdf
      intro g hg
      rw [slots_empty hsize] at hg
      exact absurd hg List.not_mem_nil
    · have hd' := h.isFile hd
      have hsame := h.same d hd' hdf
      have ht' := hsame.type ▸ ht
      have hfull := ho.full.full hd' ht'
      intro g hg g' hg' name hne h0 hlong hholds hholds'
      rw [hsame.slots] at hg hg'
      have hkeep : ∀ x ∈ slots c d, x ≠ f → c'.holds x name = c.holds x name :=
        fun x hx hxf => (h.same x (slot_isFile hd' ht' hfull hx) hxf).holds hlong
      by_cases hgf : g = f
      · by_cases hgf' : g' = f
        · exact hgf.trans hgf'.symm
        · rw [hkeep g' hg' hgf', hname d hd' ht' (hgf ▸ hg) g' hg' hgf' name hne h0 (hgf ▸ hholds)]
            at hholds'
          exact absurd hholds' Bool.false_ne_true
      · by_cases hgf' : g' = f
        · rw [hkeep g hg hgf, hname d hd' ht' (hgf' ▸ hg') g hg hgf name hne h0 (hgf' ▸ hholds')]
            at hholds
          exact absurd hholds Bool.false_ne_true
        · rw [hkeep g hg hgf] at hholds
          rw [hkeep g' hg' hgf'] at hholds'
          exact ho.distinct d hd' ht' g hg g' hg' name hne h0 hlong hholds hholds'
  · by_cases hgf : g = f
    · exact hgf ▸ hsize
    · have hsame := h.same g (h.isFile hg) hgf
      rw [hsame.size]
      exact ho.vacant g (h.isFile hg) fun hu' => hu (hsame.used.mpr hu')

/-! ## Removing a name -/

theorem resolve_below {p names : List Name} (h : p <+: names) (hp : ∀ d f, resolve c p ≠ .found d f)
    (d f : Nat) : resolve c names ≠ .found d f := by
  obtain ⟨rest, rfl⟩ := h
  induction rest using List.reverseRecOn generalizing d f with
  | nil =>
    rw [List.append_nil]
    exact hp d f
  | append_singleton rest name ih =>
    rw [← List.append_assoc]
    intro hfound
    obtain ⟨⟨parent, hparent⟩, -⟩ := resolve_found.mp hfound
    exact ih parent d hparent

/-- The first byte of the name of `f` is cleared: its path and those below it are gone. -/
theorem entry_cleared (hs : Sound n Z c) (ho : Orderly Z c)
    {F : Set Nat} {f dir : Nat} (hsame : ∀ g, IsFile c Z g → g ≠ f → SameFile F c c' g) (h0 : c' f = 0)
    {path : List Name} (hpath : Proper path) (hne : path ≠ []) (hfound : resolve c path = .found dir f)
    {names : List Name} (hnames : Proper names) :
    entry c' names = if path <+: names then none else entry c names := by
  have hn := ho.full
  obtain rfl | ⟨above, name, rfl⟩ := List.eq_nil_or_concat' path
  · exact absurd rfl hne
  obtain ⟨⟨parent, hparent⟩, hlong, ht, hl⟩ := resolve_found.mp hfound
  obtain ⟨hmem, hholds⟩ := lookup_mem hl
  have hd := found_isFile hn hparent
  have hlast := hpath.last
  have hrebinds : Rebinds Z dir name f c c' := by
    refine ⟨fun g hg hgf => word_of_bytes (hsame g hg hgf).bytes (by omega),
      fun g hg hgf htg nm hnm hnm0 hlen hout => ?_⟩
    refine lookup_congr (hsame g hg hgf).keeps.slots fun x hx => ?_
    by_cases hxf : x = f
    · subst hxf
      obtain rfl := slot_owner hs hd (hn.full hd ht) hg (hn.full hg htg) hmem hx
      have hold : c.holds x nm = false := by
        by_contra htrue
        rw [Bool.not_eq_false] at htrue
        exact hout (by rw [holds_inj htrue hholds hnm0 hlast.2])
      rw [hold, holds_false h0 hnm hnm0]
    · exact (hsame x (slot_isFile hg htg (hn.full hg htg) hx) hxf).holds hlen
  have hreach : ∀ q d, Proper q → ¬ (above ++ [name]) <+: q → resolve c q ≠ .found d f := by
    intro q d hq hout hres
    obtain rfl := resolve_injective hs hn hpath hq hfound hres
    exact hout List.prefix_rfl
  have hdf := slot_ne hs hd ht (hn.full hd ht) hmem
  split
  case isFalse hout => exact hrebinds.entry hs hn hpath hparent hreach hnames hout
  case isTrue hpre =>
  refine entry_none.mpr (resolve_below hpre fun d g hres => ?_)
  -- The parent is as it was, and no slot of it has the name any more.
  obtain ⟨⟨parent', hparent'⟩, -, -, hl'⟩ := resolve_found.mp hres
  rw [hrebinds.resolve hs hn hpath hparent hreach hpath.init not_prefix_init, hparent] at hparent'
  obtain ⟨rfl, rfl⟩ := Walk.found.inj hparent'
  obtain ⟨hmem', hholds'⟩ := lookup_mem hl'
  rw [(hsame dir hd hdf).keeps.slots] at hmem'
  by_cases hgf : g = f
  · subst hgf
    exact holds_first hholds' hlast.1 hlast.2 h0
  · rw [(hsame g (slot_isFile hd ht (hn.full hd ht) hmem') hgf).holds hlong] at hholds'
    exact hgf (ho.distinct dir hd ht g hmem' f hmem name hlast.1 hlast.2 hlong hholds' hholds)

/-! ## Where only links change -/

theorem SameFiles.slots (h : SameFiles n Z c c') {dir : Nat} (hd : IsFile c Z dir) :
    slots c' dir = slots c dir :=
  slots_congr (by rw [h.size hd]) fun _ _ => h.alike.held _ hd

theorem SameFiles.used (h : SameFiles n Z c c') {f : Nat} (hf : IsFile c Z f) : Used c' f ↔ Used c f :=
  used_congr (h.bytes f hf 0 (by omega) (by omega))

theorem SameFiles.orderly (h : SameFiles n Z c c') (ho : Orderly Z c) : Orderly Z c' := by
  refine ⟨h.noHoles ho.full, fun d hd ht hu i hi => ?_, fun d hd ht => ?_, fun g hg hu => ?_⟩
  · rw [h.isFile] at hd
    rw [h.alike.types hd] at ht
    rw [h.size hd] at hi
    rw [h.alike.held _ hd]
    exact ho.tight d hd ht ((h.used hd).mp hu) i hi
  · rw [h.isFile] at hd
    rw [h.alike.types hd] at ht
    have hfile : ∀ {x}, x ∈ Fs.slots c d → IsFile c Z x := slot_isFile hd ht (ho.full.full hd ht)
    intro g hg g' hg' name hne h0 hlong hholds hholds'
    rw [h.slots hd] at hg hg'
    rw [h.holds (hfile hg) hlong] at hholds
    rw [h.holds (hfile hg') hlong] at hholds'
    exact ho.distinct d hd ht g hg g' hg' name hne h0 hlong hholds hholds'
  · rw [h.isFile] at hg
    rw [h.size hg]
    exact ho.vacant g hg fun hu' => hu ((h.used hg).mpr hu')

theorem SameFiles.entry (h : SameFiles n Z c c') (hn : NoHoles Z c) (names : List Name) :
    entry c' names = entry c names := by
  unfold Fs.entry
  rw [h.resolve hn]
  rcases hres : Fs.resolve c names with ⟨d, g⟩ | ⟨d, name⟩ | e
  · show some (g, c'.word (typeAt g)) = some (g, c.word (typeAt g))
    rw [h.alike.types (found_isFile hn hres)]
  · rfl
  · rfl

end

end Mos.Fs
