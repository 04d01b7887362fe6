import Mathlib.Data.List.Nodup
import Mos.Fs.Init
import Mos.Lib.Program

/-!
# Where `fsformat` stores (`tools/fsformat.c`)

The builder of the image with the bounds of its arrays: a store outside of `disk` or behind an
`f_name` ends the run. File names come from a host. What it makes is the image of `Mos.Fs.fsformat`,
which looks at no bounds of names.
-/

namespace Mos.Fs.Builder

open Lib (Bytes wp wp_mono wp_ite)

inductive Halt where
  | assertion
  /-- `exit(1)` -/
  | exit
  /-- A store outside of an array. -/
  | overrun
  deriving DecidableEq, Repr

abbrev Build := EStateM Halt Image

/-- A name of a file of the host. -/
structure HostName where
  chars : Name
  nonempty : chars ≠ []
  nonzero : 0 ∉ chars

inductive Input where
  | file (name : HostName) (contents : List UInt8)
  | dir (name : HostName) (entries : List Input)

/-! ## `fsformat` -/

/-- The `n` bytes from `a` on are in `disk`. -/
def inDisk (a n : Nat) : Bool := decide (diskAddr 0 ≤ a ∧ a + n ≤ diskAddr NBLOCK)

def put (a : Nat) (l : List UInt8) : Build Unit :=
  if inDisk a l.length then modify (·.setList a l) else throw .overrun

def putWord (a v : Nat) : Build Unit :=
  if inDisk a 4 then modify (·.setWord a v) else throw .overrun

/-- `disk[nextbno].type = type; return nextbno++;` -/
def nextBlock : Build Nat := do
  let d ← get
  if d.nextbno < NBLOCK then
    set { d with nextbno := d.nextbno + 1 }
    return d.nextbno
  else
    throw .overrun

/-- There is an index block. -/
def indexBlock (f : Nat) : Build Unit := do
  if (← get).data.word (indirectAt f) = 0 then
    let r ← nextBlock
    putWord (indirectAt f) r
  else
    return ()

def saveBlockLink (f nblk bno : Nat) : Build Unit := do
  if nblk ≥ NINDIRECT then
    throw .assertion
  else if nblk < NDIRECT then
    putWord (directAt f nblk) bno
  else
    indexBlock f
    putWord (diskAddr ((← get).data.word (indirectAt f)) + 4 * nblk) bno

def makeLinkBlock (dirf nblk : Nat) : Build Nat := do
  let bno ← nextBlock
  saveBlockLink dirf nblk bno
  putWord (sizeAt dirf) ((← get).data.word (sizeAt dirf) + BLOCK_SIZE)
  return bno

def createFile (dirf : Nat) : Build Nat := do
  let d ← get
  let nblk := d.data.word (sizeAt dirf) / BLOCK_SIZE
  match (List.range nblk).findSome? fun i => d.unusedFile (diskAddr (d.linked dirf i)) with
  | some f => return f
  | none => return diskAddr (← makeLinkBlock dirf nblk)

/-- The loop that reads a file into the next block, for `n` blocks from block `iblk` on. -/
def writeBlocks (target : Nat) (contents : List UInt8) : Nat → Nat → Build Unit
  | 0, _ => return ()
  | n + 1, iblk => do
    put (diskAddr (← get).nextbno) ((contents.drop (iblk * BLOCK_SIZE)).take BLOCK_SIZE)
    let bno ← nextBlock
    saveBlockLink target iblk bno
    writeBlocks target contents n (iblk + 1)

/-- `strcpy(f->f_name, name)` -/
def strcpyName (f : Nat) (name : Name) : Build Unit :=
  if name.length + 1 ≤ MAXNAMELEN then put f (name ++ [0]) else throw .overrun

def writeFile (dirf : Nat) (name : HostName) (contents : List UInt8) : Build Unit := do
  let target ← createFile dirf
  strcpyName target name.chars
  putWord (sizeAt target) contents.length
  putWord (typeAt target) FTYPE_REG
  writeBlocks target contents (blocksOf contents.length) 0

/-- `strncpy` of at most `MAXNAMELEN - 1` bytes, and the test of the byte behind them. -/
def nameDirectory (pdir : Nat) (name : HostName) : Build Unit := do
  put pdir (name.chars.take (MAXNAMELEN - 1) ++ List.replicate (MAXNAMELEN - 1 - name.chars.length) 0)
  if (← get).data (pdir + (MAXNAMELEN - 1)) ≠ 0 then
    throw .exit
  else
    putWord (typeAt pdir) FTYPE_DIR

mutual

def writeInput (dirf : Nat) : Input → Build Unit
  | .file name contents => writeFile dirf name contents
  | .dir name entries => do
    let pdir ← createFile dirf
    nameDirectory pdir name
    writeEntries pdir entries

def writeEntries (pdir : Nat) : List Input → Build Unit
  | [] => return ()
  | e :: es => do
    writeInput pdir e
    writeEntries pdir es

end

/-- The bits of the blocks below `n` are cleared. -/
def flushBitmap : Nat → Build Unit
  | 0 => return ()
  | n + 1 => do
    flushBitmap n
    let a := diskAddr 2 + 4 * (n / 32)
    putWord a ((← get).data.word a &&& (2 ^ 32 - 1 - 1 <<< (n % 32)))

def fsformat (args : List Input) : Build Unit := do
  writeEntries rootAt args
  flushBitmap (← get).nextbno

/-! ## The image without the bounds -/

mutual

def Input.host : Input → Host
  | .file name contents => .file name.chars contents
  | .dir name entries => .dir name.chars (hosts entries)

def hosts : List Input → List Host
  | [] => []
  | e :: es => e.host :: hosts es

end

/-- What `x` does without a store outside of an array, `y` does. -/
def Agrees {α : Type} (x : Build α) (y : Format α) : Prop :=
  ∀ d a d', x d = .ok a d' → y.run d = some (a, d')

section

variable {α β : Type} {x : Build α} {y : Format α}

theorem agrees_pure (a : α) : Agrees (pure a) (pure a) := by
  rintro d _ _ ⟨⟩
  rfl

theorem agrees_throw (e : Halt) (y : Format α) : Agrees (throw e) y := by
  rintro d a d' h
  cases h

theorem agrees_get : Agrees get get := by
  rintro d _ _ ⟨⟩
  rfl

theorem Agrees.bind {f : α → Build β} {g : α → Format β} (h : Agrees x y) (hf : ∀ a, Agrees (f a) (g a)) :
    Agrees (x >>= f) (y >>= g) := by
  intro d b d' hrun
  change EStateM.bind x f d = _ at hrun
  unfold EStateM.bind at hrun
  cases hx : x d with
  | ok a d₁ =>
    rw [hx] at hrun
    rw [StateT.run_bind, h d a d₁ hx]
    exact hf a d₁ b d' hrun
  | error e d₁ =>
    rw [hx] at hrun
    cases hrun

theorem Agrees.ite {c : Prop} [Decidable c] {x' : Build α} {y' : Format α} (h : c → Agrees x y)
    (h' : ¬ c → Agrees x' y') : Agrees (if c then x else x') (if c then y else y') := by
  split
  · exact h ‹_›
  · exact h' ‹_›

end

theorem agrees_put (a : Nat) (l : List UInt8) : Agrees (put a l) (modify (·.setList a l)) := by
  unfold put
  split
  · rintro d _ _ ⟨⟩
    rfl
  · exact agrees_throw _ _

theorem agrees_putWord (a v : Nat) : Agrees (putWord a v) (modify (·.setWord a v)) := by
  unfold putWord
  split
  · rintro d _ _ ⟨⟩
    rfl
  · exact agrees_throw _ _

section

variable {β : Type} {k : Unit → Build β} {k' : Unit → Format β}

/-- A store whose address and value are read from the image. -/
theorem agrees_update (a v : Image → Nat) :
    Agrees (do putWord (a (← get)) (v (← get))) (modify fun d => d.setWord (a d) (v d)) := by
  intro d u d' h
  exact agrees_putWord (a d) (v d) d u d' h

theorem Agrees.update (a v : Image → Nat) (hk : ∀ u, Agrees (k u) (k' u)) :
    Agrees (get >>= fun d => putWord (a d) (v d) >>= k)
      ((modify fun d => d.setWord (a d) (v d)) >>= k') := by
  intro d b d' h
  exact (agrees_putWord (a d) (v d)).bind hk d b d' h

theorem Agrees.fill (a : Image → Nat) (l : List UInt8) (hk : ∀ u, Agrees (k u) (k' u)) :
    Agrees (get >>= fun d => put (a d) l >>= k) ((modify fun d => d.setList (a d) l) >>= k') := by
  intro d b d' h
  exact (agrees_put (a d) l).bind hk d b d' h

end

theorem agrees_nextBlock : Agrees nextBlock Fs.nextBlock := by
  unfold nextBlock Fs.nextBlock
  refine agrees_get.bind fun d => .ite (fun _ => ?_) fun _ => agrees_throw _ _
  rintro d₀ _ _ ⟨⟩
  rfl

theorem agrees_saveBlockLink (f nblk bno : Nat) :
    Agrees (saveBlockLink f nblk bno) (Fs.saveBlockLink f nblk bno) := by
  have hindex : Agrees (indexBlock f) (Fs.indexBlock f) := by
    unfold indexBlock Fs.indexBlock
    refine agrees_get.bind fun d => .ite (fun _ => ?_) fun _ => agrees_pure ()
    exact agrees_nextBlock.bind fun r => agrees_putWord _ r
  unfold saveBlockLink Fs.saveBlockLink
  refine .ite (fun _ => agrees_throw _ _) fun _ => .ite (fun _ => agrees_putWord _ _) fun _ => ?_
  refine hindex.bind fun _ => ?_
  exact agrees_update (fun d => diskAddr (d.data.word (indirectAt f)) + 4 * nblk) fun _ => bno

theorem agrees_makeLinkBlock (dirf nblk : Nat) :
    Agrees (makeLinkBlock dirf nblk) (Fs.makeLinkBlock dirf nblk) := by
  unfold makeLinkBlock Fs.makeLinkBlock
  refine agrees_nextBlock.bind fun bno => (agrees_saveBlockLink _ _ _).bind fun _ => ?_
  exact .update (fun _ => sizeAt dirf) (fun d => d.data.word (sizeAt dirf) + BLOCK_SIZE) fun _ =>
    agrees_pure bno

theorem agrees_createFile (dirf : Nat) : Agrees (createFile dirf) (Fs.createFile dirf) := by
  unfold createFile Fs.createFile
  refine agrees_get.bind fun d => ?_
  simp only
  cases (List.range (d.data.word (sizeAt dirf) / BLOCK_SIZE)).findSome? fun i =>
      d.unusedFile (diskAddr (d.linked dirf i)) with
  | some f => exact agrees_pure f
  | none => exact (agrees_makeLinkBlock _ _).bind fun bno => agrees_pure (diskAddr bno)

theorem agrees_writeBlocks (target : Nat) (contents : List UInt8) (n iblk : Nat) :
    Agrees (writeBlocks target contents n iblk) (Fs.writeBlocks target contents n iblk) := by
  induction n generalizing iblk with
  | zero => exact agrees_pure ()
  | succ n ih =>
    unfold writeBlocks Fs.writeBlocks
    refine .fill (fun d => diskAddr d.nextbno) _ fun _ => ?_
    exact agrees_nextBlock.bind fun bno => (agrees_saveBlockLink target iblk bno).bind fun _ => ih _

theorem agrees_writeFile (dirf : Nat) (name : HostName) (contents : List UInt8) :
    Agrees (writeFile dirf name contents) (Fs.writeFile dirf name.chars contents) := by
  have hname : ∀ f, Agrees (strcpyName f name.chars) (modify (·.setList f (name.chars ++ [0]))) := by
    intro f
    unfold strcpyName
    split
    · exact agrees_put _ _
    · exact agrees_throw _ _
  unfold writeFile Fs.writeFile
  refine (agrees_createFile _).bind fun f => (hname f).bind fun _ => ?_
  refine (agrees_putWord _ _).bind fun _ => (agrees_putWord _ _).bind fun _ => ?_
  exact agrees_writeBlocks _ _ _ _

theorem agrees_nameDirectory (pdir : Nat) (name : HostName) :
    Agrees (nameDirectory pdir name) (Fs.nameDirectory pdir name.chars) := by
  unfold nameDirectory Fs.nameDirectory
  refine (agrees_put _ _).bind fun _ => agrees_get.bind fun d => ?_
  exact .ite (fun _ => agrees_throw _ _) fun _ => agrees_putWord _ _

mutual

theorem agrees_writeInput (dirf : Nat) :
    ∀ e : Input, Agrees (writeInput dirf e) (writeHost dirf e.host)
  | .file name contents => by
    rw [writeInput, Input.host, writeHost]
    exact agrees_writeFile _ _ _
  | .dir name entries => by
    rw [writeInput, Input.host, writeHost]
    refine (agrees_createFile _).bind fun pdir => (agrees_nameDirectory _ _).bind fun _ => ?_
    exact agrees_writeEntries pdir entries

theorem agrees_writeEntries (pdir : Nat) :
    ∀ es : List Input, Agrees (writeEntries pdir es) (Fs.writeEntries pdir (hosts es))
  | [] => by
    rw [writeEntries, hosts, Fs.writeEntries]
    exact agrees_pure ()
  | e :: es => by
    rw [writeEntries, hosts, Fs.writeEntries]
    exact (agrees_writeInput pdir e).bind fun _ => agrees_writeEntries pdir es

end

theorem agrees_flushBitmap (n : Nat) : Agrees (flushBitmap n)
    (modify fun d => { d with data := Fs.flushBitmap d.data n }) := by
  induction n with
  | zero => exact agrees_pure ()
  | succ n ih =>
    have hword := agrees_update (fun _ => diskAddr 2 + 4 * (n / 32)) fun d =>
      d.data.word (diskAddr 2 + 4 * (n / 32)) &&& (2 ^ 32 - 1 - 1 <<< (n % 32))
    intro d a d' h
    unfold flushBitmap at h
    exact (ih.bind fun _ => hword) d a d' h

/-- The image that is made within the bounds is the one that the server is started with. -/
theorem fsformat_image {args : List Input} {d : Image} (h : fsformat args initDisk = .ok () d) :
    Fs.fsformat (hosts args) = some d := by
  unfold fsformat at h
  change EStateM.bind (writeEntries rootAt args) _ initDisk = _ at h
  unfold EStateM.bind at h
  cases hx : writeEntries rootAt args initDisk with
  | ok u d₁ =>
    rw [hx] at h
    have hflush := agrees_flushBitmap d₁.nextbno d₁ () d h
    unfold Fs.fsformat
    rw [agrees_writeEntries rootAt args initDisk u d₁ hx]
    exact congrArg (Option.map Prod.snd) hflush
  | error e d₁ =>
    rw [hx] at h
    cases h

/-! ## What the inputs need -/

/-- The blocks of a file with `m` links. -/
def withIndex (m : Nat) : Nat := if m > NDIRECT then m + 1 else m

/-- The blocks of the links of a directory with `k` files. -/
def dirBlocks (k : Nat) : Nat := withIndex ((k + (FILE2BLK - 1)) / FILE2BLK)

mutual

/-- The blocks that the input takes itself. -/
def Input.blocks : Input → Nat
  | .file _ contents => withIndex (blocksOf contents.length)
  | .dir _ entries => dirBlocks entries.length + sumBlocks entries

def sumBlocks : List Input → Nat
  | [] => 0
  | e :: es => e.blocks + sumBlocks es

end

mutual

/-- Every name fits an `f_name` with its zero. -/
def Input.Named : Input → Prop
  | .file name _ => name.chars.length < MAXNAMELEN
  | .dir name entries => name.chars.length < MAXNAMELEN ∧ AllNamed entries

def AllNamed : List Input → Prop
  | [] => True
  | e :: es => e.Named ∧ AllNamed es

end

/-- The inputs fit: the boot block, the super block, the bitmap, and the blocks of all files are on the
disk, and the names are short enough. -/
def Fit (args : List Input) : Prop := 3 + dirBlocks args.length + sumBlocks args ≤ NBLOCK ∧ AllNamed args

/-! ## Stores -/

section

variable {Q : Unit → Image → Prop} {E : Halt → Image → Prop} {d : Image}

theorem inDisk_iff {a n : Nat} : inDisk a n = true ↔ diskAddr 0 ≤ a ∧ a + n ≤ diskAddr NBLOCK :=
  decide_eq_true_iff

theorem wp_put {a : Nat} {l : List UInt8} (h : inDisk a l.length = true) :
    wp (put a l) Q E d ↔ Q () (d.setList a l) := by
  unfold put
  rw [if_pos h, Lib.wp_modify]

theorem wp_putWord {a v : Nat} (h : inDisk a 4 = true) :
    wp (putWord a v) Q E d ↔ Q () (d.setWord a v) := by
  unfold putWord
  rw [if_pos h, Lib.wp_modify]

theorem wp_nextBlock {Q : Nat → Image → Prop} :
    wp nextBlock Q E d ↔ (d.nextbno < NBLOCK → Q d.nextbno { d with nextbno := d.nextbno + 1 }) ∧
      (¬ d.nextbno < NBLOCK → E .overrun d) := by
  unfold nextBlock
  rw [Lib.wp_bind, Lib.wp_get, wp_ite, Lib.wp_bind, Lib.wp_set, Lib.wp_pure, Lib.wp_throw]

end

/-- Behind the blocks that are used the disk is zero. -/
structure Fresh (d : Image) : Prop where
  zero : ∀ a, diskAddr d.nextbno ≤ a → d.data a = 0
  low : 3 ≤ d.nextbno
  high : d.nextbno ≤ NBLOCK

/-- The run has ended with a store outside of an array, and `P` is why. -/
def Fails (P : Prop) : Halt → Image → Prop := fun e _ => e = .overrun ∧ P

/-- `d` and `d'` agree outside of `S`. -/
def Same (S : Nat → Prop) (d d' : Image) : Prop := ∀ a, ¬ S a → d'.data a = d.data a

theorem Same.trans {S : Nat → Prop} {d d' d'' : Image} (h : Same S d d') (h' : Same S d' d'') :
    Same S d d'' := fun a ha => (h' a ha).trans (h a ha)

theorem Same.mono {S S' : Nat → Prop} {d d' : Image} (h : Same S d d') (hS : ∀ a, S a → S' a) :
    Same S' d d' := fun a ha => h a fun hs => ha (hS a hs)

theorem same_setWord (d : Image) (a v : Nat) : Same (fun i => a ≤ i ∧ i < a + 4) d (d.setWord a v) :=
  fun i hi => Bytes.setWord_of_ne (by omega)

theorem same_setList (d : Image) (a : Nat) (l : List UInt8) :
    Same (fun i => a ≤ i ∧ i < a + l.length) d (d.setList a l) := fun i hi => Bytes.setList_of_ne (by omega)

theorem Same.word {S : Nat → Prop} {d d' : Image} (h : Same S d d') {a : Nat}
    (ha : ∀ i, a ≤ i → i < a + 4 → ¬ S i) : d'.data.word a = d.data.word a :=
  Bytes.word_congr fun i h1 h2 => h i (ha i h1 h2)

/-! ## Links -/

theorem addr_eq (b : Nat) : diskAddr b = 0x10000000 + b * 4096 := rfl

theorem nblock_eq : NBLOCK = 1024 := rfl

/-- `f` has `m` links. It was made when the blocks from `n` on were not used. -/
structure Links (d : Image) (f n m : Nat) : Prop where
  low : diskAddr 0 ≤ f
  below : f + FILE_STRUCT_SIZE ≤ diskAddr n
  le : n ≤ d.nextbno
  noIndex : m ≤ NDIRECT → d.data.word (indirectAt f) = 0
  index : NDIRECT < m → n ≤ d.data.word (indirectAt f) ∧ d.data.word (indirectAt f) < d.nextbno

/-- The blocks that the link number `m` takes. -/
def indexCost (m : Nat) : Nat := if m = NDIRECT then 1 else 0

/-- Where the links of `f` are, and the bytes of its index block. -/
def LinkArea (d : Image) (f a : Nat) : Prop :=
  f + 136 ≤ a ∧ a < f + 180 ∨
    d.data.word (indirectAt f) ≠ 0 ∧ diskAddr (d.data.word (indirectAt f)) ≤ a ∧
      a < diskAddr (d.data.word (indirectAt f) + 1)

/-- The link number `m` of `f` is `bno`. -/
structure Linked (d d' : Image) (f n m bno : Nat) : Prop where
  links : Links d' f n (m + 1)
  fresh : Fresh d'
  grows : d.nextbno ≤ d'.nextbno ∧ d'.nextbno ≤ d.nextbno + indexCost m
  linked : d'.linked f m = bno
  same : Same (LinkArea d' f) d d'
  others : ∀ i < m, d'.linked f i = d.linked f i
  index : d'.data.word (indirectAt f) = 0 ∨ d'.data.word (indirectAt f) = d.nextbno ∨
    d'.data.word (indirectAt f) = d.data.word (indirectAt f)

theorem Fresh.same {S : Nat → Prop} {d d' : Image} (h : Fresh d) (hs : Same S d d')
    (hn : d'.nextbno = d.nextbno) (hS : ∀ a, S a → a < diskAddr d.nextbno) : Fresh d' where
  zero a ha := by
    rw [hn] at ha
    rw [hs a fun hsa => absurd (hS a hsa) (Nat.not_lt_of_le ha)]
    exact h.zero a ha
  low := hn ▸ h.low
  high := hn ▸ h.high

theorem Fresh.next {d : Image} (h : Fresh d) (hlt : d.nextbno < NBLOCK) :
    Fresh { d with nextbno := d.nextbno + 1 } where
  zero a ha := by
    have hnext : diskAddr (d.nextbno + 1) ≤ a := ha
    have h1 := addr_eq (d.nextbno + 1)
    have h2 := addr_eq d.nextbno
    exact h.zero a (by omega)
  low := Nat.le_succ_of_le h.low
  high := hlt

/-- The link is in the `struct File`. -/
theorem linked_direct {d : Image} {f n m bno : Nat} (hd : Fresh d) (hl : Links d f n m) (hm : m < NDIRECT)
    (hb : bno < NBLOCK) : Linked d (d.setWord (directAt f m) bno) f n m bno := by
  have hlow := hl.below
  have hle := hl.le
  have hten : NDIRECT = 10 := rfl
  have hsize : FILE_STRUCT_SIZE = 256 := rfl
  have hdir : directAt f m = f + 136 + 4 * m := rfl
  have hind : indirectAt f = f + 176 := rfl
  have hword : (d.setWord (directAt f m) bno).data.word (indirectAt f) = d.data.word (indirectAt f) :=
    Bytes.word_setWord_of_ne _ (by omega)
  have hsame : Same (fun i => directAt f m ≤ i ∧ i < directAt f m + 4) d (d.setWord (directAt f m) bno) :=
    same_setWord d _ _
  have hzero := hl.noIndex (Nat.le_of_lt hm)
  refine ⟨⟨hl.low, hl.below, hl.le, fun _ => hword.trans hzero, fun h => absurd h (by omega)⟩, ?_,
    ⟨Nat.le_refl _, Nat.le_add_right ..⟩, ?_, ?_, ?_, Or.inl (hword.trans hzero)⟩
  · refine hd.same hsame rfl fun a ha => ?_
    rw [addr_eq] at *
    omega
  · unfold Image.linked
    rw [if_pos hm]
    have h := Bytes.word_setWord_self d.data (directAt f m) bno
    rw [Nat.mod_eq_of_lt (Nat.lt_trans hb (by decide))] at h
    exact h
  · exact hsame.mono fun a ha => Or.inl (by omega)
  · intro i hi
    have hi' : directAt f i = f + 136 + 4 * i := rfl
    unfold Image.linked
    rw [if_pos (by omega), if_pos (by omega)]
    exact Bytes.word_setWord_of_ne _ (by omega)

/-- The link is in the index block. -/
theorem linked_entry {d d₁ : Image} {f n m bno : Nat} (hl : Links d f n m) (h₁ : Fresh d₁)
    (hm : NDIRECT ≤ m) (hlt : m < NINDIRECT) (hb : bno < NBLOCK)
    (hsame : Same (fun a => f + 176 ≤ a ∧ a < f + 180) d d₁)
    (hgrows : d.nextbno ≤ d₁.nextbno ∧ d₁.nextbno ≤ d.nextbno + indexCost m)
    (hothers : ∀ i < m, d₁.linked f i = d.linked f i)
    (hidx : n ≤ d₁.data.word (indirectAt f) ∧ d₁.data.word (indirectAt f) < d₁.nextbno)
    (hwhich : d₁.data.word (indirectAt f) = d.nextbno ∨
      d₁.data.word (indirectAt f) = d.data.word (indirectAt f)) :
    Linked d (d₁.setWord (diskAddr (d₁.data.word (indirectAt f)) + 4 * m) bno) f n m bno := by
  have hbelow := hl.below
  have hle := hl.le
  have hlow := hl.low
  have hten : NDIRECT = 10 := rfl
  have hentries : NINDIRECT = 1024 := rfl
  have hsize : FILE_STRUCT_SIZE = 256 := rfl
  have hind : indirectAt f = f + 176 := rfl
  generalize hx : d₁.data.word (indirectAt f) = idx at *
  have haddr₀ := addr_eq 0
  have haddr := addr_eq n
  have haddr₁ := addr_eq idx
  have haddr₂ := addr_eq (idx + 1)
  have haddr₃ := addr_eq d₁.nextbno
  have hword : (d₁.setWord (diskAddr idx + 4 * m) bno).data.word (indirectAt f) = idx := by
    refine (Bytes.word_setWord_of_ne _ (Or.inl ?_)).trans hx
    omega
  have hstore := same_setWord d₁ (diskAddr idx + 4 * m) bno
  have hlinked : ∀ i, i < NINDIRECT → (d₁.setWord (diskAddr idx + 4 * m) bno).linked f i =
      if i = m then bno else d₁.linked f i := by
    intro i hi
    unfold Image.linked
    by_cases hdirect : i < NDIRECT
    · have hdir : directAt f i = f + 136 + 4 * i := rfl
      rw [if_pos hdirect, if_pos hdirect, if_neg (by omega)]
      exact Bytes.word_setWord_of_ne _ (Or.inl (by omega))
    · rw [if_neg hdirect, if_neg hdirect, hword, hx]
      split
      · rename_i heq
        rw [heq]
        have h := Bytes.word_setWord_self d₁.data (diskAddr idx + 4 * m) bno
        rw [Nat.mod_eq_of_lt (Nat.lt_trans hb (by decide))] at h
        exact h
      · rename_i hne
        have hapart : diskAddr idx + 4 * i + 4 ≤ diskAddr idx + 4 * m ∨
            diskAddr idx + 4 * m + 4 ≤ diskAddr idx + 4 * i := by omega
        exact Bytes.word_setWord_of_ne _ hapart
  refine ⟨⟨hl.low, hl.below, Nat.le_trans hl.le hgrows.1, fun h => absurd h (by omega), fun _ => ?_⟩, ?_,
    hgrows, ?_, ?_, ?_, ?_⟩
  · rw [hword]
    exact hidx
  · refine h₁.same hstore rfl fun a ha => ?_
    omega
  · rw [hlinked m hlt, if_pos rfl]
  · refine Same.trans (hsame.mono fun a ha => Or.inl (by omega)) (hstore.mono fun a ha => Or.inr ?_)
    rw [hword]
    exact ⟨by omega, by omega, by omega⟩
  · intro i hi
    rw [hlinked i (by omega), if_neg (by omega), hothers i hi]
  · rw [hword]
    exact Or.inr hwhich

theorem inDisk_seat {f n k : Nat} (hlow : diskAddr 0 ≤ f) (hbelow : f + FILE_STRUCT_SIZE ≤ diskAddr n)
    (hn : n ≤ NBLOCK) {a : Nat} (hf : f ≤ a) (ha : a + k ≤ f + FILE_STRUCT_SIZE) : inDisk a k = true := by
  rw [inDisk_iff]
  rw [addr_eq] at *
  rw [addr_eq]
  omega

theorem saveBlockLink_spec {d : Image} {f n m bno : Nat} (hd : Fresh d) (hl : Links d f n m)
    (hlt : m < NINDIRECT) (hb : bno < NBLOCK) :
    wp (saveBlockLink f m bno) (fun _ d' => Linked d d' f n m bno)
      (Fails (NBLOCK < d.nextbno + indexCost m)) d := by
  have hhigh := hd.high
  have hle := hl.le
  have hsize : FILE_STRUCT_SIZE = 256 := rfl
  have hten : NDIRECT = 10 := rfl
  have hentries : NINDIRECT = 1024 := rfl
  have hind : indirectAt f = f + 176 := rfl
  unfold saveBlockLink
  rw [if_neg (Nat.not_le_of_lt hlt)]
  refine (wp_ite _ _).mpr ⟨fun hm => ?_, fun hm => ?_⟩
  · have hdir : directAt f m = f + 136 + 4 * m := rfl
    rw [wp_putWord (inDisk_seat hl.low hl.below (by omega) (by omega) (by omega))]
    exact linked_direct hd hl hm hb
  · have hentry : ∀ {idx}, idx < NBLOCK → inDisk (diskAddr idx + 4 * m) 4 = true := by
      intro idx hidx
      rw [inDisk_iff, addr_eq, addr_eq, addr_eq]
      omega
    rw [Lib.wp_bind]
    unfold indexBlock
    rw [Lib.wp_bind, Lib.wp_get]
    by_cases hzero : d.data.word (indirectAt f) = 0
    · have hten' : m = NDIRECT := by
        by_contra hne
        have hidx := hl.index (by omega)
        have hbelow := hl.below
        have hlow := hl.low
        rw [addr_eq] at hbelow hlow
        omega
      rw [if_pos hzero, Lib.wp_bind, wp_nextBlock]
      have hcost : indexCost m = 1 := by
        unfold indexCost
        rw [if_pos hten']
      refine ⟨fun hroom => ?_, fun hroom => ⟨rfl, by omega⟩⟩
      rw [wp_putWord (inDisk_seat hl.low hl.below (by omega) (by omega) (by omega))]
      have hword : (({ d with nextbno := d.nextbno + 1 } : Image).setWord (indirectAt f)
          d.nextbno).data.word (indirectAt f) = d.nextbno := by
        have h := Bytes.word_setWord_self d.data (indirectAt f) d.nextbno
        rwa [Nat.mod_eq_of_lt (Nat.lt_trans hroom (by decide))] at h
      have hsame : Same (fun a => f + 176 ≤ a ∧ a < f + 180) d
          (({ d with nextbno := d.nextbno + 1 } : Image).setWord (indirectAt f) d.nextbno) := by
        have h : Same (fun a => indirectAt f ≤ a ∧ a < indirectAt f + 4) d
          (({ d with nextbno := d.nextbno + 1 } : Image).setWord (indirectAt f) d.nextbno) :=
          same_setWord ({ d with nextbno := d.nextbno + 1 } : Image) _ _
        exact h.mono fun a ha => by omega
      rw [Lib.wp_bind, Lib.wp_get, wp_putWord (hentry (by rw [hword]; exact hroom))]
      refine linked_entry hl ?_ (by omega) hlt hb hsame ⟨Nat.le_succ _, ?_⟩ (fun i hi => ?_) ?_
        (Or.inl hword)
      · refine (hd.next hroom).same (same_setWord _ _ _) rfl fun a ha => ?_
        have hnext : ({ d with nextbno := d.nextbno + 1 } : Image).nextbno = d.nextbno + 1 := rfl
        have hbelow := hl.below
        rw [hnext, addr_eq]
        rw [addr_eq] at hbelow
        omega
      · rw [hcost]
        exact Nat.le_refl _
      · have hdir : directAt f i = f + 136 + 4 * i := rfl
        unfold Image.linked
        rw [if_pos (by omega), if_pos (by omega)]
        exact hsame.word fun a _ _ => by omega
      · rw [hword]
        exact ⟨hle, Nat.lt_succ_self _⟩
    · have hten' : NDIRECT < m := by
        by_contra hne
        exact hzero (hl.noIndex (by omega))
      have hidx := hl.index hten'
      rw [if_neg hzero, Lib.wp_pure, Lib.wp_bind, Lib.wp_get, wp_putWord (hentry (by omega))]
      exact linked_entry hl hd (by omega) hlt hb (fun _ _ => rfl) ⟨Nat.le_refl _, Nat.le_add_right ..⟩
        (fun _ _ => rfl) hidx (Or.inr rfl)

/-! ## Files -/

/-- What belongs to the file `f`, except its name. It was made when the blocks from `n` on were not
used. -/
def Owns (f n a : Nat) : Prop := f + 128 ≤ a ∧ a < f + FILE_STRUCT_SIZE ∨ diskAddr n ≤ a

/-- A part of the run takes at most `cost` blocks, and it stores in `S` only. -/
structure Took (S : Nat → Prop) (cost : Nat) (d d' : Image) : Prop where
  fresh : Fresh d'
  grows : d.nextbno ≤ d'.nextbno
  le : d'.nextbno ≤ d.nextbno + cost
  same : Same S d d'

theorem Took.trans {S : Nat → Prop} {c c' : Nat} {d d' d'' : Image} (h : Took S c d d')
    (h' : Took S c' d' d'') : Took S (c + c') d d'' where
  fresh := h'.fresh
  grows := Nat.le_trans h.grows h'.grows
  le := by
    have h1 := h.le
    have h2 := h'.le
    omega
  same := h.same.trans h'.same

theorem Took.mono {S S' : Nat → Prop} {c c' : Nat} {d d' : Image} (h : Took S c d d')
    (hS : ∀ a, S a → S' a) (hc : c ≤ c') : Took S' c' d d' where
  fresh := h.fresh
  grows := h.grows
  le := Nat.le_trans h.le (Nat.add_le_add_left hc _)
  same := h.same.mono hS

theorem LinkArea.owns {d : Image} {f n m : Nat} (h : Links d f n m) {a : Nat} (ha : LinkArea d f a) :
    Owns f n a := by
  have hsize : FILE_STRUCT_SIZE = 256 := rfl
  unfold Owns
  rcases ha with ha | ⟨hne, ha, -⟩
  · exact Or.inl (by omega)
  · have hidx := h.index (Nat.lt_of_not_le fun hm => hne (h.noIndex hm))
    have h1 := addr_eq n
    have h2 := addr_eq (d.data.word (indirectAt f))
    exact Or.inr (by omega)

/-- The blocks that `k` links from number `m` on take with their index block. -/
def linksCost (m k : Nat) : Nat := if m ≤ NDIRECT ∧ NDIRECT < m + k then k + 1 else k

theorem linksCost_succ (m k : Nat) : linksCost m (k + 1) = 1 + indexCost m + linksCost (m + 1) k := by
  unfold linksCost indexCost
  split <;> split <;> split <;> omega

theorem linksCost_zero (k : Nat) : linksCost 0 k = withIndex k := by
  unfold linksCost withIndex
  split <;> split <;> omega

theorem fresh_read {d : Image} (hd : Fresh d) (hroom : d.nextbno < NBLOCK) {l : List UInt8}
    (hl : l.length ≤ BLOCK_SIZE) :
    Fresh { d.setList (diskAddr d.nextbno) l with nextbno := d.nextbno + 1 } where
  zero a ha := by
    have hnext : diskAddr (d.nextbno + 1) ≤ a := ha
    have h1 := addr_eq (d.nextbno + 1)
    have h2 := addr_eq d.nextbno
    have hsize : BLOCK_SIZE = 4096 := rfl
    have hne : d.data.setList (diskAddr d.nextbno) l a = d.data a :=
      Bytes.setList_of_ne (Or.inr (by omega))
    exact hne.trans (hd.zero a (by omega))
  low := Nat.le_succ_of_le hd.low
  high := hroom

theorem writeBlocks_spec (contents : List UInt8) (k : Nat) {d : Image} {f n m : Nat} (hd : Fresh d)
    (hl : Links d f n m) (hcount : n + m ≤ d.nextbno) :
    wp (writeBlocks f contents k m) (fun _ => Took (Owns f n) (linksCost m k) d)
      (Fails (NBLOCK < d.nextbno + linksCost m k)) d := by
  induction k generalizing d m with
  | zero =>
    unfold writeBlocks
    rw [Lib.wp_pure]
    exact ⟨hd, Nat.le_refl _, Nat.le_add_right .., fun _ _ => rfl⟩
  | succ k ih =>
    rw [linksCost_succ]
    unfold writeBlocks
    rw [Lib.wp_bind, Lib.wp_get]
    have hchunk : ((contents.drop (m * BLOCK_SIZE)).take BLOCK_SIZE).length ≤ BLOCK_SIZE :=
      List.length_take_le ..
    generalize (contents.drop (m * BLOCK_SIZE)).take BLOCK_SIZE = l at hchunk
    rw [Lib.wp_bind]
    by_cases hroom : d.nextbno < NBLOCK
    · have hsize : BLOCK_SIZE = 4096 := rfl
      have hblock : inDisk (diskAddr d.nextbno) l.length = true := by
        rw [inDisk_iff, addr_eq, addr_eq, addr_eq]
        omega
      rw [wp_put hblock, Lib.wp_bind, wp_nextBlock]
      refine ⟨fun _ => ?_, fun h => absurd hroom h⟩
      have hbelow := hl.below
      have hle := hl.le
      have haddr := addr_eq n
      have haddr₁ := addr_eq d.nextbno
      have hind : indirectAt f = f + 176 := rfl
      have hfile : FILE_STRUCT_SIZE = 256 := rfl
      have hread : Same (fun a => diskAddr n ≤ a) d
          { d.setList (diskAddr d.nextbno) l with nextbno := d.nextbno + 1 } := by
        have h : Same (fun a => diskAddr d.nextbno ≤ a ∧ a < diskAddr d.nextbno + l.length) d
          { d.setList (diskAddr d.nextbno) l with nextbno := d.nextbno + 1 } := same_setList d _ l
        exact h.mono fun a ha => by omega
      have hword := hread.word (a := indirectAt f) fun a _ _ => by omega
      have hlinks : Links { d.setList (diskAddr d.nextbno) l with nextbno := d.nextbno + 1 } f n m := by
        refine ⟨hl.low, hl.below, Nat.le_succ_of_le hl.le, fun hm => hword.trans (hl.noIndex hm), fun hm => ?_⟩
        rw [hword]
        exact ⟨(hl.index hm).1, Nat.lt_succ_of_lt (hl.index hm).2⟩
      have hlow := hl.low
      have haddr₂ := addr_eq 0
      have hentries : NINDIRECT = 1024 := rfl
      have hnblock := nblock_eq
      rw [Lib.wp_bind]
      refine wp_mono (saveBlockLink_spec (fresh_read hd hroom hchunk) hlinks (by omega) hroom)
        (fun _ d₁ h₁ => ?_) fun e _ he => ⟨he.1, ?_⟩
      · have hgrow : d.nextbno + 1 ≤ d₁.nextbno ∧ d₁.nextbno ≤ d.nextbno + 1 + indexCost m := h₁.grows
        have htook : Took (Owns f n) (1 + indexCost m) d d₁ := by
          refine ⟨h₁.fresh, by omega, by omega, ?_⟩
          exact Same.trans (hread.mono fun a ha => Or.inr ha) (h₁.same.mono fun a ha => ha.owns h₁.links)
        refine wp_mono (ih h₁.fresh h₁.links (by omega)) (fun _ d₂ h₂ => htook.trans h₂)
          fun e _ he => ⟨he.1, ?_⟩
        have := he.2
        omega
      · have hover : NBLOCK < d.nextbno + 1 + indexCost m := he.2
        omega
    · have hover : Fails (NBLOCK < d.nextbno + (1 + indexCost m + linksCost (m + 1) k)) .overrun d :=
        ⟨rfl, by omega⟩
      unfold put
      refine (wp_ite _ _).mpr ⟨fun _ => ?_, fun _ => ?_⟩
      · rw [Lib.wp_modify, Lib.wp_bind, wp_nextBlock]
        exact ⟨fun h => absurd h hroom, fun _ => hover⟩
      · rw [Lib.wp_throw]
        exact hover

/-! ## Directories -/

/-- The `struct File` number `s` in the blocks `bs`. -/
def slotAt (bs : List Nat) (s : Nat) : Nat := fileAt (diskAddr (bs.getD (s / FILE2BLK) 0)) (s % FILE2BLK)

/-- The directory `f` has `k` files, one behind the other in the blocks `bs`. -/
structure Dir (d : Image) (f n k : Nat) (bs : List Nat) : Prop where
  links : Links d f n bs.length
  count : n + bs.length ≤ d.nextbno
  size : d.data.word (sizeAt f) = bs.length * BLOCK_SIZE
  linked : ∀ i < bs.length, d.linked f i = bs.getD i 0
  range : ∀ b ∈ bs, n ≤ b ∧ b < d.nextbno
  nodup : bs.Nodup
  apart : d.data.word (indirectAt f) ∉ bs
  used : ∀ s < k, d.data (slotAt bs s) ≠ 0
  unused : ∀ s, k ≤ s → s < FILE2BLK * bs.length → ∀ j < FILE_STRUCT_SIZE, d.data (slotAt bs s + j) = 0

theorem file2blk_eq : FILE2BLK = 16 := rfl

theorem file_size_eq : FILE_STRUCT_SIZE = 256 := rfl

theorem slotAt_eq (bs : List Nat) (s : Nat) :
    slotAt bs s = diskAddr (bs.getD (s / 16) 0) + 256 * (s % 16) := rfl

theorem getD_mem {bs : List Nat} {i : Nat} (h : i < bs.length) : bs.getD i 0 ∈ bs := by
  rw [List.getD_eq_getElem _ _ h]
  exact List.getElem_mem h

theorem slot_block {bs : List Nat} {s : Nat} (h : s < FILE2BLK * bs.length) :
    bs.getD (s / 16) 0 ∈ bs ∧ diskAddr (bs.getD (s / 16) 0) ≤ slotAt bs s ∧
      slotAt bs s + 256 ≤ diskAddr (bs.getD (s / 16) 0 + 1) := by
  have hlen : s / 16 < bs.length := by
    rw [file2blk_eq] at h
    omega
  have h1 := addr_eq (bs.getD (s / 16) 0)
  have h2 := addr_eq (bs.getD (s / 16) 0 + 1)
  have h3 := slotAt_eq bs s
  exact ⟨getD_mem hlen, by omega, by omega⟩

theorem slot_apart {bs : List Nat} (hn : bs.Nodup) {s s' : Nat} (hs : s < FILE2BLK * bs.length)
    (hs' : s' < FILE2BLK * bs.length) (hne : s ≠ s') :
    slotAt bs s + 256 ≤ slotAt bs s' ∨ slotAt bs s' + 256 ≤ slotAt bs s := by
  rw [file2blk_eq] at hs hs'
  have h1 := slotAt_eq bs s
  have h2 := slotAt_eq bs s'
  by_cases hdiv : s / 16 = s' / 16
  · rw [hdiv] at h1
    omega
  · have hblock : bs.getD (s / 16) 0 ≠ bs.getD (s' / 16) 0 := by
      rw [List.getD_eq_getElem _ _ (by omega : s / 16 < bs.length),
        List.getD_eq_getElem _ _ (by omega : s' / 16 < bs.length)]
      exact fun heq => hdiv ((hn.getElem_inj_iff).mp heq)
    have h3 := addr_eq (bs.getD (s / 16) 0)
    have h4 := addr_eq (bs.getD (s' / 16) 0)
    omega

theorem slotAt_append {bs : List Nat} {b s : Nat} (h : s < FILE2BLK * bs.length) :
    slotAt (bs ++ [b]) s = slotAt bs s := by
  have hlen : s / 16 < bs.length := by
    rw [file2blk_eq] at h
    omega
  rw [slotAt_eq, slotAt_eq, List.getD_append _ _ _ _ hlen]

theorem findSome_first {α : Type} {g : Nat → Option α} {n i : Nat} {a : α} (hi : i < n)
    (hnone : ∀ j < i, g j = none) (ha : g i = some a) : (List.range n).findSome? g = some a := by
  induction n with
  | zero => exact absurd hi (Nat.not_lt_zero i)
  | succ n ih =>
    rw [List.range_succ, List.findSome?_append]
    rcases Nat.lt_succ_iff_lt_or_eq.mp hi with hlt | rfl
    · rw [ih hlt]
      rfl
    · have hpre : (List.range i).findSome? g = none :=
        List.findSome?_eq_none_iff.mpr fun j hj => hnone j (List.mem_range.mp hj)
      rw [hpre, List.findSome?_singleton, ha]
      rfl

/-- The search of `create_file`. -/
theorem search_dir {d : Image} {f n k : Nat} {bs : List Nat} (h : Dir d f n k bs)
    (hk : k ≤ FILE2BLK * bs.length) :
    ((List.range bs.length).findSome? fun i => d.unusedFile (diskAddr (d.linked f i))) =
      if k < FILE2BLK * bs.length then some (slotAt bs k) else none := by
  rw [file2blk_eq] at hk ⊢
  have hfull : ∀ i, i < bs.length → 16 * (i + 1) ≤ k → d.unusedFile (diskAddr (d.linked f i)) = none := by
    intro i hi hle
    unfold Image.unusedFile
    rw [Option.map_eq_none_iff, List.find?_range_eq_none]
    intro j hj
    rw [file2blk_eq] at hj
    have hslot : fileAt (diskAddr (d.linked f i)) j = slotAt bs (16 * i + j) := by
      rw [h.linked i hi, slotAt_eq, show (16 * i + j) / 16 = i by omega, show (16 * i + j) % 16 = j by omega]
      rfl
    rw [hslot]
    have hused := h.used (16 * i + j) (by omega)
    simpa using hused
  split
  · rename_i hlt
    have hdiv : k / 16 < bs.length := by omega
    refine findSome_first hdiv (fun i hi => hfull i (by omega) (by omega)) ?_
    have hslot : ∀ j < 16, fileAt (diskAddr (d.linked f (k / 16))) j = slotAt bs (16 * (k / 16) + j) := by
      intro j hj
      rw [h.linked _ hdiv, slotAt_eq, show (16 * (k / 16) + j) / 16 = k / 16 by omega,
        show (16 * (k / 16) + j) % 16 = j by omega]
      rfl
    have hfirst : (List.range FILE2BLK).find? (fun j => d.data (fileAt (diskAddr (d.linked f (k / 16))) j) == 0) =
        some (k % 16) := by
      rw [List.find?_range_eq_some]
      refine ⟨?_, List.mem_range.mpr (Nat.mod_lt _ (by decide)), fun j hj => ?_⟩
      · rw [hslot _ (Nat.mod_lt _ (by decide)), Nat.div_add_mod]
        have hzero := h.unused k (Nat.le_refl _) (by rwa [file2blk_eq]) 0 (by decide)
        simpa using hzero
      · rw [hslot j (by omega)]
        have hused := h.used (16 * (k / 16) + j) (by omega)
        simpa using hused
    unfold Image.unusedFile
    rw [hfirst, Option.map_some, hslot _ (Nat.mod_lt _ (by decide)), Nat.div_add_mod]
  · rw [List.findSome?_eq_none_iff]
    exact fun i hi => hfull i (List.mem_range.mp hi) (by have := List.mem_range.mp hi; omega)

theorem not_linkArea {d : Image} {f n m b a : Nat} (h : Links d f n m) (hb : n ≤ b)
    (hne : b ≠ d.data.word (indirectAt f)) (ha : diskAddr b ≤ a) (ha' : a < diskAddr (b + 1)) :
    ¬ LinkArea d f a := by
  have hbelow := h.below
  have h1 := addr_eq n
  have h2 := addr_eq b
  have h3 := addr_eq (b + 1)
  have hsize := file_size_eq
  rintro (harea | ⟨-, hlo, hhi⟩)
  · omega
  · have h4 := addr_eq (d.data.word (indirectAt f))
    have h5 := addr_eq (d.data.word (indirectAt f) + 1)
    omega

/-- A link of `f` is read in its `struct File` or in its index block. -/
theorem linked_congr {S : Nat → Prop} {d d' : Image} {f m i : Nat} (hs : Same S d d') (hi : i < m)
    (hm : m ≤ NINDIRECT) (hseat : ∀ a, f + 136 ≤ a → a < f + 180 → ¬ S a)
    (hindex : NDIRECT < m → ∀ a, diskAddr (d.data.word (indirectAt f)) ≤ a →
      a < diskAddr (d.data.word (indirectAt f) + 1) → ¬ S a) : d'.linked f i = d.linked f i := by
  have hdir : directAt f i = f + 136 + 4 * i := rfl
  have hind : indirectAt f = f + 176 := rfl
  have hten : NDIRECT = 10 := rfl
  have hentries : NINDIRECT = 1024 := rfl
  unfold Image.linked
  split
  · exact hs.word fun a h1 h2 => hseat a (by omega) (by omega)
  · have hword : d'.data.word (indirectAt f) = d.data.word (indirectAt f) :=
      hs.word fun a h1 h2 => hseat a (by omega) (by omega)
    have h1 := addr_eq (d.data.word (indirectAt f))
    have h2 := addr_eq (d.data.word (indirectAt f) + 1)
    rw [hword]
    exact hs.word fun a h3 h4 => hindex (by omega) a (by omega) (by omega)

/-- The blocks that a directory with `k` files takes for the next one. -/
def slotCost (k : Nat) : Nat := if k % FILE2BLK = 0 then 1 + indexCost (k / FILE2BLK) else 0

section

variable {d d₂ : Image} {f n : Nat} {bs : List Nat}

/-- The blocks of the directory and the next one are not its index block. -/
theorem Dir.not_index (h : Dir d f n (FILE2BLK * bs.length) bs)
    (h₂ : Linked { d with nextbno := d.nextbno + 1 } d₂ f n bs.length d.nextbno) {b : Nat}
    (hb : b ∈ bs ++ [d.nextbno]) : n ≤ b ∧ b ≠ d₂.data.word (indirectAt f) := by
  have hlow := h.links.low
  have hbelow := h.links.below
  have hle := h.links.le
  have haddr₀ := addr_eq 0
  have haddr := addr_eq n
  have hfile := file_size_eq
  have hwhich : d₂.data.word (indirectAt f) = 0 ∨ d₂.data.word (indirectAt f) = d.nextbno + 1 ∨
      d₂.data.word (indirectAt f) = d.data.word (indirectAt f) := h₂.index
  rcases List.mem_append.mp hb with hb | hb
  · have hrange := h.range b hb
    refine ⟨hrange.1, fun heq => ?_⟩
    rcases hwhich with hw | hw | hw
    · omega
    · omega
    · exact h.apart (by rwa [← hw, ← heq])
  · rw [List.mem_singleton.mp hb]
    refine ⟨hle, fun heq => ?_⟩
    rcases hwhich with hw | hw | hw
    · omega
    · omega
    · have hold : d.data.word (indirectAt f) = 0 ∨ d.data.word (indirectAt f) < d.nextbno := by
        rcases Nat.lt_or_ge NDIRECT bs.length with hm | hm
        · exact Or.inr (h.links.index hm).2
        · exact Or.inl (h.links.noIndex hm)
      omega

theorem Dir.block_kept (h : Dir d f n (FILE2BLK * bs.length) bs)
    (h₂ : Linked { d with nextbno := d.nextbno + 1 } d₂ f n bs.length d.nextbno) (v : Nat) {b a : Nat}
    (hb : b ∈ bs ++ [d.nextbno]) (ha : diskAddr b ≤ a) (ha' : a < diskAddr (b + 1)) :
    (d₂.setWord (sizeAt f) v).data a = d.data a := by
  have hbelow := h.links.below
  have haddr := addr_eq n
  have hfile := file_size_eq
  have hsizeAt : sizeAt f = f + 128 := rfl
  obtain ⟨hn, hne⟩ := h.not_index h₂ hb
  have haddr₁ := addr_eq b
  have hsame : Same (LinkArea d₂ f) d d₂ := h₂.same
  rw [same_setWord d₂ (sizeAt f) v a (by omega)]
  exact hsame a (not_linkArea h₂.links hn hne ha ha')

theorem Dir.slot_kept (h : Dir d f n (FILE2BLK * bs.length) bs)
    (h₂ : Linked { d with nextbno := d.nextbno + 1 } d₂ f n bs.length d.nextbno) (v : Nat) {s j : Nat}
    (hs : s < FILE2BLK * (bs ++ [d.nextbno]).length) (hj : j < 256) :
    (d₂.setWord (sizeAt f) v).data (slotAt (bs ++ [d.nextbno]) s + j) =
      d.data (slotAt (bs ++ [d.nextbno]) s + j) := by
  obtain ⟨hmem, h1, h2⟩ := slot_block hs
  exact h.block_kept h₂ v hmem (by omega) (by omega)

theorem Dir.size_kept (h : Dir d f n (FILE2BLK * bs.length) bs)
    (h₂ : Linked { d with nextbno := d.nextbno + 1 } d₂ f n bs.length d.nextbno) :
    d₂.data.word (sizeAt f) = bs.length * BLOCK_SIZE := by
  have hbelow := h.links.below
  have haddr := addr_eq n
  have hfile := file_size_eq
  have hsizeAt : sizeAt f = f + 128 := rfl
  have hsame : Same (LinkArea d₂ f) d d₂ := h₂.same
  refine (hsame.word fun a h1 h2 => ?_).trans h.size
  rintro (harea | ⟨hne, hlo, -⟩)
  · omega
  · have hidx := h₂.links.index (Nat.lt_of_not_le fun hm => hne (h₂.links.noIndex hm))
    have haddr₁ := addr_eq (d₂.data.word (indirectAt f))
    omega

/-- The blocks are linked in their order. -/
theorem Dir.linked_next (h : Dir d f n (FILE2BLK * bs.length) bs) (hroom : d.nextbno < NBLOCK)
    (h₂ : Linked { d with nextbno := d.nextbno + 1 } d₂ f n bs.length d.nextbno) (v : Nat) {i : Nat}
    (hi : i < bs.length + 1) :
    (d₂.setWord (sizeAt f) v).linked f i = (bs ++ [d.nextbno]).getD i 0 := by
  have hbelow := h.links.below
  have hcount := h.count
  have haddr := addr_eq n
  have hfile := file_size_eq
  have hnblock := nblock_eq
  have hentries : NINDIRECT = 1024 := rfl
  have hsizeAt : sizeAt f = f + 128 := rfl
  have hsz : (d₂.setWord (sizeAt f) v).linked f i = d₂.linked f i := by
    refine linked_congr (same_setWord d₂ _ _) hi (by omega) (fun a h1 h2 => by omega) fun hm a h1 _ => ?_
    have hidx := h₂.links.index hm
    have haddr₁ := addr_eq (d₂.data.word (indirectAt f))
    omega
  rw [hsz]
  rcases Nat.lt_succ_iff_lt_or_eq.mp hi with hlt | rfl
  · have hother : d₂.linked f i = d.linked f i := h₂.others i hlt
    rw [hother, h.linked i hlt, List.getD_append _ _ _ _ hlt]
  · rw [h₂.linked, List.getD_append_right _ _ _ _ (Nat.le_refl _), Nat.sub_self]
    rfl

/-- The directory has one block more. -/
theorem dir_link (hd : Fresh d) (h : Dir d f n (FILE2BLK * bs.length) bs) (hroom : d.nextbno < NBLOCK)
    (h₂ : Linked { d with nextbno := d.nextbno + 1 } d₂ f n bs.length d.nextbno) :
    Dir (d₂.setWord (sizeAt f) (d₂.data.word (sizeAt f) + BLOCK_SIZE)) f n (FILE2BLK * bs.length)
      (bs ++ [d.nextbno]) := by
  have hlen : (bs ++ [d.nextbno]).length = bs.length + 1 := List.length_append
  have hcount := h.count
  have hgrows : d.nextbno + 1 ≤ d₂.nextbno := h₂.grows.1
  have hindex : (d₂.setWord (sizeAt f) (d₂.data.word (sizeAt f) + BLOCK_SIZE)).data.word (indirectAt f) =
      d₂.data.word (indirectAt f) :=
    Bytes.word_setWord_of_ne _ (.inr (by unfold sizeAt indirectAt; omega))
  refine ⟨⟨h.links.low, h.links.below, Nat.le_trans h.links.le (Nat.le_of_succ_le hgrows), ?_, ?_⟩, ?_, ?_,
    ?_, ?_, ?_, ?_, ?_, ?_⟩
  · rw [hlen, hindex]
    exact h₂.links.noIndex
  · rw [hlen, hindex]
    exact h₂.links.index
  · rw [hlen]
    show n + (bs.length + 1) ≤ d₂.nextbno
    omega
  · have hself := Bytes.word_setWord_self d₂.data (sizeAt f) (d₂.data.word (sizeAt f) + BLOCK_SIZE)
    have hblockSize : BLOCK_SIZE = 4096 := rfl
    have hnblock := nblock_eq
    refine hself.trans ?_
    rw [h.size_kept h₂, hlen, hblockSize]
    omega
  · intro i hi
    exact h.linked_next hroom h₂ _ (hlen ▸ hi)
  · intro b hb
    refine ⟨(h.not_index h₂ hb).1, ?_⟩
    show b < d₂.nextbno
    rcases List.mem_append.mp hb with hb | hb
    · have := (h.range b hb).2
      omega
    · rw [List.mem_singleton.mp hb]
      omega
  · refine List.nodup_append.mpr ⟨h.nodup, List.nodup_singleton _, fun b hb b' hb' heq => ?_⟩
    rw [List.mem_singleton.mp hb'] at heq
    have := (h.range b hb).2
    omega
  · rw [hindex]
    exact fun hb => (h.not_index h₂ hb).2 rfl
  · -- The old slots are used.
    intro s hs
    have hs' : s < FILE2BLK * (bs ++ [d.nextbno]).length := by
      rw [hlen, file2blk_eq]
      rw [file2blk_eq] at hs
      omega
    have hsl := h.slot_kept h₂ (d₂.data.word (sizeAt f) + BLOCK_SIZE) hs' (by decide : 0 < 256)
    rw [Nat.add_zero, slotAt_append hs] at hsl
    rw [slotAt_append hs, hsl]
    exact h.used s hs
  · -- The slots of the new block are zero, as all was behind the blocks.
    intro s hs hs' j hj
    rw [h.slot_kept h₂ _ hs' hj]
    refine hd.zero _ ?_
    have hdiv : s / 16 = bs.length := by
      rw [hlen, file2blk_eq] at hs'
      rw [file2blk_eq] at hs
      omega
    rw [slotAt_eq, hdiv, List.getD_append_right _ _ _ _ (Nat.le_refl _), Nat.sub_self]
    show diskAddr d.nextbno ≤ diskAddr d.nextbno + 256 * (s % 16) + j
    omega

end

/-- The directory has a slot for the file number `k`. -/
structure Room (d : Image) (f n k : Nat) (bs : List Nat) : Prop where
  dir : Dir d f n k bs
  len : bs.length = k / FILE2BLK + 1

/-- The directory has no more blocks than its files need. -/
structure Tight (d : Image) (f n k : Nat) (bs : List Nat) : Prop where
  dir : Dir d f n k bs
  len : bs.length = (k + (FILE2BLK - 1)) / FILE2BLK

theorem createFile_spec {d : Image} {f n k : Nat} {bs : List Nat} (hd : Fresh d) (h : Tight d f n k bs) :
    wp (createFile f)
      (fun t d' => ∃ bs', Room d' f n k bs' ∧ t = slotAt bs' k ∧ Took (Owns f n) (slotCost k) d d')
      (Fails (NBLOCK < d.nextbno + slotCost k)) d := by
  have hdir := h.dir
  have hlen := h.len
  have hcount := hdir.count
  have hnblk : d.data.word (sizeAt f) / BLOCK_SIZE = bs.length := by
    rw [hdir.size]
    exact Nat.mul_div_cancel _ (by decide)
  have hk : k ≤ FILE2BLK * bs.length := by
    rw [file2blk_eq] at hlen ⊢
    omega
  unfold createFile
  simp only [Lib.wp_bind, Lib.wp_get, hnblk, search_dir hdir hk]
  by_cases hroom : k < FILE2BLK * bs.length
  · rw [if_pos hroom]
    simp only [Lib.wp_pure]
    refine ⟨bs, ⟨hdir, ?_⟩, rfl, hd, Nat.le_refl _, Nat.le_add_right .., fun _ _ => rfl⟩
    rw [file2blk_eq] at hlen hroom ⊢
    omega
  · have hfull : k = FILE2BLK * bs.length := Nat.le_antisymm hk (Nat.le_of_not_lt hroom)
    have hcost : slotCost k = 1 + indexCost bs.length := by
      unfold slotCost
      rw [hfull, Nat.mul_mod_right, if_pos rfl, Nat.mul_div_cancel_left _ (by decide)]
    have hlow := hdir.links.low
    have hbelow := hdir.links.below
    have hle := hdir.links.le
    have haddr₀ := addr_eq 0
    have haddr := addr_eq n
    have hfile := file_size_eq
    have hnblock := nblock_eq
    have hentries : NINDIRECT = 1024 := rfl
    have hsizeAt : sizeAt f = f + 128 := rfl
    rw [if_neg hroom]
    unfold makeLinkBlock
    simp only [Lib.wp_bind, Lib.wp_pure]
    rw [wp_nextBlock]
    refine ⟨fun hlt => ?_, fun hlt => ⟨rfl, by omega⟩⟩
    have hhigh := hd.high
    have hlinks : Links { d with nextbno := d.nextbno + 1 } f n bs.length :=
      ⟨hlow, hbelow, Nat.le_succ_of_le hle, hdir.links.noIndex, fun hm =>
        ⟨(hdir.links.index hm).1, Nat.lt_succ_of_lt (hdir.links.index hm).2⟩⟩
    refine wp_mono (saveBlockLink_spec (hd.next hlt) hlinks (by omega) hlt) (fun _ d₂ h₂ => ?_)
      fun e _ he => ⟨he.1, ?_⟩
    · have hgrows : d.nextbno + 1 ≤ d₂.nextbno ∧ d₂.nextbno ≤ d.nextbno + 1 + indexCost bs.length := h₂.grows
      have hhigh₂ := h₂.fresh.high
      rw [Lib.wp_get, wp_putWord (inDisk_seat hlow hbelow (by omega) (by omega) (by omega))]
      subst hfull
      have hstore := same_setWord d₂ (sizeAt f) (d₂.data.word (sizeAt f) + BLOCK_SIZE)
      refine ⟨bs ++ [d.nextbno], ⟨dir_link hd hdir hlt h₂, ?_⟩, ?_, ?_⟩
      · rw [Nat.mul_div_cancel_left _ (by decide)]
        exact List.length_append
      · rw [slotAt_eq, file2blk_eq, Nat.mul_div_cancel_left _ (by decide), Nat.mul_mod_right,
          List.getD_append_right _ _ _ _ (Nat.le_refl _), Nat.sub_self]
        rfl
      · have haddr₂ := addr_eq d₂.nextbno
        refine ⟨h₂.fresh.same hstore rfl fun a ha => by omega, ?_, ?_, ?_⟩
        · show d.nextbno ≤ d₂.nextbno
          omega
        · show d₂.nextbno ≤ d.nextbno + slotCost _
          omega
        · have hlinked : Same (Owns f n) d d₂ := h₂.same.mono fun a ha => ha.owns h₂.links
          exact hlinked.trans (hstore.mono fun a ha => Or.inl (by omega))
    · have hover : NBLOCK < d.nextbno + 1 + indexCost bs.length := he.2
      omega

/-- The area of the file number `k` of a directory, and what is not used yet. -/
def Below (t n a : Nat) : Prop := t ≤ a ∧ a < t + FILE_STRUCT_SIZE ∨ diskAddr n ≤ a

/-- The file number `k` is written, and the directory has one file more. -/
theorem Room.next {d d' : Image} {f n k : Nat} {bs : List Nat} (hd : Fresh d) (h : Room d f n k bs)
    (hs : Same (Below (slotAt bs k) d.nextbno) d d') (hgrow : d.nextbno ≤ d'.nextbno)
    (hname : d'.data (slotAt bs k) ≠ 0) : Tight d' f n (k + 1) bs := by
  have hdir := h.dir
  have hlen := h.len
  have hk : k < FILE2BLK * bs.length := by
    rw [file2blk_eq] at hlen ⊢
    omega
  obtain ⟨hmem, hslot, hslot'⟩ := slot_block hk
  have hrange := hdir.range _ hmem
  have hbelow := hdir.links.below
  have hle := hdir.links.le
  have hfile := file_size_eq
  have haddr := addr_eq n
  have haddr₁ := addr_eq d.nextbno
  have haddr₂ := addr_eq (bs.getD (k / 16) 0)
  have haddr₃ := addr_eq (bs.getD (k / 16) 0 + 1)
  have hind : indirectAt f = f + 176 := rfl
  have hsizeAt : sizeAt f = f + 128 := rfl
  have hseat : ∀ a, f ≤ a → a < f + 256 → ¬ Below (slotAt bs k) d.nextbno a := by
    rintro a h1 h2 (h3 | h3)
    · omega
    · omega
  have hindex : d'.data.word (indirectAt f) = d.data.word (indirectAt f) :=
    hs.word fun a h1 h2 => hseat a (by omega) (by omega)
  have hslots : ∀ s < FILE2BLK * bs.length, s ≠ k → ∀ j < 256,
      d'.data (slotAt bs s + j) = d.data (slotAt bs s + j) := by
    intro s hs' hne j hj
    have hapart := slot_apart hdir.nodup hs' hk hne
    obtain ⟨hmem', h1, h2⟩ := slot_block hs'
    have hrange' := hdir.range _ hmem'
    have haddr₄ := addr_eq (bs.getD (s / 16) 0 + 1)
    refine hs _ ?_
    rintro (h3 | h3)
    · omega
    · omega
  have hcount := hdir.count
  refine ⟨⟨⟨hdir.links.low, hbelow, Nat.le_trans hle hgrow, ?_, ?_⟩, Nat.le_trans hcount hgrow, ?_, ?_, ?_,
    hdir.nodup, ?_, ?_, ?_⟩, ?_⟩
  · rw [hindex]
    exact hdir.links.noIndex
  · rw [hindex]
    exact fun hm => ⟨(hdir.links.index hm).1, Nat.lt_of_lt_of_le (hdir.links.index hm).2 hgrow⟩
  · rw [← hdir.size]
    exact hs.word fun a h1 h2 => hseat a (by omega) (by omega)
  · intro i hi
    rw [← hdir.linked i hi]
    refine linked_congr hs hi ?_ (fun a h1 h2 => hseat a (by omega) (by omega)) fun hm a h1 h2 => ?_
    · have hentries : NINDIRECT = 1024 := rfl
      have hhigh := hd.high
      have hnblock := nblock_eq
      omega
    · have hidx := hdir.links.index hm
      have hne : bs.getD (k / 16) 0 ≠ d.data.word (indirectAt f) := fun heq => hdir.apart (heq ▸ hmem)
      have haddr₄ := addr_eq (d.data.word (indirectAt f))
      have haddr₅ := addr_eq (d.data.word (indirectAt f) + 1)
      rintro (h3 | h3)
      · omega
      · omega
  · exact fun b hb => ⟨(hdir.range b hb).1, Nat.lt_of_lt_of_le (hdir.range b hb).2 hgrow⟩
  · rw [hindex]
    exact hdir.apart
  · intro s hs'
    rcases Nat.lt_succ_iff_lt_or_eq.mp hs' with hlt | rfl
    · have hsl := hslots s (by omega) (by omega) 0 (by omega)
      rw [Nat.add_zero] at hsl
      rw [hsl]
      exact hdir.used s hlt
    · exact hname
  · intro s hs' hs'' j hj
    rw [hslots s hs'' (by omega) j hj]
    exact hdir.unused s (by omega) hs'' j hj
  · rw [file2blk_eq] at hlen ⊢
    omega

/-! ## Inputs -/

/-- A slot that is not used is an empty file. -/
structure Empty (d : Image) (t n : Nat) : Prop where
  low : diskAddr 0 ≤ t
  below : t + FILE_STRUCT_SIZE ≤ diskAddr n
  zero : ∀ j < FILE_STRUCT_SIZE, d.data (t + j) = 0

theorem Room.empty {d : Image} {f n k : Nat} {bs : List Nat} (h : Room d f n k bs) :
    Empty d (slotAt bs k) d.nextbno ∧ diskAddr n ≤ slotAt bs k := by
  have hlen := h.len
  have hk : k < FILE2BLK * bs.length := by
    rw [file2blk_eq] at hlen ⊢
    omega
  obtain ⟨hmem, hslot, hslot'⟩ := slot_block hk
  have hrange := h.dir.range _ hmem
  have hfile := file_size_eq
  have haddr₀ := addr_eq 0
  have haddr := addr_eq n
  have haddr₁ := addr_eq d.nextbno
  have haddr₂ := addr_eq (bs.getD (k / 16) 0)
  have haddr₃ := addr_eq (bs.getD (k / 16) 0 + 1)
  exact ⟨⟨by omega, by omega, h.dir.unused k (Nat.le_refl _) hk⟩, by omega⟩

theorem Empty.word {d : Image} {t n : Nat} (h : Empty d t n) {j : Nat} (hj : j + 4 ≤ FILE_STRUCT_SIZE) :
    d.data.word (t + j) = 0 := by
  refine Bytes.word_zero fun i h1 h2 => ?_
  obtain ⟨i, rfl⟩ := Nat.exists_eq_add_of_le (Nat.le_trans (Nat.le_add_right t j) h1)
  exact h.zero i (by omega)

/-- The name and the other fields of an empty file are stored, except its links. -/
structure Header (d d' : Image) (t n : Nat) : Prop where
  fresh : Fresh d'
  nextbno : d'.nextbno = n
  same : Same (fun a => t ≤ a ∧ a < t + 136) d d'
  name : d'.data t ≠ 0

theorem Header.links {d d' : Image} {t n : Nat} (he : Empty d t n) (h : Header d d' t n) : Links d' t n 0 where
  low := he.low
  below := he.below
  le := Nat.le_of_eq h.nextbno.symm
  noIndex _ := by
    have hind : indirectAt t = t + 176 := rfl
    have hsame : d'.data.word (indirectAt t) = d.data.word (indirectAt t) :=
      h.same.word fun a h1 h2 => by omega
    rw [hsame]
    exact he.word (by decide)
  index hm := absurd hm (Nat.not_lt_zero _)

theorem HostName.head (name : HostName) : ∃ c l, name.chars = c :: l ∧ c ≠ 0 := by
  rcases hl : name.chars with _ | ⟨c, l⟩
  · exact absurd hl name.nonempty
  · refine ⟨c, l, rfl, fun hc => name.nonzero ?_⟩
    rw [hl, hc]
    exact List.mem_cons_self

theorem Empty.store {d d₁ : Image} {t n : Nat} (he : Empty d t n) (h : Fresh d₁) (hn : d₁.nextbno = n)
    {S : Nat → Prop} {d₂ : Image} (hs : Same S d₁ d₂) (hn₂ : d₂.nextbno = d₁.nextbno)
    (hS : ∀ a, S a → a < t + FILE_STRUCT_SIZE) : Fresh d₂ := by
  refine h.same hs hn₂ fun a ha => ?_
  rw [hn]
  exact Nat.lt_of_lt_of_le (hS a ha) he.below

theorem fileHeader_spec {d : Image} {t : Nat} (hd : Fresh d) (he : Empty d t d.nextbno) (name : HostName)
    (size : Nat) {Q : Unit → Image → Prop} {E : Halt → Image → Prop} {rest : Build Unit}
    (hrest : name.chars.length < MAXNAMELEN → ∀ d', Header d d' t d.nextbno → wp rest Q E d')
    (hlong : MAXNAMELEN ≤ name.chars.length → E .overrun d) :
    wp (do
      strcpyName t name.chars
      putWord (sizeAt t) size
      putWord (typeAt t) FTYPE_REG
      rest) Q E d := by
  have hfile := file_size_eq
  have hhigh := hd.high
  have hmax : MAXNAMELEN = 128 := rfl
  have hsizeAt : sizeAt t = t + 128 := rfl
  have htypeAt : typeAt t = t + 132 := rfl
  unfold strcpyName
  by_cases hfits : name.chars.length + 1 ≤ MAXNAMELEN
  · have hlen : (name.chars ++ [0]).length = name.chars.length + 1 := List.length_append
    rw [if_pos hfits, Lib.wp_bind, wp_put (inDisk_seat he.low he.below hhigh (Nat.le_refl _) (by omega)),
      Lib.wp_bind, wp_putWord (inDisk_seat he.low he.below hhigh (by omega) (by omega)), Lib.wp_bind,
      wp_putWord (inDisk_seat he.low he.below hhigh (by omega) (by omega))]
    have h1 := same_setList d t (name.chars ++ [0])
    have h2 := same_setWord (d.setList t (name.chars ++ [0])) (sizeAt t) size
    have h3 := same_setWord ((d.setList t (name.chars ++ [0])).setWord (sizeAt t) size) (typeAt t) FTYPE_REG
    have hfirst : Same (fun a => t ≤ a ∧ a < t + 136) d (d.setList t (name.chars ++ [0])) :=
      h1.mono fun a ha => by omega
    have hsame := (hfirst.trans (h2.mono fun a ha => by omega)).trans (h3.mono fun a ha => by omega)
    refine hrest hfits _ ⟨he.store hd rfl hsame rfl fun a ha => by omega, rfl, hsame, ?_⟩
    obtain ⟨c, l, hname, hc⟩ := name.head
    rw [h3 t (by omega), h2 t (by omega)]
    show d.data.setList t (name.chars ++ [0]) t ≠ 0
    unfold Bytes.setList
    rw [if_pos (by omega), hname, Nat.sub_self]
    exact hc
  · rw [if_neg hfits, Lib.wp_bind, Lib.wp_throw]
    exact hlong (by omega)

theorem nameDirectory_spec {d : Image} {t : Nat} (hd : Fresh d) (he : Empty d t d.nextbno) (name : HostName)
    {E : Halt → Image → Prop} :
    wp (nameDirectory t name) (fun _ d' => Header d d' t d.nextbno ∧ d'.data.word (sizeAt t) = 0) E d := by
  have hfile := file_size_eq
  have hhigh := hd.high
  have hmax : MAXNAMELEN = 128 := rfl
  have htypeAt : typeAt t = t + 132 := rfl
  obtain ⟨c, l, hname, hc⟩ := name.head
  unfold nameDirectory
  have hlen : (name.chars.take (MAXNAMELEN - 1) ++
      List.replicate (MAXNAMELEN - 1 - name.chars.length) 0).length = 127 := by
    rw [List.length_append, List.length_take, List.length_replicate, hmax]
    omega
  have hfirst : (name.chars.take (MAXNAMELEN - 1) ++
      List.replicate (MAXNAMELEN - 1 - name.chars.length) 0).getD 0 0 = c := by
    rw [hname]
    rfl
  generalize name.chars.take (MAXNAMELEN - 1) ++
    List.replicate (MAXNAMELEN - 1 - name.chars.length) 0 = bytes at hlen hfirst
  rw [Lib.wp_bind, wp_put (inDisk_seat he.low he.below hhigh (Nat.le_refl _) (by omega)), Lib.wp_bind,
    Lib.wp_get]
  have h1 := same_setList d t bytes
  have hlast : (d.setList t bytes).data (t + (MAXNAMELEN - 1)) = 0 := by
    rw [h1 _ (by omega)]
    exact he.zero _ (by decide)
  rw [if_neg fun h => h hlast, wp_putWord (inDisk_seat he.low he.below hhigh (by omega) (by omega))]
  have h2 := same_setWord (d.setList t bytes) (typeAt t) FTYPE_DIR
  have hput : Same (fun a => t ≤ a ∧ a < t + 136) d (d.setList t bytes) := h1.mono fun a ha => by omega
  have hsame := hput.trans (h2.mono fun a ha => by omega)
  refine ⟨⟨he.store hd rfl hsame rfl fun a ha => by omega, rfl, hsame, ?_⟩, ?_⟩
  · rw [h2 t (by omega)]
    show d.data.setList t bytes t ≠ 0
    unfold Bytes.setList
    rw [if_pos (by omega), Nat.sub_self, hfirst]
    exact hc
  · have hsizeAt : sizeAt t = t + 128 := rfl
    rw [h2.word (a := sizeAt t) fun a _ _ => by omega, h1.word (a := sizeAt t) fun a _ _ => by omega]
    exact he.word (by decide)

/-- The blocks that a directory with `k` files takes for `l` more. -/
def slotsCost (k : Nat) : Nat → Nat
  | 0 => 0
  | l + 1 => slotCost k + slotsCost (k + 1) l

theorem dirBlocks_succ (k : Nat) : dirBlocks (k + 1) = dirBlocks k + slotCost k := by
  have hten : NDIRECT = 10 := rfl
  unfold dirBlocks slotCost withIndex indexCost
  rw [file2blk_eq, hten]
  split <;> split <;> split <;> (try split) <;> omega

theorem slotsCost_eq (k l : Nat) : dirBlocks k + slotsCost k l = dirBlocks (k + l) := by
  induction l generalizing k with
  | zero => rfl
  | succ l ih =>
    unfold slotsCost
    rw [← Nat.add_assoc, ← dirBlocks_succ, ih]
    congr 1
    omega

theorem slotsCost_zero (l : Nat) : slotsCost 0 l = dirBlocks l := by
  have h := slotsCost_eq 0 l
  rwa [Nat.zero_add, show dirBlocks 0 = 0 from rfl, Nat.zero_add] at h

theorem Header.dir {d d' : Image} {t : Nat} (he : Empty d t d.nextbno) (h : Header d d' t d.nextbno)
    (hsize : d'.data.word (sizeAt t) = 0) : Tight d' t d.nextbno 0 [] where
  dir := ⟨h.links he, Nat.le_of_eq h.nextbno.symm, hsize, fun i hi => absurd hi (Nat.not_lt_zero i),
    fun _ hb => (List.not_mem_nil hb).elim, List.nodup_nil, List.not_mem_nil,
    fun s hs => absurd hs (Nat.not_lt_zero s), fun s _ hs => absurd hs (Nat.not_lt_zero s)⟩
  len := rfl

/-- The file number `k` has been written. -/
theorem Room.written {d d₁ d₂ : Image} {f n k c : Nat} {bs : List Nat} (hd : Fresh d) (h : Room d f n k bs)
    (h₁ : Header d d₁ (slotAt bs k) d.nextbno) (h₂ : Took (Owns (slotAt bs k) d.nextbno) c d₁ d₂) :
    Tight d₂ f n (k + 1) bs ∧ Took (Owns f n) c d d₂ := by
  obtain ⟨hempty, hslot⟩ := h.empty
  have hbelow := hempty.below
  have hfile := file_size_eq
  have hle := h.dir.links.le
  have haddr := addr_eq n
  have haddr₁ := addr_eq d.nextbno
  have hn := h₁.nextbno
  have hgrows := h₂.grows
  have hcost := h₂.le
  have hsame : Same (Below (slotAt bs k) d.nextbno) d d₂ := by
    refine Same.trans (h₁.same.mono fun a ha => Or.inl (by omega)) (h₂.same.mono fun a ha => ?_)
    rcases ha with ha | ha
    · exact Or.inl (by omega)
    · exact Or.inr ha
  have hname : d₂.data (slotAt bs k) = d₁.data (slotAt bs k) := by
    refine h₂.same _ ?_
    rintro (ha | ha)
    · omega
    · omega
  refine ⟨h.next hd hsame (by omega) (by rw [hname]; exact h₁.name), h₂.fresh, by omega, by omega, ?_⟩
  refine hsame.mono fun a ha => Or.inr ?_
  rcases ha with ha | ha
  · omega
  · omega

mutual

theorem writeInput_spec : ∀ (e : Input) {d : Image} {f n k : Nat} {bs : List Nat}, Fresh d → Tight d f n k bs →
    wp (writeInput f e)
      (fun _ d' => ∃ bs', Tight d' f n (k + 1) bs' ∧ Took (Owns f n) (slotCost k + e.blocks) d d')
      (Fails (NBLOCK < d.nextbno + (slotCost k + e.blocks) ∨ ¬ e.Named)) d
  | .file name contents, d, f, n, k, bs, hd, h => by
    unfold writeInput writeFile
    rw [Lib.wp_bind]
    refine wp_mono (createFile_spec hd h) (fun t d₁ h₁ => ?_) fun _ _ he => ⟨he.1, Or.inl ?_⟩
    · obtain ⟨bs', hroom, rfl, htook⟩ := h₁
      have hempty := hroom.empty.1
      have hle := htook.le
      refine fileHeader_spec htook.fresh hempty name _ (fun hfits d₂ h₂ => ?_) fun hlong =>
        ⟨rfl, Or.inr fun hnamed => Nat.not_lt_of_le hlong hnamed⟩
      have hn := h₂.nextbno
      have hblocks := writeBlocks_spec contents (blocksOf contents.length) h₂.fresh (h₂.links hempty)
        (Nat.le_of_eq h₂.nextbno.symm)
      rw [linksCost_zero] at hblocks
      refine wp_mono hblocks (fun _ d₃ h₃ => ?_) fun _ _ he => ⟨he.1, Or.inl ?_⟩
      · obtain ⟨htight, hall⟩ := hroom.written htook.fresh h₂ h₃
        exact ⟨bs', htight, htook.trans hall⟩
      · have hover := he.2
        show NBLOCK < d.nextbno + (slotCost k + withIndex (blocksOf contents.length))
        omega
    · have hover := he.2
      omega
  | .dir name entries, d, f, n, k, bs, hd, h => by
    unfold writeInput
    rw [Lib.wp_bind]
    refine wp_mono (createFile_spec hd h) (fun t d₁ h₁ => ?_) fun _ _ he => ⟨he.1, Or.inl ?_⟩
    · obtain ⟨bs', hroom, rfl, htook⟩ := h₁
      have hempty := hroom.empty.1
      have hle := htook.le
      rw [Lib.wp_bind]
      refine wp_mono (nameDirectory_spec htook.fresh hempty name) (fun _ d₂ h₂ => ?_) fun _ _ he => he
      have hn := h₂.1.nextbno
      have hentries := writeEntries_spec entries h₂.1.fresh (h₂.1.dir hempty h₂.2)
      rw [slotsCost_zero] at hentries
      refine wp_mono hentries (fun _ d₃ h₃ => ?_) fun _ _ he => ⟨he.1, he.2.imp (fun hover => ?_) fun hnamed hall => ?_⟩
      · obtain ⟨htight, hall⟩ := hroom.written htook.fresh h₂.1 h₃
        exact ⟨bs', htight, htook.trans hall⟩
      · show NBLOCK < d.nextbno + (slotCost k + (dirBlocks entries.length + sumBlocks entries))
        omega
      · exact hnamed hall.2
    · have hover := he.2
      omega

theorem writeEntries_spec : ∀ (es : List Input) {d : Image} {f n k : Nat} {bs : List Nat}, Fresh d →
    Tight d f n k bs →
    wp (writeEntries f es) (fun _ => Took (Owns f n) (slotsCost k es.length + sumBlocks es) d)
      (Fails (NBLOCK < d.nextbno + (slotsCost k es.length + sumBlocks es) ∨ ¬ AllNamed es)) d
  | [], d, f, n, k, bs, hd, h => by
    unfold writeEntries
    rw [Lib.wp_pure]
    exact ⟨hd, Nat.le_refl _, Nat.le_add_right .., fun _ _ => rfl⟩
  | e :: es, d, f, n, k, bs, hd, h => by
    have hcost : slotsCost k (e :: es).length + sumBlocks (e :: es) =
        slotCost k + e.blocks + (slotsCost (k + 1) es.length + sumBlocks es) := by
      show slotCost k + slotsCost (k + 1) es.length + (e.blocks + sumBlocks es) = _
      omega
    rw [hcost]
    unfold writeEntries
    rw [Lib.wp_bind]
    refine wp_mono (writeInput_spec e hd h) (fun _ d₁ h₁ => ?_) fun _ _ he => ⟨he.1, ?_⟩
    · obtain ⟨bs', htight, htook⟩ := h₁
      refine wp_mono (writeEntries_spec es htook.fresh htight) (fun _ d₂ h₂ => htook.trans h₂)
        fun _ _ he => ⟨he.1, he.2.imp (fun hover => ?_) fun hnamed hall => hnamed hall.2⟩
      have hle := htook.le
      omega
    · exact he.2.imp (fun hover => by omega) fun hnamed hall => hnamed hall.1

end

/-! ## Runs -/

theorem flushBitmap_spec (n : Nat) {d : Image} (hn : n ≤ NBLOCK) {E : Halt → Image → Prop} :
    wp (flushBitmap n) (fun _ _ => True) E d := by
  induction n with
  | zero =>
    unfold flushBitmap
    rw [Lib.wp_pure]
    trivial
  | succ n ih =>
    unfold flushBitmap
    rw [Lib.wp_bind]
    refine wp_mono (ih (Nat.le_of_succ_le hn)) (fun _ d' _ => ?_) fun _ _ he => he
    have hbit : inDisk (diskAddr 2 + 4 * (n / 32)) 4 = true := by
      have hnblock := nblock_eq
      rw [inDisk_iff, addr_eq, addr_eq, addr_eq]
      omega
    rw [Lib.wp_bind, Lib.wp_get, wp_putWord hbit]
    trivial

theorem fresh_initDisk : Fresh initDisk where
  zero a ha := by
    have h0 := addr_eq initDisk.nextbno
    have h1 := addr_eq 1
    have h2 := addr_eq 2
    have hn : initDisk.nextbno = 3 := rfl
    have hroot : rootAt = diskAddr 1 + 8 := rfl
    have htype : typeAt rootAt = rootAt + 132 := rfl
    have hnblock := nblock_eq
    unfold initDisk
    simp only
    rw [if_neg (by omega), if_neg (by omega), if_neg (by omega), if_neg (by omega), if_neg (by omega),
      if_neg (by omega), if_neg (by omega), if_neg (by omega)]
  low := Nat.le_refl _
  high := by decide

theorem tight_initDisk : Tight initDisk rootAt 3 0 [] where
  dir := ⟨⟨by decide, by decide, by decide, fun _ => by decide, fun h => absurd h (by decide)⟩, by decide,
    by decide, fun i hi => absurd hi (Nat.not_lt_zero i), fun b hb => (List.not_mem_nil hb).elim,
    List.nodup_nil, List.not_mem_nil, fun s hs => absurd hs (Nat.not_lt_zero s),
    fun s _ hs => absurd hs (Nat.not_lt_zero s)⟩
  len := rfl

theorem fsformat_spec (args : List Input) :
    wp (fsformat args) (fun _ _ => True) (Fails (¬ Fit args)) initDisk := by
  have hentries := writeEntries_spec args fresh_initDisk tight_initDisk
  rw [slotsCost_zero] at hentries
  unfold fsformat
  rw [Lib.wp_bind]
  refine wp_mono hentries (fun _ d h => ?_) fun _ _ he => ⟨he.1, fun hfit => ?_⟩
  · rw [Lib.wp_bind, Lib.wp_get]
    exact flushBitmap_spec _ h.fresh.high
  · have hn : initDisk.nextbno = 3 := rfl
    rcases he.2 with hover | hnamed
    · have hroom := hfit.1
      omega
    · exact hnamed hfit.2

/-- No store is outside of an array, and what does not fit is rejected. -/
def InBounds (args : List Input) : Prop :=
  (∀ d, fsformat args initDisk ≠ .error .overrun d) ∧
    (¬ Fit args → ∃ e d, fsformat args initDisk = .error e d ∧ e ≠ .overrun)

theorem image_in_bounds_iff (args : List Input) : InBounds args ↔ Fit args := by
  constructor
  · intro h
    by_contra hfit
    obtain ⟨e, d, hrun, hne⟩ := h.2 hfit
    exact hne (Lib.wp_run_error (fsformat_spec args) hrun).1
  · intro hfit
    refine ⟨fun d hrun => ?_, fun h => absurd hfit h⟩
    exact (Lib.wp_run_error (fsformat_spec args) hrun).2 hfit

/-- A file whose name is one byte too long. -/
def longNamed : Input := .file ⟨List.replicate MAXNAMELEN 97, by decide, by decide⟩ []

theorem not_image_in_bounds : ¬ ∀ args : List Input, InBounds args := by
  intro h
  have hover : (match fsformat [longNamed] initDisk with
    | .error .overrun _ => true
    | _ => false) = true := by decide +kernel
  rcases hrun : fsformat [longNamed] initDisk with ⟨u, d⟩ | ⟨e, d⟩
  · rw [hrun] at hover
    exact nomatch hover
  · rw [hrun] at hover
    cases e with
    | overrun => exact (h [longNamed]).1 d hrun
    | assertion => exact nomatch hover
    | exit => exact nomatch hover

end Mos.Fs.Builder
