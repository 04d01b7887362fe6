import Mos.Fs.Serve

/-!
# The image and the start of the server (`tools/fsformat.c`, `fs/fs.c`)

The image is made from files and directories of the host. The server reads and checks the
super block and the bitmap before it takes requests.
-/

namespace Mos.Fs

open Lib (Bytes Proc Prog)
open Lib.Proc (Trace)

def FS_MAGIC : Nat := 0x68286097
def DISKMAX : Nat := 0x40000000

/-! ## `fsformat` -/

/-- The number of blocks of an image. -/
def NBLOCK : Nat := 1024

/-- `disk`, with the blocks where they are in the block cache. The root is in its place in block 1
from the beginning. -/
structure Image where
  data : Bytes
  nextbno : Nat

abbrev Format := StateT Image Option

def Image.setWord (d : Image) (a v : Nat) : Image := { d with data := d.data.setWord a v }

def Image.setList (d : Image) (a : Nat) (l : List UInt8) : Image :=
  { d with data := d.data.setList a l }

/-- What there is on the host. A file's name that does not fit a `struct File` is stored behind it. -/
inductive Host where
  | file (name : Name) (contents : List UInt8)
  | dir (name : Name) (entries : List Host)

def Host.name : Host → Name
  | file name _ => name
  | dir name _ => name

def rootAt : Nat := diskAddr 1 + 8

def initDisk : Image where
  data := fun a =>
    if a = diskAddr 1 then 0x97 else if a = diskAddr 1 + 1 then 0x60
    else if a = diskAddr 1 + 2 then 0x28 else if a = diskAddr 1 + 3 then 0x68
    else if a = diskAddr 1 + 5 then 4
    else if a = rootAt then 47
    else if a = typeAt rootAt then 1
    else if diskAddr 2 ≤ a ∧ a < diskAddr 2 + NBLOCK / 8 then 0xff
    else 0
  nextbno := 3

/-- The array of blocks has `NBLOCK` elements. -/
def nextBlock : Format Nat := do
  let d ← get
  if d.nextbno < NBLOCK then
    set { d with nextbno := d.nextbno + 1 }
    return d.nextbno
  else
    none

/-- There is an index block. -/
def indexBlock (f : Nat) : Format Unit := do
  if (← get).data.word (indirectAt f) = 0 then
    let r ← nextBlock
    modify (·.setWord (indirectAt f) r)
  else
    return ()

def saveBlockLink (f nblk bno : Nat) : Format Unit := do
  if nblk ≥ NINDIRECT then
    none
  else if nblk < NDIRECT then
    modify (·.setWord (directAt f nblk) bno)
  else
    indexBlock f
    modify fun d => d.setWord (diskAddr (d.data.word (indirectAt f)) + 4 * nblk) bno

def makeLinkBlock (dirf nblk : Nat) : Format Nat := do
  let bno ← nextBlock
  saveBlockLink dirf nblk bno
  modify fun d => d.setWord (sizeAt dirf) (d.data.word (sizeAt dirf) + BLOCK_SIZE)
  return bno

/-- The block of a directory that holds its files. -/
def Image.linked (d : Image) (dirf i : Nat) : Nat :=
  if i < NDIRECT then d.data.word (directAt dirf i)
  else d.data.word (diskAddr (d.data.word (indirectAt dirf)) + 4 * i)

/-- The first unused `struct File` of the block at `blk`. -/
def Image.unusedFile (d : Image) (blk : Nat) : Option Nat :=
  ((List.range FILE2BLK).find? fun j => d.data (fileAt blk j) == 0).map (fileAt blk)

def createFile (dirf : Nat) : Format Nat := do
  let d ← get
  let nblk := d.data.word (sizeAt dirf) / BLOCK_SIZE
  match (List.range nblk).findSome? fun i => d.unusedFile (diskAddr (d.linked dirf i)) with
  | some f => return f
  | none => return diskAddr (← makeLinkBlock dirf nblk)

/-- The loop that reads a file into the next block, for `n` blocks from block `iblk` on. -/
def writeBlocks (target : Nat) (contents : List UInt8) : Nat → Nat → Format Unit
  | 0, _ => return ()
  | n + 1, iblk => do
    modify fun d => d.setList (diskAddr d.nextbno) ((contents.drop (iblk * BLOCK_SIZE)).take BLOCK_SIZE)
    let bno ← nextBlock
    saveBlockLink target iblk bno
    writeBlocks target contents n (iblk + 1)

/-- The number of blocks that `n` bytes take. -/
def blocksOf (n : Nat) : Nat := (n + (BLOCK_SIZE - 1)) / BLOCK_SIZE

def writeFile (dirf : Nat) (name : Name) (contents : List UInt8) : Format Unit := do
  let target ← createFile dirf
  modify (·.setList target (name ++ [0]))
  modify (·.setWord (sizeAt target) contents.length)
  modify (·.setWord (typeAt target) FTYPE_REG)
  writeBlocks target contents (blocksOf contents.length) 0

/-- `strncpy` of at most `MAXNAMELEN - 1` bytes, and the test of the byte behind them. -/
def nameDirectory (pdir : Nat) (name : Name) : Format Unit := do
  modify (·.setList pdir
    (name.take (MAXNAMELEN - 1) ++ List.replicate (MAXNAMELEN - 1 - name.length) 0))
  if (← get).data (pdir + (MAXNAMELEN - 1)) ≠ 0 then
    none
  else
    modify (·.setWord (typeAt pdir) FTYPE_DIR)

mutual

def writeHost (dirf : Nat) : Host → Format Unit
  | .file name contents => writeFile dirf name contents
  | .dir name entries => do
    let pdir ← createFile dirf
    nameDirectory pdir name
    writeEntries pdir entries

def writeEntries (pdir : Nat) : List Host → Format Unit
  | [] => return ()
  | e :: es => do
    writeHost pdir e
    writeEntries pdir es

end

/-- The blocks below `n` are marked in use. -/
def flushBitmap (c : Bytes) : Nat → Bytes
  | 0 => c
  | n + 1 =>
    let c := flushBitmap c n
    let a := diskAddr 2 + 4 * (n / 32)
    c.setWord a (c.word a &&& (2 ^ 32 - 1 - 1 <<< (n % 32)))

/-- The image of the arguments, if they fit into it. Without arguments it is the image that `main` has
when it finds that there are too few of them. -/
def fsformat (args : List Host) : Option Image := do
  let ((), d) ← writeEntries rootAt args |>.run initDisk
  return { d with data := flushBitmap d.data d.nextbno }

/-! ## `fs_init` -/

def readSuper : Serv Unit := do
  match ← readBlock 1 with
  | .error _ => throw (.panic .readSuper)
  | .ok blk =>
    modify ({ · with super := blk })
    if (← loadWord blk) ≠ FS_MAGIC then
      throw (.panic .badMagic)
    else if (← nblocks) > DISKMAX / BLOCK_SIZE then
      throw (.panic .tooLarge)
    else
      return ()

/-- `panic_on(read_block(..))` -/
def readOrPanic (blockno : Nat) : Serv Unit := do
  match ← readBlock blockno with
  | .error _ => throw (.panic .assertion)
  | .ok _ => return ()

def Server.unmap (s : Server) (blockno : Nat) : Server :=
  { s with
    mapped := Function.update s.mapped blockno false
    dirty := Function.update s.dirty blockno false }

/-- The page of one block is copied to that of another. -/
def Server.copyPage (s : Server) (b b' : Nat) : Server :=
  s.setMem (s.mem.copy (diskAddr b) s.mem (diskAddr b') BLOCK_SIZE)

/-- `OOPS!` and a line feed. -/
def oops : Name := [79, 79, 80, 83, 33, 10]

/-- The super block is kept in the page of block 0. -/
def checkWriteBlock : Serv Unit := do
  modify ({ · with super := 0 })
  readOrPanic 0
  modify (·.copyPage 0 1)
  storeList (diskAddr 1) (oops ++ [0])
  writeBlock 1
  modify (·.unmap 1)
  readOrPanic 1
  if (← get).mem.holds (diskAddr 1) oops then
    modify (·.copyPage 1 0)
    writeBlock 1
    modify ({ · with super := diskAddr 1 })
  else
    throw (.panic .assertion)

/-- The loop of `read_bitmap`, which does not look at what `read_block` returns. -/
def readFrom : Nat → Nat → Serv Unit
  | 0, _ => return ()
  | n + 1, i => do
    let _ ← readBlock (i + 2)
    readFrom n (i + 1)

/-- `user_assert(!block_is_free(i))` for `n` blocks from `i` on. -/
def assertUsed : Nat → Nat → Serv Unit
  | 0, _ => return ()
  | n + 1, i => do
    if ← blockIsFree i then throw (.panic .assertion) else assertUsed n (i + 1)

def readBitmap : Serv Unit := do
  let nbitmap := (← nblocks) / BLOCK_SIZE_BIT + 1
  readFrom nbitmap 0
  modify ({ · with bitmap := diskAddr 2 })
  assertUsed 2 0
  assertUsed nbitmap 2

def fsInit : Serv Unit := do
  readSuper
  checkWriteBlock
  readBitmap

/-- The server when it starts with that disk. -/
def Server.start (disk : Bytes) : Server where
  disk := disk
  mem := fun _ => 0
  mapped := fun _ => false
  dirty := fun _ => false
  super := 0
  bitmap := 0
  opentab := fun _ => ⟨0, 0, emptyFilefd⟩

/-! ## Looking at the disk changes nothing -/

theorem always_isNonexistent (b : Nat) (s : Server) (t : Trace Call Reply) :
    Lib.always (isNonexistent b) (fun _ s' t' => s' = s ∧ t' = t)
      (fun e s' _ => s' = s ∧ e = .fault) s t := by
  unfold isNonexistent nblocks loadWord
  simp [Lib.always_ite, -bind_pure_comp]

theorem always_isKnownFree (b : Nat) (s : Server) (t : Trace Call Reply) :
    Lib.always (isKnownFree b) (fun _ s' t' => s' = s ∧ t' = t)
      (fun e s' _ => s' = s ∧ e = .fault) s t := by
  unfold isKnownFree blockIsFree nblocks loadBit loadWord
  simp [Lib.always_ite, -bind_pure_comp]

end Mos.Fs
