import Mos.Lib.Bytes
import Mos.Lib.Process

/-!
# The block cache (`fs/fs.c`, first half)

The server keeps blocks of the disk in its memory from `DISKMAP` on. It is a program over
that memory that calls the kernel: pages are allocated, replies sent and references
counted by calls, since these depend on the rest of the system.
-/

namespace Mos.Fs

open Lib (Bytes Proc Prog)

def BLOCK_SIZE : Nat := 4096
def BLOCK_SIZE_BIT : Nat := BLOCK_SIZE * 8
def DISKMAP : Nat := 0x10000000

inductive Err where
  | inval
  | noMem
  | noDisk
  | maxOpen
  | notFound
  | badPath
  | fileExists
  | isDir
  deriving DecidableEq, Repr

/-- The value `-E` that stands for an error in a reply. -/
def Err.code : Err → Int
  | .inval => -3
  | .noMem => -4
  | .noDisk => -8
  | .maxOpen => -9
  | .notFound => -10
  | .badPath => -11
  | .fileExists => -12
  | .isDir => -14

/-! ## State -/

/-- The page that the server shares with the clients that have the file open. -/
structure Filefd where
  fd_dev_id : Nat
  fd_offset : Nat
  fd_omode : Nat
  f_fileid : Nat
  /-- The 256 bytes of the copied `struct File`. -/
  f_file : Bytes

/-- An entry of the open file table. Its `o_fileid` is its index, and `ff` is the page at `o_ff`. -/
structure Open where
  o_file : Nat
  o_mode : Nat
  ff : Filefd

structure Server where
  disk : Bytes
  mem : Bytes
  /-- `block_is_mapped` -/
  mapped : Nat → Bool
  /-- `PTE_DIRTY` of the page of a block. -/
  dirty : Nat → Bool
  super : Nat
  bitmap : Nat
  opentab : Nat → Open

/-- What a block is given to a file for. -/
inductive Use where
  | index
  | block (filebno : Nat)
  deriving DecidableEq, Repr

/-- What the server is about to do at a place in the code: to store a block in a pointer of `f`, to
free a block of `f`, to set the size, the type or the name of `f`, to truncate `f`, to flush the
directory `f`. -/
inductive Mark where
  | gives (f : Nat) (use : Use) (blockno : Nat)
  | clears (f : Nat) (use : Use)
  | sizes (f size : Nat)
  | creates (f mode : Nat)
  | unnames (f : Nat)
  | truncates (f newsize : Nat)
  | flushes (f : Nat)
  deriving DecidableEq, Repr

/-- What the server asks for. `mark` is no call: it marks that the run passes a place when the blocks
hold `content`. -/
inductive Call where
  | mark (m : Mark) (content : Bytes)
  /-- `syscall_mem_alloc(0, va, ..)` -/
  | memAlloc (va : Nat)
  /-- `pageref(opentab[i].o_ff)` -/
  | pageref (i : Nat)
  /-- The last `syscall_ipc_try_send` in `ipc_send`. -/
  | ipcSend (envid : Nat) (val : Int) (srcva perm : Nat)

abbrev Reply : Call → Type
  | .mark .. => Unit
  | .memAlloc _ => Except Err Unit
  | .pageref _ => Nat
  | .ipcSend .. => Int

inductive Panic where
  | writeUnmapped
  | readNonexistent
  | readFree
  | clearBlock
  | notSent
  | readSuper
  | badMagic
  | tooLarge
  | assertion
  deriving DecidableEq, Repr

inductive Stop where
  | panic (p : Panic)
  /-- An access outside the cached blocks. -/
  | fault
  deriving DecidableEq, Repr

abbrev Serv := Prog Call Reply Stop Server

abbrev call (c : Call) : Serv (Reply c) := Prog.call c

/-! ## Memory -/

def diskAddr (blockno : Nat) : Nat := DISKMAP + blockno * BLOCK_SIZE

/-- The block whose page holds the address. -/
def blockOf (va : Nat) : Nat := (va - DISKMAP) / BLOCK_SIZE

def Server.cached (s : Server) (va : Nat) : Bool := decide (DISKMAP ≤ va) && s.mapped (blockOf va)

def Server.setMem (s : Server) (mem : Bytes) : Server := { s with mem := mem }

def loadWord (va : Nat) : Serv Nat := do
  let s ← get
  if s.cached va then return s.mem.word va else throw .fault

def storeWord (va v : Nat) : Serv Unit := do
  let s ← get
  if s.cached va then set (s.setMem (s.mem.setWord va v)) else throw .fault

/-- The bytes `l` from `va` on, in one page. -/
def storeList (va : Nat) (l : List UInt8) : Serv Unit := do
  let s ← get
  if s.cached va then set (s.setMem (s.mem.setList va l)) else throw .fault

/-- The disk at the addresses of the cache. -/
def Server.stored (s : Server) : Bytes := fun a => if DISKMAP ≤ a then s.disk (a - DISKMAP) else 0

/-- The contents of the blocks, in memory or on the disk, at the addresses of the cache. -/
def Server.content (s : Server) : Bytes := fun a => if s.cached a then s.mem a else s.stored a

def mark (m : Mark) : Serv Unit := do call (.mark m (← get).content)

/-- A page of zeros is mapped for the block. -/
def Server.mapZero (s : Server) (blockno : Nat) : Server :=
  { s with
    mem := s.mem.copy (diskAddr blockno) (fun _ => 0) 0 BLOCK_SIZE
    mapped := Function.update s.mapped blockno true
    dirty := Function.update s.dirty blockno false }

/-- `ide_read` of a block into its page. -/
def Server.ideRead (s : Server) (blockno : Nat) : Server :=
  { s with mem := s.mem.copy (diskAddr blockno) s.disk (blockno * BLOCK_SIZE) BLOCK_SIZE }

/-- `ide_write` of the page of a block. -/
def Server.ideWrite (s : Server) (blockno : Nat) : Server :=
  { s with disk := s.disk.copy (blockno * BLOCK_SIZE) s.mem (diskAddr blockno) BLOCK_SIZE }

def Server.setDirty (s : Server) (blockno : Nat) : Server :=
  { s with dirty := Function.update s.dirty blockno true }

/-! ## Blocks -/

def Server.blockIsDirty (s : Server) (blockno : Nat) : Bool := s.mapped blockno && s.dirty blockno

/-- The page is mapped to itself with `PTE_DIRTY`, which needs no memory. -/
def dirtyBlock (blockno : Nat) : Serv (Except Err Unit) := do
  let s ← get
  if !s.mapped blockno then
    return .error .notFound
  else if s.dirty blockno then
    return .ok ()
  else
    set (s.setDirty blockno)
    return .ok ()

def writeBlock (blockno : Nat) : Serv Unit := do
  let s ← get
  if s.mapped blockno then set (s.ideWrite blockno) else throw (.panic .writeUnmapped)

/-- `super->s_nblocks` -/
def nblocks : Serv Nat := do loadWord ((← get).super + 4)

/-- `bitmap[blockno / 32]` -/
def bitmapWord (s : Server) (blockno : Nat) : Nat := s.bitmap + 4 * (blockno / 32)

/-- `bitmap[blockno / 32] & (1 << (blockno % 32))` -/
def loadBit (blockno : Nat) : Serv Bool := do
  return (← loadWord (bitmapWord (← get) blockno)).testBit (blockno % 32)

def blockIsFree (blockno : Nat) : Serv Bool := do
  if (← get).super = 0 then
    return false
  else if blockno ≥ (← nblocks) then
    return false
  else
    loadBit blockno

/-- `bitmap[blockno / 32] |= 1 << (blockno % 32)` -/
def setBit (blockno : Nat) : Serv Unit := do
  let a := bitmapWord (← get) blockno
  storeWord a ((← loadWord a) ||| 1 <<< (blockno % 32))

/-- `bitmap[blockno / 32] &= ~(1 << (blockno % 32))` -/
def clearBit (blockno : Nat) : Serv Unit := do
  let a := bitmapWord (← get) blockno
  storeWord a ((← loadWord a) &&& (2 ^ 32 - 1 - 1 <<< (blockno % 32)))

/-- `super && blockno >= super->s_nblocks` -/
def isNonexistent (blockno : Nat) : Serv Bool := do
  if (← get).super = 0 then return false else return blockno ≥ (← nblocks)

/-- `bitmap && block_is_free(blockno)` -/
def isKnownFree (blockno : Nat) : Serv Bool := do
  if (← get).bitmap = 0 then return false else blockIsFree blockno

/-- The block is read from the disk if it is not in memory. -/
def loadBlock (blockno : Nat) : Serv (Except Err Nat) := do
  if (← get).mapped blockno then
    return .ok (diskAddr blockno)
  else
    match ← call (.memAlloc (diskAddr blockno)) with
    | .error e => return .error e
    | .ok () =>
      modify fun s => (s.mapZero blockno).ideRead blockno
      return .ok (diskAddr blockno)

def readBlock (blockno : Nat) : Serv (Except Err Nat) := do
  if ← isNonexistent blockno then
    throw (.panic .readNonexistent)
  else if ← isKnownFree blockno then
    throw (.panic .readFree)
  else
    loadBlock blockno

def mapBlock (blockno : Nat) : Serv (Except Err Unit) := do
  if (← get).mapped blockno then
    return .ok ()
  else
    match ← call (.memAlloc (diskAddr blockno)) with
    | .error e => return .error e
    | .ok () =>
      modify (·.mapZero blockno)
      return .ok ()

def freeBlock (blockno : Nat) : Serv Unit := do
  let n ← nblocks
  if blockno = 0 ∨ blockno ≥ n then return () else setBit blockno

/-- The loop of `alloc_block_num` from `blockno` on, for `n` blocks. -/
def allocFrom : Nat → Nat → Serv (Except Err Nat)
  | 0, _ => return .error .noDisk
  | n + 1, blockno => do
    if ← loadBit blockno then
      clearBit blockno
      writeBlock (blockno / BLOCK_SIZE_BIT + 2)
      return .ok blockno
    else
      allocFrom n (blockno + 1)

def allocBlockNum : Serv (Except Err Nat) := do allocFrom ((← nblocks) - 3) 3

def allocBlock : Serv (Except Err Nat) := do
  match ← allocBlockNum with
  | .error e => return .error e
  | .ok bno =>
    match ← mapBlock bno with
    | .error e =>
      freeBlock bno
      return .error e
    | .ok () => return .ok bno

end Mos.Fs
