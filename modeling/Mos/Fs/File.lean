import Mos.Fs.Disk

/-!
# Files and directories (`fs/fs.c`, second half)

A `struct File` is known by its address. Its fields are at fixed offsets from there.
-/

namespace Mos.Fs

open Lib (Bytes Proc Prog)

def NDIRECT : Nat := 10
def NINDIRECT : Nat := BLOCK_SIZE / 4
def MAXNAMELEN : Nat := 128
def MAXFILESIZE : Nat := NINDIRECT * BLOCK_SIZE
def FILE_STRUCT_SIZE : Nat := 256
def FILE2BLK : Nat := BLOCK_SIZE / FILE_STRUCT_SIZE

def FTYPE_REG : Nat := 0
def FTYPE_DIR : Nat := 1

def O_CREAT : Nat := 0x0100
def O_TRUNC : Nat := 0x0200
def O_MKDIR : Nat := 0x0800

abbrev Name := List UInt8

/-! ## Fields -/

/-- `&f->f_size` -/
def sizeAt (f : Nat) : Nat := f + 128

/-- `&f->f_type` -/
def typeAt (f : Nat) : Nat := f + 132

/-- `&f->f_direct[i]` -/
def directAt (f i : Nat) : Nat := f + 136 + 4 * i

/-- `&f->f_indirect` -/
def indirectAt (f : Nat) : Nat := f + 176

/-- `&f->f_dir` -/
def dirAt (f : Nat) : Nat := f + 180

/-- `ROUND(a, BLOCK_SIZE) / BLOCK_SIZE` -/
def roundBlocks (a : Nat) : Nat := (a + (BLOCK_SIZE - 1)) % 2 ^ 32 / BLOCK_SIZE

/-! ## Blocks of a file -/

/-- The index block of `f` is allocated if there is none. -/
def indirectBlock (f : Nat) (alloc : Bool) : Serv (Except Err Unit) := do
  if (← loadWord (indirectAt f)) = 0 then
    if !alloc then
      return .error .notFound
    else
      match ← allocBlock with
      | .error e => return .error e
      | .ok r =>
        mark (.gives f .index r)
        storeWord (indirectAt f) r
        return .ok ()
  else
    return .ok ()

def fileBlockWalk (f filebno : Nat) (alloc : Bool) : Serv (Except Err Nat) := do
  if filebno < NDIRECT then
    return .ok (directAt f filebno)
  else if filebno < NINDIRECT then
    match ← indirectBlock f alloc with
    | .error e => return .error e
    | .ok () =>
      match ← readBlock (← loadWord (indirectAt f)) with
      | .error e => return .error e
      | .ok blk => return .ok (blk + 4 * filebno)
  else
    return .error .inval

def fileMapBlock (f filebno : Nat) (alloc : Bool) : Serv (Except Err Nat) := do
  match ← fileBlockWalk f filebno alloc with
  | .error e => return .error e
  | .ok ptr =>
    let diskbno ← loadWord ptr
    if diskbno = 0 then
      if !alloc then
        return .error .notFound
      else
        match ← allocBlock with
        | .error e => return .error e
        | .ok r =>
          mark (.gives f (.block filebno) r)
          storeWord ptr r
          return .ok r
    else
      return .ok diskbno

def fileClearBlock (f filebno : Nat) : Serv (Except Err Unit) := do
  match ← fileBlockWalk f filebno false with
  | .error e => return .error e
  | .ok ptr =>
    let diskbno ← loadWord ptr
    if diskbno = 0 then
      return .ok ()
    else
      mark (.clears f (.block filebno))
      freeBlock diskbno
      storeWord ptr 0
      return .ok ()

def fileGetBlock (f filebno : Nat) : Serv (Except Err Nat) := do
  match ← fileMapBlock f filebno true with
  | .error e => return .error e
  | .ok diskbno => readBlock diskbno

def fileDirty (f offset : Nat) : Serv (Except Err Unit) := do
  match ← fileMapBlock f (offset / BLOCK_SIZE) false with
  | .error e => return .error e
  | .ok diskbno => dirtyBlock diskbno

/-! ## Directories -/

/-- The file at index `j` of a block of a directory. -/
def fileAt (blk j : Nat) : Nat := blk + FILE_STRUCT_SIZE * j

/-- The first file of the block at `blk` with that name. -/
def Server.fileNamed (s : Server) (blk : Nat) (name : Name) : Option Nat :=
  ((List.range FILE2BLK).find? fun j => s.mem.holds (fileAt blk j) name).map (fileAt blk)

/-- The first free `struct File` of the block at `blk`. -/
def Server.freeFile (s : Server) (blk : Nat) : Option Nat :=
  ((List.range FILE2BLK).find? fun j => s.mem (fileAt blk j) == 0).map (fileAt blk)

/-- The loop of `dir_lookup` from block `i` on, for `n` blocks. -/
def lookupFrom (dir : Nat) (name : Name) : Nat → Nat → Serv (Except Err Nat)
  | 0, _ => return .error .notFound
  | n + 1, i => do
    match ← fileGetBlock dir i with
    | .error e => return .error e
    | .ok blk =>
      match (← get).fileNamed blk name with
      | some f =>
        storeWord (dirAt f) dir
        return .ok f
      | none => lookupFrom dir name n (i + 1)

def dirLookup (dir : Nat) (name : Name) : Serv (Except Err Nat) := do
  lookupFrom dir name ((← loadWord (sizeAt dir)) / BLOCK_SIZE) 0

/-- `f->f_size = size` -/
def setSize (f size : Nat) : Serv Unit := do
  mark (.sizes f size)
  storeWord (sizeAt f) size

/-- The directory gets a block more, which is its `i`-th. -/
def growDir (dir i : Nat) : Serv (Except Err Nat) := do
  setSize dir ((← loadWord (sizeAt dir)) + BLOCK_SIZE)
  fileGetBlock dir i

/-- The loop of `dir_alloc_file` from block `i` on, for `n` blocks, and what follows it. -/
def allocFileFrom (dir : Nat) : Nat → Nat → Serv (Except Err Nat)
  | 0, i => growDir dir i
  | n + 1, i => do
    match ← fileGetBlock dir i with
    | .error e => return .error e
    | .ok blk =>
      match (← get).freeFile blk with
      | some f => return .ok f
      | none => allocFileFrom dir n (i + 1)

def dirAllocFile (dir : Nat) : Serv (Except Err Nat) := do
  allocFileFrom dir ((← loadWord (sizeAt dir)) / BLOCK_SIZE) 0

/-! ## Paths -/

def isSlash (c : UInt8) : Bool := c == 47

def skipSlash (path : Name) : Name := path.dropWhile isSlash

/-- What `walk_path` finds: a file and the directory it is in, or no file of that name in an existing
directory, or an error with `*pdir == 0`. -/
inductive Walk where
  | found (dir file : Nat)
  | missing (dir : Nat) (name : Name)
  | failed (e : Err)
  deriving DecidableEq, Repr

/-- The loop of `walk_path`, for `n` turns at most. -/
def walkFrom : Nat → Name → Nat → Nat → Serv Walk
  | 0, _, _, _ => throw .fault
  | n + 1, path, dir, file => do
    if path = [] then
      return .found dir file
    else
      let name := path.takeWhile (!isSlash ·)
      let path := skipSlash (path.dropWhile (!isSlash ·))
      if name.length ≥ MAXNAMELEN then
        return .failed .badPath
      else if (← loadWord (typeAt file)) ≠ FTYPE_DIR then
        return .failed .notFound
      else
        match ← dirLookup file name with
        | .error e => return if e = .notFound ∧ path = [] then .missing file name else .failed e
        | .ok f => walkFrom n path file f

/-- `&super->s_root` -/
def Server.root (s : Server) : Nat := s.super + 8

/-- The path is the string in front of the terminator. A turn of the loop takes a character. -/
def walkPath (path : Name) : Serv Walk := do
  let root := (← get).root
  walkFrom (path.length + 1) (skipSlash path) 0 root

def fileOpen (path : Name) : Serv (Except Err Nat) := do
  match ← walkPath path with
  | .found _ file => return .ok file
  | .missing .. => return .error .notFound
  | .failed e => return .error e

/-- The free `struct File` becomes a file of that name. -/
def fillFile (f reqMode : Nat) (name : Name) : Serv Unit := do
  mark (.creates f reqMode)
  storeWord (typeAt f) (if reqMode = O_MKDIR then FTYPE_DIR else FTYPE_REG)
  storeList f (name ++ [0])

/-- If `dir_alloc_file` fails, the result of `walk_path` is returned. -/
def fileCreate (reqMode : Nat) (path : Name) : Serv (Except Err Nat) := do
  match ← walkPath path with
  | .found .. => return .error .fileExists
  | .failed e => return .error e
  | .missing dir name =>
    match ← dirAllocFile dir with
    | .error _ => return .error .notFound
    | .ok f =>
      fillFile f reqMode name
      return .ok f

/-! ## Sizes -/

/-- `panic_on(file_clear_block(f, bno))` -/
def clearOrPanic (f bno : Nat) : Serv Unit := do
  match ← fileClearBlock f bno with
  | .error _ => throw (.panic .clearBlock)
  | .ok () => return ()

/-- `n` blocks from `bno` on are cleared. -/
def clearBlocks (f : Nat) : Nat → Nat → Serv Unit
  | 0, _ => return ()
  | n + 1, bno => do
    clearOrPanic f bno
    clearBlocks f n (bno + 1)

def freeIndirect (f : Nat) : Serv Unit := do
  let b ← loadWord (indirectAt f)
  if b = 0 then
    return ()
  else
    mark (.clears f .index)
    freeBlock b
    storeWord (indirectAt f) 0

def fileTruncate (f newsize : Nat) : Serv Unit := do
  mark (.truncates f newsize)
  let old := roundBlocks (← loadWord (sizeAt f))
  let new := if newsize = 0 then 0 else roundBlocks newsize
  clearBlocks f (old - new) new
  if new ≤ NDIRECT then
    freeIndirect f
    setSize f newsize
  else
    setSize f newsize

/-- One turn of the loop of `file_flush`. -/
def flushBlock (f bno : Nat) : Serv Unit := do
  match ← fileMapBlock f bno false with
  | .error _ => return ()
  | .ok diskno => if (← get).blockIsDirty diskno then writeBlock diskno else return ()

def flushFrom (f : Nat) : Nat → Nat → Serv Unit
  | 0, _ => return ()
  | n + 1, bno => do
    flushBlock f bno
    flushFrom f n (bno + 1)

def fileFlush (f : Nat) : Serv Unit := do flushFrom f (roundBlocks (← loadWord (sizeAt f))) 0

/-- The directory of `f` is flushed if it is known. -/
def flushDir (f : Nat) : Serv Unit := do
  let dir ← loadWord (dirAt f)
  if dir = 0 then
    return ()
  else
    mark (.flushes dir)
    fileFlush dir

def shrinkFile (f newsize : Nat) : Serv Unit := do
  if (← loadWord (sizeAt f)) > newsize then fileTruncate f newsize else return ()

def fileSetSize (f newsize : Nat) : Serv Unit := do
  shrinkFile f newsize
  setSize f newsize
  flushDir f

/-- The loop of `fs_sync` from block `i` on, for `n` blocks. -/
def syncFrom : Nat → Nat → Serv Unit
  | 0, _ => return ()
  | n + 1, i => do
    if (← get).blockIsDirty i then
      writeBlock i
      syncFrom n (i + 1)
    else
      syncFrom n (i + 1)

def fsSync : Serv Unit := do syncFrom (← nblocks) 0

def fileClose (f : Nat) : Serv Unit := do
  fileFlush f
  flushDir f

def removeFile (f : Nat) : Serv Unit := do
  fileTruncate f 0
  mark (.unnames f)
  storeList f [0]
  fileFlush f
  flushDir f

def fileRemove (path : Name) (type : Nat) : Serv (Except Err Unit) := do
  match ← walkPath path with
  | .missing .. => return .error .notFound
  | .failed e => return .error e
  | .found _ f =>
    if (← loadWord (typeAt f)) = FTYPE_DIR ∧ type = 0 then
      return .error .isDir
    else
      removeFile f
      return .ok ()

end Mos.Fs
