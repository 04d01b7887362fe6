import Mos.Fs.Serve
import Mos.Lib.Program

/-!
# Open files of a process (`user/lib/file.c`, `user/lib/fd.c`, `memcpy`)

Each descriptor has a page in the descriptor table and a window of 4 MB in which the data of
the file is mapped. Addresses below `ULIM` belong to the process, and a page that is not
mapped reads as the zeros the kernel gives at the first access.
-/

namespace Mos.User

open Fs (Err MAXFILESIZE DEVFILE_ID PTE_D PTE_LIBRARY)
open Lib (Bytes)

def ULIM : Nat := 0x80000000
def PTMAP : Nat := 4096
def PDMAP : Nat := 4 * 1024 * 1024
def MAXFD : Nat := 32
def FILEBASE : Nat := 0x60000000
def FDTABLE : Nat := FILEBASE - PDMAP
def PTE_V : Nat := 0x0008 <<< 6

/-- An address that a process may use. -/
structure UserPtr where
  va : Nat
  below : va < ULIM

/-- What a call does to the memory: a byte is copied, a page is mapped or unmapped. -/
inductive Access where
  | copy (src dst : Nat)
  | map (va : Nat)
  | unmap (va : Nat)
  deriving DecidableEq, Repr

/-- The `n` bytes from `src` on are copied to `dst`. -/
def copies (src dst n : Nat) : List Access := (List.range n).map fun k => .copy (src + k) (dst + k)

structure Client where
  mem : Bytes
  /-- `vpt[va / PTMAP] & PTE_V` -/
  mapped : Nat → Bool
  log : List Access

inductive Stop where
  /-- An address of the kernel or an unaligned word. -/
  | fault
  | panic
  deriving DecidableEq, Repr

abbrev Program := EStateM Stop Client

/-! ## `memcpy` -/

/-- Bytes are loaded together and then stored. -/
def Client.copy (s : Client) (dst src n : Nat) : Client where
  mem := s.mem.copy dst s.mem src n
  mapped p := s.mapped p || p == src / PTMAP || p == dst / PTMAP
  log := s.log ++ copies src dst n

/-- `*(char *)dst++ = *(char *)src++` -/
def copyByte (dst src : Nat) : Program Unit := do
  if src < ULIM ∧ dst < ULIM then modify (·.copy dst src 1) else throw .fault

/-- `while (go(dst) && dst < max)`, on bytes. -/
def copyBytes (go : Nat → Bool) (max dst src : Nat) : Program (Nat × Nat) := do
  if go dst ∧ dst < max then
    copyByte dst src
    copyBytes go max (dst + 1) (src + 1)
  else
    return (dst, src)
termination_by max - dst

/-- `while (dst + 4 <= max)`, on words. -/
def copyWords (max dst src : Nat) : Program (Nat × Nat) := do
  if (dst + 4) % 2 ^ 32 ≤ max then
    if h : dst % 4 = 0 ∧ src % 4 = 0 ∧ src < ULIM ∧ dst < ULIM then
      modify (·.copy dst src 4)
      copyWords max (dst + 4) (src + 4)
    else
      throw .fault
  else
    return (dst, src)
termination_by ULIM - dst

/-- `while (dst < max)`, on bytes. -/
def copyRest (max dst src : Nat) : Program Unit := do
  let _ ← copyBytes (fun _ => true) max dst src

def memcpy (dst src n : Nat) : Program Unit := do
  let max := (dst + n) % 2 ^ 32
  if src % 4 ≠ dst % 4 then
    copyRest max dst src
  else
    let (dst, src) ← copyBytes (fun d => d % 4 != 0) max dst src
    let (dst, src) ← copyWords max dst src
    copyRest max dst src

/-! ## Descriptors -/

/-- `INDEX2FD` -/
def index2fd (i : Nat) : Nat := FDTABLE + i * PTMAP

/-- `INDEX2DATA` -/
def index2data (i : Nat) : Nat := FILEBASE + i * PDMAP

def fd2num (fd : Nat) : Nat := (fd - FDTABLE) / PTMAP

def fd2data (fd : Nat) : Nat := index2data (fd2num fd)

/-- `fd->fd_dev_id` -/
def devIdAt (fd : Nat) : Nat := fd

/-- `f->f_fileid` -/
def fileidAt (fd : Nat) : Nat := fd + 12

/-- `f->f_file.f_size` -/
def fsizeAt (fd : Nat) : Nat := fd + 144

def fdLookup (fdnum : Nat) : Program (Except Err Nat) := do
  if fdnum ≥ MAXFD then
    return .error .inval
  else if (← get).mapped (index2fd fdnum / PTMAP) then
    return .ok (index2fd fdnum)
  else
    return .error .inval

def loadWord (va : Nat) : Program Nat := do return (← get).mem.word va

def storeWord (va v : Nat) : Program Unit := modify fun s => { s with mem := s.mem.setWord va v }

/-! ## Requests -/

/-- What `fsipc` returns, with the permission and the page that were received. -/
structure Answer where
  val : Int
  perm : Nat
  page : Option Bytes

/-- The file server's answers to the requests of one call, in which no request is made twice. -/
structure Answers where
  map (fileid offset : Nat) : Answer
  setSize (fileid size : Nat) : Int

def Client.map (s : Client) (va : Nat) (page : Bytes) : Client where
  mem := s.mem.copy va page 0 PTMAP
  mapped := Function.update s.mapped (va / PTMAP) true
  log := s.log ++ [.map va]

def Client.unmap (s : Client) (va : Nat) : Client where
  mem := s.mem.copy va (fun _ => 0) 0 PTMAP
  mapped := Function.update s.mapped (va / PTMAP) false
  log := s.log ++ [.unmap va]

/-- The page of an answer is mapped. -/
def receive (a : Answer) (dstva : Nat) : Program Unit :=
  match a.page with
  | some page => modify (·.map dstva page)
  | none => return ()

/-- `(perm & ~(PTE_D | PTE_LIBRARY)) == PTE_V` -/
def permOk (perm : Nat) : Bool := perm &&& (2 ^ 32 - 1 - (PTE_D ||| PTE_LIBRARY)) == PTE_V

variable (srv : Answers)

def fsipcMap (fileid offset dstva : Nat) : Program Int := do
  let a := srv.map fileid offset
  receive a dstva
  if a.val < 0 then
    return a.val
  else if permOk a.perm then
    return 0
  else
    throw .panic

/-! ## Files -/

/-- `ROUND(a, PTMAP)` -/
def round (a : Nat) : Nat := (a + (PTMAP - 1)) % 2 ^ 32 / PTMAP * PTMAP

/-- The number of turns of a loop from `a` to `b` over pages. -/
def turns (a b : Nat) : Nat := (round b - round a) / PTMAP

/-- The first loop of `ftruncate` from `i` on, for `n` turns. -/
def mapFrom (fileid oldsize va : Nat) : Nat → Nat → Program Int
  | 0, _ => return 0
  | n + 1, i => do
    let r ← fsipcMap srv fileid i (va + i)
    if r < 0 then
      let r' := srv.setSize fileid oldsize
      return if r' < 0 then r' else r
    else
      mapFrom fileid oldsize va n (i + PTMAP)

/-- The second loop of `ftruncate` from `i` on, for `n` turns. -/
def unmapFrom (va : Nat) : Nat → Nat → Program Unit
  | 0, _ => return ()
  | n + 1, i => do
    modify (·.unmap (va + i))
    unmapFrom va n (i + PTMAP)

/-- The end of `ftruncate`, after the server has set the size. -/
def remap (fileid oldsize size va : Nat) : Program Int := do
  let r ← mapFrom srv fileid oldsize va (turns oldsize size) (round oldsize)
  if r < 0 then
    return r
  else
    unmapFrom va (turns size oldsize) (round size)
    return 0

def ftruncate (fdnum size : Nat) : Program Int := do
  if size > MAXFILESIZE then
    return Err.noDisk.code
  else
    match ← fdLookup fdnum with
    | .error e => return e.code
    | .ok fd =>
      if (← loadWord (devIdAt fd)) ≠ DEVFILE_ID then
        return Err.inval.code
      else
        let fileid ← loadWord (fileidAt fd)
        let oldsize ← loadWord (fsizeAt fd)
        storeWord (fsizeAt fd) size
        if srv.setSize fileid size < 0 then
          return srv.setSize fileid size
        else
          remap srv fileid oldsize size (fd2data fd)

/-- An unsigned number that is returned as an `int`. -/
def toInt (n : Nat) : Int := if n < 2 ^ 31 then n else n - 2 ^ 32

def fileRead (fd buf n offset : Nat) : Program Int := do
  let size ← loadWord (fsizeAt fd)
  if offset > size then
    return 0
  else
    let n := if (offset + n) % 2 ^ 32 > size then size - offset else n
    memcpy buf ((fd2data fd + offset) % 2 ^ 32) n
    return toInt n

/-- The file grows to `tot` bytes if it is shorter. -/
def growTo (fd tot : Nat) : Program Int := do
  if tot > (← loadWord (fsizeAt fd)) then ftruncate srv (fd2num fd) tot else return 0

def fileWrite (fd buf n offset : Nat) : Program Int := do
  let tot := (offset + n) % 2 ^ 32
  if tot > MAXFILESIZE then
    return Err.noDisk.code
  else
    let r ← growTo srv fd tot
    if r < 0 then
      return r
    else
      memcpy ((fd2data fd + offset) % 2 ^ 32) buf n
      return toInt n

end Mos.User
