import Mos.Kern.Syscall
import Mos.Lib.Bytes

/-!
# Loading a segment (`elfloader.c`, `load_icode_mapper`, `spawn_mapper`)

An error code that a callback returns ends `elf_load_seg`; it is a stop of the
program here. What a pointer points to is a function from offsets to bytes.
-/

namespace Mos

open Lib (Bytes)

/-! ## Frames as bytes -/

def frameBytes (g : WordIx → Word) : Bytes := fun i =>
  UInt8.ofNat ((g (Fin.ofNat 1024 (i / 4))).toNat / 256 ^ (i % 4))

def frameWords (b : Bytes) : WordIx → Word := fun j => BitVec.ofNat 32 (b.word (4 * j.val))

/-- `memcpy` of `len` bytes to `offset` in the frame `f`. -/
def memcpyFrame (f : Nat) (offset : Word) (src : Bytes) (len : Word) : M Unit := do
  if 4096 < offset.toNat + len.toNat then throw .wild
  modify fun m =>
    let bytes := (frameBytes (m.phys f)).copy offset.toNat src 0 len.toNat
    { m with phys := Function.update m.phys f (frameWords bytes) }

namespace Elf

/-! ## `elf_load_seg` -/

/-- The fields of `Elf32_Phdr` that `elf_load_seg` reads. -/
structure Phdr where
  pVaddr : Word
  pFilesz : Word
  pMemsz : Word
  pFlags : Word

def pfW : Word := 1 <<< 1

/-- `elf_mapper_t`, with the arguments `va`, `offset`, `perm`, `src` and `len`. -/
abbrev Mapper (ε σ : Type) := Word → Word → Word → Option Bytes → Word → EStateM ε σ Unit

def roundDown (a : Word) : Word := a &&& ~~~(pageSize - 1)

/-- `MIN` -/
def minSize (a b : Word) : Word := if a ≤ b then a else b

def Phdr.perm (ph : Phdr) : Word := if ph.pFlags &&& pfW ≠ 0 then pteV ||| pteD else pteV

section

variable {ε σ : Type} (mapPage : Mapper ε σ) (stuck : ε) (ph : Phdr) (bin : Bytes)

/-- Step 1, with a bound on the turns of the loop. -/
def loadBin : Nat → Word → EStateM ε σ Word
  | 0, _ => throw stuck
  | n + 1, i =>
    if i < ph.pFilesz then do
      mapPage (ph.pVaddr + i) 0 ph.perm (some fun k => bin (i.toNat + k))
        (minSize (ph.pFilesz - i) pageSize)
      loadBin n (i + pageSize)
    else pure i

/-- Step 2 -/
def loadBss : Nat → Word → EStateM ε σ Unit
  | 0, _ => throw stuck
  | n + 1, i =>
    if i < ph.pMemsz then do
      mapPage (ph.pVaddr + i) 0 ph.perm none (minSize (ph.pMemsz - i) pageSize)
      loadBss n (i + pageSize)
    else pure ()

/-- `elf_load_seg(ph, bin, map_page, data)`; its loops take `n` turns at most. -/
def elfLoadSeg (n : Nat) : EStateM ε σ Unit := do
  let offset := ph.pVaddr - roundDown ph.pVaddr
  if offset ≠ 0 then
    mapPage ph.pVaddr offset ph.perm (some bin) (minSize ph.pFilesz (pageSize - offset))
  let i ← loadBin mapPage stuck ph bin n
    (if offset ≠ 0 then minSize ph.pFilesz (pageSize - offset) else 0)
  loadBss mapPage stuck ph n i

end

/-! ## The callbacks -/

/-- `load_icode_mapper` for the environment with this directory and ASID. -/
def loadIcodeMapper (pgdir asid : Nat) : Mapper Fault Mem := fun va offset perm src len => do
  let p ← pageAlloc
  match src with
  | some src =>
    let kva ← kaddr (page2pa p)
    memcpyFrame kva offset src len
  | none => pure ()
  pageInsert pgdir asid p va perm

/-- The call has returned an error code. -/
def returned (e : Stop) : Bool := (errnoValue e).isSome

/-- `spawn_mapper`, as the system calls of the parent and its stores to the page at `UTEMP`. -/
def spawnMapper (child : Word) : Mapper Stop Kernel := fun va offset perm src len => do
  let _ ← sysMemAlloc child va perm
  match src with
  | none => pure ()
  | some src =>
    let _ ← Lib.cleanup (sysMemMap child va 0 utemp (perm ||| pteD)) returned
      (Lib.handle (sysMemUnmap child va *> pure ()) returned (pure ()))
    match ← onMem (writable (← get).curPgdir (utemp + offset)) with
    | some f => onMem (memcpyFrame f offset src len)
    | none => throw .tlbMod
    let _ ← sysMemUnmap 0 utemp

/-- The callbacks of `load_icode` and of `spawn`, with their `data`. -/
inductive Loader where
  | loadIcode (e : EnvIx)
  | spawn (child : Word)

def Loader.mapPage : Loader → Mapper Stop Kernel
  | .loadIcode e => fun va offset perm src len => do
    let env := (← get).envs e
    onMem (loadIcodeMapper env.envPgdir env.envAsid va offset perm src len)
  | .spawn child => spawnMapper child

/-- Loads the segment with the callback; a loop that does not end is `wild`. -/
def Loader.load (l : Loader) (ph : Phdr) (bin : Bytes) (n : Nat) : K Unit :=
  elfLoadSeg l.mapPage .wild ph bin n

/-- The kernel when the segment is loaded. -/
def Loader.loaded (l : Loader) (ph : Phdr) (bin : Bytes) (n : Nat) (k : Kernel) : Option Kernel :=
  match l.load ph bin n k with
  | .ok _ k' => some k'
  | .error _ _ => none

end Elf

end Mos
