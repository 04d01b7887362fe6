import Mathlib.Data.List.FinRange
import Mos.Kern.Pmap

/-!
# Environments (`env.c`, `sched.c`)

The lines printed on the console are left out.
-/

namespace Mos

/-! ## The status register -/

def statusIm7 : Word := 0x8000
def statusUm : Word := 0x0010
def statusR0 : Word := 0x0008
def statusErl : Word := 0x0004
def statusExl : Word := 0x0002
def statusIe : Word := 0x0001

/-- `eret` leaves the error level first, then the exception level. -/
def eret (st : Word) : Word :=
  if st &&& statusErl ≠ 0 then st &&& ~~~statusErl else st &&& ~~~statusExl

/-- The end of `RESTORE_ALL`: the frame's status word, then `eret`. -/
def restoreAll (tf : Trapframe) : K Unit := modify fun k => { k with status := eret tf.cp0Status }

/-! ## Identifiers -/

/-- The `i`th bit of `asid_bitmap`. -/
def asidAlloc : K Nat := do
  let bitmap := (← get).asidBitmap
  match (List.range nasid).find? fun i => !bitmap i with
  | some i =>
    modify fun k => { k with asidBitmap := Function.update k.asidBitmap i true }
    pure i
  | none => throw (.errno .noFreeEnv)

def asidFree (i : Nat) : K Unit := modify fun k =>
  { k with asidBitmap := Function.update k.asidBitmap i false }

def mkenvid (e : EnvIx) : K Word := do
  modify fun k => { k with mkenvidCount := k.mkenvidCount + 1 }
  pure ((← get).mkenvidCount <<< 11 ||| BitVec.ofNat 32 e.val)

def envid2env (envid : Word) (checkperm : Bool) : K EnvIx := do
  if envid = 0 then
    curenvPtr
  else
    let e := envx envid
    let env := (← get).envs e
    if env.envStatus = .free ∨ env.envId ≠ envid then throw (.errno .badEnv)
    if checkperm then
      let c ← curenvPtr
      let curId := ((← get).envs c).envId
      if env.envId ≠ curId ∧ env.envParentId ≠ curId then throw (.errno .badEnv)
    pure e

/-! ## Creation -/

/-- Entries `PDX(UTOP)` to `PDX(UVPT) - 1` come from the template, entry `PDX(UVPT)` maps the
directory itself. -/
def setupDir (base dir : WordIx → Word) (pgdir : Nat) : WordIx → Word := fun i =>
  if i = pdx uvpt then page2pa pgdir ||| pteV
  else if pdx utop ≤ i ∧ i < pdx uvpt then base i
  else dir i

def envSetupVm (e : EnvIx) : K Unit := do
  let p ← onMem pageAlloc
  onMem (modify fun m => m.setRef p (m.ppRef p + 1))
  let pgdir ← onMem (kaddr (page2pa p))
  updEnv e fun env => { env with envPgdir := pgdir }
  let base := (← get).basePgdir
  onMem (modify fun m =>
    let dir := setupDir (m.phys base) (m.phys pgdir) pgdir
    { m with phys := Function.update m.phys pgdir dir })

/-- The status word a new environment starts with. -/
def initStatus : Word := statusIm7 ||| statusIe ||| statusExl ||| statusUm

/-- Steps 2 to 4 of `env_alloc`: everything but the removal from the free list. -/
def envSetup (e : EnvIx) (parentId : Word) : K Unit := do
  envSetupVm e
  updEnv e fun env => { env with envUserTlbModEntry := 0, envRuns := 0 }
  let asid ← asidAlloc
  updEnv e fun env => { env with envAsid := asid }
  let id ← mkenvid e
  updEnv e fun env => { env with envId := id, envParentId := parentId }
  updEnv e fun env =>
    { env with envTf := { env.envTf.setReg 29 (ustacktop - 4 - 4) with cp0Status := initStatus } }

def envAlloc (parentId : Word) : K EnvIx := do
  match (← get).envFreeList with
  | [] => throw (.errno .noFreeEnv)
  | e :: _ =>
    envSetup e parentId
    modify fun k => { k with envFreeList := k.envFreeList.erase e }
    pure e

/-- A page that `elf_load_seg` hands to `load_icode_mapper`. Programs are linked below `UTOP`. -/
structure ImagePage where
  va : Word
  writable : Bool
  content : WordIx → Word
  va_lt : va < utop

/-- `PTE_V`, and `PTE_D` for a segment with `PF_W`. -/
def ImagePage.perm (ip : ImagePage) : Word := if ip.writable then pteV ||| pteD else pteV

/-- A program linked into the kernel, as `load_icode` sees it. -/
structure Image where
  pages : List ImagePage
  entry : Word

def loadIcodeMapper (pgdir asid : Nat) (ip : ImagePage) : M Unit := do
  let p ← pageAlloc
  let kva ← kaddr (page2pa p)
  modify fun m => { m with phys := Function.update m.phys kva ip.content }
  pageInsert pgdir asid p ip.va ip.perm

def loadIcode (e : EnvIx) (image : Image) : K Unit := do
  let env := (← get).envs e
  onMem (image.pages.forM fun ip =>
    panicOn "'elf_load_seg(...)' returned" (loadIcodeMapper env.envPgdir env.envAsid ip))
  updEnv e fun env => { env with envTf := { env.envTf with cp0Epc := image.entry } }

/-- `e` is not initialised when `env_alloc` fails. -/
def uninitialised : Stop → Stop
  | .errno _ => .wild
  | e => e

/-- The result of `env_alloc` is not looked at. -/
def envCreate (image : Image) (priority : Word) : K EnvIx := do
  let e ← Lib.mapStop uninitialised (envAlloc 0)
  updEnv e fun env => { env with envPri := priority }
  updEnv e fun env => { env with envStatus := .runnable }
  loadIcode e image
  schedInsertHead e
  pure e

/-! ## Running and scheduling -/

/-- Step 1 of `env_run`. -/
def envSave : K Unit := do
  match (← get).curenv with
  | some c =>
    let kstack := (← get).kstack
    updEnv c fun env => { env with envTf := kstack }
  | none => pure ()

/-- Steps 2 to 4 of `env_run`, the last one with `env_pop_tf`. -/
def envEnter (e : EnvIx) : K Unit := do
  modify fun k => { k with curenv := some e }
  updEnv e fun env => { env with envRuns := env.envRuns + 1 }
  modify fun k => { k with curPgdir := (k.envs e).envPgdir }
  modify fun k => { k with entryHiAsid := (k.envs e).envAsid }
  restoreAll ((← get).envs e).envTf
  throw .resched

def envRun (e : EnvIx) : K Unit := do
  if ((← get).envs e).envStatus ≠ .runnable then
    throw (.panic "assertion failed: e->env_status == ENV_RUNNABLE")
  envSave
  envEnter e

/-- Moves `curenv`, if it still runs, to the tail. -/
def schedRotate : K Unit := do
  match (← get).curenv with
  | some e =>
    if ((← get).envs e).envStatus = .runnable then
      schedRemove e
      schedInsertTail e
  | none => pure ()

/-- The head of the list, which gets a new slice. -/
def schedFirst : K EnvIx := do
  match (← get).envSchedList.first with
  | none => throw (.panic "no runnable envs")
  | some e =>
    modify fun k => { k with count := (k.envs e).envPri.toInt }
    pure e

def schedPick : K EnvIx := do
  schedRotate
  schedFirst

def schedule (yield : Bool) : K Unit := do
  let k ← get
  let e ← if yield || k.count == 0 || !k.curRunnable then schedPick else curenvPtr
  modify fun k => { k with count := k.count - 1 }
  envRun e

/-! ## Destruction -/

/-- The page directory entries that `env_free` visits. -/
def userPdes : List WordIx := (List.finRange 1024).filter (· < pdx utop)

/-- One turn of the outer loop of `env_free`. -/
def envFreeTable (pgdir asid : Nat) (pdeno : WordIx) : M Unit := do
  let pde ← readPte (pgdir, pdeno)
  if pteValid pde then
    let pt ← kaddr (pteAddr pde)
    (List.finRange 1024).forM fun pteno => do
      if pteValid (← readPte (pt, pteno)) then pageRemove pgdir asid (pageVa pdeno pteno)
    writePte (pgdir, pdeno) 0
    let pp ← pa2page (pteAddr pde)
    pageDecref pp
    tlbInvalidate asid (uvpt + BitVec.ofNat 32 pdeno.val <<< 12)

/-- The memory part of `env_free`, up to the release of the directory. -/
def envFreeVm (pgdir asid : Nat) : M Unit := do
  userPdes.forM (envFreeTable pgdir asid)
  let pp ← pa2page (page2pa pgdir)
  pageDecref pp

/-- The first half of `env_free`: the address space and the ASID. -/
def envRelease (pgdir asid : Nat) : K Unit := do
  onMem (envFreeVm pgdir asid)
  asidFree asid
  onMem (tlbInvalidate asid (uvpt + BitVec.ofNat 32 (pdx uvpt).val <<< 12))

def envFree (e : EnvIx) : K Unit := do
  let env := (← get).envs e
  envRelease env.envPgdir env.envAsid
  updEnv e fun env => { env with envStatus := .free }
  modify fun k => { k with envFreeList := e :: k.envFreeList }
  schedRemove e

def envDestroy (e : EnvIx) : K Unit := do
  envFree e
  if (← get).curenv = some e then
    modify fun k => { k with curenv := none }
    schedule true

/-! ## Jobs -/

def updJob (i : Nat) (f : Job → Job) : K Unit := modify fun k =>
  { k with jobs := Function.update k.jobs i (f (k.jobs i)) }

/-- The first entry of the table that the loops of the job functions stop at. -/
def findJob (p : Job → Bool) : K (Option Nat) := do
  let k ← get
  pure ((List.range k.jobCnt).find? fun i => p (k.jobs i))

/-- `jobs[jobCnt]` and `strcpy` into its `cmd[1024]` are not checked. -/
def envCreateJob (envid : Word) (cmd : List UInt8) : K Unit := do
  let i := (← get).jobCnt
  if njobs ≤ i ∨ 1024 ≤ cmd.length then throw .wild
  updJob i fun _ =>
    { envid := envid, jobStatus := 1, cmd := cmd, jobId := BitVec.ofNat 32 i + 1 }
  modify fun k => { k with jobCnt := k.jobCnt + 1 }

def envSetJobDone (envid : Word) : K Unit := do
  match ← findJob fun j => j.envid == envid with
  | some i => updJob i fun j => { j with jobStatus := 0 }
  | none => pure ()

def envFgJob (jobId : Word) : K Word := do
  match ← findJob fun j => j.jobId == jobId with
  | some i => pure ((← get).jobs i).envid
  | none => pure (-1)

def envKillJob (jobId : Word) : K Unit := do
  match ← findJob fun j => j.jobId == jobId with
  | some i =>
    let e := envx ((← get).jobs i).envid
    if ((← get).envs e).envStatus = .runnable then
      envDestroy e
      updJob i fun j => { j with jobStatus := 0 }
  | none => pure ()

end Mos
