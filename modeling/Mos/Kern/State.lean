import Mos.Kern.Mmu
import Mos.Lib.Program
import Mos.Lib.TailQueue

/-!
# The kernel's data (`env.h`, `pmap.h`, `trap.h`, `error.h`)

The state is split as the kernel's functions use it: `Mem` is what `pmap.c` and
`tlbex.c` change, `Kernel` adds the environments, the lists and the processor's
registers. `M` and `K` are the functions over them.
-/

namespace Mos

open Lib (TailQueue)

/-! ## How a kernel function ends -/

/-- The error codes of `error.h` that the kernel returns. -/
inductive Errno where
  | badEnv | inval | noMem | noSys | noFreeEnv | ipcNotRecv
  deriving DecidableEq, Repr

/-- The value a function returns for the error, `-E_...`. -/
def Errno.code : Errno → Word
  | .badEnv => -2
  | .inval => -3
  | .noMem => -4
  | .noSys => -5
  | .noFreeEnv => -6
  | .ipcNotRecv => -7

/-- A function that does not reach its end: it returns an error, it panics, or it writes
outside the object it works on. -/
inductive Fault where
  | errno (e : Errno)
  | panic (msg : String)
  | wild
  deriving DecidableEq, Repr

/-- In the rest of the kernel a function can also leave for an environment and never return
(`env_run`), or be interrupted for good by a TLB Mod exception of its own. -/
inductive Stop where
  | fault (f : Fault)
  | resched
  | tlbMod
  deriving DecidableEq, Repr

namespace Stop

@[match_pattern] abbrev errno (e : Errno) : Stop := .fault (.errno e)
@[match_pattern] abbrev panic (msg : String) : Stop := .fault (.panic msg)
@[match_pattern] abbrev wild : Stop := .fault .wild

end Stop

/-- A null pointer is an address below `UTEMP`: the page fault it raises panics
in `passive_alloc`. -/
def nullPointer : Fault := .panic "address too low"

/-! ## Memory -/

/-- A TLB entry: EntryHi and the two halves of the pair of pages. -/
structure TlbEntry where
  hi : Word
  lo0 : Word
  lo1 : Word

structure Mem where
  npage : Nat
  ppRef : Nat → BitVec 16
  pageFreeList : List Nat
  phys : Nat → WordIx → Word
  tlb : List TlbEntry

abbrev M := EStateM Fault Mem

namespace Mem

@[simps] def store (m : Mem) (f : Nat) (i : WordIx) (w : Word) : Mem :=
  { m with phys := Function.update m.phys f (Function.update (m.phys f) i w) }

@[simps] def setRef (m : Mem) (pp : Nat) (n : BitVec 16) : Mem :=
  { m with ppRef := Function.update m.ppRef pp n }

end Mem

/-! ## Environments -/

instance neZero_regs : NeZero 32 := ⟨by decide⟩

structure Trapframe where
  regs : Fin 32 → Word
  cp0Status : Word
  hi : Word
  lo : Word
  cp0Badvaddr : Word
  cp0Cause : Word
  cp0Epc : Word

/-- All the bytes zero. -/
def Trapframe.zero : Trapframe := ⟨fun _ => 0, 0, 0, 0, 0, 0, 0⟩

@[simps] def Trapframe.setReg (tf : Trapframe) (r : Fin 32) (v : Word) : Trapframe :=
  { tf with regs := Function.update tf.regs r v }

inductive EnvStatus where
  | free | runnable | notRunnable
  deriving DecidableEq, Repr

def nenv : Nat := 1024

/-- A slot of `envs`. -/
abbrev EnvIx := Fin 1024

/-- `ENVX` -/
def envx (envid : Word) : EnvIx := Fin.ofNat 1024 envid.toNat

/-- `struct Env`. The page directory is named by its frame; the two link fields
are in the lists. -/
structure Env where
  envTf : Trapframe
  envId : Word
  envAsid : Nat
  envParentId : Word
  envStatus : EnvStatus
  envPgdir : Nat
  envPri : Word
  envIpcValue : Word
  envIpcFrom : Word
  envIpcRecving : Word
  envIpcDstva : Word
  envIpcPerm : Word
  envUserTlbModEntry : Word
  envRuns : Word
  waitingReturnValue : Word
  returnValue : Word

def Env.zero : Env where
  envTf := .zero
  envId := 0
  envAsid := 0
  envParentId := 0
  envStatus := .free
  envPgdir := 0
  envPri := 0
  envIpcValue := 0
  envIpcFrom := 0
  envIpcRecving := 0
  envIpcDstva := 0
  envIpcPerm := 0
  envUserTlbModEntry := 0
  envRuns := 0
  waitingReturnValue := 0
  returnValue := 0

structure Job where
  jobId : Word
  jobStatus : Word
  envid : Word
  cmd : List UInt8

def Job.zero : Job := ⟨0, 0, 0, []⟩

/-- `jobs` has 32 entries. -/
def njobs : Nat := 32

/-! ## The kernel -/

/-- The variables of the kernel and the processor's registers it lives with:
`status` is CP0 Status, `entryHiAsid` the ASID in EntryHi, `kstack` the frame
below `KSTACKTOP`. `schedMisused` is not in the source: it records whether a node
was ever removed from `env_sched_list` while it was not linked there, or inserted
while it was. -/
structure Kernel where
  mem : Mem
  envs : EnvIx → Env
  curenv : Option EnvIx
  envFreeList : List EnvIx
  envSchedList : TailQueue EnvIx
  basePgdir : Nat
  asidBitmap : Nat → Bool
  mkenvidCount : Word
  jobs : Nat → Job
  jobCnt : Nat
  count : Int
  curPgdir : Nat
  kstack : Trapframe
  status : Word
  entryHiAsid : Nat
  schedMisused : Bool

abbrev K := EStateM Stop Kernel

namespace Kernel

@[simps] def setEnv (k : Kernel) (e : EnvIx) (f : Env → Env) : Kernel :=
  { k with envs := Function.update k.envs e (f (k.envs e)) }

@[simps] def setMem (k : Kernel) (m : Mem) : Kernel := { k with mem := m }

/-- `e && e->env_status == ENV_RUNNABLE` for `curenv`. -/
def curRunnable (k : Kernel) : Bool :=
  match k.curenv with
  | some e => (k.envs e).envStatus == .runnable
  | none => false

end Kernel

/-- A function of `pmap.c` or `tlbex.c`, called from the rest of the kernel. -/
def onMem {α : Type} (x : M α) : K α := Lib.zoom Kernel.mem Kernel.setMem Stop.fault x

def updEnv (e : EnvIx) (f : Env → Env) : K Unit := modify fun k => k.setEnv e f

/-- `curenv->...` -/
def curenvPtr : K EnvIx := do
  match (← get).curenv with
  | some e => pure e
  | none => throw (.fault nullPointer)

/-- `((struct Trapframe *)KSTACKTOP - 1)->regs[r] = v` -/
def setKstackReg (r : Fin 32) (v : Word) : K Unit :=
  modify fun k => { k with kstack := k.kstack.setReg r v }

/-! ## `env_sched_list` -/

def schedInsertHead (e : EnvIx) : K Unit := modify fun k =>
  { k with
    envSchedList := k.envSchedList.insertHead e
    schedMisused := k.schedMisused || k.envSchedList.linked nenv e }

def schedInsertTail (e : EnvIx) : K Unit := modify fun k =>
  { k with
    envSchedList := k.envSchedList.insertTail e
    schedMisused := k.schedMisused || k.envSchedList.linked nenv e }

def schedRemove (e : EnvIx) : K Unit := do
  modify fun k =>
    { k with schedMisused := k.schedMisused || !k.envSchedList.linked nenv e }
  match (← get).envSchedList.remove e with
  | some q => modify fun k => { k with envSchedList := q }
  | none => throw (.fault nullPointer)

end Mos
