import Mos.Kern.Env

/-!
# System calls (`syscall_all.c`) and the TLB Mod handler (`tlbex.c`)

What the kernel reads from user memory, from a device or from the console during
a call is a parameter of the call (`Inputs`); a page fault on such a read is the
step `tlbRefill` taken before the call. Output to the console and to devices is
left out.
-/

namespace Mos

/-- The data a system call finds outside the kernel: the arguments on the user
stack, the frame and the string its pointers point to, a character or a word from
a device, the kernel's own registers at a nested exception, and the `$v0` that a
function without a return value leaves behind. -/
structure Inputs where
  arg4 : Word
  arg5 : Word
  tf : Trapframe
  cmd : List UInt8
  device : Word
  kregs : Trapframe
  v0 : Word

/-! ## Stores of the kernel to user memory -/

def sizeofTrapframe : Word := 152

/-- The words of a frame in memory order. -/
def Trapframe.word (tf : Trapframe) (i : Fin 38) : Word :=
  if h : i.val < 32 then tf.regs ⟨i.val, h⟩
  else match i.val with
    | 32 => tf.cp0Status
    | 33 => tf.hi
    | 34 => tf.lo
    | 35 => tf.cp0Badvaddr
    | 36 => tf.cp0Cause
    | _ => tf.cp0Epc

/-- A store through the user address `va`, whose page is faulted in first. A page that may not be
written raises a TLB Mod exception. -/
def kernelStore (va : Word) (size : Nat) (f : Word → Word) : K Unit := do
  if va.toNat % size ≠ 0 then throw (.panic "Unknown ExcCode")
  let k ← get
  onMem (doTlbRefill k.curPgdir va k.entryHiAsid)
  match ← onMem (writable k.curPgdir va) with
  | some pp => onMem (modify fun m => m.store pp (wordIx va) (f (m.phys pp (wordIx va))))
  | none => throw .tlbMod

def storeFrame (va : Word) (tf : Trapframe) : K Unit :=
  (List.finRange 38).forM fun i =>
    kernelStore (va + BitVec.ofNat 32 (4 * i.val)) 4 fun _ => tf.word i

/-- `do_tlb_mod`, as the new contents of the frame it is given. -/
def doTlbMod (tf : Trapframe) : K Trapframe := do
  let sp := if tf.regs 29 < ustacktop ∨ uxstacktop ≤ tf.regs 29 then uxstacktop else tf.regs 29
  let sp := sp - sizeofTrapframe
  storeFrame sp tf
  let _ ← onMem (pageLookup (← get).curPgdir tf.cp0Badvaddr)
  let c ← curenvPtr
  let entry := ((← get).envs c).envUserTlbModEntry
  if entry = 0 then throw (.panic "TLB Mod but no user handler registered")
  pure { (tf.setReg 4 sp).setReg 29 (sp - 4) with cp0Epc := entry }

/-! ## The calls -/

def isIllegalVa (va : Word) : Bool := va < utemp || utop ≤ va

def isIllegalVaRange (va len : Word) : Bool :=
  len != 0 && (va + len < va || va < utemp || utop < va + len)

def sysPrintCons (s num : Word) : K Word := do
  if utop < s + num ∨ utop ≤ s ∨ s + num < s then throw (.errno .inval)
  pure 0

def sysGetenvid : K Word := do
  pure ((← get).envs (← curenvPtr)).envId

def sysYield : K Word := do
  schedule true
  pure 0

def sysEnvDestroy (envid : Word) : K Word := do
  let e ← envid2env envid true
  envDestroy e
  pure 0

def sysSetTlbModEntry (envid func : Word) : K Word := do
  let e ← envid2env envid true
  updEnv e fun env => { env with envUserTlbModEntry := func }
  pure 0

def sysMemAlloc (envid va perm : Word) : K Word := do
  if isIllegalVa va then throw (.errno .inval)
  let e ← envid2env envid true
  let pp ← onMem pageAlloc
  let env := (← get).envs e
  onMem (pageInsert env.envPgdir env.envAsid pp va perm)
  pure 0

def sysMemMap (srcid srcva dstid dstva perm : Word) : K Word := do
  if isIllegalVa srcva ∨ isIllegalVa dstva then throw (.errno .inval)
  let src ← envid2env srcid true
  let dst ← envid2env dstid true
  let srcenv := (← get).envs src
  let dstenv := (← get).envs dst
  match ← onMem (pageLookup srcenv.envPgdir srcva) with
  | none => throw (.errno .inval)
  | some (pp, _) =>
    onMem (pageInsert dstenv.envPgdir dstenv.envAsid pp dstva perm)
    pure 0

def sysMemUnmap (envid va : Word) : K Word := do
  if isIllegalVa va then throw (.errno .inval)
  let e ← envid2env envid true
  let env := (← get).envs e
  onMem (pageRemove env.envPgdir env.envAsid va)
  pure 0

def sysExofork : K Word := do
  let c ← curenvPtr
  let e ← envAlloc ((← get).envs c).envId
  let kstack := (← get).kstack
  updEnv e fun env => { env with envTf := kstack }
  updEnv e fun env => { env with envTf := env.envTf.setReg 2 0 }
  updEnv e fun env => { env with envStatus := .notRunnable }
  let pri := ((← get).envs c).envPri
  updEnv e fun env => { env with envPri := pri }
  pure ((← get).envs e).envId

/-- `ENV_RUNNABLE` is 1 and `ENV_NOT_RUNNABLE` is 2. -/
def toStatus (status : Word) : Option EnvStatus :=
  if status = 1 then some .runnable
  else if status = 2 then some .notRunnable
  else none

def sysSetEnvStatus (envid status : Word) : K Word := do
  match toStatus status with
  | none => throw (.errno .inval)
  | some st =>
    let e ← envid2env envid true
    if ((← get).envs e).envStatus ≠ st then
      if st = .runnable then schedInsertTail e else schedRemove e
    updEnv e fun env => { env with envStatus := st }
    pure 0

/-- `content` is the frame at the address `tf`. -/
def sysSetTrapframe (envid tf : Word) (content : Trapframe) : K Word := do
  if isIllegalVaRange tf sizeofTrapframe then throw (.errno .inval)
  let e ← envid2env envid true
  if (← get).curenv = some e then
    modify fun k => { k with kstack := content }
    pure (content.regs 2)
  else
    updEnv e fun env => { env with envTf := content }
    pure 0

def sysPanic : K Word := throw (.panic "sys_panic")

/-- What `sys_ipc_recv` and `sys_recv_return_value` end with: `curenv` leaves the list of
runnable environments and another one runs. -/
def blockCurenv : K Word := do
  let c ← curenvPtr
  updEnv c fun env => { env with envStatus := .notRunnable }
  schedRemove c
  setKstackReg 2 0
  schedule true
  pure 0

def sysIpcRecv (dstva : Word) : K Word := do
  if dstva ≠ 0 ∧ isIllegalVa dstva then throw (.errno .inval)
  let c ← curenvPtr
  updEnv c fun env => { env with envIpcRecving := 1 }
  updEnv c fun env => { env with envIpcDstva := dstva }
  blockCurenv

def sysRecvReturnValue : K Word := do
  let c ← curenvPtr
  updEnv c fun env => { env with waitingReturnValue := 1 }
  blockCurenv

/-- Step 6 of the two sends: the page at `srcva` in `curenv` goes to `env_ipc_dstva` in `e`. -/
def mapSent (e : EnvIx) (srcva perm : Word) : K Unit := do
  let c ← curenvPtr
  match ← onMem (pageLookup ((← get).envs c).envPgdir srcva) with
  | none => throw (.errno .inval)
  | some (pp, _) =>
    let env := (← get).envs e
    onMem (pageInsert env.envPgdir env.envAsid pp env.envIpcDstva perm)

/-- Steps 5 and 6: the target wakes up, then the page is mapped. -/
def wakeAndMap (e : EnvIx) (srcva perm : Word) : K Word := do
  updEnv e fun env => { env with envStatus := .runnable }
  schedInsertTail e
  if srcva ≠ 0 then mapSent e srcva perm
  pure 0

/-- The two sends: `waiting` is the test of step 3, `deliver` what step 4 makes of the target. -/
def send (waiting : Env → Bool) (deliver : Word → Env → Env) (envid srcva perm : Word) :
    K Word := do
  if srcva ≠ 0 ∧ isIllegalVa srcva then throw (.errno .inval)
  let e ← envid2env envid false
  if !waiting ((← get).envs e) then throw (.errno .ipcNotRecv)
  let c ← curenvPtr
  let sender := ((← get).envs c).envId
  updEnv e (deliver sender)
  wakeAndMap e srcva perm

def sysIpcTrySend (envid value srcva perm : Word) : K Word :=
  send (fun env => env.envIpcRecving == 1)
    (fun sender env =>
      { env with envIpcValue := value, envIpcFrom := sender, envIpcPerm := pteV ||| perm
                 envIpcRecving := 0 })
    envid srcva perm

def sysSendReturnValue (envid value srcva perm : Word) : K Word :=
  send (fun env => env.waitingReturnValue == 1)
    (fun sender env =>
      { env with envIpcValue := value, envIpcFrom := sender, envIpcPerm := pteV ||| perm
                 envIpcRecving := 0, waitingReturnValue := 0, returnValue := value })
    envid srcva perm

/-! ## Devices -/

def maltaIdeBase : Word := 0x18000000 + 0x01f0
def maltaSerialBase : Word := 0x18000000 + 0x3f8

def isDevice (pa len : Word) : Bool :=
  (maltaIdeBase ≤ pa && pa + len ≤ maltaIdeBase + 0x8) ||
    (maltaSerialBase ≤ pa && pa + len ≤ maltaSerialBase + 0x20)

def sysWriteDev (va pa len : Word) : K Word := do
  if isIllegalVaRange va len then throw (.errno .inval)
  if !isDevice pa len then throw (.errno .inval)
  if len ≠ 1 ∧ len ≠ 2 ∧ len ≠ 4 then throw (.errno .inval)
  pure 0

/-- The word `old` after a store of the low `size` bytes of `w` at `va`. -/
def mergeBytes (old w : Word) (va : Word) (size : Nat) : Word :=
  let sh := 8 * (va.toNat % 4)
  let mask : Word := (1 <<< (8 * size) - 1) <<< sh
  (old &&& ~~~mask) ||| (w <<< sh &&& mask)

def sysReadDev (inp : Inputs) (va pa len : Word) : K Word := do
  if isIllegalVaRange va len then throw (.errno .inval)
  if !isDevice pa len then throw (.errno .inval)
  if len = 1 ∨ len = 2 ∨ len = 4 then
    kernelStore va len.toNat fun old =>
      mergeBytes old inp.device va len.toNat
    pure 0
  else
    throw (.errno .inval)

/-! ## Dispatch -/

inductive Syscall where
  | putchar (c : Word)
  | printCons (s num : Word)
  | getenvid
  | yield
  | envDestroy (envid : Word)
  | setTlbModEntry (envid func : Word)
  | memAlloc (envid va perm : Word)
  | memMap (srcid srcva dstid dstva perm : Word)
  | memUnmap (envid va : Word)
  | exofork
  | setEnvStatus (envid status : Word)
  | setTrapframe (envid tf : Word)
  | panic (msg : Word)
  | ipcTrySend (envid value srcva perm : Word)
  | ipcRecv (dstva : Word)
  | cgetc
  | writeDev (va pa len : Word)
  | readDev (va pa len : Word)
  | createJob (envid cmd : Word)
  | printJobs
  | setJobDone (envid : Word)
  | fgJob (envid : Word)
  | killJob (envid : Word)
  | sendReturnValue (envid value srcva perm : Word)
  | recvReturnValue
  deriving DecidableEq, Repr

/-- `syscall_table`, at the numbers of `syscall.h`. -/
def syscallTable (sysno : Nat) (a1 a2 a3 a4 a5 : Word) : Option Syscall :=
  match sysno with
  | 0 => some (.putchar a1)
  | 1 => some (.printCons a1 a2)
  | 2 => some .getenvid
  | 3 => some .yield
  | 4 => some (.envDestroy a1)
  | 5 => some (.setTlbModEntry a1 a2)
  | 6 => some (.memAlloc a1 a2 a3)
  | 7 => some (.memMap a1 a2 a3 a4 a5)
  | 8 => some (.memUnmap a1 a2)
  | 9 => some .exofork
  | 10 => some (.setEnvStatus a1 a2)
  | 11 => some (.setTrapframe a1 a2)
  | 12 => some (.panic a1)
  | 13 => some (.ipcTrySend a1 a2 a3 a4)
  | 14 => some (.ipcRecv a1)
  | 15 => some .cgetc
  | 16 => some (.writeDev a1 a2 a3)
  | 17 => some (.readDev a1 a2 a3)
  | 18 => some (.createJob a1 a2)
  | 19 => some .printJobs
  | 20 => some (.setJobDone a1)
  | 21 => some (.fgJob a1)
  | 22 => some (.killJob a1)
  | 23 => some (.sendReturnValue a1 a2 a3 a4)
  | 24 => some .recvReturnValue
  | _ => none

/-- Calls the function of the table. -/
def Syscall.run (inp : Inputs) : Syscall → K Word
  | .putchar _ => pure inp.v0
  | .printCons s num => sysPrintCons s num
  | .getenvid => sysGetenvid
  | .yield => sysYield
  | .envDestroy envid => sysEnvDestroy envid
  | .setTlbModEntry envid func => sysSetTlbModEntry envid func
  | .memAlloc envid va perm => sysMemAlloc envid va perm
  | .memMap srcid srcva dstid dstva perm => sysMemMap srcid srcva dstid dstva perm
  | .memUnmap envid va => sysMemUnmap envid va
  | .exofork => sysExofork
  | .setEnvStatus envid status => sysSetEnvStatus envid status
  | .setTrapframe envid tf => sysSetTrapframe envid tf inp.tf
  | .panic _ => sysPanic
  | .ipcTrySend envid value srcva perm => sysIpcTrySend envid value srcva perm
  | .ipcRecv dstva => sysIpcRecv dstva
  | .cgetc => pure inp.device
  | .writeDev va pa len => sysWriteDev va pa len
  | .readDev va pa len => sysReadDev inp va pa len
  | .createJob envid _ => do
    envCreateJob envid inp.cmd
    pure inp.v0
  | .printJobs => pure inp.v0
  | .setJobDone envid => do
    envSetJobDone envid
    pure inp.v0
  | .fgJob envid => envFgJob envid
  | .killJob envid => do
    envKillJob envid
    pure inp.v0
  | .sendReturnValue envid value srcva perm => sysSendReturnValue envid value srcva perm
  | .recvReturnValue => sysRecvReturnValue

/-- The call that the frame asks for. -/
def Syscall.ofFrame (tf : Trapframe) (inp : Inputs) : Option Syscall :=
  syscallTable (tf.regs 4).toNat (tf.regs 5) (tf.regs 6) (tf.regs 7) inp.arg4 inp.arg5

/-- A function that returns an error returns its code. -/
def errnoValue : Stop → Option Word
  | .errno e => some e.code
  | _ => none

def doSyscall (inp : Inputs) : K Unit := do
  match Syscall.ofFrame (← get).kstack inp with
  | none => setKstackReg 2 Errno.noSys.code
  | some s =>
    modify fun k => { k with kstack := { k.kstack with cp0Epc := k.kstack.cp0Epc + 4 } }
    let r ← Lib.recover (s.run inp) errnoValue
    setKstackReg 2 r

end Mos
