import Mos.Kern.Syscall
import Mos.Lib.System

/-!
# The machine (`entry.S`, `genex.S`, `init.c`)

From the end of `mips_init` on, a step is an exception that the running
environment raises, or what it does to memory by itself. A panic halts the
machine: there is no next state.
-/

namespace Mos

/-! ## Entering and leaving the kernel -/

/-- The environment runs in user mode: UM is set and R0, ERL and EXL are not. -/
def userMode (st : Word) : Bool :=
  st &&& (statusUm ||| statusR0 ||| statusErl ||| statusExl) == statusUm

def interruptible (st : Word) : Bool := st &&& statusIe != 0 && st &&& statusIm7 != 0

/-- The exception sets EXL, `SAVE_ALL` stores the frame `f` of the environment with the status
word, and `exc_gen_entry` clears UM, EXL and IE. -/
def enterKernel (f : Trapframe) : K Unit := modify fun k =>
  { k with
    kstack := { f with cp0Status := k.status ||| statusExl }
    status := k.status &&& ~~~(statusUm ||| statusExl ||| statusIe) }

/-- `ret_from_exception` -/
def leaveKernel : K Unit := do restoreAll (← get).kstack

/-- The TLB Mod exception that a store of the kernel to a read-only page raises. It is taken in
kernel mode, so its frame (with the kernel's registers `kregs`) has the kernel's status word, and
the handler of the environment is resumed with it: the interrupted function never goes on. A
further fault overruns the kernel stack. -/
def nestedTlbMod (kregs : Trapframe) : K Unit := do
  let status := (← get).status
  let tf ← Lib.handle (doTlbMod { kregs with cp0Status := status ||| statusExl })
    (· == .tlbMod) (throw .wild)
  restoreAll tf
  throw .resched

/-! ## Steps -/

/-- What can happen next: `schedule(0)` at the end of `mips_init`; a system call, a timer
interrupt, a TLB miss at `va` or a store to a read-only page at `va` of the environment that
runs with the registers `f`; a store of it that goes through; the loss of a TLB entry. -/
inductive Op where
  | start
  | syscall (f : Trapframe) (inp : Inputs)
  | timer (f : Trapframe)
  | tlbRefill (f : Trapframe) (va : Word)
  | tlbMod (f : Trapframe) (va : Word) (inp : Inputs)
  | store (va w : Word)
  | tlbEvict (i : Nat)

/-- The boot stack is given up by the first `schedule`; afterwards an environment runs. -/
def Op.enabled (k : Kernel) : Op → Bool
  | .start => k.curenv.isNone
  | .timer _ => k.curenv.isSome && userMode k.status && interruptible k.status
  | _ => k.curenv.isSome && userMode k.status

def Op.body : Op → K Unit
  | .start => schedule false
  | .syscall f inp => do
    enterKernel f
    doSyscall inp
    leaveKernel
  | .timer f => do
    enterKernel f
    schedule false
  | .tlbRefill f va => do
    enterKernel { f with cp0Badvaddr := va }
    let k ← get
    onMem (doTlbRefill k.curPgdir va k.entryHiAsid)
    leaveKernel
  | .tlbMod f va _ => do
    enterKernel { f with cp0Badvaddr := va }
    let tf ← doTlbMod (← get).kstack
    modify fun k => { k with kstack := tf }
    leaveKernel
  | .store va w => do
    match ← onMem (writable (← get).curPgdir va) with
    | some pp => onMem (modify fun m => m.store pp (wordIx va) w)
    | none => throw .wild
  | .tlbEvict i => onMem (modify fun m => { m with tlb := m.tlb.eraseIdx i })

/-- The kernel's registers if the step raises an exception in the kernel. -/
def Op.kregs : Op → Trapframe
  | .syscall _ inp => inp.kregs
  | .tlbMod _ _ inp => inp.kregs
  | _ => .zero

def Op.run (op : Op) : K Unit := Lib.handle op.body (· == .tlbMod) (nestedTlbMod op.kregs)

def next (op : Op) (k : Kernel) : Option Kernel :=
  if op.enabled k then
    match op.run k with
    | .ok _ k' => some k'
    | .error .resched k' => some k'
    | .error _ _ => none
  else none

/-! ## Boot -/

def sizeofPage : Nat := 12
def sizeofEnv : Nat := 228

/-- `ROUND(n, PAGE_SIZE)`, in pages. -/
def roundPages (n : Nat) : Nat := (n + 4095) / 4096

/-- The machine and the kernel image in it: `pages` comes right after the image, at `endFrame`,
and `envs` lies inside it. All of memory is in KSEG0. -/
structure Machine where
  npage : Nat
  envsFrame : Nat
  endFrame : Nat
  ram : Nat → WordIx → Word
  npage_le : npage ≤ 2 ^ 17
  envs_fit : envsFrame + roundPages (nenv * sizeofEnv) ≤ endFrame
  pages_fit : endFrame + roundPages (npage * sizeofPage) ≤ npage

namespace Machine

/-- `PPN(PADDR(freemem))` in `page_init`. -/
def usedPageNum (mc : Machine) : Nat := mc.endFrame + roundPages (mc.npage * sizeofPage)

/-- The state after `page_init` and the loop of `env_init`. -/
def initial (mc : Machine) : Kernel where
  mem :=
    { npage := mc.npage
      ppRef := fun i => if i < mc.usedPageNum then 1 else 0
      pageFreeList := (List.range' mc.usedPageNum (mc.npage - mc.usedPageNum)).reverse
      phys := mc.ram
      tlb := [] }
  envs := fun _ => .zero
  curenv := none
  envFreeList := List.finRange 1024
  envSchedList := .init
  basePgdir := 0
  asidBitmap := fun _ => false
  mkenvidCount := 0
  jobs := fun _ => .zero
  jobCnt := 0
  count := 0
  curPgdir := 0
  kstack := .zero
  status := 0
  entryHiAsid := 0
  schedMisused := false

end Machine

/-- A call whose result is not looked at. -/
def ignoreErrno : Fault → Option Unit
  | .errno _ => some ()
  | _ => none

/-- `map_segment`, for `npages` pages from the frame `frame` on. -/
def mapSegment (pgdir asid frame : Nat) (va : Word) (npages : Nat) (perm : Word) : M Unit :=
  (List.range npages).forM fun i => do
    let pp ← pa2page (page2pa (frame + i))
    Lib.recover (pageInsert pgdir asid pp (va + BitVec.ofNat 32 (4096 * i)) (perm ||| pteV))
      ignoreErrno

/-- The rest of `env_init`: the template page directory. -/
def envInit (mc : Machine) : K Unit := do
  let p ← onMem (panicOn "'page_alloc(&p)' returned" pageAlloc)
  onMem (modify fun m => m.setRef p (m.ppRef p + 1))
  let base ← onMem (kaddr (page2pa p))
  modify fun k => { k with basePgdir := base }
  onMem (mapSegment base 0 mc.endFrame upages (roundPages (mc.npage * sizeofPage)) pteG)
  onMem (mapSegment base 0 mc.envsFrame uenvs (roundPages (nenv * sizeofEnv)) pteG)

/-- `mips_init` up to the final `schedule(0)`. -/
def mipsInit (mc : Machine) (programs : List (Image × Word)) : K Unit := do
  envInit mc
  programs.forM fun p => do
    let _ ← envCreate p.1 p.2

/-- The state when `mips_init` calls `schedule(0)`, if it gets there. -/
def boot (mc : Machine) (programs : List (Image × Word)) : Option Kernel :=
  match mipsInit mc programs mc.initial with
  | .ok _ k => some k
  | .error _ _ => none

def mos : Lib.System Kernel Op where
  init k := ∃ mc programs, boot mc programs = some k
  next := next

/-! ## A small machine -/

/-- 140 pages of memory, of which 58 hold the kernel and `pages`. -/
def smallMachine : Machine where
  npage := 140
  envsFrame := 0
  endFrame := 57
  ram := fun _ _ => 0
  npage_le := by decide
  envs_fit := by decide
  pages_fit := by decide

/-- A program of one page. -/
def bareLoop : Image where
  pages := [{ va := utext, writable := false, content := fun _ => 0, va_lt := by decide }]
  entry := utext

def Inputs.none : Inputs := ⟨0, 0, .zero, [], 0, .zero, 0⟩

/-- The system call `sysno` with up to three arguments in registers. -/
def callOp (sysno a1 a2 a3 : Word) : Op :=
  .syscall ((((Trapframe.zero.setReg 4 sysno).setReg 5 a1).setReg 6 a2).setReg 7 a3) .none

/-- The state after `ops` on the small machine, booted with one program. -/
def smallRun (ops : List Op) : Option Kernel :=
  (boot smallMachine [(bareLoop, 1)]).bind (mos.exec ops)

theorem smallRun_reachable {ops : List Op} {k : Kernel} (h : smallRun ops = some k) :
    mos.Reachable k := by
  obtain ⟨k₀, h₀, hrun⟩ := Option.bind_eq_some_iff.mp h
  exact Lib.System.Run.exec (.init ⟨_, _, h₀⟩) hrun

end Mos
