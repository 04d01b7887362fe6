import Mos.Lib.Process
import Mos.Shell.Lexer

/-!
# The parser and the runner of the shell (`user/sh.c`)

A shell process is a program over the statics of `sh.c` that calls the user library and the
kernel. `fork` has one reply in the parent and the reply 0 in the child, so one world is
one process, and all processes of a line are its runs in all worlds.
-/

namespace Mos.Shell

open Lib (Proc Prog)

def MAXARGS : Nat := 128

abbrev Argv := Nat → Ptr

/-- The locals of `parsecmd` and its parameters `argv` and `mark`. -/
structure Frame where
  argc : Nat
  argv : Argv
  mark : Bool

def Frame.push (f : Frame) (t : Ptr) : Frame :=
  { f with argc := f.argc + 1, argv := Function.update f.argv f.argc t }

def O_RDONLY : Nat := 0x0000
def O_WRONLY : Nat := 0x0001
def O_CREAT : Nat := 0x0100
def O_TRUNC : Nat := 0x0200

/-- What a shell process asks for. `takes` is no call: it marks that `parsecmd` took the token `c`
at `t` with the locals `f` and the memory `buf`. -/
inductive Call where
  | takes (c : Tok) (t : Ptr) (f : Frame) (buf : Str)
  /-- What the uninitialised array `argv` of `runcmd` holds. -/
  | uninit
  | open (path : Str) (mode : Nat)
  | close (fd : Int)
  | dup (oldfd newfd : Int)
  | stat (path : Str)
  | fstat (fd : Int)
  | seek (fd offset : Int)
  | write (fd : Int) (text : Str)
  | pipe
  | fork
  | wait (envid : Int)
  | spawn (prog : Ptr) (args : List Str)
  | recvReturnValue
  | sendReturnValue (value : Int)
  | createJob (envid : Int) (cmd : Str)
  | printJobs
  | fgJob (jobId : Int)
  /-- `envs[ENVX(envid)].env_status` is `ENV_RUNNABLE`. -/
  | runnable (envid : Int)
  | killJob (jobId : Int)
  /-- The loop of `print_history`: `.mosh_history` is read and printed. -/
  | printHistory
  | debugf (msg : String)
  | printf (msg : String)
  | closeAll

/-- The reply of a call. The reply of `recvReturnValue` is `env->return_value` after it, that of
`stat` and `fstat` has `st_size`, and that of `pipe` has `p[0]` and `p[1]`. -/
abbrev Reply : Call → Type
  | .uninit => Argv
  | .stat _ => Int × Int
  | .fstat _ => Int × Int
  | .pipe => Int × Int × Int
  | .takes .. | .printJobs | .createJob .. | .killJob _ | .printHistory | .debugf _ | .printf _
  | .closeAll => Unit
  | .runnable _ => Bool
  | _ => Int

inductive Stop where
  /-- `exit()` -/
  | exited
  /-- A load from a null pointer. -/
  | fault
  | outOfFuel
  deriving DecidableEq, Repr

/-- The statics of `gettoken` and the globals of `sh.c`. -/
structure Statics where
  buf : Str
  cmd : Str
  nc : Tok
  np1 : Ptr
  np2 : Ptr
  flag : Bool
  jobFlag : Bool

def Statics.setFlag (g : Statics) (flag : Bool) : Statics := { g with flag := flag }

def Statics.setJobFlag (g : Statics) (jobFlag : Bool) : Statics := { g with jobFlag := jobFlag }

abbrev Sh := Prog Call Reply Stop Statics

abbrev call (c : Call) : Sh (Reply c) := Prog.call c

def exit {α : Type} : Sh α := do
  call .closeAll
  throw .exited

/-! ## Tokens -/

def Statics.scanned (g : Statics) (r : Scanned) : Statics :=
  { g with buf := r.buf, nc := r.tok, np1 := r.p1, np2 := r.p2 }

/-- `gettoken(s, 0)` -/
def setLine (s : Nat) : Sh Unit := modify fun g => g.scanned (_gettoken g.buf (some s))

/-- `gettoken(0, &t)` -/
def gettoken : Sh (Tok × Ptr) := do
  let g ← get
  set (g.scanned (_gettoken g.buf g.np2))
  return (g.nc, g.np1)

/-- The C string at `t`. -/
def string (t : Ptr) : Sh Str := do
  match t with
  | some s => return cstr (← get).buf s
  | none => throw .fault

/-! ## Built-in commands -/

def parseJobId (s : Str) : Int := s.foldl (fun jobId c => jobId * 10 + (c.toInt8.toInt - 48)) 0

def executeJobs : Sh Unit := call .printJobs

def executeFg (jobId : Int) : Sh Unit := do
  let envid ← call (.fgJob jobId)
  if envid = -1 then
    call (.printf "fg: job (%d) do not exist\n")
  else if !(← call (.runnable envid)) then
    call (.printf "fg: (0x%08x) not running\n")
  else
    let _ ← call (.wait envid)

def executeKill (jobId : Int) : Sh Unit := call (.killJob jobId)

def historyFile : Str := bytes ".mosh_history"

def saveHistoryCmd (cmd : Str) : Sh Unit := do
  let fd ← call (.open historyFile O_WRONLY)
  if fd < 0 then
    call (.printf "open history file failed\n")
  let (_, size) ← call (.stat historyFile)
  let _ ← call (.seek fd size)
  let _ ← call (.write fd cmd)
  let _ ← call (.write fd (bytes "\n"))
  let _ ← call (.close fd)

/-! ## Redirections -/

/-- `dup` onto `newfd`, then `close` the original. -/
def redirectTo (fd newfd : Int) (msg : String) : Sh Unit := do
  if (← call (.dup fd newfd)) < 0 then
    call (.debugf msg)
    exit
  let _ ← call (.close fd)

/-- `open(t, mode)` for the word after a redirection. -/
def openTarget (mode : Nat) (notWord failed : String) : Sh Int := do
  let (c, t) ← gettoken
  if c ≠ .word then
    call (.debugf notWord)
    exit
  let fd ← call (.open (← string t) mode)
  if fd < 0 then
    call (.debugf failed)
    exit
  return fd

def redirectIn : Sh Unit := do
  let fd ← openTarget O_RDONLY "syntax error: < not followed by word\n" "failed to open %s\n"
  redirectTo fd 0 "failed to duplicate file to <stdin>\n"

def redirectOut : Sh Unit := do
  let fd ← openTarget O_TRUNC "syntax error: > not followed by word\n" "failed to open %s\n"
  redirectTo fd 1 "failed to duplicate file to <stdout>\n"

def redirectAppend : Sh Unit := do
  let fd ← openTarget (O_RDONLY ||| O_WRONLY ||| O_CREAT)
    "syntax error: > not followed by word\n" "failed to open %s\n"
  let (r, size) ← call (.fstat fd)
  if r < 0 then
    call (.debugf "failed to fstat %s\n")
    exit
  let _ ← call (.seek fd size)
  redirectTo fd 1 "failed to duplicate file to <stdout>\n"

/-! ## Commands -/

/-- The line ends at the first `#`. -/
def cutComment (s : Nat) : Sh Unit :=
  modify fun g => { g with buf := g.buf.set (scan (fun c => c != 0 && c != ch '#') g.buf s) 0 }

/-- `argv[0..argc-1]` -/
def args (argv : Argv) (argc : Nat) : Sh (List Str) := (List.range argc).mapM fun i => string (argv i)

/-- What `runcmd` does with the child that `spawn` made. -/
def report (child : Int) : Sh Unit := do
  let g ← get
  if child < 0 then
    call (.debugf "spawn %s: %d\n")
  else if g.flag then
    let value ← call .recvReturnValue
    let _ ← call (.sendReturnValue value)
  else if g.jobFlag then
    call (.createJob child g.cmd)
    let _ ← call .recvReturnValue
  else
    let _ ← call .recvReturnValue

def waitRight (rightpipe : Int) : Sh Unit := do
  if rightpipe ≠ 0 then
    let _ ← call (.wait rightpipe)

def runBuiltin (prog : Str) (argv : Argv) : Sh Unit := do
  if prog = bytes "jobs" then
    executeJobs
    exit
  else if prog = bytes "fg" then
    executeFg (parseJobId (← string (argv 1)))
    exit
  else if prog = bytes "kill" then
    executeKill (parseJobId (← string (argv 1)))
    exit
  else if prog = bytes "history" then
    call .printHistory
    exit

def runExternal (argc : Nat) (argv : Argv) (rightpipe : Int) : Sh Unit := do
  let child ← call (.spawn (argv 0) (← args argv argc))
  report child
  waitRight rightpipe
  call .closeAll
  exit

/-- `runcmd` after `parsecmd` has returned `argc`. -/
def finish (argc : Nat) (argv : Argv) (rightpipe : Int) : Sh Unit := do
  if argc = 0 then
    if (argv 0).isSome then
      let _ ← call (.sendReturnValue 0)
  else
    let argv := Function.update argv argc none
    runBuiltin (← string (argv 0)) argv
    runExternal argc argv rightpipe

/-- `runcmd(s)`, for a way to parse a command. -/
def runcmdWith (parse : Frame → Int → Sh (Nat × Argv × Int)) (s : Nat) : Sh Unit := do
  cutComment s
  setLine s
  let argv ← call .uninit
  let (argc, argv, rightpipe) ← parse ⟨0, argv, true⟩ 0
  finish argc argv rightpipe

/-- `return mark ? argc : 0` -/
def Frame.result (f : Frame) : Nat := if f.mark then f.argc else 0

/-- The turns of the loop of `parsecmd` from `f` on. A recursive call starts over with no word. The
fuel bounds the tokens it takes. -/
def parsecmd : Nat → Frame → Int → Sh (Nat × Argv × Int)
  | 0, _, _ => throw .outOfFuel
  | n + 1, f, rightpipe => do
    let (c, t) ← gettoken
    call (.takes c t f (← get).buf)
    modify (·.setFlag false)
    match c with
    | .eof => return (f.result, f.argv, rightpipe)
    | .word =>
      modify (·.setJobFlag false)
      if f.argc ≥ MAXARGS then
        call (.debugf "too many arguments\n")
        exit
      parsecmd n (f.push t) rightpipe
    | .less =>
      redirectIn
      parsecmd n f rightpipe
    | .great =>
      redirectOut
      parsecmd n f rightpipe
    | .pipe =>
      let (r, p0, p1) ← call .pipe
      if r < 0 then
        call (.debugf "failed to create pipe\n")
        exit
      let rightpipe ← call .fork
      if rightpipe = 0 then
        let _ ← call (.dup p0 0)
        let _ ← call (.close p0)
        let _ ← call (.close p1)
        parsecmd n ⟨0, f.argv, true⟩ rightpipe
      else
        let _ ← call (.dup p1 1)
        let _ ← call (.close p1)
        let _ ← call (.close p0)
        return (f.argc, f.argv, rightpipe)
    | .semi =>
      let child ← call .fork
      if child = 0 then
        return (f.argc, f.argv, rightpipe)
      else
        let _ ← call (.wait child)
        parsecmd n ⟨0, f.argv, true⟩ rightpipe
    | .amp =>
      modify (·.setJobFlag true)
      let child ← call .fork
      if child = 0 then
        return (f.argc, f.argv, rightpipe)
      else
        parsecmd n ⟨0, f.argv, true⟩ rightpipe
    | .and =>
      modify (·.setFlag true)
      let child ← call .fork
      if child = 0 then
        return (f.result, f.argv, rightpipe)
      else
        let value ← call .recvReturnValue
        parsecmd n ⟨0, f.argv, value == 0⟩ rightpipe
    | .or =>
      modify (·.setFlag true)
      let child ← call .fork
      if child = 0 then
        return (f.result, f.argv, rightpipe)
      else
        let value ← call .recvReturnValue
        parsecmd n ⟨0, f.argv, value != 0⟩ rightpipe
    | .append =>
      redirectAppend
      parsecmd n f rightpipe
    | .backquote =>
      match t with
      | some s => runcmdWith (parsecmd n) s
      | none => throw .fault
      parsecmd n f rightpipe
    | .paren => parsecmd n f rightpipe

def runcmd (fuel : Nat) (s : Nat) : Sh Unit := runcmdWith (parsecmd fuel) s

/-- The process that the shell forks for the line in `buf`. -/
def lineShell (fuel : Nat) : Sh Unit := do
  let line := cstr (← get).buf 0
  saveHistoryCmd line
  modify fun g => { g with cmd := line }
  runcmd fuel 0
  exit

/-- A forked line shell starts with the statics of the shell, where only `buf` was written. -/
def Statics.ofLine (buf : Str) : Statics := ⟨buf, [], .eof, none, none, false, false⟩

end Mos.Shell
