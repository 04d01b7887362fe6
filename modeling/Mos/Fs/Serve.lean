import Mos.Fs.File

/-!
# The file server (`fs/serv.c`)

Requests come with an argument page and a valid request code.
-/

namespace Mos.Fs

open Lib (Bytes Proc Prog)

def MAXOPEN : Nat := 1024
def FILEVA : Nat := 0x60000000

/-- `devfile.dev_id`, the character `f`. -/
def DEVFILE_ID : Nat := 102

def PTE_D : Nat := 0x0004 <<< 6
def PTE_LIBRARY : Nat := 0x0002

/-- A request with the fields of its argument page. -/
inductive Request where
  | open (path : Name) (omode : UInt32)
  | map (fileid offset : UInt32)
  | setSize (fileid size : UInt32)
  | close (fileid : UInt32)
  | dirty (fileid offset : UInt32)
  | remove (path : Name) (type : UInt32)
  | sync
  deriving DecidableEq, Repr

/-! ## The open file table -/

/-- `opentab[i].o_ff` -/
def ffAt (i : Nat) : Nat := FILEVA + i * BLOCK_SIZE

def Server.setOpen (s : Server) (i : Nat) (o : Open) : Server :=
  { s with opentab := Function.update s.opentab i o }

def emptyFilefd : Filefd := ⟨0, 0, 0, 0, fun _ => 0⟩

/-- The Filefd page of the entry is cleared. -/
def clearFf (i : Nat) : Serv Unit :=
  modify fun s => s.setOpen i { s.opentab i with ff := emptyFilefd }

/-- The entry `i` is taken if at most the server has its page. -/
def openEntry (i : Nat) : Serv (Option (Except Err Nat)) := do
  match ← call (.pageref i) with
  | 0 =>
    match ← call (.memAlloc (ffAt i)) with
    | .error e => return some (.error e)
    | .ok () =>
      clearFf i
      return some (.ok i)
  | 1 =>
    clearFf i
    return some (.ok i)
  | _ => return none

/-- The loop of `open_alloc` from entry `i` on, for `n` entries. -/
def openFrom : Nat → Nat → Serv (Except Err Nat)
  | 0, _ => return .error .maxOpen
  | n + 1, i => do
    match ← openEntry i with
    | some r => return r
    | none => openFrom n (i + 1)

def openAlloc : Serv (Except Err Nat) := openFrom MAXOPEN 0

def openLookup (fileid : Nat) : Serv (Except Err Nat) := do
  if fileid ≥ MAXOPEN then
    return .error .inval
  else if (← call (.pageref fileid)) ≤ 1 then
    return .error .inval
  else
    return .ok fileid

/-! ## Requests -/

/-- `ipc_send`, which asserts that the last try succeeded. -/
def ipcSend (envid : Nat) (val : Int) (srcva perm : Nat) : Serv Unit := do
  if (← call (.ipcSend envid val srcva perm)) = 0 then return () else throw (.panic .notSent)

def replyError (envid : Nat) (e : Err) : Serv Unit := ipcSend envid e.code 0 0

/-- One of the calls of `file_create` in `serve_open`. It has failed if it returns an error. -/
def createIf (flag : Bool) (path : Name) (omode : Nat) : Serv (Except Err Unit) := do
  if flag then
    match ← fileCreate omode path with
    | .error e => return if e = .fileExists then .ok () else .error e
    | .ok _ => return .ok ()
  else
    return .ok ()

/-- `rq->req_omode & flag` -/
def hasFlag (omode flag : Nat) : Bool := omode &&& flag != 0

def truncateIf (flag : Bool) (f : Nat) : Serv Unit := if flag then fileSetSize f 0 else pure ()

/-- The Filefd page is filled and sent. -/
def sendFilefd (envid i f omode : Nat) : Serv Unit := do
  let s ← get
  set (s.setOpen i ⟨f, omode, { (s.opentab i).ff with
    fd_dev_id := DEVFILE_ID
    fd_omode := omode
    f_fileid := i
    f_file := fun k => s.mem (f + k) }⟩)
  ipcSend envid 0 (ffAt i) (PTE_D ||| PTE_LIBRARY)

/-- `o->o_file = f` -/
def setFile (i f : Nat) : Serv Unit := modify fun s => s.setOpen i { s.opentab i with o_file := f }

/-- `serve_open` after the entry has been found. -/
def openPath (envid i : Nat) (path : Name) (omode : Nat) : Serv Unit := do
  match ← createIf (hasFlag omode O_CREAT) path omode with
  | .error e => replyError envid e
  | .ok () =>
    match ← createIf (hasFlag omode O_MKDIR) path omode with
    | .error e => replyError envid e
    | .ok () =>
      match ← fileOpen path with
      | .error e => replyError envid e
      | .ok f =>
        setFile i f
        truncateIf (hasFlag omode O_TRUNC) f
        sendFilefd envid i f omode

def serveOpen (envid : Nat) (path : Name) (omode : Nat) : Serv Unit := do
  match ← openAlloc with
  | .error e => replyError envid e
  | .ok i => openPath envid i path omode

/-- What the requests on a fileid have in common: the entry is looked up. -/
def withOpen (envid fileid : Nat) (serve : Nat → Serv Unit) : Serv Unit := do
  match ← openLookup fileid with
  | .error e => replyError envid e
  | .ok i => serve ((← get).opentab i).o_file

def serveMap (envid fileid offset : Nat) : Serv Unit :=
  withOpen envid fileid fun f => do
    match ← fileGetBlock f (offset / BLOCK_SIZE) with
    | .error e => replyError envid e
    | .ok blk => ipcSend envid 0 blk (PTE_D ||| PTE_LIBRARY)

def serveSetSize (envid fileid size : Nat) : Serv Unit :=
  withOpen envid fileid fun f => do
    fileSetSize f size
    ipcSend envid 0 0 0

def serveClose (envid fileid : Nat) : Serv Unit :=
  withOpen envid fileid fun f => do
    fileClose f
    ipcSend envid 0 0 0

def serveDirty (envid fileid offset : Nat) : Serv Unit :=
  withOpen envid fileid fun f => do
    match ← fileDirty f offset with
    | .error e => replyError envid e
    | .ok () => ipcSend envid 0 0 0

def serveRemove (envid : Nat) (path : Name) (type : Nat) : Serv Unit := do
  match ← fileRemove path type with
  | .error e => replyError envid e
  | .ok () => ipcSend envid 0 0 0

def serveSync (envid : Nat) : Serv Unit := do
  fsSync
  ipcSend envid 0 0 0

/-- `serve_table` -/
def serve (envid : Nat) : Request → Serv Unit
  | .open path omode => serveOpen envid path omode.toNat
  | .map fileid offset => serveMap envid fileid.toNat offset.toNat
  | .setSize fileid size => serveSetSize envid fileid.toNat size.toNat
  | .close fileid => serveClose envid fileid.toNat
  | .dirty fileid offset => serveDirty envid fileid.toNat offset.toNat
  | .remove path type => serveRemove envid path type.toNat
  | .sync => serveSync envid

end Mos.Fs
