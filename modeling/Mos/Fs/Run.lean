import Mos.Fs.Init
import Mathlib.Logic.Relation

/-!
# Runs of the server

A server starts with an image and serves requests. Every world is a history of what the
kernel and the clients answered.
-/

namespace Mos.Fs

open Lib (Bytes Proc Prog)
open Lib.Proc (Trace World)

/-- The server has started with an image. -/
def Booted (s : Server) : Prop :=
  ∃ (args : List Host) (d : Image) (w : World Call Reply) (t : Trace Call Reply),
    fsformat args = some d ∧ fsInit.run w (.start fun a => d.data (DISKMAP + a)) = (t, .ok (), s)

/-- A request is served. -/
def Served (s s' : Server) : Prop :=
  ∃ (w : World Call Reply) (envid : Nat) (req : Request) (t : Trace Call Reply),
    (serve envid req).run w s = (t, .ok (), s')

def Reachable (s : Server) : Prop := ∃ s₀, Booted s₀ ∧ Relation.ReflTransGen Served s₀ s

/-! ## The empty image -/

/-- The world where calls succeed and the page of entry `i` is mapped `refs i` times. -/
def obliging (refs : Nat → Nat) : World Call Reply := fun _ c =>
  match c with
  | .mark .. => ()
  | .memAlloc _ => .ok ()
  | .pageref i => refs i
  | .ipcSend .. => (0 : Int)

/-- The state after `x`. -/
def Server.after (s : Server) (refs : Nat → Nat) (x : Serv Unit) : Server :=
  (x.run (obliging refs) s).2.2

/-- `x` ends. -/
def Server.Ends (s : Server) (refs : Nat → Nat) (x : Serv Unit) : Prop :=
  (x.run (obliging refs) s).2.1 = .ok ()

instance (s : Server) (refs : Nat → Nat) (x : Serv Unit) : Decidable (s.Ends refs x) :=
  match h : (x.run (obliging refs) s).2.1 with
  | .ok () => isTrue h
  | .error e => isFalse fun h' => by rw [Server.Ends, h] at h'; exact absurd h' (by simp)

theorem Server.Ends.run {s : Server} {refs : Nat → Nat} {x : Serv Unit} (h : s.Ends refs x) :
    x.run (obliging refs) s = ((x.run (obliging refs) s).1, .ok (), s.after refs x) := by
  rw [← h]
  rfl

/-- The server with the image of no files. -/
def fresh : Server :=
  (Server.start fun a => (flushBitmap initDisk.data 3) (DISKMAP + a)).after (fun _ => 0) fsInit

theorem booted_fresh : Booted fresh := by
  have h : (Server.start fun a => (flushBitmap initDisk.data 3) (DISKMAP + a)).Ends (fun _ => 0)
      fsInit := by decide +kernel
  exact ⟨[], ⟨flushBitmap initDisk.data 3, 3⟩, obliging fun _ => 0, _, rfl, h.run⟩

end Mos.Fs
