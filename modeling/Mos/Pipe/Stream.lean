import Mathlib.Algebra.Group.Nat.Defs
import Mos.Lib.Ring
import Mos.Lib.System

/-!
# The bytes of a pipe (`user/lib/pipe.c`)

A process reads and another one writes. Each test of the positions, each evaluation of
`_pipe_is_closed` and each transfer of a byte is a step of its own. What is transferred is
recorded, and so is every end of file that `pipe_read` reports.
-/

namespace Mos.Pipes

open Lib (Ring System)

def PIPE_SIZE : Nat := 32

/-! ## State -/

structure Pipe where
  p_rpos : BitVec 32
  p_wpos : BitVec 32
  p_buf : Nat → UInt8

/-- Where a process is in the loop of `pipe_read`, with the number `n` of bytes wanted and what has
been read so far. -/
inductive Reader where
  | idle
  | test (n : Nat) (rbuf : List UInt8)
  | check (n : Nat)
  | copy (n : Nat) (rbuf : List UInt8)
  | closed
  deriving DecidableEq, Repr

/-- Where a process is in the loop of `pipe_write`, with the bytes that are left. -/
inductive Writer where
  | idle
  | test (wbuf : List UInt8)
  | check (wbuf : List UInt8)
  | copy (b : UInt8) (wbuf : List UInt8)
  | closed
  deriving DecidableEq, Repr

/-- What was the case when `pipe_read` returned 0. -/
structure EndOfFile where
  writerClosed : Bool
  unread : Nat
  deriving DecidableEq, Repr

/-- `pageref` of the `Fd` page of the read end, of the write end and of the page of the pipe. -/
structure PageRef where
  fd0 : Nat
  fd1 : Nat
  p : Nat
  deriving DecidableEq, Repr

structure State where
  pipe : Pipe
  pageref : PageRef
  reader : Reader
  writer : Writer
  /-- The bytes that `pipe_write` has put into the pipe. -/
  accepted : List UInt8
  /-- The bytes that `pipe_read` has taken out of the pipe. -/
  taken : List UInt8
  /-- The bytes that calls of `pipe_read` have returned. -/
  returned : List UInt8
  ends : List EndOfFile

def init : State where
  pipe := ⟨0, 0, fun _ => 0⟩
  pageref := ⟨1, 1, 2⟩
  reader := .idle
  writer := .idle
  accepted := []
  taken := []
  returned := []
  ends := []

/-! ## Steps -/

/-- `p->p_rpos >= p->p_wpos` -/
def Pipe.isEmpty (p : Pipe) : Bool := p.p_wpos ≤ p.p_rpos

/-- `p->p_wpos - p->p_rpos >= PIPE_SIZE` -/
def Pipe.isFull (p : Pipe) : Bool := BitVec.ofNat 32 PIPE_SIZE ≤ p.p_wpos - p.p_rpos

/-- `p->p_buf[(p->p_rpos++) % PIPE_SIZE]` -/
def Pipe.head (p : Pipe) : UInt8 := p.p_buf (p.p_rpos.toNat % PIPE_SIZE)

def Pipe.pop (p : Pipe) : Pipe := { p with p_rpos := p.p_rpos + 1 }

/-- `p->p_buf[(p->p_wpos++) % PIPE_SIZE] = b` -/
def Pipe.push (p : Pipe) (b : UInt8) : Pipe :=
  { p with
    p_wpos := p.p_wpos + 1
    p_buf := Function.update p.p_buf (p.p_wpos.toNat % PIPE_SIZE) b }

/-- `_pipe_is_closed` -/
def pipeIsClosed (fd_ref pipe_ref : Nat) : Bool := fd_ref == pipe_ref

/-- `pipe_close` of the read end -/
def PageRef.closeRead (r : PageRef) : PageRef := { r with fd0 := r.fd0 - 1, p := r.p - 1 }

/-- `pipe_close` of the write end -/
def PageRef.closeWrite (r : PageRef) : PageRef := { r with fd1 := r.fd1 - 1, p := r.p - 1 }

/-- A step: a call, what the calls do next, and the close of an end, by `close` or by the end of the
process. -/
inductive Act where
  | read (n : Nat)
  | readTest
  | readCheck
  | readCopy
  | closeRead
  | write (vbuf : List UInt8)
  | writeTest
  | writeCheck
  | writeCopy
  | closeWrite
  deriving DecidableEq, Repr

/-- `pipe_read` goes on with what it has, or returns it. -/
def State.readOn (s : State) (n : Nat) (rbuf : List UInt8) : State :=
  if rbuf.length < n then { s with reader := .test n rbuf }
  else { s with reader := .idle, returned := s.returned ++ rbuf }

/-- `pipe_read` returns before it has all the bytes. -/
def State.readPart (s : State) (rbuf : List UInt8) : State :=
  { s with reader := .idle, returned := s.returned ++ rbuf }

def State.readEnd (s : State) : State :=
  { s with
    reader := .idle
    ends := s.ends ++ [⟨s.writer == .closed, s.accepted.length - s.taken.length⟩] }

def State.writeOn (s : State) (wbuf : List UInt8) : State :=
  if wbuf = [] then { s with writer := .idle } else { s with writer := .test wbuf }

def next : Act → State → Option State
  | .read n, s => if s.reader = .idle then some (s.readOn n []) else none
  | .readTest, s => match s.reader with
    | .test n rbuf =>
      if s.pipe.isEmpty then
        if rbuf.length ≥ 1 then some (s.readPart rbuf) else some { s with reader := .check n }
      else some { s with reader := .copy n rbuf }
    | _ => none
  | .readCheck, s => match s.reader with
    | .check n =>
      if pipeIsClosed s.pageref.fd0 s.pageref.p then some s.readEnd
      else some { s with reader := .test n [] }
    | _ => none
  | .readCopy, s => match s.reader with
    | .copy n rbuf =>
      some ({ s with pipe := s.pipe.pop, taken := s.taken ++ [s.pipe.head] }.readOn n
        (rbuf ++ [s.pipe.head]))
    | _ => none
  | .closeRead, s =>
    if s.reader = .closed then none
    else some { s with reader := .closed, pageref := s.pageref.closeRead }
  | .write vbuf, s => if s.writer = .idle then some (s.writeOn vbuf) else none
  | .writeTest, s => match s.writer with
    | .test wbuf =>
      if s.pipe.isFull then some { s with writer := .check wbuf }
      else match wbuf with
        | b :: wbuf => some { s with writer := .copy b wbuf }
        | [] => none
    | _ => none
  | .writeCheck, s => match s.writer with
    | .check wbuf =>
      if pipeIsClosed s.pageref.fd1 s.pageref.p then some { s with writer := .idle }
      else some { s with writer := .test wbuf }
    | _ => none
  | .writeCopy, s => match s.writer with
    | .copy b wbuf =>
      some ({ s with pipe := s.pipe.push b, accepted := s.accepted ++ [b] }.writeOn wbuf)
    | _ => none
  | .closeWrite, s =>
    if s.writer = .closed then none
    else some { s with writer := .closed, pageref := s.pageref.closeWrite }

def pipes : System State Act := ⟨fun s => s = init, next⟩

/-! ## The stream -/

/-- The pipe is a stream of bytes. -/
structure IsStream (s : State) : Prop where
  order : s.returned <+: s.accepted
  bound : s.accepted.length ≤ s.taken.length + PIPE_SIZE
  ends : ∀ e ∈ s.ends, e.writerClosed = true ∧ e.unread = 0

/-- When the reader finds the pipe closed, the pipe is still as empty as the reader found it before,
and its positions have not wrapped. -/
def Calm (s : State) : Act → Prop
  | .readCheck => pipeIsClosed s.pageref.fd0 s.pageref.p = true →
      s.pipe.isEmpty = true ∧ s.accepted.length < 2 ^ 32
  | _ => True

/-! ## The invariant -/

/-- The bytes that the current call of `pipe_read` has. -/
def Reader.Holds : Reader → List UInt8 → List UInt8 → Prop
  | .idle, returned, taken | .check _, returned, taken => returned = taken
  | .test _ rbuf, returned, taken | .copy _ rbuf, returned, taken => returned ++ rbuf = taken
  | .closed, returned, taken => returned <+: taken

/-- The number of ends that a process holds. -/
def Reader.opens : Reader → Nat
  | .closed => 0
  | _ => 1

def Writer.opens : Writer → Nat
  | .closed => 0
  | _ => 1

structure Inv (s : State) : Prop where
  refs : s.pageref = ⟨s.reader.opens, s.writer.opens, s.reader.opens + s.writer.opens⟩
  rpos : s.pipe.p_rpos.toNat = s.taken.length
  wpos : s.pipe.p_wpos.toNat = s.accepted.length % 2 ^ 32
  ring : Ring PIPE_SIZE s.pipe.p_buf s.taken.length s.accepted
  taken : s.taken = s.accepted.take s.taken.length
  held : s.reader.Holds s.returned s.taken
  room : ∀ b wbuf, s.writer = .copy b wbuf → s.accepted.length < s.taken.length + PIPE_SIZE
  next : ∀ n rbuf, s.reader = .copy n rbuf →
    s.taken.length < s.accepted.length ∧ s.taken.length + 1 < 2 ^ 32

theorem Reader.Holds.prefix {r : Reader} {returned taken : List UInt8} (h : r.Holds returned taken) :
    returned <+: taken := by
  cases r with
  | idle | check => exact h ▸ List.prefix_refl _
  | test n rbuf | copy n rbuf => exact ⟨rbuf, h⟩
  | closed => exact h

theorem Inv.order {s : State} (h : Inv s) : s.returned <+: s.accepted :=
  h.held.prefix.trans (h.taken ▸ List.take_prefix _ _)

theorem inv_init : Inv init where
  refs := rfl
  rpos := rfl
  wpos := rfl
  ring := Ring.nil _ _
  taken := rfl
  held := rfl
  room := fun _ _ h => nomatch h
  next := fun _ _ h => nomatch h

section

variable {s s' : State}

theorem Inv.isEmpty_iff (h : Inv s) (hw : s.accepted.length < 2 ^ 32) :
    s.pipe.isEmpty = true ↔ s.taken.length = s.accepted.length := by
  have hle := h.ring.read_le
  unfold Pipe.isEmpty
  rw [decide_eq_true_eq, BitVec.le_def, h.rpos, h.wpos, Nat.mod_eq_of_lt hw]
  omega

theorem Inv.lt_of_not_isEmpty (h : Inv s) (hne : ¬ s.pipe.isEmpty = true) :
    s.taken.length < s.accepted.length ∧ s.taken.length + 1 < 2 ^ 32 := by
  have hlt := s.pipe.p_wpos.isLt
  unfold Pipe.isEmpty at hne
  rw [decide_eq_true_eq, BitVec.le_def, h.rpos, h.wpos] at hne
  rw [h.wpos] at hlt
  omega

theorem Inv.isFull_iff (h : Inv s) :
    s.pipe.isFull = true ↔ s.accepted.length = s.taken.length + PIPE_SIZE := by
  have hle := h.ring.read_le
  have hfits := h.ring.fits
  have hlt := s.pipe.p_rpos.isLt
  have hsize : PIPE_SIZE = 32 := rfl
  unfold Pipe.isFull
  rw [decide_eq_true_eq, BitVec.le_def, BitVec.toNat_sub, h.rpos, h.wpos]
  rw [h.rpos] at hlt
  have hnat : (BitVec.ofNat 32 PIPE_SIZE).toNat = 32 := rfl
  rw [hnat]
  omega

theorem Inv.isClosed_iff (h : Inv s) {n : Nat} (hr : s.reader = .check n) :
    pipeIsClosed s.pageref.fd0 s.pageref.p = true ↔ s.writer = .closed := by
  rw [h.refs, hr]
  cases s.writer <;> simp [pipeIsClosed, Reader.opens, Writer.opens]

theorem Inv.move (h : Inv s) (r : Reader) (w : Writer) (returned : List UInt8) (ends : List EndOfFile)
    (hr : r.opens = s.reader.opens) (hw : w.opens = s.writer.opens)
    (hheld : r.Holds returned s.taken)
    (hnext : ∀ n rbuf, r = .copy n rbuf →
      s.taken.length < s.accepted.length ∧ s.taken.length + 1 < 2 ^ 32)
    (hroom : ∀ b wbuf, w = .copy b wbuf → s.accepted.length < s.taken.length + PIPE_SIZE) :
    Inv { s with reader := r, writer := w, returned := returned, ends := ends } :=
  ⟨by rw [h.refs, hr, hw], h.rpos, h.wpos, h.ring, h.taken, hheld, hroom, hnext⟩

theorem Inv.readOn (h : Inv s) {n : Nat} {rbuf : List UInt8} (ho : s.reader.opens = 1)
    (hb : s.returned ++ rbuf = s.taken) : Inv (s.readOn n rbuf) := by
  unfold State.readOn
  split
  · exact h.move _ _ _ _ ho.symm rfl hb (fun _ _ hr => nomatch hr) h.room
  · exact h.move _ _ _ _ ho.symm rfl hb (fun _ _ hr => nomatch hr) h.room

theorem Inv.readPart (h : Inv s) {rbuf : List UInt8} (ho : s.reader.opens = 1)
    (hb : s.returned ++ rbuf = s.taken) : Inv (s.readPart rbuf) :=
  h.move _ _ _ _ ho.symm rfl hb (fun _ _ hr => nomatch hr) h.room

theorem Inv.readEnd (h : Inv s) (ho : s.reader.opens = 1) (hb : s.returned = s.taken) : Inv s.readEnd :=
  h.move _ _ _ _ ho.symm rfl hb (fun _ _ hr => nomatch hr) h.room

theorem Inv.writeOn (h : Inv s) (wbuf : List UInt8) (ho : s.writer.opens = 1) :
    Inv (s.writeOn wbuf) := by
  unfold State.writeOn
  split
  · exact h.move _ _ _ _ rfl ho.symm h.held h.next (fun _ _ hw => nomatch hw)
  · exact h.move _ _ _ _ rfl ho.symm h.held h.next (fun _ _ hw => nomatch hw)

/-- A byte is taken out of the pipe. -/
theorem Inv.pop (h : Inv s) {n : Nat} {rbuf : List UInt8} (hr : s.reader = .copy n rbuf) :
    Inv { s with
      pipe := s.pipe.pop
      taken := s.taken ++ [s.pipe.head]
      reader := .test n (rbuf ++ [s.pipe.head]) } := by
  obtain ⟨hlt, hwrap⟩ := h.next n rbuf hr
  have hheld := h.held
  have hrefs := h.refs
  rw [hr] at hheld hrefs
  have hlen : (s.taken ++ [s.pipe.head]).length = s.taken.length + 1 := by simp
  refine ⟨hrefs, ?_, h.wpos, ?_, ?_, ?_, fun b wbuf hw => ?_, fun _ _ hr' => nomatch hr'⟩
  · rw [hlen]
    unfold Pipe.pop
    rw [BitVec.toNat_add, h.rpos, show (1 : BitVec 32).toNat = 1 from rfl]
    omega
  · rw [hlen]
    exact h.ring.pop hlt
  · have hhead : s.pipe.head = s.pipe.p_buf (s.taken.length % PIPE_SIZE) := by
      unfold Pipe.head
      rw [h.rpos]
    rw [hlen, ← h.ring.take_pop hlt, ← h.taken, hhead]
  · show s.returned ++ (rbuf ++ [s.pipe.head]) = s.taken ++ [s.pipe.head]
    rw [← List.append_assoc, show s.returned ++ rbuf = s.taken from hheld]
  · have := h.room b wbuf hw
    show s.accepted.length < (s.taken ++ [s.pipe.head]).length + PIPE_SIZE
    omega

/-- A byte is put into the pipe. The size of the ring divides the range of the positions. -/
theorem Inv.push (h : Inv s) {b : UInt8} {wbuf : List UInt8} (hw : s.writer = .copy b wbuf) :
    Inv { s with
      pipe := s.pipe.push b
      accepted := s.accepted ++ [b]
      writer := .test wbuf } := by
  have hroom := h.room b wbuf hw
  have hrefs := h.refs
  rw [hw] at hrefs
  have hlen : (s.accepted ++ [b]).length = s.accepted.length + 1 := by simp
  refine ⟨hrefs, h.rpos, ?_, ?_, ?_, h.held, (fun _ _ hw' => nomatch hw'), fun n rbuf hr => ?_⟩
  · rw [hlen]
    unfold Pipe.push
    rw [BitVec.toNat_add, h.wpos, show (1 : BitVec 32).toNat = 1 from rfl]
    omega
  · have hcell : s.pipe.p_wpos.toNat % PIPE_SIZE = s.accepted.length % PIPE_SIZE := by
      have hsize : PIPE_SIZE = 32 := rfl
      rw [h.wpos, hsize]
      omega
    unfold Pipe.push
    rw [hcell]
    exact h.ring.push hroom b
  · rw [List.take_append_of_le_length h.ring.read_le]
    exact h.taken
  · have := h.next n rbuf hr
    show s.taken.length < (s.accepted ++ [b]).length ∧ s.taken.length + 1 < 2 ^ 32
    omega

/-! ### The steps of the reader -/

theorem Inv.readTest (h : Inv s) (hs : pipes.next .readTest s = some s') : Inv s' := by
  have hheld := h.held
  simp only [pipes, Pipes.next] at hs
  cases hr : s.reader with
  | test n rbuf =>
    have ho : s.reader.opens = 1 := by rw [hr]; rfl
    rw [hr] at hs hheld
    simp only at hs
    split at hs
    · split at hs
      · -- The pipe is empty, and some bytes have been read.
        obtain rfl := Option.some.inj hs
        exact h.readPart ho hheld
      · -- Nothing has been read: the reader asks whether the pipe is closed.
        rename_i hlen
        obtain rfl := Option.some.inj hs
        obtain rfl : rbuf = [] := List.length_eq_zero_iff.mp (by omega)
        have hnil : s.returned = s.taken := (List.append_nil _).symm.trans hheld
        exact h.move _ _ _ _ ho.symm rfl hnil (fun _ _ hr => nomatch hr) h.room
    · -- There is a byte.
      rename_i hne
      obtain rfl := Option.some.inj hs
      have hlt := h.lt_of_not_isEmpty hne
      exact h.move _ _ _ _ ho.symm rfl hheld (fun _ _ _ => hlt) h.room
  | _ => rw [hr] at hs; nomatch hs

theorem Inv.readCheck (h : Inv s) (hs : pipes.next .readCheck s = some s') : Inv s' := by
  have hheld := h.held
  simp only [pipes, Pipes.next] at hs
  cases hr : s.reader with
  | check n =>
    have ho : s.reader.opens = 1 := by rw [hr]; rfl
    rw [hr] at hs hheld
    simp only at hs
    split at hs
    · obtain rfl := Option.some.inj hs
      exact h.readEnd ho hheld
    · obtain rfl := Option.some.inj hs
      have hnil : s.returned ++ [] = s.taken := (List.append_nil _).trans hheld
      exact h.move _ _ _ _ ho.symm rfl hnil (fun _ _ hr => nomatch hr) h.room
  | _ => rw [hr] at hs; nomatch hs

theorem Inv.readCopy (h : Inv s) (hs : pipes.next .readCopy s = some s') : Inv s' := by
  simp only [pipes, Pipes.next] at hs
  cases hr : s.reader with
  | copy n rbuf =>
    rw [hr] at hs
    obtain rfl := Option.some.inj hs
    have hpop := h.pop hr
    exact hpop.readOn rfl hpop.held
  | _ => rw [hr] at hs; nomatch hs

theorem Inv.closeRead (h : Inv s) (hr : s.reader ≠ .closed) :
    Inv { s with reader := .closed, pageref := s.pageref.closeRead } := by
  refine ⟨?_, h.rpos, h.wpos, h.ring, h.taken, h.held.prefix, h.room, fun _ _ hr => nomatch hr⟩
  have ho : s.reader.opens = 1 := by cases hr' : s.reader <;> first | rfl | exact absurd hr' hr
  show s.pageref.closeRead = ⟨0, s.writer.opens, 0 + s.writer.opens⟩
  rw [h.refs, ho]
  simp [PageRef.closeRead]

/-! ### The steps of the writer -/

theorem Inv.writeTest (h : Inv s) (hs : pipes.next .writeTest s = some s') : Inv s' := by
  simp only [pipes, Pipes.next] at hs
  cases hw : s.writer with
  | test wbuf =>
    have ho : s.writer.opens = 1 := by rw [hw]; rfl
    rw [hw] at hs
    simp only at hs
    split at hs
    · obtain rfl := Option.some.inj hs
      exact h.move _ _ _ _ rfl ho.symm h.held h.next (fun _ _ hw => nomatch hw)
    · -- There is room, and it stays until the byte is put in.
      rename_i hne
      have hfits := h.ring.fits
      have hlt := mt h.isFull_iff.mpr hne
      cases wbuf with
      | nil => nomatch hs
      | cons b wbuf =>
        obtain rfl := Option.some.inj hs
        exact h.move _ _ _ _ rfl ho.symm h.held h.next (fun _ _ _ => by omega)
  | _ => rw [hw] at hs; nomatch hs

theorem Inv.writeCheck (h : Inv s) (hs : pipes.next .writeCheck s = some s') : Inv s' := by
  simp only [pipes, Pipes.next] at hs
  cases hw : s.writer with
  | check wbuf =>
    have ho : s.writer.opens = 1 := by rw [hw]; rfl
    rw [hw] at hs
    simp only at hs
    split at hs <;>
    · obtain rfl := Option.some.inj hs
      exact h.move _ _ _ _ rfl ho.symm h.held h.next (fun _ _ hw => nomatch hw)
  | _ => rw [hw] at hs; nomatch hs

theorem Inv.writeCopy (h : Inv s) (hs : pipes.next .writeCopy s = some s') : Inv s' := by
  simp only [pipes, Pipes.next] at hs
  cases hw : s.writer with
  | copy b wbuf =>
    rw [hw] at hs
    obtain rfl := Option.some.inj hs
    exact (h.push hw).writeOn wbuf rfl
  | _ => rw [hw] at hs; nomatch hs

theorem Inv.closeWrite (h : Inv s) (hw : s.writer ≠ .closed) :
    Inv { s with writer := .closed, pageref := s.pageref.closeWrite } := by
  refine ⟨?_, h.rpos, h.wpos, h.ring, h.taken, h.held, (fun _ _ hw => nomatch hw), h.next⟩
  have ho : s.writer.opens = 1 := by cases hw' : s.writer <;> first | rfl | exact absurd hw' hw
  show s.pageref.closeWrite = ⟨s.reader.opens, 0, s.reader.opens + 0⟩
  rw [h.refs, ho]
  simp [PageRef.closeWrite]

/-! ## Runs -/

/-- Every step keeps the invariant. -/
theorem inv_next {a : Act} (h : Inv s) (hs : pipes.next a s = some s') : Inv s' := by
  cases a with
  | read n =>
    obtain ⟨hr, hs⟩ := Option.ite_none_right_eq_some.mp hs
    obtain rfl := Option.some.inj hs
    have hheld := h.held
    rw [hr] at hheld
    exact h.readOn (by rw [hr]; rfl) (by rw [List.append_nil]; exact hheld)
  | readTest => exact h.readTest hs
  | readCheck => exact h.readCheck hs
  | readCopy => exact h.readCopy hs
  | closeRead =>
    obtain ⟨hr, hs⟩ := Option.ite_none_left_eq_some.mp hs
    exact Option.some.inj hs ▸ h.closeRead hr
  | write vbuf =>
    obtain ⟨hw, hs⟩ := Option.ite_none_right_eq_some.mp hs
    obtain rfl := Option.some.inj hs
    exact h.writeOn vbuf (by rw [hw]; rfl)
  | writeTest => exact h.writeTest hs
  | writeCheck => exact h.writeCheck hs
  | writeCopy => exact h.writeCopy hs
  | closeWrite =>
    obtain ⟨hw, hs⟩ := Option.ite_none_left_eq_some.mp hs
    exact Option.some.inj hs ▸ h.closeWrite hw

theorem inv_reachable (h : pipes.Reachable s) : Inv s :=
  System.Run.invariant (fun _ hs => hs ▸ inv_init) (fun _ _ _ hi _ hs => inv_next hi hs) h

theorem order_and_bound (h : pipes.Reachable s) :
    s.returned <+: s.accepted ∧ s.accepted.length ≤ s.taken.length + PIPE_SIZE :=
  ⟨(inv_reachable h).order, (inv_reachable h).ring.fits⟩

theorem ends_readOn (s : State) (n : Nat) (rbuf : List UInt8) : (s.readOn n rbuf).ends = s.ends := by
  unfold State.readOn
  split <;> rfl

theorem ends_writeOn (s : State) (wbuf : List UInt8) : (s.writeOn wbuf).ends = s.ends := by
  unfold State.writeOn
  split <;> rfl

/-- Only the question whether the pipe is closed can end a call with 0. -/
theorem next_ends {a : Act} (hs : pipes.next a s = some s') :
    s'.ends = s.ends ∨ a = .readCheck ∧ (∃ n, s.reader = .check n) ∧
      pipeIsClosed s.pageref.fd0 s.pageref.p = true ∧ s' = s.readEnd := by
  cases a with
  | read n =>
    obtain ⟨-, hs⟩ := Option.ite_none_right_eq_some.mp hs
    exact .inl (Option.some.inj hs ▸ ends_readOn s n [])
  | readTest =>
    refine .inl ?_
    simp only [pipes, next] at hs
    split at hs
    · split at hs
      · split at hs <;> exact Option.some.inj hs ▸ rfl
      · exact Option.some.inj hs ▸ rfl
    · cases hs
  | readCheck =>
    simp only [pipes, next] at hs
    split at hs
    · rename_i n hr
      split at hs
      · rename_i hclosed
        exact .inr ⟨rfl, ⟨n, hr⟩, hclosed, (Option.some.inj hs).symm⟩
      · exact .inl (Option.some.inj hs ▸ rfl)
    · cases hs
  | readCopy =>
    refine .inl ?_
    simp only [pipes, next] at hs
    split at hs
    · exact Option.some.inj hs ▸ ends_readOn ..
    · cases hs
  | closeRead =>
    obtain ⟨-, hs⟩ := Option.ite_none_left_eq_some.mp hs
    exact .inl (Option.some.inj hs ▸ rfl)
  | write vbuf =>
    obtain ⟨-, hs⟩ := Option.ite_none_right_eq_some.mp hs
    exact .inl (Option.some.inj hs ▸ ends_writeOn s vbuf)
  | writeTest =>
    refine .inl ?_
    simp only [pipes, next] at hs
    split at hs
    · split at hs
      · exact Option.some.inj hs ▸ rfl
      · split at hs
        · exact Option.some.inj hs ▸ rfl
        · cases hs
    · cases hs
  | writeCheck =>
    refine .inl ?_
    simp only [pipes, next] at hs
    split at hs
    · split at hs <;> exact Option.some.inj hs ▸ rfl
    · cases hs
  | writeCopy =>
    refine .inl ?_
    simp only [pipes, next] at hs
    split at hs
    · exact Option.some.inj hs ▸ ends_writeOn ..
    · cases hs
  | closeWrite =>
    obtain ⟨-, hs⟩ := Option.ite_none_left_eq_some.mp hs
    exact .inl (Option.some.inj hs ▸ rfl)

theorem ends_next {a : Act} (h : Inv s) (hc : Calm s a) (hs : pipes.next a s = some s')
    (hends : ∀ e ∈ s.ends, e.writerClosed = true ∧ e.unread = 0) :
    ∀ e ∈ s'.ends, e.writerClosed = true ∧ e.unread = 0 := by
  rcases next_ends hs with hsame | ⟨rfl, ⟨n, hr⟩, hclosed, rfl⟩
  · rw [hsame]
    exact hends
  · obtain ⟨hempty, hwrap⟩ := hc hclosed
    have hw := (h.isClosed_iff hr).mp hclosed
    have hall := (h.isEmpty_iff hwrap).mp hempty
    intro e he
    rcases List.mem_append.mp he with hold | hnew
    · exact hends e hold
    · obtain rfl := List.mem_singleton.mp hnew
      exact ⟨by simp [hw], by simp [hall]⟩

/-- In every run whose steps meet the condition the pipe is a stream of bytes in every state. -/
theorem stream_of_calm (h : pipes.Run Calm s) : IsStream s := by
  have hinv : Inv s ∧ ∀ e ∈ s.ends, e.writerClosed = true ∧ e.unread = 0 := by
    refine System.Run.invariant (I := fun s => Inv s ∧ ∀ e ∈ s.ends, e.writerClosed = true ∧ e.unread = 0)
      ?_ ?_ h
    · rintro s rfl
      exact ⟨inv_init, fun _ he => nomatch he⟩
    · rintro s a s' ⟨hi, hends⟩ hc hs
      exact ⟨inv_next hi hs, ends_next hi hc hs hends⟩
  exact ⟨hinv.1.order, hinv.1.ring.fits, hinv.2⟩

end

instance (s : State) (a : Act) : Decidable (Calm s a) := by
  unfold Calm
  split <;> infer_instance

/-- Two bytes, the second of them after the reader has asked for it, and then the end. -/
def twoBytes : List Act :=
  [.write [7, 8], .writeTest, .writeCopy, .read 1, .readTest, .readCopy, .read 1, .readTest, .readCheck,
    .writeTest, .writeCopy, .readTest, .readCopy, .read 1, .readTest, .closeWrite, .readCheck]

theorem stream_of_calm_twoBytes :
    ∃ s, pipes.Run Calm s ∧ s.returned = [7, 8] ∧ s.ends = [⟨true, 0⟩] ∧ IsStream s := by
  have hsome : (pipes.execMeeting Calm twoBytes init).isSome = true := by decide +kernel
  obtain ⟨s, hs⟩ := Option.isSome_iff_exists.mp hsome
  have hrun : pipes.Run Calm s := System.Run.execMeeting (.init rfl) hs
  have hends : ((pipes.execMeeting Calm twoBytes init).map fun s => (s.returned, s.ends)) =
      some ([7, 8], [⟨true, 0⟩]) := by decide +kernel
  rw [hs] at hends
  simp only [Option.map_some, Option.some.injEq, Prod.mk.injEq] at hends
  exact ⟨s, hrun, hends.1, hends.2, stream_of_calm hrun⟩

/-- A byte and the end between the reader's two questions. -/
def lateByte : List Act :=
  [.read 1, .readTest, .write [7], .writeTest, .writeCopy, .closeWrite, .readCheck]

/-- `pipe_read` returns 0 although a byte is left in the pipe. -/
theorem not_stream_lateByte : ∃ s, pipes.Reachable s ∧ ¬ IsStream s := by
  have hends : ((pipes.exec lateByte init).map (·.ends)) = some [⟨true, 1⟩] := by decide +kernel
  obtain ⟨s, hs, he⟩ := Option.map_eq_some_iff.mp hends
  refine ⟨s, System.Run.exec (.init rfl) hs, fun hstream => ?_⟩
  have hmem : (⟨true, 1⟩ : EndOfFile) ∈ s.ends := by rw [he]; exact List.mem_singleton_self _
  exact absurd (hstream.ends _ hmem).2 (by decide)

end Mos.Pipes
