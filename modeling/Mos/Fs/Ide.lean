import Mos.Fs.Init
import Mos.Lib.Program

/-!
# The IDE disk (`fs/ide.c`, `sys_read_dev` and `sys_write_dev`)

The device keeps the registers of `malta.h`. A command transfers the sectors that the registers
name, and the data register streams their words. Between commands the device is busy for some
reads of its status.
-/

namespace Mos.Fs.Ide

open Lib (Bytes wp wp_mono wp_ite)
open Lib.Proc (Trace)

def SECT_SIZE : Nat := 512
def SECT2BLK : Nat := BLOCK_SIZE / SECT_SIZE

def UTEMP : Nat := 0x003fe000
def UTOP : Nat := 0x7f400000

def MALTA_PCIIO_BASE : Nat := 0x18000000
def MALTA_SERIAL_BASE : Nat := MALTA_PCIIO_BASE + 0x3f8
def MALTA_IDE_BASE : Nat := MALTA_PCIIO_BASE + 0x01f0
def MALTA_IDE_NSECT : Nat := MALTA_IDE_BASE + 0x02
def MALTA_IDE_LBAL : Nat := MALTA_IDE_BASE + 0x03
def MALTA_IDE_LBAM : Nat := MALTA_IDE_BASE + 0x04
def MALTA_IDE_LBAH : Nat := MALTA_IDE_BASE + 0x05
def MALTA_IDE_DEVICE : Nat := MALTA_IDE_BASE + 0x06
def MALTA_IDE_STATUS : Nat := MALTA_IDE_BASE + 0x07
def MALTA_IDE_LBA : Nat := 0xE0
def MALTA_IDE_BUSY : UInt8 := 0x80
def MALTA_IDE_CMD_PIO_READ : UInt8 := 0x20
def MALTA_IDE_CMD_PIO_WRITE : UInt8 := 0x30

/-! ## The device -/

/-- What a command transfers: `words` words from the sector `lba` on, of which `pos` have passed. -/
structure Transfer where
  write : Bool
  diskno : Nat
  lba : Nat
  words : Nat
  pos : Nat

structure Device where
  disk : Nat → Bytes
  nsect : UInt8
  lbal : UInt8
  lbam : UInt8
  lbah : UInt8
  device : UInt8
  transfer : Option Transfer
  /-- The number of reads of the status that will find the device busy. -/
  busy : Nat
  /-- How long each command keeps the device busy. -/
  delay : Nat → Nat
  commands : Nat

/-- The sector that the registers name. -/
def Device.lba (d : Device) : Nat :=
  d.lbal.toNat + 256 * d.lbam.toNat + 65536 * d.lbah.toNat + 16777216 * (d.device.toNat % 16)

/-- The number of sectors of a command, where 0 stands for 256. -/
def Device.sectors (d : Device) : Nat := if d.nsect = 0 then 256 else d.nsect.toNat

/-- A command starts, if the registers name a sector by its number. -/
def Device.command (d : Device) (write : Bool) : Device :=
  if d.device &&& 0x40 = 0 then
    { d with transfer := none }
  else
    { d with
      transfer := some ⟨write, d.device.toNat / 16 % 2, d.lba, 128 * d.sectors, 0⟩
      busy := d.delay d.commands
      commands := d.commands + 1 }

/-- A byte is stored to the register number `reg`. A device that is busy takes none. -/
def Device.out8 (d : Device) (reg : Nat) (v : UInt8) : Device :=
  if d.busy ≠ 0 then
    d
  else
    match reg with
    | 2 => { d with nsect := v }
    | 3 => { d with lbal := v }
    | 4 => { d with lbam := v }
    | 5 => { d with lbah := v }
    | 6 => { d with device := v }
    | 7 =>
      if v = MALTA_IDE_CMD_PIO_READ then d.command false
      else if v = MALTA_IDE_CMD_PIO_WRITE then d.command true
      else d
    | _ => d

/-- A load from the status register. -/
def Device.status (d : Device) : UInt8 × Device :=
  if d.busy = 0 then (0x40, d) else (MALTA_IDE_BUSY, { d with busy := d.busy - 1 })

/-- The transfer that the data register takes part in. -/
def Device.active (d : Device) (write : Bool) : Option Transfer :=
  if d.busy ≠ 0 then none
  else d.transfer.bind fun t => if t.write = write ∧ t.pos < t.words then some t else none

def Device.advance (d : Device) (t : Transfer) : Device :=
  { d with transfer := some { t with pos := t.pos + 1 } }

/-- A load from the data register. -/
def Device.in32 (d : Device) : Nat × Device :=
  match d.active false with
  | some t => ((d.disk t.diskno).word (t.lba * SECT_SIZE + 4 * t.pos), d.advance t)
  | none => (0, d)

/-- A store to the data register. -/
def Device.out32 (d : Device) (v : Nat) : Device :=
  match d.active true with
  | some t =>
    { d.advance t with
      disk := Function.update d.disk t.diskno
        ((d.disk t.diskno).setWord (t.lba * SECT_SIZE + 4 * t.pos) v) }
  | none => d

/-! ## System calls -/

structure Machine where
  mem : Bytes
  ide : Device

inductive Stop where
  | panic
  /-- A word at an unaligned address. -/
  | fault
  deriving DecidableEq, Repr

abbrev Io := EStateM Stop Machine

def isIllegalVaRange (va len : Nat) : Bool := decide (va < UTEMP ∨ va + len > UTOP)

/-- The addresses of the IDE disk and of the console. -/
def isDevRange (pa len : Nat) : Bool :=
  decide (MALTA_IDE_BASE ≤ pa ∧ pa + len ≤ MALTA_IDE_BASE + 0x8 ∨
    MALTA_SERIAL_BASE ≤ pa ∧ pa + len ≤ MALTA_SERIAL_BASE + 0x20)

/-- `panic_on(syscall_write_dev(&temp, pa, 1))` -/
def writeByte (pa : Nat) (temp : UInt8) : Io Unit :=
  if isDevRange pa 1 then
    modify fun s => { s with ide := s.ide.out8 (pa - MALTA_IDE_BASE) temp }
  else
    throw .panic

/-- `panic_on(syscall_read_dev(&temp, MALTA_IDE_STATUS, 1))` -/
def readStatus : Io UInt8 := do
  let s ← get
  set { s with ide := s.ide.status.2 }
  return s.ide.status.1

/-- `panic_on(syscall_write_dev(va, MALTA_IDE_DATA, 4))` -/
def writeWord (va : Nat) : Io Unit := do
  if isIllegalVaRange va 4 then
    throw .panic
  else if va % 4 ≠ 0 then
    throw .fault
  else
    modify fun s => { s with ide := s.ide.out32 (s.mem.word va) }

/-- `panic_on(syscall_read_dev(va, MALTA_IDE_DATA, 4))` -/
def readWord (va : Nat) : Io Unit := do
  if isIllegalVaRange va 4 then
    throw .panic
  else if va % 4 ≠ 0 then
    throw .fault
  else
    modify fun s => { mem := s.mem.setWord va s.ide.in32.1, ide := s.ide.in32.2 }

/-! ## `ide_read` and `ide_write` -/

/-- `wait_ide_ready`, for `n` turns at most. -/
def waitFor : Nat → Io UInt8
  | 0 => throw .panic
  | n + 1 => do
    let flag ← readStatus
    if flag &&& MALTA_IDE_BUSY = 0 then return flag else waitFor n

/-- A device that is not busy ends the loop. -/
def waitIdeReady : Io UInt8 := do waitFor ((← get).ide.busy + 1)

/-- The loop over the words of a sector from word `i` on, for `n` turns. -/
def moveWords (move : Nat → Io Unit) (va : Nat) : Nat → Nat → Io Unit
  | 0, _ => return ()
  | n + 1, i => do
    move (va + i * 4)
    moveWords move va n (i + 1)

/-- One turn of `ide_read` or `ide_write`. -/
def moveSector (cmd : UInt8) (move : Nat → Io Unit) (diskno secno va : Nat) : Io Unit := do
  let _ ← waitIdeReady
  writeByte MALTA_IDE_NSECT 1
  writeByte MALTA_IDE_LBAL (UInt8.ofNat (secno &&& 0xff))
  writeByte MALTA_IDE_LBAM (UInt8.ofNat ((secno >>> 8) &&& 0xff))
  writeByte MALTA_IDE_LBAH (UInt8.ofNat ((secno >>> 16) &&& 0xff))
  writeByte MALTA_IDE_DEVICE (UInt8.ofNat (((secno >>> 24) &&& 0x0f) ||| MALTA_IDE_LBA ||| (diskno <<< 4)))
  writeByte MALTA_IDE_STATUS cmd
  let _ ← waitIdeReady
  moveWords move va (SECT_SIZE / 4) 0
  let _ ← readStatus

/-- The loop over the sectors, for `n` turns. -/
def moveSectors (cmd : UInt8) (move : Nat → Io Unit) (diskno va : Nat) : Nat → Nat → Nat → Io Unit
  | 0, _, _ => return ()
  | n + 1, secno, offset => do
    moveSector cmd move diskno secno (va + offset)
    moveSectors cmd move diskno va n (secno + 1) (offset + SECT_SIZE)

/-- What `ide_read` and `ide_write` have in common. -/
def moveRange (cmd : UInt8) (move : Nat → Io Unit) (diskno secno va nsecs : Nat) : Io Unit := do
  let max := (nsecs + secno) % 2 ^ 32
  if diskno ≥ 2 then
    throw .panic
  else
    moveSectors cmd move diskno va (max - secno) secno 0

def ideRead (diskno secno dst nsecs : Nat) : Io Unit :=
  moveRange MALTA_IDE_CMD_PIO_READ readWord diskno secno dst nsecs

def ideWrite (diskno secno src nsecs : Nat) : Io Unit :=
  moveRange MALTA_IDE_CMD_PIO_WRITE writeWord diskno secno src nsecs

/-! ## What is moved -/

def cmdOf (write : Bool) : UInt8 := if write then MALTA_IDE_CMD_PIO_WRITE else MALTA_IDE_CMD_PIO_READ

def moveOf (write : Bool) : Nat → Io Unit := if write then writeWord else readWord

/-- The memory and the disks. -/
structure View where
  mem : Bytes
  disk : Nat → Bytes

def Machine.view (s : Machine) : View := ⟨s.mem, s.ide.disk⟩

/-- `n` bytes are moved between the byte `a` of a disk and the address `va`. -/
def View.moved (v : View) (write : Bool) (diskno a va n : Nat) : View :=
  if write then
    { v with disk := Function.update v.disk diskno ((v.disk diskno).copy a v.mem va n) }
  else
    { v with mem := v.mem.copy va (v.disk diskno) a n }

variable {w : Bool} {diskno secno va n : Nat} {v : View} {s : Machine}

@[simp] theorem moved_zero (v : View) (w : Bool) (diskno a va : Nat) : v.moved w diskno a va 0 = v := by
  unfold View.moved
  simp only [Bytes.copy_zero, Function.update_eq_self]
  exact ite_self v

theorem moved_append (v : View) (w : Bool) (diskno a va j n : Nat) :
    (v.moved w diskno a va j).moved w diskno (a + j) (va + j) n = v.moved w diskno a va (j + n) := by
  unfold View.moved
  cases w
  · simp only [Bool.false_eq_true, if_false, Bytes.copy_append]
  · simp only [if_true, Function.update_self, Function.update_idem, Bytes.copy_append]

theorem disk_moved {v' : View} {a : Nat} (h : v' = v.moved true diskno a va n) (k : Nat) :
    v'.disk k = if k = diskno then (v.disk diskno).copy a v.mem va n else v.disk k := by
  rw [h]
  exact Function.update_apply v.disk diskno _ k

/-! ## The device -/

def Machine.idle (s : Machine) : Machine := { s with ide := { s.ide with busy := 0 } }

/-- The end of a wait is a device that is not busy. -/
theorem waitFor_idle {k : Nat} (h : s.ide.busy < k) {Q : UInt8 → Machine → Prop}
    {E : Stop → Machine → Prop} (hQ : ∀ flag, Q flag s.idle) : wp (waitFor k) Q E s := by
  induction k generalizing s with
  | zero => omega
  | succ k ih =>
    unfold waitFor readStatus
    simp only [Lib.wp_bind, Lib.wp_get, Lib.wp_set, Lib.wp_pure, wp_ite]
    by_cases hb : s.ide.busy = 0
    · have hstatus : s.ide.status = (0x40, s.ide) := if_pos hb
      have hidle : s.idle = s := by
        unfold Machine.idle
        rw [← hb]
      rw [hstatus]
      have hready : (0x40 : UInt8) &&& MALTA_IDE_BUSY = 0 := by decide
      refine ⟨fun _ => ?_, fun hbusy => absurd hready hbusy⟩
      rw [← hidle]
      exact hQ _
    · have hstatus : s.ide.status = (MALTA_IDE_BUSY, { s.ide with busy := s.ide.busy - 1 }) :=
        if_neg hb
      rw [hstatus]
      have hbusy : ¬ MALTA_IDE_BUSY &&& MALTA_IDE_BUSY = 0 := by decide
      refine ⟨fun hready => absurd hready hbusy, fun _ => ?_⟩
      exact ih (by show s.ide.busy - 1 < k; omega) hQ

theorem wait_idle {Q : UInt8 → Machine → Prop} {E : Stop → Machine → Prop}
    (hQ : ∀ flag, Q flag s.idle) : wp waitIdeReady Q E s := by
  unfold waitIdeReady
  rw [Lib.wp_bind, Lib.wp_get]
  exact waitFor_idle (by omega) hQ

theorem wp_writeByte {pa : Nat} {b : UInt8} (h : isDevRange pa 1 = true) {Q : Unit → Machine → Prop}
    {E : Stop → Machine → Prop} :
    wp (writeByte pa b) Q E s ↔ Q () { s with ide := s.ide.out8 (pa - MALTA_IDE_BASE) b } := by
  unfold writeByte
  rw [if_pos h, Lib.wp_modify]

theorem device_byte {h k : Nat} (hh : h < 16) (hk : k < 2) :
    UInt8.ofNat ((h &&& 0x0f) ||| MALTA_IDE_LBA ||| (k <<< 4)) &&& 0x40 ≠ 0 ∧
      (UInt8.ofNat ((h &&& 0x0f) ||| MALTA_IDE_LBA ||| (k <<< 4))).toNat / 16 % 2 = k ∧
      (UInt8.ofNat ((h &&& 0x0f) ||| MALTA_IDE_LBA ||| (k <<< 4))).toNat % 16 = h := by
  have hall : ∀ (h : Fin 16) (k : Fin 2),
      UInt8.ofNat ((h.1 &&& 0x0f) ||| MALTA_IDE_LBA ||| (k.1 <<< 4)) &&& 0x40 ≠ 0 ∧
      (UInt8.ofNat ((h.1 &&& 0x0f) ||| MALTA_IDE_LBA ||| (k.1 <<< 4))).toNat / 16 % 2 = k.1 ∧
      (UInt8.ofNat ((h.1 &&& 0x0f) ||| MALTA_IDE_LBA ||| (k.1 <<< 4))).toNat % 16 = h.1 := by
    decide +kernel
  exact hall ⟨h, hh⟩ ⟨k, hk⟩

theorem toNat_low_byte (x : Nat) : (UInt8.ofNat (x &&& 0xff)).toNat = x % 256 := by
  rw [show (0xff : Nat) = 2 ^ 8 - 1 from rfl, Nat.and_two_pow_sub_one_eq_mod, UInt8.toNat_ofNat']
  omega

/-- The state in which the words of the sector pass: `pos` of them have passed. -/
structure Passing (w : Bool) (diskno secno pos : Nat) (d : Device) : Prop where
  idle : d.busy = 0
  transfer : d.transfer = some ⟨w, diskno, secno, 128, pos⟩

/-- The registers name the sector, and the command starts its transfer. -/
theorem issue {d : Device} (hd : d.busy = 0) (hsec : secno < 2 ^ 28) (hdisk : diskno < 2) :
    ∃ d', ((((((d.out8 2 1).out8 3 (UInt8.ofNat (secno &&& 0xff))).out8 4
      (UInt8.ofNat ((secno >>> 8) &&& 0xff))).out8 5 (UInt8.ofNat ((secno >>> 16) &&& 0xff))).out8 6
      (UInt8.ofNat (((secno >>> 24) &&& 0x0f) ||| MALTA_IDE_LBA ||| (diskno <<< 4)))).out8 7
      (cmdOf w)) = d' ∧ d'.disk = d.disk ∧ d'.transfer = some ⟨w, diskno, secno, 128, 0⟩ := by
  have hhigh : secno >>> 24 < 16 := by
    rw [Nat.shiftRight_eq_div_pow]
    omega
  obtain ⟨hmode, hno, hlow⟩ := device_byte hhigh hdisk
  generalize hb : UInt8.ofNat (((secno >>> 24) &&& 0x0f) ||| MALTA_IDE_LBA ||| (diskno <<< 4)) = b
    at hmode hno hlow
  have hidle : ∀ d : Device, d.busy = 0 → ¬ d.busy ≠ 0 := fun d h => not_not.mpr h
  have h2 : ∀ d : Device, d.busy = 0 → ∀ x, d.out8 2 x = { d with nsect := x } :=
    fun d h x => if_neg (hidle d h)
  have h3 : ∀ d : Device, d.busy = 0 → ∀ x, d.out8 3 x = { d with lbal := x } :=
    fun d h x => if_neg (hidle d h)
  have h4 : ∀ d : Device, d.busy = 0 → ∀ x, d.out8 4 x = { d with lbam := x } :=
    fun d h x => if_neg (hidle d h)
  have h5 : ∀ d : Device, d.busy = 0 → ∀ x, d.out8 5 x = { d with lbah := x } :=
    fun d h x => if_neg (hidle d h)
  have h6 : ∀ d : Device, d.busy = 0 → ∀ x, d.out8 6 x = { d with device := x } :=
    fun d h x => if_neg (hidle d h)
  have h7 : ∀ d : Device, d.busy = 0 → d.out8 7 (cmdOf w) = d.command w := by
    intro d h
    refine (if_neg (hidle d h)).trans ?_
    cases w <;> rfl
  rw [h2 d hd, h3, h4, h5, h6, h7]
  · unfold Device.command
    rw [if_neg hmode]
    refine ⟨_, rfl, rfl, ?_⟩
    simp only [Device.lba, Device.sectors, toNat_low_byte, hno, hlow, Nat.shiftRight_eq_div_pow]
    congr 2
    omega
  all_goals exact hd

/-! ## A sector -/

/-- The addresses from `va` on are legal for `n` bytes in words. -/
structure Buffer (va n : Nat) : Prop where
  aligned : va % 4 = 0
  low : UTEMP ≤ va
  high : va + n ≤ UTOP

theorem Buffer.legal {a : Nat} (h : Buffer a 4) : isIllegalVaRange a 4 = false := by
  have hlow := h.low
  have hhigh := h.high
  unfold isIllegalVaRange
  rw [decide_eq_false]
  omega

theorem Buffer.part {j k : Nat} (h : Buffer va n) (hj : j % 4 = 0) (hk : j + k ≤ n) :
    Buffer (va + j) k where
  aligned := by have := h.aligned; omega
  low := Nat.le_trans h.low (Nat.le_add_right _ _)
  high := by have := h.high; omega

/-- One word passes. -/
theorem move_word {pos : Nat} (hs : Passing w diskno secno pos s.ide) (hpos : pos < 128)
    (hva : Buffer va 4) :
    wp (moveOf w va)
      (fun _ s' => Passing w diskno secno (pos + 1) s'.ide ∧
        s'.view = s.view.moved w diskno (secno * SECT_SIZE + 4 * pos) va 4)
      (fun _ _ => False) s := by
  have hactive : s.ide.active w = some ⟨w, diskno, secno, 128, pos⟩ := by
    unfold Device.active
    rw [if_neg (not_not.mpr hs.idle), hs.transfer]
    exact if_pos ⟨rfl, hpos⟩
  have haligned := hva.aligned
  cases w
  · show wp (readWord va) _ _ s
    unfold readWord
    rw [hva.legal, if_neg Bool.false_ne_true, if_neg (by omega), Lib.wp_modify]
    unfold Device.in32
    rw [hactive]
    refine ⟨⟨hs.idle, rfl⟩, ?_⟩
    show View.mk _ _ = View.mk _ _
    rw [Bytes.setWord_word_eq_copy]
    rfl
  · show wp (writeWord va) _ _ s
    unfold writeWord
    rw [hva.legal, if_neg Bool.false_ne_true, if_neg (by omega), Lib.wp_modify]
    unfold Device.out32
    rw [hactive]
    refine ⟨⟨hs.idle, rfl⟩, ?_⟩
    show View.mk s.mem (Function.update s.ide.disk diskno (Bytes.setWord _ _ _)) = _
    rw [Bytes.setWord_word_eq_copy]
    rfl

/-- The rest of the words pass, by induction on their number. -/
theorem move_words {k i : Nat} (hi : i + k ≤ 128) (hs : Passing w diskno secno i s.ide)
    (hva : Buffer va SECT_SIZE) :
    wp (moveWords (moveOf w) va k i)
      (fun _ s' => s'.ide.busy = 0 ∧
        s'.view = s.view.moved w diskno (secno * SECT_SIZE + 4 * i) (va + i * 4) (4 * k))
      (fun _ _ => False) s := by
  have h512 : SECT_SIZE = 512 := rfl
  induction k generalizing i s with
  | zero =>
    unfold moveWords
    rw [Lib.wp_pure, Nat.mul_zero, moved_zero]
    exact ⟨hs.idle, rfl⟩
  | succ k ih =>
    unfold moveWords
    rw [Lib.wp_bind]
    refine wp_mono (move_word hs (by omega) (hva.part (by omega) (by omega)))
      (fun _ s₁ h₁ => ?_) (fun _ _ h => h)
    refine wp_mono (ih (by omega) h₁.1) (fun _ s₂ h₂ => ⟨h₂.1, ?_⟩) (fun _ _ h => h)
    rw [h₂.2, h₁.2, show secno * SECT_SIZE + 4 * (i + 1) = secno * SECT_SIZE + 4 * i + 4 by omega,
      show va + (i + 1) * 4 = va + i * 4 + 4 by omega, moved_append,
      show 4 + 4 * k = 4 * (k + 1) by omega]

theorem move_issued (hva : Buffer va SECT_SIZE) (hs : Passing w diskno secno 0 s.ide) :
    wp (do
      moveWords (moveOf w) va (SECT_SIZE / 4) 0
      let _ ← readStatus)
      (fun _ s' => s'.view = s.view.moved w diskno (secno * SECT_SIZE) va SECT_SIZE)
      (fun _ _ => False) s := by
  have hwords : 4 * (SECT_SIZE / 4) = SECT_SIZE := rfl
  rw [Lib.wp_bind]
  refine wp_mono (move_words (by decide) hs hva) (fun _ s₁ h₁ => ?_) (fun _ _ h => h)
  rw [hwords, Nat.mul_zero, Nat.add_zero, Nat.add_zero] at h₁
  unfold readStatus
  simp only [Lib.wp_bind, Lib.wp_get, Lib.wp_set, Lib.wp_pure]
  have hstatus : s₁.ide.status = (0x40, s₁.ide) := if_pos h₁.1
  rw [hstatus]
  exact h₁.2

theorem move_sector (hsec : secno < 2 ^ 28) (hdisk : diskno < 2) (hva : Buffer va SECT_SIZE) :
    wp (moveSector (cmdOf w) (moveOf w) diskno secno va)
      (fun _ s' => s'.view = s.view.moved w diskno (secno * SECT_SIZE) va SECT_SIZE)
      (fun _ _ => False) s := by
  obtain ⟨d, hd, hkept, htransfer⟩ := issue (w := w) (d := s.idle.ide) rfl hsec hdisk
  unfold moveSector
  rw [Lib.wp_bind]
  refine wait_idle fun _ => ?_
  rw [Lib.wp_bind, wp_writeByte rfl, Lib.wp_bind, wp_writeByte rfl, Lib.wp_bind, wp_writeByte rfl,
    Lib.wp_bind, wp_writeByte rfl, Lib.wp_bind, wp_writeByte rfl, Lib.wp_bind, wp_writeByte rfl]
  have hview : s.view = View.mk s.mem d.disk := congrArg (View.mk s.mem) hkept.symm
  rw [hview, Lib.wp_bind]
  refine wait_idle fun _ => ?_
  have hnext := move_issued (s := Machine.idle ⟨s.mem, d⟩) hva ⟨rfl, htransfer⟩
  rw [← hd] at hnext ⊢
  exact hnext

/-! ## A range of sectors -/

/-- The sectors are moved in turn, by induction on their number. -/
theorem move_sectors {k offset : Nat} (hsec : secno + k ≤ 2 ^ 28) (hdisk : diskno < 2)
    (hoff : offset % 4 = 0) (hva : Buffer va (offset + k * SECT_SIZE)) :
    wp (moveSectors (cmdOf w) (moveOf w) diskno va k secno offset)
      (fun _ s' => s'.view =
        s.view.moved w diskno (secno * SECT_SIZE) (va + offset) (k * SECT_SIZE))
      (fun _ _ => False) s := by
  have h512 : SECT_SIZE = 512 := rfl
  induction k generalizing secno offset s with
  | zero =>
    unfold moveSectors
    rw [Lib.wp_pure, Nat.zero_mul, moved_zero]
  | succ k ih =>
    rw [Nat.add_one_mul] at hva
    unfold moveSectors
    rw [Lib.wp_bind]
    refine wp_mono (move_sector (by omega) hdisk (hva.part hoff (by omega)))
      (fun _ s₁ h₁ => ?_) (fun _ _ h => h)
    have hrest : Buffer va (offset + SECT_SIZE + k * SECT_SIZE) := by
      rw [Nat.add_assoc, Nat.add_comm SECT_SIZE]
      exact hva
    refine wp_mono (ih (by omega) (by omega) hrest) (fun _ s₂ h₂ => ?_) (fun _ _ h => h)
    rw [h₂, h₁, Nat.add_one_mul, ← Nat.add_assoc, moved_append, Nat.add_one_mul,
      Nat.add_comm SECT_SIZE]

theorem move_range {nsecs : Nat} (hsec : secno + nsecs ≤ 2 ^ 28) (hdisk : diskno < 2)
    (hva : Buffer va (nsecs * SECT_SIZE)) (s : Machine) :
    ∃ s', moveRange (cmdOf w) (moveOf w) diskno secno va nsecs s = .ok () s' ∧
      s'.view = s.view.moved w diskno (secno * SECT_SIZE) va (nsecs * SECT_SIZE) := by
  have hturns : (nsecs + secno) % 2 ^ 32 - secno = nsecs := by
    rw [Nat.mod_eq_of_lt (by omega)]
    omega
  have hspec : wp (moveRange (cmdOf w) (moveOf w) diskno secno va nsecs)
      (fun _ s' => s'.view = s.view.moved w diskno (secno * SECT_SIZE) va (nsecs * SECT_SIZE))
      (fun _ _ => False) s := by
    unfold moveRange
    simp only [hturns]
    rw [if_neg (by omega)]
    exact move_sectors hsec hdisk rfl (by rwa [Nat.zero_add])
  obtain ⟨⟨⟩, s', hrun, hs'⟩ := Lib.exists_of_wp hspec
  exact ⟨s', hrun, hs'⟩

theorem ide_write {nsecs : Nat} (hsec : secno + nsecs ≤ 2 ^ 28) (hdisk : diskno < 2)
    (hva : Buffer va (nsecs * SECT_SIZE)) (s : Machine) :
    ∃ s', ideWrite diskno secno va nsecs s = .ok () s' ∧
      s'.view = s.view.moved true diskno (secno * SECT_SIZE) va (nsecs * SECT_SIZE) :=
  move_range (w := true) hsec hdisk hva s

theorem ide_read {nsecs : Nat} (hsec : secno + nsecs ≤ 2 ^ 28) (hdisk : diskno < 2)
    (hva : Buffer va (nsecs * SECT_SIZE)) (s : Machine) :
    ∃ s', ideRead diskno secno va nsecs s = .ok () s' ∧
      s'.view = s.view.moved false diskno (secno * SECT_SIZE) va (nsecs * SECT_SIZE) :=
  move_range (w := false) hsec hdisk hva s

/-! ## The round trip of a range -/

/-- The bytes from `src` on are in the sectors, and nothing else has changed. -/
structure Written (s s' : Machine) (diskno secno src nsecs : Nat) : Prop where
  mem : s'.mem = s.mem
  bytes : ∀ i < nsecs * SECT_SIZE, s'.ide.disk diskno (secno * SECT_SIZE + i) = s.mem (src + i)
  others : ∀ k x, k ≠ diskno ∨ x / SECT_SIZE < secno ∨ secno + nsecs ≤ x / SECT_SIZE →
    s'.ide.disk k x = s.ide.disk k x

/-- The bytes of the sectors are at `dst`, and nothing else has changed. -/
structure ReadIn (s s' : Machine) (diskno secno dst nsecs : Nat) : Prop where
  disk : s'.ide.disk = s.ide.disk
  bytes : ∀ i < nsecs * SECT_SIZE, s'.mem (dst + i) = s.ide.disk diskno (secno * SECT_SIZE + i)
  others : ∀ x, x < dst ∨ dst + nsecs * SECT_SIZE ≤ x → s'.mem x = s.mem x

theorem written_of_moved {src nsecs : Nat} {s' : Machine} (h : s'.view =
    s.view.moved true diskno (secno * SECT_SIZE) src (nsecs * SECT_SIZE)) :
    Written s s' diskno secno src nsecs where
  mem := congrArg View.mem h
  bytes i hi := by
    have hdisk := disk_moved h diskno
    rw [if_pos rfl] at hdisk
    exact (congrFun hdisk _).trans (Bytes.copy_of_mem hi)
  others k x hx := by
    have h512 : SECT_SIZE = 512 := rfl
    have hdisk := disk_moved h k
    split at hdisk
    · rename_i hk
      subst hk
      exact (congrFun hdisk x).trans (Bytes.copy_of_ne (by rw [h512] at hx ⊢; omega))
    · exact congrFun hdisk x

theorem readIn_of_moved {dst nsecs : Nat} {s' : Machine} (h : s'.view =
    s.view.moved false diskno (secno * SECT_SIZE) dst (nsecs * SECT_SIZE)) :
    ReadIn s s' diskno secno dst nsecs where
  disk := congrArg View.disk h
  bytes _ hi := (congrFun (congrArg View.mem h) _).trans (Bytes.copy_of_mem hi)
  others x hx := (congrFun (congrArg View.mem h) x).trans (Bytes.copy_of_ne hx)

/-! ## Blocks -/

/-- The machine on which the file server runs. -/
structure Hosts (m : Machine) (s : Server) : Prop where
  mem : m.mem = s.mem
  disk : m.ide.disk 0 = s.disk

variable {b : Nat} {m : Machine} {σ : Server}

theorem page_buffer (hb : diskAddr b + BLOCK_SIZE ≤ UTOP) :
    b * SECT2BLK + SECT2BLK ≤ 2 ^ 28 ∧ Buffer (diskAddr b) (SECT2BLK * SECT_SIZE) := by
  have haddr : diskAddr b = 0x10000000 + b * 4096 := rfl
  have hblock : BLOCK_SIZE = 4096 := rfl
  have hratio : SECT2BLK = 8 := rfl
  have hutop : UTOP = 0x7f400000 := rfl
  have hutemp : UTEMP = 0x003fe000 := rfl
  have hsect : SECT_SIZE = 512 := rfl
  rw [hratio, hsect]
  exact ⟨by omega, ⟨by omega, by omega, by omega⟩⟩

theorem ideWrite_block (hb : diskAddr b + BLOCK_SIZE ≤ UTOP) (hm : Hosts m σ) :
    ∃ m', ideWrite 0 (b * SECT2BLK) (diskAddr b) SECT2BLK m = .ok () m' ∧ Hosts m' (σ.ideWrite b) := by
  obtain ⟨hsec, hva⟩ := page_buffer hb
  obtain ⟨m', hrun, hview⟩ := ide_write hsec (by decide : (0 : Nat) < 2) hva m
  refine ⟨m', hrun, (congrArg View.mem hview).trans hm.mem, ?_⟩
  refine (disk_moved hview 0).trans ?_
  show (m.ide.disk 0).copy _ m.mem _ _ = _
  rw [hm.disk, hm.mem, Nat.mul_assoc]
  rfl

theorem ideRead_block (hb : diskAddr b + BLOCK_SIZE ≤ UTOP) (hm : Hosts m σ) :
    ∃ m', ideRead 0 (b * SECT2BLK) (diskAddr b) SECT2BLK m = .ok () m' ∧ Hosts m' (σ.ideRead b) := by
  obtain ⟨hsec, hva⟩ := page_buffer hb
  obtain ⟨m', hrun, hview⟩ := ide_read hsec (by decide : (0 : Nat) < 2) hva m
  refine ⟨m', hrun, ?_, (congrFun (congrArg View.disk hview) 0).trans hm.disk⟩
  refine (congrArg View.mem hview).trans ?_
  show m.mem.copy _ (m.ide.disk 0) _ _ = _
  rw [hm.disk, hm.mem, Nat.mul_assoc]
  rfl

/-- A block that was written and is not in memory is read as it was written, or not at all. -/
theorem read_written {s₂ : Server} (hdisk : s₂.disk = (σ.ideWrite b).disk)
    (hmapped : s₂.mapped b = false) (t : Trace Call Reply) :
    Lib.always (readBlock b)
      (fun r s' t' => match r with
        | .ok a => a = diskAddr b ∧ ∀ i < BLOCK_SIZE, s'.mem (a + i) = σ.mem (diskAddr b + i)
        | .error e => s' = s₂ ∧ t' = t ++ [⟨.memAlloc (diskAddr b), .error e⟩])
      (fun e s' _ => s' = s₂ ∧
        (e = .fault ∨ e = .panic .readNonexistent ∨ e = .panic .readFree)) s₂ t := by
  unfold readBlock
  rw [Lib.always_bind]
  refine Lib.always_mono (always_isNonexistent b s₂ t) ?_ (fun e s' _ h => ⟨h.1, .inl h.2⟩)
  rintro c₁ _ _ ⟨rfl, rfl⟩
  rw [Lib.always_ite, Lib.always_throw]
  refine ⟨fun _ => ⟨rfl, .inr (.inl rfl)⟩, fun _ => ?_⟩
  rw [Lib.always_bind]
  refine Lib.always_mono (always_isKnownFree b _ _) ?_ (fun e s' _ h => ⟨h.1, .inl h.2⟩)
  rintro c₂ s₂ t ⟨rfl, rfl⟩
  rw [Lib.always_ite, Lib.always_throw]
  refine ⟨fun _ => ⟨rfl, .inr (.inr rfl)⟩, fun _ => ?_⟩
  unfold loadBlock
  rw [Lib.always_bind, Lib.always_get, hmapped, if_neg Bool.false_ne_true, Lib.always_bind]
  unfold call
  rw [Lib.always_call]
  intro r
  cases r with
  | error e =>
    rw [Lib.always_pure]
    exact ⟨rfl, rfl⟩
  | ok u =>
    rw [Lib.always_bind, Lib.always_modify, Lib.always_pure]
    refine ⟨rfl, fun i hi => ?_⟩
    show Bytes.copy _ _ _ _ _ _ = _
    rw [Bytes.copy_of_mem hi]
    show s₂.disk _ = _
    rw [hdisk]
    exact Bytes.copy_of_mem hi

/-- `ide_write` and `ide_read` of a block are those of the file server, and blocks are apart. -/
structure BlockTransfers (s : Server) (b : Nat) : Prop where
  write : ∀ m, Hosts m s →
    ∃ m', ideWrite 0 (b * SECT2BLK) (diskAddr b) SECT2BLK m = .ok () m' ∧ Hosts m' (s.ideWrite b)
  read : ∀ m, Hosts m s →
    ∃ m', ideRead 0 (b * SECT2BLK) (diskAddr b) SECT2BLK m = .ok () m' ∧ Hosts m' (s.ideRead b)
  writeBlock : s.mapped b = true → ∀ t,
    Lib.always (writeBlock b) (fun _ s' t' => s' = s.ideWrite b ∧ t' = t) (fun _ _ _ => False) s t
  readBlock : ∀ s₂ : Server, s₂.disk = (s.ideWrite b).disk → s₂.mapped b = false → ∀ t,
    Lib.always (readBlock b)
      (fun r s' t' => match r with
        | .ok a => a = diskAddr b ∧ ∀ i < BLOCK_SIZE, s'.mem (a + i) = s.mem (diskAddr b + i)
        | .error e => s' = s₂ ∧ t' = t ++ [⟨.memAlloc (diskAddr b), .error e⟩])
      (fun e s' _ => s' = s₂ ∧
        (e = .fault ∨ e = .panic .readNonexistent ∨ e = .panic .readFree)) s₂ t
  apart : ∀ b' ≠ b, ∀ i < BLOCK_SIZE,
    (s.ideWrite b).disk (b' * BLOCK_SIZE + i) = s.disk (b' * BLOCK_SIZE + i) ∧
    (s.ideRead b).mem (diskAddr b' + i) = s.mem (diskAddr b' + i)

theorem block_transfers (σ : Server) (hb : diskAddr b + BLOCK_SIZE ≤ UTOP) : BlockTransfers σ b where
  write _ hm := ideWrite_block hb hm
  read _ hm := ideRead_block hb hm
  writeBlock hmapped t := by
    unfold Mos.Fs.writeBlock
    rw [Lib.always_bind, Lib.always_get, hmapped, if_pos rfl, Lib.always_set]
    exact ⟨rfl, rfl⟩
  readBlock _ hdisk hmapped t := read_written hdisk hmapped t
  apart b' hne i hi := by
    have hsize : BLOCK_SIZE = 4096 := rfl
    have haddr : ∀ n, diskAddr n = 0x10000000 + n * 4096 := fun _ => rfl
    have hmul : ∀ n, n * BLOCK_SIZE = n * 4096 := fun _ => rfl
    constructor
    · refine Bytes.copy_of_ne ?_
      rw [hmul, hmul]
      omega
    · refine Bytes.copy_of_ne ?_
      rw [haddr, haddr]
      omega

/-- What `ide_write` stores is what `ide_read` returns, for sectors and for blocks. -/
theorem disk_round_trip :
    (∀ (s : Machine) (diskno secno src nsecs : Nat), diskno < 2 → secno + nsecs ≤ 2 ^ 28 →
      Buffer src (nsecs * SECT_SIZE) →
      ∃ s', ideWrite diskno secno src nsecs s = .ok () s' ∧ Written s s' diskno secno src nsecs ∧
        ∀ (dst : Nat) (r : Machine), r.ide.disk = s'.ide.disk → Buffer dst (nsecs * SECT_SIZE) →
          ∃ r', ideRead diskno secno dst nsecs r = .ok () r' ∧ ReadIn r r' diskno secno dst nsecs ∧
            ∀ i < nsecs * SECT_SIZE, r'.mem (dst + i) = s.mem (src + i)) ∧
      ∀ (s : Server) (b : Nat), diskAddr b + BLOCK_SIZE ≤ UTOP → BlockTransfers s b := by
  refine ⟨fun s diskno secno src nsecs hdisk hsec hsrc => ?_, fun s _ hb => block_transfers s hb⟩
  obtain ⟨s', hwrite, hview⟩ := ide_write hsec hdisk hsrc s
  have hwritten := written_of_moved hview
  refine ⟨s', hwrite, hwritten, fun dst r hr hdst => ?_⟩
  obtain ⟨r', hread, hview'⟩ := ide_read hsec hdisk hdst r
  have hin := readIn_of_moved hview'
  refine ⟨r', hread, hin, fun i hi => ?_⟩
  rw [hin.bytes i hi, hr]
  exact hwritten.bytes i hi

def blank : Machine where
  mem _ := 7
  ide :=
    { disk := fun _ _ => 0, nsect := 0, lbal := 0, lbam := 0, lbah := 0, device := 0,
      transfer := none, busy := 3, delay := fun n => n, commands := 0 }

/-- The last sector of the second disk is written, and the second block can be. -/
theorem disk_round_trip_last :
    (∃ s', ideWrite 1 (2 ^ 28 - 1) UTEMP 1 blank = .ok () s' ∧
      s'.ide.disk 1 ((2 ^ 28 - 1) * SECT_SIZE) = 7) ∧
    BlockTransfers (Server.start fun _ => 0) 1 := by
  constructor
  · obtain ⟨s', hrun, hwritten, -⟩ := disk_round_trip.1 blank 1 (2 ^ 28 - 1) UTEMP 1 (by decide)
      (by decide) ⟨by decide, by decide, by decide⟩
    exact ⟨s', hrun, hwritten.bytes 0 (by decide)⟩
  · exact disk_round_trip.2 _ 1 (by decide)

end Mos.Fs.Ide
