import Mos.User.File

/-!
# Duplicating a descriptor (`user/lib/fd.c`)

The address space is its page directory with its page tables. Whether a frame can be had for a
page table is up to `granted`, and the file server's answers during `close` are a parameter.
-/

namespace Mos.User.Dup

open Fs (Err DEVFILE_ID PTE_D PTE_LIBRARY)
open Lib (Bytes wp wp_mono wp_ite)

def UTEMP : Nat := 0x003fe000
def UTOP : Nat := 0x7f400000
def DEVCONS_ID : Nat := 'c'.toNat
def DEVPIPE_ID : Nat := 'p'.toNat

structure Pte where
  frame : Nat
  /-- The permission bits of the entry. -/
  perm : Nat

structure Space where
  dir : Nat → Option (Nat → Option Pte)
  /-- The contents of the frames. -/
  content : Nat → Bytes
  /-- The answers to the requests for a frame. -/
  granted : Nat → Bool
  asked : Nat

/-- `vpt[p]`, if it has `PTE_V`. -/
def Space.pte (s : Space) (p : Nat) : Option Pte := (s.dir (p / 1024)).bind (· (p % 1024))

/-- The entry of page `p` is set, in a table that is new if there was none. -/
def Space.insert (s : Space) (p : Nat) (e : Pte) : Space :=
  { s with
    dir := Function.update s.dir (p / 1024)
      (some (Function.update ((s.dir (p / 1024)).getD fun _ => none) (p % 1024) (some e))) }

def Space.remove (s : Space) (p : Nat) : Space :=
  { s with
    dir := Function.update s.dir (p / 1024)
      ((s.dir (p / 1024)).map fun t => Function.update t (p % 1024) none) }

inductive Stop where
  | panic
  /-- A loop that does not end. -/
  | hangs
  deriving DecidableEq, Repr

abbrev Prog := EStateM Stop Space

/-! ## System calls -/

def legal (va : Nat) : Bool := decide (UTEMP ≤ va ∧ va < UTOP)

/-- `page_insert` -/
def pageInsert (frame va perm : Nat) : Prog (Except Err Unit) := do
  let s ← get
  if (s.dir (va / PTMAP / 1024)).isSome then do
    set (s.insert (va / PTMAP) ⟨frame, perm⟩)
    return .ok ()
  else if s.granted s.asked then do
    set { s.insert (va / PTMAP) ⟨frame, perm⟩ with asked := s.asked + 1 }
    return .ok ()
  else do
    set { s with asked := s.asked + 1 }
    return .error .noMem

/-- `syscall_mem_map(0, srcva, 0, dstva, perm)` -/
def memMap (srcva dstva perm : Nat) : Prog (Except Err Unit) := do
  if ¬ legal srcva ∨ ¬ legal dstva then
    return .error .inval
  else
    match (← get).pte (srcva / PTMAP) with
    | none => return .error .inval
    | some e => pageInsert e.frame dstva perm

/-- `syscall_mem_unmap(0, va)` -/
def memUnmap (va : Nat) : Prog (Except Err Unit) := do
  if legal va then do
    modify (·.remove (va / PTMAP))
    return .ok ()
  else
    return .error .inval

/-- `panic_on(syscall_mem_unmap(0, va))` -/
def mustUnmap (va : Nat) : Prog Unit := do
  match ← memUnmap va with
  | .ok () => return ()
  | .error _ => throw .panic

/-! ## Descriptors -/

/-- `INDEX2FD`, in 32 bits. -/
def index2fd (i : Int) : Nat := ((FDTABLE + i * PTMAP) % 2 ^ 32).toNat

def fd2num (fd : Nat) : Nat := (fd + 2 ^ 32 - FDTABLE) % 2 ^ 32 / PTMAP

/-- `INDEX2DATA(fd2num(fd))`, in 32 bits. -/
def fd2data (fd : Nat) : Nat := (FILEBASE + fd2num fd * PDMAP) % 2 ^ 32

/-- `vpt[p]`. The kernel gives a page table where there is none, or it panics. -/
def vpt (p : Nat) : Prog (Option Pte) := do
  let s ← get
  if (s.dir (p / 1024)).isSome then
    return s.pte p
  else if s.granted s.asked then do
    set { s with dir := Function.update s.dir (p / 1024) (some fun _ => none), asked := s.asked + 1 }
    return none
  else
    throw .panic

def fdLookup (fdnum : Int) : Prog (Except Err Nat) := do
  if fdnum ≥ MAXFD then
    return .error .inval
  else
    match ← vpt (index2fd fdnum / PTMAP) with
    | some _ => return .ok (index2fd fdnum)
    | none => return .error .inval

/-- A word of the page at `fd`. -/
def Space.word (s : Space) (fd off : Nat) : Nat :=
  match s.pte (fd / PTMAP) with
  | some e => (s.content e.frame).word off
  | none => 0

inductive Device where
  | file
  | cons
  | pipe
  deriving DecidableEq, Repr

/-- `dev_lookup(fd->fd_dev_id, &dev)` -/
def devLookup (devId : Nat) : Option Device :=
  if devId = DEVFILE_ID then some .file
  else if devId = DEVCONS_ID then some .cons
  else if devId = DEVPIPE_ID then some .pipe
  else none

/-- The results of `fsipc_dirty` and `fsipc_close` during one call. -/
structure Answers where
  dirty (fileid offset : Nat) : Int
  close (fileid : Nat) : Int

variable (srv : Answers)

/-- The number of pages that a file of `size` bytes takes. -/
def pagesOf (size : Nat) : Nat := (size + (PTMAP - 1)) / PTMAP

/-- The first error of the loop over `fsipc_dirty` from `i` on, for `n` turns. -/
def dirtyFrom (fileid : Nat) : Nat → Nat → Option Int
  | 0, _ => none
  | n + 1, i => if srv.dirty fileid i < 0 then some (srv.dirty fileid i) else dirtyFrom fileid n (i + PTMAP)

/-- The loop over `syscall_mem_unmap` from `i` on, for `n` turns. -/
def unmapFrom (va : Nat) : Nat → Nat → Prog Int
  | 0, _ => return 0
  | n + 1, i => do
    match ← memUnmap (va + i) with
    | .error e => return e.code
    | .ok () => unmapFrom va n (i + PTMAP)

/-- `file_close`. The counter of its loops does not reach a size in the last page of 32 bits. -/
def fileClose (fd : Nat) : Prog Int := do
  let s ← get
  let fileid := s.word fd 12
  let size := s.word fd 144
  match dirtyFrom srv fileid (pagesOf size) 0 with
  | some r => return r
  | none =>
    if size > 2 ^ 32 - PTMAP then throw .hangs
    else if srv.close fileid < 0 then return srv.close fileid
    else unmapFrom (fd2data fd) (pagesOf size) 0

def pipeClose (fd : Nat) : Prog Int := do
  let _ ← memUnmap fd
  let _ ← memUnmap (fd2data fd)
  return 0

def devClose (dev : Device) (fd : Nat) : Prog Int :=
  match dev with
  | .file => fileClose srv fd
  | .cons => return 0
  | .pipe => pipeClose fd

def close (fdnum : Int) : Prog Int := do
  match ← fdLookup fdnum with
  | .error e => return e.code
  | .ok fd =>
    match devLookup ((← get).word fd 0) with
    | none => return Err.inval.code
    | some dev => do
      let r ← devClose srv dev fd
      mustUnmap fd
      return r

/-! ## `dup` -/

def sharedPerm (e : Pte) : Nat := e.perm &&& (PTE_D ||| PTE_LIBRARY)

/-- The loop that maps the data pages, from `i` on, for `n` turns. -/
def copyFrom (ova nva : Nat) : Nat → Nat → Prog (Except Err Unit)
  | 0, _ => return .ok ()
  | n + 1, i => do
    match (← get).pte ((ova + i) / PTMAP) with
    | none => copyFrom ova nva n (i + PTMAP)
    | some e =>
      match ← memMap (ova + i) (nva + i) (sharedPerm e) with
      | .error e => return .error e
      | .ok () => copyFrom ova nva n (i + PTMAP)

/-- The loop that cancels the data pages, from `i` on, for `n` turns. -/
def cancelFrom (nva : Nat) : Nat → Nat → Prog Unit
  | 0, _ => return ()
  | n + 1, i => do
    mustUnmap (nva + i)
    cancelFrom nva n (i + PTMAP)

/-- The end of `dup` after an error. -/
def cancel (newfd : Nat) (e : Err) : Prog (Except Err Int) := do
  mustUnmap newfd
  cancelFrom (fd2data newfd) (PDMAP / PTMAP) 0
  return .error e

def copyData (ova nva : Nat) : Prog (Except Err Unit) := do
  if ((← get).dir (ova / PDMAP)).isSome then copyFrom ova nva (PDMAP / PTMAP) 0 else return .ok ()

/-- `vpt[VPN(oldfd)] & (PTE_D | PTE_LIBRARY)` -/
def fdPerm (s : Space) (oldfd : Nat) : Nat :=
  match s.pte (oldfd / PTMAP) with
  | some e => sharedPerm e
  | none => 0

/-- `dup` after `close(newfdnum)`. -/
def copyFd (oldfd newfd : Nat) (newfdnum : Int) : Prog (Except Err Int) := do
  match ← copyData (fd2data oldfd) (fd2data newfd) with
  | .error e => cancel newfd e
  | .ok () =>
    match ← memMap oldfd newfd (fdPerm (← get) oldfd) with
    | .error e => cancel newfd e
    | .ok () => return .ok newfdnum

/-- `.ok` is the return of `newfdnum`, and `.error` that of an error code. -/
def dup (oldfdnum newfdnum : Int) : Prog (Except Err Int) := do
  match ← fdLookup oldfdnum with
  | .error e => return .error e
  | .ok oldfd => do
    let _ ← close srv newfdnum
    copyFd oldfd (index2fd newfdnum) newfdnum

/-! ## Page tables -/

variable {s s' : Space} {p q : Nat} {e : Pte}

theorem pte_insert (s : Space) (p q : Nat) (e : Pte) :
    (s.insert p e).pte q = if q = p then some e else s.pte q := by
  unfold Space.pte Space.insert
  by_cases hd : q / 1024 = p / 1024
  · simp only [hd, Function.update_self, Option.bind_some]
    by_cases hm : q % 1024 = p % 1024
    · rw [hm, Function.update_self, if_pos (by omega)]
    · rw [Function.update_of_ne hm, if_neg (by rintro rfl; exact hm rfl)]
      cases s.dir (p / 1024) <;> rfl
  · simp only [Function.update_of_ne hd]
    rw [if_neg (by rintro rfl; exact hd rfl)]

theorem pte_remove (s : Space) (p q : Nat) :
    (s.remove p).pte q = if q = p then none else s.pte q := by
  unfold Space.pte Space.remove
  by_cases hd : q / 1024 = p / 1024
  · simp only [hd, Function.update_self]
    by_cases hm : q % 1024 = p % 1024
    · rw [if_pos (by omega), hm]
      cases s.dir (p / 1024) with
      | none => rfl
      | some t => exact Function.update_self _ _ _
    · rw [if_neg (by rintro rfl; exact hm rfl)]
      cases s.dir (p / 1024) with
      | none => rfl
      | some t => exact Function.update_of_ne hm _ _
  · simp only [Function.update_of_ne hd]
    rw [if_neg (by rintro rfl; exact hd rfl)]

theorem dir_of_pte (h : s.pte p ≠ none) : s.dir (p / 1024) ≠ none := by
  intro hnone
  unfold Space.pte at h
  rw [hnone] at h
  exact h rfl

theorem dir_insert (s : Space) (p : Nat) (e : Pte) {d : Nat} (h : s.dir d ≠ none ∨ d = p / 1024) :
    (s.insert p e).dir d ≠ none := by
  unfold Space.insert
  by_cases hd : d = p / 1024
  · subst hd
    simp only [Function.update_self]
    exact Option.some_ne_none _
  · simp only [Function.update_of_ne hd]
    exact h.resolve_right hd

/-- The pages of the addresses `l` are unmapped in turn. -/
def Space.removeAll (s : Space) (l : List Nat) : Space := l.foldl (fun s va => s.remove (va / PTMAP)) s

theorem pte_removeAll (s : Space) (l : List Nat) (q : Nat) :
    (s.removeAll l).pte q = if q ∈ l.map (· / PTMAP) then none else s.pte q := by
  induction l generalizing s with
  | nil => rfl
  | cons va l ih =>
    show ((s.remove (va / PTMAP)).removeAll l).pte q = _
    rw [ih, pte_remove, List.map_cons]
    by_cases hq : q = va / PTMAP
    · rw [if_pos hq, ite_self, if_pos (List.mem_cons.mpr (.inl hq))]
    · simp only [hq, if_false, List.mem_cons, false_or]

/-! ## What the system calls do -/

variable {src dst perm va n j : Nat}

/-- A mapping is made, or nothing changes but the requests for frames. -/
theorem memMap_spec (src dst perm : Nat) (s : Space) :
    wp (memMap src dst perm)
      (fun r s' => match r with
        | .ok () => legal dst = true ∧ ∃ e k, s.pte (src / PTMAP) = some e ∧
            s' = { s.insert (dst / PTMAP) ⟨e.frame, perm⟩ with asked := k }
        | .error _ => (∃ k, s' = { s with asked := k }) ∧ (legal src = false ∨ legal dst = false ∨
            s.pte (src / PTMAP) = none ∨ s.dir (dst / PTMAP / 1024) = none ∧ s.granted s.asked = false))
      (fun _ _ => False) s := by
  unfold memMap
  rw [wp_ite]
  constructor
  · intro h
    rw [Lib.wp_pure]
    refine ⟨⟨s.asked, rfl⟩, ?_⟩
    rcases h with h | h
    · exact .inl (Bool.eq_false_iff.mpr h)
    · exact .inr (.inl (Bool.eq_false_iff.mpr h))
  · intro h
    have hdst : legal dst = true := not_not.mp (not_or.mp h).2
    rw [Lib.wp_bind, Lib.wp_get]
    cases hpte : s.pte (src / PTMAP) with
    | none =>
      simp only [Lib.wp_pure]
      exact ⟨⟨s.asked, rfl⟩, .inr (.inr (.inl trivial))⟩
    | some e =>
      simp only
      unfold pageInsert
      rw [Lib.wp_bind, Lib.wp_get, wp_ite]
      constructor
      · intro _
        rw [Lib.wp_bind, Lib.wp_set, Lib.wp_pure]
        exact ⟨hdst, e, s.asked, rfl, rfl⟩
      · intro hdir
        rw [wp_ite]
        constructor
        · intro _
          rw [Lib.wp_bind, Lib.wp_set, Lib.wp_pure]
          exact ⟨hdst, e, s.asked + 1, rfl, rfl⟩
        · intro hgranted
          rw [Lib.wp_bind, Lib.wp_set, Lib.wp_pure]
          refine ⟨⟨_, rfl⟩, .inr (.inr (.inr ⟨?_, Bool.eq_false_iff.mpr hgranted⟩))⟩
          exact Option.not_isSome_iff_eq_none.mp hdir

theorem mustUnmap_spec (va : Nat) (s : Space) :
    wp (mustUnmap va) (fun _ s' => legal va = true ∧ s' = s.remove (va / PTMAP))
      (fun _ _ => legal va = false) s := by
  unfold mustUnmap memUnmap
  rw [Lib.wp_bind, wp_ite]
  constructor
  · intro h
    simp only [Lib.wp_bind, Lib.wp_modify, Lib.wp_pure]
    exact ⟨h, trivial⟩
  · intro h
    simp only [Lib.wp_pure, Lib.wp_throw]
    exact Bool.eq_false_iff.mpr h

/-! ## Closing -/

/-- The device of an open descriptor. -/
def kind (s : Space) (fdnum : Int) : Option Device :=
  if fdnum ≥ MAXFD ∨ s.pte (index2fd fdnum / PTMAP) = none then none
  else devLookup (s.word (index2fd fdnum) 0)

/-- The data of a descriptor. -/
def dataAt (fdnum : Int) : Nat := fd2data (index2fd fdnum)

def sizeOf (s : Space) (fdnum : Int) : Nat := s.word (index2fd fdnum) 144

def fileidOf (s : Space) (fdnum : Int) : Nat := s.word (index2fd fdnum) 12

variable (srv : Answers)

/-- The file server knows of every dirty page. -/
def saves (s : Space) (fdnum : Int) : Bool :=
  (dirtyFrom srv (fileidOf s fdnum) (pagesOf (sizeOf s fdnum)) 0).isNone

/-- The loop of `file_close` does not end. -/
def Hangs (s : Space) (fdnum : Int) : Prop :=
  kind s fdnum = some .file ∧ saves srv s fdnum = true ∧ sizeOf s fdnum > 2 ^ 32 - PTMAP

/-- The addresses that `close` unmaps. -/
def released (s : Space) (fdnum : Int) : List Nat :=
  match kind s fdnum with
  | none => []
  | some .cons => [index2fd fdnum]
  | some .pipe => [index2fd fdnum, dataAt fdnum, index2fd fdnum].filter legal
  | some .file =>
    (if saves srv s fdnum ∧ 0 ≤ srv.close (fileidOf s fdnum) then
      ((List.range (pagesOf (sizeOf s fdnum))).map (dataAt fdnum + · * PTMAP)).takeWhile legal
    else []) ++ [index2fd fdnum]

variable {srv}

theorem unmapFrom_spec (va n j : Nat) (s : Space) :
    wp (unmapFrom va n (j * PTMAP))
      (fun _ s' => s' = s.removeAll (((List.range n).map fun k => va + (j + k) * PTMAP).takeWhile legal))
      (fun _ _ => False) s := by
  induction n generalizing j s with
  | zero =>
    unfold unmapFrom
    rw [Lib.wp_pure]
    rfl
  | succ n ih =>
    have hrest : (List.range n).map ((fun k => va + (j + k) * PTMAP) ∘ Nat.succ) =
        (List.range n).map fun k => va + (j + 1 + k) * PTMAP := by
      apply List.map_congr_left
      intro k _
      show va + (j + (k + 1)) * PTMAP = _
      rw [show j + (k + 1) = j + 1 + k by omega]
    unfold unmapFrom memUnmap
    rw [List.range_succ_eq_map, List.map_cons, List.map_map, hrest, Nat.add_zero, Lib.wp_bind, wp_ite]
    constructor
    · intro h
      rw [List.takeWhile_cons_of_pos h, Lib.wp_bind, Lib.wp_modify, Lib.wp_pure]
      simp only
      rw [← Nat.add_one_mul]
      exact ih (j + 1) _
    · intro h
      rw [List.takeWhile_cons_of_neg h, Lib.wp_pure]
      simp only [Lib.wp_pure]
      rfl

theorem removeAll_append (s : Space) (l l' : List Nat) :
    (s.removeAll l).removeAll l' = s.removeAll (l ++ l') := List.foldl_append.symm

theorem memUnmap_spec (va : Nat) (s : Space) :
    wp (memUnmap va) (fun _ s' => s' = s.removeAll ([va].filter legal)) (fun _ _ => False) s := by
  unfold memUnmap
  rw [wp_ite]
  constructor
  · intro h
    rw [Lib.wp_bind, Lib.wp_modify, Lib.wp_pure, List.filter_cons_of_pos h]
    rfl
  · intro h
    rw [Lib.wp_pure, List.filter_cons_of_neg h]
    rfl

/-- Where there is a page table, `fd_lookup` only looks. -/
theorem fdLookup_spec (fdnum : Int) (hdir : s.dir (index2fd fdnum / PTMAP / 1024) ≠ none) :
    wp (fdLookup fdnum)
      (fun r s' => s' = s ∧ match r with
        | .ok fd => fd = index2fd fdnum ∧ ¬ (fdnum ≥ MAXFD ∨ s.pte (index2fd fdnum / PTMAP) = none)
        | .error _ => fdnum ≥ MAXFD ∨ s.pte (index2fd fdnum / PTMAP) = none)
      (fun _ _ => False) s := by
  unfold fdLookup vpt
  rw [wp_ite]
  constructor
  · intro h
    rw [Lib.wp_pure]
    exact ⟨rfl, .inl h⟩
  · intro h
    rw [Lib.wp_bind, Lib.wp_bind, Lib.wp_get, wp_ite]
    refine ⟨fun _ => ?_, fun hnot => absurd (Option.isSome_iff_ne_none.mpr hdir) hnot⟩
    rw [Lib.wp_pure]
    cases hpte : s.pte (index2fd fdnum / PTMAP) with
    | none =>
      simp only [Lib.wp_pure]
      exact ⟨trivial, .inr trivial⟩
    | some e =>
      simp only [Lib.wp_pure]
      exact ⟨trivial, trivial, by simp [h]⟩

theorem fileClose_spec (fdnum : Int) (s : Space) :
    wp (fileClose srv (index2fd fdnum))
      (fun _ s' => s' = s.removeAll (if saves srv s fdnum ∧ 0 ≤ srv.close (fileidOf s fdnum) then
        ((List.range (pagesOf (sizeOf s fdnum))).map (dataAt fdnum + · * PTMAP)).takeWhile legal
        else []))
      (fun _ _ => saves srv s fdnum = true ∧ sizeOf s fdnum > 2 ^ 32 - PTMAP) s := by
  unfold fileClose saves
  rw [Lib.wp_bind, Lib.wp_get]
  show wp (match dirtyFrom srv (fileidOf s fdnum) (pagesOf (sizeOf s fdnum)) 0 with
    | some r => pure r
    | none => if sizeOf s fdnum > 2 ^ 32 - PTMAP then throw .hangs
      else if srv.close (fileidOf s fdnum) < 0 then pure (srv.close (fileidOf s fdnum))
      else unmapFrom (dataAt fdnum) (pagesOf (sizeOf s fdnum)) 0) _ _ s
  cases hdirty : dirtyFrom srv (fileidOf s fdnum) (pagesOf (sizeOf s fdnum)) 0 with
  | some r =>
    simp only [Lib.wp_pure, Option.isNone_some, Bool.false_eq_true, false_and, if_false]
    rfl
  | none =>
    simp only [Option.isNone_none, true_and]
    rw [wp_ite, wp_ite]
    refine ⟨fun hsize => (Lib.wp_throw _).mpr hsize, fun _ => ⟨fun hclose => ?_, fun hclose => ?_⟩⟩
    · rw [Lib.wp_pure, if_neg (by omega)]
      rfl
    · rw [if_pos (by omega)]
      have hspec := unmapFrom_spec (dataAt fdnum) (pagesOf (sizeOf s fdnum)) 0 s
      simp only [Nat.zero_mul, Nat.zero_add] at hspec
      exact wp_mono hspec (fun _ _ h => h) (fun _ _ h => h.elim)

/-- `close` unmaps what it releases. -/
theorem close_spec (fdnum : Int) (hdir : s.dir (index2fd fdnum / PTMAP / 1024) ≠ none) :
    wp (close srv fdnum) (fun _ s' => s' = s.removeAll (released srv s fdnum))
      (fun _ _ => Hangs srv s fdnum ∨ legal (index2fd fdnum) = false) s := by
  unfold close
  rw [Lib.wp_bind]
  refine wp_mono (fdLookup_spec fdnum hdir) ?_ (fun _ _ h => h.elim)
  rintro (e | fd) s₁ ⟨heq, h⟩ <;> obtain rfl : s = s₁ := heq.symm
  · have hkind : kind s fdnum = none := if_pos h
    simp only [Lib.wp_pure]
    unfold released
    rw [hkind]
    rfl
  · obtain ⟨rfl, hopen⟩ := h
    have hkind : kind s fdnum = devLookup (s.word (index2fd fdnum) 0) := if_neg hopen
    simp only
    rw [Lib.wp_bind, Lib.wp_get, ← hkind]
    cases hdev : kind s fdnum with
    | none =>
      simp only [Lib.wp_pure]
      unfold released
      rw [hdev]
      rfl
    | some dev =>
      simp only
      rw [Lib.wp_bind]
      unfold devClose released Hangs
      rw [hdev]
      cases dev with
      | file =>
        refine wp_mono (fileClose_spec fdnum s) ?_ (fun _ _ h => .inl ⟨rfl, h⟩)
        rintro _ _ rfl
        rw [Lib.wp_bind]
        refine wp_mono (mustUnmap_spec _ _) (fun _ s₂ h₂ => ?_) (fun _ _ h => .inr h)
        rw [Lib.wp_pure, h₂.2]
        exact removeAll_append s _ [index2fd fdnum]
      | cons =>
        simp only
        rw [Lib.wp_pure, Lib.wp_bind]
        refine wp_mono (mustUnmap_spec _ _) (fun _ s₂ h₂ => ?_) (fun _ _ h => .inr h)
        rw [Lib.wp_pure, h₂.2]
        rfl
      | pipe =>
        simp only
        unfold pipeClose
        rw [Lib.wp_bind]
        refine wp_mono (memUnmap_spec _ _) ?_ (fun _ _ h => h.elim)
        rintro _ _ rfl
        rw [Lib.wp_bind]
        refine wp_mono (memUnmap_spec _ _) ?_ (fun _ _ h => h.elim)
        rintro _ _ rfl
        rw [Lib.wp_pure, Lib.wp_bind]
        refine wp_mono (mustUnmap_spec _ _) (fun _ s₂ h₂ => ?_) (fun _ _ h => .inr h)
        rw [Lib.wp_pure, h₂.2, removeAll_append]
        show (s.removeAll _).removeAll [index2fd fdnum] = _
        rw [removeAll_append]
        congr 1
        show [index2fd fdnum].filter legal ++ [dataAt fdnum].filter legal ++ [index2fd fdnum] = _
        have hlast : [index2fd fdnum].filter legal = [index2fd fdnum] := List.filter_cons_of_pos h₂.1
        rw [show [index2fd fdnum, dataAt fdnum, index2fd fdnum] =
          [index2fd fdnum] ++ [dataAt fdnum] ++ [index2fd fdnum] from rfl, List.filter_append,
          List.filter_append, hlast]

/-! ## Copying -/

/-- Page `p` is in the window of 4 MB at `va`. -/
def InWindow (va p : Nat) : Prop := va / PTMAP ≤ p ∧ p < va / PTMAP + 1024

instance (va p : Nat) : Decidable (InWindow va p) := inferInstanceAs (Decidable (_ ∧ _))

/-- The entry of page `p` after `n` pages from page `j` on of the window at `ova` are shared. -/
def shared (s : Space) (ova nva j n p : Nat) : Option Pte :=
  if nva / PTMAP + j ≤ p ∧ p < nva / PTMAP + j + n then
    match s.pte (ova / PTMAP + (p - nva / PTMAP)) with
    | some e => some ⟨e.frame, sharedPerm e⟩
    | none => s.pte p
  else s.pte p

variable {ova nva : Nat}

theorem page_add (va j : Nat) : (va + j * PTMAP) / PTMAP = va / PTMAP + j :=
  Nat.add_mul_div_right va j (by decide)

theorem shared_other {j n p : Nat} (hp : ¬ InWindow nva p) (hn : j + n ≤ 1024) :
    shared s ova nva j n p = s.pte p := by
  refine if_neg fun h => hp ⟨?_, ?_⟩ <;> omega

/-- The pages of the old window that are mapped are mapped in the new one. -/
theorem copyFrom_spec (hova : ∀ k < 1024, legal (ova + k * PTMAP) = true)
    (hnva : ∀ k < 1024, legal (nva + k * PTMAP) = true)
    (hapart : ∀ a < 1024, ∀ b < 1024, ova / PTMAP + a ≠ nva / PTMAP + b) (hn : j + n ≤ 1024) :
    wp (copyFrom ova nva n (j * PTMAP))
      (fun r s' => match r with
        | .ok () => ∀ p, s'.pte p = shared s ova nva j n p
        | .error _ => (∀ p, ¬ InWindow nva p → s'.pte p = s.pte p) ∧
            ∃ k < 1024, s.dir ((nva / PTMAP + k) / 1024) = none)
      (fun _ _ => False) s := by
  induction n generalizing j s with
  | zero =>
    unfold copyFrom
    rw [Lib.wp_pure]
    intro p
    unfold shared
    rw [if_neg (by omega)]
  | succ n ih =>
    unfold copyFrom
    rw [Lib.wp_bind, Lib.wp_get, page_add, ← Nat.add_one_mul]
    cases hpte : s.pte (ova / PTMAP + j) with
    | none =>
      simp only
      refine wp_mono (ih (by omega)) ?_ (fun _ _ h => h)
      rintro (e | u) s₁ hr
      · exact hr
      · intro p
        rw [hr p]
        unfold shared
        by_cases hp : p = nva / PTMAP + j
        · rw [if_neg (by omega), if_pos (by omega), show p - nva / PTMAP = j by omega, hpte]
        · have hiff : (nva / PTMAP + (j + 1) ≤ p ∧ p < nva / PTMAP + (j + 1) + n) ↔
              (nva / PTMAP + j ≤ p ∧ p < nva / PTMAP + j + (n + 1)) := by omega
          simp only [hiff]
    | some e =>
      simp only
      rw [Lib.wp_bind]
      refine wp_mono (memMap_spec _ _ _ s) ?_ (fun _ _ h => h.elim)
      rintro (e' | u) s₁ h
      · obtain ⟨⟨k, rfl⟩, hwhy⟩ := h
        simp only [Lib.wp_pure]
        refine ⟨fun _ _ => rfl, j, by omega, ?_⟩
        rw [page_add, page_add, hova j (by omega), hnva j (by omega), hpte] at hwhy
        simp only [Bool.true_eq_false, reduceCtorEq, false_or] at hwhy
        exact hwhy.1
      · obtain ⟨-, e', k, hsrc, rfl⟩ := h
        rw [page_add] at hsrc
        obtain rfl : e = e' := Option.some.inj (hpte.symm.trans hsrc)
        have hset : ∀ q, Space.pte { s.insert ((nva + j * PTMAP) / PTMAP) ⟨e.frame, sharedPerm e⟩ with
            asked := k } q = if q = nva / PTMAP + j then some ⟨e.frame, sharedPerm e⟩ else s.pte q := by
          intro q
          rw [← page_add]
          exact pte_insert s _ q _
        refine wp_mono (ih (by omega)) ?_ (fun _ _ h => h)
        rintro (e' | u) s₂ hr
        · obtain ⟨hout, i, hi, hnone⟩ := hr
          refine ⟨fun p hp => ?_, i, hi, ?_⟩
          · rw [hout p hp, hset, if_neg]
            rintro rfl
            exact hp ⟨by omega, by omega⟩
          · by_contra hne
            exact dir_insert s ((nva + j * PTMAP) / PTMAP) ⟨e.frame, sharedPerm e⟩ (.inl hne) hnone
        · intro p
          rw [hr p]
          unfold shared
          rw [hset p]
          by_cases hp : p = nva / PTMAP + j
          · rw [if_neg (by omega), if_pos hp, if_pos (by omega), show p - nva / PTMAP = j by omega, hpte]
          · rw [if_neg hp]
            by_cases hin : nva / PTMAP + (j + 1) ≤ p ∧ p < nva / PTMAP + (j + 1) + n
            · rw [if_pos hin, if_pos (by omega), hset, if_neg (hapart _ (by omega) _ (by omega))]
            · rw [if_neg hin, if_neg (by omega)]

theorem cancelFrom_spec (hnva : ∀ k < 1024, legal (nva + k * PTMAP) = true) (hn : j + n ≤ 1024) :
    wp (cancelFrom nva n (j * PTMAP)) (fun _ s' => ∀ p, ¬ InWindow nva p → s'.pte p = s.pte p)
      (fun _ _ => False) s := by
  induction n generalizing j s with
  | zero =>
    unfold cancelFrom
    rw [Lib.wp_pure]
    exact fun _ _ => rfl
  | succ n ih =>
    unfold cancelFrom
    rw [Lib.wp_bind, ← Nat.add_one_mul]
    refine wp_mono (mustUnmap_spec _ s) ?_ fun _ _ h => ?_
    · rintro _ _ ⟨-, rfl⟩
      refine wp_mono (ih (by omega)) (fun _ s₂ h₂ p hp => ?_) (fun _ _ h => h)
      rw [h₂ p hp, pte_remove, if_neg]
      rintro rfl
      rw [page_add] at hp
      exact hp ⟨by omega, by omega⟩
    · rw [hnva j (by omega)] at h
      exact Bool.noConfusion h

/-! ## The table of descriptors -/

def fdPage (i : Int) : Nat := index2fd i / PTMAP

theorem index2fd_eq {i : Int} (h : 0 ≤ i ∧ i < MAXFD) : index2fd i = 0x5fc00000 + i.toNat * 4096 := by
  obtain ⟨k, rfl⟩ := Int.eq_ofNat_of_zero_le h.1
  have hk : k < 32 := by exact_mod_cast h.2
  unfold index2fd
  rw [show ((FDTABLE : Nat) : Int) = 0x5fc00000 from rfl, show ((PTMAP : Nat) : Int) = 4096 from rfl]
  simp only [Int.toNat_natCast]
  omega

theorem dataAt_eq {i : Int} (h : 0 ≤ i ∧ i < MAXFD) : dataAt i = 0x60000000 + i.toNat * 4194304 := by
  have hi : i.toNat < 32 := by
    have := h.2
    have : (MAXFD : Int) = 32 := rfl
    omega
  unfold dataAt fd2data fd2num
  rw [index2fd_eq h, show FILEBASE = 0x60000000 from rfl, show FDTABLE = 0x5fc00000 from rfl,
    show PTMAP = 4096 from rfl, show PDMAP = 4194304 from rfl]
  omega

section

variable {i i' : Int} (h : 0 ≤ i ∧ i < MAXFD)

include h

theorem toNat_lt : i.toNat < 32 := by
  have := h.2
  have : (MAXFD : Int) = 32 := rfl
  omega

theorem fdPage_eq : fdPage i = 392192 + i.toNat := by
  unfold fdPage
  rw [index2fd_eq h, show PTMAP = 4096 from rfl]
  omega

theorem dataPage_eq : dataAt i / PTMAP = 393216 + 1024 * i.toNat := by
  rw [dataAt_eq h, show PTMAP = 4096 from rfl]
  omega

theorem fd_legal : legal (index2fd i) = true := by
  have hlt := toNat_lt h
  unfold legal
  rw [index2fd_eq h, show UTEMP = 0x003fe000 from rfl, show UTOP = 0x7f400000 from rfl]
  exact decide_eq_true (by omega)

theorem window_legal : ∀ k < 1024, legal (dataAt i + k * PTMAP) = true := by
  intro k hk
  have hlt := toNat_lt h
  unfold legal
  rw [dataAt_eq h, show UTEMP = 0x003fe000 from rfl, show UTOP = 0x7f400000 from rfl,
    show PTMAP = 4096 from rfl]
  exact decide_eq_true (by omega)

theorem window_dir {k : Nat} (hk : k < 1024) : (dataAt i / PTMAP + k) / 1024 = dataAt i / PDMAP := by
  rw [dataPage_eq h, dataAt_eq h, show PDMAP = 4194304 from rfl]
  omega

theorem fd_dir : fdPage i / 1024 = 383 := by
  have hlt := toNat_lt h
  rw [fdPage_eq h]
  omega

theorem fd_outside (h' : 0 ≤ i' ∧ i' < MAXFD) : ¬ InWindow (dataAt i') (fdPage i) := by
  rintro ⟨hlo, -⟩
  have hlt := toNat_lt h
  rw [dataPage_eq h', fdPage_eq h] at hlo
  omega

end

/-- An open descriptor and another number in the table. The file that is open there has the size of a
window at most. -/
structure Duplicable (s : Space) (old new : Int) : Prop where
  old_range : 0 ≤ old ∧ old < MAXFD
  new_range : 0 ≤ new ∧ new < MAXFD
  ne : old ≠ new
  opened : s.pte (fdPage old) ≠ none
  fits : kind s new = some .file → sizeOf s new ≤ PDMAP

/-- The pages of the descriptor: that of its `struct Fd`, and its window. -/
def Owns (i : Int) (p : Nat) : Prop := p = fdPage i ∨ InWindow (dataAt i) p

section

variable {old new : Int}

theorem windows_apart (h : Duplicable s old new) :
    ∀ a < 1024, ∀ b < 1024, dataAt old / PTMAP + a ≠ dataAt new / PTMAP + b := by
  intro a ha b hb heq
  rw [dataPage_eq h.old_range, dataPage_eq h.new_range] at heq
  have hold := h.old_range.1
  have hnew := h.new_range.1
  have hne := h.ne
  omega

/-- `close` only unmaps pages of the descriptor. -/
theorem released_own (h : Duplicable s old new) :
    ∀ va ∈ released srv s new, Owns new (va / PTMAP) := by
  intro va hva
  unfold released at hva
  cases hkind : kind s new with
  | none =>
    rw [hkind] at hva
    exact absurd hva List.not_mem_nil
  | some dev =>
    rw [hkind] at hva
    cases dev with
    | cons =>
      obtain rfl := List.mem_singleton.mp hva
      exact .inl rfl
    | pipe =>
      have hmem := (List.mem_filter.mp hva).1
      simp only [List.mem_cons, List.not_mem_nil, or_false] at hmem
      rcases hmem with rfl | rfl | rfl
      · exact .inl rfl
      · exact .inr ⟨Nat.le_refl _, Nat.lt_add_of_pos_right (by decide)⟩
      · exact .inl rfl
    | file =>
      rcases List.mem_append.mp hva with hva | hva
      · have hfits := h.fits hkind
        split at hva
        · obtain ⟨k, hk, rfl⟩ := List.mem_map.mp ((List.takeWhile_prefix _).subset hva)
          have hlt := List.mem_range.mp hk
          unfold pagesOf at hlt
          rw [show PTMAP = 4096 from rfl] at hlt
          rw [show PDMAP = 4194304 from rfl] at hfits
          rw [page_add]
          exact .inr ⟨Nat.le_add_right _ _, Nat.add_lt_add_left (by omega) _⟩
        · exact absurd hva List.not_mem_nil
      · obtain rfl := List.mem_singleton.mp hva
        exact .inl rfl

/-- The address space after `close` of the new number. -/
def closed (srv : Answers) (s : Space) (new : Int) : Space := s.removeAll (released srv s new)

theorem closed_other (h : Duplicable s old new) {p : Nat} (hp : ¬ Owns new p) :
    (closed srv s new).pte p = s.pte p := by
  unfold closed
  rw [pte_removeAll, if_neg]
  intro hmem
  obtain ⟨va, hva, rfl⟩ := List.mem_map.mp hmem
  exact hp (released_own h va hva)

theorem dir_removeAll {s : Space} {l : List Nat} {d : Nat} (h : (s.removeAll l).dir d = none) :
    s.dir d = none := by
  induction l generalizing s with
  | nil => exact h
  | cons va l ih =>
    have hstep := ih h
    unfold Space.remove at hstep
    by_cases hd : d = va / PTMAP / 1024
    · subst hd
      simp only [Function.update_self] at hstep
      exact Option.map_eq_none_iff.mp hstep
    · simp only [Function.update_of_ne hd] at hstep
      exact hstep

theorem fd_other (h : Duplicable s old new) : ¬ Owns new (fdPage old) := by
  rintro (heq | hin)
  · rw [fdPage_eq h.old_range, fdPage_eq h.new_range] at heq
    have hold := h.old_range.1
    have hnew := h.new_range.1
    have hne := h.ne
    omega
  · exact fd_outside h.old_range h.new_range hin

theorem closed_opened (h : Duplicable s old new) : (closed srv s new).pte (fdPage old) ≠ none := by
  rw [closed_other h (fd_other h)]
  exact h.opened

/-! ## What `dup` leaves -/

theorem cancel_spec (hnew : 0 ≤ new ∧ new < MAXFD) (e : Err) :
    wp (cancel (index2fd new) e)
      (fun r s' => r = .error e ∧ ∀ p, ¬ Owns new p → s'.pte p = s.pte p) (fun _ _ => False) s := by
  unfold cancel
  rw [Lib.wp_bind]
  refine wp_mono (mustUnmap_spec _ s) ?_ fun _ _ h => ?_
  · rintro _ _ ⟨-, rfl⟩
    rw [Lib.wp_bind]
    have hspec := cancelFrom_spec (s := s.remove (index2fd new / PTMAP)) (n := 1024) (j := 0)
      (window_legal hnew) (by omega)
    rw [Nat.zero_mul] at hspec
    refine wp_mono hspec (fun _ s₂ h₂ => ?_) (fun _ _ h => h)
    rw [Lib.wp_pure]
    refine ⟨rfl, fun p hp => ?_⟩
    obtain ⟨hfd, hwin⟩ := not_or.mp hp
    rw [h₂ p hwin, pte_remove, if_neg (show ¬ p = index2fd new / PTMAP from hfd)]
  · rw [fd_legal hnew] at h
    exact Bool.noConfusion h

theorem copyData_spec (hold : 0 ≤ old ∧ old < MAXFD) (hnew : 0 ≤ new ∧ new < MAXFD)
    (hapart : ∀ a < 1024, ∀ b < 1024, dataAt old / PTMAP + a ≠ dataAt new / PTMAP + b) :
    wp (copyData (dataAt old) (dataAt new))
      (fun r s' => match r with
        | .ok () => ∀ p, s'.pte p = shared s (dataAt old) (dataAt new) 0 1024 p
        | .error _ => s.dir (dataAt new / PDMAP) = none ∧
            ∀ p, ¬ InWindow (dataAt new) p → s'.pte p = s.pte p)
      (fun _ _ => False) s := by
  unfold copyData
  rw [Lib.wp_bind, Lib.wp_get, wp_ite]
  constructor
  · intro _
    have hspec := copyFrom_spec (s := s) (n := 1024) (j := 0) (window_legal hold) (window_legal hnew)
      hapart (by omega)
    rw [Nat.zero_mul] at hspec
    refine wp_mono hspec ?_ (fun _ _ h => h)
    rintro (e | u) s₁ h₁
    · obtain ⟨hout, k, hk, hnone⟩ := h₁
      rw [window_dir hnew hk] at hnone
      exact ⟨hnone, hout⟩
    · exact h₁
  · intro hnone
    rw [Lib.wp_pure]
    intro p
    unfold shared
    split
    case isFalse => rfl
    case isTrue hp =>
      have hpage : s.pte (dataAt old / PTMAP + (p - dataAt new / PTMAP)) = none := by
        unfold Space.pte
        rw [window_dir hold (by omega), Option.not_isSome_iff_eq_none.mp hnone, Option.bind_none]
      rw [hpage]

/-- The page `p` after `dup`: what the old descriptor has there is shared, and the rest is what
`close` leaves. -/
def duplicated (srv : Answers) (s : Space) (old new : Int) (p : Nat) : Option Pte :=
  if p = fdPage new then (s.pte (fdPage old)).map fun e => ⟨e.frame, sharedPerm e⟩
  else if InWindow (dataAt new) p then
    match s.pte (dataAt old / PTMAP + (p - dataAt new / PTMAP)) with
    | some e => some ⟨e.frame, sharedPerm e⟩
    | none => (closed srv s new).pte p
  else s.pte p

theorem copyFd_spec (hold : 0 ≤ old ∧ old < MAXFD) (hnew : 0 ≤ new ∧ new < MAXFD)
    (hapart : ∀ a < 1024, ∀ b < 1024, dataAt old / PTMAP + a ≠ dataAt new / PTMAP + b)
    (hopen : s.pte (fdPage old) ≠ none) :
    wp (copyFd (index2fd old) (index2fd new) new)
      (fun r s' => match r with
        | .ok v => v = new ∧ ∀ p, s'.pte p = if p = fdPage new then
            (s.pte (fdPage old)).map fun e => ⟨e.frame, sharedPerm e⟩
          else shared s (dataAt old) (dataAt new) 0 1024 p
        | .error _ => s.dir (dataAt new / PDMAP) = none ∧ ∀ p, ¬ Owns new p → s'.pte p = s.pte p)
      (fun _ _ => False) s := by
  unfold copyFd
  rw [Lib.wp_bind]
  refine wp_mono (copyData_spec hold hnew hapart) ?_ (fun _ _ h => h)
  rintro (e | u) s₁ h₁
  · obtain ⟨hnone, hout⟩ := h₁
    refine wp_mono (cancel_spec hnew e) ?_ (fun _ _ h => h)
    rintro _ s₂ ⟨rfl, h₂⟩
    refine ⟨hnone, fun p hp => ?_⟩
    rw [h₂ p hp, hout p (not_or.mp hp).2]
  · obtain ⟨e, he⟩ := Option.ne_none_iff_exists'.mp hopen
    have he₁ : s₁.pte (fdPage old) = some e := by
      rw [h₁, shared_other (fd_outside hold hnew) (by omega), he]
    have hperm : fdPerm s₁ (index2fd old) = sharedPerm e := by
      unfold fdPerm
      rw [show index2fd old / PTMAP = fdPage old from rfl, he₁]
    simp only
    rw [Lib.wp_bind, Lib.wp_get, Lib.wp_bind]
    refine wp_mono (memMap_spec _ _ _ s₁) ?_ (fun _ _ h => h.elim)
    rintro (e' | u') s₂ h₂
    · -- the table of descriptors has its page table
      obtain ⟨-, hwhy⟩ := h₂
      exfalso
      rcases hwhy with hl | hl | hnone | ⟨hdir, -⟩
      · rw [fd_legal hold] at hl
        exact Bool.noConfusion hl
      · rw [fd_legal hnew] at hl
        exact Bool.noConfusion hl
      · exact Option.some_ne_none e (he₁.symm.trans hnone)
      · have hthere := dir_of_pte (he₁ ▸ Option.some_ne_none e : s₁.pte (fdPage old) ≠ none)
        rw [fd_dir hold, ← fd_dir hnew] at hthere
        exact hthere hdir
    · obtain ⟨-, e', k, hsrc, rfl⟩ := h₂
      obtain rfl : e = e' := Option.some.inj (he₁.symm.trans hsrc)
      rw [Lib.wp_pure]
      refine ⟨rfl, fun p => ?_⟩
      show (s₁.insert (fdPage new) ⟨e.frame, fdPerm s₁ (index2fd old)⟩).pte p = _
      rw [pte_insert, he, hperm, h₁ p]
      rfl

theorem window_other (h : Duplicable s old new) {k : Nat} (hk : k < 1024) :
    ¬ Owns new (dataAt old / PTMAP + k) := by
  rintro (heq | ⟨hlo, hhi⟩)
  · refine fd_outside h.new_range h.old_range ?_
    rw [← heq]
    exact ⟨Nat.le_add_right _ _, Nat.add_lt_add_left hk _⟩
  · rw [dataPage_eq h.old_range, dataPage_eq h.new_range] at hlo hhi
    have hold := h.old_range.1
    have hnew := h.new_range.1
    have hne := h.ne
    omega

theorem shared_window {p : Nat} (hp : InWindow nva p) :
    shared s ova nva 0 1024 p = match s.pte (ova / PTMAP + (p - nva / PTMAP)) with
      | some e => some ⟨e.frame, sharedPerm e⟩
      | none => s.pte p :=
  if_pos ⟨hp.1, hp.2⟩

theorem shared_closed (h : Duplicable s old new) {p : Nat} (hp : p ≠ fdPage new) :
    shared (closed srv s new) (dataAt old) (dataAt new) 0 1024 p = duplicated srv s old new p := by
  unfold duplicated
  rw [if_neg hp]
  by_cases hin : InWindow (dataAt new) p
  · have hk := Nat.sub_lt_left_of_lt_add hin.1 hin.2
    rw [shared_window hin, if_pos hin, closed_other h (window_other h hk)]
  · rw [if_neg hin, shared_other hin (by decide), closed_other h (not_or.mpr ⟨hp, hin⟩)]

/-- `dup` of an open descriptor returns the new number with the pages of the old one shared, or an
error, and then there was no page table for the new window. Pages of other descriptors stay. -/
theorem dup_aliases (h : Duplicable s old new) :
    wp (dup srv old new)
      (fun r s' => match r with
        | .ok v => v = new ∧ ∀ p, s'.pte p = duplicated srv s old new p
        | .error _ => s.dir (dataAt new / PDMAP) = none ∧ ∀ p, ¬ Owns new p → s'.pte p = s.pte p)
      (fun _ _ => False) s := by
  have hdir := dir_of_pte h.opened
  have hnewdir : s.dir (index2fd new / PTMAP / 1024) ≠ none := by
    rw [fd_dir h.old_range, ← fd_dir h.new_range] at hdir
    exact hdir
  unfold dup
  rw [Lib.wp_bind]
  refine wp_mono (fdLookup_spec old hdir) ?_ (fun _ _ h => h.elim)
  rintro (e | fd) s₁ ⟨heq, hfd⟩ <;> obtain rfl : s = s₁ := heq.symm
  · exact absurd (hfd.resolve_left (Int.not_le.mpr h.old_range.2)) h.opened
  · obtain ⟨rfl, -⟩ := hfd
    simp only
    rw [Lib.wp_bind]
    refine wp_mono (close_spec new hnewdir) ?_ fun _ _ hx => ?_
    · rintro _ s₁ rfl
      refine wp_mono (copyFd_spec h.old_range h.new_range (windows_apart h) (closed_opened h)) ?_
        (fun _ _ h => h)
      rintro (e | v) s₂ hr
      · obtain ⟨hnone, hout⟩ := hr
        refine ⟨dir_removeAll hnone, fun p hp => ?_⟩
        rw [hout p hp]
        exact closed_other h hp
      · obtain ⟨rfl, hpages⟩ := hr
        refine ⟨rfl, fun p => ?_⟩
        rw [hpages p]
        split
        case isTrue hp =>
          unfold duplicated
          rw [if_pos hp]
          exact congrArg _ (closed_other h (fd_other h))
        case isFalse hp => exact shared_closed h hp
    · rcases hx with ⟨hkind, -, hsize⟩ | hl
      · have hfits := h.fits hkind
        rw [show PTMAP = 4096 from rfl] at hsize
        rw [show PDMAP = 4194304 from rfl] at hfits
        omega
      · rw [fd_legal h.new_range] at hl
        exact Bool.noConfusion hl

/-- A process with a descriptor that has one page of data. -/
def oneFd : Space where
  dir d :=
    if d = 383 then some fun q => if q = 0 then some ⟨5, PTE_D ||| PTE_LIBRARY⟩ else none
    else if d = 384 then some fun q => if q = 0 then some ⟨6, PTE_D ||| PTE_LIBRARY⟩ else none
    else none
  content _ _ := 0
  granted _ := true
  asked := 0

def agreeing : Answers := ⟨fun _ _ => 0, fun _ => 0⟩

theorem dup_aliases_one :
    wp (dup agreeing 0 1)
      (fun r s' => match r with
        | .ok v => v = 1 ∧ ∀ p, s'.pte p = duplicated agreeing oneFd 0 1 p
        | .error _ => oneFd.dir (dataAt 1 / PDMAP) = none ∧ ∀ p, ¬ Owns 1 p → s'.pte p = oneFd.pte p)
      (fun _ _ => False) oneFd :=
  dup_aliases ⟨by decide, by decide, by decide, by decide, fun hkind => absurd hkind (by decide)⟩

end

end Mos.User.Dup
