import Mos.User.Answers
import Mos.User.Window

/-!
# Opening files (`user/lib/file.c`, `fsipc.c`, `fd.c`)

The descriptor is taken when the page of the server's entry arrives, and then the file is
mapped page by page. The entry of the server is in use as long as that page is mapped.
-/

namespace Mos.User

open Fs (Reply Err Name)
open Lib (Bytes wp wp_mono wp_ite)
open Lib.Proc (Trace World)

def UTOP : Nat := 0x7f400000
def MAXPATHLEN : Nat := 1024

/-- The loop of `fd_alloc` from descriptor `fdno` on, for `n` turns. -/
def Client.fdAllocFrom (s : Client) : Nat → Nat → Except Err Nat
  | 0, _ => .error .maxOpen
  | n + 1, fdno =>
    if s.mapped (index2fd fdno / PTMAP) then s.fdAllocFrom n (fdno + 1) else .ok (index2fd fdno)

def Client.fdAlloc (s : Client) : Except Err Nat := s.fdAllocFrom (MAXFD - 1) 0

/-- The answers to requests to open a file. -/
abbrev OpenAnswers := Name → UInt32 → Answer

def fsipcOpen (opens : OpenAnswers) (path : Name) (omode : UInt32) (fd : Nat) : Program Int := do
  if path.length ≥ MAXPATHLEN then
    return Err.badPath.code
  else
    receive (opens path omode) fd
    return (opens path omode).val

/-- The number of pages of a file. -/
def pages (size : Nat) : Nat := (size + (PTMAP - 1)) / PTMAP

/-- The loop of `open` from `i` on, for `n` turns. `ipc_recv` panics beyond `UTOP`. -/
def mapPages (srv : Answers) (fileid va : Nat) : Nat → Nat → Program Int
  | 0, _ => return 0
  | n + 1, i => do
    if va + i ≥ UTOP then
      throw .panic
    else
      let r ← fsipcMap srv fileid i (va + i)
      if r ≠ 0 then return r else mapPages srv fileid va n (i + PTMAP)

/-- `open` -/
def openFile (opens : OpenAnswers) (srv : Answers) (path : Name) (mode : UInt32) : Program Int := do
  match (← get).fdAlloc with
  | .error e => return e.code
  | .ok fd =>
    let r ← fsipcOpen opens path mode fd
    if r ≠ 0 then
      return r
    else
      let size ← loadWord (fsizeAt fd)
      let fileid ← loadWord (fileidAt fd)
      let r ← mapPages srv fileid (fd2data fd) (pages size) 0
      if r ≠ 0 then return r else return fd2num fd

/-! ## What a failure leaves -/

/-- The number of entries of the server's open file table that the process holds. -/
def Client.held (s : Client) : Nat := (List.range MAXFD).countP fun i => s.mapped (index2fd i / PTMAP)

/-- The pages that were mapped are mapped, `fd_alloc` gives what it gave, and no more entries of the
server are in use. -/
structure Restored (s s' : Client) : Prop where
  mapped : s'.mapped = s.mapped
  fdAlloc : s'.fdAlloc = s.fdAlloc
  held : s'.held = s.held

/-- If the server opens the file, it sends each page of it. -/
def SentWhole (opens : OpenAnswers) (srv : Answers) (path : Name) (mode : UInt32) (s : Client) : Prop :=
  ∀ fd page, s.fdAlloc = .ok fd → path.length < MAXPATHLEN → (opens path mode).val = 0 →
    (opens path mode).page = some page →
    ∀ k < pages (page.word 144), ¬ (srv.map (page.word 12) (k * PTMAP)).val < 0

theorem fdAllocFrom_ok {s : Client} {n i fd : Nat} (h : s.fdAllocFrom n i = .ok fd) :
    s.mapped (fd / PTMAP) = false ∧ ∃ j, fd = index2fd j ∧ j < i + n := by
  induction n generalizing i with
  | zero => exact nomatch h
  | succ n ih =>
    unfold Client.fdAllocFrom at h
    split at h
    · obtain ⟨hm, j, hj, hlt⟩ := ih h
      exact ⟨hm, j, hj, by omega⟩
    · rename_i hm
      rw [← Except.ok.inj h]
      exact ⟨by simpa using hm, i, rfl, by omega⟩

/-- No page is unmapped. -/
def Grows (s s' : Client) : Prop := ∀ p, s.mapped p = true → s'.mapped p = true

theorem Grows.refl (s : Client) : Grows s s := fun _ => id

theorem Grows.trans {s s' s'' : Client} (h : Grows s s') (h' : Grows s' s'') : Grows s s'' :=
  fun p hp => h' p (h p hp)

theorem receive_grows (a : Answer) (va : Nat) (s : Client) :
    wp (receive a va) (fun _ s' => Grows s s') (fun _ _ => False) s := by
  unfold receive
  split
  · rw [Lib.wp_modify]
    intro p hp
    unfold Client.map
    simp only
    by_cases heq : p = va / PTMAP
    · rw [heq, Function.update_self]
    · rwa [Function.update_of_ne heq]
  · rw [Lib.wp_pure]
    exact .refl s

theorem fsipcMap_grows (srv : Answers) (fileid offset va : Nat) (s : Client) :
    wp (fsipcMap srv fileid offset va)
      (fun r s' => Grows s s' ∧ (r = 0 ∨ r = (srv.map fileid offset).val ∧ r < 0))
      (fun _ _ => True) s := by
  unfold fsipcMap
  rw [Lib.wp_bind]
  refine wp_mono (receive_grows _ _ s) (fun _ s₁ h => ?_) fun _ _ _ => trivial
  refine (wp_ite _ _).mpr ⟨fun hneg => ?_, fun _ => ?_⟩
  · rw [Lib.wp_pure]
    exact ⟨h, Or.inr ⟨rfl, hneg⟩⟩
  · refine (wp_ite _ _).mpr ⟨fun _ => ?_, fun _ => ?_⟩
    · rw [Lib.wp_pure]
      exact ⟨h, Or.inl rfl⟩
    · rw [Lib.wp_throw]
      trivial

theorem mapPages_grows (srv : Answers) (fileid va n i : Nat) (s : Client) :
    wp (mapPages srv fileid va n i)
      (fun r s' => Grows s s' ∧
        (r = 0 ∨ r < 0 ∧ ∃ k < n, (srv.map fileid (i + k * PTMAP)).val < 0))
      (fun _ _ => True) s := by
  induction n generalizing i s with
  | zero =>
    unfold mapPages
    rw [Lib.wp_pure]
    exact ⟨.refl s, Or.inl rfl⟩
  | succ n ih =>
    unfold mapPages
    refine (wp_ite _ _).mpr ⟨fun _ => by rw [Lib.wp_throw]; trivial, fun _ => ?_⟩
    rw [Lib.wp_bind]
    refine wp_mono (fsipcMap_grows srv fileid i (va + i) s) (fun r s₁ h => ?_) fun _ _ _ => trivial
    refine (wp_ite _ _).mpr ⟨fun hr => ?_, fun hr => ?_⟩
    · rw [Lib.wp_pure]
      obtain ⟨hval, hneg⟩ := h.2.resolve_left hr
      refine ⟨h.1, Or.inr ⟨hneg, 0, Nat.succ_pos n, ?_⟩⟩
      rw [Nat.zero_mul, Nat.add_zero, ← hval]
      exact hneg
    · refine wp_mono (ih (i + PTMAP) s₁) (fun r' s₂ h' => ⟨h.1.trans h'.1, ?_⟩) fun _ _ _ => trivial
      refine h'.2.imp_right fun ⟨hneg, k, hk, hval⟩ => ⟨hneg, k + 1, by omega, ?_⟩
      have haddr : i + (k + 1) * PTMAP = i + PTMAP + k * PTMAP := by
        rw [Nat.add_mul, Nat.one_mul]
        omega
      rw [haddr]
      exact hval

theorem word_map (s : Client) {va : Nat} (page : Bytes) {k : Nat} (hk : k + 4 ≤ PTMAP) :
    (s.map va page).mem.word (va + k) = page.word k := by
  have hbyte : ∀ i, i < PTMAP → (s.map va page).mem (va + i) = page i := by
    intro i hi
    unfold Client.map Lib.Bytes.copy
    simp only
    rw [if_pos (by omega), Nat.zero_add, Nat.add_sub_cancel_left]
  unfold Lib.Bytes.word
  simp only [Nat.add_assoc]
  rw [hbyte k (by omega), hbyte (k + 1) (by omega), hbyte (k + 2) (by omega), hbyte (k + 3) (by omega)]

/-- The descriptor stays taken if a page is not sent. -/
theorem openFile_spec {opens : OpenAnswers} {srv : Answers} {path : Name} {mode : UInt32} {s : Client}
    (hopen : (opens path mode).Paged) :
    wp (openFile opens srv path mode)
      (fun r s' => r < 0 →
        s' = s ∧ SentWhole opens srv path mode s ∨
          (∃ fd, s.mapped (fd / PTMAP) = false ∧ s'.mapped (fd / PTMAP) = true) ∧
            ¬ SentWhole opens srv path mode s)
      (fun _ _ => True) s := by
  unfold openFile SentWhole
  rw [Lib.wp_bind, Lib.wp_get]
  rcases hfd : s.fdAlloc with e | fd
  · simp only
    rw [Lib.wp_pure]
    exact fun _ => Or.inl ⟨rfl, fun _ _ h => by cases h⟩
  · obtain ⟨hfree, j, hj, hlt⟩ := fdAllocFrom_ok hfd
    simp only
    unfold fsipcOpen
    rw [Lib.wp_bind]
    refine (wp_ite _ _).mpr ⟨fun hlong => ?_, fun hlong => ?_⟩
    · rw [Lib.wp_pure]
      refine (wp_ite _ _).mpr ⟨fun _ => ?_, fun h => absurd (by decide) h⟩
      rw [Lib.wp_pure]
      exact fun _ => Or.inl ⟨rfl, fun _ _ _ h => absurd h (Nat.not_lt_of_le hlong)⟩
    · rw [Lib.wp_bind]
      rcases hpage : (opens path mode).page with _ | page
      · unfold receive
        rw [hpage]
        simp only [Lib.wp_pure]
        refine (wp_ite _ _).mpr ⟨fun _ => ?_, fun hzero => ?_⟩
        · rw [Lib.wp_pure]
          exact fun _ => Or.inl ⟨rfl, fun _ _ _ _ _ h => by cases h⟩
        · have := hopen.mpr hpage
          omega
      · have hpos : ¬ (opens path mode).val < 0 := fun hneg => by
          rw [hopen.mp hneg] at hpage
          cases hpage
        unfold receive
        rw [hpage]
        simp only [Lib.wp_modify, Lib.wp_pure]
        refine (wp_ite _ _).mpr ⟨fun _ => ?_, fun hzero => ?_⟩
        · rw [Lib.wp_pure]
          exact fun hneg => absurd hneg hpos
        · have hval : (opens path mode).val = 0 := not_not.mp hzero
          have hsize : (s.map fd page).mem.word (fsizeAt fd) = page.word 144 :=
            word_map s page (by decide)
          have hfileid : (s.map fd page).mem.word (fileidAt fd) = page.word 12 :=
            word_map s page (by decide)
          have htaken : (s.map fd page).mapped (fd / PTMAP) = true := Function.update_self ..
          unfold loadWord
          simp only [Lib.wp_bind, Lib.wp_get, Lib.wp_pure, hsize, hfileid]
          refine wp_mono (mapPages_grows srv _ _ _ _ _) (fun r s' h => ?_) fun _ _ _ => trivial
          refine (wp_ite _ _).mpr ⟨fun hr => ?_, fun _ => ?_⟩
          · rw [Lib.wp_pure]
            obtain ⟨-, k, hk, hneg⟩ := h.2.resolve_left hr
            rw [Nat.zero_add] at hneg
            refine fun _ => Or.inr ⟨⟨fd, hfree, h.1 _ htaken⟩, fun hwhole => ?_⟩
            exact hwhole fd page rfl (Nat.lt_of_not_le hlong) hval rfl k hk hneg
          · rw [Lib.wp_pure]
            intro hneg
            omega

/-- An error leaves the descriptors and the pages as they were exactly if it is not that of a page of a
file that the server has opened. -/
theorem open_failure_iff {opens : OpenAnswers} {srv : Answers} {path : Name} {mode : UInt32}
    {s s' : Client} {server : Fs.Server} {r : Int}
    (hopen : IsAnswer server (.open path mode) (opens path mode))
    (hrun : openFile opens srv path mode s = .ok r s') (hr : r < 0) :
    Restored s s' ↔ SentWhole opens srv path mode s := by
  have hspec : wp (openFile opens srv path mode) _ _ s := openFile_spec
    (hopen.paged (show AsksPage (.open path mode) from trivial))
  rcases Lib.wp_run_ok hspec hrun hr with ⟨rfl, hwhole⟩ | ⟨hleft, hwhole⟩
  · exact iff_of_true ⟨rfl, rfl, rfl⟩ hwhole
  · refine iff_of_false (fun h => ?_) hwhole
    obtain ⟨fd, hfree, htaken⟩ := hleft
    rw [h.mapped, hfree] at htaken
    exact nomatch htaken

/-! ## A page that is not sent -/

/-- A process without pages. -/
def bare : Client := ⟨fun _ => 0, fun _ => false, []⟩

/-- Process 2 opens the file of client 1, which has two pages. -/
def reopened : Trace Fs.Call Reply × Except Fs.Stop Unit × Fs.Server :=
  (Fs.serve 2 (.open [97] 0)).run (Fs.obliging Fs.refsOpened) (Fs.resize 1).2.2

/-- There is no memory, and the processes hold the entries 0 and 1. -/
def depleted : World Fs.Call Reply := fun _ c =>
  match c with
  | .mark .. => ()
  | .memAlloc _ => .error .noMem
  | .pageref i => if i ≤ 1 then (2 : Nat) else (0 : Nat)
  | .ipcSend .. => (0 : Int)

/-- Process 2 asks for the first page. -/
def asked : Trace Fs.Call Reply × Except Fs.Stop Unit × Fs.Server :=
  (Fs.serve 2 (.map 1 0)).run depleted reopened.2.2

theorem ended {p : Trace Fs.Call Reply × Except Fs.Stop Unit × Fs.Server} (h : p.2.1 = .ok ()) :
    p = (p.1, .ok (), p.2.2) := by
  rw [← h]

def filefdSent : OpenAnswers := fun _ _ =>
  ⟨0, PTE_V ||| Fs.PTE_D ||| Fs.PTE_LIBRARY, some (filefdBytes (reopened.2.2.opentab 1).ff)⟩

def noPages : Answers := ⟨fun _ _ => ⟨Err.noMem.code, 0, none⟩, fun _ _ => 0⟩

theorem isAnswer_reopened : IsAnswer (Fs.resize 1).2.2 (.open [97] 0) (filefdSent [97] 0) := by
  have hok : reopened.2.1 = .ok () := by decide +kernel
  have hsends : Fs.sends reopened.1 = [(2, 0, Fs.ffAt 1)] := by decide +kernel
  refine ⟨2, reopened.2.2, Fs.obliging Fs.refsOpened, reopened.1, Fs.ffAt 1, ended hok, ?_, hsends, rfl⟩
  · refine Lib.Proc.run_answers (P := (Fs.quiet Fs.Any True).answers) ?_ _ fun _ he => nomatch he
    rintro _ (_ | _ | _ | _)
    · trivial
    · exact Or.inl rfl
    · trivial
    · trivial

theorem isAnswer_asked : IsAnswer reopened.2.2 (.map 1 0) (noPages.map 1 0) := by
  have hok : asked.2.1 = .ok () := by decide +kernel
  have hsends : Fs.sends asked.1 = [(2, -4, 0)] := by decide +kernel
  have hrun := ended hok
  refine ⟨2, asked.2.2, depleted, asked.1, 0, hrun, ?_, hsends, rfl⟩
  · refine Lib.Proc.run_answers (P := (Fs.quiet Fs.Any True).answers) ?_ _ fun _ he => nomatch he
    rintro _ (_ | _ | _ | _)
    · trivial
    · exact Or.inr rfl
    · trivial
    · trivial

/-- The open of the file by a process without pages. -/
def half : EStateM.Result Stop Client Int := openFile filefdSent noPages [97] 0 bare

theorem half_failed :
    ∃ s', openFile filefdSent noPages [97] 0 bare = .ok (-4) s' ∧ s'.mapped (FDTABLE / PTMAP) = true := by
  have h : (match half with
    | .ok r s' => decide (r = -4 ∧ s'.mapped (FDTABLE / PTMAP) = true)
    | .error .. => false) = true := by decide +kernel
  rcases hx : half with ⟨r, s'⟩ | ⟨e, s'⟩
  · rw [hx] at h
    obtain ⟨rfl, hmapped⟩ := of_decide_eq_true h
    exact ⟨s', hx, hmapped⟩
  · rw [hx] at h
    exact nomatch h

theorem open_failure_iff_half :
    ∃ s', openFile filefdSent noPages [97] 0 bare = .ok (-4) s' ∧
      (Restored bare s' ↔ SentWhole filefdSent noPages [97] 0 bare) := by
  obtain ⟨s', hrun, -⟩ := half_failed
  exact ⟨s', hrun, open_failure_iff isAnswer_reopened hrun (by decide)⟩

/-- The first of two pages is not sent, and the descriptor stays taken. -/
theorem not_open_restores :
    ¬ ∀ (server server' : Fs.Server) (opens : OpenAnswers) (srv : Answers) (path : Name) (mode : UInt32)
      (s s' : Client) (r : Int), IsAnswer server (.open path mode) (opens path mode) →
      IsAnswer server' (.map 1 0) (srv.map 1 0) → openFile opens srv path mode s = .ok r s' → r < 0 →
      Restored s s' := by
  intro h
  obtain ⟨s', hrun, htaken⟩ := half_failed
  have hrestored := h _ _ _ _ _ _ _ _ _ isAnswer_reopened isAnswer_asked hrun (by decide)
  rw [hrestored.mapped] at htaken
  exact nomatch htaken

end Mos.User
