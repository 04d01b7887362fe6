import Mos.Fs.Access
import Mos.Fs.Lookup
import Mos.User.File

/-!
# Where the answers to a process come from

The file server answers a request for a page with an error and no page, or with zero and a
page. A process reads no more than that from an answer.
-/

namespace Mos.User

open Fs (Reply Serv Server Request Err Any quiet memory)
open Lib (Bytes within provided)
open Lib.Proc (Trace World)

/-- There is a page if and only if there is no error. -/
def Answer.Paged (a : Answer) : Prop := a.val < 0 ↔ a.page = none

/-- The page of an entry, as a client reads it. -/
def filefdBytes (ff : Fs.Filefd) : Bytes :=
  ((((Bytes.copy (fun _ => 0) 16 ff.f_file 0 Fs.FILE_STRUCT_SIZE).setWord 0 ff.fd_dev_id).setWord 4
    ff.fd_offset).setWord 8 ff.fd_omode).setWord 12 ff.f_fileid

/-- The page that is sent with that address. -/
def pageAt (s : Server) (srcva : Nat) : Option Bytes :=
  if srcva = 0 then none
  else
    match Fs.entryAt srcva with
    | some i => some (filefdBytes (s.opentab i).ff)
    | none => some fun k => s.mem (srcva + k)

/-- `a` is what the server answers to the request of some process in the state `s`. -/
def IsAnswer (s : Server) (req : Request) (a : Answer) : Prop :=
  ∃ (envid : Nat) (s' : Server) (w : World Fs.Call Reply) (t : Trace Fs.Call Reply) (srcva : Nat),
    (Fs.serve envid req).run w s = (t, .ok (), s') ∧ memory.Holds t ∧
      Fs.sends t = [(envid, a.val, srcva)] ∧ a.page = pageAt s' srcva

theorem pageAt_eq_none {s : Server} {srcva : Nat} : pageAt s srcva = none ↔ srcva = 0 := by
  unfold pageAt
  split
  · simp_all
  · split <;> simp_all

/-! ## Programs that send nothing -/

/-- Nothing is sent. -/
def silent : Lib.Effect Fs.Call Reply Server where
  calls
    | .ipcSend .. => False
    | .mark .. | .memAlloc _ | .pageref _ => True
  answers := (quiet Any True).answers
  rel _ _ := True
  refl _ := trivial
  trans _ _ := trivial

section

variable {α : Type} {Q : α → Prop}

theorem silent_of_quiet {x : Serv α} (h : within (quiet (fun _ => True) True) x Q) : within silent x Q := by
  refine Lib.within_weaken (fun c hc => ?_) (fun c r hr => ?_) (fun _ _ _ => trivial) h
  · cases c with
    | ipcSend => exact hc
    | mark => exact trivial
    | memAlloc => exact trivial
    | pageref => exact trivial
  · cases c with
    | memAlloc => exact hr
    | ipcSend => exact trivial
    | mark => exact trivial
    | pageref => exact trivial

theorem sends_silent {t l : Trace Fs.Call Reply} (h : ∀ e ∈ l, silent.calls e.1) :
    Fs.sends (t ++ l) = Fs.sends t := by
  have hnil : Fs.sends l = [] := by
    refine List.filterMap_eq_nil_iff.mpr ?_
    rintro ⟨_ | _ | _ | _, r⟩ he
    · rfl
    · rfl
    · rfl
    · exact (h _ he).elim
  have happ : Fs.sends (t ++ l) = Fs.sends t ++ Fs.sends l := List.filterMap_append
  rw [happ, hnil, List.append_nil]

/-- What is sent is an error without a page or a page without an error. -/
def Decent (t : Trace Fs.Call Reply) : Prop := ∀ e ∈ Fs.sends t, e.2.1 < 0 ↔ e.2.2 = 0

/-- All that `x` sends is decent. -/
def SendsDecently (x : Serv Unit) : Prop :=
  ∀ s t, Decent t → provided memory x (fun _ _ t' => Decent t') (fun _ _ t' => Decent t') s t

theorem decent_bind {x : Serv α} {f : α → Serv Unit} (hx : within silent x Q)
    (hf : ∀ a, Q a → SendsDecently (f a)) : SendsDecently (x >>= f) := by
  intro s t ht
  rw [Lib.provided_bind]
  refine Lib.provided_mono (Lib.provided_within (M := memory) (F := silent) (fun t ht => ht) hx s t)
    (fun a s' t' _ h => ?_) fun e s' t' _ h => ?_
  · obtain ⟨⟨l, rfl, hl⟩, -, ha⟩ := h
    refine hf a ha s' _ ?_
    unfold Decent
    rw [sends_silent hl]
    exact ht
  · obtain ⟨⟨l, rfl, hl⟩, -⟩ := h
    unfold Decent
    rw [sends_silent hl]
    exact ht

end

theorem decent_send {envid srcva perm : Nat} {val : Int} (h : val < 0 ↔ srcva = 0) :
    SendsDecently (Fs.ipcSend envid val srcva perm) := by
  intro s t ht
  have hnew : ∀ {t'}, Fs.sends t' = Fs.sends t ++ [(envid, val, srcva)] → Decent t' := by
    intro t' ht' e he
    rw [ht'] at he
    rcases List.mem_append.mp he with he | he
    · exact ht e he
    · rw [List.mem_singleton.mp he]
      exact h
  exact Lib.provided_mono (Fs.ipcSend_spec ..) (fun _ _ _ _ h => hnew h.2) fun _ _ _ _ h => hnew h.2

theorem decent_error (envid : Nat) (e : Err) : SendsDecently (Fs.replyError envid e) :=
  decent_send (by cases e <;> decide)

/-! ## The requests for pages -/

theorem silent_call {c : Fs.Call} (hc : silent.calls c) : within silent (Fs.call c) Any :=
  Lib.within_call hc fun _ _ => trivial

theorem silent_modify (f : Server → Server) :
    within silent (modify f : Serv PUnit) Any := Lib.within_modify (fun _ => trivial) trivial

theorem silent_openEntry (i : Nat) : within silent (Fs.openEntry i) Any := by
  unfold Fs.openEntry Fs.clearFf
  apply Lib.within_bind (silent_call (c := .pageref i) trivial)
  intro n _
  split
  · apply Lib.within_bind (silent_call (c := .memAlloc _) trivial)
    rintro (e | u) _
    · exact Lib.within_pure trivial
    · exact Lib.within_bind (silent_modify _) fun _ _ => Lib.within_pure trivial
  · exact Lib.within_bind (silent_modify _) fun _ _ => Lib.within_pure trivial
  · exact Lib.within_pure trivial

theorem silent_openFrom (n i : Nat) : within silent (Fs.openFrom n i) Any := by
  induction n generalizing i with
  | zero => exact Lib.within_pure trivial
  | succ n ih =>
    unfold Fs.openFrom
    apply Lib.within_bind (silent_openEntry i)
    rintro (_ | r) _
    · exact ih (i + 1)
    · exact Lib.within_pure trivial

theorem silent_createIf (flag : Bool) (path : Fs.Name) (omode : Nat) :
    within silent (Fs.createIf flag path omode) Any := by
  unfold Fs.createIf
  refine Lib.within_ite (fun _ => ?_) fun _ => Lib.within_pure trivial
  apply Lib.within_bind (silent_of_quiet (Fs.within_fileCreate (fun _ => trivial) _ _))
  rintro (e | f) _
  · exact Lib.within_pure trivial
  · exact Lib.within_pure trivial

theorem decent_sendFilefd (envid i f omode : Nat) : SendsDecently (Fs.sendFilefd envid i f omode) := by
  unfold Fs.sendFilefd
  refine decent_bind (Q := fun _ => True) (Lib.within_get fun _ => trivial) fun s _ => ?_
  refine decent_bind (Q := fun _ => True) ?_ fun _ _ => decent_send ?_
  · exact silent_modify fun _ => _
  · have h : Fs.FILEVA = 0x60000000 := rfl
    unfold Fs.ffAt
    omega

theorem decent_serveOpen (envid : Nat) (path : Fs.Name) (omode : Nat) :
    SendsDecently (Fs.serveOpen envid path omode) := by
  unfold Fs.serveOpen
  refine decent_bind (silent_openFrom _ _) fun r _ => ?_
  rcases r with e | i
  · exact decent_error envid e
  · unfold Fs.openPath
    refine decent_bind (silent_createIf _ _ _) fun r _ => ?_
    rcases r with e | u
    · exact decent_error envid e
    · refine decent_bind (silent_createIf _ _ _) fun r _ => ?_
      rcases r with e | u
      · exact decent_error envid e
      · refine decent_bind (silent_of_quiet (Fs.within_fileOpen (fun _ => trivial) _)) fun r _ => ?_
        rcases r with e | f
        · exact decent_error envid e
        · refine decent_bind (Q := fun _ => True) (silent_modify _) fun _ _ => ?_
          refine decent_bind (Q := Any) ?_ fun _ _ => decent_sendFilefd envid i f omode
          unfold Fs.truncateIf
          refine Lib.within_ite (fun _ => ?_) fun _ => Lib.within_pure trivial
          exact silent_of_quiet (Fs.within_fileSetSize (fun _ _ => trivial) (fun _ => trivial) _)

theorem page_fileGetBlock (f i : Nat) :
    within silent (Fs.fileGetBlock f i) fun r => ∀ blk, r = .ok blk → blk ≠ 0 := by
  have hload : ∀ b, within (quiet (fun _ => True) True) (Fs.loadBlock b) fun r =>
      ∀ blk, r = .ok blk → blk ≠ 0 := by
    intro b
    have hne : ∀ blk, (Except.ok (Fs.diskAddr b) : Except Err Nat) = .ok blk → blk ≠ 0 := by
      intro blk hblk
      rw [← Except.ok.inj hblk]
      have h : Fs.DISKMAP = 0x10000000 := rfl
      unfold Fs.diskAddr
      omega
    unfold Fs.loadBlock
    apply Lib.within_bind (Lib.within_get (Q := fun _ => True) fun _ => trivial)
    intro s _
    refine Lib.within_ite (fun _ => Lib.within_pure hne) fun _ => ?_
    apply Lib.within_bind (Fs.within_memAlloc _)
    rintro (e | u) _
    · exact Lib.within_pure fun _ h => nomatch h
    · apply Lib.within_bind (Lib.within_modify (Q := Any) (fun s => ?_) trivial)
      · exact fun _ _ => Lib.within_pure hne
      · exact (Fs.did_mapZero s b).trans (Fs.did_ideRead _ b)
  unfold Fs.fileGetBlock
  apply Lib.within_bind (silent_of_quiet (Fs.within_fileMapBlock fun _ _ _ => trivial))
  rintro (e | b) _
  · exact Lib.within_pure fun _ h => nomatch h
  · unfold Fs.readBlock
    apply Lib.within_bind (silent_of_quiet (Fs.within_isNonexistent b))
    intro r _
    refine Lib.within_ite (fun _ => Lib.within_throw _) fun _ => ?_
    apply Lib.within_bind (silent_of_quiet (Fs.within_isKnownFree b))
    intro r' _
    exact Lib.within_ite (fun _ => Lib.within_throw _) fun _ => silent_of_quiet (hload b)

theorem decent_serveMap (envid fileid offset : Nat) :
    SendsDecently (Fs.serveMap envid fileid offset) := by
  unfold Fs.serveMap Fs.withOpen
  refine decent_bind (Q := Any) ?_ fun r _ => ?_
  · unfold Fs.openLookup
    refine Lib.within_ite (fun _ => Lib.within_pure trivial) fun _ => ?_
    apply Lib.within_bind (silent_call (c := .pageref fileid) trivial)
    intro n _
    exact Lib.within_ite (fun _ => Lib.within_pure trivial) fun _ => Lib.within_pure trivial
  · rcases r with e | i
    · exact decent_error envid e
    · refine decent_bind (Q := fun _ => True) (Lib.within_get fun _ => trivial) fun s _ => ?_
      refine decent_bind (page_fileGetBlock _ _) fun r hr => ?_
      rcases r with e | blk
      · exact decent_error envid e
      · exact decent_send ⟨fun h => absurd h (by decide), fun h => absurd h (hr blk rfl)⟩

/-- The requests that are answered with a page. -/
def AsksPage : Request → Prop
  | .open .. | .map .. => True
  | _ => False

theorem IsAnswer.paged {s : Server} {req : Request} {a : Answer} (hreq : AsksPage req)
    (h : IsAnswer s req a) : a.Paged := by
  obtain ⟨envid, s', w, t, srcva, hrun, ht, hsends, hpage⟩ := h
  have hnil : memory.Holds [] := fun _ he => nomatch he
  have hdecent : SendsDecently (Fs.serve envid req) := by
    cases req with
    | «open» path omode => exact decent_serveOpen _ _ _
    | map fileid offset => exact decent_serveMap _ _ _
    | _ => exact hreq.elim
  have := Lib.provided_run_ok (hdecent s [] fun _ he => nomatch he) hrun hnil ht
  have hone := this (envid, a.val, srcva) (by rw [hsends]; exact List.mem_cons_self)
  unfold Answer.Paged
  rw [hpage, pageAt_eq_none]
  exact hone

end Mos.User
