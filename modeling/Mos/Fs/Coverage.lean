import Mos.Fs.Create
import Mos.Fs.Run

/-!
# Stores and dirty marks

All that a request does to the cache and the disk is a list of accesses. From this history one
reads which stores are covered: a block that was stored to is written afterwards, or it is marked
dirty.
-/

namespace Mos.Fs

open Lib (Bytes Effect always within within_bind within_pure within_ite within_call within_get
  within_modify)
open Lib.Proc (Trace World)

/-! ## The accesses of a request -/

theorem access_opentab (s : Server) (o : Nat → Open) (a : Access) :
    ({ s with opentab := o } : Server).access a = { s.access a with opentab := o } := by
  cases a <;> rfl

theorem accessed_opentab (s : Server) (o : Nat → Open) (l : List Access) :
    ({ s with opentab := o } : Server).accessed l = { s.accessed l with opentab := o } := by
  induction l generalizing s with
  | nil => rfl
  | cons a l ih =>
    show (({ s with opentab := o } : Server).access a).accessed l = _
    rw [access_opentab]
    exact ih (s.access a)

/-- Besides the accesses, only the open file table may change. -/
def Accesses (l : List Access) (s s' : Server) : Prop := ∃ o, s' = { s.accessed l with opentab := o }

theorem Accesses.trans {s s' s'' : Server} {l l' : List Access} (h : Accesses l s s')
    (h' : Accesses l' s' s'') : Accesses (l ++ l') s s'' := by
  obtain ⟨o, rfl⟩ := h
  obtain ⟨o', rfl⟩ := h'
  refine ⟨o', ?_⟩
  rw [accessed_opentab, accessed_append]

/-- Whatever is called, what changes is the open file table and what is accessed. A block is marked
dirty only if `D`. -/
def accessing (D : Prop) : Effect Call Reply Server where
  calls _ := True
  answers := (quiet Any D).answers
  rel s s' := ∃ l, Accesses l s s' ∧ MarksOnlyIf D l
  refl s := ⟨[], ⟨s.opentab, rfl⟩, .nil⟩
  trans h h' := by
    obtain ⟨l, h, hD⟩ := h
    obtain ⟨l', h', hD'⟩ := h'
    exact ⟨l ++ l', h.trans h', hD.append hD'⟩

section

variable {α : Type} {Q : α → Prop} {D : Prop}

theorem accesses_of_quiet {x : Serv α} (h : within (quiet (fun _ => True) D) x Q) :
    within (accessing D) x Q := by
  refine Lib.within_weaken (fun _ _ => trivial) (fun c r hr => ?_) (fun s s' hk => ?_) h
  · cases c with
    | memAlloc => exact hr
    | ipcSend => exact trivial
    | mark => exact trivial
    | pageref => exact trivial
  · obtain ⟨l, rfl, hD⟩ := hk.accesses
    exact ⟨l, ⟨_, rfl⟩, hD⟩

theorem accesses_call (c : Call) : within (accessing D) (call c) Any :=
  within_call trivial fun _ _ => trivial

theorem accesses_table (f : Server → Server) (h : ∀ s, ∃ o, f s = { s with opentab := o }) :
    within (accessing D) (modify f : Serv PUnit) Any :=
  within_modify (fun s => ⟨[], h s, .nil⟩) trivial

theorem accesses_ipcSend (envid : Nat) (val : Int) (srcva perm : Nat) :
    within (accessing D) (ipcSend envid val srcva perm) Any := by
  unfold ipcSend
  apply within_bind (accesses_call _)
  intro r _
  exact within_ite (fun _ => within_pure trivial) fun _ => Lib.within_throw _

theorem accesses_openEntry (i : Nat) : within (accessing D) (openEntry i) Any := by
  have hclear : within (accessing D) (clearFf i) Any := accesses_table _ fun _ => ⟨_, rfl⟩
  unfold openEntry
  apply within_bind (accesses_call (.pageref i))
  intro n _
  split
  · apply within_bind (accesses_call (.memAlloc _))
    rintro (e | u) _
    · exact within_pure trivial
    · exact within_bind hclear fun _ _ => within_pure trivial
  · exact within_bind hclear fun _ _ => within_pure trivial
  · exact within_pure trivial

theorem accesses_openFrom (n i : Nat) : within (accessing D) (openFrom n i) Any := by
  induction n generalizing i with
  | zero => exact within_pure trivial
  | succ n ih =>
    unfold openFrom
    apply within_bind (accesses_openEntry i)
    rintro (_ | r) _
    · exact ih (i + 1)
    · exact within_pure trivial

theorem accesses_createIf (flag : Bool) (path : Name) (omode : Nat) :
    within (accessing D) (createIf flag path omode) Any := by
  unfold createIf
  refine within_ite (fun _ => ?_) fun _ => within_pure trivial
  apply within_bind (accesses_of_quiet (within_fileCreate (fun _ => trivial) _ _))
  rintro (e | f) _
  · exact within_pure trivial
  · exact within_pure trivial

theorem accesses_sendFilefd (envid i f omode : Nat) :
    within (accessing D) (sendFilefd envid i f omode) Any := by
  have hsend := accesses_ipcSend (D := D) envid 0 (ffAt i) (PTE_D ||| PTE_LIBRARY)
  unfold within at hsend
  unfold sendFilefd
  apply Lib.within_update
  intro s
  exact (hsend _).mono fun r hr => ⟨(accessing D).trans ⟨[], ⟨_, rfl⟩, .nil⟩ hr.1, hr.2⟩

theorem accesses_serveOpen (envid : Nat) (path : Name) (omode : Nat) :
    within (accessing D) (serveOpen envid path omode) Any := by
  unfold serveOpen
  apply within_bind (accesses_openFrom MAXOPEN 0)
  rintro (e | i) _
  · exact accesses_ipcSend ..
  unfold openPath
  apply within_bind (accesses_createIf _ path omode)
  rintro (e | u) _
  · exact accesses_ipcSend ..
  apply within_bind (accesses_createIf _ path omode)
  rintro (e | u) _
  · exact accesses_ipcSend ..
  apply within_bind (accesses_of_quiet (within_fileOpen (fun _ => trivial) path))
  rintro (e | f) _
  · exact accesses_ipcSend ..
  apply within_bind (accesses_table _ fun _ => ⟨_, rfl⟩)
  intro _ _
  refine within_bind (P := Any) ?_ fun _ _ => accesses_sendFilefd envid i f omode
  exact within_ite (fun _ => accesses_of_quiet (within_fileSetSize (fun _ _ => trivial)
    (fun _ => trivial) 0)) fun _ => within_pure trivial

theorem accesses_withOpen (envid fileid : Nat) {body : Nat → Serv Unit}
    (h : ∀ f, within (accessing D) (body f) Any) :
    within (accessing D) (withOpen envid fileid body) Any := by
  unfold withOpen openLookup
  refine within_bind (P := Any) ?_ ?_
  · refine within_ite (fun _ => within_pure trivial) fun _ => ?_
    apply within_bind (accesses_call (.pageref fileid))
    intro n _
    exact within_ite (fun _ => within_pure trivial) fun _ => within_pure trivial
  · rintro (e | i) _
    · exact accesses_ipcSend ..
    · apply within_bind (P := Any) (within_get fun _ => trivial)
      exact fun s _ => h _

/-- A DIRTY request. -/
def Request.Marks : Request → Prop
  | .dirty .. => True
  | _ => False

theorem accesses_serve (envid : Nat) (req : Request) :
    within (accessing req.Marks) (serve envid req) Any := by
  cases req with
  | «open» path omode => exact accesses_serveOpen envid path omode.toNat
  | map fileid offset =>
    show within (accessing _) (serveMap envid fileid.toNat offset.toNat) Any
    unfold serveMap
    refine accesses_withOpen _ _ fun f => ?_
    apply within_bind (accesses_of_quiet (within_fileGetBlock (fun _ _ => trivial) _))
    rintro (e | blk) _
    · exact accesses_ipcSend ..
    · exact accesses_ipcSend ..
  | setSize fileid size =>
    show within (accessing _) (serveSetSize envid fileid.toNat size.toNat) Any
    unfold serveSetSize
    refine accesses_withOpen _ _ fun f => ?_
    apply within_bind (accesses_of_quiet (within_fileSetSize (fun _ _ => trivial) (fun _ => trivial) _))
    exact fun _ _ => accesses_ipcSend ..
  | close fileid =>
    show within (accessing _) (serveClose envid fileid.toNat) Any
    unfold serveClose
    refine accesses_withOpen _ _ fun f => ?_
    apply within_bind (accesses_of_quiet (within_fileClose (fun _ => trivial) f))
    exact fun _ _ => accesses_ipcSend ..
  | dirty fileid offset =>
    show within (accessing _) (serveDirty envid fileid.toNat offset.toNat) Any
    unfold serveDirty
    refine accesses_withOpen _ _ fun f => ?_
    apply within_bind (accesses_of_quiet (within_fileDirty f _))
    rintro (e | u) _
    · exact accesses_ipcSend ..
    · exact accesses_ipcSend ..
  | remove path type =>
    show within (accessing _) (serveRemove envid path type.toNat) Any
    unfold serveRemove
    apply within_bind (accesses_of_quiet (within_fileRemove (fun _ => trivial) path _))
    rintro (e | u) _
    · exact accesses_ipcSend ..
    · exact accesses_ipcSend ..
  | sync =>
    show within (accessing _) (serveSync envid) Any
    unfold serveSync
    apply within_bind (accesses_of_quiet within_fsSync)
    exact fun _ _ => accesses_ipcSend ..

end

/-! ## The history of a run -/

/-- A run of requests from `s₀`, with all that was accessed in it. Only DIRTY requests mark blocks.
Between requests the clients may store into the pages of the cache. -/
inductive Runs (s₀ : Server) : List Request → List Access → Server → Prop where
  | nil : Runs s₀ [] [] s₀
  | store {rs l s} (h : Runs s₀ rs l s) (mem : Bytes) :
      Runs s₀ rs (l ++ [.store mem]) (s.setMem mem)
  | request {rs l l' s s' w envid req t} (h : Runs s₀ rs l s)
      (hrun : (serve envid req).run w s = (t, .ok (), s')) (hl : Accesses l' s s')
      (hmarks : MarksOnlyIf req.Marks l') : Runs s₀ (rs ++ [req]) (l ++ l') s'

variable {s₀ s s' : Server} {rs : List Request} {l : List Access} {b : Nat}

theorem Runs.serve (h : Runs s₀ rs l s) {w : World Call Reply} {envid : Nat} {req : Request}
    {t : Trace Call Reply} (hrun : (serve envid req).run w s = (t, .ok (), s'))
    (ht : memory.Holds t) : ∃ l', Runs s₀ (rs ++ [req]) (l ++ l') s' := by
  have hmem : ∀ t, memory.Holds t → ∀ e ∈ t, (accessing req.Marks).answers e.1 e.2 := fun _ h => h
  have hspec := Lib.provided_within hmem (accesses_serve envid req) s []
  obtain ⟨-, ⟨l', hl, hmarks⟩, -⟩ := Lib.provided_run_ok hspec hrun (fun _ he => nomatch he) ht
  exact ⟨l', h.request hrun hl hmarks⟩

theorem Runs.accesses (h : Runs s₀ rs l s) : Accesses l s₀ s := by
  induction h with
  | nil => exact ⟨_, rfl⟩
  | store _ mem ih => exact ih.trans ⟨_, rfl⟩
  | request _ _ hl _ ih => exact ih.trans hl

/-- What the history says about the page of a block: the last store is not on the disk, and there is
a dirty mark. -/
structure Shadow where
  stale : Prop
  marked : Prop

/-- A page of zeros starts without a mark. What is stored counts if it changes the page of the
block. -/
def Shadow.after (h : Shadow) (b : Nat) (s : Server) : Access → Shadow
  | .store mem =>
    { h with stale := h.stale ∨ ∃ k < BLOCK_SIZE, mem (diskAddr b + k) ≠ s.mem (diskAddr b + k) }
  | .zero b' => if b' = b then ⟨True, False⟩ else h
  | .read b' | .write b' => if b' = b then { h with stale := False } else h
  | .dirty b' => if b' = b then { h with marked := True } else h

def shadow (b : Nat) : List Access → Server → Shadow → Shadow
  | [], _, h => h
  | a :: l, s, h => shadow b l (s.access a) (h.after b s a)

/-- The last store to the page of the block is followed by no write of the block. -/
def Unwritten (s : Server) (l : List Access) (b : Nat) : Prop := (shadow b l s ⟨False, False⟩).stale

/-- The last store to the page of the block is followed by a write of the block, or there is a dirty
mark. -/
def Covered (s : Server) (l : List Access) (b : Nat) : Prop :=
  Unwritten s l b → (shadow b l s ⟨False, False⟩).marked

/-- The page of the block is what the disk has. -/
def Server.OnDisk (s : Server) (b : Nat) : Prop :=
  ∀ k < BLOCK_SIZE, s.disk (b * BLOCK_SIZE + k) = s.mem (diskAddr b + k)

/-- What the history says is so. -/
structure Shadow.Holds (h : Shadow) (b : Nat) (s : Server) : Prop where
  marked : h.marked ↔ s.dirty b = true
  fresh : ¬ h.stale → s.mapped b = true → s.OnDisk b

theorem block_size : BLOCK_SIZE = 4096 := rfl

theorem page_apart {b b' k : Nat} (hk : k < BLOCK_SIZE) (hne : b' ≠ b) :
    diskAddr b + k < diskAddr b' ∨ diskAddr b' + BLOCK_SIZE ≤ diskAddr b + k := by
  unfold diskAddr
  rw [block_size] at hk ⊢
  omega

theorem copy_other {m m' : Bytes} {b b' k src : Nat} (hk : k < BLOCK_SIZE) (hne : b' ≠ b) :
    m.copy (diskAddr b') m' src BLOCK_SIZE (diskAddr b + k) = m (diskAddr b + k) :=
  Bytes.copy_of_ne (page_apart hk hne)

theorem mapZero_other (s : Server) {b b' k : Nat} (hk : k < BLOCK_SIZE) (hne : b' ≠ b) :
    (s.mapZero b').mem (diskAddr b + k) = s.mem (diskAddr b + k) := by
  show s.mem.copy (diskAddr b') (fun _ => 0) 0 BLOCK_SIZE (diskAddr b + k) = _
  exact copy_other hk hne

theorem ideRead_other (s : Server) {b b' k : Nat} (hk : k < BLOCK_SIZE) (hne : b' ≠ b) :
    (s.ideRead b').mem (diskAddr b + k) = s.mem (diskAddr b + k) := by
  unfold Server.ideRead
  exact copy_other hk hne

theorem copy_disk_other {m m' : Bytes} {b b' k src : Nat} (hk : k < BLOCK_SIZE) (hne : b' ≠ b) :
    m.copy (b' * BLOCK_SIZE) m' src BLOCK_SIZE (b * BLOCK_SIZE + k) = m (b * BLOCK_SIZE + k) := by
  have hpage := page_apart hk hne
  unfold diskAddr at hpage
  exact Bytes.copy_of_ne (by omega)

theorem Shadow.Holds.after {h : Shadow} (hs : h.Holds b s) (a : Access) :
    (h.after b s a).Holds b (s.access a) := by
  cases a with
  | store mem =>
    -- If the store is no store to this page, the page is as it was.
    refine ⟨hs.marked, fun hstale hm k hk => ?_⟩
    simp only [Shadow.after, not_or, not_exists, not_and, not_not] at hstale
    exact (hs.fresh hstale.1 hm k hk).trans (hstale.2 k hk).symm
  | zero b' =>
    by_cases hb : b' = b
    · subst hb
      -- The page is new: nothing is marked, and what the disk has is not looked at.
      simp only [Shadow.after, if_true]
      exact ⟨by simp [Server.access, Server.mapZero], fun hstale => absurd trivial hstale⟩
    · simp only [Shadow.after, if_neg hb]
      have hne : b ≠ b' := Ne.symm hb
      refine ⟨?_, fun hstale hm k hk => ?_⟩
      · simpa [Server.access, Server.mapZero, Function.update_of_ne hne] using hs.marked
      · have hm' : s.mapped b = true := by
          simpa [Server.access, Server.mapZero, Function.update_of_ne hne] using hm
        exact (hs.fresh hstale hm' k hk).trans (mapZero_other s hk hb).symm
  | read b' =>
    by_cases hb : b' = b
    · subst hb
      simp only [Shadow.after, if_true]
      exact ⟨hs.marked, fun _ _ k hk => (Bytes.copy_of_mem hk).symm⟩
    · simp only [Shadow.after, if_neg hb]
      exact ⟨hs.marked, fun hstale hm k hk =>
        (hs.fresh hstale hm k hk).trans (ideRead_other s hk hb).symm⟩
  | write b' =>
    by_cases hb : b' = b
    · subst hb
      simp only [Shadow.after, if_true]
      exact ⟨hs.marked, fun _ _ k hk => Bytes.copy_of_mem hk⟩
    · simp only [Shadow.after, if_neg hb]
      exact ⟨hs.marked, fun hstale hm k hk => (copy_disk_other hk hb).trans (hs.fresh hstale hm k hk)⟩
  | dirty b' =>
    by_cases hb : b' = b
    · subst hb
      simp only [Shadow.after, if_true]
      exact ⟨by simp [Server.access, Server.setDirty], hs.fresh⟩
    · simp only [Shadow.after, if_neg hb]
      have hne : b ≠ b' := Ne.symm hb
      refine ⟨?_, hs.fresh⟩
      simpa [Server.access, Server.setDirty, Function.update_of_ne hne] using hs.marked

theorem shadow_holds {h : Shadow} (l : List Access) (hs : h.Holds b s) :
    (shadow b l s h).Holds b (s.accessed l) := by
  induction l generalizing s h with
  | nil => exact hs
  | cons a l ih => exact ih (hs.after a)

/-- Nothing is marked, and the pages of the blocks from `n` on are as on the disk. -/
structure Clean (n : Nat) (s : Server) : Prop where
  unmarked : ∀ b, s.dirty b = false
  onDisk : ∀ b, n ≤ b → s.mapped b = true → s.OnDisk b

variable {n : Nat} {t : Trace Call Reply}

theorem clean_start (disk : Bytes) : Clean 1 (Server.start disk) := ⟨fun _ => rfl, fun _ _ h => nomatch h⟩

theorem Clean.loaded (h : Clean n s) (b : Nat) : Clean n ((s.mapZero b).ideRead b) := by
  refine ⟨fun b' => ?_, fun b' hb' hm k hk => ?_⟩
  · show Function.update s.dirty b false b' = false
    by_cases hb : b' = b
    · rw [hb, Function.update_self]
    · rw [Function.update_of_ne hb]
      exact h.unmarked b'
  · by_cases hb : b = b'
    · rw [hb]
      exact (Bytes.copy_of_mem hk).symm
    · have hm' : s.mapped b' = true := (Function.update_of_ne (Ne.symm hb) ..).symm.trans hm
      have hsame : ((s.mapZero b).ideRead b).mem (diskAddr b' + k) = s.mem (diskAddr b' + k) :=
        (ideRead_other _ hk hb).trans (mapZero_other s hk hb)
      exact (h.onDisk b' hb' hm' k hk).trans hsame.symm

theorem Clean.store (h : Clean n s) {mem : Bytes}
    (hmem : ∀ b, n ≤ b → ∀ k < BLOCK_SIZE, mem (diskAddr b + k) = s.mem (diskAddr b + k)) :
    Clean n (s.setMem mem) :=
  ⟨h.unmarked, fun b hb hm k hk => (h.onDisk b hb hm k hk).trans (hmem b hb k hk).symm⟩

theorem Clean.weaken (h : Clean 1 s) : Clean 2 s := ⟨h.unmarked, fun b hb => h.onDisk b (by omega)⟩

theorem Clean.write (h : Clean 2 s) : Clean 1 (s.ideWrite 1) := by
  refine ⟨h.unmarked, fun b hb hm k hk => ?_⟩
  by_cases h1 : 1 = b
  · rw [← h1]
    exact Bytes.copy_of_mem hk
  · exact (copy_disk_other hk h1).trans (h.onDisk b (by omega) hm k hk)

theorem Clean.unmap (h : Clean 1 s) (b : Nat) : Clean 1 (s.unmap b) := by
  refine ⟨fun b' => ?_, fun b' hb' hm => ?_⟩
  · show Function.update s.dirty b false b' = false
    by_cases hb : b' = b
    · rw [hb, Function.update_self]
    · rw [Function.update_of_ne hb]
      exact h.unmarked b'
  · have hm' : Function.update s.mapped b false b' = true := hm
    by_cases hb : b' = b
    · rw [hb, Function.update_self] at hm'
      cases hm'
    · rw [Function.update_of_ne hb] at hm'
      exact h.onDisk b' hb' hm'

theorem clean_readBlock (h : Clean n s) (b : Nat) :
    always (readBlock b) (fun _ s' _ => Clean n s') AnyStop s t := by
  unfold readBlock
  rw [Lib.always_bind]
  refine Lib.always_mono (always_isNonexistent b s t) ?_ fun _ _ _ _ => trivial
  rintro _ _ _ ⟨rfl, rfl⟩
  rw [Lib.always_ite, Lib.always_throw]
  refine ⟨fun _ => trivial, fun _ => ?_⟩
  rw [Lib.always_bind]
  refine Lib.always_mono (always_isKnownFree b _ _) ?_ fun _ _ _ _ => trivial
  rintro _ _ _ ⟨rfl, rfl⟩
  rw [Lib.always_ite, Lib.always_throw]
  refine ⟨fun _ => trivial, fun _ => ?_⟩
  unfold loadBlock call
  rw [Lib.always_bind, Lib.always_get, Lib.always_ite, Lib.always_pure, Lib.always_bind, Lib.always_call]
  refine ⟨fun _ => h, fun _ r => ?_⟩
  cases r with
  | error e =>
    rw [Lib.always_pure]
    exact h
  | ok u =>
    rw [Lib.always_bind, Lib.always_modify, Lib.always_pure]
    exact h.loaded b

theorem clean_readOrPanic (h : Clean n s) (b : Nat) :
    always (readOrPanic b) (fun _ s' _ => Clean n s') AnyStop s t := by
  unfold readOrPanic
  rw [Lib.always_bind]
  refine Lib.always_mono (clean_readBlock h b) (fun r s' t' hs => ?_) fun _ _ _ _ => trivial
  cases r with
  | error e =>
    rw [Lib.always_throw]
    trivial
  | ok blk =>
    rw [Lib.always_pure]
    exact hs

theorem clean_writeBlock (h : Clean 2 s) :
    always (writeBlock 1) (fun _ s' _ => Clean 1 s') AnyStop s t := by
  unfold writeBlock
  rw [Lib.always_bind, Lib.always_get, Lib.always_ite, Lib.always_set, Lib.always_throw]
  exact ⟨fun _ => h.write, fun _ => trivial⟩

theorem clean_readSuper (h : Clean n s) : always readSuper (fun _ s' _ => Clean n s') AnyStop s t := by
  unfold readSuper
  rw [Lib.always_bind]
  refine Lib.always_mono (clean_readBlock h 1) (fun r s' t' hs => ?_) fun _ _ _ _ => trivial
  cases r with
  | error e =>
    rw [Lib.always_throw]
    trivial
  | ok blk =>
    have hs' : Clean n { s' with super := blk } := ⟨hs.unmarked, hs.onDisk⟩
    unfold nblocks loadWord
    simp [Lib.always_ite, -bind_pure_comp, hs']

theorem Clean.copyPage (h : Clean n s) {b : Nat} (hb : b < n) (b' : Nat) : Clean n (s.copyPage b b') :=
  h.store fun b'' hb'' _ hk => copy_other hk (by omega)

theorem clean_checkWriteBlock (h : Clean 1 s) :
    always checkWriteBlock (fun _ s' _ => Clean 1 s') AnyStop s t := by
  unfold checkWriteBlock
  have h₀ : Clean 1 { s with super := 0 } := ⟨h.unmarked, h.onDisk⟩
  rw [Lib.always_bind, Lib.always_modify, Lib.always_bind]
  refine Lib.always_mono (clean_readOrPanic h₀ 0) (fun _ s₁ t₁ h₁ => ?_)
    fun _ _ _ _ => trivial
  unfold storeList
  rw [Lib.always_bind, Lib.always_modify, Lib.always_bind, Lib.always_bind, Lib.always_get,
    Lib.always_ite, Lib.always_set, Lib.always_throw]
  refine ⟨fun _ => ?_, fun _ => trivial⟩
  -- Block 1 is overwritten in memory, and then on the disk.
  have h₂ : Clean 2 ((s₁.copyPage 0 1).setMem
      ((s₁.copyPage 0 1).mem.setList (diskAddr 1) (oops ++ [0]))) := by
    refine (h₁.copyPage (by decide) 1).weaken.store fun b hb k hk => Bytes.setList_of_ne (.inr ?_)
    have hlength : (oops ++ [0]).length = 7 := rfl
    rw [hlength]
    unfold diskAddr
    rw [block_size]
    omega
  rw [Lib.always_bind]
  refine Lib.always_mono (clean_writeBlock h₂) (fun _ s₃ t₃ h₃ => ?_) fun _ _ _ _ => trivial
  rw [Lib.always_bind, Lib.always_modify, Lib.always_bind]
  refine Lib.always_mono (clean_readOrPanic (h₃.unmap 1) 1) (fun _ s₄ t₄ h₄ => ?_)
    fun _ _ _ _ => trivial
  rw [Lib.always_bind, Lib.always_get, Lib.always_ite, Lib.always_throw]
  refine ⟨fun _ => ?_, fun _ => trivial⟩
  -- The super block is put back in the same way.
  rw [Lib.always_bind, Lib.always_modify, Lib.always_bind]
  have h₅ : Clean 2 (s₄.copyPage 1 0) := h₄.weaken.copyPage (by decide) 0
  refine Lib.always_mono (clean_writeBlock h₅) (fun _ s₆ t₆ h₆ => ?_) fun _ _ _ _ => trivial
  rw [Lib.always_modify]
  exact ⟨h₆.unmarked, h₆.onDisk⟩

theorem clean_readFrom (h : Clean n s) (k i : Nat) :
    always (readFrom k i) (fun _ s' _ => Clean n s') AnyStop s t := by
  induction k generalizing i s t with
  | zero =>
    unfold readFrom
    rw [Lib.always_pure]
    exact h
  | succ k ih =>
    unfold readFrom
    rw [Lib.always_bind]
    exact Lib.always_mono (clean_readBlock h (i + 2)) (fun _ s' t' hs => ih hs (i + 1))
      fun _ _ _ _ => trivial

theorem clean_assertUsed (h : Clean n s) (k i : Nat) :
    always (assertUsed k i) (fun _ s' _ => Clean n s') AnyStop s t := by
  induction k generalizing i s t with
  | zero =>
    unfold assertUsed
    rw [Lib.always_pure]
    exact h
  | succ k ih =>
    unfold assertUsed blockIsFree nblocks loadBit loadWord
    simp [Lib.always_ite, -bind_pure_comp, ih h]

theorem clean_fsInit (h : Clean 1 s) : always fsInit (fun _ s' _ => Clean 1 s') AnyStop s t := by
  unfold fsInit
  rw [Lib.always_bind]
  refine Lib.always_mono (clean_readSuper h) (fun _ s₁ t₁ h₁ => ?_) fun _ _ _ _ => trivial
  rw [Lib.always_bind]
  refine Lib.always_mono (clean_checkWriteBlock h₁) (fun _ s₂ t₂ h₂ => ?_) fun _ _ _ _ => trivial
  unfold readBitmap nblocks loadWord
  simp only [Lib.always_bind, Lib.always_get, Lib.always_ite, Lib.always_pure, Lib.always_throw,
    Lib.always_modify]
  refine ⟨fun _ => ?_, fun _ => trivial⟩
  refine Lib.always_mono (clean_readFrom h₂ _ 0) (fun _ s₃ t₃ h₃ => ?_) fun _ _ _ _ => trivial
  have h₃' : Clean 1 { s₃ with bitmap := diskAddr 2 } := ⟨h₃.unmarked, h₃.onDisk⟩
  refine Lib.always_mono (clean_assertUsed h₃' 2 0) (fun _ s₄ t₄ h₄ => ?_) fun _ _ _ _ => trivial
  exact clean_assertUsed h₄ _ 2

theorem Booted.clean (h : Booted s) : Clean 1 s := by
  obtain ⟨-, d, w, t, -, hrun⟩ := h
  exact Lib.always_run_ok (clean_fsInit (clean_start _)) hrun

theorem Runs.holds (hboot : Booted s₀) (h : Runs s₀ rs l s) (hb : 1 ≤ b) :
    (shadow b l s₀ ⟨False, False⟩).Holds b s := by
  have hstart : (⟨False, False⟩ : Shadow).Holds b s₀ :=
    ⟨by simp [hboot.clean.unmarked b], fun _ hm => hboot.clean.onDisk b hb hm⟩
  obtain ⟨o, rfl⟩ := h.accesses
  have hend := shadow_holds l hstart
  exact ⟨hend.marked, hend.fresh⟩

theorem Runs.unmarked (h : Runs s₀ rs l s) (hboot : Booted s₀) (hb : 1 ≤ b) (hc : ¬ Covered s₀ l b) :
    s.dirty b = false := by
  have hholds := h.holds hboot hb
  have hmarked : ¬ (shadow b l s₀ ⟨False, False⟩).marked := fun hm => hc fun _ => hm
  rw [hholds.marked] at hmarked
  simpa using hmarked

end Mos.Fs
