import Mos.Mem.Syscalls

/-!
# The assertions about counters

`page_free` and `page_decref` assert what the counter of the page must be. As long
as the counters agree with the references, no step of the machine fails there.
-/

namespace Mos

open Lib (wp wp_and wp_bind wp_forM wp_get wp_guard wp_handle wp_ite wp_modify wp_mono wp_pure
  wp_recover wp_throw Keeps keeps_get keeps_modify keeps_pure keeps_throw)

variable {pool : Finset Nat} {base : Nat} {k k' : Kernel} {e c : EnvIx} {va perm : Word} {α β : Type}

/-- The stop is a failed assertion of `page_free` or `page_decref`. -/
def Stop.Asserts : Stop → Prop
  | .fault f => Mos.Asserts f
  | _ => False

/-- The function does not stop in one of these assertions. -/
def Sure (x : K α) (k : Kernel) : Prop := wp x (fun _ _ => True) (fun err _ => ¬ err.Asserts) k

theorem errno_sure (err : Errno) : ¬ (Stop.errno err).Asserts := by
  simp [Stop.Asserts, Asserts]

theorem null_sure : ¬ (Stop.fault nullPointer).Asserts := by
  simp [Stop.Asserts, Asserts, nullPointer]

theorem panic_sure {msg : String} (h0 : msg ≠ "assertion failed: pp->pp_ref == 0")
    (h1 : msg ≠ "assertion failed: pp->pp_ref > 0") : ¬ (Stop.panic msg).Asserts := by
  simp [Stop.Asserts, Asserts, h0, h1]

theorem wild_sure : ¬ Stop.wild.Asserts := by
  simp [Stop.Asserts, Asserts]

theorem BadAddress.sure {f : Fault} (h : BadAddress f) : ¬ (Stop.fault f).Asserts := h.not_asserts

theorem Panics.sure {f : Fault} (h : Panics f) : ¬ (Stop.fault f).Asserts := h.1

namespace Sure

theorem bind {x : K β} {f : β → K α} {Q : β → Kernel → Prop}
    (hx : wp x Q (fun err _ => ¬ err.Asserts) k) (hf : ∀ b k₁, Q b k₁ → Sure (f b) k₁) :
    Sure (x >>= f) k := by
  unfold Sure
  rw [wp_bind]
  exact wp_mono hx hf (fun _ _ h => h)

theorem pure (a : α) : Sure (pure a : K α) k := (wp_pure a).mpr trivial

theorem errno (err : Errno) : Sure (throw (.errno err) : K α) k := (wp_throw _).mpr (errno_sure err)

theorem check {p : Prop} [Decidable p] {err : Stop} {x : K α} (he : ¬ err.Asserts)
    (hx : ¬ p → Sure x k) : Sure (do
      if p then throw err
      x) k := wp_guard (fun _ => he) hx

theorem guard {p : Prop} [Decidable p] {err : Errno} {x : K α} (hx : ¬ p → Sure x k) :
    Sure (do
      if p then throw (.errno err)
      x) k := check (errno_sure err) hx

theorem get {f : Kernel → K α} (hf : Sure (f k) k) : Sure (MonadState.get >>= f) k :=
  bind (Q := fun a k₁ => a = k ∧ k₁ = k) (wp_get.mpr ⟨rfl, rfl⟩) fun _ _ h => h.1 ▸ h.2 ▸ hf

theorem ite {p : Prop} [Decidable p] {x y : K α} (hx : p → Sure x k) (hy : ¬ p → Sure y k) :
    Sure (if p then x else y) k := (wp_ite x y).mpr ⟨hx, hy⟩

theorem curenvPtr {f : EnvIx → K α} (hf : ∀ c, k.curenv = some c → Sure (f c) k) :
    Sure (Mos.curenvPtr >>= f) k := by
  unfold Sure
  rw [wp_bind]
  exact wp_curenvPtr hf fun _ => null_sure

theorem envid2env {envid : Word} {checkperm : Bool} {f : EnvIx → K α}
    (hf : ∀ e, target k envid checkperm = some e → Sure (f e) k) :
    Sure (Mos.envid2env envid checkperm >>= f) k := by
  unfold Sure
  rw [wp_bind]
  refine wp_envid2env hf ?_
  rintro err (rfl | rfl)
  · exact errno_sure _
  · exact null_sure

theorem updEnv {g : Env → Env} {f : Unit → K α} (hf : Sure (f ()) (k.setEnv e g)) :
    Sure (Mos.updEnv e g >>= f) k :=
  bind (Q := fun _ k₁ => k₁ = k.setEnv e g) ((wp_updEnv e g).mpr rfl) fun _ _ h => h ▸ hf

theorem lookup {d : Nat} {f : Option (Nat × PtePtr) → K α} (hf : Sure (f (k.mem.lookup d va)) k) :
    Sure (onMem (pageLookup d va) >>= f) k := by
  refine bind (Q := fun r k₁ => r = k.mem.lookup d va ∧ k₁ = k) ?_ fun _ _ h => h.1 ▸ h.2 ▸ hf
  rw [wp_onMem]
  refine wp_mono (pageLookup_spec k.mem d va) ?_ (fun _ _ herr => herr.2.sure)
  rintro r m ⟨rfl, rfl⟩
  exact ⟨rfl, rfl⟩

end Sure

/-! ## Functions that do not work on pages -/

/-- A function that stops in none of these assertions, wherever it starts. -/
abbrev Quietly (x : K α) : Prop := Keeps (fun _ _ => True) (fun err => ¬ err.Asserts) x

instance : Std.Refl fun _ _ : Kernel => True := ⟨fun _ => trivial⟩

instance : IsTrans Kernel fun _ _ => True := ⟨fun _ _ _ _ _ => trivial⟩

instance : Quiet fun _ _ => True where
  setMem _ _ := trivial
  setJobs _ _ _ := trivial

theorem Keeps.sure {x : K α} (h : Quietly x) (k : Kernel) : Sure x k :=
  wp_mono (h k) (fun _ _ _ => trivial) (fun _ _ h => h.2)

theorem quietly_schedRemove (e : EnvIx) : Quietly (schedRemove e) := by
  unfold schedRemove
  refine (keeps_modify fun _ => trivial).bind fun _ => keeps_get.bind fun k => ?_
  split
  · exact keeps_modify fun _ => trivial
  · exact keeps_throw null_sure

theorem quietly_schedPick : Quietly schedPick := by
  unfold schedPick schedRotate schedFirst schedInsertTail
  refine Keeps.bind (keeps_get.bind fun k => ?_) fun _ => keeps_get.bind fun k => ?_
  · split
    · refine keeps_get.bind fun _ => Keeps.ite ?_ (keeps_pure _)
      exact (quietly_schedRemove _).bind fun _ => keeps_modify fun _ => trivial
    · exact keeps_pure _
  · split
    · exact keeps_throw (panic_sure (by simp) (by simp))
    · exact (keeps_modify fun _ => trivial).bind fun _ => keeps_pure _

theorem quietly_curenvPtr : Quietly curenvPtr := fun _ =>
  wp_curenvPtr (fun _ _ => trivial) (fun _ => ⟨trivial, null_sure⟩)

theorem quietly_envRun (e : EnvIx) : Quietly (envRun e) := by
  unfold envRun envSave envEnter restoreAll updEnv
  have step : ∀ f : Kernel → Kernel, Quietly (modify f) := fun _ => keeps_modify fun _ => trivial
  refine keeps_get.bind fun k => Keeps.guard (panic_sure (by simp) (by simp)) ?_
  refine Keeps.bind (keeps_get.bind fun k => ?_) fun _ => ?_
  · split
    · exact keeps_get.bind fun _ => step _
    · exact keeps_pure _
  · refine (step _).bind fun _ => (step _).bind fun _ => (step _).bind fun _ => ?_
    exact (step _).bind fun _ => keeps_get.bind fun _ => (step _).bind fun _ => keeps_throw id

theorem quietly_schedule (yield : Bool) : Quietly (schedule yield) := by
  unfold schedule
  refine keeps_get.bind fun k => Keeps.ite ?_ ?_
  · exact quietly_schedPick.bind fun e => (keeps_modify fun _ => trivial).bind fun _ => quietly_envRun e
  · exact quietly_curenvPtr.bind fun e => (keeps_modify fun _ => trivial).bind fun _ => quietly_envRun e

theorem quietly_onMem {x : M α} (hx : Keeps (fun _ _ => True) (fun f => ¬ Asserts f) x) :
    Quietly (onMem x) := fun k => (wp_onMem x).mpr
  (wp_mono (hx k.mem) (fun _ _ _ => trivial) (fun _ _ h => ⟨trivial, h.2⟩))

theorem quietly_kaddr (pa : Word) : Keeps (fun _ _ => True) (fun f => ¬ Asserts f) (kaddr pa) :=
  fun m => wp_mono (kaddr_spec m pa) (fun _ _ _ => trivial) (fun _ _ h => ⟨trivial, h.2.not_asserts⟩)

theorem quietly_pageAlloc : Keeps (fun _ _ => True) (fun f => ¬ Asserts f) pageAlloc := by
  unfold pageAlloc
  refine keeps_get.bind fun m => ?_
  split
  · exact keeps_throw (errno_sure .noMem)
  · exact (keeps_modify fun _ => trivial).bind fun _ => (quietly_kaddr _).bind fun _ =>
      (keeps_modify fun _ => trivial).bind fun _ => keeps_pure _

theorem quietly_envAlloc (parentId : Word) : Quietly (envAlloc parentId) := by
  unfold envAlloc envSetup envSetupVm asidAlloc mkenvid updEnv
  have step : ∀ f : Kernel → Kernel, Quietly (modify f) := fun _ => keeps_modify fun _ => trivial
  have store : ∀ f : Mem → Mem, Quietly (onMem (modify f)) := fun _ =>
    quietly_onMem (keeps_modify fun _ => trivial)
  have vm : ∀ e, Quietly (envSetupVm e) := by
    intro e
    unfold envSetupVm updEnv
    refine (quietly_onMem quietly_pageAlloc).bind fun _ => (store _).bind fun _ => ?_
    exact (quietly_onMem (quietly_kaddr _)).bind fun _ => (step _).bind fun _ =>
      keeps_get.bind fun _ => store _
  refine keeps_get.bind fun k => ?_
  split
  · exact keeps_throw (errno_sure _)
  · refine Keeps.bind ?_ fun _ => (step _).bind fun _ => keeps_pure _
    refine (vm _).bind fun _ => (step _).bind fun _ => Keeps.bind ?_ fun _ => ?_
    · refine keeps_get.bind fun k => ?_
      dsimp only
      split
      · exact (step _).bind fun _ => keeps_pure _
      · exact keeps_throw (errno_sure _)
    · exact (step _).bind fun _ => ((step _).bind fun _ => keeps_get.bind fun _ =>
        keeps_pure _).bind fun _ => (step _).bind fun _ => step _

/-! ## Calls on pages -/

theorem insert_sure {m : Mem} (h : MemInv pool base k.vm.dirs m) (he : (k.envs e).envStatus ≠ .free)
    (hva : pdx va < pdx utop) {p : Nat} (hp : Held pool k.vm.dirs m p) (hm : k'.mem = m) :
    Sure (onMem (pageInsert (k.envs e).envPgdir (k.envs e).envAsid p va perm)) k' := by
  unfold Sure
  rw [wp_onMem, hm]
  refine wp_mono (pageInsert_spec h (Sound.dirs_live he) hva hp) (fun _ _ _ => trivial) ?_
  rintro err m' (⟨rfl, -⟩ | hbad)
  · exact errno_sure _
  · exact hbad.sure

theorem memAlloc_sure (h : Sound pool base k) (envid va perm : Word) :
    Sure (sysMemAlloc envid va perm) k := by
  unfold sysMemAlloc
  refine .guard fun hva => .envid2env fun e he => ?_
  have hva := (Bool.not_eq_true _).mp hva
  refine .bind (Q := fun p k₁ => ∃ rest, k.mem.pageFreeList = p :: rest ∧
    k₁ = k.setMem (k.mem.taken p rest)) ?_ ?_
  · rw [wp_onMem]
    refine wp_mono (pageAlloc_spec h.vm.toMemInv) ?_ ?_
    · rintro p m ⟨rest, hfree, rfl⟩
      exact ⟨rest, hfree, rfl⟩
    · rintro err m (⟨rfl, -⟩ | hbad)
      · exact errno_sure _
      · exact hbad.sure
  · rintro p _ ⟨rest, hfree, rfl⟩
    refine .get (.bind (insert_sure (h.vm.toMemInv.taken hfree) (h.target_live he) (legal_pdx hva)
      (h.vm.toMemInv.fresh_taken hfree).held rfl) fun _ _ _ => .pure _)

theorem memMap_sure (h : Sound pool base k) (srcid srcva dstid dstva perm : Word) :
    Sure (sysMemMap srcid srcva dstid dstva perm) k := by
  unfold sysMemMap
  refine .guard fun hva => .envid2env fun src hsrc => .envid2env fun dst hdst => ?_
  rw [not_or, Bool.not_eq_true, Bool.not_eq_true] at hva
  refine .get (.get (.lookup ?_))
  cases hl : k.mem.lookup (k.envs src).envPgdir srcva with
  | none => exact .errno _
  | some r =>
    obtain ⟨p, x⟩ := r
    have hheld := lookup_held h (h.target_live hsrc) (legal_pdx hva.1) hl
    exact .bind (insert_sure h.vm.toMemInv (h.target_live hdst) (legal_pdx hva.2) hheld rfl)
      fun _ _ _ => .pure _

theorem memUnmap_sure (h : Sound pool base k) (envid va : Word) : Sure (sysMemUnmap envid va) k := by
  unfold sysMemUnmap
  refine .guard fun hva => .envid2env fun e he => .get (.bind (Q := fun _ _ => True) ?_
    fun _ _ _ => .pure _)
  have hva := (Bool.not_eq_true _).mp hva
  rw [wp_onMem]
  exact wp_mono (pageRemove_spec h.vm.toMemInv (Sound.dirs_live (h.target_live he)) (legal_pdx hva))
    (fun _ _ _ => trivial) (fun _ _ hbad => hbad.sure)

theorem mapSent_sure (h : Sound pool base k) (he : (k.envs e).envStatus ≠ .free) {srcva : Word}
    (hva : pdx srcva < pdx utop) (perm : Word) : Sure (mapSent e srcva perm) k := by
  unfold mapSent
  refine .curenvPtr fun c hc => .get (.lookup ?_)
  cases hl : k.mem.lookup (k.envs c).envPgdir srcva with
  | none => exact .errno _
  | some r =>
    obtain ⟨p, x⟩ := r
    have hheld := lookup_held h (h.live hc) hva hl
    exact .get (insert_sure h.vm.toMemInv he (pdx_lt_utop (h.dstva_lt e)) hheld rfl)

theorem send_sure (h : Sound pool base k) {waiting : Env → Bool} {deliver : Word → Env → Env}
    (hd : Delivers deliver) (envid srcva perm : Word) :
    Sure (send waiting deliver envid srcva perm) k := by
  unfold send wakeAndMap
  refine .guard fun hlegal => .envid2env fun e he => .get (.guard fun _ => .curenvPtr fun c hc => ?_)
  have hlive := h.target_live he
  refine .get (.updEnv (.updEnv ?_))
  have hwake := hd.woken (k.envs c).envId hlive
  refine .bind (wp_mono (schedInsertTail_spec _ e) (fun _ _ h => h) fun _ _ h => h.elim) ?_
  rintro _ k₃ ⟨q, b, rfl⟩
  have hs := hwake.trans (LinkFree.setList (R := SameVm) _ q b)
  refine .ite (fun hsrc => ?_) fun _ => .pure _
  have hva : isIllegalVa srcva = false := (Bool.not_eq_true _).mp fun hill => hlegal ⟨hsrc, hill⟩
  have hsound := (hs.moved (W := fun _ _ _ _ => True) h).sound
  exact .bind (mapSent_sure hsound ((hs.live_iff e).mpr hlive) (legal_pdx hva) perm) fun _ _ _ => .pure _

/-! ## Environments go and come -/

theorem envDestroy_sure (h : Sound pool base k) (he : (k.envs e).envStatus ≠ .free) :
    Sure (envDestroy e) k := by
  have hfree : Sure (envFree e) k := by
    unfold envFree envRelease Sure
    simp only [wp_bind, wp_get]
    rw [wp_onMem]
    refine wp_mono (envFreeVm_spec h.vm.toMemInv (Sound.dirs_live he)) ?_ (fun _ _ hbad => hbad.sure)
    intro _ m _
    rw [wp_asidFree, wp_onMem, wp_tlbInvalidate, wp_updEnv, wp_modify]
    exact Keeps.sure (quietly_schedRemove e) _
  unfold envDestroy
  refine .bind hfree fun _ k₁ _ => .get (.ite (fun _ => ?_) fun _ => .pure _)
  exact Keeps.sure ((keeps_modify fun _ => trivial).bind fun _ => quietly_schedule true) k₁

theorem killJob_sure (h : Sound pool base k) (jobId : Word) : Sure (envKillJob jobId) k := by
  unfold envKillJob findJob
  refine .get ?_
  dsimp only
  split
  case h_2 => exact .pure _
  case h_1 i hi =>
    refine .get (.get (.ite (fun hrun => ?_) fun _ => .pure _))
    refine .bind (envDestroy_sure h (by rw [hrun]; simp)) fun _ k₁ _ => ?_
    exact (wp_updJob _ _).mpr trivial

theorem quietly_exofork : Quietly sysExofork := by
  unfold sysExofork updEnv
  have step : ∀ f : Kernel → Kernel, Quietly (modify f) := fun _ => keeps_modify fun _ => trivial
  refine quietly_curenvPtr.bind fun c => keeps_get.bind fun _ => (quietly_envAlloc _).bind fun e => ?_
  refine keeps_get.bind fun _ => (step _).bind fun _ => (step _).bind fun _ => (step _).bind fun _ => ?_
  exact keeps_get.bind fun _ => (step _).bind fun _ => keeps_get.bind fun _ => keeps_pure _

/-! ## Stores of the kernel -/

theorem refill_sure (h : Sound pool base k) (hc : k.curenv = some c) (va : Word) :
    Sure (onMem (doTlbRefill k.curPgdir va k.entryHiAsid)) k := by
  unfold Sure
  rw [wp_onMem]
  have hupper : uvpt ≤ va → va < ulim → pdx utop ≤ ptx va → True := fun _ _ _ => trivial
  exact wp_mono (doTlbRefill_spec (W := fun _ _ _ => True) h.vm.toMemInv (h.dirs hc)
    (fun _ _ _ => trivial) hupper) (fun _ _ _ => trivial) (fun _ _ herr => herr.sure)

theorem anyFault (pool : Finset Nat) : FaultGrants pool fun _ _ _ _ => True := fun _ _ _ _ _ => trivial

theorem kernelStore_sure (h : Sound pool base k) (hc : k.curenv = some c) (va : Word) (size : Nat)
    (f : Word → Word) : Sure (kernelStore va size f) k := by
  unfold kernelStore
  refine .check (panic_sure (by simp) (by simp)) fun _ => .get ?_
  refine .bind (wp_mono (wp_and (refill_faulted h hc (anyFault pool) va) (refill_sure h hc va))
    (fun _ _ h => h.1) (fun _ _ h => h.2)) fun _ k₁ h₁ => ?_
  have hc₁ := h₁.cur.trans hc
  refine .bind (Q := fun _ _ => True) ?_ fun r k₂ _ => ?_
  · rw [wp_onMem, ← h₁.pgdir]
    exact wp_mono (writable_spec h₁.sound.vm.toMemInv (h₁.sound.dirs hc₁)) (fun _ _ _ => trivial)
      (fun _ _ hbad => hbad.sure)
  · cases r with
    | none => exact (wp_throw _).mpr id
    | some p =>
      unfold Sure
      rw [wp_onMem, wp_modify]
      trivial

theorem storeFrame_sure (h : Sound pool base k) (hc : k.curenv = some c) (va : Word) (tf : Trapframe) :
    Sure (storeFrame va tf) k := by
  unfold Sure storeFrame
  have hloop := wp_forM (l := List.finRange 38)
    (f := fun i => kernelStore (va + BitVec.ofNat 32 (4 * i.val)) 4 fun _ => tf.word i)
    (I := Faulted pool base (fun _ _ _ _ => True) k) (E := fun err _ => ¬ err.Asserts) ?_ (s := k) (.refl h)
  · exact wp_mono hloop (fun _ _ _ => trivial) (fun _ _ h => h)
  · intro i _ k₁ h₁
    have hc₁ := h₁.cur.trans hc
    refine wp_mono (wp_and (kernelStore_faulted h₁.sound hc₁ (anyFault pool) _ _ _)
      (kernelStore_sure h₁.sound hc₁ _ _ _)) ?_ (fun _ _ herr => herr.2)
    exact fun _ _ h₂ => h₁.trans h₂.1

theorem doTlbMod_sure (h : Sound pool base k) (hc : k.curenv = some c) (tf : Trapframe) :
    Sure (doTlbMod tf) k := by
  unfold doTlbMod
  refine .bind (storeFrame_sure h hc _ tf) fun _ k₁ _ => .get (.lookup (.curenvPtr fun _ _ => .get ?_))
  exact .check (panic_sure (by simp) (by simp)) fun _ => .pure _

theorem readDev_sure (h : Sound pool base k) (hc : k.curenv = some c) (inp : Inputs)
    (va pa len : Word) : Sure (sysReadDev inp va pa len) k := by
  unfold sysReadDev
  refine .guard fun _ => .guard fun _ => .ite (fun _ => ?_) fun _ => .errno _
  exact .bind (kernelStore_sure h hc _ _ _) fun _ _ _ => .pure _

/-! ## Every call -/

theorem blockCurenv_quietly : Quietly blockCurenv := by
  unfold blockCurenv Mos.updEnv setKstackReg
  refine quietly_curenvPtr.bind fun c => (keeps_modify fun _ => trivial).bind fun _ => ?_
  exact (quietly_schedRemove c).bind fun _ => (keeps_modify fun _ => trivial).bind fun _ =>
    (quietly_schedule true).bind fun _ => keeps_pure _

theorem setEnvStatus_sure (envid status : Word) : Sure (sysSetEnvStatus envid status) k := by
  unfold sysSetEnvStatus
  cases toStatus status with
  | none => exact .errno _
  | some st =>
    refine .envid2env fun e he => ?_
    have set : Quietly (do
        updEnv e fun env => { env with envStatus := st }
        pure 0 : K Word) := (keeps_modify fun _ => trivial).bind fun _ => keeps_pure _
    refine .get (Keeps.sure (Keeps.ite (Keeps.ite ?_ ?_) set) k)
    · exact (keeps_modify fun _ => trivial).bind fun _ => set
    · exact (quietly_schedRemove e).bind fun _ => set

theorem call_sure (h : Sound pool base k)
    (hc : k.curenv = some c) (inp : Inputs) (s : Syscall) : Sure (s.run inp) k := by
  cases s with
  | putchar | cgetc | printJobs => exact .pure _
  | printCons s num => exact .guard fun _ => .pure _
  | getenvid => exact .get (.curenvPtr fun _ _ => .pure _)
  | yield => exact Keeps.sure ((quietly_schedule true).bind fun _ => keeps_pure _) k
  | envDestroy envid =>
    exact .envid2env fun e he => .bind (envDestroy_sure h (h.target_live he)) fun _ _ _ => .pure _
  | setTlbModEntry envid func => exact .envid2env fun e he => .updEnv (.pure _)
  | memAlloc envid va perm => exact memAlloc_sure h envid va perm
  | memMap srcid srcva dstid dstva perm => exact memMap_sure h srcid srcva dstid dstva perm
  | memUnmap envid va => exact memUnmap_sure h envid va
  | exofork => exact Keeps.sure quietly_exofork k
  | setEnvStatus envid status => exact setEnvStatus_sure envid status
  | setTrapframe envid tf =>
    refine .guard fun _ => .envid2env fun e he => .get (.ite (fun _ => ?_) fun _ => ?_)
    · exact Keeps.sure ((keeps_modify fun _ => trivial).bind fun _ => keeps_pure _) k
    · exact .updEnv (.pure _)
  | panic msg => exact (wp_throw _).mpr (panic_sure (by simp) (by simp))
  | ipcTrySend envid value srcva perm =>
    have hd : Delivers (Env.sent value perm) :=
      ⟨fun _ _ => rfl, fun _ _ => rfl, fun _ _ => rfl, fun _ _ => rfl⟩
    change Sure (send (fun env => env.envIpcRecving == 1) (Env.sent value perm) envid srcva perm) k
    exact send_sure h hd envid srcva perm
  | ipcRecv dstva =>
    refine .guard fun _ => .curenvPtr fun c hc => .updEnv (.updEnv ?_)
    exact Keeps.sure blockCurenv_quietly _
  | writeDev va pa len => exact .guard fun _ => .guard fun _ => .guard fun _ => .pure _
  | readDev va pa len => exact readDev_sure h hc inp va pa len
  | createJob envid cmd =>
    refine Keeps.sure (Keeps.bind (keeps_get.bind fun _ => Keeps.guard wild_sure ?_) fun _ =>
      keeps_pure _) k
    exact (keeps_modify fun _ => trivial).bind fun _ => keeps_modify fun _ => trivial
  | setJobDone envid => exact Keeps.sure ((keeps_envSetJobDone envid).bind fun _ => keeps_pure _) k
  | fgJob envid => exact Keeps.sure (keeps_envFgJob envid) k
  | killJob envid => exact .bind (killJob_sure h envid) fun _ _ _ => .pure _
  | sendReturnValue envid value srcva perm =>
    have hd : Delivers (Env.sentReturn value perm) :=
      ⟨fun _ _ => rfl, fun _ _ => rfl, fun _ _ => rfl, fun _ _ => rfl⟩
    change Sure (send (fun env => env.waitingReturnValue == 1) (Env.sentReturn value perm) envid srcva
      perm) k
    exact send_sure h hd envid srcva perm
  | recvReturnValue => exact .curenvPtr fun c hc => .updEnv (Keeps.sure blockCurenv_quietly _)

/-! ## Every step -/

theorem doSyscall_sure (h : Sound pool base k) (hc : k.curenv = some c) (inp : Inputs) :
    Sure (doSyscall inp) k := by
  unfold doSyscall
  refine .get ?_
  cases Syscall.ofFrame k.kstack inp with
  | none => exact (wp_setKstackReg _ _).mpr trivial
  | some s =>
    have hentered := (same_regs k k.status { k.kstack with cp0Epc := k.kstack.cp0Epc + 4 }).moved
      (W := fun _ _ _ _ => True) h
    unfold Sure
    simp only [wp_bind, wp_modify, wp_recover, wp_setKstackReg]
    refine wp_mono (call_sure hentered.sound hc inp s) (fun _ _ _ => trivial) fun err _ herr => ?_
    cases errnoValue err with
    | none => exact herr
    | some v => trivial

/-- The body of a step that `curenv` takes. -/
theorem body_sure (h : Sound pool base k) (op : Op) (hen : op.enabled k = true) : Sure op.body k := by
  by_cases hstart : op = .start
  · rw [hstart]
    exact Keeps.sure (quietly_schedule false) k
  obtain ⟨c, hc⟩ : ∃ c, k.curenv = some c := by
    refine Option.isSome_iff_exists.mp ?_
    cases op <;> simp_all [Op.enabled]
  have htrap : ∀ f, Sound pool base (k.trapped f) := fun f =>
    ((same_trapped k f).moved (W := fun _ _ _ _ => True) h).sound
  have enter : ∀ {f} {x : Unit → K Unit}, Sure (x ()) (k.trapped f) →
      Sure (enterKernel f >>= x) k := fun {f} _ hx =>
    .bind (Q := fun _ k₁ => k₁ = k.trapped f) ((wp_enterKernel f).mpr rfl) fun _ _ h => h ▸ hx
  have leave : Quietly leaveKernel := keeps_get.bind fun _ => keeps_modify fun _ => trivial
  cases op with
  | start => exact absurd rfl hstart
  | syscall f inp =>
    exact enter (.bind (doSyscall_sure (htrap f) hc inp) fun _ k₁ _ => Keeps.sure leave k₁)
  | timer f => exact enter (Keeps.sure (quietly_schedule false) _)
  | tlbRefill f va =>
    exact enter (.get (.bind (refill_sure (htrap _) hc va) fun _ k₁ _ => Keeps.sure leave k₁))
  | tlbMod f va inp =>
    refine enter (.get (.bind (doTlbMod_sure (htrap _) hc _) fun _ k₁ _ => ?_))
    exact Keeps.sure ((keeps_modify fun _ => trivial).bind fun _ => leave) k₁
  | store va w =>
    refine .get (.bind (Q := fun _ _ => True) ?_ fun r k₁ _ => ?_)
    · rw [wp_onMem]
      exact wp_mono (writable_spec h.vm.toMemInv (h.dirs hc)) (fun _ _ _ => trivial)
        (fun _ _ hbad => hbad.sure)
    · cases r with
      | none => exact (wp_throw _).mpr wild_sure
      | some p => exact Keeps.sure (quietly_onMem (keeps_modify fun _ => trivial)) k₁
  | tlbEvict i => exact Keeps.sure (quietly_onMem (keeps_modify fun _ => trivial)) k

theorem nestedTlbMod_sure (h : Sound pool base k) (hc : k.curenv = some c) (kregs : Trapframe) :
    Sure (nestedTlbMod kregs) k := by
  unfold nestedTlbMod
  refine .get (.bind (Q := fun _ _ => True) ?_ fun tf k₁ _ => ?_)
  · rw [wp_handle]
    refine wp_mono (doTlbMod_sure h hc _) (fun _ _ _ => trivial) fun err _ herr => ?_
    exact ⟨fun _ => (wp_throw _).mpr wild_sure, fun _ => herr⟩
  · exact Keeps.sure ((keeps_modify fun _ => trivial).bind fun _ => keeps_throw id) k₁

theorem run_sure (h : Sound pool base k) (op : Op) (hen : op.enabled k = true)
    (hmod : wp op.body (fun _ _ => True) (fun err k' => err = .tlbMod →
      Sound pool base k' ∧ k'.curenv ≠ none) k) : Sure op.run k := by
  unfold Op.run Sure
  rw [wp_handle]
  refine wp_mono (wp_and (body_sure h op hen) hmod) (fun _ _ _ => trivial) ?_
  rintro err k' ⟨hsure, hmod⟩
  refine ⟨fun herr => ?_, fun _ => hsure⟩
  obtain ⟨hsound, hcur⟩ := hmod (eq_of_beq herr)
  obtain ⟨c, hc⟩ := Option.ne_none_iff_exists'.mp hcur
  exact nestedTlbMod_sure hsound hc _

end Mos
