import Mos.Kern.Specs

/-!
# Environments run in user mode

`env_alloc` starts an environment with a status word that makes `eret` resume it
in user mode with the timer enabled. `sys_set_trapframe` stores a frame of the
caller's choice, and an exception inside the kernel hands a kernel frame to a user
handler: without these two (`ModeSafe`) no step ever loses the bits.
-/

namespace Mos

open Lib

variable {k : Kernel} {p : Prop} {e : EnvIx}

/-! ## The status word -/

/-- The bits that `env_alloc` sets, and R0 and ERL, which it leaves clear. -/
def modeMask : Word := initStatus ||| statusR0 ||| statusErl

def ModeOk (st : Word) : Prop := st &&& modeMask = initStatus

instance (st : Word) : Decidable (ModeOk st) := inferInstanceAs (Decidable (_ = _))

/-- The status word after `RESTORE_ALL` and `eret`. -/
def Resumed (st : Word) : Prop := st &&& modeMask = initStatus &&& ~~~statusExl

theorem modeOk_initStatus : ModeOk initStatus := by
  unfold ModeOk
  decide

theorem and_eq_of_sub {st mask v m : Word} (h : st &&& mask = v) (hm : mask &&& m = m) :
    st &&& m = v &&& m := by
  rw [← h, BitVec.and_assoc, hm]

theorem resumed_eret {st : Word} (h : ModeOk st) : Resumed (eret st) := by
  have herl : st &&& statusErl = 0 := by
    rw [and_eq_of_sub h (by decide)]
    decide
  unfold Resumed eret
  rw [if_neg (not_not.mpr herl), BitVec.and_assoc, BitVec.and_comm (~~~statusExl),
    ← BitVec.and_assoc, h]

theorem userMode_of_resumed {st : Word} (h : Resumed st) : userMode st = true := by
  unfold userMode
  rw [and_eq_of_sub h (by decide)]
  decide

theorem interruptible_of_resumed {st : Word} (h : Resumed st) : interruptible st = true := by
  unfold interruptible
  rw [and_eq_of_sub h (by decide), and_eq_of_sub h (by decide)]
  decide

theorem modeOk_saved {st : Word} (h : Resumed st) : ModeOk (st ||| statusExl) := by
  have hor : (st ||| statusExl) &&& modeMask = (st &&& modeMask) ||| (statusExl &&& modeMask) := by
    ext i
    simp only [BitVec.getElem_and, BitVec.getElem_or, Bool.and_or_distrib_right]
  unfold ModeOk
  rw [hor, h]
  decide

/-! ## Inside the kernel -/

/-- Every frame that can be restored is good: those in `envs`, and after an exception (`p`) the one
below `KSTACKTOP`. -/
structure FramesOk (p : Prop) (k : Kernel) : Prop where
  frames : ∀ e, (k.envs e).envStatus ≠ .free ∨ k.curenv = some e →
    ModeOk (k.envs e).envTf.cp0Status
  kstack : p → ModeOk k.kstack.cp0Status

/-- The first `schedule` runs without an exception, and without an environment to save. -/
structure Trusted (p : Prop) (k : Kernel) : Prop extends FramesOk p k where
  cur : p ∨ k.curenv = none

/-- What holds when a function stops: if it has left for an environment, that one is resumed well. -/
def Leaves (p : Prop) (err : Stop) (k : Kernel) : Prop :=
  Halts err ∨ FramesOk p k ∧ (err = .resched → Resumed k.status)

/-- The frames stay good, and whoever leaves resumes an environment well. -/
def Mode {α : Type} (p : Prop) (x : K α) (k : Kernel) : Prop :=
  wp x (fun _ => Trusted p) (Leaves p) k

theorem FramesOk.trusted (h : FramesOk True k) : Trusted True k := ⟨h, Or.inl trivial⟩

theorem Trusted.of_same {k' : Kernel} (h : Trusted p k) (hs : SameEnvs k k') : Trusted p k' where
  frames e := by
    rw [hs.envs, hs.cur]
    exact h.frames e
  kstack := by
    rw [hs.kstack]
    exact h.kstack
  cur := by
    rw [hs.cur]
    exact h.cur

theorem Trusted.leaves {err : Stop} (h : Trusted p k) (herr : Stays err) : Leaves p err k :=
  Or.inr ⟨h.toFramesOk, fun hr => absurd hr herr⟩

theorem Trusted.keep {α : Type} {x : K α} (h : Trusted p k) (hx : Keeps SameEnvs Stays x) :
    Mode p x k :=
  wp_mono (hx k) (fun _ _ hs => h.of_same hs) (fun _ _ hs => (h.of_same hs.1).leaves hs.2)

theorem Mode.bind {α β : Type} {x : K α} {f : α → K β} (h : Mode p x k)
    (hf : ∀ a k', Trusted p k' → Mode p (f a) k') : Mode p (x >>= f) k := by
  unfold Mode at *
  rw [wp_bind]
  exact wp_mono h (fun a k' hk => hf a k' hk) (fun _ _ hk => hk)

theorem Trusted.setEnv {f : Env → Env} (h : Trusted p k)
    (hf : (f (k.envs e)).envStatus ≠ .free ∨ k.curenv = some e →
      ModeOk (f (k.envs e)).envTf.cp0Status) : Trusted p (k.setEnv e f) := by
  refine ⟨⟨fun x hx => ?_, h.kstack⟩, h.cur⟩
  rcases eq_or_ne x e with rfl | hxe
  · simp only [Kernel.setEnv_envs, Function.update_self] at hx ⊢
    exact hf hx
  · simp only [Kernel.setEnv_envs, Function.update_of_ne hxe] at hx ⊢
    exact h.frames x hx

theorem Trusted.updEnv {f : Env → Env} (h : Trusted p k) (e : EnvIx)
    (htf : (f (k.envs e)).envTf = (k.envs e).envTf)
    (hst : (f (k.envs e)).envStatus = (k.envs e).envStatus) : Trusted p (k.setEnv e f) := by
  refine h.setEnv fun hx => ?_
  rw [hst] at hx
  rw [htf]
  exact h.frames e hx

theorem Trusted.target {envid : Word} {checkperm : Bool} (h : Trusted p k)
    (he : target k envid checkperm = some e) : ModeOk (k.envs e).envTf.cp0Status := by
  rcases target_cases he with ⟨_, hc⟩ | ⟨_, _, hlive, _⟩
  · exact h.frames e (Or.inr hc)
  · exact h.frames e (Or.inl hlive)

/-! ## Scheduling, creation and destruction -/

theorem Trusted.switched {k' : Kernel} (h : Trusted p k) (hs : Switched k e k') :
    FramesOk p k' ∧ Resumed k'.status := by
  have hall : ∀ x, (k.envs x).envStatus ≠ .free ∨ k.curenv = some x →
      ModeOk (Env.switched k e x).envTf.cp0Status := by
    intro x hx
    unfold Env.switched
    dsimp only
    split
    case isTrue hc => exact h.kstack (h.cur.resolve_right (by simp [hc]))
    case isFalse => exact h.frames x hx
  have hlive : (k.envs e).envStatus ≠ .free := by simp [hs.runnable]
  refine ⟨⟨fun x hx => ?_, fun hp => ?_⟩, ?_⟩
  · rw [hs.envs] at hx ⊢
    rcases hx with hx | hx
    · exact hall x (Or.inl hx)
    · obtain rfl : e = x := Option.some.inj (hs.cur.symm.trans hx)
      exact hall e (Or.inl hlive)
  · rw [hs.kstack]
    exact h.kstack hp
  · rw [hs.status]
    exact resumed_eret (hall e (Or.inl hlive))

theorem Trusted.departs {err : Stop} {k' : Kernel} (h : Trusted p k) (hd : Departs k err k') :
    Leaves p err k' := by
  rcases hd with ⟨_, e, hs⟩ | herr
  · exact Or.inr ⟨(h.switched hs).1, fun _ => (h.switched hs).2⟩
  · exact Or.inl herr

theorem mode_schedule (h : Trusted p k) (yield : Bool) : Mode p (schedule yield) k :=
  wp_mono (schedule_spec k yield) (fun _ _ hk => hk.elim) (fun _ _ hk => h.departs hk)

theorem mode_envAlloc (h : Trusted p k) (parentId : Word) :
    wp (envAlloc parentId)
      (fun e k' => Trusted p k' ∧ ModeOk (k'.envs e).envTf.cp0Status) (Leaves p) k := by
  refine wp_mono (envAlloc_spec k parentId) ?_ ?_
  · rintro e _ ⟨_, m, asids, pgdir, asid, rfl⟩
    have hi := h.setEnv (e := e) (f := fun env => env.alloc pgdir asid
      (envidOf (k.mkenvidCount + 1) e) parentId) fun _ => modeOk_initStatus
    refine ⟨⟨⟨hi.frames, hi.kstack⟩, hi.cur⟩, ?_⟩
    simpa [Env.alloc] using modeOk_initStatus
  · rintro err _ ⟨herr, m, rfl | ⟨e, pgdir, _, rfl⟩⟩
    · exact (h.of_same (MemFree.setMem k m)).leaves herr.stays
    · refine Trusted.leaves (Trusted.updEnv (h.of_same (MemFree.setMem k m)) e ?_ ?_) herr.stays
      · rfl
      · rfl

theorem mode_envCreate (h : Trusted p k) (image : Image) (priority : Word) :
    wp (envCreate image priority) (fun _ => Trusted p) (fun _ _ => True) k := by
  unfold envCreate loadIcode
  rw [wp_bind, wp_mapStop]
  refine wp_mono (mode_envAlloc h 0) (fun e k₁ hk => ?_) (fun _ _ _ => trivial)
  obtain ⟨h₁, hok⟩ := hk
  have h₂ := h₁.setEnv (e := e) (f := fun env => { env with envPri := priority }) fun _ => hok
  have h₃ := h₂.setEnv (e := e) (f := fun env => { env with envStatus := .runnable })
    fun _ => by simpa using hok
  simp only [wp_bind, wp_updEnv, wp_get]
  refine wp_mono (h₃.keep (keeps_onMem _)) (fun _ k₄ h₄ => ?_) (fun _ _ _ => trivial)
  have h₅ := h₄.setEnv (e := e)
    (f := fun env => { env with envTf := { env.envTf with cp0Epc := image.entry } }) (h₄.frames e)
  refine wp_mono (h₅.keep (keeps_schedInsertHead e)) (fun _ k₆ h₆ => ?_) (fun _ _ _ => trivial)
  exact (wp_pure _).mpr h₆

theorem Trusted.freed (h : Trusted p k) (e : EnvIx) (m : Mem) (asids : Nat → Bool)
    (q : TailQueue EnvIx) (b : Bool) : Trusted p (k.freed e m asids q b) := by
  have hi := h.setEnv (e := e) (f := fun env => { env with envStatus := .free }) fun hx =>
    h.frames e (hx.imp_left fun hne => absurd rfl hne)
  exact ⟨⟨hi.frames, hi.kstack⟩, hi.cur⟩

theorem mode_destroyed {err : Stop} {k' : Kernel} {c : EnvIx} {m : Mem} {asids : Nat → Bool}
    {q : TailQueue EnvIx} {b : Bool} (h : Trusted p k)
    (hs : Switched { k.freed e m asids q b with curenv := none } c k') : Leaves p err k' := by
  have hf := h.freed e m asids q b
  have hnone : Trusted p { k.freed e m asids q b with curenv := none } := by
    refine ⟨⟨fun x hx => hf.frames x (hx.imp_right ?_), hf.kstack⟩, Or.inr rfl⟩
    rintro ⟨⟩
  exact Or.inr ⟨(hnone.switched hs).1, fun _ => (hnone.switched hs).2⟩

theorem mode_envDestroy (h : Trusted p k) (e : EnvIx) : Mode p (envDestroy e) k := by
  refine wp_mono (envDestroy_spec k e) ?_ ?_
  · rintro _ _ ⟨_, m, asids, q, b, rfl⟩
    exact h.freed e m asids q b
  · rintro err k' (⟨_, _, m, asids, q, b, c, hs⟩ | herr)
    · exact mode_destroyed h hs
    · exact Or.inl herr

/-! ## System calls -/

theorem mode_setKstackReg (h : Trusted p k) (r : Fin 32) (v : Word) :
    Mode p (setKstackReg r v) k := (wp_setKstackReg r v).mpr ⟨⟨h.frames, h.kstack⟩, h.cur⟩

theorem mode_sysEnvDestroy (h : Trusted p k) (envid : Word) : Mode p (sysEnvDestroy envid) k :=
  (h.keep (keeps_envid2env envid true)).bind fun e _ h₁ => (mode_envDestroy h₁ e).bind
    fun _ _ h₂ => h₂.keep (keeps_pure _)

theorem mode_sysSetTlbModEntry (h : Trusted p k) (envid func : Word) :
    Mode p (sysSetTlbModEntry envid func) k := by
  refine wp_mono (sysSetTlbModEntry_spec k envid func) ?_ ?_
  · rintro _ _ ⟨e, _, rfl⟩
    exact h.updEnv e rfl rfl
  · rintro err _ ⟨herr, rfl⟩
    exact h.leaves herr.stays

theorem mode_envKillJob (h : Trusted p k) (jobId : Word) : Mode p (envKillJob jobId) k := by
  refine wp_mono (envKillJob_spec k jobId) ?_ ?_
  · rintro _ _ (rfl | ⟨i, m, asids, q, b, jobs, _, _, _, _, rfl⟩)
    · exact h
    · have hf := h.freed (envx (k.jobs i).envid) m asids q b
      exact ⟨⟨hf.frames, hf.kstack⟩, hf.cur⟩
  · rintro err k' (⟨_, i, m, asids, q, b, c, _, _, _, _, hs⟩ | herr)
    · exact mode_destroyed h hs
    · exact Or.inl herr

theorem mode_sysExofork (h : Trusted True k) : Mode True sysExofork k := by
  refine wp_mono (sysExofork_spec k) ?_ ?_
  · rintro v _ ⟨c, e, m, asids, pgdir, asid, _, _, _, rfl⟩
    have hi := h.setEnv (e := e) (f := fun env =>
      (env.alloc pgdir asid v (k.envs c).envId).fork (k.envs c) k.kstack) fun _ => h.kstack trivial
    exact ⟨⟨hi.frames, hi.kstack⟩, hi.cur⟩
  · rintro err _ ⟨herr, m, rfl | ⟨e, pgdir, _, rfl⟩⟩
    · exact (h.of_same (MemFree.setMem k m)).leaves herr.stays
    · exact ((h.of_same (MemFree.setMem k m)).updEnv e rfl rfl).leaves herr.stays

theorem mode_sysSetEnvStatus (h : Trusted p k) (envid status : Word) :
    Mode p (sysSetEnvStatus envid status) k := by
  refine wp_mono (sysSetEnvStatus_spec k envid status) ?_ ?_
  · rintro _ _ ⟨st, e, q, b, _, he, rfl⟩
    exact (h.of_same (LinkFree.setList k q b)).setEnv fun _ => h.target he
  · rintro err _ (⟨herr, rfl⟩ | herr)
    · exact h.leaves herr.stays
    · exact Or.inl herr

theorem mode_sysSetTrapframe (h : Trusted True k) {envid tf : Word} {content : Trapframe}
    (hsafe : isIllegalVaRange tf sizeofTrapframe = false → (target k envid true).isSome = true →
      ModeOk content.cp0Status) : Mode True (sysSetTrapframe envid tf content) k := by
  refine wp_mono (sysSetTrapframe_spec k envid tf content) ?_ ?_
  · rintro v _ ⟨hlegal, e, he, ⟨_, _, rfl⟩ | ⟨_, _, rfl⟩⟩
    · have hok := hsafe hlegal (by simp [he])
      exact FramesOk.trusted ⟨h.frames, fun _ => hok⟩
    · exact h.setEnv fun _ => hsafe hlegal (by simp [he])
  · rintro err _ ⟨herr, rfl⟩
    exact h.leaves herr.stays

theorem mode_blocked {err : Stop} {k' : Kernel} {c : EnvIx} {f : Env → Env} {q : TailQueue EnvIx}
    {b : Bool} (h : Trusted True k) (hf : ∀ env, (f env).envTf = env.envTf)
    (hc : k.curenv = some c) (hs : Switched (k.blocked c f q b) e k') : Leaves True err k' := by
  have hset : Trusted True (k.blocked c f q b) := by
    have hi := (h.of_same (LinkFree.setList k q b)).setEnv (e := c)
      (f := fun env => { f env with envStatus := .notRunnable }) fun _ => by
        rw [hf]
        exact h.frames c (Or.inr hc)
    exact FramesOk.trusted ⟨hi.frames, fun _ => h.kstack trivial⟩
  exact Or.inr ⟨(hset.switched hs).1, fun _ => (hset.switched hs).2⟩

theorem mode_sysIpcRecv (h : Trusted True k) (dstva : Word) : Mode True (sysIpcRecv dstva) k := by
  refine wp_mono (sysIpcRecv_spec k dstva) (fun _ _ hk => hk.elim) ?_
  rintro err k' (⟨herr, rfl⟩ | herr | ⟨_, _, c, q, b, e, hc, hs⟩)
  · exact h.leaves herr.stays
  · exact Or.inl herr
  · refine mode_blocked h ?_ hc hs
    intro env
    rfl

theorem mode_sysRecvReturnValue (h : Trusted True k) : Mode True sysRecvReturnValue k := by
  refine wp_mono (sysRecvReturnValue_spec k) (fun _ _ hk => hk.elim) ?_
  rintro err k' (herr | ⟨_, c, q, b, e, hc, hs⟩)
  · exact Or.inl herr
  · refine mode_blocked h ?_ hc hs
    intro env
    rfl

/-- The target of a send is found by `envid2env`: it may wake up. -/
theorem mode_send (h : Trusted p k) {waiting : Env → Bool} {deliver : Word → Env → Env}
    (hdeliver : ∀ sender env, (deliver sender env).envTf = env.envTf) (envid srcva perm : Word) :
    Mode p (send waiting deliver envid srcva perm) k := by
  have hwoken : ∀ e c m q b, target k envid false = some e →
      Trusted p (k.woken e (deliver (k.envs c).envId) m q b) := by
    intro e c m q b he
    have hi := (h.of_same (LinkFree.setList k q b)).setEnv (e := e)
      (f := fun env => { deliver (k.envs c).envId env with envStatus := .runnable }) fun _ => by
        rw [hdeliver]
        exact h.target he
    exact hi.of_same (MemFree.setMem _ m)
  refine wp_mono (send_spec k waiting deliver envid srcva perm) ?_ ?_
  · rintro v _ ⟨_, c, e, m, q, b, hready, rfl⟩
    exact hwoken e c m q b hready.target
  · rintro err _ ⟨herr, ⟨rfl, _⟩ | ⟨_, c, e, m, q, b, hready, rfl⟩⟩
    · exact h.leaves herr.stays
    · exact (hwoken e c m q b hready.target).leaves herr.stays

/-! ## Steps -/

/-- A frame that `sys_set_trapframe` accepts has the bits. -/
def FrameSafe (k : Kernel) (inp : Inputs) : Syscall → Prop
  | .setTrapframe envid tf => isIllegalVaRange tf sizeofTrapframe = false →
      (target k envid true).isSome = true → ModeOk inp.tf.cp0Status
  | _ => True

/-- And no store of the kernel itself, in `sys_read_dev` or for the frame that `do_tlb_mod` pushes,
meets a page that is mapped read-only. -/
structure ModeSafe (k : Kernel) (op : Op) : Prop where
  frame : ∀ f inp s, op = .syscall f inp → Syscall.ofFrame f inp = some s → FrameSafe k inp s
  stores : ∀ k', op.body k ≠ .error .tlbMod k'

theorem mode_run (h : Trusted True k) (inp : Inputs) (s : Syscall) (hsafe : FrameSafe k inp s) :
    Mode True (s.run inp) k := by
  cases s with
  | putchar | cgetc | printJobs => exact h.keep (keeps_pure _)
  | printCons s num => exact h.keep (keeps_sysPrintCons s num)
  | getenvid => exact h.keep keeps_sysGetenvid
  | yield => exact (mode_schedule h true).bind fun _ _ hk => hk.keep (keeps_pure _)
  | envDestroy envid => exact mode_sysEnvDestroy h envid
  | setTlbModEntry envid func => exact mode_sysSetTlbModEntry h envid func
  | memAlloc envid va perm => exact h.keep (keeps_sysMemAlloc envid va perm)
  | memMap srcid srcva dstid dstva perm => exact h.keep (keeps_sysMemMap srcid srcva dstid dstva perm)
  | memUnmap envid va => exact h.keep (keeps_sysMemUnmap envid va)
  | exofork => exact mode_sysExofork h
  | setEnvStatus envid status => exact mode_sysSetEnvStatus h envid status
  | setTrapframe envid tf => exact mode_sysSetTrapframe h hsafe
  | panic msg => exact h.keep (keeps_fault _)
  | ipcTrySend envid value srcva perm =>
    unfold Syscall.run sysIpcTrySend
    refine mode_send h (fun sender env => ?_) envid srcva perm
    rfl
  | ipcRecv dstva => exact mode_sysIpcRecv h dstva
  | writeDev va pa len => exact h.keep (keeps_sysWriteDev va pa len)
  | readDev va pa len => exact h.keep (keeps_sysReadDev inp va pa len)
  | createJob envid cmd => exact h.keep ((keeps_envCreateJob envid inp.cmd).bind fun _ => keeps_pure _)
  | setJobDone envid => exact h.keep ((keeps_envSetJobDone envid).bind fun _ => keeps_pure _)
  | fgJob envid => exact h.keep (keeps_envFgJob envid)
  | killJob envid => exact (mode_envKillJob h envid).bind fun _ _ hk => hk.keep (keeps_pure _)
  | sendReturnValue envid value srcva perm =>
    unfold Syscall.run sysSendReturnValue
    refine mode_send h (fun sender env => ?_) envid srcva perm
    rfl
  | recvReturnValue => exact mode_sysRecvReturnValue h

theorem FrameSafe.congr {k' : Kernel} {inp : Inputs} {s : Syscall} (henvs : k'.envs = k.envs)
    (hcur : k'.curenv = k.curenv) (h : FrameSafe k inp s) : FrameSafe k' inp s := by
  cases s with
  | setTrapframe envid tf =>
    intro hlegal
    rw [target_congr henvs hcur]
    exact h hlegal
  | _ => trivial

theorem mode_doSyscall (h : Trusted True k) (inp : Inputs)
    (hsafe : ∀ s, Syscall.ofFrame k.kstack inp = some s → FrameSafe k inp s) :
    Mode True (doSyscall inp) k := by
  unfold Mode doSyscall
  rw [wp_bind, wp_get]
  split
  case h_1 => exact mode_setKstackReg h _ _
  case h_2 s hs =>
    simp only [wp_bind, wp_modify, wp_recover]
    have hi : Trusted True { k with kstack := { k.kstack with cp0Epc := k.kstack.cp0Epc + 4 } } :=
      ⟨⟨h.frames, h.kstack⟩, h.cur⟩
    refine wp_mono (mode_run hi inp s ((hsafe s hs).congr rfl rfl)) (fun r k' hk => ?_)
      (fun err k' hk => ?_)
    · exact mode_setKstackReg hk _ _
    · cases hv : errnoValue err with
      | none => exact hk
      | some r =>
        rcases hk with herr | hk
        · simp [errnoValue_halts herr] at hv
        · exact mode_setKstackReg hk.1.trusted _ _

theorem doTlbMod_spec (k : Kernel) (tf : Trapframe) : wp (doTlbMod tf)
    (fun tf' k' => tf'.cp0Status = tf.cp0Status ∧ SameEnvs k k')
    (fun err k' => SameEnvs k k' ∧ Stays err) k := by
  have hstore : ∀ sp, Keeps SameEnvs Stays (storeFrame sp tf) := fun sp =>
    Keeps.forM fun i _ => keeps_kernelStore _ _ _
  unfold doTlbMod
  simp only [wp_bind, wp_get]
  refine wp_mono (hstore _ k) (fun _ k₁ h₁ => ?_) (fun _ _ h => h)
  refine wp_onMem_any (fun _ m => ?_) (fun err m => ?_)
  · have hm := h₁.trans (MemFree.setMem k₁ m)
    refine wp_curenvPtr (fun c _ => ?_) (fun _ => ⟨hm, stays_fault _⟩)
    simp only [wp_bind, wp_ite, wp_throw, wp_pure]
    exact ⟨fun _ => ⟨hm, stays_fault _⟩, fun _ => ⟨rfl, hm⟩⟩
  · exact ⟨h₁.trans (MemFree.setMem k₁ m), stays_fault err⟩

/-- Between two steps: the frames are good, and `curenv` runs in user mode with interrupts on. -/
structure ModeInv (k : Kernel) : Prop where
  frames : ∀ e, (k.envs e).envStatus ≠ .free ∨ k.curenv = some e →
    ModeOk (k.envs e).envTf.cp0Status
  resumed : ∀ c, k.curenv = some c → Resumed k.status

/-- The step is an exception: there is a frame below `KSTACKTOP`. -/
def Op.traps : Op → Prop
  | .start | .store .. | .tlbEvict _ => False
  | _ => True

/-- What a step leaves: the invariant, and a good frame. -/
def ModeDone (op : Op) (k : Kernel) : Prop := ModeInv k ∧ (op.traps → ModeOk k.kstack.cp0Status)

theorem ModeInv.of_same {k' : Kernel} (h : ModeInv k) (hs : SameEnvs k k') : ModeInv k' where
  frames e := by
    rw [hs.envs, hs.cur]
    exact h.frames e
  resumed c := by
    rw [hs.cur, hs.status]
    exact h.resumed c

theorem ModeInv.enter {f : Trapframe} (h : ModeInv k) (hcur : k.curenv.isSome = true) :
    Trusted True (k.trapped f) := by
  obtain ⟨c, hc⟩ := Option.isSome_iff_exists.mp hcur
  exact FramesOk.trusted ⟨h.frames, fun _ => modeOk_saved (h.resumed c hc)⟩

theorem Leaves.done {op : Op} {err : Stop} (h : Leaves True err k) (herr : err = .resched) :
    ModeDone op k := by
  rcases h with hh | ⟨hf, hr⟩
  · exact absurd herr hh.stays
  · exact ⟨⟨hf.frames, fun _ _ => hr herr⟩, fun _ => hf.kstack trivial⟩

theorem mode_leaveKernel {op : Op} {E : Stop → Kernel → Prop} (h : Trusted True k) :
    wp leaveKernel (fun _ => ModeDone op) E k := by
  unfold leaveKernel
  rw [wp_bind, wp_get, wp_restoreAll]
  exact ⟨⟨h.frames, fun _ _ => resumed_eret (h.kstack trivial)⟩, fun _ => h.kstack trivial⟩

theorem mode_body (h : ModeInv k) {op : Op} (hen : op.enabled k = true)
    (hsafe : ∀ f inp s, op = .syscall f inp → Syscall.ofFrame f inp = some s → FrameSafe k inp s) :
    wp op.body (fun _ => ModeDone op) (fun err k' => err = .resched → ModeDone op k') k := by
  cases op with
  | start =>
    have hnone : k.curenv = none := Option.isNone_iff_eq_none.mp hen
    have ht : Trusted False k := ⟨⟨h.frames, False.elim⟩, Or.inr hnone⟩
    refine wp_mono (schedule_spec k false) (fun _ _ hk => hk.elim) ?_
    rintro err k' hd rfl
    rcases ht.departs hd with hh | ⟨hf, hr⟩
    · exact absurd rfl hh.stays
    · exact ⟨⟨hf.frames, fun _ _ => hr rfl⟩, False.elim⟩
  | syscall f inp =>
    have hcur := (Bool.and_eq_true_iff.mp hen).1
    unfold Op.body
    simp only [wp_bind, wp_enterKernel]
    refine wp_mono (mode_doSyscall (h.enter hcur) inp fun s hs => ?_)
      (fun _ _ hk => mode_leaveKernel hk) (fun _ _ hk => hk.done)
    exact (hsafe f inp s rfl hs).congr rfl rfl
  | timer f =>
    have hcur := (Bool.and_eq_true_iff.mp (Bool.and_eq_true_iff.mp hen).1).1
    unfold Op.body
    rw [wp_bind, wp_enterKernel]
    exact wp_mono (schedule_spec _ false) (fun _ _ hk => hk.elim)
      (fun _ _ hk => ((h.enter hcur).departs hk).done)
  | tlbRefill f va =>
    have hcur := (Bool.and_eq_true_iff.mp hen).1
    have ht := h.enter (f := { f with cp0Badvaddr := va }) hcur
    unfold Op.body
    simp only [wp_bind, wp_enterKernel, wp_get]
    exact wp_onMem_any (fun _ m => mode_leaveKernel (ht.of_same (MemFree.setMem _ m)))
      (fun err m hr => absurd hr (stays_fault err))
  | tlbMod f va inp =>
    have hcur := (Bool.and_eq_true_iff.mp hen).1
    have ht := h.enter (f := { f with cp0Badvaddr := va }) hcur
    unfold Op.body
    simp only [wp_bind, wp_enterKernel, wp_get]
    refine wp_mono (doTlbMod_spec _ _) ?_ (fun err k' hk hr => absurd hr hk.2)
    rintro tf k' ⟨htf, hs⟩
    rw [wp_modify]
    have ht' := ht.of_same hs
    refine mode_leaveKernel (FramesOk.trusted ⟨ht'.frames, fun _ => ?_⟩)
    rw [htf]
    exact ht.kstack trivial
  | store va w =>
    have hk : Keeps SameEnvs Stays (Op.body (.store va w)) := by
      refine keeps_get.bind fun _ => (keeps_onMem _).bind fun r => ?_
      rcases r with _ | pp
      · exact keeps_fault _
      · exact keeps_onMem _
    exact wp_mono (hk k) (fun _ _ hs => ⟨h.of_same hs, False.elim⟩)
      (fun _ _ hs hr => absurd hr hs.2)
  | tlbEvict i =>
    exact wp_mono (keeps_onMem (R := SameEnvs) _ k) (fun _ _ hs => ⟨h.of_same hs, False.elim⟩)
      (fun _ _ hs hr => absurd hr hs.2)

/-- A safe step does not run the handler of an exception in the kernel. -/
theorem mode_next {op : Op} {k' : Kernel} (h : ModeInv k) (hsafe : ModeSafe k op)
    (hs : next op k = some k') : ModeDone op k' := by
  obtain ⟨hen, _, hrun⟩ := next_cases hs
  have hbody := mode_body h hen hsafe.frame
  unfold Op.run handle at hrun
  cases hx : op.body k with
  | ok a k₁ =>
    rw [hx] at hrun
    rcases hrun with hrun | hrun
    · cases hrun
      have hdone := wp_run_ok hbody hx
      exact hdone
    · cases hrun
  | error err k₁ =>
    have hne : (err == Stop.tlbMod) = false := by
      have := hsafe.stores k₁
      rw [hx] at this
      simp_all
    rw [hx] at hrun
    simp only [hne, Bool.false_eq_true, if_false] at hrun
    rcases hrun with hrun | hrun
    · cases hrun
    · cases hrun
      exact wp_run_error hbody hx rfl

/-! ## Runs -/

theorem mode_boot {mc : Machine} {programs : List (Image × Word)}
    (hb : boot mc programs = some k) : ModeInv k := by
  have hinit : Trusted False mc.initial := by
    refine ⟨⟨fun e he => ?_, False.elim⟩, Or.inr rfl⟩
    rcases he with he | he
    · exact absurd rfl he
    · cases he
  have ht : Trusted False k := by
    refine boot_rule ?_ (fun k image priority hk => mode_envCreate hk image priority) hb
    exact wp_mono (hinit.keep (sameEnvs_envInit mc)) (fun _ _ h => h) (fun _ _ _ => trivial)
  refine ⟨ht.frames, fun c hc => ?_⟩
  exact absurd (ht.cur.resolve_left id) (by simp [hc])

theorem mode_inv (h : mos.Run ModeSafe k) : ModeInv k := by
  refine h.invariant ?_ ?_
  · rintro k ⟨mc, programs, hb⟩
    exact mode_boot hb
  · intro k op k' hi hsafe hs
    exact (mode_next hi hsafe hs).1

/-- What the privilege of the kernel rests on: every frame that can be restored gives user mode with
interrupts on, and so does the status word that `curenv` runs with and the one that its next
exception saves. -/
structure Unprivileged (k : Kernel) : Prop where
  frames : ∀ e, (k.envs e).envStatus ≠ .free → ModeOk (k.envs e).envTf.cp0Status
  running : ∀ c, k.curenv = some c → userMode k.status = true ∧ interruptible k.status = true ∧
    ModeOk (k.status ||| statusExl)
  restored : ∀ st, ModeOk st → userMode (eret st) = true ∧ interruptible (eret st) = true

/-- In a run without forged frames and without exceptions in the kernel, every state is good, and
every exception leaves the kernel with a good frame below `KSTACKTOP`. -/
theorem user_mode_kept (h : mos.Run ModeSafe k) : Unprivileged k ∧
    ∀ op k', ModeSafe k op → next op k = some k' → op.traps → ModeOk k'.kstack.cp0Status := by
  have hi := mode_inv h
  refine ⟨⟨fun e he => hi.frames e (Or.inl he), fun c hc => ?_, fun st hst => ?_⟩, ?_⟩
  · have hr := hi.resumed c hc
    exact ⟨userMode_of_resumed hr, interruptible_of_resumed hr, modeOk_saved hr⟩
  · have hr := resumed_eret hst
    exact ⟨userMode_of_resumed hr, interruptible_of_resumed hr⟩
  · intro op k' hsafe hs
    exact (mode_next hi hsafe hs).2

/-- `sys_set_trapframe(0, tf)`: a program replaces its own frame by one with the status `st`. -/
def replaceFrame (st : Word) : Op :=
  .syscall (((Trapframe.zero.setReg 4 11).setReg 5 0).setReg 6 utext)
    { Inputs.none with tf := { Trapframe.zero with cp0Status := st } }

/-- The program can be resumed after it, and no store of the frame has failed. -/
def replaces (st : Word) (k : Kernel) : Bool :=
  (next (replaceFrame st) k).isSome &&
    match (replaceFrame st).body k with
    | .error .tlbMod _ => false
    | _ => true

theorem modeSafe_start (k : Kernel) : ModeSafe k .start where
  frame _ _ _ h := by cases h
  stores k' hk := by
    have hd := wp_run_error (schedule_spec k false) hk
    rcases hd with ⟨hr, _⟩ | hh
    · cases hr
    · exact hh

theorem user_mode_kept_replaced : ∃ k, smallRun [.start, replaceFrame initStatus] = some k ∧
    Unprivileged k ∧
    ∀ op k', ModeSafe k op → next op k = some k' → op.traps → ModeOk k'.kstack.cp0Status := by
  have hrun : (smallRun [.start]).any (replaces initStatus) = true := by decide +kernel
  obtain ⟨k₁, hk₁, hnext⟩ := (Option.any_eq_true _ _).mp hrun
  obtain ⟨hsome, hstores⟩ := Bool.and_eq_true_iff.mp hnext
  obtain ⟨k₂, hk₂⟩ := Option.isSome_iff_exists.mp hsome
  obtain ⟨k₀, h₀, hexec⟩ := Option.bind_eq_some_iff.mp hk₁
  obtain ⟨k₁', h₁, hrest⟩ := Option.bind_eq_some_iff.mp hexec
  obtain rfl := Option.some.inj hrest
  have hsafe : ModeSafe k₁' (replaceFrame initStatus) := by
    refine ⟨?_, fun k' hk' => ?_⟩
    · rintro f inp s hop hs
      cases hop
      obtain rfl := Option.some.inj hs
      exact fun _ _ => modeOk_initStatus
    · rw [hk'] at hstores
      cases hstores
  refine ⟨k₂, ?_, user_mode_kept (.step (.step (.init ⟨_, _, h₀⟩) (modeSafe_start k₀) h₁) hsafe hk₂)⟩
  refine Option.bind_eq_some_iff.mpr ⟨k₀, h₀, Option.bind_eq_some_iff.mpr ⟨k₁', h₁, ?_⟩⟩
  exact Option.bind_eq_some_iff.mpr ⟨k₂, hk₂, rfl⟩

/-- With a frame of zeros the program goes on in kernel mode and without interrupts. -/
theorem user_mode_lost : ∃ k, mos.Reachable k ∧ k.curenv.isSome = true ∧ ¬ Unprivileged k ∧
    ¬ ModeOk k.kstack.cp0Status ∧ userMode k.status = false ∧ interruptible k.status = false := by
  have hrun : ((smallRun [.start, replaceFrame 0]).any fun k => k.curenv.isSome &&
      !decide (ModeOk k.kstack.cp0Status) && !userMode k.status && !interruptible k.status) =
      true := by decide +kernel
  obtain ⟨k, hk, hbad⟩ := (Option.any_eq_true _ _).mp hrun
  simp only [Bool.and_eq_true, Bool.not_eq_true', decide_eq_false_iff_not] at hbad
  obtain ⟨⟨⟨hcur, hok⟩, huser⟩, hint⟩ := hbad
  refine ⟨k, smallRun_reachable hk, hcur, fun h => ?_, hok, huser, hint⟩
  obtain ⟨c, hc⟩ := Option.isSome_iff_exists.mp hcur
  have hmode := (h.running c hc).1
  rw [huser] at hmode
  cases hmode

end Mos
