import Mos.Kern.Specs

/-!
# What a step does to the environments

All the ways in which a system call changes `envs`, `curenv` and
`env_free_list`; memory, the list of runnable environments and the registers are
left out.
-/

namespace Mos

open Lib

variable {k k₁ k' : Kernel} {e : EnvIx}

/-- The slot `e` is the child of `c`. -/
def Kernel.forked (k : Kernel) (c e : EnvIx) (pgdir asid : Nat) (id : Word) : Kernel :=
  { (k.setEnv e fun env =>
      (env.alloc pgdir asid id (k.envs c).envId).fork (k.envs c) k.kstack) with
    envFreeList := k.envFreeList.erase e }

/-- The environment `e` is in `env_free_list`. -/
def Kernel.released (k : Kernel) (e : EnvIx) : Kernel :=
  { (k.setEnv e fun env => { env with envStatus := .free }) with
    envFreeList := e :: k.envFreeList }

/-- What step 4 of `sys_ipc_try_send` makes of the target. -/
def Env.sent (value perm sender : Word) (env : Env) : Env :=
  { env with envIpcValue := value, envIpcFrom := sender, envIpcPerm := pteV ||| perm
             envIpcRecving := 0 }

/-- What step 4 of `sys_send_return_value` makes of the target. -/
def Env.sentReturn (value perm sender : Word) (env : Env) : Env :=
  { env with envIpcValue := value, envIpcFrom := sender, envIpcPerm := pteV ||| perm
             envIpcRecving := 0, waitingReturnValue := 0, returnValue := value }

/-- A send has delivered. `ok` says that it has not failed afterwards. -/
structure Delivered (k : Kernel) (envid srcva : Word) (waiting : Env → Bool)
    (deliver : Word → Env → Env) (ok : Bool) (c e : EnvIx) (k' : Kernel) : Prop
    extends Ready k waiting envid srcva c e where
  state : EnvsOnly (k.setEnv e fun env =>
    { deliver (k.envs c).envId env with envStatus := .runnable }) k'
  value : k'.kstack.regs 2 = 0 ↔ ok = true
  maps : srcva = 0 → ok = true

def Syscall.sends : Syscall → Bool
  | .ipcTrySend .. | .sendReturnValue .. => true
  | _ => false

/-- The environment in slot `c` waits in `sys_ipc_recv` or in `sys_recv_return_value`, and another
one runs. -/
structure Waits (k : Kernel) (c : EnvIx) (f : Env → Env) (k' : Kernel) : Prop where
  cur : k.curenv = some c
  switched : ∃ k₀ e, EnvsOnly (k.setEnv c fun env => { f env with envStatus := .notRunnable }) k₀ ∧
    Switched k₀ e k'

inductive Effect (k : Kernel) (inp : Inputs) : Syscall → Kernel → Prop
  | quiet {s k'} (noSend : s.sends = false) (same : EnvsOnly k k') : Effect k inp s k'
  | yield {k₀ e k'} (same : EnvsOnly k k₀) (switched : Switched k₀ e k') : Effect k inp .yield k'
  | setTlbModEntry {envid func e k'} (target : target k envid true = some e)
      (state : EnvsOnly (k.setEnv e fun env => { env with envUserTlbModEntry := func }) k') :
      Effect k inp (.setTlbModEntry envid func) k'
  | fork {c e pgdir asid id k'} (cur : k.curenv = some c) (head : k.envFreeList.head? = some e)
      (slot : envx id = e) (value : k'.kstack.regs 2 = id)
      (state : EnvsOnly (k.forked c e pgdir asid id) k') : Effect k inp .exofork k'
  | forkFails {e pgdir k'} (head : k.envFreeList.head? = some e)
      (state : EnvsOnly (k.setEnv e fun env =>
        { env with envPgdir := pgdir, envUserTlbModEntry := 0, envRuns := 0 }) k') :
      Effect k inp .exofork k'
  | setStatus {envid status st e k'} (known : toStatus status = some st)
      (target : target k envid true = some e)
      (state : EnvsOnly (k.setEnv e fun env => { env with envStatus := st }) k') :
      Effect k inp (.setEnvStatus envid status) k'
  | setFrame {envid tf e k'} (legal : isIllegalVaRange tf sizeofTrapframe = false)
      (target : target k envid true = some e) (other : k.curenv ≠ some e)
      (state : EnvsOnly (k.setEnv e fun env => { env with envTf := inp.tf }) k') :
      Effect k inp (.setTrapframe envid tf) k'
  | destroy {envid e k'} (target : target k envid true = some e) (other : k.curenv ≠ some e)
      (state : EnvsOnly (k.released e) k') : Effect k inp (.envDestroy envid) k'
  | destroySelf {envid e k₀ c k'} (target : target k envid true = some e)
      (cur : k.curenv = some e) (state : EnvsOnly { k.released e with curenv := none } k₀)
      (switched : Switched k₀ c k') : Effect k inp (.envDestroy envid) k'
  | kill {jobId i k'} (job : i < k.jobCnt) (id : (k.jobs i).jobId = jobId)
      (runnable : (k.envs (envx (k.jobs i).envid)).envStatus = .runnable)
      (other : k.curenv ≠ some (envx (k.jobs i).envid))
      (state : EnvsOnly (k.released (envx (k.jobs i).envid)) k') : Effect k inp (.killJob jobId) k'
  | killSelf {jobId i k₀ c k'} (job : i < k.jobCnt) (id : (k.jobs i).jobId = jobId)
      (runnable : (k.envs (envx (k.jobs i).envid)).envStatus = .runnable)
      (cur : k.curenv = some (envx (k.jobs i).envid))
      (state : EnvsOnly { k.released (envx (k.jobs i).envid) with curenv := none } k₀)
      (switched : Switched k₀ c k') : Effect k inp (.killJob jobId) k'
  | recv {dstva c k'} (legal : ¬ (dstva ≠ 0 ∧ isIllegalVa dstva = true))
      (waits : Waits k c (fun env => { env with envIpcRecving := 1, envIpcDstva := dstva }) k') :
      Effect k inp (.ipcRecv dstva) k'
  | recvReturn {c k'} (waits : Waits k c (fun env => { env with waitingReturnValue := 1 }) k') :
      Effect k inp .recvReturnValue k'
  | refused {envid value srcva perm k'} (same : EnvsOnly k k') (v0 : k'.kstack.regs 2 ≠ 0) :
      Effect k inp (.ipcTrySend envid value srcva perm) k'
  | refusedReturn {envid value srcva perm k'} (same : EnvsOnly k k') (v0 : k'.kstack.regs 2 ≠ 0)
      (why : ∀ c e, ¬ Ready k (fun env => env.waitingReturnValue == 1) envid srcva c e) :
      Effect k inp (.sendReturnValue envid value srcva perm) k'
  | send {envid value srcva perm ok c e k'}
      (sent : Delivered k envid srcva (fun env => env.envIpcRecving == 1) (Env.sent value perm)
        ok c e k') : Effect k inp (.ipcTrySend envid value srcva perm) k'
  | sendReturn {envid value srcva perm ok c e k'}
      (sent : Delivered k envid srcva (fun env => env.waitingReturnValue == 1)
        (Env.sentReturn value perm) ok c e k') :
      Effect k inp (.sendReturnValue envid value srcva perm) k'

/-! ## Boot -/

/-- What `env_create` makes of a slot. -/
def Env.create (env : Env) (pgdir asid : Nat) (id priority entry : Word) : Env :=
  { env.alloc pgdir asid id 0 with
    envPri := priority
    envStatus := .runnable
    envTf := { (env.alloc pgdir asid id 0).envTf with cp0Epc := entry } }

theorem envCreate_spec (k : Kernel) (image : Image) (priority : Word) :
    wp (envCreate image priority) (fun e k' => k.envFreeList.head? = some e ∧ ∃ pgdir asid id,
      envx id = e ∧ EnvsOnly { (k.setEnv e fun env => env.create pgdir asid id priority image.entry) with
        envFreeList := k.envFreeList.erase e } k') (fun _ _ => True) k := by
  unfold envCreate loadIcode
  rw [wp_bind, wp_mapStop]
  refine wp_mono (envAlloc_spec k 0) ?_ (fun _ _ _ => trivial)
  rintro e _ ⟨he, m, asids, pgdir, asid, rfl⟩
  simp only [wp_bind, wp_updEnv, wp_get]
  refine wp_onMem_any (fun _ m' => ?_) (fun _ _ => trivial)
  refine wp_mono (keeps_schedInsertHead (R := EnvsOnly) (F := Stays) e _) ?_ (fun _ _ _ => trivial)
  intro _ k' hk
  refine (wp_pure _).mpr ⟨he, pgdir, asid, envidOf (k.mkenvidCount + 1) e, envx_envidOf _ e,
    EnvsOnly.trans ?_ hk⟩
  refine ⟨?_, rfl, rfl⟩
  funext x
  rcases eq_or_ne x e with rfl | hx
  · simp [Env.create]
  · simp [hx]

/-! ## Every system call has its effect -/

variable {inp : Inputs} {s : Syscall}

theorem Ends.spec {Q : Word → Kernel → Prop} {E : Stop → Kernel → Prop} (h : Ends inp s k k')
    (hs : wp (s.run inp) Q E k) :
    (∃ v k₁, Q v k₁ ∧ k' = k₁.returned v) ∨
    (∃ err k₁, E (.errno err) k₁ ∧ k' = k₁.returned err.code) ∨
    E .resched k' ∨ ∃ k₁, E .tlbMod k₁ ∧ EnvsOnly k₁ k' := by
  cases h with
  | value v k₁ run eq => exact Or.inl ⟨v, k₁, (wp_run_ok hs run :), eq⟩
  | errno err k₁ run eq => exact Or.inr (Or.inl ⟨err, k₁, (wp_run_error hs run :), eq⟩)
  | resched run => exact Or.inr (Or.inr (Or.inl (wp_run_error hs run :)))
  | nested k₁ run handler =>
    exact Or.inr (Or.inr (Or.inr ⟨k₁, (wp_run_error hs run :), nested_envsOnly handler⟩))

theorem not_faults_resched : ¬ Faults .resched := by
  rintro ⟨f, h⟩
  cases h

theorem not_faults_tlbMod : ¬ Faults .tlbMod := by
  rintro ⟨f, h⟩
  cases h

theorem code_ne_zero (e : Errno) : e.code ≠ 0 := by cases e <;> decide

@[simp] theorem returned_v0 (k : Kernel) (v : Word) : (k.returned v).kstack.regs 2 = v := by
  unfold Kernel.returned
  simp

theorem effect_quiet (hs : s.sends = false) (hk : Keeps SameEnvs Stays (s.run inp))
    (h : Ends inp s k k') : Effect k inp s k' := by
  refine .quiet hs ?_
  rcases h.spec (hk k) with ⟨v, k₁, hsame, rfl⟩ | ⟨err, k₁, ⟨hsame, _⟩, rfl⟩ | hr | ⟨k₁, hsame, hn⟩
  · exact (EnvsOnly.of_same hsame).trans (returned_envsOnly k₁ v)
  · exact (EnvsOnly.of_same hsame).trans (returned_envsOnly k₁ _)
  · exact absurd rfl hr.2
  · exact (EnvsOnly.of_same hsame.1).trans hn

theorem effect_failed (k : Kernel) (hs : s.sends = false) (err : Errno) :
    Effect k inp s (k.returned err.code) := .quiet hs (returned_envsOnly k _)

theorem effect_yield (h : Ends inp .yield k k') : Effect k inp .yield k' := by
  have hw : wp (Syscall.run inp .yield) (fun _ _ => False) (Departs k) k := by
    unfold Syscall.run sysYield
    rw [wp_bind]
    exact wp_mono (schedule_spec k true) (fun _ _ h => h.elim) (fun _ _ h => h)
  rcases h.spec hw with ⟨_, _, hf, _⟩ | ⟨err, _, hd, _⟩ | hd | ⟨_, hd, _⟩
  · exact hf.elim
  · rcases hd with ⟨hr, _⟩ | hh
    · cases hr
    · exact hh.elim
  · rcases hd with ⟨_, e, hs⟩ | hh
    · exact .yield (.refl k) hs
    · exact hh.elim
  · rcases hd with ⟨hr, _⟩ | hh
    · cases hr
    · exact hh.elim

theorem effect_setTlbModEntry {envid func : Word} (h : Ends inp (.setTlbModEntry envid func) k k') :
    Effect k inp (.setTlbModEntry envid func) k' := by
  rcases h.spec (sysSetTlbModEntry_spec k envid func) with
    ⟨v, _, ⟨e, he, rfl⟩, rfl⟩ | ⟨err, _, ⟨_, rfl⟩, rfl⟩ | ⟨hf, _⟩ | ⟨_, ⟨hf, _⟩, _⟩
  · exact .setTlbModEntry he (returned_envsOnly _ v)
  · exact effect_failed _ rfl err
  · exact absurd hf not_faults_resched
  · exact absurd hf not_faults_tlbMod

theorem effect_exofork (h : Ends inp .exofork k k') : Effect k inp .exofork k' := by
  rcases h.spec (sysExofork_spec k) with
    ⟨v, _, ⟨c, e, m, asids, pgdir, asid, hc, he, hv, rfl⟩, rfl⟩ | ⟨err, _, ⟨_, m, hk⟩, rfl⟩ |
    ⟨hf, _⟩ | ⟨_, ⟨hf, _⟩, _⟩
  · exact .fork hc he (by rw [hv, envx_envidOf]) (returned_v0 _ v) ⟨rfl, rfl, rfl⟩
  · rcases hk with rfl | ⟨e, pgdir, he, rfl⟩
    · exact .quiet rfl ⟨rfl, rfl, rfl⟩
    · exact .forkFails he ⟨rfl, rfl, rfl⟩
  · exact absurd hf not_faults_resched
  · exact absurd hf not_faults_tlbMod

theorem effect_setEnvStatus {envid status : Word} (h : Ends inp (.setEnvStatus envid status) k k') :
    Effect k inp (.setEnvStatus envid status) k' := by
  rcases h.spec (sysSetEnvStatus_spec k envid status) with
    ⟨v, _, ⟨st, e, q, b, hst, he, rfl⟩, rfl⟩ | ⟨err, _, hk, rfl⟩ | hk | ⟨_, hk, _⟩
  · exact .setStatus hst he ⟨rfl, rfl, rfl⟩
  · rcases hk with ⟨_, rfl⟩ | hh
    · exact effect_failed _ rfl err
    · exact hh.elim
  · rcases hk with ⟨hf, _⟩ | hh
    · exact absurd hf not_faults_resched
    · exact hh.elim
  · rcases hk with ⟨hf, _⟩ | hh
    · exact absurd hf not_faults_tlbMod
    · exact hh.elim

theorem effect_setTrapframe {envid tf : Word} (h : Ends inp (.setTrapframe envid tf) k k') :
    Effect k inp (.setTrapframe envid tf) k' := by
  rcases h.spec (sysSetTrapframe_spec k envid tf inp.tf) with
    ⟨v, _, ⟨hlegal, e, he, ⟨_, _, rfl⟩ | ⟨hc, _, rfl⟩⟩, rfl⟩ | ⟨err, _, ⟨_, rfl⟩, rfl⟩ |
    ⟨hf, _⟩ | ⟨_, ⟨hf, _⟩, _⟩
  · exact .quiet rfl ⟨rfl, rfl, rfl⟩
  · exact .setFrame hlegal he hc (returned_envsOnly _ v)
  · exact effect_failed _ rfl err
  · exact absurd hf not_faults_resched
  · exact absurd hf not_faults_tlbMod

theorem freed_gone (k : Kernel) (e : EnvIx) (m : Mem) (asids : Nat → Bool) (q : TailQueue EnvIx)
    (b : Bool) : EnvsOnly { k.released e with curenv := none }
      { k.freed e m asids q b with curenv := none } := ⟨rfl, rfl, rfl⟩

theorem effect_envDestroy {envid : Word} (h : Ends inp (.envDestroy envid) k k') :
    Effect k inp (.envDestroy envid) k' := by
  have hw : wp (sysEnvDestroy envid)
      (fun _ k' => ∃ e m asids q b, target k envid true = some e ∧ k.curenv ≠ some e ∧
        k' = k.freed e m asids q b)
      (fun err k' => (Faults err ∧ k' = k) ∨ Halts err ∨ (err = .resched ∧ ∃ e m asids q b c,
        target k envid true = some e ∧ k.curenv = some e ∧
        Switched { k.freed e m asids q b with curenv := none } c k')) k := by
    unfold sysEnvDestroy
    rw [wp_bind]
    refine wp_envid2env (fun e he => ?_) ?_
    · rw [wp_bind]
      refine wp_mono (envDestroy_spec k e) ?_ ?_
      · rintro _ k' ⟨hc, m, asids, q, b, hk⟩
        exact (wp_pure _).mpr ⟨e, m, asids, q, b, he, hc, hk⟩
      · rintro err k' (⟨hr, hc, m, asids, q, b, c, hs⟩ | hh)
        · exact Or.inr (Or.inr ⟨hr, e, m, asids, q, b, c, he, hc, hs⟩)
        · exact Or.inr (Or.inl hh)
    · rintro err (rfl | rfl)
      · exact Or.inl ⟨faults_fault _, rfl⟩
      · exact Or.inl ⟨faults_fault _, rfl⟩
  rcases h.spec hw with
    ⟨v, _, ⟨e, m, asids, q, b, he, hc, rfl⟩, rfl⟩ | ⟨err, _, hk, rfl⟩ | hk | ⟨_, hk, _⟩
  · exact .destroy he hc ⟨rfl, rfl, rfl⟩
  · rcases hk with ⟨_, rfl⟩ | hh | ⟨hr, _⟩
    · exact effect_failed _ rfl err
    · exact hh.elim
    · cases hr
  · rcases hk with ⟨hf, _⟩ | hh | ⟨_, e, m, asids, q, b, c, he, hc, hs⟩
    · exact absurd hf not_faults_resched
    · exact hh.elim
    · exact .destroySelf he hc (freed_gone k e m asids q b) hs
  · rcases hk with ⟨hf, _⟩ | hh | ⟨hr, _⟩
    · exact absurd hf not_faults_tlbMod
    · exact hh.elim
    · cases hr

theorem effect_killJob {jobId : Word} (h : Ends inp (.killJob jobId) k k') :
    Effect k inp (.killJob jobId) k' := by
  have hw : wp (Syscall.run inp (.killJob jobId))
      (fun _ k' => k' = k ∨ ∃ i m asids q b jobs, k.curenv ≠ some (envx (k.jobs i).envid) ∧
        i < k.jobCnt ∧ (k.jobs i).jobId = jobId ∧
        (k.envs (envx (k.jobs i).envid)).envStatus = .runnable ∧
        k' = { k.freed (envx (k.jobs i).envid) m asids q b with jobs := jobs })
      (fun err k' => (err = .resched ∧ ∃ i m asids q b c,
        k.curenv = some (envx (k.jobs i).envid) ∧ i < k.jobCnt ∧ (k.jobs i).jobId = jobId ∧
        (k.envs (envx (k.jobs i).envid)).envStatus = .runnable ∧
        Switched { k.freed (envx (k.jobs i).envid) m asids q b with curenv := none } c k') ∨
        Halts err) k := by
    unfold Syscall.run
    rw [wp_bind]
    exact wp_mono (envKillJob_spec k jobId) (fun _ _ h => (wp_pure _).mpr h) (fun _ _ h => h)
  rcases h.spec hw with ⟨v, _, hk, rfl⟩ | ⟨err, _, hk, rfl⟩ | hk | ⟨_, hk, _⟩
  · rcases hk with rfl | ⟨i, m, asids, q, b, jobs, hc, hi, hid, hrun, rfl⟩
    · exact .quiet rfl ⟨rfl, rfl, rfl⟩
    · exact .kill hi hid hrun hc ⟨rfl, rfl, rfl⟩
  · rcases hk with ⟨hr, _⟩ | hh
    · cases hr
    · exact hh.elim
  · rcases hk with ⟨_, i, m, asids, q, b, c, hc, hi, hid, hrun, hs⟩ | hh
    · exact .killSelf hi hid hrun hc (freed_gone k _ m asids q b) hs
    · exact hh.elim
  · rcases hk with ⟨hr, _⟩ | hh
    · cases hr
    · exact hh.elim

theorem blocked_waits {c : EnvIx} {f : Env → Env} {q : TailQueue EnvIx} {b : Bool}
    (hc : k.curenv = some c) (hs : Switched (k.blocked c f q b) e k') : Waits k c f k' :=
  ⟨hc, k.blocked c f q b, e, ⟨rfl, rfl, rfl⟩, hs⟩

theorem effect_ipcRecv {dstva : Word} (h : Ends inp (.ipcRecv dstva) k k') :
    Effect k inp (.ipcRecv dstva) k' := by
  rcases h.spec (sysIpcRecv_spec k dstva) with
    ⟨_, _, hf, _⟩ | ⟨err, _, hk, rfl⟩ | hk | ⟨_, hk, _⟩
  · exact hf.elim
  · rcases hk with ⟨_, rfl⟩ | hh | ⟨hr, _⟩
    · exact effect_failed _ rfl err
    · exact hh.elim
    · cases hr
  · rcases hk with ⟨hf, _⟩ | hh | ⟨_, hlegal, c, q, b, e, hc, hs⟩
    · exact absurd hf not_faults_resched
    · exact hh.elim
    · exact .recv hlegal (blocked_waits hc hs)
  · rcases hk with ⟨hf, _⟩ | hh | ⟨hr, _⟩
    · exact absurd hf not_faults_tlbMod
    · exact hh.elim
    · cases hr

theorem effect_recvReturnValue (h : Ends inp .recvReturnValue k k') :
    Effect k inp .recvReturnValue k' := by
  rcases h.spec (sysRecvReturnValue_spec k) with ⟨_, _, hf, _⟩ | ⟨err, _, hk, rfl⟩ | hk | ⟨_, hk, _⟩
  · exact hf.elim
  · rcases hk with hh | ⟨hr, _⟩
    · exact hh.elim
    · cases hr
  · rcases hk with hh | ⟨_, c, q, b, e, hc, hs⟩
    · exact hh.elim
    · exact .recvReturn (blocked_waits hc hs)
  · rcases hk with hh | ⟨hr, _⟩
    · exact hh.elim
    · cases hr

/-- Either send delivers or fails before it changed anything. -/
theorem ends_send (waiting : Env → Bool) (deliver : Word → Env → Env) {envid srcva perm : Word}
    (hrun : s.run inp = send waiting deliver envid srcva perm) (h : Ends inp s k k') :
    (EnvsOnly k k' ∧ k'.kstack.regs 2 ≠ 0 ∧ ∀ c e, ¬ Ready k waiting envid srcva c e) ∨
      ∃ ok c e, Delivered k envid srcva waiting deliver ok c e k' := by
  have hw := send_spec k waiting deliver envid srcva perm
  rw [← hrun] at hw
  rcases h.spec hw with ⟨v, _, ⟨hv, c, e, m, q, b, hready, rfl⟩, rfl⟩ |
    ⟨err, _, ⟨_, ⟨rfl, hwhy⟩ | ⟨hsrc, c, e, m, q, b, hready, rfl⟩⟩, rfl⟩ | ⟨hf, _⟩ | ⟨_, ⟨hf, _⟩, _⟩
  · refine Or.inr ⟨true, c, e, hready, ⟨rfl, rfl, rfl⟩, ?_, fun _ => rfl⟩
    rw [returned_v0, hv]
    simp
  · refine Or.inl ⟨returned_envsOnly _ _, ?_, hwhy⟩
    rw [returned_v0]
    exact code_ne_zero err
  · refine Or.inr ⟨false, c, e, hready, ⟨rfl, rfl, rfl⟩, ?_, fun h0 => absurd h0 hsrc⟩
    rw [returned_v0]
    exact iff_of_false (code_ne_zero err) (by simp)
  · exact absurd hf not_faults_resched
  · exact absurd hf not_faults_tlbMod

/-- A system call does to the environments what its effect says. -/
theorem effect_of_ends (h : Ends inp s k k') : Effect k inp s k' := by
  cases s with
  | putchar | cgetc | printJobs => exact effect_quiet rfl (keeps_pure _) h
  | printCons s num => exact effect_quiet rfl (keeps_sysPrintCons s num) h
  | getenvid => exact effect_quiet rfl keeps_sysGetenvid h
  | yield => exact effect_yield h
  | envDestroy envid => exact effect_envDestroy h
  | setTlbModEntry envid func => exact effect_setTlbModEntry h
  | memAlloc envid va perm => exact effect_quiet rfl (keeps_sysMemAlloc envid va perm) h
  | memMap srcid srcva dstid dstva perm =>
    exact effect_quiet rfl (keeps_sysMemMap srcid srcva dstid dstva perm) h
  | memUnmap envid va => exact effect_quiet rfl (keeps_sysMemUnmap envid va) h
  | exofork => exact effect_exofork h
  | setEnvStatus envid status => exact effect_setEnvStatus h
  | setTrapframe envid tf => exact effect_setTrapframe h
  | panic msg => exact effect_quiet rfl (keeps_fault _) h
  | ipcTrySend envid value srcva perm =>
    rcases ends_send (fun env => env.envIpcRecving == 1) (Env.sent value perm) rfl h
      with ⟨hsame, hv, _⟩ | ⟨ok, c, e, hd⟩
    · exact .refused hsame hv
    · exact .send hd
  | ipcRecv dstva => exact effect_ipcRecv h
  | writeDev va pa len => exact effect_quiet rfl (keeps_sysWriteDev va pa len) h
  | readDev va pa len => exact effect_quiet rfl (keeps_sysReadDev inp va pa len) h
  | createJob envid cmd =>
    exact effect_quiet rfl ((keeps_envCreateJob envid inp.cmd).bind fun _ => keeps_pure _) h
  | setJobDone envid =>
    exact effect_quiet rfl ((keeps_envSetJobDone envid).bind fun _ => keeps_pure _) h
  | fgJob envid => exact effect_quiet rfl (keeps_envFgJob envid) h
  | killJob envid => exact effect_killJob h
  | sendReturnValue envid value srcva perm =>
    rcases ends_send (fun env => env.waitingReturnValue == 1) (Env.sentReturn value perm) rfl h
      with ⟨hsame, hv, hwhy⟩ | ⟨ok, c, e, hd⟩
    · exact .refusedReturn hsame hv hwhy
    · exact .sendReturn hd
  | recvReturnValue => exact effect_recvReturnValue h

end Mos
