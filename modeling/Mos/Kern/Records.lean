import Mos.Kern.Effects

/-!
# The counter of `mkenvid` and the job table

Only the creation of an environment draws an identifier, and only three system calls write the job
table.
-/

namespace Mos

open Lib

variable {k k₁ k₂ k' : Kernel} {e : EnvIx} {α β : Type}

/-- No identifier is drawn and no job is written. -/
structure SameRecords (k k' : Kernel) : Prop where
  ids : k'.mkenvidCount = k.mkenvidCount
  jobs : k'.jobs = k.jobs
  jobCnt : k'.jobCnt = k.jobCnt

namespace SameRecords

theorem refl (k : Kernel) : SameRecords k k := ⟨rfl, rfl, rfl⟩

theorem trans (h : SameRecords k k₁) (h' : SameRecords k₁ k₂) : SameRecords k k₂ where
  ids := h'.ids.trans h.ids
  jobs := h'.jobs.trans h.jobs
  jobCnt := h'.jobCnt.trans h.jobCnt

instance : FrameFree SameRecords where
  refl := refl
  trans _ _ _ := trans
  setMem _ _ := ⟨rfl, rfl, rfl⟩
  setRegs _ _ _ := ⟨rfl, rfl, rfl⟩

instance : SchedFree SameRecords where
  setList _ _ _ := ⟨rfl, rfl, rfl⟩
  setCount _ _ := ⟨rfl, rfl, rfl⟩
  setAsids _ _ := ⟨rfl, rfl, rfl⟩

end SameRecords

/-! ## Functions that leave the records alone -/

/-- However the function ends. -/
abbrev KeepsRecords (x : K α) : Prop := Keeps SameRecords (fun _ => True) x

theorem Keeps.records {F : Stop → Prop} {x : K α} (hx : Keeps SameRecords F x) : KeepsRecords x :=
  hx.mono (fun _ _ h => h) fun _ _ => trivial

theorem records_stop (err : Stop) : KeepsRecords (throw err : K α) := keeps_throw trivial

theorem records_updEnv (e : EnvIx) (f : Env → Env) : KeepsRecords (updEnv e f) :=
  keeps_modify fun _ => ⟨rfl, rfl, rfl⟩

theorem records_guard {c : Prop} [Decidable c] {err : Stop} {x : K α} (hx : KeepsRecords x) :
    KeepsRecords (do
      if c then throw err
      x) := hx.guard trivial

theorem records_curenvPtr : KeepsRecords curenvPtr := Keeps.records keeps_curenvPtr

theorem records_envid2env (envid : Word) (checkperm : Bool) : KeepsRecords (envid2env envid checkperm) :=
  Keeps.records (keeps_envid2env envid checkperm)

theorem records_onMem (x : M α) : KeepsRecords (onMem x) := Keeps.records (keeps_onMem x)

theorem records_schedRemove (e : EnvIx) : KeepsRecords (schedRemove e) :=
  Keeps.records (keeps_schedRemove e)

theorem records_envRun (e : EnvIx) : KeepsRecords (envRun e) := by
  unfold envRun envSave envEnter
  refine keeps_get.bind fun _ => records_guard (Keeps.bind ?_ fun _ => ?_)
  · refine keeps_get.bind fun k => ?_
    split
    · exact keeps_get.bind fun _ => records_updEnv _ _
    · exact keeps_pure _
  · refine (keeps_modify fun _ => ⟨rfl, rfl, rfl⟩).bind fun _ => (records_updEnv _ _).bind fun _ => ?_
    refine (keeps_modify fun _ => ⟨rfl, rfl, rfl⟩).bind fun _ => ?_
    refine (keeps_modify fun _ => ⟨rfl, rfl, rfl⟩).bind fun _ => keeps_get.bind fun _ => ?_
    exact (keeps_restoreAll _).bind fun _ => records_stop _

theorem records_schedule (yield : Bool) : KeepsRecords (schedule yield) := by
  unfold schedule
  have run : ∀ e, KeepsRecords (do
      modify fun k => { k with count := k.count - 1 }
      envRun e : K Unit) := fun e =>
    (keeps_modify fun _ => ⟨rfl, rfl, rfl⟩).bind fun _ => records_envRun e
  refine keeps_get.bind fun k => Keeps.ite ?_ ?_
  · exact (Keeps.records keeps_schedPick).bind run
  · exact records_curenvPtr.bind run

theorem records_envFree (e : EnvIx) : KeepsRecords (envFree e) := by
  unfold envFree
  refine keeps_get.bind fun k => (Keeps.records (keeps_envRelease _ _)).bind fun _ => ?_
  refine (records_updEnv _ _).bind fun _ => (keeps_modify fun _ => ⟨rfl, rfl, rfl⟩).bind fun _ => ?_
  exact records_schedRemove e

theorem records_envDestroy (e : EnvIx) : KeepsRecords (envDestroy e) := by
  unfold envDestroy
  refine (records_envFree e).bind fun _ => keeps_get.bind fun k => Keeps.ite ?_ (keeps_pure _)
  exact (keeps_modify fun _ => ⟨rfl, rfl, rfl⟩).bind fun _ => records_schedule true

theorem records_blockCurenv : KeepsRecords blockCurenv := by
  unfold blockCurenv
  refine records_curenvPtr.bind fun c => (records_updEnv _ _).bind fun _ => ?_
  refine (records_schedRemove c).bind fun _ => (keeps_setKstackReg _ _).bind fun _ => ?_
  exact (records_schedule true).bind fun _ => keeps_pure _

theorem records_send (waiting : Env → Bool) (deliver : Word → Env → Env) (envid srcva perm : Word) :
    KeepsRecords (send waiting deliver envid srcva perm) := by
  unfold send wakeAndMap
  refine records_guard ((records_envid2env envid false).bind fun e => keeps_get.bind fun _ => ?_)
  refine records_guard (records_curenvPtr.bind fun _ => keeps_get.bind fun _ => ?_)
  refine (records_updEnv _ _).bind fun _ => (records_updEnv _ _).bind fun _ => ?_
  refine (keeps_schedInsertTail e).bind fun _ => Keeps.ite ?_ (keeps_pure _)
  exact (Keeps.records (keeps_mapSent _ _ _)).bind fun _ => keeps_pure _

theorem records_sysSetEnvStatus (envid status : Word) : KeepsRecords (sysSetEnvStatus envid status) := by
  unfold sysSetEnvStatus
  split
  · exact records_stop _
  · rename_i st _
    have done : ∀ e, KeepsRecords (do
        updEnv e fun env => { env with envStatus := st }
        pure 0 : K Word) := fun e => (records_updEnv _ _).bind fun _ => keeps_pure _
    refine (records_envid2env envid true).bind fun e => keeps_get.bind fun _ => Keeps.ite ?_ (done e)
    refine Keeps.ite ?_ ?_
    · exact (keeps_schedInsertTail e).bind fun _ => done e
    · exact (records_schedRemove e).bind fun _ => done e

theorem records_sysSetTrapframe (envid tf : Word) (content : Trapframe) :
    KeepsRecords (sysSetTrapframe envid tf content) := by
  unfold sysSetTrapframe
  refine records_guard ((records_envid2env envid true).bind fun e => keeps_get.bind fun _ => ?_)
  refine Keeps.ite ?_ ?_
  · exact (keeps_modify fun _ => ⟨rfl, rfl, rfl⟩).bind fun _ => keeps_pure _
  · exact (records_updEnv _ _).bind fun _ => keeps_pure _

/-- The calls that write one of them. -/
def Syscall.writesRecords : Syscall → Bool
  | .exofork | .createJob .. | .setJobDone _ | .killJob _ => true
  | _ => false

theorem records_run (inp : Inputs) {s : Syscall} (hs : s.writesRecords = false) :
    KeepsRecords (s.run inp) := by
  cases s with
  | exofork | createJob | setJobDone | killJob => cases hs
  | putchar | cgetc | printJobs => exact keeps_pure _
  | printCons s num => exact Keeps.records (keeps_sysPrintCons s num)
  | getenvid => exact Keeps.records keeps_sysGetenvid
  | yield => exact (records_schedule true).bind fun _ => keeps_pure _
  | envDestroy envid =>
    exact (records_envid2env envid true).bind fun e => (records_envDestroy e).bind fun _ => keeps_pure _
  | setTlbModEntry envid func =>
    exact (records_envid2env envid true).bind fun e => (records_updEnv _ _).bind fun _ => keeps_pure _
  | memAlloc envid va perm => exact Keeps.records (keeps_sysMemAlloc envid va perm)
  | memMap srcid srcva dstid dstva perm =>
    exact Keeps.records (keeps_sysMemMap srcid srcva dstid dstva perm)
  | memUnmap envid va => exact Keeps.records (keeps_sysMemUnmap envid va)
  | setEnvStatus envid status => exact records_sysSetEnvStatus envid status
  | setTrapframe envid tf => exact records_sysSetTrapframe envid tf inp.tf
  | panic msg => exact records_stop _
  | ipcTrySend envid value srcva perm =>
    exact records_send (fun env => env.envIpcRecving == 1) (Env.sent value perm) envid srcva perm
  | ipcRecv dstva =>
    refine records_guard (records_curenvPtr.bind fun c => (records_updEnv _ _).bind fun _ => ?_)
    exact (records_updEnv _ _).bind fun _ => records_blockCurenv
  | writeDev va pa len => exact Keeps.records (keeps_sysWriteDev va pa len)
  | readDev va pa len => exact Keeps.records (keeps_sysReadDev inp va pa len)
  | fgJob envid => exact keeps_envFgJob envid
  | sendReturnValue envid value srcva perm =>
    exact records_send (fun env => env.waitingReturnValue == 1) (Env.sentReturn value perm) envid srcva
      perm
  | recvReturnValue =>
    exact records_curenvPtr.bind fun c => (records_updEnv _ _).bind fun _ => records_blockCurenv

/-! ## Identifiers alone -/

structure SameIds (k k' : Kernel) : Prop where
  ids : k'.mkenvidCount = k.mkenvidCount

instance : RegFree SameIds where
  refl _ := ⟨rfl⟩
  trans _ _ _ h h' := ⟨h'.ids.trans h.ids⟩
  setMem _ _ := ⟨rfl⟩
  setJobs _ _ _ := ⟨rfl⟩
  setRegs _ _ _ := ⟨rfl⟩

theorem SameRecords.sameIds (h : SameRecords k k') : SameIds k k' := ⟨h.ids⟩

theorem ids_envKillJob (jobId : Word) : Keeps SameIds (fun _ => True) (envKillJob jobId) := by
  unfold envKillJob
  refine (keeps_findJob _).bind fun j => ?_
  split
  · refine keeps_get.bind fun k => keeps_get.bind fun _ => Keeps.ite ?_ (keeps_pure _)
    refine Keeps.bind ?_ fun _ => keeps_updJob _ _
    exact (records_envDestroy _).mono (fun _ _ h => h.sameIds) fun _ h => h
  · exact keeps_pure _

theorem ids_run (inp : Inputs) {s : Syscall} (hs : s ≠ .exofork) :
    Keeps SameIds (fun _ => True) (s.run inp) := by
  cases hw : s.writesRecords with
  | false => exact (records_run inp hw).mono (fun _ _ h => h.sameIds) fun _ h => h
  | true =>
    cases s with
    | exofork => exact absurd rfl hs
    | createJob envid cmd =>
      refine Keeps.bind ?_ fun _ => keeps_pure _
      exact (keeps_envCreateJob envid inp.cmd).mono (fun _ _ h => h) fun _ _ => trivial
    | setJobDone envid => exact (keeps_envSetJobDone envid).bind fun _ => keeps_pure _
    | killJob jobId => exact (ids_envKillJob jobId).bind fun _ => keeps_pure _
    | _ => cases hw

theorem records_envInit (mc : Machine) : KeepsRecords (envInit mc) := by
  unfold envInit
  have onMem : ∀ {α : Type} (x : M α), KeepsRecords (onMem x) := fun x =>
    Keeps.records (keeps_onMem x)
  refine (onMem _).bind fun p => (onMem _).bind fun _ => (onMem _).bind fun base => ?_
  exact (keeps_modify fun _ => ⟨rfl, rfl, rfl⟩).bind fun _ => (onMem _).bind fun _ => onMem _

/-! ## Steps -/

theorem Ends.keeps {R : Kernel → Kernel → Prop} [FrameFree R] {F : Stop → Prop} {inp : Inputs}
    {s : Syscall} (hk : Keeps R F (s.run inp)) (h : Ends inp s k k') : R k k' := by
  have returned : ∀ k₁ v, R k k₁ → R k (k₁.returned v) := fun k₁ v h₁ =>
    IsTrans.trans _ _ _ h₁ (FrameFree.setRegs k₁ _ _)
  cases h with
  | value v k₁ run eq => exact eq ▸ returned k₁ v (wp_run_ok (hk k) run :)
  | errno err k₁ run eq => exact eq ▸ returned k₁ _ (wp_run_error (hk k) run).1
  | resched run => exact (wp_run_error (hk k) run).1
  | nested k₁ run handler =>
    exact IsTrans.trans _ _ _ (wp_run_error (hk k) run).1
      (wp_run_error (keeps_nestedTlbMod inp.kregs k₁) handler).1

/-- A step other than a system call. -/
theorem other_records {op : Op} (hop : ∀ f inp, op ≠ .syscall f inp) (h : next op k = some k') :
    SameRecords k k' := by
  have hbody : KeepsRecords op.body := by
    cases op with
    | start => exact records_schedule false
    | syscall f inp => exact absurd rfl (hop f inp)
    | timer f => exact (keeps_enterKernel f).bind fun _ => records_schedule false
    | tlbRefill f va =>
      exact (keeps_enterKernel _).bind fun _ => keeps_get.bind fun _ => (records_onMem _).bind fun _ =>
        keeps_leaveKernel
    | tlbMod f va inp =>
      refine (keeps_enterKernel _).bind fun _ => keeps_get.bind fun _ => ?_
      refine (Keeps.records (keeps_doTlbMod _)).bind fun _ => ?_
      exact (keeps_modify fun _ => ⟨rfl, rfl, rfl⟩).bind fun _ => keeps_leaveKernel
    | store va w =>
      refine keeps_get.bind fun _ => (records_onMem _).bind fun r => ?_
      rcases r with _ | pp
      · exact records_stop _
      · exact records_onMem _
    | tlbEvict i => exact records_onMem _
  rcases next_body h with hx | hx | ⟨k₁, hx, hnested⟩
  · exact (wp_run_ok (hbody k) hx :)
  · exact (wp_run_error (hbody k) hx).1
  · exact (wp_run_error (hbody k) hx).1.trans (wp_run_error (keeps_nestedTlbMod op.kregs k₁) hnested).1

end Mos
