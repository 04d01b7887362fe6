import Mos.Sched
import Mos.Kern.Slots
import Mos.Lib.RoundRobin

/-!
# Time slices (`schedule`)

The variable `count` is shared by all environments. It belongs to `curenv`: no
system call touches it but through `schedule`, and `schedule` leaves it at the
rest of the slice of the environment it enters.
-/

namespace Mos

open Lib

variable {k k₁ k' : Kernel} {l : List EnvIx} {c e : EnvIx}

/-- `env_sched_list` is `l` and holds exactly the runnable environments. -/
def Runnable (k : Kernel) (l : List EnvIx) : Prop :=
  k.envSchedList.Repr l ∧ ∀ e, e ∈ l ↔ (k.envs e).envStatus = .runnable

/-- `env_pri`. The parameter of `env_create` is an `int`. -/
def Kernel.pri (k : Kernel) (e : EnvIx) : Int := (k.envs e).envPri.toInt

/-! ## The counter belongs to `curenv` -/

/-- Nobody has got another priority or another slice. -/
structure SameTurn (k k' : Kernel) : Prop where
  cur : k'.curenv = k.curenv
  count : k'.count = k.count
  pri : ∀ e, k'.pri e = k.pri e

namespace SameTurn

theorem trans (h : SameTurn k k₁) (h' : SameTurn k₁ k') : SameTurn k k' where
  cur := h'.cur.trans h.cur
  count := h'.count.trans h.count
  pri e := (h'.pri e).trans (h.pri e)

instance : RegFree SameTurn where
  refl _ := ⟨rfl, rfl, fun _ => rfl⟩
  trans _ _ _ := trans
  setMem _ _ := ⟨rfl, rfl, fun _ => rfl⟩
  setJobs _ _ _ := ⟨rfl, rfl, fun _ => rfl⟩
  setRegs _ _ _ := ⟨rfl, rfl, fun _ => rfl⟩

instance : LinkFree SameTurn where
  setList _ _ _ := ⟨rfl, rfl, fun _ => rfl⟩

variable {F : Stop → Prop}

theorem updEnv (e : EnvIx) {f : Env → Env} (hf : ∀ env, (f env).envPri = env.envPri) :
    Keeps SameTurn F (updEnv e f) := by
  refine fun k => (wp_updEnv e f).mpr ⟨rfl, rfl, fun x => ?_⟩
  unfold Kernel.pri
  rcases eq_or_ne x e with rfl | hx
  · simp [hf]
  · simp [hx]

end SameTurn

theorem turn_schedRemove (e : EnvIx) : Keeps SameTurn Stays (schedRemove e) :=
  (keeps_schedRemove e).mono (fun _ _ h => h) fun _ => Halts.stays

theorem turn_envFree (e : EnvIx) : Keeps SameTurn Stays (envFree e) := by
  unfold envFree envRelease
  refine keeps_get.bind fun k => Keeps.bind ?_ fun _ => (SameTurn.updEnv e (by intro; rfl)).bind
    fun _ => Keeps.bind ?_ fun _ => turn_schedRemove e
  · refine (keeps_onMem _).bind fun _ => Keeps.bind ?_ fun _ => keeps_onMem _
    exact keeps_modify fun _ => ⟨rfl, rfl, fun _ => rfl⟩
  · exact keeps_modify fun _ => ⟨rfl, rfl, fun _ => rfl⟩

/-- The slice is what it was, or that of an environment which `schedule` has entered: a new one,
or the old one less a tick. -/
structure Sliced (k k' : Kernel) : Prop where
  pri : ∀ e, k'.pri e = k.pri e
  slice : (k'.curenv = k.curenv ∧ k'.count = k.count) ∨ ∃ e, k'.curenv = some e ∧
    (k'.count = k.pri e - 1 ∨ (k.curenv = some e ∧ k.count ≠ 0 ∧ k'.count = k.count - 1))

namespace Sliced

theorem of_same (h : SameTurn k k') : Sliced k k' := ⟨h.pri, Or.inl ⟨h.cur, h.count⟩⟩

theorem after (h : SameTurn k k₁) (h' : Sliced k₁ k') : Sliced k k' where
  pri e := (h'.pri e).trans (h.pri e)
  slice := by
    have hs := h'.slice
    simp only [h.cur, h.count, h.pri] at hs
    exact hs

theorem before (h : Sliced k k₁) (h' : SameTurn k₁ k') : Sliced k k' where
  pri e := (h'.pri e).trans (h.pri e)
  slice := by
    rw [h'.cur, h'.count]
    exact h.slice

theorem idle (hk : k₁ = { k with curenv := none }) (h : Sliced k₁ k')
    (hcur : k'.curenv ≠ none) : Sliced k k' := by
  subst hk
  refine ⟨h.pri, ?_⟩
  rcases h.slice with ⟨hc, _⟩ | ⟨e, he, hnew | ⟨hc, _⟩⟩
  · exact absurd hc hcur
  · exact Or.inr ⟨e, he, Or.inl hnew⟩
  · cases hc

end Sliced

/-- Unless it halts the machine, `x` leaves the slice alone or schedules. -/
def Slices {α : Type} (x : K α) (k : Kernel) : Prop :=
  wp x (fun _ => Sliced k) (fun err k' => Halts err ∨ Sliced k k') k

theorem slices_of_keeps {α : Type} {x : K α} (hx : Keeps SameTurn Stays x) : Slices x k :=
  wp_mono (hx k) (fun _ _ => .of_same) (fun _ _ h => Or.inr (.of_same h.1))

theorem slices_after {α β : Type} {x : K β} {f : β → K α} (hx : Keeps SameTurn Stays x)
    (hf : ∀ b k₁, Slices (f b) k₁) : Slices (x >>= f) k := by
  unfold Slices
  rw [wp_bind]
  refine wp_mono (hx k) (fun b k₁ h₁ => ?_) (fun _ _ h => Or.inr (.of_same h.1))
  exact wp_mono (hf b k₁) (fun _ _ => .after h₁) (fun _ _ h => h.imp_right (.after h₁))

theorem slices_before {α β : Type} {x : K β} {f : β → K α} (hx : Slices x k)
    (hf : ∀ b, Keeps SameTurn Stays (f b)) : Slices (x >>= f) k := by
  unfold Slices
  rw [wp_bind]
  refine wp_mono hx (fun b k₁ h₁ => ?_) (fun _ _ h => h)
  exact wp_mono (hf b k₁) (fun _ _ => h₁.before) (fun _ _ h => Or.inr (h₁.before h.1))

/-! ## Scheduling -/

/-- The list, the slice and what the environments say about themselves are as they were. -/
structure SameQueue (k k' : Kernel) : Prop where
  queue : k'.envSchedList = k.envSchedList
  count : k'.count = k.count
  status : ∀ e, (k'.envs e).envStatus = (k.envs e).envStatus
  pri : ∀ e, k'.pri e = k.pri e

namespace SameQueue

theorem trans (h : SameQueue k k₁) (h' : SameQueue k₁ k') : SameQueue k k' where
  queue := h'.queue.trans h.queue
  count := h'.count.trans h.count
  status e := (h'.status e).trans (h.status e)
  pri e := (h'.pri e).trans (h.pri e)

theorem setEnv (k : Kernel) (e : EnvIx) {f : Env → Env}
    (hst : ∀ env, (f env).envStatus = env.envStatus) (hpri : ∀ env, (f env).envPri = env.envPri) :
    SameQueue k (k.setEnv e f) := by
  refine ⟨rfl, rfl, fun x => ?_, fun x => ?_⟩
  · rcases eq_or_ne x e with rfl | hx
    · simp [hst]
    · simp [hx]
  · unfold Kernel.pri
    rcases eq_or_ne x e with rfl | hx
    · simp [hpri]
    · simp [hx]

end SameQueue

/-- `env_run` enters an environment that is runnable. -/
theorem envRun_enters (k : Kernel) (e : EnvIx) : wp (envRun e) (fun _ _ => False)
    (fun err k' => if (k.envs e).envStatus = .runnable then
      err = .resched ∧ k'.curenv = some e ∧ SameQueue k k' else Halts err) k := by
  have enter : ∀ k₁, SameQueue k k₁ → wp (envEnter e) (fun _ _ => False)
      (fun err k' => err = .resched ∧ k'.curenv = some e ∧ SameQueue k k') k₁ := by
    intro k₁ h₁
    refine wp_mono (envEnter_spec k₁ e) (fun _ _ h => h) ?_
    rintro err _ ⟨herr, rfl⟩
    have hs : SameQueue k₁ (k₁.setEnv e fun env => { env with envRuns := env.envRuns + 1 }) :=
      .setEnv k₁ e (fun _ => rfl) fun _ => rfl
    exact ⟨herr, rfl, h₁.trans ⟨hs.queue, hs.count, hs.status, hs.pri⟩⟩
  unfold envRun
  simp only [wp_bind, wp_get, wp_ite, wp_throw]
  refine ⟨fun hrun => ?_, fun hrun => ?_⟩
  · rw [if_neg hrun]
    trivial
  · simp only [if_pos (not_not.mp hrun)]
    unfold envSave
    rw [wp_bind, wp_get]
    cases k.curenv with
    | none => exact (wp_pure _).mpr (enter k ⟨rfl, rfl, fun _ => rfl, fun _ => rfl⟩)
    | some c =>
      simp only [wp_bind, wp_get, wp_updEnv]
      exact enter _ (.setEnv k c (fun _ => rfl) fun _ => rfl)

theorem run_sliced (k k₁ : Kernel) (h : SameTurn k { k₁ with count := k.count })
    (he : k₁.count = k.pri e ∨ (k.curenv = some e ∧ k.count ≠ 0 ∧ k₁.count = k.count)) :
    wp (do
      modify fun k => { k with count := k.count - 1 }
      envRun e : K Unit) (fun _ _ => False)
      (fun err k' => Halts err ∨ (Sliced k k' ∧ k'.curenv ≠ none)) k₁ := by
  rw [wp_bind, wp_modify]
  refine wp_mono (envRun_enters _ e) (fun _ _ h => h) (fun err k' hk => ?_)
  dsimp only at hk
  split_ifs at hk
  · obtain ⟨_, hcur, hs⟩ := hk
    refine Or.inr ⟨⟨fun x => (hs.pri x).trans (h.pri x), Or.inr ⟨e, hcur, ?_⟩⟩, by simp [hcur]⟩
    have hcount : k'.count = k₁.count - 1 := hs.count
    rw [hcount]
    exact he.imp (fun h => by rw [h]) fun ⟨hc, hne, h⟩ => ⟨hc, hne, by rw [h]⟩
  · exact Or.inl hk

theorem slices_schedule (k : Kernel) (yield : Bool) : wp (schedule yield) (fun _ _ => False)
    (fun err k' => Halts err ∨ (Sliced k k' ∧ k'.curenv ≠ none)) k := by
  unfold schedule schedPick schedFirst
  simp only [wp_bind, wp_get, wp_ite]
  refine ⟨fun _ => ?_, fun hrun => ?_⟩
  · refine wp_mono (keeps_schedRotate (R := SameTurn) k) (fun _ k₁ h₁ => ?_)
      (fun _ _ h => Or.inl h.2)
    split
    · exact (wp_throw _).mpr (Or.inl trivial)
    case h_2 e _ =>
      simp only [wp_bind, wp_modify, wp_pure]
      have hpri : k₁.pri e = k.pri e := h₁.pri e
      simpa using run_sliced k { k₁ with count := (k₁.envs e).envPri.toInt }
        ⟨h₁.cur, rfl, h₁.pri⟩ (Or.inl hpri)
  · refine wp_curenvPtr (fun c hc => ?_) (fun _ => Or.inl trivial)
    simp only [Bool.or_eq_true, beq_iff_eq, not_or] at hrun
    simpa using run_sliced k k ⟨rfl, rfl, fun _ => rfl⟩
      (Or.inr ⟨hc, hrun.1.2, rfl⟩)

/-! ## Every step -/

theorem slices_depart (k : Kernel) (yield : Bool) : Slices (schedule yield) k :=
  wp_mono (slices_schedule k yield) (fun _ _ h => h.elim) (fun _ _ h => h.imp_right And.left)

theorem slices_envDestroy (k : Kernel) (e : EnvIx) : Slices (envDestroy e) k := by
  unfold envDestroy
  refine slices_after (turn_envFree e) fun _ k₁ => ?_
  unfold Slices
  simp only [wp_bind, wp_get, wp_ite, wp_pure, wp_modify]
  refine ⟨fun _ => ?_, fun _ => .of_same (Std.Refl.refl k₁)⟩
  refine wp_mono (slices_schedule _ true) (fun _ _ h => h.elim) (fun _ _ h => h.imp_right ?_)
  exact fun h => h.1.idle rfl h.2

theorem slices_envKillJob (k : Kernel) (jobId : Word) : Slices (envKillJob jobId) k := by
  unfold envKillJob
  refine slices_after (keeps_findJob _) fun j k => ?_
  split
  · refine slices_after keeps_get fun k₁ k => ?_
    refine slices_after keeps_get fun k₁ k => ?_
    unfold Slices
    rw [wp_ite]
    refine ⟨fun _ => ?_, fun _ => (wp_pure _).mpr (.of_same (Std.Refl.refl k))⟩
    exact slices_before (slices_envDestroy k _) fun _ => keeps_updJob _ _
  · exact slices_of_keeps (keeps_pure _)

theorem slices_blockCurenv (k : Kernel) : Slices blockCurenv k := by
  unfold blockCurenv
  refine slices_after keeps_curenvPtr fun c _ => ?_
  refine slices_after (SameTurn.updEnv c (by intro; rfl)) fun _ _ => ?_
  refine slices_after (turn_schedRemove c) fun _ _ => ?_
  refine slices_after (keeps_setKstackReg _ _) fun _ _ => ?_
  exact slices_before (slices_depart _ true) fun _ => keeps_pure _

theorem turn_asidAlloc : Keeps SameTurn Stays asidAlloc := by
  unfold asidAlloc
  refine keeps_get.bind fun k => ?_
  dsimp only
  split
  · exact (keeps_modify fun _ => ⟨rfl, rfl, fun _ => rfl⟩).bind fun _ => keeps_pure _
  · exact keeps_fault _

theorem turn_envSetup (e : EnvIx) (parentId : Word) : Keeps SameTurn Stays (envSetup e parentId) := by
  unfold envSetup envSetupVm mkenvid
  refine Keeps.bind ?_ fun _ => (SameTurn.updEnv e (by intro; rfl)).bind fun _ =>
    turn_asidAlloc.bind fun _ => (SameTurn.updEnv e (by intro; rfl)).bind fun _ =>
    Keeps.bind ?_ fun _ => (SameTurn.updEnv e (by intro; rfl)).bind fun _ =>
    SameTurn.updEnv e (by intro; rfl)
  · exact (keeps_onMem _).bind fun _ => (keeps_onMem _).bind fun _ =>
      (keeps_onMem _).bind fun _ => (SameTurn.updEnv e (by intro; rfl)).bind fun _ =>
      keeps_get.bind fun _ => keeps_onMem _
  · exact (keeps_modify fun _ => ⟨rfl, rfl, fun _ => rfl⟩).bind fun _ =>
      keeps_get.bind fun _ => keeps_pure _

theorem turn_send (waiting : Env → Bool) {deliver : Word → Env → Env}
    (hdeliver : ∀ sender env, (deliver sender env).envPri = env.envPri) (envid srcva perm : Word) :
    Keeps SameTurn Stays (send waiting deliver envid srcva perm) := by
  unfold send wakeAndMap
  refine keeps_guard ((keeps_envid2env envid false).bind fun e => keeps_get.bind fun _ =>
    keeps_guard (keeps_curenvPtr.bind fun c => keeps_get.bind fun _ =>
    (SameTurn.updEnv e (hdeliver _)).bind fun _ => (SameTurn.updEnv e (by intro; rfl)).bind fun _ =>
    (keeps_schedInsertTail e).bind fun _ => Keeps.ite ?_ (keeps_pure _)))
  exact (keeps_mapSent e srcva perm).bind fun _ => keeps_pure _

theorem turn_sysSetEnvStatus (envid status : Word) :
    Keeps SameTurn Stays (sysSetEnvStatus envid status) := by
  unfold sysSetEnvStatus
  split
  · exact keeps_fault _
  case h_2 st _ =>
    refine (keeps_envid2env envid true).bind fun e => keeps_get.bind fun _ => ?_
    have hset : Keeps SameTurn Stays (do
        updEnv e fun env => { env with envStatus := st }
        pure 0 : K Word) := (SameTurn.updEnv e (by intro; rfl)).bind fun _ => keeps_pure _
    refine Keeps.ite (Keeps.ite ?_ ?_) hset
    · exact (keeps_schedInsertTail e).bind fun _ => hset
    · exact (turn_schedRemove e).bind fun _ => hset

/-- `sys_exofork` gives the child, whose slot was free, the priority of `curenv`. -/
structure Turned (k k' : Kernel) : Prop where
  pri : ∀ e, (k.envs e).envStatus ≠ .free → k'.pri e = k.pri e
  slice : (k'.curenv = k.curenv ∧ k'.count = k.count) ∨ ∃ e, k'.curenv = some e ∧
    (k'.count = k'.pri e - 1 ∨ (k.curenv = some e ∧ k.count ≠ 0 ∧ k'.count = k.count - 1))

theorem Sliced.turned (h : Sliced k k') : Turned k k' where
  pri e _ := h.pri e
  slice := by
    simp only [h.pri]
    exact h.slice

theorem Turned.before (h : Turned k k₁) (h' : SameTurn k₁ k') : Turned k k' where
  pri e he := (h'.pri e).trans (h.pri e he)
  slice := by
    simp only [h'.cur, h'.count, h'.pri]
    exact h.slice

theorem turned_sysExofork (h : SlotInv k) : wp sysExofork (fun _ => Turned k)
    (fun err k' => Halts err ∨ Turned k k') k := by
  unfold sysExofork
  rw [wp_bind]
  refine wp_curenvPtr (fun c _ => ?_) (fun _ => Or.inl trivial)
  simp only [wp_bind, wp_get]
  unfold envAlloc
  rw [wp_bind, wp_get]
  cases hf : k.envFreeList with
  | nil => exact (wp_throw _).mpr (Or.inr (Sliced.of_same (Std.Refl.refl k)).turned)
  | cons e rest =>
    have hfree : (k.envs e).envStatus = .free := h.free_status e (by simp [hf])
    rw [wp_bind]
    refine wp_mono (turn_envSetup e _ k) (fun _ k₁ h₁ => ?_)
      (fun _ _ h => Or.inr (Sliced.of_same h.1).turned)
    simp only [wp_bind, wp_modify, wp_pure, wp_updEnv]
    refine ⟨fun x hx => ?_, Or.inl ⟨h₁.cur, h₁.count⟩⟩
    have hxe : x ≠ e := by
      rintro rfl
      exact hx hfree
    have hsame := h₁.pri x
    unfold Kernel.pri at hsame ⊢
    simp [hxe, hsame]

theorem turned_run (h : SlotInv k) (inp : Inputs) (s : Syscall) : wp (s.run inp) (fun _ => Turned k)
    (fun err k' => Halts err ∨ Turned k k') k := by
  have quiet : Keeps SameTurn Stays (s.run inp) → wp (s.run inp) (fun _ => Turned k)
      (fun err k' => Halts err ∨ Turned k k') k := fun hx =>
    wp_mono (hx k) (fun _ _ hs => (Sliced.of_same hs).turned)
      (fun _ _ hs => Or.inr (Sliced.of_same hs.1).turned)
  have depart : Slices (s.run inp) k → wp (s.run inp) (fun _ => Turned k)
      (fun err k' => Halts err ∨ Turned k k') k := fun hx =>
    wp_mono hx (fun _ _ => Sliced.turned) (fun _ _ hs => hs.imp_right Sliced.turned)
  cases s with
  | putchar | cgetc | printJobs => exact quiet (keeps_pure _)
  | printCons s num => exact quiet (keeps_sysPrintCons s num)
  | getenvid => exact quiet keeps_sysGetenvid
  | yield => exact depart (slices_before (slices_depart k true) fun _ => keeps_pure _)
  | envDestroy envid =>
    refine depart (slices_after (keeps_envid2env envid true) fun e k₁ => ?_)
    exact slices_before (slices_envDestroy k₁ e) fun _ => keeps_pure _
  | setTlbModEntry envid func =>
    exact quiet ((keeps_envid2env envid true).bind fun e =>
      (SameTurn.updEnv e (by intro; rfl)).bind fun _ => keeps_pure _)
  | memAlloc envid va perm => exact quiet (keeps_sysMemAlloc envid va perm)
  | memMap srcid srcva dstid dstva perm => exact quiet (keeps_sysMemMap srcid srcva dstid dstva perm)
  | memUnmap envid va => exact quiet (keeps_sysMemUnmap envid va)
  | exofork => exact turned_sysExofork h
  | setEnvStatus envid status => exact quiet (turn_sysSetEnvStatus envid status)
  | setTrapframe envid tf =>
    refine quiet (keeps_guard ((keeps_envid2env envid true).bind fun e => keeps_get.bind fun _ =>
      Keeps.ite ?_ ?_))
    · exact (keeps_modify fun k => FrameFree.setRegs k k.status _).bind fun _ => keeps_pure _
    · exact (SameTurn.updEnv e (by intro; rfl)).bind fun _ => keeps_pure _
  | panic msg => exact quiet (keeps_fault _)
  | ipcTrySend envid value srcva perm =>
    refine quiet ?_
    unfold Syscall.run sysIpcTrySend
    exact turn_send _ (by intro _ _; rfl) envid srcva perm
  | ipcRecv dstva =>
    refine depart ?_
    unfold Syscall.run sysIpcRecv Slices
    simp only [wp_bind, wp_ite, wp_throw]
    refine ⟨fun _ => Or.inr (.of_same (Std.Refl.refl k)), fun _ => ?_⟩
    simp only [← wp_bind]
    refine slices_after keeps_curenvPtr fun c _ => ?_
    refine slices_after (SameTurn.updEnv c (by intro; rfl)) fun _ _ => ?_
    exact slices_after (SameTurn.updEnv c (by intro; rfl)) fun _ k₁ => slices_blockCurenv k₁
  | writeDev va pa len => exact quiet (keeps_sysWriteDev va pa len)
  | readDev va pa len => exact quiet (keeps_sysReadDev inp va pa len)
  | createJob envid cmd =>
    exact quiet ((keeps_envCreateJob envid inp.cmd).bind fun _ => keeps_pure _)
  | setJobDone envid => exact quiet ((keeps_envSetJobDone envid).bind fun _ => keeps_pure _)
  | fgJob envid => exact quiet (keeps_envFgJob envid)
  | killJob envid =>
    exact depart (slices_before (slices_envKillJob k envid) fun _ => keeps_pure _)
  | sendReturnValue envid value srcva perm =>
    refine quiet ?_
    unfold Syscall.run sysSendReturnValue
    exact turn_send _ (by intro _ _; rfl) envid srcva perm
  | recvReturnValue =>
    refine depart (slices_after keeps_curenvPtr fun c _ => ?_)
    exact slices_after (SameTurn.updEnv c (by intro; rfl)) fun _ k₁ => slices_blockCurenv k₁

/-- Every step leaves the slice alone or schedules. -/
theorem turned_next {op : Op} (h : SlotInv k) (hs : next op k = some k') : Turned k k' := by
  have of_body : wp op.body (fun _ => Turned k) (fun err k' => Halts err ∨ Turned k k') k →
      Turned k k' := by
    intro hw
    rcases next_body hs with hx | hx | ⟨k₁, hx, hnested⟩
    · exact (wp_run_ok hw hx :)
    · exact ((wp_run_error hw hx :) : Halts .resched ∨ Turned k k').resolve_left id
    · have h₁ : Turned k k₁ := ((wp_run_error hw hx :) : Halts .tlbMod ∨ _).resolve_left id
      exact h₁.before (wp_run_error (keeps_nestedTlbMod (R := SameTurn) op.kregs k₁) hnested).1
  have quiet : Keeps SameTurn Stays op.body → Turned k k' := fun hx =>
    of_body (wp_mono (hx k) (fun _ _ hs => (Sliced.of_same hs).turned)
      (fun _ _ hs => Or.inr (Sliced.of_same hs.1).turned))
  have depart : Slices op.body k → Turned k k' := fun hx =>
    of_body (wp_mono hx (fun _ _ => Sliced.turned) (fun _ _ hs => hs.imp_right Sliced.turned))
  cases op with
  | start => exact depart (slices_depart k false)
  | syscall f inp =>
    cases hcall : Syscall.ofFrame f inp with
    | none =>
      rw [unknown_next hcall hs]
      have hsame : SameTurn k ((k.trapped f).returned Errno.noSys.code) := ⟨rfl, rfl, fun _ => rfl⟩
      exact (Sliced.of_same hsame).turned
    | some s =>
      have hrun := turned_run (h.congr (entered_envsOnly k f)) inp s
      have entered : ∀ k', Turned (k.entered f) k' → Turned k k' := fun _ ht => ⟨ht.pri, ht.slice⟩
      refine of_body (wp_mono (syscall_body k hcall) ?_ fun err k₁ hx => ?_)
      · rintro _ _ (⟨v, k₁, hx, rfl⟩ | ⟨e, k₁, hx, rfl⟩)
        · have hk : Turned (k.entered f) k₁ := (wp_run_ok hrun hx :)
          exact (entered _ hk).before ⟨rfl, rfl, fun _ => rfl⟩
        · have hk : Halts (.errno e) ∨ Turned (k.entered f) k₁ := (wp_run_error hrun hx :)
          exact (entered _ (hk.resolve_left id)).before ⟨rfl, rfl, fun _ => rfl⟩
      · have hk : Halts err ∨ Turned (k.entered f) k₁ := (wp_run_error hrun hx :)
        exact hk.imp_right (entered _)
  | timer f => exact depart (slices_after (keeps_enterKernel f) fun _ k₁ => slices_depart k₁ false)
  | tlbRefill f va =>
    exact quiet ((keeps_enterKernel _).bind fun _ => keeps_get.bind fun _ =>
      (keeps_onMem _).bind fun _ => keeps_leaveKernel)
  | tlbMod f va inp =>
    refine quiet ((keeps_enterKernel _).bind fun _ => keeps_get.bind fun _ =>
      (keeps_doTlbMod _).bind fun _ => Keeps.bind ?_ fun _ => keeps_leaveKernel)
    exact keeps_modify fun k => FrameFree.setRegs k k.status _
  | store va w =>
    refine quiet (keeps_get.bind fun _ => (keeps_onMem _).bind fun r => ?_)
    rcases r with _ | pp
    · exact keeps_fault _
    · exact keeps_onMem _
  | tlbEvict i => exact quiet (keeps_onMem _)

/-! ## The counter in runs -/

/-- The slice that is left to an environment with a priority is not negative. -/
def Paid (k : Kernel) : Prop := ∀ c, k.curenv = some c → 1 ≤ k.pri c → 0 ≤ k.count

theorem paid_next {op : Op} (h : SlotInv k) (hp : Paid k) (hs : next op k = some k') : Paid k' := by
  have ht := turned_next h hs
  intro c hc hpri
  rcases ht.slice with ⟨hcur, hcount⟩ | ⟨e, he, hslice⟩
  · rw [hcur] at hc
    rw [ht.pri c (h.cur_live c hc)] at hpri
    rw [hcount]
    exact hp c hc hpri
  · obtain rfl := Option.some.inj (he.symm.trans hc)
    rcases hslice with hnew | ⟨hcur, hne, hold⟩
    · omega
    · rw [ht.pri e (h.cur_live e hcur)] at hpri
      have := hp e hcur hpri
      omega

theorem boot_idle {mc : Machine} {programs : List (Image × Word)} (hb : boot mc programs = some k) :
    k.curenv = none := by
  refine boot_rule (I := fun k => k.curenv = none) ?_ (fun k image priority hk => ?_) hb
  · exact wp_mono ((sameEnvs_envInit mc).always _) (fun _ _ h => h.cur) (fun _ _ _ => trivial)
  · refine wp_mono (envCreate_spec k image priority) ?_ (fun _ _ h => h)
    rintro e k' ⟨_, _, _, _, _, hsame⟩
    exact hsame.cur.trans hk

theorem paid_inv {C : Kernel → Op → Prop} (h : mos.Run C k) : Paid k := by
  refine h.invariant_of (J := SlotInv) (fun _ => slot_inv) ?_ fun k op k' hi hp _ hs =>
    paid_next hi hp hs
  rintro k ⟨mc, programs, hb⟩ c hc
  rw [boot_idle hb] at hc
  cases hc

/-! ## Ticks -/

/-- The scheduler as a round robin over its list; nothing is left of a slice whose environment does
not run any more. -/
def Kernel.robin (k : Kernel) (l : List EnvIx) : Robin EnvIx where
  queue := l
  cur := k.curenv
  left := if k.curRunnable then k.count.toNat else 0

/-- The slice of an environment. -/
def Kernel.weight (k : Kernel) (e : EnvIx) : Nat := (k.pri e).toNat

theorem rotate_spec (h : Runnable k l) : wp schedRotate
    (fun _ k' => ∃ q b, q.Repr (k.robin l).order ∧ k' = k.relist q b) (fun _ _ => False) k := by
  obtain ⟨hl, hmem⟩ := h
  unfold schedRotate Robin.order Kernel.robin
  simp only [wp_bind, wp_get]
  cases k.curenv with
  | none => exact (wp_pure _).mpr ⟨k.envSchedList, k.schedMisused, hl, rfl⟩
  | some c =>
    simp only [wp_bind, wp_get, wp_ite, wp_pure]
    refine ⟨fun hrun => ?_, fun hrun => ?_⟩
    · have hc : c ∈ l := (hmem c).mpr hrun
      obtain ⟨q, hq, hrepr⟩ := TailQueue.repr_remove hl hc
      unfold schedRemove schedInsertTail
      simp only [wp_bind, wp_modify, wp_get, hq, if_pos hc]
      exact ⟨_, _, TailQueue.repr_insertTail hrepr (by simp [hl.1.mem_erase_iff]), rfl⟩
    · have hc : c ∉ l := fun hc => hrun ((hmem c).mp hc)
      simp only [if_neg hc]
      exact ⟨k.envSchedList, k.schedMisused, hl, rfl⟩

/-- The head of the list after the running environment has gone to its tail gets a new slice. -/
theorem pick_spec (h : Runnable k l) : wp schedPick
    (fun e k' => ∃ t q b, (k.robin l).order = e :: t ∧ q.Repr (e :: t) ∧
      k' = { k.relist q b with count := k.pri e })
    (fun err _ => Halts err ∧ l = []) k := by
  unfold schedPick schedFirst
  rw [wp_bind]
  refine wp_mono (rotate_spec h) ?_ (fun _ _ h => h.elim)
  rintro _ _ ⟨q, b, hq, rfl⟩
  rw [wp_bind, wp_get]
  have hfirst : (k.relist q b).envSchedList.first = (k.robin l).order.head? :=
    TailQueue.repr_first hq
  rw [hfirst]
  cases horder : (k.robin l).order with
  | nil =>
    refine (wp_throw _).mpr ⟨trivial, ?_⟩
    exact (horder ▸ Robin.order_perm (k.robin l)).symm.eq_nil
  | cons e t =>
    simp only [List.head?_cons, wp_bind, wp_modify, wp_pure]
    exact ⟨t, q, b, rfl, horder ▸ hq, rfl⟩

/-- `schedule` has chosen `e`, which has `n` ticks left. -/
structure Chosen (k : Kernel) (l : List EnvIx) (e : EnvIx) (n : Int) (k' : Kernel) : Prop where
  cur : k'.curenv = some e
  queue : Runnable k' l
  count : k'.count = n
  pri : ∀ x, k'.pri x = k.pri x

theorem enter_spec (h : Runnable k l) (he : e ∈ l) : wp (do
      modify fun k => { k with count := k.count - 1 }
      envRun e : K Unit) (fun _ _ => False)
    (fun err k' => err = .resched ∧ Chosen k l e (k.count - 1) k') k := by
  rw [wp_bind, wp_modify]
  refine wp_mono (envRun_enters _ e) (fun _ _ h => h) (fun err k' hk => ?_)
  have hrun : ({ k with count := k.count - 1 }.envs e).envStatus = .runnable := (h.2 e).mp he
  rw [if_pos hrun] at hk
  obtain ⟨herr, hcur, hs⟩ := hk
  refine ⟨herr, hcur, ⟨?_, fun x => ?_⟩, hs.count, hs.pri⟩
  · rw [hs.queue]
    exact h.1
  · rw [hs.status]
    exact h.2 x

theorem Runnable.curRunnable (h : Runnable k l) (hc : k.curenv = some c) :
    k.curRunnable = true ↔ c ∈ l := by
  unfold Kernel.curRunnable
  rw [hc, h.2 c]
  exact beq_iff_eq

theorem Chosen.robin {n : Int} (h : Chosen k l e n k') (he : e ∈ l) :
    k'.robin l = { queue := l, cur := some e, left := n.toNat } := by
  unfold Kernel.robin
  rw [if_pos ((h.queue.curRunnable h.cur).mpr he), h.cur, h.count]

theorem switch_spec (h : Runnable k l) : wp (do
      let e ← schedPick
      modify fun k => { k with count := k.count - 1 }
      envRun e : K Unit) (fun _ _ => False)
    (fun err k' => (err = .resched ∧ ∃ e t, (k.robin l).order = e :: t ∧
      Chosen k (e :: t) e (k.pri e - 1) k') ∨ (Halts err ∧ l = [])) k := by
  rw [wp_bind]
  refine wp_mono (pick_spec h) ?_ (fun _ _ h => Or.inr h)
  rintro e _ ⟨t, q, b, horder, hq, rfl⟩
  have hrun : Runnable { k.relist q b with count := k.pri e } (e :: t) := by
    refine ⟨hq, fun x => ?_⟩
    rw [← horder, (Robin.order_perm (k.robin l)).mem_iff]
    exact h.2 x
  refine wp_mono (enter_spec hrun List.mem_cons_self) (fun _ _ h => h) ?_
  rintro err k' ⟨herr, hk⟩
  exact Or.inl ⟨herr, e, t, horder, hk.cur, hk.queue, hk.count, hk.pri⟩

/-- Whether `schedule` looks for another environment. -/
def Kernel.due (k : Kernel) (yield : Bool) : Bool := yield || k.count == 0 || !k.curRunnable

theorem wp_schedule {E : Stop → Kernel → Prop} (yield : Bool)
    (hdue : k.due yield = true → wp (do
      let e ← schedPick
      modify fun k => { k with count := k.count - 1 }
      envRun e : K Unit) (fun _ _ => False) E k)
    (hstay : k.due yield = false → ∀ c, k.curenv = some c → wp (do
      modify fun k => { k with count := k.count - 1 }
      envRun c : K Unit) (fun _ _ => False) E k) :
    wp (schedule yield) (fun _ _ => False) E k := by
  unfold schedule
  unfold Kernel.due at hdue hstay
  simp only [wp_bind, wp_get, wp_ite] at hdue hstay ⊢
  refine ⟨hdue, fun h => wp_curenvPtr (hstay (by simpa using h)) fun hc => ?_⟩
  simp [Kernel.curRunnable, hc] at h

theorem yield_spec (h : Runnable k l) : wp (schedule true) (fun _ _ => False)
    (fun err k' => (err = .resched ∧ ∃ e t, (k.robin l).order = e :: t ∧
      Chosen k (e :: t) e (k.pri e - 1) k') ∨ (Halts err ∧ l = [])) k :=
  wp_schedule true (fun _ => switch_spec h) (by simp [Kernel.due])

theorem due_rest (h : k.due false = true) : (k.robin l).rest = [] := by
  unfold Robin.rest Kernel.robin
  simp only [Kernel.due, Bool.false_or, Bool.or_eq_true, beq_iff_eq, Bool.not_eq_true'] at h
  rcases h with h | h
  · split <;> simp [h]
  · split <;> simp [h]

/-- `schedule(0)` is a tick of the round robin. -/
theorem tick_spec (h : Runnable k l) (hp : ∀ c, k.curenv = some c → c ∈ l → 0 ≤ k.count) :
    wp (schedule false) (fun _ _ => False)
    (fun err k' => (err = .resched ∧ ∃ e l' n, (k.robin l).tick k.weight = some (e, k'.robin l') ∧
      Chosen k l' e n k') ∨ (Halts err ∧ l = [])) k := by
  refine wp_schedule false (fun hdue => ?_) (fun hstay c hc => ?_)
  · refine wp_mono (switch_spec h) (fun _ _ h => h) ?_
    rintro err k' (⟨herr, e, t, horder, hk⟩ | hh)
    · refine Or.inl ⟨herr, e, e :: t, _, ?_, hk⟩
      have hw : (k.pri e - 1).toNat = k.weight e - 1 := by
        unfold Kernel.weight
        omega
      unfold Robin.tick
      rw [due_rest hdue, horder, hk.robin List.mem_cons_self, hw]
    · exact Or.inr hh
  · simp only [Kernel.due, Bool.false_or, Bool.or_eq_false_iff, beq_eq_false_iff_ne, ne_eq,
      Bool.not_eq_false'] at hstay
    have hcl : c ∈ l := (h.curRunnable hc).mp hstay.2
    have hcount := hp c hc hcl
    refine wp_mono (enter_spec h hcl) (fun _ _ h => h) ?_
    rintro err k' ⟨herr, hk⟩
    refine Or.inl ⟨herr, c, l, _, ?_, hk⟩
    obtain ⟨n, hn⟩ : ∃ n : Nat, k.count = n + 1 := ⟨(k.count - 1).toNat, by omega⟩
    have hrobin : k.robin l = { queue := l, cur := some c, left := n + 1 } := by
      unfold Kernel.robin
      rw [if_pos hstay.2, hc, hn]
      rfl
    rw [hrobin, hk.robin hcl, hn]
    simp [Robin.tick, Robin.rest, List.replicate_succ]

/-- Nobody blocks, is created or is destroyed, and nobody is scheduled. -/
structure SameTasks (k k' : Kernel) : Prop where
  cur : k'.curenv = k.curenv
  count : k'.count = k.count
  queue : k'.envSchedList = k.envSchedList
  status : ∀ e, (k'.envs e).envStatus = (k.envs e).envStatus

/-- A run through timer interrupts, with the environments that run after each of them. -/
inductive Ticks : Kernel → List EnvIx → Kernel → Prop
  | done (k : Kernel) : Ticks k [] k
  | timer {k k₁ k' : Kernel} {f : Trapframe} {e : EnvIx} {es : List EnvIx}
      (step : next (.timer f) k = some k₁) (cur : k₁.curenv = some e) (rest : Ticks k₁ es k') :
      Ticks k (e :: es) k'
  | between {k k₁ k' : Kernel} {op : Op} {es : List EnvIx} (step : next op k = some k₁)
      (same : SameTasks k k₁) (rest : Ticks k₁ es k') : Ticks k es k'

/-- What the round robin needs, with the queue `l`. -/
structure Turning (k : Kernel) (l : List EnvIx) : Prop where
  slots : SlotInv k
  paid : Paid k
  queue : Runnable k l
  pri : ∀ e ∈ l, 1 ≤ k.pri e

theorem Turning.live (h : Turning k l) (he : e ∈ l) : (k.envs e).envStatus ≠ .free := by
  simp [(h.queue.2 e).mp he]

theorem timer_spec (h : Turning k l) (f : Trapframe) : wp (Op.timer f).body (fun _ _ => False)
    (fun err k' => (err = .resched ∧ ∃ e l' n, (k.robin l).tick k.weight = some (e, k'.robin l') ∧
      Chosen k l' e n k') ∨ (Halts err ∧ l = [])) k := by
  unfold Op.body
  rw [wp_bind, wp_enterKernel]
  refine wp_mono (tick_spec (k := k.trapped f) h.queue fun c hc hcl => ?_) (fun _ _ h => h) ?_
  · exact h.paid c hc (h.pri c hcl)
  · rintro err k' (⟨herr, e, l', n, htick, hk⟩ | hh)
    · exact Or.inl ⟨herr, e, l', n, htick, hk.cur, hk.queue, hk.count, hk.pri⟩
    · exact Or.inr hh

/-- A timer interrupt is a tick. -/
theorem timer_tick {f : Trapframe} (h : Turning k l) (hs : next (.timer f) k = some k₁) :
    ∃ e l', (k.robin l).tick k.weight = some (e, k₁.robin l') ∧ k₁.curenv = some e ∧
      Turning k₁ l' ∧ ∀ x, k₁.pri x = k.pri x := by
  have ht := timer_spec h f
  have hk : ∃ e l' n, (k.robin l).tick k.weight = some (e, k₁.robin l') ∧ Chosen k l' e n k₁ := by
    rcases next_body hs with hx | hx | ⟨k₂, hx, _⟩
    · exact (wp_run_ok ht hx :).elim
    · rcases (wp_run_error ht hx :) with ⟨_, hk⟩ | ⟨hh, _⟩
      · exact hk
      · exact hh.elim
    · rcases (wp_run_error ht hx :) with ⟨herr, _⟩ | ⟨hh, _⟩
      · cases herr
      · exact hh.elim
  obtain ⟨e, l', n, htick, hk⟩ := hk
  refine ⟨e, l', htick, hk.cur, ⟨slot_next h.slots hs, paid_next h.slots h.paid hs, hk.queue, ?_⟩,
    hk.pri⟩
  intro x hx
  rw [hk.pri]
  exact h.pri x ((Robin.tick_perm htick).mem_iff.mp hx)

theorem timer_goes_on {f : Trapframe} (h : Turning k l) (hl : l ≠ [])
    (hen : (Op.timer f).enabled k = true) : ∃ k', next (.timer f) k = some k' := by
  have ht := timer_spec h f
  cases hx : (Op.timer f).body k with
  | ok a k' => exact (wp_run_ok ht hx :).elim
  | error err k' =>
    rcases (wp_run_error ht hx :) with ⟨rfl, _⟩ | ⟨_, hnil⟩
    · refine ⟨k', ?_⟩
      unfold next Op.run handle
      rw [if_pos hen, hx]
      rfl
    · exact absurd hnil hl

/-- The step between two ticks keeps the priorities of the queue. -/
theorem Turning.between {op : Op} (h : Turning k l) (hs : next op k = some k₁)
    (same : SameTasks k k₁) : Turning k₁ l ∧ k₁.robin l = k.robin l ∧
      ∀ e ∈ l, k₁.pri e = k.pri e := by
  have hpri : ∀ e ∈ l, k₁.pri e = k.pri e := fun e he => (turned_next h.slots hs).pri e (h.live he)
  have hcur : k₁.curRunnable = k.curRunnable := by
    unfold Kernel.curRunnable
    rw [same.cur]
    split
    · rw [same.status]
    · rfl
  refine ⟨⟨slot_next h.slots hs, paid_next h.slots h.paid hs, ⟨?_, fun e => ?_⟩, fun e he => ?_⟩,
    ?_, hpri⟩
  · rw [same.queue]
    exact h.queue.1
  · rw [same.status]
    exact h.queue.2 e
  · rw [hpri e he]
    exact h.pri e he
  · unfold Kernel.robin
    rw [same.cur, same.count, hcur]

theorem weight_congr (h : ∀ e ∈ l, k₁.pri e = k.pri e) : ∀ e ∈ l, k₁.weight e = k.weight e := by
  intro e he
  unfold Kernel.weight
  rw [h e he]

/-- The run of the machine is one of the round robin. -/
theorem ticks_robin {es : List EnvIx} (h : Turning k l) (ht : Ticks k es k') :
    ∃ l', (k.robin l).ticks k.weight es.length = some (es, k'.robin l') ∧ Turning k' l' ∧
      l'.Perm l := by
  induction ht generalizing l with
  | done k => exact ⟨l, rfl, h, .refl l⟩
  | @timer k k₁ k' f e es step cur rest ih =>
    obtain ⟨e', l₁, htick, hcur, h₁, hpri⟩ := timer_tick h step
    obtain rfl : e' = e := Option.some.inj (hcur.symm.trans cur)
    obtain ⟨l', hticks, h', hperm⟩ := ih h₁
    refine ⟨l', ?_, h', hperm.trans (Robin.tick_perm htick)⟩
    rw [Robin.ticks_congr (weight_congr fun x _ => hpri x)] at hticks
    simp [Robin.ticks, htick, hticks]
  | @between k k₁ k' op es step same rest ih =>
    obtain ⟨h₁, hrobin, hpri⟩ := h.between step same
    obtain ⟨l', hticks, h', hperm⟩ := ih h₁
    refine ⟨l', ?_, h', hperm⟩
    rw [Robin.ticks_congr (weight_congr hpri), hrobin] at hticks
    exact hticks

/-! ## Round robin -/

theorem turning_of_reachable (hr : mos.Reachable k) (hl : Runnable k l)
    (hpri : ∀ e ∈ l, 1 ≤ k.pri e) : Turning k l := ⟨slot_inv hr, paid_inv hr, hl, hpri⟩

theorem yield_moves (h : Runnable k l) (hc : k.curenv = some c)
    (hs : schedule true k = .error .resched k') (hc' : k'.curenv = some c) : l = [c] := by
  rcases (wp_run_error (yield_spec h) hs :) with ⟨_, e, t, horder, hk⟩ | ⟨hh, _⟩
  · obtain rfl : e = c := Option.some.inj (hk.cur.symm.trans hc')
    exact Robin.order_head h.1.1 hc horder
  · exact hh.elim

/-- The running environment finishes its slice. Then the runnable ones take turns in the order of
the list, each for its `env_pri` ticks, so that a round which begins with a switch gives everybody
just that. No tick stops the machine, and `schedule(1)`, whoever calls it, moves on. -/
theorem round_robin (hr : mos.Reachable k) (hl : Runnable k l) (hpri : ∀ e ∈ l, 1 ≤ k.pri e) :
    (∀ es k', Ticks k es k' →
      es <+: (k.robin l).plan k.weight es.length ∧
      ((k.robin l).rest = [] → es.length = (l.map k.weight).sum →
        ∀ e ∈ l, es.count e = k.weight e) ∧
      (l ≠ [] → ∀ f, (Op.timer f).enabled k' = true → ∃ k'', next (.timer f) k' = some k'')) ∧
    (∀ k₁ l₁ c k', Runnable k₁ l₁ → k₁.curenv = some c →
      schedule true k₁ = .error .resched k' → k'.curenv = some c → l₁ = [c]) := by
  have ht := turning_of_reachable hr hl hpri
  have hw : ∀ e ∈ (k.robin l).queue, 1 ≤ k.weight e := fun e he => by
    have := hpri e he
    unfold Kernel.weight
    omega
  refine ⟨fun es k' hticks => ?_, fun k₁ l₁ c k' h₁ hc hs hc' => yield_moves h₁ hc hs hc'⟩
  obtain ⟨l', hrun, ht', hperm⟩ := ticks_robin ht hticks
  refine ⟨(Robin.ticks_plan hrun hw).2, fun hrest hlen e he => ?_, fun hne f hen => ?_⟩
  · rw [Robin.ticks_round hrun hw hrest hlen]
    have horder := Robin.order_perm (k.robin l)
    exact Robin.count_slices (horder.nodup_iff.mpr hl.1.1) (horder.mem_iff.mpr he)
  · refine timer_goes_on ht' (fun hnil => hne ?_) hen
    exact (hnil ▸ hperm).symm.eq_nil

/-- Two programs, with slices of one tick and of two. -/
theorem round_robin_two : ∃ k l k', mos.Reachable k ∧ Ticks k [0, 0, 1] k' ∧
    [0, 0, 1] <+: (k.robin l).plan k.weight 3 := by
  have hcheck : ((boot smallMachine [(bareLoop, 2), (bareLoop, 1)]).any fun k₀ =>
      (next .start k₀).any fun k =>
        ((List.finRange 1024).all fun e => (k.envs e).envStatus == .runnable →
          decide (1 ≤ k.pri e)) &&
        (next (.timer .zero) k).any fun k₁ => k₁.curenv == some 0 &&
        (next (.timer .zero) k₁).any fun k₂ => k₂.curenv == some 0 &&
        (next (.timer .zero) k₂).any fun k₃ => k₃.curenv == some 1) = true := by
    decide +kernel
  simp only [Option.any_eq_true, Bool.and_eq_true, beq_iff_eq, List.all_eq_true,
    decide_eq_true_eq] at hcheck
  obtain ⟨k₀, h₀, k, hk, hpri, k₁, h₁, hc₁, k₂, h₂, hc₂, k₃, h₃, hc₃⟩ := hcheck
  have hsafe : SchedSafe k₀ .start := trivial
  have hr : mos.Run SchedSafe k := .step (.init ⟨_, _, h₀⟩) hsafe hk
  obtain ⟨l, hl, hmem⟩ := (sched_inv hr).queued
  have hticks : Ticks k [0, 0, 1] k₃ :=
    .timer h₁ hc₁ (.timer h₂ hc₂ (.timer h₃ hc₃ (.done k₃)))
  have hle : ∀ e ∈ l, 1 ≤ k.pri e := fun e he =>
    hpri e (List.mem_finRange e) ((hmem e).mp he)
  exact ⟨k, l, k₃, hr.reachable, hticks,
    ((round_robin hr.reachable ⟨hl, hmem⟩ hle).1 _ _ hticks).1⟩

end Mos
