import Mathlib.Data.Fintype.Card
import Mos.Kern.Rules

/-!
# The list of runnable environments

The comment at `env_sched_list` in `env.c` is the invariant: an environment is in
the list iff its status is `ENV_RUNNABLE`. Four system calls change the list
without looking at the status; `SchedSafe` says when that does no harm.
-/

namespace Mos

open Lib

variable {k : Kernel} {l : List EnvIx} {e : EnvIx}

/-- The list holds every runnable environment once, and no other one. -/
def SchedExact (k : Kernel) : Prop :=
  ∃ l, k.envSchedList.Repr l ∧ ∀ e, e ∈ l ↔ (k.envs e).envStatus = .runnable

structure SchedInv (k : Kernel) : Prop where
  queued : SchedExact k
  cur_live : ∀ c, k.curenv = some c → (k.envs c).envStatus ≠ .free
  unmisused : k.schedMisused = false
  free_nodup : k.envFreeList.Nodup
  free_status : ∀ e ∈ k.envFreeList, (k.envs e).envStatus = .free

/-- Nothing the invariant looks at has changed. -/
structure SameSched (k k' : Kernel) : Prop where
  cur : k'.curenv = k.curenv
  queue : k'.envSchedList = k.envSchedList
  misused : k'.schedMisused = k.schedMisused
  free : k'.envFreeList = k.envFreeList
  status : ∀ e, (k'.envs e).envStatus = (k.envs e).envStatus

theorem SchedInv.of_same {k' : Kernel} (h : SchedInv k) (hs : SameSched k k') : SchedInv k' where
  queued := by
    obtain ⟨l, hl, hmem⟩ := h.queued
    exact ⟨l, hs.queue ▸ hl, fun e => by rw [hmem, hs.status]⟩
  cur_live c hc := by
    rw [hs.status]
    exact h.cur_live c (hs.cur ▸ hc)
  unmisused := hs.misused.trans h.unmisused
  free_nodup := hs.free ▸ h.free_nodup
  free_status e he := (hs.status e).trans (h.free_status e (hs.free ▸ he))

namespace SameSched

theorem trans {k₁ k₂ k₃ : Kernel} (h : SameSched k₁ k₂) (h' : SameSched k₂ k₃) :
    SameSched k₁ k₃ where
  cur := h'.cur.trans h.cur
  queue := h'.queue.trans h.queue
  misused := h'.misused.trans h.misused
  free := h'.free.trans h.free
  status e := (h'.status e).trans (h.status e)

instance : RegFree SameSched where
  refl _ := ⟨rfl, rfl, rfl, rfl, fun _ => rfl⟩
  trans _ _ _ := trans
  setMem _ _ := ⟨rfl, rfl, rfl, rfl, fun _ => rfl⟩
  setJobs _ _ _ := ⟨rfl, rfl, rfl, rfl, fun _ => rfl⟩
  setRegs _ _ _ := ⟨rfl, rfl, rfl, rfl, fun _ => rfl⟩

theorem setEnv (k : Kernel) (e : EnvIx) {f : Env → Env}
    (hf : ∀ env, (f env).envStatus = env.envStatus) : SameSched k (k.setEnv e f) := by
  refine ⟨rfl, rfl, rfl, rfl, fun x => ?_⟩
  by_cases hx : x = e
  · subst hx
    simp [hf]
  · simp [hx]

theorem updEnv {F : Stop → Prop} (e : EnvIx) {f : Env → Env}
    (hf : ∀ env, (f env).envStatus = env.envStatus) : Keeps SameSched F (updEnv e f) := fun k => (wp_updEnv e f).mpr (setEnv k e hf)

end SameSched

theorem SchedInv.keep {α : Type} {x : K α} (h : SchedInv k) (hx : Keeps SameSched Stays x) :
    Always SchedInv x k :=
  wp_mono (hx.always k) (fun _ _ => h.of_same) (fun _ _ => h.of_same)

/-! ## The list operations -/

/-- The list is `l`, and has been used well so far. -/
def Queued (l : List EnvIx) (k : Kernel) : Prop :=
  k.envSchedList.Repr l ∧ k.schedMisused = false

theorem linked_iff_mem (h : k.envSchedList.Repr l) : k.envSchedList.linked nenv e = true ↔ e ∈ l :=
  TailQueue.linked_iff h (by simpa [nenv] using List.Nodup.length_le_card h.1) e

section

variable {Q : Unit → Kernel → Prop} {E : Stop → Kernel → Prop}

theorem wp_schedRemove (h : Queued l k) (he : e ∈ l)
    (hQ : ∀ q, Queued (l.erase e) { k with envSchedList := q } → Q () { k with envSchedList := q }) :
    wp (schedRemove e) Q E k := by
  obtain ⟨hl, hm⟩ := h
  obtain ⟨q, hq, hrepr⟩ := TailQueue.repr_remove hl he
  have hlink : k.envSchedList.linked nenv e = true := (linked_iff_mem hl).mpr he
  unfold schedRemove
  simp only [wp_bind, wp_modify, wp_get, hlink, hq, hm, Bool.not_true, Bool.or_false]
  have hk : { k with schedMisused := false, envSchedList := q } = { k with envSchedList := q } := by
    rw [← hm]
  rw [hk]
  exact hQ q ⟨hrepr, hm⟩

theorem wp_schedInsertTail (h : Queued l k) (he : e ∉ l)
    (hQ : ∀ q, Queued (l ++ [e]) { k with envSchedList := q } → Q () { k with envSchedList := q }) :
    wp (schedInsertTail e) Q E k := by
  obtain ⟨hl, hm⟩ := h
  have hlink : k.envSchedList.linked nenv e = false := by
    rw [Bool.eq_false_iff, ne_eq, linked_iff_mem hl]
    exact he
  unfold schedInsertTail
  simp only [wp_modify, hlink, hm, Bool.or_false]
  have hk : { k with schedMisused := false, envSchedList := k.envSchedList.insertTail e } =
      { k with envSchedList := k.envSchedList.insertTail e } := by rw [← hm]
  rw [hk]
  exact hQ _ ⟨TailQueue.repr_insertTail hl he, hm⟩

theorem wp_schedInsertHead (h : Queued l k) (he : e ∉ l)
    (hQ : ∀ q, Queued (e :: l) { k with envSchedList := q } → Q () { k with envSchedList := q }) :
    wp (schedInsertHead e) Q E k := by
  obtain ⟨hl, hm⟩ := h
  have hlink : k.envSchedList.linked nenv e = false := by
    rw [Bool.eq_false_iff, ne_eq, linked_iff_mem hl]
    exact he
  unfold schedInsertHead
  simp only [wp_modify, hlink, hm, Bool.or_false]
  have hk : { k with schedMisused := false, envSchedList := k.envSchedList.insertHead e } =
      { k with envSchedList := k.envSchedList.insertHead e } := by rw [← hm]
  rw [hk]
  exact hQ _ ⟨TailQueue.repr_insertHead hl he, hm⟩

end

/-- A runnable environment loses its status and leaves the list. -/
theorem SchedInv.leave {q : TailQueue EnvIx} {k' : Kernel} (h : SchedInv k)
    (hl : k.envSchedList.Repr l) (hmem : ∀ e, e ∈ l ↔ (k.envs e).envStatus = .runnable)
    (hq : q.Repr (l.erase e)) (hk : k'.envSchedList = q) (hm : k'.schedMisused = k.schedMisused)
    (hself : (k'.envs e).envStatus ≠ .runnable)
    (hothers : ∀ x, x ≠ e → (k'.envs x).envStatus = (k.envs x).envStatus)
    (hcur : ∀ c, k'.curenv = some c → (k'.envs c).envStatus ≠ .free)
    (hnodup : k'.envFreeList.Nodup)
    (hfree : ∀ x ∈ k'.envFreeList, (k'.envs x).envStatus = .free) : SchedInv k' where
  queued := by
    refine ⟨l.erase e, hk ▸ hq, fun x => ?_⟩
    rw [hl.1.mem_erase_iff, hmem]
    by_cases hx : x = e
    · subst hx
      simp [hself]
    · simp [hx, hothers x hx]
  cur_live := hcur
  unmisused := hm.trans h.unmisused
  free_nodup := hnodup
  free_status := hfree

/-- An environment becomes runnable and enters the list, at either end. -/
theorem SchedInv.enter {q : TailQueue EnvIx} {l' : List EnvIx} {k' : Kernel} (h : SchedInv k)
    (hmem : ∀ e, e ∈ l ↔ (k.envs e).envStatus = .runnable) (hl' : ∀ x, x ∈ l' ↔ x = e ∨ x ∈ l)
    (hq : q.Repr l') (hk : k'.envSchedList = q) (hm : k'.schedMisused = k.schedMisused)
    (hself : (k'.envs e).envStatus = .runnable)
    (hothers : ∀ x, x ≠ e → (k'.envs x).envStatus = (k.envs x).envStatus)
    (hcur : k'.curenv = k.curenv) (hfree : k'.envFreeList = k.envFreeList)
    (hnot : e ∉ k.envFreeList) : SchedInv k' where
  queued := by
    refine ⟨l', hk ▸ hq, fun x => ?_⟩
    rw [hl', hmem]
    by_cases hx : x = e
    · subst hx
      simp [hself]
    · simp [hx, hothers x hx]
  cur_live c hc := by
    by_cases hce : c = e
    · simp [hce, hself]
    · rw [hothers c hce]
      exact h.cur_live c (hcur ▸ hc)
  unmisused := hm.trans h.unmisused
  free_nodup := hfree ▸ h.free_nodup
  free_status x hx := by
    rw [hfree] at hx
    have hxe : x ≠ e := fun he => hnot (he ▸ hx)
    rw [hothers x hxe]
    exact h.free_status x hx

theorem SchedInv.not_free (h : SchedInv k) (he : (k.envs e).envStatus ≠ .free) :
    e ∉ k.envFreeList := fun hf => he (h.free_status e hf)

/-! ## Scheduling -/

theorem same_envSave : Keeps SameSched Stays envSave := by
  unfold envSave
  refine keeps_get.bind fun k => ?_
  split
  · exact keeps_get.bind fun _ => SameSched.updEnv _ (by intro; rfl)
  · exact keeps_pure _

theorem sched_envEnter (h : SchedInv k) (he : (k.envs e).envStatus = .runnable) :
    Always SchedInv (envEnter e) k := by
  unfold Always envEnter
  simp only [wp_bind, wp_get, wp_modify, wp_updEnv, wp_restoreAll, wp_throw]
  have hs := SameSched.setEnv k e (f := fun env => { env with envRuns := env.envRuns + 1 })
    fun _ => rfl
  have hi := h.of_same hs
  refine ⟨hi.queued, ?_, hi.unmisused, hi.free_nodup, hi.free_status⟩
  rintro c hc
  obtain rfl := Option.some.inj hc
  simp [he]

theorem sched_envRun (h : SchedInv k) (e : EnvIx) : Always SchedInv (envRun e) k := by
  unfold Always envRun
  simp only [wp_bind, wp_get, wp_ite, wp_throw]
  refine ⟨fun _ => h, fun hrun => ?_⟩
  refine wp_mono (same_envSave.always k) (fun _ k₁ h₁ => ?_) (fun _ _ => h.of_same)
  exact sched_envEnter (h.of_same h₁) ((h₁.status e).trans (not_not.mp hrun))

theorem same_schedFirst : Keeps SameSched Stays schedFirst := by
  unfold schedFirst
  refine keeps_get.bind fun k => ?_
  split
  · exact keeps_fault _
  · exact (keeps_modify fun _ => ⟨rfl, rfl, rfl, rfl, fun _ => rfl⟩).bind fun _ => keeps_pure _

/-- `TAILQ_REMOVE` and `TAILQ_INSERT_TAIL`: the environment stays in the list. -/
theorem sched_schedRotate (h : SchedInv k) : Always SchedInv schedRotate k := by
  unfold Always schedRotate
  rw [wp_bind, wp_get]
  cases k.curenv with
  | none => exact (wp_pure _).mpr h
  | some e =>
    simp only [wp_bind, wp_get, wp_ite, wp_pure]
    refine ⟨fun hrun => ?_, fun _ => h⟩
    obtain ⟨l, hl, hmem⟩ := h.queued
    refine wp_schedRemove ⟨hl, h.unmisused⟩ ((hmem e).mpr hrun) fun q hq => ?_
    refine wp_schedInsertTail hq (by simp [hl.1.mem_erase_iff]) fun q' hq' => ?_
    refine h.enter (e := e) hmem (fun x => ?_) hq'.1 rfl rfl hrun (fun _ _ => rfl) rfl rfl
      (h.not_free (by simp [hrun]))
    rw [List.mem_append, List.mem_singleton, hl.1.mem_erase_iff]
    constructor
    · rintro (⟨_, hx⟩ | hx)
      · exact Or.inr hx
      · exact Or.inl hx
    · rintro (hx | hx)
      · exact Or.inr hx
      · exact (eq_or_ne x e).symm.imp (fun hne => ⟨hne, hx⟩) id

theorem sched_schedPick (h : SchedInv k) : Always SchedInv schedPick k :=
  (sched_schedRotate h).bind fun _ _ hk => hk.keep same_schedFirst

theorem sched_schedule (h : SchedInv k) (yield : Bool) : Always SchedInv (schedule yield) k := by
  have run : ∀ k e, SchedInv k → Always SchedInv (do
      modify fun k => { k with count := k.count - 1 }
      envRun e) k := by
    intro k e h
    unfold Always
    rw [wp_bind, wp_modify]
    refine sched_envRun (h.of_same ?_) e
    exact ⟨rfl, rfl, rfl, rfl, fun _ => rfl⟩
  unfold Always schedule
  simp only [wp_bind, wp_get, wp_ite]
  refine ⟨fun _ => ?_, fun _ => ?_⟩
  · refine wp_mono (sched_schedPick h) (fun e k' hk => ?_) (fun _ _ hk => hk)
    simpa [Always] using run k' e hk
  · refine wp_curenvPtr (fun c _ => ?_) (fun _ => h)
    simpa [Always] using run k c h

/-! ## Creation -/

theorem same_asidAlloc : Keeps SameSched Stays asidAlloc := by
  unfold asidAlloc
  refine keeps_get.bind fun k => ?_
  dsimp only
  split
  · exact (keeps_modify fun _ => ⟨rfl, rfl, rfl, rfl, fun _ => rfl⟩).bind fun _ => keeps_pure _
  · exact keeps_fault _

theorem same_envSetupVm (e : EnvIx) : Keeps SameSched Stays (envSetupVm e) := by
  unfold envSetupVm
  exact (keeps_onMem _).bind fun _ => (keeps_onMem _).bind fun _ =>
    (keeps_onMem _).bind fun _ => (SameSched.updEnv e (by intro; rfl)).bind fun _ =>
    keeps_get.bind fun _ => keeps_onMem _

theorem same_mkenvid (e : EnvIx) : Keeps SameSched Stays (mkenvid e) :=
  (keeps_modify fun _ => ⟨rfl, rfl, rfl, rfl, fun _ => rfl⟩).bind fun _ =>
    keeps_get.bind fun _ => keeps_pure _

theorem same_envSetup (e : EnvIx) (parentId : Word) : Keeps SameSched Stays (envSetup e parentId) := by
  unfold envSetup
  exact (same_envSetupVm e).bind fun _ => (SameSched.updEnv e (by intro; rfl)).bind fun _ =>
    same_asidAlloc.bind fun _ => (SameSched.updEnv e (by intro; rfl)).bind fun _ =>
    (same_mkenvid e).bind fun _ => (SameSched.updEnv e (by intro; rfl)).bind fun _ =>
    SameSched.updEnv e (by intro; rfl)

theorem sched_envAlloc (h : SchedInv k) (parentId : Word) :
    wp (envAlloc parentId) (fun e k' => SchedInv k' ∧ (k'.envs e).envStatus = .free ∧
      e ∉ k'.envFreeList) (fun _ => SchedInv) k := by
  unfold envAlloc
  rw [wp_bind, wp_get]
  cases hf : k.envFreeList with
  | nil => exact (wp_throw _).mpr h
  | cons e rest =>
    rw [wp_bind]
    refine wp_mono ((same_envSetup e parentId).always k) (fun _ k₁ h₁ => ?_) (fun _ _ => h.of_same)
    have hi := h.of_same h₁
    have hmem : e ∈ k₁.envFreeList := by simp [h₁.free, hf]
    simp only [wp_bind, wp_modify, wp_pure]
    exact ⟨⟨hi.queued, hi.cur_live, hi.unmisused, hi.free_nodup.erase e,
      fun x hx => hi.free_status x (List.mem_of_mem_erase hx)⟩, hi.free_status e hmem,
      hi.free_nodup.not_mem_erase⟩

theorem same_loadIcode (e : EnvIx) (image : Image) : Keeps SameSched Stays (loadIcode e image) := by
  unfold loadIcode
  exact keeps_get.bind fun _ => (keeps_onMem _).bind fun _ =>
    SameSched.updEnv e (by intro; rfl)

/-- While the program is loaded the environment is runnable and not in the list: after a panic
there the invariant need not hold. -/
theorem sched_envCreate (h : SchedInv k) (image : Image) (priority : Word) :
    wp (envCreate image priority) (fun _ => SchedInv) (fun _ _ => True) k := by
  unfold envCreate
  rw [wp_bind, wp_mapStop]
  refine wp_mono (sched_envAlloc h 0) (fun e k₁ hk => ?_) (fun _ _ _ => trivial)
  obtain ⟨hi, hfree, hnot⟩ := hk
  obtain ⟨l, hl, hmem⟩ := hi.queued
  have hel : e ∉ l := fun he => by simp [(hmem e).mp he] at hfree
  simp only [wp_bind, wp_updEnv, wp_pure]
  refine wp_mono (same_loadIcode e image _) (fun _ k₂ h₂ => ?_) (fun _ _ _ => trivial)
  refine wp_schedInsertHead ⟨h₂.queue ▸ hl, h₂.misused.trans hi.unmisused⟩ hel fun q hq => ?_
  refine hi.enter (e := e) hmem (fun x => List.mem_cons) hq.1 rfl h₂.misused ?_ (fun x hx => ?_)
    h₂.cur h₂.free hnot
  · simp [h₂.status]
  · simp [h₂.status, hx]

/-! ## Destruction -/

theorem same_envRelease (pgdir asid : Nat) : Keeps SameSched Stays (envRelease pgdir asid) := by
  unfold envRelease
  exact (keeps_onMem _).bind fun _ =>
    Keeps.bind (fun _ => (wp_asidFree _).mpr ⟨rfl, rfl, rfl, rfl, fun _ => rfl⟩) fun _ =>
    keeps_onMem _

/-- `env_destroy` forgets `curenv` right after `env_free`, so the result is stated about that
state. -/
theorem sched_envFree (h : SchedInv k) (he : (k.envs e).envStatus = .runnable) :
    wp (envFree e) (fun _ k' => k'.curenv = k.curenv ∧
      SchedInv { k' with curenv := if k.curenv = some e then none else k.curenv })
      (fun _ => SchedInv) k := by
  unfold envFree
  simp only [wp_bind, wp_get, wp_updEnv, wp_modify]
  refine wp_mono ((same_envRelease _ _).always k) (fun _ k₁ h₁ => ?_) (fun _ _ => h.of_same)
  have hi := h.of_same h₁
  have he : (k₁.envs e).envStatus = .runnable := (h₁.status e).trans he
  obtain ⟨l, hl, hmem⟩ := hi.queued
  have hnot := hi.not_free (e := e) (by simp [he])
  refine wp_schedRemove (l := l) ⟨hl, hi.unmisused⟩ ((hmem e).mpr he) fun q hq => ?_
  refine ⟨h₁.cur, hi.leave hl hmem hq.1 rfl rfl (by simp) (fun x hx => by simp [hx])
    (fun c hc => ?_) (List.nodup_cons.mpr ⟨hnot, hi.free_nodup⟩) (fun x hx => ?_)⟩
  · have hce : k.curenv = some c ∧ c ≠ e := by
      dsimp only at hc
      split at hc
      case isTrue => exact absurd hc (by simp)
      case isFalse hne => exact ⟨hc, fun hce => hne (hce ▸ hc)⟩
    simpa [hce.2] using hi.cur_live c (h₁.cur.trans hce.1)
  · rcases List.mem_cons.mp hx with rfl | hx
    · simp
    · have hxe : x ≠ e := fun hxe => hnot (hxe ▸ hx)
      simpa [hxe] using hi.free_status x hx

theorem sched_envDestroy (h : SchedInv k) (he : (k.envs e).envStatus = .runnable) :
    Always SchedInv (envDestroy e) k := by
  unfold Always envDestroy
  rw [wp_bind]
  refine wp_mono (sched_envFree h he) (fun _ k₁ hk => ?_) (fun _ _ hk => hk)
  obtain ⟨hcur, hi⟩ := hk
  simp only [wp_bind, wp_get, wp_ite, wp_pure, wp_modify, hcur]
  refine ⟨fun hc => sched_schedule ?_ true, fun hc => ?_⟩
  · rwa [if_pos hc] at hi
  · rwa [if_neg hc, ← hcur] at hi

/-! ## The job table -/

theorem sched_envKillJob (h : SchedInv k) (jobId : Word) :
    Always SchedInv (envKillJob jobId) k := by
  unfold Always envKillJob findJob
  simp only [wp_bind, wp_get, wp_pure]
  split
  · simp only [wp_bind, wp_get, wp_ite, wp_pure]
    refine ⟨fun he => ?_, fun _ => h⟩
    exact wp_mono (sched_envDestroy h he) (fun _ _ hk => hk.keep (keeps_updJob _ _)) (fun _ _ hk => hk)
  · exact (wp_pure _).mpr h

/-! ## The system calls that touch the list -/

theorem sched_sysEnvDestroy (h : SchedInv k) {envid : Word}
    (hsafe : ∀ e, target k envid true = some e → (k.envs e).envStatus = .runnable) :
    Always SchedInv (sysEnvDestroy envid) k := by
  unfold Always sysEnvDestroy
  rw [wp_bind]
  refine wp_envid2env (fun e he => ?_) (fun _ _ => h)
  exact (sched_envDestroy h (hsafe e he)).bind fun _ _ hk => (wp_pure _).mpr hk

theorem sched_sysExofork (h : SchedInv k) : Always SchedInv sysExofork k := by
  unfold Always sysExofork
  rw [wp_bind]
  refine wp_curenvPtr (fun c _ => ?_) (fun _ => h)
  simp only [wp_bind, wp_get, wp_updEnv, wp_pure]
  refine wp_mono (sched_envAlloc h _) (fun e k₁ hk => ?_) (fun _ _ hk => hk)
  obtain ⟨hi, hfree, hnot⟩ := hk
  obtain ⟨l, hl, hmem⟩ := hi.queued
  -- A free environment is not in the list, and its new status does not ask for it.
  have hel : e ∉ l := fun he => by simp [(hmem e).mp he] at hfree
  refine hi.leave hl hmem (q := k₁.envSchedList) (by rwa [List.erase_of_not_mem hel]) rfl rfl
    (by simp) (fun x hx => by simp [hx]) (fun c hc => ?_) hi.free_nodup (fun x hx => ?_)
  · by_cases hce : c = e
    · simp [hce]
    · simpa [hce] using hi.cur_live c hc
  have hxe : x ≠ e := fun hxe => hnot (hxe ▸ hx)
  simpa [hxe] using hi.free_status x hx

theorem SchedInv.target_live (h : SchedInv k) {envid : Word} {checkperm : Bool}
    (he : target k envid checkperm = some e) : (k.envs e).envStatus ≠ .free := by
  rcases target_cases he with ⟨_, hc⟩ | ⟨_, _, hlive, _⟩
  · exact h.cur_live e hc
  · exact hlive

/-- The status changes together with the list, or not at all. -/
theorem sched_sysSetEnvStatus (h : SchedInv k) (envid status : Word) :
    Always SchedInv (sysSetEnvStatus envid status) k := by
  unfold Always sysSetEnvStatus
  cases hst : toStatus status with
  | none => exact (wp_throw _).mpr h
  | some st =>
    simp only [wp_bind]
    refine wp_envid2env (fun e he => ?_) (fun _ _ => h)
    have hlive := h.target_live he
    have hnot := h.not_free hlive
    have hstfree : st ≠ .free := by
      rintro rfl
      unfold toStatus at hst
      split_ifs at hst <;> simp at hst
    obtain ⟨l, hl, hmem⟩ := h.queued
    have hcur : ∀ q, ∀ c, k.curenv = some c →
        (({ k with envSchedList := q }.setEnv e fun env => { env with envStatus := st }).envs
          c).envStatus ≠ .free := by
      intro q c hc
      by_cases hce : c = e
      · simpa [hce] using hstfree
      · simpa [hce] using h.cur_live c hc
    simp only [wp_get, wp_ite, wp_bind, wp_updEnv, wp_pure]
    refine ⟨fun hne => ⟨fun hrun => ?_, fun hrun => ?_⟩, fun heq => ?_⟩
    · -- The environment starts to run: it was not in the list.
      subst hrun
      refine wp_schedInsertTail ⟨hl, h.unmisused⟩ (fun hx => hne ((hmem e).mp hx)) fun q hq => ?_
      exact h.enter (e := e) hmem (fun x => by simp [or_comm]) hq.1 rfl rfl (by simp)
        (fun x hx => by simp [hx]) rfl rfl hnot
    · -- The environment stops: it was in the list.
      have he : (k.envs e).envStatus = .runnable := by
        cases hs : (k.envs e).envStatus with
        | free => exact absurd hs hlive
        | runnable => rfl
        | notRunnable => cases st <;> simp_all
      refine wp_schedRemove ⟨hl, h.unmisused⟩ ((hmem e).mpr he) fun q hq => ?_
      refine h.leave hl hmem hq.1 rfl rfl (by simpa using hrun) (fun x hx => by simp [hx]) (hcur q)
        h.free_nodup (fun x hx => ?_)
      have hxe : x ≠ e := fun hxe => hnot (hxe ▸ hx)
      simpa [hxe] using h.free_status x hx
    · have hs : SameSched k (k.setEnv e fun env => { env with envStatus := st }) := by
        refine ⟨rfl, rfl, rfl, rfl, fun x => ?_⟩
        by_cases hx : x = e
        · subst hx
          simpa using (not_not.mp heq).symm
        · simp [hx]
      exact h.of_same hs

/-- `blockCurenv`, called by an environment that is in the list. -/
theorem sched_blockCurenv (h : SchedInv k)
    (hsafe : ∀ c, k.curenv = some c → (k.envs c).envStatus = .runnable) :
    Always SchedInv blockCurenv k := by
  unfold Always blockCurenv
  rw [wp_bind]
  refine wp_curenvPtr (fun c hc => ?_) (fun _ => h)
  have hrun := hsafe c hc
  obtain ⟨l, hl, hmem⟩ := h.queued
  have hnot := h.not_free (e := c) (by simp [hrun])
  simp only [wp_bind, wp_updEnv, wp_setKstackReg, wp_pure]
  refine wp_schedRemove (l := l) ⟨hl, h.unmisused⟩ ((hmem c).mpr hrun) fun q hq => ?_
  refine sched_schedule ?_ true
  refine h.leave hl hmem hq.1 rfl rfl (by simp) (fun x hx => by simp [hx]) (fun x hx => ?_)
    h.free_nodup (fun x hx => ?_)
  · obtain rfl : c = x := Option.some.inj (hc.symm.trans hx)
    simp
  · have hxc : x ≠ c := fun hxc => hnot (hxc ▸ hx)
    simpa [hxc] using h.free_status x hx

theorem sched_sysIpcRecv (h : SchedInv k) {dstva : Word}
    (hsafe : ¬ (dstva ≠ 0 ∧ isIllegalVa dstva = true) →
      ∀ c, k.curenv = some c → (k.envs c).envStatus = .runnable) :
    Always SchedInv (sysIpcRecv dstva) k := by
  unfold Always sysIpcRecv
  simp only [wp_bind, wp_ite, wp_throw]
  refine ⟨fun _ => h, fun hlegal => ?_⟩
  refine wp_curenvPtr (fun c hc => ?_) (fun _ => h)
  simp only [wp_updEnv]
  have hs := (SameSched.setEnv k c (f := fun env => { env with envIpcRecving := 1 }) fun _ => rfl).trans
    (.setEnv _ c (f := fun env => { env with envIpcDstva := dstva }) fun _ => rfl)
  refine sched_blockCurenv (h.of_same hs) fun x hx => ?_
  rw [hs.status]
  exact hsafe hlegal x hx

theorem sched_sysRecvReturnValue (h : SchedInv k)
    (hsafe : ∀ c, k.curenv = some c → (k.envs c).envStatus = .runnable) :
    Always SchedInv sysRecvReturnValue k := by
  unfold Always sysRecvReturnValue
  rw [wp_bind]
  refine wp_curenvPtr (fun c hc => ?_) (fun _ => h)
  rw [wp_bind, wp_updEnv]
  have hs := SameSched.setEnv k c (f := fun env => { env with waitingReturnValue := 1 }) fun _ => rfl
  refine sched_blockCurenv (h.of_same hs) fun x hx => ?_
  rw [hs.status]
  exact hsafe x hx

theorem sched_wakeAndMap (h : SchedInv k) (hlive : (k.envs e).envStatus ≠ .free)
    (hsafe : (k.envs e).envStatus ≠ .runnable) (srcva perm : Word) :
    Always SchedInv (wakeAndMap e srcva perm) k := by
  obtain ⟨l, hl, hmem⟩ := h.queued
  have hel : e ∉ l := fun hx => hsafe ((hmem e).mp hx)
  unfold Always wakeAndMap
  simp only [wp_bind, wp_updEnv, wp_ite, wp_pure]
  refine wp_schedInsertTail (l := l) ⟨hl, h.unmisused⟩ hel fun q hq => ?_
  have hi : SchedInv { k.setEnv e fun env => { env with envStatus := .runnable } with
      envSchedList := q } :=
    h.enter (e := e) hmem (fun x => by simp [or_comm]) hq.1 rfl rfl (by simp)
      (fun x hx => by simp [hx]) rfl rfl (h.not_free hlive)
  exact ⟨fun _ => hi.keep (keeps_mapSent e srcva perm), fun _ => hi⟩

theorem sched_send (h : SchedInv k) {waiting : Env → Bool} {deliver : Word → Env → Env}
    (hdeliver : ∀ sender env, (deliver sender env).envStatus = env.envStatus)
    {envid srcva perm : Word}
    (hsafe : ¬ (srcva ≠ 0 ∧ isIllegalVa srcva = true) → ∀ e, target k envid false = some e →
      waiting (k.envs e) = true → (k.envs e).envStatus ≠ .runnable) :
    Always SchedInv (send waiting deliver envid srcva perm) k := by
  unfold Always send
  simp only [wp_bind, wp_ite, wp_throw]
  refine ⟨fun _ => h, fun hlegal => ?_⟩
  refine wp_envid2env (fun e he => ?_) (fun _ _ => h)
  simp only [wp_get]
  refine ⟨fun _ => h, fun hwait => ?_⟩
  refine wp_curenvPtr (fun c _ => ?_) (fun _ => h)
  simp only [wp_updEnv]
  have hs := SameSched.setEnv k e (hdeliver (k.envs c).envId)
  refine sched_wakeAndMap (h.of_same hs) ?_ ?_ srcva perm
  · rw [hs.status]
    exact h.target_live he
  · rw [hs.status]
    exact hsafe hlegal e he (by simpa using hwait)

/-! ## Steps -/

/-- When a call of `curenv` does no harm to the list: the target of `sys_env_destroy` and the
caller of a receive are runnable, and a send finds nobody awake with the flag set. -/
def CallSafe (k : Kernel) : Syscall → Prop
  | .envDestroy envid => ∀ e, target k envid true = some e → (k.envs e).envStatus = .runnable
  | .ipcRecv dstva => ¬ (dstva ≠ 0 ∧ isIllegalVa dstva = true) →
      ∀ c, k.curenv = some c → (k.envs c).envStatus = .runnable
  | .recvReturnValue => ∀ c, k.curenv = some c → (k.envs c).envStatus = .runnable
  | .ipcTrySend envid _ srcva _ => ¬ (srcva ≠ 0 ∧ isIllegalVa srcva = true) →
      ∀ e, target k envid false = some e → (k.envs e).envIpcRecving = 1 →
        (k.envs e).envStatus ≠ .runnable
  | .sendReturnValue envid _ srcva _ => ¬ (srcva ≠ 0 ∧ isIllegalVa srcva = true) →
      ∀ e, target k envid false = some e → (k.envs e).waitingReturnValue = 1 →
        (k.envs e).envStatus ≠ .runnable
  | _ => True

def SchedSafe (k : Kernel) : Op → Prop
  | .syscall f inp => ∀ s, Syscall.ofFrame f inp = some s → CallSafe k s
  | _ => True

theorem sched_run (h : SchedInv k) (inp : Inputs) (s : Syscall) (hsafe : CallSafe k s) :
    Always SchedInv (s.run inp) k := by
  cases s with
  | putchar | cgetc | printJobs => exact h.keep (keeps_pure _)
  | printCons s num => exact h.keep (keeps_sysPrintCons s num)
  | getenvid => exact h.keep keeps_sysGetenvid
  | yield => exact (sched_schedule h true).bind fun _ _ hk => hk.keep (keeps_pure _)
  | envDestroy envid => exact sched_sysEnvDestroy h hsafe
  | setTlbModEntry envid func =>
    exact h.keep ((keeps_envid2env envid true).bind fun e =>
      (SameSched.updEnv e (by intro; rfl)).bind fun _ => keeps_pure _)
  | memAlloc envid va perm => exact h.keep (keeps_sysMemAlloc envid va perm)
  | memMap srcid srcva dstid dstva perm => exact h.keep (keeps_sysMemMap srcid srcva dstid dstva perm)
  | memUnmap envid va => exact h.keep (keeps_sysMemUnmap envid va)
  | exofork => exact sched_sysExofork h
  | setEnvStatus envid status => exact sched_sysSetEnvStatus h envid status
  | setTrapframe envid tf =>
    refine h.keep (keeps_guard ((keeps_envid2env envid true).bind fun e => keeps_get.bind fun _ =>
      Keeps.ite ?_ ?_))
    · exact (keeps_modify fun k => FrameFree.setRegs k k.status _).bind fun _ => keeps_pure _
    · exact (SameSched.updEnv e (by intro; rfl)).bind fun _ => keeps_pure _
  | panic msg => exact h.keep (keeps_fault _)
  | ipcTrySend envid value srcva perm =>
    unfold Syscall.run sysIpcTrySend
    refine sched_send h (fun sender env => ?_) fun hlegal e he hrecv => ?_
    · rfl
    · exact hsafe hlegal e he (by simpa using hrecv)
  | ipcRecv dstva => exact sched_sysIpcRecv h hsafe
  | writeDev va pa len => exact h.keep (keeps_sysWriteDev va pa len)
  | readDev va pa len => exact h.keep (keeps_sysReadDev inp va pa len)
  | createJob envid cmd => exact h.keep ((keeps_envCreateJob envid inp.cmd).bind fun _ => keeps_pure _)
  | setJobDone envid => exact h.keep ((keeps_envSetJobDone envid).bind fun _ => keeps_pure _)
  | fgJob envid => exact h.keep (keeps_envFgJob envid)
  | killJob envid => exact (sched_envKillJob h envid).bind fun _ _ hk => hk.keep (keeps_pure _)
  | sendReturnValue envid value srcva perm =>
    unfold Syscall.run sysSendReturnValue
    refine sched_send h (fun sender env => ?_) fun hlegal e he hwait => ?_
    · rfl
    · exact hsafe hlegal e he (by simpa using hwait)
  | recvReturnValue => exact sched_sysRecvReturnValue h hsafe

theorem CallSafe.congr {k' : Kernel} {s : Syscall} (henvs : k'.envs = k.envs)
    (hcur : k'.curenv = k.curenv) (h : CallSafe k s) : CallSafe k' s := by
  have hst : ∀ e, k'.envs e = k.envs e := fun e => by rw [henvs]
  have ht := target_congr henvs hcur
  cases s with
  | envDestroy envid =>
    intro e he
    rw [hst]
    exact h e (ht envid true ▸ he)
  | ipcRecv dstva =>
    intro hlegal c hc
    rw [hst]
    exact h hlegal c (hcur ▸ hc)
  | recvReturnValue =>
    intro c hc
    rw [hst]
    exact h c (hcur ▸ hc)
  | ipcTrySend envid value srcva perm =>
    intro hlegal e he hrecv
    rw [hst] at hrecv ⊢
    exact h hlegal e (ht envid false ▸ he) hrecv
  | sendReturnValue envid value srcva perm =>
    intro hlegal e he hwait
    rw [hst] at hwait ⊢
    exact h hlegal e (ht envid false ▸ he) hwait
  | _ => trivial

theorem sched_doSyscall (h : SchedInv k) (inp : Inputs)
    (hsafe : ∀ s, Syscall.ofFrame k.kstack inp = some s → CallSafe k s) :
    Always SchedInv (doSyscall inp) k := by
  unfold Always doSyscall
  rw [wp_bind, wp_get]
  split
  case h_1 => exact h.keep (keeps_setKstackReg _ _)
  case h_2 s hs =>
    simp only [wp_bind, wp_modify, wp_recover]
    have hi : SchedInv { k with kstack := { k.kstack with cp0Epc := k.kstack.cp0Epc + 4 } } :=
      h.of_same (FrameFree.setRegs k k.status _)
    refine wp_mono (sched_run hi inp s ((hsafe s hs).congr rfl rfl)) (fun r k' hk => ?_)
      (fun err k' hk => ?_)
    · exact hk.keep (keeps_setKstackReg _ _)
    · cases errnoValue err with
      | none => exact hk
      | some r => exact hk.keep (keeps_setKstackReg _ _)

theorem sched_body (h : SchedInv k) {op : Op} (hsafe : SchedSafe k op) :
    Always SchedInv op.body k := by
  cases op with
  | start => exact sched_schedule h false
  | syscall f inp =>
    unfold Op.body Always
    simp only [wp_bind, wp_enterKernel]
    refine wp_mono (sched_doSyscall (h.of_same (FrameFree.setRegs k _ _)) inp fun s hs => ?_)
      (fun _ _ hk => hk.keep keeps_leaveKernel) (fun _ _ hk => hk)
    exact (hsafe s hs).congr rfl rfl
  | timer f =>
    exact (h.keep (keeps_enterKernel f)).bind fun _ _ hk => sched_schedule hk false
  | tlbRefill f va =>
    exact h.keep ((keeps_enterKernel _).bind fun _ => keeps_get.bind fun _ =>
      (keeps_onMem _).bind fun _ => keeps_leaveKernel)
  | tlbMod f va inp =>
    refine h.keep ((keeps_enterKernel _).bind fun _ => keeps_get.bind fun _ =>
      (keeps_doTlbMod _).bind fun _ => Keeps.bind ?_ fun _ => keeps_leaveKernel)
    exact keeps_modify fun k => FrameFree.setRegs k k.status _
  | store va w =>
    refine h.keep (keeps_get.bind fun _ => (keeps_onMem _).bind fun r => ?_)
    rcases r with _ | pp
    · exact keeps_fault _
    · exact keeps_onMem _
  | tlbEvict i => exact h.keep (keeps_onMem _)

theorem sched_op (h : SchedInv k) {op : Op} (hsafe : SchedSafe k op) : Always SchedInv op.run k := by
  unfold Always Op.run
  rw [wp_handle]
  exact wp_mono (sched_body h hsafe) (fun _ _ hk => hk)
    (fun _ _ hk => ⟨fun _ => wp_mono ((keeps_nestedTlbMod _).always _) (fun _ _ => hk.of_same)
      (fun _ _ => hk.of_same), fun _ => hk⟩)

/-! ## Runs -/

theorem sched_initial (mc : Machine) : SchedInv mc.initial where
  queued := by
    refine ⟨[], TailQueue.repr_init, fun e => iff_of_false List.not_mem_nil ?_⟩
    rintro ⟨⟩
  cur_live := by
    rintro c ⟨⟩
  unmisused := rfl
  free_nodup := by
    have hf : mc.initial.envFreeList = List.finRange 1024 := by simp only [Machine.initial]
    rw [hf]
    exact List.nodup_finRange 1024
  free_status _ _ := rfl

theorem same_envInit (mc : Machine) : Keeps SameSched Stays (envInit mc) := by
  unfold envInit
  exact (keeps_onMem _).bind fun _ => (keeps_onMem _).bind fun _ => (keeps_onMem _).bind fun _ =>
    (keeps_modify fun _ => ⟨rfl, rfl, rfl, rfl, fun _ => rfl⟩).bind fun _ =>
    (keeps_onMem _).bind fun _ => keeps_onMem _

theorem sched_boot {mc : Machine} {programs : List (Image × Word)}
    (hb : boot mc programs = some k) : SchedInv k := by
  refine boot_rule ?_ (fun k image priority hk => sched_envCreate hk image priority) hb
  exact wp_mono ((same_envInit mc).always _) (fun _ _ h₁ => (sched_initial mc).of_same h₁)
    (fun _ _ _ => trivial)

theorem sched_inv (h : mos.Run SchedSafe k) : SchedInv k := by
  refine h.invariant ?_ ?_
  · rintro k ⟨mc, programs, hb⟩
    exact sched_boot hb
  · intro k op k' hi hsafe hs
    obtain ⟨_, rfl, _⟩ := next_cases hs
    exact (sched_op hi hsafe).final

/-- In runs whose steps are all harmless, `env_sched_list` holds the runnable environments in every
state, and no step removes an environment that is not linked or inserts one that is. -/
theorem sched_list_exact (h : mos.Run SchedSafe k) :
    SchedExact k ∧ ∀ op, SchedSafe k op → (final op.run k).schedMisused = false :=
  ⟨(sched_inv h).queued, fun _ hsafe => (sched_op (sched_inv h) hsafe).final.unmisused⟩

instance (k : Kernel) : (s : Syscall) → Decidable (CallSafe k s)
  | .envDestroy envid =>
    inferInstanceAs (Decidable (∀ e ∈ target k envid true, (k.envs e).envStatus = .runnable))
  | .ipcRecv dstva => inferInstanceAs (Decidable (¬ (dstva ≠ 0 ∧ isIllegalVa dstva = true) →
      ∀ c ∈ k.curenv, (k.envs c).envStatus = .runnable))
  | .recvReturnValue => inferInstanceAs (Decidable (∀ c ∈ k.curenv, (k.envs c).envStatus = .runnable))
  | .ipcTrySend envid _ srcva _ =>
    inferInstanceAs (Decidable (¬ (srcva ≠ 0 ∧ isIllegalVa srcva = true) →
      ∀ e ∈ target k envid false, (k.envs e).envIpcRecving = 1 → (k.envs e).envStatus ≠ .runnable))
  | .sendReturnValue envid _ srcva _ =>
    inferInstanceAs (Decidable (¬ (srcva ≠ 0 ∧ isIllegalVa srcva = true) →
      ∀ e ∈ target k envid false, (k.envs e).waitingReturnValue = 1 → (k.envs e).envStatus ≠ .runnable))
  | .putchar .. | .printCons .. | .getenvid | .yield | .setTlbModEntry .. | .memAlloc .. | .memMap ..
  | .memUnmap .. | .exofork | .setEnvStatus .. | .setTrapframe .. | .panic .. | .cgetc | .writeDev ..
  | .readDev .. | .createJob .. | .printJobs | .setJobDone .. | .fgJob .. | .killJob .. =>
    isTrue trivial

instance (k : Kernel) : (op : Op) → Decidable (SchedSafe k op)
  | .syscall f inp => inferInstanceAs (Decidable (∀ s ∈ Syscall.ofFrame f inp, CallSafe k s))
  | .start | .timer .. | .tlbRefill .. | .tlbMod .. | .store .. | .tlbEvict .. => isTrue trivial

/-- A child is made runnable and waits, and its parent sends to it. -/
def sendToChild : List Op :=
  [.start,
    callOp 9 0 0 0,       -- `sys_exofork`: the child is 4097
    callOp 10 4097 1 0,   -- `sys_set_env_status(child, ENV_RUNNABLE)`
    callOp 3 0 0 0,       -- `sys_yield`
    callOp 14 0 0 0,      -- the child: `sys_ipc_recv(0)`
    callOp 13 4097 7 0]   -- the parent: `sys_ipc_try_send(child, 7, 0, 0)`

theorem sched_list_exact_sent : ∃ k, mos.Run SchedSafe k ∧ (k.envs 1).envIpcValue = 7 ∧
    (k.envs 1).envStatus = .runnable ∧ SchedExact k ∧
    ∀ op, SchedSafe k op → (final op.run k).schedMisused = false := by
  have hcheck : ((boot smallMachine [(bareLoop, 1)]).any fun k₀ =>
      (mos.execMeeting SchedSafe sendToChild k₀).any fun k =>
        (k.envs 1).envIpcValue == 7 && (k.envs 1).envStatus == .runnable) = true := by
    decide +kernel
  obtain ⟨k₀, h₀, hrun⟩ := (Option.any_eq_true _ _).mp hcheck
  obtain ⟨k, hk, hend⟩ := (Option.any_eq_true _ _).mp hrun
  simp only [Bool.and_eq_true, beq_iff_eq] at hend
  have hr : mos.Run SchedSafe k := Lib.System.Run.execMeeting (.init ⟨_, _, h₀⟩) hk
  exact ⟨k, hr, hend.1, hend.2, sched_list_exact hr⟩
/-- The parent sets the status of a child that is blocked in `sys_ipc_recv`, and then sends to it:
the child is inserted twice and points to itself. -/
def doubleInsert : List Op :=
  [.start,
    callOp 9 0 0 0,       -- `sys_exofork`: the child is 4097
    callOp 10 4097 1 0,   -- `sys_set_env_status(child, ENV_RUNNABLE)`
    callOp 3 0 0 0,       -- `sys_yield`
    callOp 14 0 0 0,      -- the child: `sys_ipc_recv(0)`
    callOp 10 4097 1 0,   -- the parent: `sys_set_env_status(child, ENV_RUNNABLE)`
    callOp 13 4097 0 0]   -- `sys_ipc_try_send(child, 0, 0, 0)`

theorem sched_list_corrupted : ∃ k, mos.Reachable k ∧ k.schedMisused = true ∧ ¬ SchedExact k := by
  have hrun : ((smallRun doubleInsert).any fun k =>
      k.schedMisused && decide (¬ (k.envSchedList.walk 3 k.envSchedList.first).Nodup)) = true := by
    decide +kernel
  obtain ⟨k, hk, hbad⟩ := (Option.any_eq_true _ _).mp hrun
  simp only [Bool.and_eq_true, decide_eq_true_eq] at hbad
  refine ⟨k, smallRun_reachable hk, hbad.1, ?_⟩
  rintro ⟨l, hl, _⟩
  exact hbad.2 (TailQueue.walk_nodup hl 3)

end Mos
