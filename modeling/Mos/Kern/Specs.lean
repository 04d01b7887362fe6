import Mos.Kern.Rules

/-!
# What the kernel's functions do to the environments

One specification for each function of `env.c` and `sched.c` that changes
`envs`, `curenv` or `env_free_list`.
-/

namespace Mos

open Lib

variable {k k₁ k₂ : Kernel} {e : EnvIx}

/-- The environments, `curenv`, `env_free_list` and the processor are as they were. -/
structure SameEnvs (k k' : Kernel) : Prop where
  envs : k'.envs = k.envs
  cur : k'.curenv = k.curenv
  free : k'.envFreeList = k.envFreeList
  kstack : k'.kstack = k.kstack
  status : k'.status = k.status

/-- And so are memory and the job table. -/
structure SameRest (k k' : Kernel) : Prop extends SameEnvs k k' where
  mem : k'.mem = k.mem
  base : k'.basePgdir = k.basePgdir
  jobs : k'.jobs = k.jobs
  jobCnt : k'.jobCnt = k.jobCnt

namespace SameEnvs

theorem refl (k : Kernel) : SameEnvs k k := ⟨rfl, rfl, rfl, rfl, rfl⟩

theorem trans (h : SameEnvs k k₁) (h' : SameEnvs k₁ k₂) : SameEnvs k k₂ where
  envs := h'.envs.trans h.envs
  cur := h'.cur.trans h.cur
  free := h'.free.trans h.free
  kstack := h'.kstack.trans h.kstack
  status := h'.status.trans h.status

instance : Quiet SameEnvs where
  refl := refl
  trans _ _ _ := trans
  setMem _ _ := ⟨rfl, rfl, rfl, rfl, rfl⟩
  setJobs _ _ _ := ⟨rfl, rfl, rfl, rfl, rfl⟩

instance : ListFree SameEnvs where
  setList _ _ _ := ⟨rfl, rfl, rfl, rfl, rfl⟩
  setCount _ _ := ⟨rfl, rfl, rfl, rfl, rfl⟩
  setIds _ _ _ := ⟨rfl, rfl, rfl, rfl, rfl⟩

end SameEnvs

namespace SameRest

theorem refl (k : Kernel) : SameRest k k := ⟨.refl k, rfl, rfl, rfl, rfl⟩

theorem trans (h : SameRest k k₁) (h' : SameRest k₁ k₂) : SameRest k k₂ where
  toSameEnvs := h.toSameEnvs.trans h'.toSameEnvs
  mem := h'.mem.trans h.mem
  base := h'.base.trans h.base
  jobs := h'.jobs.trans h.jobs
  jobCnt := h'.jobCnt.trans h.jobCnt

instance : ListFree SameRest where
  refl := refl
  trans _ _ _ := trans
  setList _ _ _ := ⟨⟨rfl, rfl, rfl, rfl, rfl⟩, rfl, rfl, rfl, rfl⟩
  setCount _ _ := ⟨⟨rfl, rfl, rfl, rfl, rfl⟩, rfl, rfl, rfl, rfl⟩
  setIds _ _ _ := ⟨⟨rfl, rfl, rfl, rfl, rfl⟩, rfl, rfl, rfl, rfl⟩

end SameRest

/-- The function ends with a fault: an error code or a panic. -/
def Faults (err : Stop) : Prop := ∃ f, err = .fault f

theorem faults_fault (f : Fault) : Faults (.fault f) := ⟨f, rfl⟩

theorem Faults.stays {err : Stop} (h : Faults err) : Stays err := by
  obtain ⟨f, rfl⟩ := h
  exact stays_fault f

/-! ## Scheduling -/

/-- The list of runnable environments may have become another one. -/
@[simps] def Kernel.relist (k : Kernel) (q : TailQueue EnvIx) (misused : Bool) : Kernel :=
  { k with envSchedList := q, schedMisused := misused }

theorem schedRemove_spec (k : Kernel) (e : EnvIx) :
    wp (schedRemove e) (fun _ k' => ∃ q b, k' = k.relist q b) (fun err _ => Halts err) k := by
  unfold schedRemove
  simp only [wp_bind, wp_modify, wp_get]
  split
  · rw [wp_modify]
    exact ⟨_, _, rfl⟩
  · exact (wp_throw _).mpr trivial

theorem schedInsertTail_spec (k : Kernel) (e : EnvIx) :
    wp (schedInsertTail e) (fun _ k' => ∃ q b, k' = k.relist q b) (fun _ _ => False) k := by
  unfold schedInsertTail
  rw [wp_modify]
  exact ⟨_, _, rfl⟩

/-- What `env_run(e)` makes of the environment in slot `x`. -/
def Env.switched (k : Kernel) (e x : EnvIx) : Env :=
  { k.envs x with
    envTf := if k.curenv = some x then k.kstack else (k.envs x).envTf
    envRuns := if x = e then (k.envs x).envRuns + 1 else (k.envs x).envRuns }

/-- `env_run` left for `e`. -/
structure Switched (k : Kernel) (e : EnvIx) (k' : Kernel) : Prop where
  runnable : (k.envs e).envStatus = .runnable
  envs : ∀ x, k'.envs x = Env.switched k e x
  cur : k'.curenv = some e
  status : k'.status = eret (Env.switched k e e).envTf.cp0Status
  space : k'.curPgdir = (k.envs e).envPgdir ∧ k'.entryHiAsid = (k.envs e).envAsid
  kstack : k'.kstack = k.kstack
  free : k'.envFreeList = k.envFreeList
  mem : k'.mem = k.mem
  base : k'.basePgdir = k.basePgdir
  jobs : k'.jobs = k.jobs
  jobCnt : k'.jobCnt = k.jobCnt

theorem Switched.of_same (h : SameRest k k₁) (h₁ : Switched k₁ e k₂) : Switched k e k₂ where
  runnable := by
    rw [← h.envs]
    exact h₁.runnable
  envs x := by
    rw [h₁.envs]
    unfold Env.switched
    rw [h.envs, h.cur, h.kstack]
  cur := h₁.cur
  status := by
    rw [h₁.status]
    unfold Env.switched
    rw [h.envs, h.cur, h.kstack]
  space := by
    rw [← h.envs]
    exact h₁.space
  kstack := h₁.kstack.trans h.kstack
  free := h₁.free.trans h.free
  mem := h₁.mem.trans h.mem
  base := h₁.base.trans h.base
  jobs := h₁.jobs.trans h.jobs
  jobCnt := h₁.jobCnt.trans h.jobCnt

/-- How a function ends that does not return: it has left for an environment, or the machine
stops. -/
def Departs (k : Kernel) (err : Stop) (k' : Kernel) : Prop :=
  (err = .resched ∧ ∃ e, Switched k e k') ∨ Halts err

theorem Departs.of_same {err : Stop} (h : SameRest k k₁) (h₁ : Departs k₁ err k₂) :
    Departs k err k₂ := by
  rcases h₁ with ⟨herr, e, h₁⟩ | herr
  · exact Or.inl ⟨herr, e, h₁.of_same h⟩
  · exact Or.inr herr

theorem envEnter_spec (k : Kernel) (e : EnvIx) : wp (envEnter e) (fun _ _ => False)
    (fun err k' => err = .resched ∧ k' =
      { k.setEnv e (fun env => { env with envRuns := env.envRuns + 1 }) with
        curenv := some e
        curPgdir := (k.envs e).envPgdir
        entryHiAsid := (k.envs e).envAsid
        status := eret (k.envs e).envTf.cp0Status }) k := by
  unfold envEnter
  simp only [wp_bind, wp_get, wp_modify, wp_updEnv, wp_restoreAll, wp_throw]
  refine ⟨trivial, ?_⟩
  simp [Kernel.setEnv]

theorem envRun_spec (k : Kernel) (e : EnvIx) : wp (envRun e) (fun _ _ => False) (Departs k) k := by
  unfold envRun
  simp only [wp_bind, wp_get, wp_ite, wp_throw]
  refine ⟨fun _ => Or.inr trivial, fun hrun => ?_⟩
  have hrun := not_not.mp hrun
  unfold envSave
  rw [wp_bind, wp_get]
  cases hc : k.curenv with
  | none =>
    refine (wp_pure _).mpr (wp_mono (envEnter_spec k e) (fun _ _ h => h) ?_)
    rintro err k' ⟨rfl, rfl⟩
    refine Or.inl ⟨rfl, e, hrun, fun x => ?_, rfl, ?_, ⟨rfl, rfl⟩, rfl, rfl, rfl, rfl, rfl, rfl⟩
    · unfold Env.switched
      rcases eq_or_ne x e with rfl | hx <;> simp_all
    · simp [Env.switched, hc]
  | some c =>
    simp only [wp_bind, wp_get, wp_updEnv]
    refine wp_mono (envEnter_spec _ e) (fun _ _ h => h) ?_
    rintro err k' ⟨rfl, rfl⟩
    refine Or.inl ⟨rfl, e, hrun, fun x => ?_, rfl, ?_, ⟨?_, ?_⟩, rfl, rfl, rfl, rfl, rfl, rfl⟩
    · unfold Env.switched
      rcases eq_or_ne x c with rfl | hxc <;> rcases eq_or_ne x e with rfl | hxe <;> simp_all [eq_comm]
    · unfold Env.switched
      rcases eq_or_ne e c with rfl | hec <;> simp_all [eq_comm]
    · rcases eq_or_ne e c with rfl | hec <;> simp_all
    · rcases eq_or_ne e c with rfl | hec <;> simp_all

theorem schedule_spec (k : Kernel) (yield : Bool) :
    wp (schedule yield) (fun _ _ => False) (Departs k) k := by
  have run : ∀ k' e, SameRest k k' → wp (do
      modify fun k => { k with count := k.count - 1 }
      envRun e : K Unit) (fun _ _ => False) (Departs k) k' := by
    intro k' e h
    rw [wp_bind, wp_modify]
    refine wp_mono (envRun_spec _ e) (fun _ _ h => h) (fun err _ he => he.of_same ?_)
    exact h.trans (QueueFree.setCount (R := SameRest) k' _)
  unfold schedule
  simp only [wp_bind, wp_get, wp_ite]
  refine ⟨fun _ => ?_, fun _ => ?_⟩
  · refine wp_mono (keeps_schedPick (R := SameRest) k) (fun e k' h => ?_) (fun err k' h => Or.inr h.2)
    simpa using run k' e h
  · refine wp_curenvPtr (fun c _ => ?_) (fun _ => Or.inr trivial)
    simpa using run k c (.refl k)

/-! ## Creation -/

theorem sameEnvs_envInit (mc : Machine) : Keeps SameEnvs Stays (envInit mc) := by
  unfold envInit
  refine (keeps_onMem _).bind fun _ => (keeps_onMem _).bind fun _ => (keeps_onMem _).bind fun _ =>
    Keeps.bind ?_ fun _ => (keeps_onMem _).bind fun _ => keeps_onMem _
  exact keeps_modify fun _ => ⟨rfl, rfl, rfl, rfl, rfl⟩

/-- The identifier that `mkenvid` makes. -/
def envidOf (count : Word) (e : EnvIx) : Word := count <<< 11 ||| BitVec.ofNat 32 e.val

theorem envx_envidOf (count : Word) (e : EnvIx) : envx (envidOf count e) = e := by
  have hcount : count.toNat <<< 11 % 2 ^ 32 % 2 ^ 10 = 0 := by
    rw [Nat.shiftLeft_eq]
    omega
  have hslot : e.val % 2 ^ 32 % 2 ^ 10 = e.val := by
    have := e.isLt
    omega
  have hor : (count.toNat <<< 11 % 2 ^ 32 ||| e.val % 2 ^ 32) % 2 ^ 10 = e.val := by
    rw [Nat.or_mod_two_pow, hcount, hslot, Nat.zero_or]
  unfold envx envidOf
  apply Fin.ext
  rw [Fin.val_ofNat, BitVec.toNat_or, BitVec.toNat_shiftLeft, BitVec.toNat_ofNat]
  exact hor

/-- What `env_alloc` makes of a slot. -/
def Env.alloc (env : Env) (pgdir asid : Nat) (id parentId : Word) : Env :=
  { env with
    envPgdir := pgdir
    envUserTlbModEntry := 0
    envRuns := 0
    envAsid := asid
    envId := id
    envParentId := parentId
    envTf := { env.envTf.setReg 29 (ustacktop - 4 - 4) with cp0Status := initStatus } }

theorem envSetupVm_spec (k : Kernel) (e : EnvIx) : wp (envSetupVm e)
    (fun _ k' => ∃ m pgdir, k' = (k.setMem m).setEnv e fun env => { env with envPgdir := pgdir })
    (fun err k' => Faults err ∧ ∃ m, k' = k.setMem m) k := by
  have quiet : ∀ {α : Type} (x : M α) (m : Mem) (Q : α → Kernel → Prop),
      (∀ a m', Q a (k.setMem m')) →
      wp (onMem x) Q (fun err k' => Faults err ∧ ∃ m, k' = k.setMem m) (k.setMem m) := by
    intro α x m Q hQ
    exact wp_onMem_any (fun a m' => hQ a m') (fun err m' => ⟨faults_fault err, m', rfl⟩)
  unfold envSetupVm
  rw [wp_bind]
  refine quiet _ k.mem _ fun p m₁ => ?_
  rw [wp_bind]
  refine quiet _ m₁ _ fun _ m₂ => ?_
  rw [wp_bind]
  refine quiet _ m₂ _ fun pgdir m₃ => ?_
  rw [wp_bind, wp_updEnv, wp_bind, wp_get, wp_onMem, wp_modify]
  exact ⟨_, pgdir, rfl⟩

theorem envAlloc_spec (k : Kernel) (parentId : Word) : wp (envAlloc parentId)
    (fun e k' => k.envFreeList.head? = some e ∧ ∃ m asids pgdir asid, k' =
      { (k.setEnv e fun env => env.alloc pgdir asid
            (envidOf (k.mkenvidCount + 1) e) parentId) with
        mem := m
        asidBitmap := asids
        mkenvidCount := k.mkenvidCount + 1
        envFreeList := k.envFreeList.erase e })
    (fun err k' => Faults err ∧ ∃ m, k' = k.setMem m ∨
      ∃ e pgdir, k.envFreeList.head? = some e ∧ k' = (k.setMem m).setEnv e fun env =>
        { env with envPgdir := pgdir, envUserTlbModEntry := 0, envRuns := 0 }) k := by
  unfold envAlloc
  rw [wp_bind, wp_get]
  cases hf : k.envFreeList with
  | nil => exact (wp_throw _).mpr ⟨faults_fault _, k.mem, Or.inl rfl⟩
  | cons e rest =>
    unfold envSetup
    simp only [wp_bind]
    refine wp_mono (envSetupVm_spec k e) ?_ ?_
    · rintro _ _ ⟨m, pgdir, rfl⟩
      unfold asidAlloc mkenvid
      simp only [wp_bind, wp_updEnv, wp_get]
      split
      case h_1 asid _ =>
        simp only [wp_bind, wp_modify, wp_pure]
        refine ⟨rfl, m, Function.update k.asidBitmap asid true, pgdir, asid, ?_⟩
        simp only [Kernel.setEnv, Kernel.setMem, Env.alloc, envidOf, hf, Function.update_idem,
          Function.update_self]
      case h_2 =>
        refine (wp_throw _).mpr ⟨faults_fault _, m, Or.inr ⟨e, pgdir, rfl, ?_⟩⟩
        simp only [Kernel.setEnv, Kernel.setMem, Function.update_idem, Function.update_self]
    · rintro err _ ⟨herr, m, rfl⟩
      exact ⟨herr, m, Or.inl rfl⟩

/-! ## Destruction -/

/-- Whatever happens to memory, no error code is returned. -/
abbrev Unfailing {α : Type} (x : M α) : Prop := Keeps (fun _ _ => True) (fun f => ∀ e, f ≠ .errno e) x

instance : Std.Refl fun _ _ : Mem => True := ⟨fun _ => trivial⟩

instance : IsTrans Mem fun _ _ => True := ⟨fun _ _ _ _ _ => trivial⟩

theorem unfailing_modify (f : Mem → Mem) : Unfailing (modify f) := keeps_modify fun _ => trivial

theorem unfailing_kaddr (pa : Word) : Unfailing (kaddr pa) :=
  keeps_get.bind fun _ => (keeps_pure _).guard (by simp)

theorem unfailing_pa2page (pa : Word) : Unfailing (pa2page pa) :=
  keeps_get.bind fun _ => (keeps_pure _).guard (by simp)

theorem unfailing_readPte (p : PtePtr) : Unfailing (readPte p) := keeps_get.bind fun _ => keeps_pure _

theorem unfailing_pageFree (pp : Nat) : Unfailing (pageFree pp) :=
  keeps_get.bind fun _ => (unfailing_modify _).guard (by simp)

theorem unfailing_pageDecref (pp : Nat) : Unfailing (pageDecref pp) :=
  keeps_get.bind fun _ => ((unfailing_modify _).bind fun _ => keeps_get.bind fun _ =>
    Keeps.ite (unfailing_pageFree pp) (keeps_pure _)).guard (by simp)

theorem unfailing_pageLookup (pgdir : Nat) (va : Word) : Unfailing (pageLookup pgdir va) := by
  unfold pageLookup pgdirWalk
  refine Keeps.bind ((unfailing_readPte _).bind fun pde => Keeps.ite ?_ (keeps_pure _)) fun r => ?_
  · exact (unfailing_readPte _).bind fun _ => (unfailing_kaddr _).bind fun _ => keeps_pure _
  · rcases r with _ | pte
    · exact keeps_pure _
    · refine (unfailing_readPte _).bind fun w => Keeps.ite ?_ (keeps_pure _)
      exact (unfailing_pa2page _).bind fun _ => keeps_pure _

theorem unfailing_pageRemove (pgdir asid : Nat) (va : Word) : Unfailing (pageRemove pgdir asid va) := by
  unfold pageRemove
  refine (unfailing_pageLookup _ _).bind fun r => ?_
  rcases r with _ | ⟨pp, pte⟩
  · exact keeps_pure _
  · exact (unfailing_pageDecref _).bind fun _ => (unfailing_modify _).bind fun _ => unfailing_modify _

theorem unfailing_envFreeVm (pgdir asid : Nat) : Unfailing (envFreeVm pgdir asid) := by
  unfold envFreeVm envFreeTable
  refine Keeps.bind (Keeps.forM fun i _ => ?_) fun _ =>
    (unfailing_pa2page _).bind fun _ => unfailing_pageDecref _
  refine (unfailing_readPte _).bind fun pde => Keeps.ite ?_ (keeps_pure _)
  refine (unfailing_kaddr _).bind fun pt => Keeps.bind (Keeps.forM fun j _ => ?_) fun _ =>
    (unfailing_modify _).bind fun _ => (unfailing_pa2page _).bind fun _ =>
    (unfailing_pageDecref _).bind fun _ => unfailing_modify _
  exact (unfailing_readPte _).bind fun _ => Keeps.ite (unfailing_pageRemove _ _ _) (keeps_pure _)

theorem wp_onMem_unfailing {α : Type} {x : M α} (hx : Unfailing x) {Q : α → Kernel → Prop}
    (hQ : ∀ a m, Q a (k.setMem m)) : wp (onMem x) Q (fun err _ => Halts err) k := by
  rw [wp_onMem]
  refine wp_mono (hx k.mem) (fun a m _ => hQ a m) (fun f m hf => ?_)
  cases f with
  | errno e => exact absurd rfl (hf.2 e)
  | panic | wild => trivial

/-- The state that `env_free` leaves, whatever became of memory and of the list. -/
def Kernel.freed (k : Kernel) (e : EnvIx) (m : Mem) (asids : Nat → Bool) (q : TailQueue EnvIx)
    (misused : Bool) : Kernel :=
  { (k.setEnv e fun env => { env with envStatus := .free }) with
    mem := m
    asidBitmap := asids
    envFreeList := e :: k.envFreeList
    envSchedList := q
    schedMisused := misused }

theorem envFree_spec (k : Kernel) (e : EnvIx) : wp (envFree e)
    (fun _ k' => ∃ m asids q b, k' = k.freed e m asids q b) (fun err _ => Halts err) k := by
  unfold envFree envRelease
  simp only [wp_bind, wp_get]
  refine wp_onMem_unfailing (unfailing_envFreeVm _ _) fun _ m => ?_
  rw [wp_asidFree]
  refine wp_onMem_unfailing (unfailing_modify _) fun _ m => ?_
  rw [wp_updEnv, wp_modify]
  refine wp_mono (schedRemove_spec _ e) ?_ (fun _ _ h => h)
  rintro _ _ ⟨q, b, rfl⟩
  exact ⟨m, _, q, b, rfl⟩

theorem envDestroy_spec (k : Kernel) (e : EnvIx) : wp (envDestroy e)
    (fun _ k' => k.curenv ≠ some e ∧ ∃ m asids q b, k' = k.freed e m asids q b)
    (fun err k' => (err = .resched ∧ k.curenv = some e ∧ ∃ m asids q b c,
      Switched { k.freed e m asids q b with curenv := none } c k') ∨ Halts err) k := by
  unfold envDestroy
  rw [wp_bind]
  refine wp_mono (envFree_spec k e) ?_ (fun _ _ h => Or.inr h)
  rintro _ _ ⟨m, asids, q, b, rfl⟩
  simp only [wp_bind, wp_get, wp_ite, wp_modify, wp_pure]
  refine ⟨fun hc => ?_, fun hc => ⟨hc, m, asids, q, b, rfl⟩⟩
  refine wp_mono (schedule_spec _ true) (fun _ _ h => h.elim) ?_
  rintro err k' (⟨rfl, c, hs⟩ | herr)
  · exact Or.inl ⟨rfl, hc, m, asids, q, b, c, hs⟩
  · exact Or.inr herr

/-! ## System calls -/

theorem sysSetTlbModEntry_spec (k : Kernel) (envid func : Word) :
    wp (sysSetTlbModEntry envid func)
      (fun _ k' => ∃ e, target k envid true = some e ∧
        k' = k.setEnv e fun env => { env with envUserTlbModEntry := func })
      (fun err k' => Faults err ∧ k' = k) k := by
  unfold sysSetTlbModEntry
  rw [wp_bind]
  refine wp_envid2env (fun e he => ?_) ?_
  · rw [wp_bind, wp_updEnv, wp_pure]
    exact ⟨e, he, rfl⟩
  · rintro err (rfl | rfl)
    · exact ⟨faults_fault _, rfl⟩
    · exact ⟨faults_fault _, rfl⟩

/-- The child of `c` in a slot that `env_alloc` has filled. -/
def Env.fork (env parent : Env) (tf : Trapframe) : Env :=
  { env with envTf := tf.setReg 2 0, envStatus := .notRunnable, envPri := parent.envPri }

theorem sysExofork_spec (k : Kernel) : wp sysExofork
    (fun v k' => ∃ c e m asids pgdir asid,
      k.curenv = some c ∧ k.envFreeList.head? = some e ∧
      v = envidOf (k.mkenvidCount + 1) e ∧
      k' = { (k.setEnv e fun env => (env.alloc pgdir asid v (k.envs c).envId).fork (k.envs c)
          k.kstack) with
        mem := m
        asidBitmap := asids
        mkenvidCount := k.mkenvidCount + 1
        envFreeList := k.envFreeList.erase e })
    (fun err k' => Faults err ∧ ∃ m, k' = k.setMem m ∨
      ∃ e pgdir, k.envFreeList.head? = some e ∧ k' = (k.setMem m).setEnv e fun env =>
        { env with envPgdir := pgdir, envUserTlbModEntry := 0, envRuns := 0 }) k := by
  unfold sysExofork
  rw [wp_bind]
  refine wp_curenvPtr (fun c hc => ?_) (fun _ => ⟨faults_fault _, k.mem, Or.inl rfl⟩)
  rw [wp_bind, wp_get, wp_bind]
  refine wp_mono (envAlloc_spec k _) ?_ (fun _ _ h => h)
  rintro e _ ⟨he, m, asids, pgdir, asid, rfl⟩
  simp only [wp_bind, wp_get, wp_updEnv, wp_pure]
  refine ⟨c, e, m, asids, pgdir, asid, hc, he, ?_, ?_⟩
  · simp [Env.alloc]
  · rcases eq_or_ne c e with rfl | hce
    · simp [Kernel.setEnv, Env.alloc, Env.fork]
    · simp [Kernel.setEnv, Env.alloc, Env.fork, hce]

theorem sysSetEnvStatus_spec (k : Kernel) (envid status : Word) :
    wp (sysSetEnvStatus envid status)
      (fun _ k' => ∃ st e q b, toStatus status = some st ∧ target k envid true = some e ∧
        k' = (k.relist q b).setEnv e fun env => { env with envStatus := st })
      (fun err k' => (Faults err ∧ k' = k) ∨ Halts err) k := by
  unfold sysSetEnvStatus
  cases hst : toStatus status with
  | none => exact (wp_throw _).mpr (Or.inl ⟨faults_fault _, rfl⟩)
  | some st =>
    have finish : ∀ k' q b e, k' = k.relist q b → target k envid true = some e → wp (do
        updEnv e fun env => { env with envStatus := st }
        pure 0 : K Word)
        (fun _ k' => ∃ st' e q b, some st = some st' ∧ target k envid true = some e ∧
          k' = (k.relist q b).setEnv e fun env => { env with envStatus := st' })
        (fun err k' => (Faults err ∧ k' = k) ∨ Halts err) k' := by
      rintro _ q b e rfl he
      rw [wp_bind, wp_updEnv, wp_pure]
      exact ⟨st, e, q, b, rfl, he, rfl⟩
    dsimp only
    rw [wp_bind]
    refine wp_envid2env (fun e he => ?_) ?_
    · simp only [wp_bind, wp_get, wp_ite]
      refine ⟨fun _ => ⟨fun _ => ?_, fun _ => ?_⟩, fun _ => ?_⟩
      · refine wp_mono (schedInsertTail_spec k e) ?_ (fun _ _ h => h.elim)
        rintro _ k' ⟨q, b, hk⟩
        simpa using finish k' q b e hk he
      · refine wp_mono (schedRemove_spec k e) ?_ (fun _ _ h => Or.inr h)
        rintro _ k' ⟨q, b, hk⟩
        simpa using finish k' q b e hk he
      · simpa using finish k k.envSchedList k.schedMisused e rfl he
    · rintro err (rfl | rfl)
      · exact Or.inl ⟨faults_fault _, rfl⟩
      · exact Or.inl ⟨faults_fault _, rfl⟩

theorem sysSetTrapframe_spec (k : Kernel) (envid tf : Word) (content : Trapframe) :
    wp (sysSetTrapframe envid tf content)
      (fun v k' => isIllegalVaRange tf sizeofTrapframe = false ∧ ∃ e,
        target k envid true = some e ∧
        ((k.curenv = some e ∧ v = content.regs 2 ∧ k' = { k with kstack := content }) ∨
          (k.curenv ≠ some e ∧ v = 0 ∧ k' = k.setEnv e fun env => { env with envTf := content })))
      (fun err k' => Faults err ∧ k' = k) k := by
  unfold sysSetTrapframe
  simp only [wp_bind, wp_ite, wp_throw]
  refine ⟨fun _ => ⟨faults_fault _, trivial⟩, fun hlegal => ?_⟩
  have hlegal := (Bool.not_eq_true _).mp hlegal
  refine wp_envid2env (fun e he => ?_) ?_
  · simp only [wp_get, wp_modify, wp_updEnv, wp_pure]
    exact ⟨fun hc => ⟨hlegal, e, he, Or.inl ⟨hc, trivial, trivial⟩⟩,
      fun hc => ⟨hlegal, e, he, Or.inr ⟨hc, trivial, rfl⟩⟩⟩
  · rintro err (rfl | rfl)
    · exact ⟨faults_fault _, rfl⟩
    · exact ⟨faults_fault _, rfl⟩

/-- `curenv` is `c`; it leaves the list of runnable environments and waits. -/
def Kernel.blocked (k : Kernel) (c : EnvIx) (f : Env → Env) (q : TailQueue EnvIx) (misused : Bool) :
    Kernel :=
  { (k.relist q misused).setEnv c (fun env => { f env with envStatus := .notRunnable }) with
    kstack := k.kstack.setReg 2 0 }

theorem blockCurenv_spec {c : EnvIx} {f : Env → Env} (hc : k.curenv = some c) :
    wp blockCurenv (fun _ _ => False)
      (fun err k' => (err = .resched ∧ ∃ q b e, Switched (k.blocked c f q b) e k') ∨ Halts err)
      (k.setEnv c f) := by
  unfold blockCurenv
  rw [wp_bind]
  refine wp_curenvPtr (fun c' hc' => ?_) (fun hn => absurd (hn.symm.trans hc) (by simp))
  obtain rfl : c = c' := Option.some.inj (hc.symm.trans hc')
  rw [wp_bind, wp_updEnv, wp_bind]
  refine wp_mono (schedRemove_spec _ c) ?_ (fun _ _ h => Or.inr h)
  rintro _ _ ⟨q, b, rfl⟩
  rw [wp_bind, wp_setKstackReg, wp_bind]
  refine wp_mono (schedule_spec _ true) (fun _ _ h => h.elim) ?_
  rintro err k' (⟨rfl, e, hs⟩ | herr)
  · refine Or.inl ⟨rfl, q, b, e, ?_⟩
    simpa [Kernel.setEnv, Kernel.blocked, Kernel.relist] using hs
  · exact Or.inr herr

theorem sysIpcRecv_spec (k : Kernel) (dstva : Word) : wp (sysIpcRecv dstva) (fun _ _ => False)
    (fun err k' => (Faults err ∧ k' = k) ∨ Halts err ∨ (err = .resched ∧
      ¬ (dstva ≠ 0 ∧ isIllegalVa dstva = true) ∧ ∃ c q b e, k.curenv = some c ∧
        Switched (k.blocked c (fun env => { env with envIpcRecving := 1, envIpcDstva := dstva }) q b)
          e k')) k := by
  unfold sysIpcRecv
  simp only [wp_bind, wp_ite, wp_throw]
  refine ⟨fun _ => Or.inl ⟨faults_fault _, trivial⟩, fun hlegal => ?_⟩
  refine wp_curenvPtr (fun c hc => ?_) (fun _ => Or.inr (Or.inl trivial))
  simp only [wp_updEnv]
  have hset : (k.setEnv c fun env => { env with envIpcRecving := 1 }).setEnv c
      (fun env => { env with envIpcDstva := dstva }) =
      k.setEnv c fun env => { env with envIpcRecving := 1, envIpcDstva := dstva } := by
    simp [Kernel.setEnv]
  rw [hset]
  refine wp_mono (blockCurenv_spec hc) (fun _ _ h => h.elim) ?_
  rintro err k' (⟨rfl, q, b, e, hs⟩ | herr)
  · exact Or.inr (Or.inr ⟨rfl, hlegal, c, q, b, e, hc, hs⟩)
  · exact Or.inr (Or.inl herr)

theorem sysRecvReturnValue_spec (k : Kernel) : wp sysRecvReturnValue (fun _ _ => False)
    (fun err k' => Halts err ∨ (err = .resched ∧ ∃ c q b e, k.curenv = some c ∧
        Switched (k.blocked c (fun env => { env with waitingReturnValue := 1 }) q b) e k')) k := by
  unfold sysRecvReturnValue
  rw [wp_bind]
  refine wp_curenvPtr (fun c hc => ?_) (fun _ => Or.inl trivial)
  rw [wp_bind, wp_updEnv]
  refine wp_mono (blockCurenv_spec hc) (fun _ _ h => h.elim) ?_
  rintro err k' (⟨rfl, q, b, e, hs⟩ | herr)
  · exact Or.inr ⟨rfl, c, q, b, e, hc, hs⟩
  · exact Or.inl herr

theorem mapSent_spec (k : Kernel) (e : EnvIx) (srcva perm : Word) :
    wp (mapSent e srcva perm) (fun _ k' => ∃ m, k' = k.setMem m)
      (fun err k' => Faults err ∧ ∃ m, k' = k.setMem m) k := by
  unfold mapSent
  rw [wp_bind]
  refine wp_curenvPtr (fun c _ => ?_) (fun _ => ⟨faults_fault _, k.mem, rfl⟩)
  rw [wp_bind, wp_get, wp_bind]
  refine wp_onMem_any (fun r m => ?_) (fun err m => ⟨faults_fault err, m, rfl⟩)
  rcases r with _ | ⟨pp, _⟩
  · exact (wp_throw _).mpr ⟨faults_fault _, m, rfl⟩
  · rw [wp_bind, wp_get]
    exact wp_onMem_any (fun _ m' => ⟨m', rfl⟩) (fun err m' => ⟨faults_fault err, m', rfl⟩)

/-- The target `e` of a send is `f` of itself, and awake. -/
def Kernel.woken (k : Kernel) (e : EnvIx) (f : Env → Env) (m : Mem) (q : TailQueue EnvIx)
    (misused : Bool) : Kernel :=
  ((k.relist q misused).setEnv e fun env => { f env with envStatus := .runnable }).setMem m

theorem wakeAndMap_spec (k : Kernel) (e : EnvIx) (f : Env → Env) (srcva perm : Word) :
    wp (wakeAndMap e srcva perm) (fun v k' => v = 0 ∧ ∃ m q b, k' = k.woken e f m q b)
      (fun err k' => Faults err ∧ srcva ≠ 0 ∧ ∃ m q b, k' = k.woken e f m q b) (k.setEnv e f) := by
  unfold wakeAndMap
  rw [wp_bind, wp_updEnv, wp_bind]
  refine wp_mono (schedInsertTail_spec _ e) ?_ (fun _ _ h => h.elim)
  rintro _ _ ⟨q, b, rfl⟩
  have hwoken : ∀ m, ((((k.setEnv e f).setEnv e fun env =>
      { env with envStatus := .runnable }).relist q b).setMem m) = k.woken e f m q b := by
    intro m
    simp [Kernel.setEnv, Kernel.relist, Kernel.woken]
  simp only [wp_bind, wp_ite, wp_pure]
  refine ⟨fun hsrc => wp_mono (mapSent_spec _ e srcva perm) ?_ ?_,
    fun _ => ⟨trivial, k.mem, q, b, hwoken k.mem⟩⟩
  · rintro _ _ ⟨m, rfl⟩
    exact ⟨trivial, m, q, b, hwoken m⟩
  · rintro err _ ⟨herr, m, rfl⟩
    exact ⟨herr, hsrc, m, q, b, hwoken m⟩

/-- What lets a send through. -/
structure Ready (k : Kernel) (waiting : Env → Bool) (envid srcva : Word) (c e : EnvIx) : Prop where
  legal : ¬ (srcva ≠ 0 ∧ isIllegalVa srcva = true)
  target : target k envid false = some e
  waiting : waiting (k.envs e) = true
  cur : k.curenv = some c

/-- A send either stops at a check, or delivers; a failure to map the page comes after that. -/
theorem send_spec (k : Kernel) (waiting : Env → Bool) (deliver : Word → Env → Env)
    (envid srcva perm : Word) : wp (send waiting deliver envid srcva perm)
    (fun v k' => v = 0 ∧ ∃ c e m q b, Ready k waiting envid srcva c e ∧
      k' = k.woken e (deliver (k.envs c).envId) m q b)
    (fun err k' => Faults err ∧ ((k' = k ∧ ∀ c e, ¬ Ready k waiting envid srcva c e) ∨
      (srcva ≠ 0 ∧ ∃ c e m q b, Ready k waiting envid srcva c e ∧
        k' = k.woken e (deliver (k.envs c).envId) m q b))) k := by
  unfold send
  simp only [wp_bind, wp_ite, wp_throw]
  refine ⟨fun hill => ⟨faults_fault _, Or.inl ⟨trivial, fun c e h => h.legal hill⟩⟩, fun hlegal => ?_⟩
  refine wp_mono (envid2env_spec k envid false) ?_ ?_
  · rintro e k ⟨rfl, he⟩
    simp only [wp_get]
    have heq : ∀ {c e'}, Ready k waiting envid srcva c e' → e' = e := fun h =>
      Option.some.inj (h.target.symm.trans he)
    refine ⟨fun hwait => ⟨faults_fault _, Or.inl ⟨trivial, fun c e' h => ?_⟩⟩, fun hwait => ?_⟩
    · have hw := h.waiting
      rw [heq h] at hw
      simp [hw] at hwait
    · have hwait : waiting (k.envs e) = true := by simpa using hwait
      refine wp_curenvPtr (fun c hc => ?_) (fun hc => ?_)
      · have hready : Ready k waiting envid srcva c e := ⟨hlegal, he, hwait, hc⟩
        simp only [wp_updEnv]
        refine wp_mono (wakeAndMap_spec k e (deliver (k.envs c).envId) srcva perm) ?_ ?_
        · rintro v k' ⟨hv, m, q, b, hk⟩
          exact ⟨hv, c, e, m, q, b, hready, hk⟩
        · rintro err k' ⟨herr, hsrc, m, q, b, hk⟩
          exact ⟨herr, Or.inr ⟨hsrc, c, e, m, q, b, hready, hk⟩⟩
      · exact ⟨faults_fault _, Or.inl ⟨rfl, fun c e' h => by simp [h.cur] at hc⟩⟩
  · rintro err k ⟨rfl, herr, hnone⟩
    refine ⟨?_, Or.inl ⟨rfl, fun c e h => by simp [h.target] at hnone⟩⟩
    rcases herr with rfl | rfl
    · exact faults_fault _
    · exact faults_fault _

theorem envKillJob_spec (k : Kernel) (jobId : Word) : wp (envKillJob jobId)
    (fun _ k' => k' = k ∨ ∃ i m asids q b jobs, k.curenv ≠ some (envx (k.jobs i).envid) ∧
      i < k.jobCnt ∧ (k.jobs i).jobId = jobId ∧
      (k.envs (envx (k.jobs i).envid)).envStatus = .runnable ∧
      k' = { k.freed (envx (k.jobs i).envid) m asids q b with jobs := jobs })
    (fun err k' => (err = .resched ∧ ∃ i m asids q b c, k.curenv = some (envx (k.jobs i).envid) ∧
      i < k.jobCnt ∧ (k.jobs i).jobId = jobId ∧
      (k.envs (envx (k.jobs i).envid)).envStatus = .runnable ∧
      Switched { k.freed (envx (k.jobs i).envid) m asids q b with curenv := none } c k') ∨
      Halts err) k := by
  unfold envKillJob findJob
  simp only [wp_bind, wp_get, wp_pure]
  split
  case h_2 => exact (wp_pure _).mpr (Or.inl rfl)
  case h_1 i hi =>
    have hrange := List.mem_of_find?_eq_some hi
    have hid := List.find?_some hi
    simp only [wp_bind, wp_get, wp_ite, wp_pure, true_or, implies_true, and_true]
    intro hrun
    refine wp_mono (envDestroy_spec k _) ?_ ?_
    · rintro _ _ ⟨hne, m, asids, q, b, rfl⟩
      rw [wp_updJob]
      exact Or.inr ⟨i, m, asids, q, b, _, hne, List.mem_range.mp hrange, by simpa using hid, hrun,
        rfl⟩
    · rintro err k' (⟨rfl, hc, m, asids, q, b, c, hs⟩ | herr)
      · exact Or.inl ⟨rfl, i, m, asids, q, b, c, hc, List.mem_range.mp hrange, by simpa using hid,
          hrun, hs⟩
      · exact Or.inr herr

/-! ## Steps -/

/-- The environments, `curenv` and `env_free_list` are as they were. -/
structure EnvsOnly (k k' : Kernel) : Prop where
  envs : k'.envs = k.envs
  cur : k'.curenv = k.curenv
  free : k'.envFreeList = k.envFreeList

namespace EnvsOnly

theorem refl (k : Kernel) : EnvsOnly k k := ⟨rfl, rfl, rfl⟩

theorem trans (h : EnvsOnly k k₁) (h' : EnvsOnly k₁ k₂) : EnvsOnly k k₂ where
  envs := h'.envs.trans h.envs
  cur := h'.cur.trans h.cur
  free := h'.free.trans h.free

theorem of_same (h : SameEnvs k k₁) : EnvsOnly k k₁ := ⟨h.envs, h.cur, h.free⟩

instance : RegFree EnvsOnly where
  refl := refl
  trans _ _ _ := trans
  setMem _ _ := ⟨rfl, rfl, rfl⟩
  setJobs _ _ _ := ⟨rfl, rfl, rfl⟩
  setRegs _ _ _ := ⟨rfl, rfl, rfl⟩

instance : ListFree EnvsOnly where
  setList _ _ _ := ⟨rfl, rfl, rfl⟩
  setCount _ _ := ⟨rfl, rfl, rfl⟩
  setIds _ _ _ := ⟨rfl, rfl, rfl⟩

end EnvsOnly

/-- The state in which `do_syscall` calls a function of the table. -/
def Kernel.entered (k : Kernel) (f : Trapframe) : Kernel :=
  { k.trapped f with kstack := { (k.trapped f).kstack with cp0Epc := f.cp0Epc + 4 } }

/-- The state in which the caller goes on with the result `v`. -/
def Kernel.returned (k : Kernel) (v : Word) : Kernel :=
  { k with kstack := k.kstack.setReg 2 v, status := eret k.kstack.cp0Status }

theorem target_entered (k : Kernel) (f : Trapframe) (envid : Word) (checkperm : Bool) :
    target (k.entered f) envid checkperm = target k envid checkperm := target_congr rfl rfl _ _

theorem entered_envsOnly (k : Kernel) (f : Trapframe) : EnvsOnly k (k.entered f) := ⟨rfl, rfl, rfl⟩

theorem returned_envsOnly (k : Kernel) (v : Word) : EnvsOnly k (k.returned v) := ⟨rfl, rfl, rfl⟩

/-- How a system call ends: it returns a value, it returns an error, it leaves for an environment, or
a store of its own is not allowed and `curenv` goes on in its handler. -/
inductive Ends (inp : Inputs) (s : Syscall) (k k' : Kernel) : Prop where
  | value (v : Word) (k₁ : Kernel) (run : s.run inp k = .ok v k₁) (eq : k' = k₁.returned v)
  | errno (e : Errno) (k₁ : Kernel) (run : s.run inp k = .error (.errno e) k₁)
      (eq : k' = k₁.returned e.code)
  | resched (run : s.run inp k = .error .resched k')
  | nested (k₁ : Kernel) (run : s.run inp k = .error .tlbMod k₁)
      (handler : nestedTlbMod inp.kregs k₁ = .error .resched k')

/-- A step ends normally or leaves for an environment, and the handler of an exception in the kernel
does not return. -/
theorem next_body {op : Op} {k' : Kernel} (h : next op k = some k') :
    op.body k = .ok () k' ∨ op.body k = .error .resched k' ∨
    ∃ k₁, op.body k = .error .tlbMod k₁ ∧ nestedTlbMod op.kregs k₁ = .error .resched k' := by
  have hnot : ∀ k₁ k₂, nestedTlbMod op.kregs k₁ ≠ .ok () k₂ := by
    intro k₁ k₂ hk
    have hw : wp (nestedTlbMod op.kregs) (fun _ _ => False) (fun _ _ => True) k₁ := by
      unfold nestedTlbMod
      simp only [wp_bind, wp_get, wp_restoreAll, wp_throw]
      exact wp_mono (wp_trivial _) (fun _ _ _ => trivial) (fun _ _ _ => trivial)
    exact wp_run_ok hw hk
  obtain ⟨_, _, hrun⟩ := next_cases h
  unfold Op.run handle at hrun
  cases hx : op.body k with
  | ok a k₁ =>
    rw [hx] at hrun
    rcases hrun with hrun | hrun
    · cases hrun
      exact Or.inl rfl
    · cases hrun
  | error err k₁ =>
    rw [hx] at hrun
    dsimp only at hrun
    split at hrun
    case isTrue herr =>
      obtain rfl := eq_of_beq herr
      rcases hrun with hrun | hrun
      · exact absurd hrun (hnot k₁ k')
      · exact Or.inr (Or.inr ⟨k₁, rfl, hrun⟩)
    case isFalse =>
      rcases hrun with hrun | hrun
      · cases hrun
      · cases hrun
        exact Or.inr (Or.inl rfl)

theorem syscall_body (k : Kernel) {f : Trapframe} {inp : Inputs} {s : Syscall}
    (hs : Syscall.ofFrame f inp = some s) : wp (Op.body (.syscall f inp))
    (fun _ k' => (∃ v k₁, s.run inp (k.entered f) = .ok v k₁ ∧ k' = k₁.returned v) ∨
      ∃ e k₁, s.run inp (k.entered f) = .error (.errno e) k₁ ∧ k' = k₁.returned e.code)
    (fun err k' => s.run inp (k.entered f) = .error err k') k := by
  unfold Op.body doSyscall leaveKernel
  simp only [wp_bind, wp_enterKernel, wp_get]
  split
  case h_1 hnone => exact absurd (hnone.symm.trans hs) (by simp)
  case h_2 s' hs' =>
    obtain rfl : s = s' := Option.some.inj (hs.symm.trans hs')
    simp only [wp_bind, wp_modify, wp_recover, wp_setKstackReg, wp_restoreAll]
    refine wp_mono (wp_self (s.run inp) (k.entered f)) ?_ ?_
    · intro v k₁ hv
      exact Or.inl ⟨v, k₁, hv, rfl⟩
    · intro err k₁ herr
      rcases err with (e | _ | _) | _ | _
      · exact Or.inr ⟨e, k₁, herr, rfl⟩
      all_goals exact herr

theorem doSyscall_ends {f : Trapframe} {inp : Inputs} {s : Syscall}
    (hs : Syscall.ofFrame f inp = some s) {k' : Kernel} (h : next (.syscall f inp) k = some k') :
    Ends inp s (k.entered f) k' := by
  have hbody := syscall_body k hs
  rcases next_body h with hx | hx | ⟨k₁, hx, hnested⟩
  · rcases wp_run_ok hbody hx with ⟨v, k₁, hrun, rfl⟩ | ⟨e, k₁, hrun, rfl⟩
    · exact .value v k₁ hrun rfl
    · exact .errno e k₁ hrun rfl
  · exact .resched (wp_run_error hbody hx :)
  · exact .nested k₁ (wp_run_error hbody hx :) hnested

theorem unknown_next {f : Trapframe} {inp : Inputs} (hs : Syscall.ofFrame f inp = none)
    {k' : Kernel} (h : next (.syscall f inp) k = some k') :
    k' = (k.trapped f).returned Errno.noSys.code := by
  have hbody : wp (Op.body (.syscall f inp))
      (fun _ k' => k' = (k.trapped f).returned Errno.noSys.code) (fun _ _ => False) k := by
    unfold Op.body doSyscall leaveKernel
    simp only [wp_bind, wp_enterKernel, wp_get]
    split
    case h_1 =>
      simp only [wp_setKstackReg, wp_restoreAll]
      rfl
    case h_2 s hs' => exact absurd (hs.symm.trans hs') (by simp)
  rcases next_body h with hx | hx | ⟨k₁, hx, _⟩
  · exact (wp_run_ok hbody hx :)
  · exact (wp_run_error hbody hx :).elim
  · exact (wp_run_error hbody hx :).elim

theorem nested_envsOnly {kregs : Trapframe} {k' : Kernel}
    (h : nestedTlbMod kregs k = .error .resched k') : EnvsOnly k k' :=
  (wp_run_error (keeps_nestedTlbMod kregs k) h).1

/-- Every step but a system call either switches to an environment or leaves them all alone. -/
theorem other_next {op : Op} {k' : Kernel} (hop : ∀ f inp, op ≠ .syscall f inp)
    (h : next op k = some k') : EnvsOnly k k' ∨ ∃ k₀ e, EnvsOnly k k₀ ∧ Switched k₀ e k' := by
  have hquiet : Keeps EnvsOnly Stays op.body → EnvsOnly k k' := by
    intro hk
    rcases next_body h with hx | hx | ⟨k₁, hx, hnested⟩
    · exact (wp_run_ok (hk k) hx :)
    · exact (wp_run_error (hk k) hx).1
    · exact (wp_run_error (hk k) hx).1.trans (nested_envsOnly hnested)
  have hswitch : ∀ k₀, EnvsOnly k k₀ → wp op.body (fun _ _ => False) (Departs k₀) k →
      ∃ k₀ e, EnvsOnly k k₀ ∧ Switched k₀ e k' := by
    intro k₀ h₀ hd
    rcases next_body h with hx | hx | ⟨k₁, hx, _⟩
    · exact (wp_run_ok hd hx :).elim
    · rcases (wp_run_error hd hx :) with ⟨_, e, hs⟩ | hh
      · exact ⟨k₀, e, h₀, hs⟩
      · exact absurd rfl hh.stays
    · rcases (wp_run_error hd hx :) with ⟨hr, _⟩ | hh
      · cases hr
      · exact hh.elim
  cases op with
  | start => exact Or.inr (hswitch k (.refl k) (schedule_spec k false))
  | syscall f inp => exact absurd rfl (hop f inp)
  | timer f =>
    refine Or.inr (hswitch (k.trapped f) ⟨rfl, rfl, rfl⟩ ?_)
    unfold Op.body
    rw [wp_bind, wp_enterKernel]
    exact schedule_spec _ false
  | tlbRefill f va =>
    refine Or.inl (hquiet ((keeps_enterKernel _).bind fun _ => keeps_get.bind fun _ =>
      (keeps_onMem _).bind fun _ => keeps_leaveKernel))
  | tlbMod f va inp =>
    refine Or.inl (hquiet ((keeps_enterKernel _).bind fun _ => keeps_get.bind fun _ =>
      (keeps_doTlbMod _).bind fun _ => Keeps.bind ?_ fun _ => keeps_leaveKernel))
    exact keeps_modify fun k => FrameFree.setRegs k k.status _
  | store va w =>
    refine Or.inl (hquiet (keeps_get.bind fun _ => (keeps_onMem _).bind fun r => ?_))
    rcases r with _ | pp
    · exact keeps_fault _
    · exact keeps_onMem _
  | tlbEvict i => exact Or.inl (hquiet (keeps_onMem _))

end Mos
