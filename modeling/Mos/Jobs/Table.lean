import Mos.Kern.Identity

/-!
# The job table

What a step does to the entries of `jobs`, and which environments it destroys.
-/

namespace Mos

open Lib

variable {k k₁ k' : Kernel} {e x : EnvIx} {i : Nat}

/-- The entry that the loop of a job function stops at. -/
def Kernel.jobAt (k : Kernel) (p : Job → Bool) : Option Nat :=
  (List.range k.jobCnt).find? fun i => p (k.jobs i)

/-- The entry of a job number. -/
def Kernel.jobOf (k : Kernel) (jobId : Word) : Option Nat := k.jobAt fun j => j.jobId == jobId

/-- The slot that an entry leads to. -/
def Kernel.jobSlot (k : Kernel) (i : Nat) : EnvIx := envx (k.jobs i).envid

theorem Kernel.jobAt_lt {p : Job → Bool} (h : k.jobAt p = some i) :
    i < k.jobCnt ∧ p (k.jobs i) = true := by
  unfold Kernel.jobAt at h
  exact ⟨List.mem_range.mp (List.mem_of_find?_eq_some h), (List.find?_some h :)⟩

/-! ## The functions -/

theorem wp_findJob {Q : Option Nat → Kernel → Prop} {E : Stop → Kernel → Prop} (p : Job → Bool) :
    wp (findJob p) Q E k ↔ Q (k.jobAt p) k := by
  unfold findJob Kernel.jobAt
  simp only [wp_bind, wp_get, wp_pure]

theorem envCreateJob_spec (k : Kernel) (envid : Word) (cmd : List UInt8) : wp (envCreateJob envid cmd)
    (fun _ k' => k.jobCnt < njobs ∧ cmd.length < 1024 ∧ k' =
      { k with
        jobs := Function.update k.jobs k.jobCnt
          { envid := envid, jobStatus := 1, cmd := cmd, jobId := BitVec.ofNat 32 k.jobCnt + 1 }
        jobCnt := k.jobCnt + 1 })
    (fun err _ => Halts err) k := by
  unfold envCreateJob
  simp only [wp_bind, wp_get, wp_ite, wp_throw, wp_updJob, wp_modify]
  refine ⟨fun _ => trivial, fun hn => ?_⟩
  obtain ⟨hroom, hfits⟩ := not_or.mp hn
  exact ⟨Nat.lt_of_not_le hroom, Nat.lt_of_not_le hfits, trivial⟩

theorem envSetJobDone_spec (k : Kernel) (envid : Word) : wp (envSetJobDone envid)
    (fun _ k' => (k.jobAt (fun j => j.envid == envid) = none ∧ k' = k) ∨
      ∃ i, k.jobAt (fun j => j.envid == envid) = some i ∧ k' =
        { k with jobs := Function.update k.jobs i { k.jobs i with jobStatus := 0 } })
    (fun _ _ => False) k := by
  unfold envSetJobDone
  rw [wp_bind, wp_findJob]
  cases hj : k.jobAt fun j => j.envid == envid with
  | none => exact (wp_pure _).mpr (Or.inl ⟨rfl, rfl⟩)
  | some i =>
    dsimp only
    rw [wp_updJob]
    exact Or.inr ⟨i, rfl, rfl⟩

/-- `env_kill_job` destroys what lives in the slot of the entry, if it is runnable. -/
theorem envKillJob_table (k : Kernel) (jobId : Word) : wp (envKillJob jobId)
    (fun _ k' => ((∀ i, k.jobOf jobId = some i → (k.envs (k.jobSlot i)).envStatus ≠ .runnable) ∧ k' = k) ∨
      ∃ i, k.jobOf jobId = some i ∧ (k.envs (k.jobSlot i)).envStatus = .runnable ∧
        k.curenv ≠ some (k.jobSlot i) ∧ EnvsOnly (k.released (k.jobSlot i)) k' ∧
        k'.jobs = Function.update k.jobs i { k.jobs i with jobStatus := 0 } ∧ k'.jobCnt = k.jobCnt)
    (fun err k' => (err = .resched ∧ ∃ i, k.jobOf jobId = some i ∧
        (k.envs (k.jobSlot i)).envStatus = .runnable ∧ k.curenv = some (k.jobSlot i) ∧
        k'.jobs = k.jobs ∧ k'.jobCnt = k.jobCnt ∧
        ∃ k₀ c, EnvsOnly { k.released (k.jobSlot i) with curenv := none } k₀ ∧ Switched k₀ c k') ∨
      Halts err) k := by
  unfold envKillJob
  rw [wp_bind, wp_findJob]
  rw [show (k.jobAt fun j => j.jobId == jobId) = k.jobOf jobId from rfl]
  cases hj : k.jobOf jobId with
  | none => exact (wp_pure _).mpr (Or.inl ⟨(fun i hi => by cases hi), rfl⟩)
  | some i =>
    simp only [wp_bind, wp_get, wp_ite, wp_pure]
    refine ⟨fun hrun => ?_, fun hrun => Or.inl ⟨fun i' hi => ?_, trivial⟩⟩
    · refine wp_mono (wp_and (envDestroy_spec k _) (records_envDestroy _ k)) ?_ ?_
      · rintro _ _ ⟨⟨hne, m, asids, q, b, rfl⟩, -⟩
        rw [wp_updJob]
        exact Or.inr ⟨i, rfl, hrun, hne, ⟨rfl, rfl, rfl⟩, rfl, rfl⟩
      · rintro err k' ⟨hend, hrec, _⟩
        rcases hend with ⟨rfl, hc, m, asids, q, b, c, hs⟩ | herr
        · exact Or.inl ⟨rfl, i, rfl, hrun, hc, hrec.jobs, hrec.jobCnt, _, c,
            freed_gone k _ m asids q b, hs⟩
        · exact Or.inr herr
    · obtain rfl := Option.some.inj hi
      exact hrun

/-! ## Steps -/

/-- The entry that the call sets to Done. -/
def Call.finishes (k : Kernel) : Call → Option Nat
  | .step (.syscall f inp) =>
    match Syscall.ofFrame f inp with
    | some (.setJobDone envid) => k.jobAt fun j => j.envid == envid
    | some (.killJob jobId) =>
      (k.jobOf jobId).filter fun i =>
        (k.envs (k.jobSlot i)).envStatus = .runnable ∧ k.curenv ≠ some (k.jobSlot i)
    | _ => none
  | _ => none

/-- The entry that the call makes. -/
def Call.makes (k : Kernel) : Call → Option Job
  | .step (.syscall f inp) =>
    match Syscall.ofFrame f inp with
    | some (.createJob envid _) =>
      some { envid := envid, jobStatus := 1, cmd := inp.cmd, jobId := BitVec.ofNat 32 k.jobCnt + 1 }
    | _ => none
  | _ => none

/-- What a step does to the job table. -/
inductive Entered (k : Kernel) (c : Call) (k' : Kernel) : Prop where
  | same (finishes : c.finishes k = none) (makes : c.makes k = none) (jobs : k'.jobs = k.jobs)
      (cnt : k'.jobCnt = k.jobCnt)
  | done {i : Nat} (finishes : c.finishes k = some i) (lt : i < k.jobCnt) (makes : c.makes k = none)
      (jobs : k'.jobs = Function.update k.jobs i { k.jobs i with jobStatus := 0 })
      (cnt : k'.jobCnt = k.jobCnt)
  | made {j : Job} (finishes : c.finishes k = none) (makes : c.makes k = some j)
      (room : k.jobCnt < njobs) (fits : j.cmd.length < 1024)
      (jobs : k'.jobs = Function.update k.jobs k.jobCnt j) (cnt : k'.jobCnt = k.jobCnt + 1)

section

variable {f : Trapframe} {inp : Inputs}

theorem wp_seq_pure {x : K Unit} {Q : Kernel → Prop} {E : Stop → Kernel → Prop} (v : Word)
    (h : wp x (fun _ => Q) E k) :
    wp (do
      x
      pure v) (fun _ => Q) E k := by
  rw [wp_bind]
  exact wp_mono h (fun _ _ h => (wp_pure _).mpr h) (fun _ _ h => h)

theorem jobs_exofork (h : Ends inp .exofork (k.entered f) k') :
    k'.jobs = k.jobs ∧ k'.jobCnt = k.jobCnt := by
  rcases h.spec (sysExofork_spec (k.entered f)) with
    ⟨v, _, ⟨c, e, m, asids, pgdir, asid, hc, hhead, hv, rfl⟩, rfl⟩ | ⟨err, _, ⟨_, m, hk⟩, rfl⟩ |
    ⟨hf, _⟩ | ⟨_, ⟨hf, _⟩, _⟩
  · exact ⟨rfl, rfl⟩
  · rcases hk with rfl | ⟨e, pgdir, hhead, rfl⟩
    · exact ⟨rfl, rfl⟩
    · exact ⟨rfl, rfl⟩
  · exact absurd hf not_faults_resched
  · exact absurd hf not_faults_tlbMod

theorem entered_createJob {envid cmd : Word} (hcall : Syscall.ofFrame f inp = some (.createJob envid cmd))
    (h : Ends inp (.createJob envid cmd) (k.entered f) k') :
    Entered k (.step (.syscall f inp)) k' := by
  have hw := wp_seq_pure inp.v0 (envCreateJob_spec (k.entered f) envid inp.cmd)
  rcases h.spec hw with ⟨v, _, ⟨hroom, hfits, rfl⟩, rfl⟩ | ⟨err, _, hh, rfl⟩ | hh | ⟨_, hh, _⟩
  · refine .made ?_ ?_ hroom ?_ rfl rfl (j := ⟨_, _, _, _⟩)
    · simp only [Call.finishes, hcall]
    · simp only [Call.makes, hcall]
      rfl
    · exact hfits
  · exact hh.elim
  · exact hh.elim
  · exact hh.elim

theorem entered_setJobDone {envid : Word} (hcall : Syscall.ofFrame f inp = some (.setJobDone envid))
    (h : Ends inp (.setJobDone envid) (k.entered f) k') : Entered k (.step (.syscall f inp)) k' := by
  have hmakes : (Call.step (.syscall f inp)).makes k = none := by
    simp only [Call.makes, hcall]
  have hfinishes : (Call.step (.syscall f inp)).finishes k = k.jobAt fun j => j.envid == envid := by
    simp only [Call.finishes, hcall]
  have hw := wp_seq_pure inp.v0 (envSetJobDone_spec (k.entered f) envid)
  rcases h.spec hw with ⟨v, _, hk, rfl⟩ | ⟨err, _, hh, rfl⟩ | hh | ⟨_, hh, _⟩
  · rcases hk with ⟨hnone, rfl⟩ | ⟨i, hi, rfl⟩
    · exact .same (hfinishes.trans hnone) hmakes rfl rfl
    · exact .done (hfinishes.trans hi) (Kernel.jobAt_lt hi).1 hmakes rfl rfl
  · exact hh.elim
  · exact hh.elim
  · exact hh.elim

theorem entered_killJob {jobId : Word} (hcall : Syscall.ofFrame f inp = some (.killJob jobId))
    (h : Ends inp (.killJob jobId) (k.entered f) k') : Entered k (.step (.syscall f inp)) k' := by
  have hmakes : (Call.step (.syscall f inp)).makes k = none := by
    simp only [Call.makes, hcall]
  have hfinishes : (Call.step (.syscall f inp)).finishes k = (k.jobOf jobId).filter fun i =>
      (k.envs (k.jobSlot i)).envStatus = .runnable ∧ k.curenv ≠ some (k.jobSlot i) := by
    simp only [Call.finishes, hcall]
  have hw := wp_seq_pure inp.v0 (envKillJob_table (k.entered f) jobId)
  rcases h.spec hw with ⟨v, _, hk, rfl⟩ | ⟨err, _, ⟨hr, _⟩ | hh, rfl⟩ | hk | ⟨_, ⟨hr, _⟩ | hh, _⟩
  · rcases hk with ⟨hidle, rfl⟩ | ⟨i, hi, hrun, hc, -, hjobs, hcnt⟩
    · refine .same (hfinishes.trans (Option.filter_eq_none_iff.mpr fun i hi => ?_)) hmakes rfl rfl
      exact fun hp => hidle i hi (of_decide_eq_true hp).1
    · refine .done (hfinishes.trans (Option.filter_eq_some_iff.mpr ⟨hi, ?_⟩)) (Kernel.jobAt_lt hi).1
        hmakes hjobs hcnt
      exact decide_eq_true ⟨hrun, hc⟩
  · cases hr
  · exact hh.elim
  · rcases hk with ⟨-, i, hi, -, hc, hjobs, hcnt, -⟩ | hh
    · refine .same (hfinishes.trans (Option.filter_eq_none_iff.mpr fun i' hi' => ?_)) hmakes hjobs hcnt
      obtain rfl := Option.some.inj (hi.symm.trans hi')
      exact fun hp => (of_decide_eq_true hp).2 hc
    · exact hh.elim
  · cases hr
  · exact hh.elim

end

theorem entered_next {op : Op} (h : next op k = some k') : Entered k (.step op) k' := by
  by_cases hop : ∃ f inp, op = .syscall f inp
  · obtain ⟨f, inp, rfl⟩ := hop
    cases hcall : Syscall.ofFrame f inp with
    | none =>
      rw [unknown_next hcall h]
      exact .same (by simp only [Call.finishes, hcall]) (by simp only [Call.makes, hcall]) rfl rfl
    | some s =>
      have hends := doSyscall_ends hcall h
      have unchanged : s.writesRecords = false ∨ s = .exofork → k'.jobs = k.jobs →
          k'.jobCnt = k.jobCnt → Entered k (.step (.syscall f inp)) k' := by
        intro hs hjobs hcnt
        refine .same ?_ ?_ hjobs hcnt
        · simp only [Call.finishes, hcall]
          cases s <;> simp_all [Syscall.writesRecords]
        · simp only [Call.makes, hcall]
          cases s <;> simp_all [Syscall.writesRecords]
      cases hw : s.writesRecords with
      | false =>
        have hsame := hends.keeps (records_run inp hw)
        exact unchanged (Or.inl hw) hsame.jobs hsame.jobCnt
      | true =>
        cases s with
        | exofork =>
          obtain ⟨hjobs, hcnt⟩ := jobs_exofork hends
          exact unchanged (Or.inr rfl) hjobs hcnt
        | createJob envid cmd => exact entered_createJob hcall hends
        | setJobDone envid => exact entered_setJobDone hcall hends
        | killJob jobId => exact entered_killJob hcall hends
        | _ => cases hw
  · have hsame := other_records (fun f inp h => hop ⟨f, inp, h⟩) h
    refine .same ?_ ?_ hsame.jobs hsame.jobCnt
    · cases op with
      | syscall f inp => exact absurd ⟨f, inp, rfl⟩ hop
      | _ => rfl
    · cases op with
      | syscall f inp => exact absurd ⟨f, inp, rfl⟩ hop
      | _ => rfl

theorem envCreate_jobs (k : Kernel) (image : Image) (priority : Word) : wp (envCreate image priority)
    (fun _ k' => k'.jobs = k.jobs ∧ k'.jobCnt = k.jobCnt) (fun _ _ => True) k := by
  unfold envCreate loadIcode
  rw [wp_bind, wp_mapStop]
  refine wp_mono (envAlloc_spec k 0) ?_ (fun _ _ _ => trivial)
  rintro e _ ⟨he, m, asids, pgdir, asid, rfl⟩
  simp only [wp_bind, wp_updEnv, wp_get]
  refine wp_onMem_any (fun _ m' => ?_) (fun _ _ => trivial)
  unfold schedInsertHead
  rw [wp_modify, wp_pure]
  exact ⟨rfl, rfl⟩

theorem entered_call {c : Call} (hs : afterEnvInit.next c k = some k') : Entered k c k' := by
  cases c with
  | create image priority =>
    simp only [afterEnvInit, Call.next] at hs
    split at hs
    case h_1 e k₁ hx =>
      obtain rfl := Option.some.inj hs
      have hw := envCreate_jobs k image priority
      obtain ⟨hjobs, hcnt⟩ := (wp_run_ok hw hx :)
      exact .same rfl rfl hjobs hcnt
    case h_2 => cases hs
  | step op => exact entered_next hs

theorem jobs_call {c : Call} (hs : afterEnvInit.next c k = some k') :
    (k'.jobCnt = k.jobCnt ∧ ∀ i, (k'.jobs i).envid = (k.jobs i).envid) ∨
      (k'.jobCnt = k.jobCnt + 1 ∧ ∀ i, i ≠ k.jobCnt → k'.jobs i = k.jobs i) := by
  cases entered_call hs with
  | same _ _ jobs cnt => exact Or.inl ⟨cnt, fun i => by rw [jobs]⟩
  | @done d _ _ _ jobs cnt =>
    refine Or.inl ⟨cnt, fun i => ?_⟩
    rw [jobs]
    rcases eq_or_ne i d with rfl | hi
    · simp
    · simp [hi]
  | made _ _ _ _ jobs cnt => exact Or.inr ⟨cnt, fun i hi => by simp [jobs, hi]⟩

/-! ## Destruction -/

/-- The step destroys the environment in slot `x`, by `sys_env_destroy` or by `sys_kill_job`. -/
inductive Destroys (k : Kernel) (op : Op) (x : EnvIx) : Prop where
  | call {f : Trapframe} {inp : Inputs} {envid : Word} (op_eq : op = .syscall f inp)
      (call : Syscall.ofFrame f inp = some (.envDestroy envid)) (target : target k envid true = some x)
  | kill {f : Trapframe} {inp : Inputs} {jobId : Word} {i : Nat} (op_eq : op = .syscall f inp)
      (call : Syscall.ofFrame f inp = some (.killJob jobId)) (found : k.jobOf jobId = some i)
      (runnable : (k.envs (k.jobSlot i)).envStatus = .runnable) (slot : x = k.jobSlot i)

section

variable (hlive : (k.envs x).envStatus ≠ .free) (hgone : (k'.envs x).envStatus = .free)

include hlive hgone

theorem slot_of_released (henvs : k'.envs = (k.released e).envs) : x = e := by
  by_contra hx
  rw [henvs] at hgone
  simp only [Kernel.released, Kernel.setEnv_envs, Function.update_of_ne hx] at hgone
  exact hlive hgone

theorem slot_of_gone {k₀ : Kernel} {c : EnvIx}
    (hstate : EnvsOnly { k.released e with curenv := none } k₀) (hs : Switched k₀ c k') : x = e := by
  have hgone₀ : (k₀.envs x).envStatus = .free := by
    rw [hs.envs] at hgone
    exact hgone
  exact slot_of_released hlive hgone₀ hstate.envs

theorem not_gone_of_envs (henvs : k'.envs = k.envs) : False := by
  rw [henvs] at hgone
  exact hlive hgone

theorem not_gone_of_switched {k₀ : Kernel} {c : EnvIx} (hsame : EnvsOnly k k₀)
    (hs : Switched k₀ c k') : False := by
  have hgone₀ : (k₀.envs x).envStatus = .free := by
    rw [hs.envs] at hgone
    exact hgone
  exact not_gone_of_envs hlive hgone₀ hsame.envs

theorem not_gone_of_setEnv {f : Env → Env} (henvs : k'.envs = (k.setEnv e f).envs)
    (hf : (f (k.envs e)).envStatus ≠ .free) : False := by
  rw [henvs, Kernel.setEnv_envs] at hgone
  rcases eq_or_ne x e with rfl | hx
  · rw [Function.update_self] at hgone
    exact hf hgone
  · rw [Function.update_of_ne hx] at hgone
    exact hlive hgone

/-- Of the other calls only `sys_env_destroy` destroys. -/
theorem effect_gone {inp : Inputs} {s : Syscall} (h : SlotInv k) (he : Effect k inp s k')
    (hkill : ∀ jobId, s ≠ .killJob jobId) :
    ∃ envid, s = .envDestroy envid ∧ target k envid true = some x := by
  have waits : ∀ {c f}, Waits k c f k' → False := by
    intro c f hw
    obtain ⟨k₀, e, hsame, hs⟩ := hw.switched
    have hgone₀ : (k₀.envs x).envStatus = .free := by
      rw [hs.envs] at hgone
      exact hgone
    exact not_gone_of_setEnv hlive hgone₀ hsame.envs (by simp)
  cases he with
  | kill | killSelf => exact absurd rfl (hkill _)
  | quiet _ same | refused same _ | refusedReturn same _ _ =>
    exact (not_gone_of_envs hlive hgone same.envs).elim
  | yield same switched => exact (not_gone_of_switched hlive hgone same switched).elim
  | setTlbModEntry target state | setFrame _ target _ state =>
    exact (not_gone_of_setEnv hlive hgone state.envs (h.target_live target)).elim
  | setStatus known target state =>
    refine (not_gone_of_setEnv hlive hgone state.envs ?_).elim
    unfold toStatus at known
    split_ifs at known
    · simp [← Option.some.inj known]
    · simp [← Option.some.inj known]
  | @fork c e pgdir asid id _ cur head slot value state =>
    exact (not_gone_of_setEnv (f := fun env => (env.alloc pgdir asid id (k.envs c).envId).fork
      (k.envs c) k.kstack) hlive hgone state.envs (by simp [Env.fork])).elim
  | @forkFails e pgdir _ head state =>
    have hfree := h.free_status e (List.mem_of_head? head)
    have hx : x ≠ e := by
      rintro rfl
      exact hlive hfree
    rw [state.envs] at hgone
    simp only [Kernel.setEnv_envs, Function.update_of_ne hx] at hgone
    exact absurd hgone hlive
  | destroy target other state =>
    have hx := slot_of_released hlive hgone state.envs
    exact ⟨_, rfl, hx ▸ target⟩
  | destroySelf target cur state switched =>
    have hx := slot_of_gone hlive hgone state switched
    exact ⟨_, rfl, hx ▸ target⟩
  | recv _ hw | recvReturn hw => exact (waits hw).elim
  | send sent | sendReturn sent =>
    exact (not_gone_of_setEnv hlive hgone sent.state.envs (by simp)).elim

/-- Only these two calls destroy. -/
theorem destroys_of_gone {op : Op} (h : SlotInv k) (hs : next op k = some k') : Destroys k op x := by
  by_cases hop : ∃ f inp, op = .syscall f inp
  case neg =>
    exfalso
    rcases other_next (fun f inp h => hop ⟨f, inp, h⟩) hs with hsame | ⟨k₀, c, hsame, hsw⟩
    · exact not_gone_of_envs hlive hgone hsame.envs
    · exact not_gone_of_switched hlive hgone hsame hsw
  obtain ⟨f, inp, rfl⟩ := hop
  cases hcall : Syscall.ofFrame f inp with
  | none =>
    rw [unknown_next hcall hs] at hgone
    exact absurd hgone hlive
  | some s =>
    have hends := doSyscall_ends hcall hs
    have hent : SlotInv (k.entered f) := h.congr (entered_envsOnly k f)
    by_cases hkill : ∃ jobId, s = .killJob jobId
    · obtain ⟨jobId, rfl⟩ := hkill
      have hw := wp_seq_pure inp.v0 (envKillJob_table (k.entered f) jobId)
      rcases hends.spec hw with ⟨v, _, hk, rfl⟩ | ⟨err, _, ⟨hr, _⟩ | hh, rfl⟩ | hk | ⟨_, ⟨hr, _⟩ | hh, _⟩
      · rcases hk with ⟨-, rfl⟩ | ⟨i, hi, hrun, hc, hstate, -⟩
        · exact absurd hgone hlive
        · exact .kill rfl hcall hi hrun (slot_of_released hlive hgone hstate.envs)
      · cases hr
      · exact hh.elim
      · rcases hk with ⟨-, i, hi, hrun, -, -, -, k₀, c, hstate, hsw⟩ | hh
        · exact .kill rfl hcall hi hrun (slot_of_gone (k := k) hlive hgone ⟨hstate.envs, hstate.cur,
            hstate.free⟩ hsw)
        · exact hh.elim
      · cases hr
      · exact hh.elim
    · obtain ⟨envid, rfl, htarget⟩ := effect_gone (k := k.entered f) hlive hgone hent
        (effect_of_ends hends) (fun jobId h => hkill ⟨jobId, h⟩)
      exact .call rfl hcall (by rwa [target_entered] at htarget)

end

end Mos
