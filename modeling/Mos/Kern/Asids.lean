import Mos.Lib.Tokens
import Mos.Mem.Syscalls

/-!
# ASIDs and slots

`asid_bitmap`, `env_free_list` and the status of the environments change in different functions.
Every ASID is a token that `env_alloc` gives to a slot of the list and that `env_free` takes back.
-/

namespace Mos

open Lib (Tokens FreeSlots Keeps keeps_get keeps_pure keeps_throw keeps_modify wp wp_bind wp_get
  wp_modify wp_pure wp_throw wp_ite wp_mono wp_and wp_mapStop wp_run_ok wp_run_error)

variable {k k₀ k₁ k' : Kernel} {e c x : EnvIx} {F : Stop → Prop}

/-- The ASID of an environment that lives. -/
def Kernel.asidOf (k : Kernel) (e : EnvIx) : Option Nat :=
  if (k.envs e).envStatus = .free then none else some (k.envs e).envAsid

theorem asidOf_eq_none : k.asidOf e = none ↔ (k.envs e).envStatus = .free := by
  unfold Kernel.asidOf
  split <;> simp_all

theorem asidOf_eq_some {i : Nat} :
    k.asidOf e = some i ↔ (k.envs e).envStatus ≠ .free ∧ (k.envs e).envAsid = i := by
  unfold Kernel.asidOf
  split <;> simp_all

theorem asidOf_live (he : (k.envs e).envStatus ≠ .free) :
    k.asidOf e = some (k.envs e).envAsid := if_neg he

structure AsidInv (k : Kernel) : Prop where
  tokens : Tokens k.asidOf k.asidBitmap
  slots : FreeSlots k.asidOf k.envFreeList
  lt : ∀ e i, k.asidOf e = some i → i < nasid

namespace AsidInv

theorem congr (h : AsidInv k) (hasid : k'.asidOf = k.asidOf) (hmap : k'.asidBitmap = k.asidBitmap)
    (hfree : k'.envFreeList = k.envFreeList) : AsidInv k' := by
  constructor
  · rw [hasid, hmap]
    exact h.tokens
  · rw [hasid, hfree]
    exact h.slots
  · rw [hasid]
    exact h.lt

theorem congr_envs (h : AsidInv k) (hs : EnvsOnly k k') (hmap : k'.asidBitmap = k.asidBitmap) :
    AsidInv k' := by
  refine h.congr (funext fun x => ?_) hmap hs.free
  unfold Kernel.asidOf
  rw [hs.envs]

theorem head_free (h : AsidInv k) (he : k.envFreeList.head? = some e) :
    (k.envs e).envStatus = .free :=
  asidOf_eq_none.mp ((h.slots.mem e).mp (List.mem_of_head? he))

end AsidInv

/-! ## Environments that stay in their slots -/

theorem asidOf_setEnv {f : Env → Env} (hst : (f (k.envs e)).envStatus = .free ↔
      (k.envs e).envStatus = .free)
    (has : (f (k.envs e)).envAsid = (k.envs e).envAsid) : (k.setEnv e f).asidOf = k.asidOf := by
  funext x
  unfold Kernel.asidOf
  rw [Kernel.setEnv_envs]
  rcases eq_or_ne x e with rfl | hx
  · simp only [Function.update_self, hst, has]
  · rw [Function.update_of_ne hx]

theorem asidOf_switched (hs : Switched k e k') : k'.asidOf = k.asidOf := by
  funext x
  unfold Kernel.asidOf
  rw [hs.envs]
  rfl

theorem asidOf_envs (henvs : k'.envs = k.envs) : k'.asidOf = k.asidOf := by
  funext x
  unfold Kernel.asidOf
  rw [henvs]

theorem asidOf_waits {f : Env → Env} (hc : (k.envs c).envStatus ≠ .free) (hw : Waits k c f k')
    (has : ∀ env, (f env).envAsid = env.envAsid) :
    k'.asidOf = k.asidOf ∧ k'.envFreeList = k.envFreeList := by
  obtain ⟨k₀, e, hsame, hs⟩ := hw.switched
  refine ⟨?_, hs.free.trans hsame.free⟩
  rw [asidOf_switched hs, asidOf_envs hsame.envs]
  exact asidOf_setEnv (iff_of_false (by simp) hc) (has _)

theorem asidOf_delivered {envid srcva : Word} {waiting : Env → Bool} {deliver : Word → Env → Env}
    {ok : Bool} (he : (k.envs e).envStatus ≠ .free)
    (hd : Delivered k envid srcva waiting deliver ok c e k')
    (has : ∀ sender env, (deliver sender env).envAsid = env.envAsid) :
    k'.asidOf = k.asidOf ∧ k'.envFreeList = k.envFreeList := by
  refine ⟨?_, hd.state.free⟩
  rw [asidOf_envs hd.state.envs]
  exact asidOf_setEnv (iff_of_false (by simp) he) (has _ _)

/-- The calls that take a slot or give one back. -/
def Syscall.movesSlots : Syscall → Bool
  | .exofork | .envDestroy _ | .killJob _ => true
  | _ => false

theorem asidOf_effect {inp : Inputs} {s : Syscall} (h : SlotInv k) (hs : s.movesSlots = false)
    (he : Effect k inp s k') : k'.asidOf = k.asidOf ∧ k'.envFreeList = k.envFreeList := by
  have live : ∀ {envid checkperm e}, target k envid checkperm = some e →
      (k.envs e).envStatus ≠ .free := h.target_live
  have record : ∀ {e f}, EnvsOnly (k.setEnv e f) k' →
      ((f (k.envs e)).envStatus = .free ↔ (k.envs e).envStatus = .free) →
      (f (k.envs e)).envAsid = (k.envs e).envAsid →
      k'.asidOf = k.asidOf ∧ k'.envFreeList = k.envFreeList := fun hst hf ha =>
    ⟨(asidOf_envs hst.envs).trans (asidOf_setEnv hf ha), hst.free⟩
  cases he with
  | fork | forkFails | destroy | destroySelf | kill | killSelf => cases hs
  | quiet _ same | refused same _ | refusedReturn same _ _ =>
    exact ⟨asidOf_envs same.envs, same.free⟩
  | yield same switched =>
    exact ⟨(asidOf_switched switched).trans (asidOf_envs same.envs), switched.free.trans same.free⟩
  | setTlbModEntry target state => exact record state Iff.rfl rfl
  | setFrame legal target other state => exact record state Iff.rfl rfl
  | setStatus known target state =>
    refine record state (iff_of_false ?_ (live target)) rfl
    unfold toStatus at known
    split_ifs at known
    · simp [← Option.some.inj known]
    · simp [← Option.some.inj known]
  | recv legal waits => exact asidOf_waits (h.cur_live _ waits.cur) waits fun _ => rfl
  | recvReturn waits => exact asidOf_waits (h.cur_live _ waits.cur) waits fun _ => rfl
  | send sent => exact asidOf_delivered (live sent.target) sent fun _ _ => rfl
  | sendReturn sent => exact asidOf_delivered (live sent.target) sent fun _ _ => rfl

/-! ## Functions that leave `asid_bitmap` alone -/

instance : RegFree SameAsids where
  setMem _ _ := ⟨rfl⟩
  setJobs _ _ _ := ⟨rfl⟩
  setRegs _ _ _ := ⟨rfl⟩

theorem asids_updEnv (e : EnvIx) (f : Env → Env) : Keeps SameAsids F (updEnv e f) :=
  keeps_modify fun _ => ⟨rfl⟩

theorem asids_any {α : Type} {x : K α} (hx : Keeps SameAsids F x) :
    Keeps SameAsids (fun _ => True) x := hx.mono (fun _ _ h => h) fun _ _ => trivial

theorem asids_blockCurenv : Keeps SameAsids (fun _ => True) blockCurenv := by
  unfold blockCurenv
  refine (asids_any keeps_curenvPtr).bind fun c => (asids_updEnv _ _).bind fun _ => ?_
  refine (asids_any (keeps_schedRemove _)).bind fun _ => (keeps_setKstackReg _ _).bind fun _ => ?_
  exact (asids_schedule _).bind fun _ => keeps_pure _

theorem asids_send {waiting : Env → Bool} {deliver : Word → Env → Env} (envid srcva perm : Word) :
    Keeps SameAsids (fun _ => True) (send waiting deliver envid srcva perm) := by
  unfold send wakeAndMap
  refine Keeps.guard trivial ((asids_any (keeps_envid2env _ _)).bind fun e => keeps_get.bind fun _ =>
    Keeps.guard trivial ((asids_any keeps_curenvPtr).bind fun c => keeps_get.bind fun _ => ?_))
  refine (asids_updEnv _ _).bind fun _ => (asids_updEnv _ _).bind fun _ =>
    (keeps_schedInsertTail _).bind fun _ => Keeps.ite ?_ (keeps_pure _)
  exact (asids_any (keeps_mapSent _ _ _)).bind fun _ => keeps_pure _

theorem asids_setEnvStatus (envid status : Word) :
    Keeps SameAsids (fun _ => True) (sysSetEnvStatus envid status) := by
  unfold sysSetEnvStatus
  split
  · exact asids_stop _
  · have finish : ∀ e f, Keeps SameAsids (fun _ => True) (do
        updEnv e f
        pure 0 : K Word) := fun e f => (asids_updEnv e f).bind fun _ => keeps_pure _
    refine (asids_any (keeps_envid2env _ _)).bind fun e => keeps_get.bind fun _ => Keeps.ite ?_ ?_
    · exact Keeps.ite ((keeps_schedInsertTail _).bind fun _ => finish _ _)
        ((asids_any (keeps_schedRemove _)).bind fun _ => finish _ _)
    · exact finish _ _

theorem asids_setTrapframe (envid tf : Word) (content : Trapframe) :
    Keeps SameAsids (fun _ => True) (sysSetTrapframe envid tf content) := by
  unfold sysSetTrapframe
  refine Keeps.guard trivial ((asids_any (keeps_envid2env _ _)).bind fun e => keeps_get.bind fun _ => ?_)
  refine Keeps.ite ?_ ((asids_updEnv _ _).bind fun _ => keeps_pure _)
  exact (keeps_modify fun _ => ⟨rfl⟩).bind fun _ => keeps_pure _

theorem asids_call (inp : Inputs) {s : Syscall} (hs : s.movesSlots = false) :
    Keeps SameAsids (fun _ => True) (s.run inp) := by
  cases s with
  | putchar | cgetc | printJobs => exact keeps_pure _
  | printCons s num => exact asids_any (keeps_sysPrintCons _ _)
  | getenvid => exact asids_any keeps_sysGetenvid
  | yield => exact (asids_schedule _).bind fun _ => keeps_pure _
  | envDestroy | exofork | killJob => cases hs
  | setTlbModEntry envid func =>
    exact (asids_any (keeps_envid2env _ _)).bind fun _ => (asids_updEnv _ _).bind fun _ => keeps_pure _
  | memAlloc envid va perm => exact asids_any (keeps_sysMemAlloc _ _ _)
  | memMap srcid srcva dstid dstva perm => exact asids_any (keeps_sysMemMap _ _ _ _ _)
  | memUnmap envid va => exact asids_any (keeps_sysMemUnmap _ _)
  | setEnvStatus envid status => exact asids_setEnvStatus _ _
  | setTrapframe envid tf => exact asids_setTrapframe _ _ _
  | panic msg => exact asids_stop _
  | ipcTrySend envid value srcva perm =>
    unfold Syscall.run sysIpcTrySend
    exact asids_send _ _ _
  | ipcRecv dstva =>
    exact Keeps.guard trivial ((asids_any keeps_curenvPtr).bind fun _ => (asids_updEnv _ _).bind fun _ =>
      (asids_updEnv _ _).bind fun _ => asids_blockCurenv)
  | writeDev va pa len => exact asids_any (keeps_sysWriteDev _ _ _)
  | readDev va pa len => exact asids_any (keeps_sysReadDev _ _ _ _)
  | createJob envid cmd => exact (asids_any (keeps_envCreateJob _ _)).bind fun _ => keeps_pure _
  | setJobDone envid => exact (keeps_envSetJobDone _).bind fun _ => keeps_pure _
  | fgJob envid => exact keeps_envFgJob _
  | sendReturnValue envid value srcva perm =>
    unfold Syscall.run sysSendReturnValue
    exact asids_send _ _ _
  | recvReturnValue =>
    exact (asids_any keeps_curenvPtr).bind fun _ => (asids_updEnv _ _).bind fun _ => asids_blockCurenv

/-- Every other step. -/
theorem asids_body {op : Op} (hop : ∀ f inp, op ≠ .syscall f inp) :
    Keeps SameAsids (fun _ => True) op.body := by
  cases op with
  | start => exact asids_schedule _
  | syscall f inp => exact absurd rfl (hop f inp)
  | timer f => exact (keeps_enterKernel _).bind fun _ => asids_schedule _
  | tlbRefill f va =>
    exact (keeps_enterKernel _).bind fun _ => keeps_get.bind fun _ =>
      (asids_any (keeps_onMem _)).bind fun _ => keeps_leaveKernel
  | tlbMod f va inp =>
    refine (keeps_enterKernel _).bind fun _ => keeps_get.bind fun _ =>
      (asids_any (keeps_doTlbMod _)).bind fun _ => Keeps.bind ?_ fun _ => keeps_leaveKernel
    exact keeps_modify fun _ => ⟨rfl⟩
  | store va w =>
    refine keeps_get.bind fun _ => (asids_any (keeps_onMem _)).bind fun r => ?_
    rcases r with _ | pp
    · exact asids_stop _
    · exact asids_any (keeps_onMem _)
  | tlbEvict i => exact asids_any (keeps_onMem _)

/-! ## A slot is taken -/

/-- `env_alloc` has filled the head of `env_free_list`. -/
structure Given (k : Kernel) (e : EnvIx) (k' : Kernel) : Prop where
  head : k.envFreeList.head? = some e
  asid : ∃ a, a < nasid ∧ k.asidBitmap a = false ∧
    k'.asidBitmap = Function.update k.asidBitmap a true ∧ (k'.envs e).envAsid = a
  others : ∀ x, x ≠ e → k'.envs x = k.envs x
  free : k'.envFreeList = k.envFreeList.erase e

namespace Given

theorem setEnv {f : Env → Env} (h : Given k e k')
    (hf : (f (k'.envs e)).envAsid = (k'.envs e).envAsid) : Given k e (k'.setEnv e f) := by
  obtain ⟨a, ha, hclear, hmap, hasid⟩ := h.asid
  refine ⟨h.head, ⟨a, ha, hclear, hmap, ?_⟩, fun x hx => ?_, h.free⟩
  · rw [Kernel.setEnv_envs, Function.update_self, hf, hasid]
  · rw [Kernel.setEnv_envs, Function.update_of_ne hx, h.others x hx]

theorem congr (h : Given k e k₁) (hs : EnvsOnly k₁ k') (hmap : SameAsids k₁ k') :
    Given k e k' := by
  obtain ⟨a, ha, hclear, hmap₁, hasid⟩ := h.asid
  refine ⟨h.head, ⟨a, ha, hclear, hmap.asids.trans hmap₁, ?_⟩, fun x hx => ?_, hs.free.trans h.free⟩
  · rw [hs.envs, hasid]
  · rw [hs.envs, h.others x hx]

theorem setMem (h : Given k e k') (m : Mem) : Given k e (k'.setMem m) :=
  h.congr ⟨rfl, rfl, rfl⟩ ⟨rfl⟩

/-- When the status says that the environment lives, the ASID is its own. -/
theorem inv (h : AsidInv k) (hg : Given k e k') (hlive : (k'.envs e).envStatus ≠ .free) :
    AsidInv k' := by
  obtain ⟨a, ha, hclear, hmap, hasid⟩ := hg.asid
  have hgone : k.asidOf e = none := asidOf_eq_none.mpr (h.head_free hg.head)
  have hof : k'.asidOf = Function.update k.asidOf e (some a) := by
    funext x
    rcases eq_or_ne x e with rfl | hx
    · rw [Function.update_self, asidOf_live hlive, hasid]
    · rw [Function.update_of_ne hx]
      unfold Kernel.asidOf
      rw [hg.others x hx]
  constructor
  · rw [hof, hmap]
    exact h.tokens.give hgone hclear
  · rw [hof, hg.free]
    exact h.slots.take a
  · intro x i hx
    rw [hof] at hx
    rcases eq_or_ne x e with rfl | hxe
    · rw [Function.update_self] at hx
      rwa [← Option.some.inj hx]
    · rw [Function.update_of_ne hxe] at hx
      exact h.lt x i hx

end Given

theorem envAlloc_given (h : AsidInv k) (parentId : Word) : wp (envAlloc parentId)
    (fun e k' => Given k e k') (fun _ => AsidInv) k := by
  unfold envAlloc
  rw [wp_bind, wp_get]
  cases hf : k.envFreeList with
  | nil => exact (wp_throw _).mpr h
  | cons e rest =>
    have hgone : (k.envs e).envStatus = .free := h.head_free (by rw [hf]; rfl)
    unfold envSetup
    simp only [wp_bind]
    refine wp_mono (envSetupVm_spec k e) ?_ ?_
    · rintro _ _ ⟨m, pgdir, rfl⟩
      rw [wp_updEnv]
      refine wp_mono (asidAlloc_spec _) ?_ ?_
      · rintro a _ ⟨ha, hclear, rfl⟩
        unfold mkenvid
        simp only [wp_bind, wp_updEnv, wp_modify, wp_get, wp_pure]
        refine ⟨by rw [hf]; rfl, ⟨a, ha, hclear, rfl, ?_⟩, fun x hx => ?_, rfl⟩
        · simp [Kernel.setEnv]
        · simp [Kernel.setEnv, Kernel.setMem, hx]
      -- Without an ASID the slot stays in the list.
      · rintro err _ ⟨rfl, rfl⟩
        rw [setEnv_setEnv]
        exact h.congr (asidOf_setEnv (k := k.setMem m) Iff.rfl rfl) rfl rfl
    · rintro err _ ⟨-, m, rfl⟩
      exact h.congr rfl rfl rfl

theorem asid_exofork (h : AsidInv k) : Always AsidInv sysExofork k := by
  unfold Always sysExofork
  rw [wp_bind]
  refine wp_curenvPtr (fun c _ => ?_) (fun _ => h)
  rw [wp_bind, wp_get, wp_bind]
  refine wp_mono (envAlloc_given h _) ?_ (fun _ _ h => h)
  intro e k₁ hg
  simp only [wp_bind, wp_get, wp_updEnv, wp_pure]
  rw [setEnv_setEnv, setEnv_setEnv, setEnv_setEnv]
  exact Given.inv h (hg.setEnv rfl) (by simp)

theorem asid_envCreate (h : AsidInv k) (image : Image) (priority : Word) :
    wp (envCreate image priority) (fun _ => AsidInv) (fun _ _ => True) k := by
  unfold envCreate loadIcode
  rw [wp_bind, wp_mapStop]
  refine wp_mono (envAlloc_given h 0) ?_ (fun _ _ _ => trivial)
  intro e k₁ hg
  simp only [wp_bind, wp_updEnv, wp_get]
  rw [setEnv_setEnv]
  refine wp_onMem_any (fun _ m => ?_) (fun _ _ => trivial)
  unfold schedInsertHead
  rw [wp_modify, wp_pure]
  have hnew := ((hg.setEnv (f := fun env => { env with envPri := priority }) rfl).setEnv
    (f := fun env => { env with envStatus := .runnable }) rfl).setMem m
  rw [setEnv_setEnv] at hnew
  have hloaded := hnew.setEnv
    (f := fun env => { env with envTf := { env.envTf with cp0Epc := image.entry } }) rfl
  refine Given.inv h (hloaded.congr ⟨rfl, rfl, rfl⟩ ⟨rfl⟩) ?_
  simp [Kernel.setEnv, Kernel.setMem]

/-! ## A slot is given back -/

theorem AsidInv.switched (h : AsidInv k) (hs : Switched k e k') (hmap : SameAsids k k') :
    AsidInv k' := h.congr (asidOf_switched hs) hmap.asids hs.free

theorem asid_schedule (h : AsidInv k) (yield : Bool) : wp (schedule yield) (fun _ _ => False)
    (fun err k' => Halts err ∨ AsidInv k') k := by
  refine wp_mono (wp_and (schedule_spec k yield) (asids_schedule yield k)) (fun _ _ h => h.1) ?_
  rintro err k' ⟨⟨_, e, hs⟩ | hh, hmap, -⟩
  · exact Or.inr (h.switched hs hmap)
  · exact Or.inl hh

theorem asid_envFree (h : AsidInv k) (he : (k.envs e).envStatus ≠ .free) :
    wp (envFree e) (fun _ => AsidInv) (fun err _ => Halts err) k := by
  have hasid := asidOf_live he
  unfold envFree envRelease
  simp only [wp_bind, wp_get]
  refine wp_onMem_unfailing (unfailing_envFreeVm _ _) fun _ m => ?_
  rw [wp_asidFree]
  refine wp_onMem_unfailing (unfailing_modify _) fun _ m => ?_
  rw [wp_updEnv, wp_modify]
  refine wp_mono (schedRemove_spec _ e) ?_ (fun _ _ h => h)
  rintro _ _ ⟨q, b, rfl⟩
  have hof : ∀ {k' : Kernel}, k'.envs = Function.update k.envs e
      { k.envs e with envStatus := .free } → k'.asidOf = Function.update k.asidOf e none := by
    intro k' henvs
    funext x
    unfold Kernel.asidOf
    rw [henvs]
    rcases eq_or_ne x e with rfl | hx
    · rw [Function.update_self, Function.update_self, if_pos rfl]
    · rw [Function.update_of_ne hx, Function.update_of_ne hx]
  constructor
  · rw [hof rfl]
    exact h.tokens.handBack hasid
  · rw [hof rfl]
    exact h.slots.put hasid
  · rw [hof rfl]
    intro x i hx
    rcases eq_or_ne x e with rfl | hxe
    · rw [Function.update_self] at hx
      cases hx
    · rw [Function.update_of_ne hxe] at hx
      exact h.lt x i hx

theorem asid_envDestroy (h : AsidInv k) (he : (k.envs e).envStatus ≠ .free) :
    wp (envDestroy e) (fun _ => AsidInv) (fun err k' => Halts err ∨ AsidInv k') k := by
  unfold envDestroy
  rw [wp_bind]
  refine wp_mono (asid_envFree h he) ?_ (fun _ _ hh => Or.inl hh)
  intro _ k₁ h₁
  simp only [wp_bind, wp_get, wp_ite, wp_modify, wp_pure]
  refine ⟨fun _ => ?_, fun _ => h₁⟩
  have hgone : AsidInv { k₁ with curenv := none } := h₁.congr rfl rfl rfl
  exact wp_mono (asid_schedule hgone true) (fun _ _ hf => False.elim hf) (fun _ _ h₂ => h₂)

theorem asid_killJob (h : AsidInv k) (jobId : Word) : wp (envKillJob jobId) (fun _ => AsidInv)
    (fun err k' => Halts err ∨ AsidInv k') k := by
  unfold envKillJob findJob
  simp only [wp_bind, wp_get, wp_pure]
  split
  case h_2 => exact (wp_pure _).mpr h
  case h_1 i _ =>
    simp only [wp_bind, wp_get, wp_ite, wp_pure]
    refine ⟨fun hrun => ?_, fun _ => h⟩
    refine wp_mono (asid_envDestroy h (by rw [hrun]; simp)) (fun _ k₁ h₁ => ?_) (fun _ _ h => h)
    rw [wp_updJob]
    exact h₁.congr rfl rfl rfl

/-! ## Steps -/

theorem asid_call (h : AsidInv k) (hslot : SlotInv k) (inp : Inputs) {s : Syscall}
    (hs : s.movesSlots = true) :
    wp (s.run inp) (fun _ => AsidInv) (fun err k' => Halts err ∨ AsidInv k') k := by
  cases s with
  | exofork => exact wp_mono (asid_exofork h) (fun _ _ h => h) (fun _ _ h => Or.inr h)
  | envDestroy envid =>
    unfold Syscall.run sysEnvDestroy
    rw [wp_bind]
    refine wp_envid2env (fun e he => ?_) (fun _ _ => Or.inr h)
    rw [wp_bind]
    exact wp_mono (asid_envDestroy h (hslot.target_live he)) (fun _ _ h₁ => (wp_pure _).mpr h₁)
      (fun _ _ h => h)
  | killJob jobId =>
    unfold Syscall.run
    rw [wp_bind]
    exact wp_mono (asid_killJob h jobId) (fun _ _ h₁ => (wp_pure _).mpr h₁) (fun _ _ h => h)
  | _ => cases hs

theorem asid_nested {kregs : Trapframe} (h : AsidInv k)
    (hx : nestedTlbMod kregs k = .error .resched k') : AsidInv k' := by
  have hmap : SameAsids k k' := (wp_run_error (keeps_nestedTlbMod kregs k) hx).1
  exact h.congr_envs (nested_envsOnly hx) hmap.asids

theorem Ends.rule {I : Kernel → Prop} {inp : Inputs} {s : Syscall} (he : Ends inp s k k')
    (hs : wp (s.run inp) (fun _ => I) (fun err k' => Halts err ∨ I k') k)
    (hreturned : ∀ k v, I k → I (k.returned v))
    (hnested : ∀ k k' kregs, I k → nestedTlbMod kregs k = .error .resched k' → I k') : I k' := by
  cases he with
  | value v k₁ run eq =>
    rw [eq]
    exact hreturned _ _ (wp_run_ok hs run :)
  | errno err k₁ run eq =>
    rw [eq]
    exact hreturned _ _ ((wp_run_error hs run :).resolve_left id)
  | resched run => exact (wp_run_error hs run :).resolve_left id
  | nested k₁ run handler =>
    exact hnested _ _ _ ((wp_run_error hs run :).resolve_left id) handler

theorem asid_ends {inp : Inputs} {s : Syscall} (h : AsidInv k) (hslot : SlotInv k)
    (he : Ends inp s k k') : AsidInv k' := by
  by_cases hs : s.movesSlots = true
  · refine he.rule (asid_call h hslot inp hs) (fun _ _ h₁ => h₁.congr rfl rfl rfl) ?_
    exact fun _ _ _ h₁ hx => asid_nested h₁ hx
  · have hs := (Bool.not_eq_true _).mp hs
    obtain ⟨hof, hfree⟩ := asidOf_effect hslot hs (effect_of_ends he)
    have hmap : SameAsids k k' := by
      refine he.rule (wp_mono (asids_call inp hs k) (fun _ _ h => h) fun _ _ h => Or.inr h.1) ?_ ?_
      · exact fun _ _ h₁ => ⟨h₁.asids⟩
      · intro k₁ k₂ kregs h₁ hx
        have hmap₂ : SameAsids k₁ k₂ := (wp_run_error (keeps_nestedTlbMod kregs k₁) hx).1
        exact ⟨hmap₂.asids.trans h₁.asids⟩
    exact h.congr hof hmap.asids hfree

theorem asid_next {op : Op} (h : AsidInv k) (hslot : SlotInv k) (hs : next op k = some k') :
    AsidInv k' := by
  by_cases hop : ∃ f inp, op = .syscall f inp
  · obtain ⟨f, inp, rfl⟩ := hop
    cases hcall : Syscall.ofFrame f inp with
    | none =>
      rw [unknown_next hcall hs]
      exact h.congr rfl rfl rfl
    | some s =>
      have hentered : AsidInv (k.entered f) := h.congr rfl rfl rfl
      exact asid_ends hentered (hslot.congr (entered_envsOnly k f)) (doSyscall_ends hcall hs)
  · have hop' : ∀ f inp, op ≠ .syscall f inp := fun f inp h => hop ⟨f, inp, h⟩
    have hmap : SameAsids k k' := by
      rcases next_body hs with hx | hx | ⟨k₁, hx, hnested⟩
      · exact (wp_run_ok (asids_body hop' k) hx :)
      · exact (wp_run_error (asids_body hop' k) hx).1
      · exact IsTrans.trans _ _ _ (wp_run_error (asids_body hop' k) hx).1
          (wp_run_error (keeps_nestedTlbMod op.kregs k₁) hnested).1
    rcases other_next hop' hs with hsame | ⟨k₀, e, hsame, hsw⟩
    · exact h.congr_envs hsame hmap.asids
    · exact h.congr ((asidOf_switched hsw).trans (asidOf_envs hsame.envs)) hmap.asids
        (hsw.free.trans hsame.free)

theorem asids_envInit (mc : Machine) : Keeps SameAsids Stays (envInit mc) := by
  unfold envInit
  refine (keeps_onMem _).bind fun _ => (keeps_onMem _).bind fun _ => (keeps_onMem _).bind fun _ =>
    Keeps.bind ?_ fun _ => (keeps_onMem _).bind fun _ => keeps_onMem _
  exact keeps_modify fun _ => ⟨rfl⟩

theorem asid_initial {mc : Machine} : AsidInv mc.initial := by
  have hnone : ∀ e, mc.initial.asidOf e = none := fun _ => if_pos rfl
  refine ⟨⟨fun e x i he _ => ?_, fun i => ?_⟩, ⟨slot_initial.free_nodup, fun e => ?_⟩, fun e i he => ?_⟩
  · exact nomatch (hnone e).symm.trans he
  · refine iff_of_false (by simp [Machine.initial]) ?_
    rintro ⟨e, he⟩
    exact nomatch (hnone e).symm.trans he
  · have hf : mc.initial.envFreeList = List.finRange 1024 := by simp only [Machine.initial]
    rw [hf]
    exact iff_of_true (List.mem_finRange e) (hnone e)
  · exact nomatch (hnone e).symm.trans he

theorem asid_boot {mc : Machine} {programs : List (Image × Word)} (hb : boot mc programs = some k) :
    AsidInv k := by
  refine boot_rule ?_ (fun _ image priority hk => asid_envCreate hk image priority) hb
  refine wp_mono (wp_and ((sameEnvs_envInit mc).always _) ((asids_envInit mc).always _)) ?_
    (fun _ _ _ => trivial)
  rintro _ k₁ ⟨hsame, hmap⟩
  exact asid_initial.congr_envs (.of_same hsame) hmap.asids

theorem asid_inv {C : Kernel → Op → Prop} (h : mos.Run C k) : AsidInv k := by
  have hboth : AsidInv k ∧ SlotInv k := by
    refine Lib.System.Run.invariant (I := fun k => AsidInv k ∧ SlotInv k) ?_ ?_ h
    · rintro k ⟨mc, programs, hb⟩
      exact ⟨asid_boot hb, slot_boot hb⟩
    · rintro k op k' ⟨hi, hslot⟩ _ hs
      exact ⟨asid_next hi hslot hs, slot_next hslot hs⟩
  exact hboth.1

/-- In every state that the kernel can reach, ASIDs, slots and the list of free slots agree. -/
theorem asids_and_slots (h : mos.Reachable k) :
    (∀ e x, (k.envs e).envStatus ≠ .free → (k.envs x).envStatus ≠ .free →
      (k.envs e).envAsid = (k.envs x).envAsid → e = x) ∧
    (∀ e, (k.envs e).envStatus ≠ .free → (k.envs e).envAsid < nasid) ∧
    (∀ i, k.asidBitmap i = true ↔
      ∃! e, (k.envs e).envStatus ≠ .free ∧ (k.envs e).envAsid = i) ∧
    (∀ e, e ∈ k.envFreeList ↔ (k.envs e).envStatus = .free) ∧ k.envFreeList.Nodup := by
  have hi := asid_inv h
  refine ⟨fun e x he hx heq => ?_, fun e he => ?_, fun i => ?_, fun e => ?_, hi.slots.nodup⟩
  · exact hi.tokens.one e x _ (asidOf_live he) (by rw [asidOf_live hx, heq])
  · exact hi.lt e _ (asidOf_live he)
  · simp only [hi.tokens.out_iff i, asidOf_eq_some]
  · rw [hi.slots.mem e, asidOf_eq_none]

/-- Two children come and the first one goes. -/
theorem asids_and_slots_forked : ∃ k, mos.Reachable k ∧
    (k.envs 0).envAsid ≠ (k.envs 2).envAsid ∧ 1 ∈ k.envFreeList := by
  have hrun : ((smallRun [.start, callOp 9 0 0 0, callOp 9 0 0 0, callOp 10 4097 1 0,
      callOp 4 4097 0 0]).any fun k => (k.envs 0).envStatus == .runnable &&
        (k.envs 2).envStatus == .notRunnable && (k.envs 1).envStatus == .free) = true := by
    decide +kernel
  obtain ⟨k, hk, hstatus⟩ := (Option.any_eq_true _ _).mp hrun
  simp only [Bool.and_eq_true, beq_iff_eq] at hstatus
  obtain ⟨⟨h0, h2⟩, h1⟩ := hstatus
  obtain ⟨hone, -, -, hfree, -⟩ := asids_and_slots (smallRun_reachable hk)
  refine ⟨k, smallRun_reachable hk, fun heq => ?_, (hfree 1).mpr h1⟩
  exact absurd (hone 0 2 (by simp [h0]) (by simp [h2]) heq) (by decide)

end Mos
