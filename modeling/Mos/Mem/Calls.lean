import Mos.Kern.Slots
import Mos.Mem.Vm

/-!
# System calls on memory

Every function of the kernel goes along a path of the steps of `Vm`, as long as
each page that it maps may be mapped there.
-/

namespace Mos

open Lib

variable {pool : Finset Nat} {base : Nat} {W : Grant} {k k₀ k₁ k' : Kernel} {m : Mem}
  {e c : EnvIx} {s : AddressSpace} {α β : Type}

/-! ## The address spaces of a kernel -/

/-- The address spaces of the environments that live. -/
def Kernel.space (k : Kernel) (e : EnvIx) : Option AddressSpace :=
  if (k.envs e).envStatus = .free then none else some ⟨(k.envs e).envPgdir, (k.envs e).envAsid⟩

def Kernel.vm (k : Kernel) : Vm := ⟨k.mem, k.space⟩

/-- The registers are those of `curenv`, and `env_ipc_dstva` has passed the check of `sys_ipc_recv`. -/
structure Sound (pool : Finset Nat) (base : Nat) (k : Kernel) : Prop where
  vm : VmInv pool base k.vm
  base : k.basePgdir = base
  asids : ∀ e s, k.space e = some s → k.asidBitmap s.asid = true
  running : ∀ c, k.curenv = some c → k.space c = some ⟨k.curPgdir, k.entryHiAsid⟩
  dstva : ∀ e, (k.envs e).envIpcDstva = 0 ∨ isIllegalVa (k.envs e).envIpcDstva = false

/-- The kernel has gone along a path. -/
structure Moved (pool : Finset Nat) (base : Nat) (W : Grant) (k k' : Kernel) : Prop where
  sound : Sound pool base k'
  path : Vm.Path pool base W k.vm k'.vm

theorem Moved.refl (h : Sound pool base k) : Moved pool base W k k := ⟨h, .refl⟩

theorem Moved.trans (h : Moved pool base W k k₁) (h' : Moved pool base W k₁ k') :
    Moved pool base W k k' := ⟨h'.sound, h.path.trans h'.path⟩

/-- Neither memory nor an address space has changed. -/
structure SameVm (k k' : Kernel) : Prop where
  mem : k'.mem = k.mem
  space : k'.space = k.space
  base : k'.basePgdir = k.basePgdir
  asids : k'.asidBitmap = k.asidBitmap
  cur : k'.curenv = k.curenv
  pgdir : k'.curPgdir = k.curPgdir
  asid : k'.entryHiAsid = k.entryHiAsid
  dstva : ∀ e, (k'.envs e).envIpcDstva = (k.envs e).envIpcDstva

namespace SameVm

theorem refl (k : Kernel) : SameVm k k := ⟨rfl, rfl, rfl, rfl, rfl, rfl, rfl, fun _ => rfl⟩

theorem trans (h : SameVm k k₁) (h' : SameVm k₁ k') : SameVm k k' where
  mem := h'.mem.trans h.mem
  space := h'.space.trans h.space
  base := h'.base.trans h.base
  asids := h'.asids.trans h.asids
  cur := h'.cur.trans h.cur
  pgdir := h'.pgdir.trans h.pgdir
  asid := h'.asid.trans h.asid
  dstva e := (h'.dstva e).trans (h.dstva e)

instance : QueueFree SameVm where
  refl := refl
  trans _ _ _ := trans
  setList _ _ _ := ⟨rfl, rfl, rfl, rfl, rfl, rfl, rfl, fun _ => rfl⟩
  setCount _ _ := ⟨rfl, rfl, rfl, rfl, rfl, rfl, rfl, fun _ => rfl⟩

theorem vm (h : SameVm k k') : k'.vm = k.vm := by
  unfold Kernel.vm
  rw [h.mem, h.space]

theorem moved (h : SameVm k k') (hk : Sound pool base k) : Moved pool base W k k' := by
  constructor
  · refine ⟨?_, h.base.trans hk.base, ?_, ?_, fun e => h.dstva e ▸ hk.dstva e⟩
    · rw [h.vm]
      exact hk.vm
    · rw [h.space, h.asids]
      exact hk.asids
    · rw [h.cur, h.space, h.pgdir, h.asid]
      exact hk.running
  · rw [h.vm]

end SameVm

theorem space_setEnv {f : Env → Env} (hst : (f (k.envs e)).envStatus = .free ↔
      (k.envs e).envStatus = .free)
    (hpg : (f (k.envs e)).envPgdir = (k.envs e).envPgdir)
    (has : (f (k.envs e)).envAsid = (k.envs e).envAsid) : (k.setEnv e f).space = k.space := by
  funext x
  unfold Kernel.space
  rw [Kernel.setEnv_envs]
  rcases eq_or_ne x e with rfl | hx
  · simp only [Function.update_self, hst, hpg, has]
  · rw [Function.update_of_ne hx]

theorem same_setEnv {f : Env → Env} (hst : (f (k.envs e)).envStatus = .free ↔
      (k.envs e).envStatus = .free)
    (hpg : (f (k.envs e)).envPgdir = (k.envs e).envPgdir)
    (has : (f (k.envs e)).envAsid = (k.envs e).envAsid)
    (hd : (f (k.envs e)).envIpcDstva = (k.envs e).envIpcDstva) : SameVm k (k.setEnv e f) := by
  refine ⟨rfl, space_setEnv hst hpg has, rfl, rfl, rfl, rfl, rfl, fun x => ?_⟩
  rw [Kernel.setEnv_envs]
  rcases eq_or_ne x e with rfl | hx
  · rw [Function.update_self, hd]
  · rw [Function.update_of_ne hx]

namespace Sound

theorem dirs (h : Sound pool base k) (hc : k.curenv = some c) :
    k.vm.dirs c = some k.curPgdir :=
  Vm.dirs_some (v := k.vm) (s := ⟨k.curPgdir, k.entryHiAsid⟩) (h.running c hc)

theorem live (h : Sound pool base k) (hc : k.curenv = some c) : (k.envs c).envStatus ≠ .free := by
  have hrun := h.running c hc
  unfold Kernel.space at hrun
  split at hrun
  case isTrue => cases hrun
  case isFalse hlive => exact hlive

theorem space_live (h : (k.envs e).envStatus ≠ .free) :
    k.space e = some ⟨(k.envs e).envPgdir, (k.envs e).envAsid⟩ := if_neg h

theorem target_live (h : Sound pool base k) {envid : Word} {checkperm : Bool}
    (he : target k envid checkperm = some e) : (k.envs e).envStatus ≠ .free := by
  rcases target_cases he with ⟨_, hc⟩ | ⟨_, _, hlive, _⟩
  · exact h.live hc
  · exact hlive

theorem setMem (h : Sound pool base k) (hp : Vm.Path pool base W k.vm ⟨m, k.space⟩) :
    Moved pool base W k (k.setMem m) :=
  ⟨⟨Vm.Path.inv hp h.vm, h.base, h.asids, h.running, h.dstva⟩, hp⟩

theorem work (h : Sound pool base k) (he : k.space e = some s)
    (hch : Change pool base k.vm.dirs e s.asid (W e) True k.mem m) :
    Moved pool base W k (k.setMem m) := h.setMem (.single (.work he hch))

end Sound

/-! ## Page faults -/

/-- What `passive_alloc` may map. -/
def FaultGrants (pool : Finset Nat) (W : Grant) : Prop :=
  ∀ e q va, q ∈ pool → Faultable va → W e (pdx va) (ptx va) (pteWord q pteD)

/-- `curenv` and its faults have gone on. -/
structure Faulted (pool : Finset Nat) (base : Nat) (W : Grant) (k k' : Kernel) : Prop
    extends Moved pool base W k k' where
  cur : k'.curenv = k.curenv
  pgdir : k'.curPgdir = k.curPgdir

namespace Faulted

theorem refl (h : Sound pool base k) : Faulted pool base W k k :=
  ⟨.refl h, rfl, rfl⟩

theorem trans (h : Faulted pool base W k k₁) (h' : Faulted pool base W k₁ k') :
    Faulted pool base W k k' :=
  ⟨h.toMoved.trans h'.toMoved, h'.cur.trans h.cur, h'.pgdir.trans h.pgdir⟩

/-- The machine may have stopped, or the function ends with a TLB Mod exception. -/
def Ends (pool : Finset Nat) (base : Nat) (W : Grant) (k : Kernel) (err : Stop) (k' : Kernel) :
    Prop := Halts err ∨ (err = .tlbMod ∧ Faulted pool base W k k')

end Faulted

theorem Panics.halts {f : Fault} (h : Panics f) : Halts (.fault f) := by
  cases f with
  | errno err => exact absurd rfl (h.2 err)
  | panic | wild => trivial

theorem BadAddress.halts {f : Fault} (h : BadAddress f) : Halts (.fault f) := h.panics.halts

theorem Asserts.halts {f : Fault} (h : Asserts f) : Halts (.fault f) := by
  rcases h with rfl | rfl
  · trivial
  · trivial

theorem refill_faulted (h : Sound pool base k) (hc : k.curenv = some c) (hW : FaultGrants pool W)
    (va : Word) : wp (onMem (doTlbRefill k.curPgdir va k.entryHiAsid))
    (fun _ => Faulted pool base W k) (fun err _ => Halts err) k := by
  rw [wp_onMem]
  have hgrant : ∀ q ∈ k.mem.pageFreeList, Faultable va → W c (pdx va) (ptx va) (pteWord q pteD) :=
    fun q hq => hW c q va (h.vm.counts.free_used q hq)
  refine wp_mono (doTlbRefill_spec h.vm.toMemInv (h.dirs hc) hgrant (fun _ _ _ => trivial)) ?_
    (fun _ _ herr => herr.halts)
  rintro _ m ⟨⟨m₁, pte, hch, hwalk, rfl⟩, -⟩
  have hwork : Vm.Step pool base W k.vm ⟨m₁, k.space⟩ := .work (h.running c hc) hch
  have hfill : Vm.Step pool base W ⟨m₁, k.space⟩
      ⟨{ m₁ with tlb := m₁.tlbEntry k.entryHiAsid va pte :: m₁.tlb }, k.space⟩ :=
    .fill (v := ⟨m₁, k.space⟩) (h.running c hc) hwalk
  exact ⟨h.setMem ((Relation.ReflTransGen.single hwork).tail hfill), rfl, rfl⟩

theorem store_faulted {p : Nat} (h : Sound pool base k) (hc : k.curenv = some c) (hp : p ∈ pool)
    (hw : ¬ k.mem.Walked k.vm.dirs p) (j : WordIx) (w : Word) :
    Faulted pool base W k (k.setMem (k.mem.store p j w)) :=
  ⟨h.work (h.running c hc) (.data h.vm.toMemInv hp hw j w), rfl, rfl⟩

theorem kernelStore_faulted (h : Sound pool base k) (hc : k.curenv = some c) (hW : FaultGrants pool W)
    (va : Word) (size : Nat) (f : Word → Word) : wp (kernelStore va size f)
    (fun _ => Faulted pool base W k) (Faulted.Ends pool base W k) k := by
  unfold kernelStore
  simp only [wp_bind, wp_ite, wp_throw, wp_get]
  refine ⟨fun _ => Or.inl trivial, fun _ => ?_⟩
  refine wp_mono (refill_faulted h hc hW va) ?_ (fun _ _ herr => Or.inl herr)
  intro _ k₁ h₁
  have hc₁ := h₁.cur.trans hc
  rw [wp_onMem, ← h₁.pgdir]
  refine wp_mono (writable_spec h₁.sound.vm.toMemInv (h₁.sound.dirs hc₁)) ?_
    (fun _ _ herr => Or.inl herr.halts)
  rintro r m ⟨rfl, hdata⟩
  cases r with
  | none => exact (wp_throw _).mpr (Or.inr ⟨rfl, h₁⟩)
  | some p =>
    obtain ⟨hp, hw⟩ := hdata p rfl
    rw [wp_onMem, wp_modify]
    exact h₁.trans (store_faulted h₁.sound hc₁ hp hw _ _)

theorem storeFrame_faulted (h : Sound pool base k) (hc : k.curenv = some c) (hW : FaultGrants pool W)
    (va : Word) (tf : Trapframe) : wp (storeFrame va tf) (fun _ => Faulted pool base W k)
    (Faulted.Ends pool base W k) k := by
  refine wp_forM (fun i _ k₁ h₁ => ?_) (.refl h)
  refine wp_mono (kernelStore_faulted h₁.sound (h₁.cur.trans hc) hW _ _ _) ?_ ?_
  · exact fun _ _ h₂ => h₁.trans h₂
  · exact fun _ _ h₂ => h₂.imp_right fun ⟨herr, h₂⟩ => ⟨herr, h₁.trans h₂⟩

theorem doTlbMod_faulted (h : Sound pool base k) (hc : k.curenv = some c) (hW : FaultGrants pool W)
    (tf : Trapframe) : wp (doTlbMod tf) (fun _ => Faulted pool base W k)
    (Faulted.Ends pool base W k) k := by
  unfold doTlbMod
  simp only [wp_bind, wp_get]
  refine wp_mono (storeFrame_faulted h hc hW _ tf) ?_ (fun _ _ h => h)
  intro _ k₁ h₁
  rw [wp_onMem]
  refine wp_mono (pageLookup_spec k₁.mem _ _) ?_ (fun _ _ herr => Or.inl herr.2.halts)
  rintro r m ⟨rfl, -⟩
  refine wp_curenvPtr (fun _ _ => ?_) (fun _ => Or.inl trivial)
  simp only [wp_bind, wp_ite, wp_throw, wp_pure]
  exact ⟨fun _ => Or.inl trivial, fun _ => h₁⟩

/-! ## Registers -/

theorem same_regs (k : Kernel) (st : Word) (tf : Trapframe) :
    SameVm k { k with status := st, kstack := tf } :=
  ⟨rfl, rfl, rfl, rfl, rfl, rfl, rfl, fun _ => rfl⟩

theorem nestedTlbMod_moved (h : Sound pool base k) (hc : k.curenv = some c) (hW : FaultGrants pool W)
    {kregs : Trapframe} (hx : nestedTlbMod kregs k = .error .resched k') :
    Moved pool base W k k' := by
  have hw : wp (nestedTlbMod kregs) (fun _ _ => False)
      (fun err k' => Halts err ∨ Moved pool base W k k') k := by
    unfold nestedTlbMod
    simp only [wp_bind, wp_get, wp_handle, wp_restoreAll, wp_throw]
    refine wp_mono (doTlbMod_faulted h hc hW _) ?_ ?_
    · exact fun _ k₁ h₁ => Or.inr (h₁.toMoved.trans ((same_regs k₁ _ _).moved h₁.sound))
    · rintro err k₁ (hh | ⟨rfl, -⟩)
      · exact ⟨fun _ => Or.inl trivial, fun _ => Or.inl hh⟩
      · exact ⟨fun _ => Or.inl trivial, fun hn => absurd hn (by simp)⟩
  exact (wp_run_error hw hx :).resolve_left id

/-! ## Scheduling -/

/-- The ASIDs in use are the same. -/
structure SameAsids (k k' : Kernel) : Prop where
  asids : k'.asidBitmap = k.asidBitmap

instance : QueueFree SameAsids where
  refl _ := ⟨rfl⟩
  trans _ _ _ h h' := ⟨h'.asids.trans h.asids⟩
  setList _ _ _ := ⟨rfl⟩
  setCount _ _ := ⟨rfl⟩

theorem asids_stop (err : Stop) : Keeps SameAsids (fun _ => True) (throw err : K α) :=
  keeps_throw trivial

theorem asids_envRun (e : EnvIx) : Keeps SameAsids (fun _ => True) (envRun e) := by
  unfold envRun envSave envEnter
  refine keeps_get.bind fun k => Keeps.guard trivial (Keeps.bind ?_ fun _ => ?_)
  · refine keeps_get.bind fun k => ?_
    split
    · exact keeps_get.bind fun _ => keeps_modify fun _ => ⟨rfl⟩
    · exact keeps_pure _
  · refine (keeps_modify fun _ => ⟨rfl⟩).bind fun _ => (keeps_modify fun _ => ⟨rfl⟩).bind fun _ => ?_
    refine (keeps_modify fun _ => ⟨rfl⟩).bind fun _ => (keeps_modify fun _ => ⟨rfl⟩).bind fun _ => ?_
    exact keeps_get.bind fun _ => (keeps_modify fun _ => ⟨rfl⟩).bind fun _ => asids_stop _

theorem asids_schedule (yield : Bool) : Keeps SameAsids (fun _ => True) (schedule yield) := by
  unfold schedule
  have run : ∀ e, Keeps SameAsids (fun _ => True) (do
      modify fun k => { k with count := k.count - 1 }
      envRun e : K Unit) := fun e => (keeps_modify fun _ => ⟨rfl⟩).bind fun _ => asids_envRun e
  refine keeps_get.bind fun k => Keeps.ite (Keeps.bind ?_ run) (Keeps.bind ?_ run)
  · exact keeps_schedPick.mono (fun _ _ h => h) fun _ _ => trivial
  · exact fun k => wp_curenvPtr (fun _ _ => ⟨rfl⟩) (fun _ => ⟨⟨rfl⟩, trivial⟩)

/-- Another environment runs, with its own registers. -/
theorem Switched.moved (h : Sound pool base k) (hs : Switched k e k')
    (has : k'.asidBitmap = k.asidBitmap) : Moved pool base W k k' := by
  have hspace : k'.space = k.space := by
    funext x
    unfold Kernel.space
    rw [hs.envs]
    rfl
  have hvm : k'.vm = k.vm := by
    unfold Kernel.vm
    rw [hs.mem, hspace]
  constructor
  · refine ⟨?_, hs.base.trans h.base, ?_, fun c hc => ?_, fun x => ?_⟩
    · rw [hvm]
      exact h.vm
    · rw [hspace, has]
      exact h.asids
    · obtain rfl : e = c := Option.some.inj (hs.cur.symm.trans hc)
      rw [hspace, hs.space.1, hs.space.2]
      exact Sound.space_live (by rw [hs.runnable]; simp)
    · rw [hs.envs]
      exact h.dstva x
  · rw [hvm]

theorem schedule_moved (h : Sound pool base k) (yield : Bool) : wp (schedule yield)
    (fun _ _ => False) (fun err k' => Halts err ∨ (err = .resched ∧ Moved pool base W k k')) k := by
  refine wp_mono (wp_and (schedule_spec k yield) (asids_schedule yield k)) (fun _ _ h => h.1) ?_
  rintro err k' ⟨⟨rfl, e, hs⟩ | hh, has, -⟩
  · exact Or.inr ⟨rfl, hs.moved h has.asids⟩
  · exact Or.inl hh

/-! ## How a call goes -/

/-- The function may stop the machine. Otherwise the kernel has gone along a path from `k₀`, however
it ends; only an environment raises a TLB Mod exception. -/
def Goes (pool : Finset Nat) (base : Nat) (W : Grant) (k₀ : Kernel) (x : K α) (k : Kernel) : Prop :=
  wp x (fun _ => Moved pool base W k₀) (fun err k' => Halts err ∨
    (Moved pool base W k₀ k' ∧ (err = .tlbMod → k'.curenv ≠ none))) k

namespace Goes

theorem bind {x : K β} {f : β → K α} (hx : Goes pool base W k₀ x k)
    (hf : ∀ b k₁, Moved pool base W k₀ k₁ → Goes pool base W k₀ (f b) k₁) :
    Goes pool base W k₀ (x >>= f) k := by
  unfold Goes at *
  rw [wp_bind]
  exact wp_mono hx (fun b k₁ h => hf b k₁ h) (fun _ _ h => h)

theorem pure (a : α) (h : Moved pool base W k₀ k) : Goes pool base W k₀ (pure a : K α) k :=
  (wp_pure a).mpr h

theorem fault {f : Fault} (h : Moved pool base W k₀ k) :
    Goes pool base W k₀ (throw (.fault f) : K α) k :=
  (wp_throw _).mpr (Or.inr ⟨h, fun herr => by cases herr⟩)

theorem ite {p : Prop} [Decidable p] {x y : K α} (hx : p → Goes pool base W k₀ x k)
    (hy : ¬ p → Goes pool base W k₀ y k) : Goes pool base W k₀ (if p then x else y) k :=
  (wp_ite x y).mpr ⟨hx, hy⟩

theorem guard {p : Prop} [Decidable p] {f : Fault} {x : K α} (h : Moved pool base W k₀ k)
    (hx : ¬ p → Goes pool base W k₀ x k) : Goes pool base W k₀ (do
      if p then throw (.fault f)
      x) k := by
  unfold Goes
  simp only [wp_bind, wp_ite, wp_throw]
  exact ⟨fun _ => Or.inr ⟨h, fun herr => by cases herr⟩, hx⟩

theorem same {x : K α} (hx : Keeps SameVm Faults x) (h : Moved pool base W k₀ k) :
    Goes pool base W k₀ x k := by
  refine wp_mono (hx k) (fun _ _ hs => h.trans (hs.moved h.sound)) ?_
  rintro err k' ⟨hs, f, rfl⟩
  exact Or.inr ⟨h.trans (hs.moved h.sound), fun herr => by cases herr⟩

theorem get {f : Kernel → K α} (hf : Goes pool base W k₀ (f k) k) :
    Goes pool base W k₀ (MonadState.get >>= f) k := by
  unfold Goes
  rw [wp_bind, wp_get]
  exact hf

theorem curenvPtr {f : EnvIx → K α} (hf : ∀ c, k.curenv = some c → Goes pool base W k₀ (f c) k) :
    Goes pool base W k₀ (Mos.curenvPtr >>= f) k := by
  unfold Goes
  rw [wp_bind]
  exact wp_curenvPtr hf fun _ => Or.inl trivial

theorem envid2env {envid : Word} {checkperm : Bool} {f : EnvIx → K α} (h : Moved pool base W k₀ k)
    (hf : ∀ e, target k envid checkperm = some e → Goes pool base W k₀ (f e) k) :
    Goes pool base W k₀ (Mos.envid2env envid checkperm >>= f) k := by
  unfold Goes
  rw [wp_bind]
  refine wp_envid2env hf ?_
  rintro err (rfl | rfl)
  · exact Or.inr ⟨h, fun herr => by cases herr⟩
  · exact Or.inl trivial

theorem updEnv {g : Env → Env} {f : Unit → K α} (hf : Goes pool base W k₀ (f ()) (k.setEnv e g)) :
    Goes pool base W k₀ (Mos.updEnv e g >>= f) k := by
  unfold Goes
  rw [wp_bind, wp_updEnv]
  exact hf

theorem schedule (h : Moved pool base W k₀ k) (yield : Bool) :
    Goes pool base W k₀ (Mos.schedule yield) k := by
  refine wp_mono (schedule_moved (W := W) h.sound yield) (fun _ _ h => h.elim) ?_
  rintro err k' (hh | ⟨rfl, hm⟩)
  · exact Or.inl hh
  · exact Or.inr ⟨h.trans hm, fun herr => by cases herr⟩

theorem update {g : Env → Env} {f : Unit → K α} (h : Moved pool base W k₀ k)
    (hs : SameVm k (k.setEnv e g))
    (hf : Moved pool base W k₀ (k.setEnv e g) → Goes pool base W k₀ (f ()) (k.setEnv e g)) :
    Goes pool base W k₀ (Mos.updEnv e g >>= f) k :=
  updEnv (hf (h.trans (hs.moved h.sound)))

end Goes

end Mos
