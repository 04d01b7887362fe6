import Mos.Kern.Trap

/-!
# Rules for the kernel's primitives

What the small functions of the kernel do, as `wp` rules: the proofs about a
system call never look inside them.
-/

namespace Mos

open Lib

variable {α : Type} {Q : α → Kernel → Prop} {E : Stop → Kernel → Prop} {k : Kernel}

/-! ## Updates -/

@[simp] theorem wp_updEnv {Q : Unit → Kernel → Prop} (e : EnvIx) (f : Env → Env) :
    wp (updEnv e f) Q E k ↔ Q () (k.setEnv e f) := wp_modify _

@[simp] theorem wp_setKstackReg {Q : Unit → Kernel → Prop} (r : Fin 32) (v : Word) :
    wp (setKstackReg r v) Q E k ↔ Q () { k with kstack := k.kstack.setReg r v } := wp_modify _

@[simp] theorem wp_restoreAll {Q : Unit → Kernel → Prop} (tf : Trapframe) :
    wp (restoreAll tf) Q E k ↔ Q () { k with status := eret tf.cp0Status } := wp_modify _

@[simp] theorem wp_asidFree {Q : Unit → Kernel → Prop} (i : Nat) :
    wp (asidFree i) Q E k ↔
      Q () { k with asidBitmap := Function.update k.asidBitmap i false } := wp_modify _

@[simp] theorem wp_updJob {Q : Unit → Kernel → Prop} (i : Nat) (f : Job → Job) :
    wp (updJob i f) Q E k ↔ Q () { k with jobs := Function.update k.jobs i (f (k.jobs i)) } :=
  wp_modify _

/-- The state after `SAVE_ALL`. -/
@[simps] def Kernel.trapped (k : Kernel) (f : Trapframe) : Kernel :=
  { k with
    kstack := { f with cp0Status := k.status ||| statusExl }
    status := k.status &&& ~~~(statusUm ||| statusExl ||| statusIe) }

@[simp] theorem wp_enterKernel {Q : Unit → Kernel → Prop} (f : Trapframe) :
    wp (enterKernel f) Q E k ↔ Q () (k.trapped f) := wp_modify _

theorem wp_onMem (x : M α) :
    wp (onMem x) Q E k ↔
      wp x (fun a m => Q a (k.setMem m)) (fun e m => E (.fault e) (k.setMem m)) k.mem :=
  wp_zoom Kernel.mem Kernel.setMem Stop.fault x

theorem wp_onMem_any {x : M α} (hQ : ∀ a m, Q a (k.setMem m)) (hE : ∀ e m, E (.fault e) (k.setMem m)) :
    wp (onMem x) Q E k := by
  rw [wp_onMem]
  exact wp_mono (wp_trivial x) (fun a m _ => hQ a m) (fun e m _ => hE e m)

/-! ## Looking up an environment -/

theorem wp_curenvPtr {Q : EnvIx → Kernel → Prop} (hQ : ∀ c, k.curenv = some c → Q c k)
    (hE : k.curenv = none → E (.fault nullPointer) k) : wp curenvPtr Q E k := by
  unfold curenvPtr
  rw [wp_bind, wp_get]
  cases hc : k.curenv with
  | some c => exact (wp_pure c).mpr (hQ c hc)
  | none => exact (wp_throw _).mpr (hE hc)

/-- `e` is `curenv` or its immediate child. -/
def Permitted (k : Kernel) (e : EnvIx) : Prop :=
  ∃ c, k.curenv = some c ∧
    ((k.envs e).envId = (k.envs c).envId ∨ (k.envs e).envParentId = (k.envs c).envId)

instance (k : Kernel) (e : EnvIx) : Decidable (Permitted k e) :=
  decidable_of_iff ((k.curenv.any fun c => (k.envs e).envId == (k.envs c).envId ||
    (k.envs e).envParentId == (k.envs c).envId) = true) (by
      unfold Permitted
      cases k.curenv <;> simp)

/-- The environment that `envid2env` finds. -/
def target (k : Kernel) (envid : Word) (checkperm : Bool) : Option EnvIx :=
  if envid = 0 then k.curenv
  else
    let e := envx envid
    if (k.envs e).envStatus = .free ∨ (k.envs e).envId ≠ envid then none
    else if checkperm = true ∧ ¬ Permitted k e then none
    else some e

theorem envid2env_spec (k : Kernel) (envid : Word) (checkperm : Bool) :
    wp (envid2env envid checkperm) (fun e k' => k' = k ∧ target k envid checkperm = some e)
      (fun err k' => k' = k ∧ (err = .errno .badEnv ∨ err = .fault nullPointer) ∧
        target k envid checkperm = none) k := by
  unfold envid2env target
  split
  case isTrue => exact wp_curenvPtr (fun c hc => ⟨rfl, hc⟩) (fun hc => ⟨rfl, Or.inr rfl, hc⟩)
  case isFalse =>
    simp only [wp_bind, wp_get, wp_ite, wp_throw, wp_pure]
    refine ⟨fun hbad => ⟨trivial, by simp, if_pos hbad⟩, fun hlive => ?_⟩
    rw [if_neg hlive]
    refine ⟨fun hcheck => ?_, fun hcheck => ⟨trivial, by simp [hcheck]⟩⟩
    refine wp_curenvPtr (fun c hc => ?_) (fun hc => ⟨rfl, Or.inr rfl, ?_⟩)
    · have hperm : Permitted k (envx envid) ↔
          ¬ ((k.envs (envx envid)).envId ≠ (k.envs c).envId ∧
            (k.envs (envx envid)).envParentId ≠ (k.envs c).envId) := by
        unfold Permitted
        simp only [hc, Option.some.injEq, exists_eq_left', not_and_or, not_not]
      exact ⟨fun h => ⟨rfl, by simp, if_pos ⟨hcheck, fun hp => hperm.mp hp h⟩⟩,
        fun h => ⟨rfl, if_neg fun hn => hn.2 (hperm.mpr h)⟩⟩
    · refine if_pos ⟨hcheck, ?_⟩
      rintro ⟨c, hc', -⟩
      simp [hc] at hc'

theorem wp_envid2env {Q : EnvIx → Kernel → Prop} {envid : Word} {checkperm : Bool}
    (hQ : ∀ e, target k envid checkperm = some e → Q e k)
    (hE : ∀ e, e = .errno .badEnv ∨ e = .fault nullPointer → E e k) :
    wp (envid2env envid checkperm) Q E k := by
  refine wp_mono (envid2env_spec k envid checkperm) ?_ ?_
  · rintro e k' ⟨rfl, he⟩
    exact hQ e he
  · rintro err k' ⟨rfl, herr, _⟩
    exact hE err herr

theorem target_congr {k' : Kernel} (henvs : k'.envs = k.envs) (hcur : k'.curenv = k.curenv)
    (envid : Word) (checkperm : Bool) : target k' envid checkperm = target k envid checkperm := by
  have hperm : ∀ e, Permitted k' e ↔ Permitted k e := fun e => by
    unfold Permitted
    rw [henvs, hcur]
  simp only [target, hperm, henvs, hcur]

theorem target_cases {envid : Word} {checkperm : Bool} {e : EnvIx}
    (h : target k envid checkperm = some e) :
    (envid = 0 ∧ k.curenv = some e) ∨
    (envid ≠ 0 ∧ e = envx envid ∧ (k.envs e).envStatus ≠ .free ∧ (k.envs e).envId = envid ∧
      (checkperm = true → Permitted k e)) := by
  unfold target at h
  split at h
  case isTrue h0 => exact Or.inl ⟨h0, h⟩
  case isFalse h0 =>
    dsimp only at h
    split at h
    case isTrue => exact absurd h (by simp)
    case isFalse hlive =>
      split at h
      case isTrue => exact absurd h (by simp)
      case isFalse hperm =>
        obtain rfl := Option.some.inj h
        obtain ⟨hfree, hid⟩ := not_or.mp hlive
        exact Or.inr ⟨h0, rfl, hfree, not_not.mp hid, fun hc => by_contra fun hn => hperm ⟨hc, hn⟩⟩

/-! ## Functions that only touch memory and the job table -/

/-- The function does not leave for another environment. -/
def Stays (e : Stop) : Prop := e ≠ .resched

theorem stays_fault (f : Fault) : Stays (.fault f) := by
  unfold Stays
  simp

theorem stays_tlbMod : Stays .tlbMod := by
  unfold Stays
  simp

/-- The machine stops. -/
def Halts : Stop → Prop
  | .fault (.errno _) => False
  | .fault _ => True
  | _ => False

theorem Halts.stays {e : Stop} (h : Halts e) : Stays e := by
  rintro rfl
  exact h

theorem errnoValue_halts {e : Stop} (h : Halts e) : errnoValue e = none := by
  rcases e with (_ | _ | _) | _ | _
  · exact absurd h id
  all_goals rfl

/-- A relation that does not look at memory. -/
class MemFree (R : Kernel → Kernel → Prop) : Prop extends Std.Refl R, IsTrans Kernel R where
  setMem : ∀ k m, R k (k.setMem m)

/-- And not at the job table either. -/
class Quiet (R : Kernel → Kernel → Prop) : Prop extends MemFree R where
  setJobs : ∀ (k : Kernel) jobs n, R k { k with jobs := jobs, jobCnt := n }

/-- A relation that does not look at memory, at the processor's registers or at the frame of the
running environment. -/
class FrameFree (R : Kernel → Kernel → Prop) : Prop extends MemFree R where
  setRegs : ∀ (k : Kernel) st tf, R k { k with status := st, kstack := tf }

class RegFree (R : Kernel → Kernel → Prop) : Prop extends Quiet R, FrameFree R

/-- A relation that does not look at the list of runnable environments. -/
class LinkFree (R : Kernel → Kernel → Prop) : Prop extends Std.Refl R, IsTrans Kernel R where
  setList : ∀ (k : Kernel) q b, R k { k with envSchedList := q, schedMisused := b }

/-- And not at the time slice either. -/
class QueueFree (R : Kernel → Kernel → Prop) : Prop extends LinkFree R where
  setCount : ∀ (k : Kernel) n, R k { k with count := n }

/-- And not at the ASIDs either. -/
class SchedFree (R : Kernel → Kernel → Prop) : Prop extends QueueFree R where
  setAsids : ∀ (k : Kernel) b, R k { k with asidBitmap := b }

/-- And not at the counter of `mkenvid`. -/
class ListFree (R : Kernel → Kernel → Prop) : Prop extends SchedFree R where
  setIds : ∀ (k : Kernel) b n, R k { k with asidBitmap := b, mkenvidCount := n }
  setAsids := fun k b => setIds k b k.mkenvidCount

section Frames

variable {R : Kernel → Kernel → Prop} {F : Stop → Prop}

theorem keeps_guard [Std.Refl R] {c : Prop} [Decidable c] {f : Fault} {x : K α} (hx : Keeps R Stays x) :
    Keeps R Stays (do
      if c then throw (.fault f)
      x) := hx.guard (stays_fault f)

theorem keeps_fault [Std.Refl R] (f : Fault) : Keeps R Stays (throw (.fault f) : K α) :=
  keeps_throw (stays_fault f)

section

variable [MemFree R]

theorem keeps_onMem (x : M α) : Keeps R Stays (onMem x) := Keeps.zoom MemFree.setMem stays_fault x

theorem keeps_curenvPtr : Keeps R Stays curenvPtr := fun k =>
  wp_curenvPtr (fun _ _ => Std.Refl.refl k) (fun _ => ⟨Std.Refl.refl k, stays_fault _⟩)

theorem keeps_envid2env (envid : Word) (checkperm : Bool) :
    Keeps R Stays (envid2env envid checkperm) := by
  intro k
  refine wp_envid2env (fun _ _ => Std.Refl.refl k) ?_
  rintro e (rfl | rfl)
  · exact ⟨Std.Refl.refl k, stays_fault _⟩
  · exact ⟨Std.Refl.refl k, stays_fault _⟩

theorem keeps_findJob (p : Job → Bool) : Keeps R F (findJob p) :=
  keeps_get.bind fun _ => keeps_pure _

theorem keeps_envFgJob (jobId : Word) : Keeps R F (envFgJob jobId) := by
  unfold envFgJob
  refine (keeps_findJob _).bind fun j => ?_
  split
  · exact keeps_get.bind fun _ => keeps_pure _
  · exact keeps_pure _

theorem keeps_sysPrintCons (s num : Word) : Keeps R Stays (sysPrintCons s num) :=
  keeps_guard (keeps_pure _)

theorem keeps_sysGetenvid : Keeps R Stays sysGetenvid :=
  keeps_get.bind fun _ => keeps_curenvPtr.bind fun _ => keeps_pure _

theorem keeps_sysMemAlloc (envid va perm : Word) : Keeps R Stays (sysMemAlloc envid va perm) := by
  unfold sysMemAlloc
  exact keeps_guard ((keeps_envid2env envid true).bind fun _ => (keeps_onMem _).bind fun _ =>
    keeps_get.bind fun _ => (keeps_onMem _).bind fun _ => keeps_pure _)

theorem keeps_sysMemMap (srcid srcva dstid dstva perm : Word) :
    Keeps R Stays (sysMemMap srcid srcva dstid dstva perm) := by
  unfold sysMemMap
  refine keeps_guard ((keeps_envid2env srcid true).bind fun _ =>
    (keeps_envid2env dstid true).bind fun _ => keeps_get.bind fun _ => keeps_get.bind fun _ =>
    (keeps_onMem _).bind fun r => ?_)
  rcases r with _ | ⟨pp, _⟩
  · exact keeps_fault _
  · exact (keeps_onMem _).bind fun _ => keeps_pure _

theorem keeps_sysMemUnmap (envid va : Word) : Keeps R Stays (sysMemUnmap envid va) := by
  unfold sysMemUnmap
  exact keeps_guard ((keeps_envid2env envid true).bind fun _ => keeps_get.bind fun _ =>
    (keeps_onMem _).bind fun _ => keeps_pure _)

theorem keeps_mapSent (e : EnvIx) (srcva perm : Word) : Keeps R Stays (mapSent e srcva perm) := by
  unfold mapSent
  refine keeps_curenvPtr.bind fun c => keeps_get.bind fun _ => (keeps_onMem _).bind fun r => ?_
  rcases r with _ | ⟨pp, _⟩
  · exact keeps_fault _
  · exact keeps_get.bind fun _ => keeps_onMem _

theorem keeps_sysWriteDev (va pa len : Word) : Keeps R Stays (sysWriteDev va pa len) :=
  keeps_guard (keeps_guard (keeps_guard (keeps_pure _)))

theorem keeps_kernelStore (va : Word) (size : Nat) (f : Word → Word) :
    Keeps R Stays (kernelStore va size f) := by
  unfold kernelStore
  refine keeps_guard (keeps_get.bind fun _ => (keeps_onMem _).bind fun _ =>
    (keeps_onMem _).bind fun r => ?_)
  rcases r with _ | pp
  · exact keeps_throw stays_tlbMod
  · exact keeps_onMem _

theorem keeps_doTlbMod (tf : Trapframe) : Keeps R Stays (doTlbMod tf) := by
  unfold doTlbMod
  refine Keeps.bind (Keeps.forM fun i _ => keeps_kernelStore _ _ _) fun _ => ?_
  exact keeps_get.bind fun _ => (keeps_onMem _).bind fun _ => keeps_curenvPtr.bind fun _ =>
    keeps_get.bind fun _ => keeps_guard (keeps_pure _)

theorem keeps_sysReadDev (inp : Inputs) (va pa len : Word) :
    Keeps R Stays (sysReadDev inp va pa len) :=
  keeps_guard (keeps_guard (Keeps.ite ((keeps_kernelStore _ _ _).bind fun _ => keeps_pure _)
    (keeps_fault _)))

end

section

variable [Quiet R]

theorem keeps_updJob (i : Nat) (f : Job → Job) : Keeps R F (updJob i f) := fun k =>
  (wp_updJob i f).mpr (Quiet.setJobs k _ k.jobCnt)

theorem keeps_envCreateJob (envid : Word) (cmd : List UInt8) :
    Keeps R Stays (envCreateJob envid cmd) := by
  unfold envCreateJob
  exact keeps_get.bind fun _ => keeps_guard ((keeps_updJob _ _).bind fun _ =>
    keeps_modify fun k => Quiet.setJobs k k.jobs _)

theorem keeps_envSetJobDone (envid : Word) : Keeps R F (envSetJobDone envid) := by
  unfold envSetJobDone
  refine (keeps_findJob _).bind fun j => ?_
  split
  · exact keeps_updJob _ _
  · exact keeps_pure _

end

section

variable [FrameFree R]

theorem keeps_restoreAll (tf : Trapframe) : Keeps R F (restoreAll tf) := fun k =>
  (wp_restoreAll tf).mpr (FrameFree.setRegs k _ k.kstack)

theorem keeps_setKstackReg (r : Fin 32) (v : Word) : Keeps R F (setKstackReg r v) := fun k =>
  (wp_setKstackReg r v).mpr (FrameFree.setRegs k k.status _)

theorem keeps_nestedTlbMod (kregs : Trapframe) :
    Keeps R (fun _ => True) (nestedTlbMod kregs) := by
  unfold nestedTlbMod
  refine keeps_get.bind fun _ => Keeps.bind ?_ fun _ =>
    (keeps_restoreAll _).bind fun _ => keeps_throw trivial
  exact (keeps_doTlbMod _).handle (keeps_throw trivial) fun _ _ _ => trivial

theorem keeps_enterKernel (f : Trapframe) : Keeps R F (enterKernel f) :=
  keeps_modify fun k => FrameFree.setRegs k _ _

theorem keeps_leaveKernel : Keeps R F leaveKernel := keeps_get.bind fun _ => keeps_restoreAll _

end

section

variable [LinkFree R]

theorem keeps_schedInsertHead (e : EnvIx) : Keeps R F (schedInsertHead e) :=
  keeps_modify fun k => LinkFree.setList k _ _

theorem keeps_schedInsertTail (e : EnvIx) : Keeps R F (schedInsertTail e) :=
  keeps_modify fun k => LinkFree.setList k _ _

theorem keeps_schedRemove (e : EnvIx) : Keeps R Halts (schedRemove e) := by
  unfold schedRemove
  refine (keeps_modify fun k => LinkFree.setList k k.envSchedList _).bind fun _ =>
    keeps_get.bind fun k => ?_
  split
  · exact keeps_modify fun k => LinkFree.setList k _ k.schedMisused
  · exact keeps_throw trivial

theorem keeps_schedRotate : Keeps R Halts schedRotate := by
  unfold schedRotate
  refine keeps_get.bind fun k => ?_
  split
  · refine keeps_get.bind fun k => Keeps.ite ?_ (keeps_pure _)
    exact (keeps_schedRemove _).bind fun _ => keeps_schedInsertTail _
  · exact keeps_pure _

end

section

variable [QueueFree R]

theorem keeps_schedFirst : Keeps R Halts schedFirst := by
  unfold schedFirst
  refine keeps_get.bind fun k => ?_
  split
  · exact keeps_throw trivial
  · exact (keeps_modify fun k => QueueFree.setCount k _).bind fun _ => keeps_pure _

theorem keeps_schedPick : Keeps R Halts schedPick := keeps_schedRotate.bind fun _ => keeps_schedFirst

end

section

variable [SchedFree R]

theorem keeps_asidFree (i : Nat) : Keeps R F (asidFree i) :=
  keeps_modify fun k => SchedFree.setAsids k _

theorem keeps_envRelease [MemFree R] (pgdir asid : Nat) : Keeps R Stays (envRelease pgdir asid) := by
  unfold envRelease
  exact (keeps_onMem _).bind fun _ => (keeps_asidFree _).bind fun _ => keeps_onMem _

end

end Frames

/-! ## Final states -/

/-- The state a function leaves behind, however it ends. -/
def final (x : K α) (k : Kernel) : Kernel :=
  match x k with
  | .ok _ k' => k'
  | .error _ k' => k'

/-- However `x` ends, `I` holds. -/
def Always (I : Kernel → Prop) (x : K α) (k : Kernel) : Prop := wp x (fun _ => I) (fun _ => I) k

theorem Always.final {I : Kernel → Prop} {x : K α} (h : Always I x k) : I (final x k) := by
  unfold Always wp at h
  unfold Mos.final
  cases hx : x k <;> simpa [hx] using h

theorem Always.mono {I J : Kernel → Prop} {x : K α} (h : Always I x k) (hIJ : ∀ k, I k → J k) :
    Always J x k := wp_mono h (fun _ => hIJ) (fun _ => hIJ)

theorem Always.bind {β : Type} {I : Kernel → Prop} {x : K α} {f : α → K β} (h : Always I x k)
    (hf : ∀ a k', I k' → Always I (f a) k') : Always I (x >>= f) k := by
  unfold Always at *
  rw [wp_bind]
  exact wp_mono h (fun a k' hk => hf a k' hk) (fun _ _ hk => hk)

theorem next_cases {op : Op} {k' : Kernel} (h : next op k = some k') :
    op.enabled k = true ∧ k' = final op.run k ∧
      (op.run k = .ok () k' ∨ op.run k = .error .resched k') := by
  unfold next at h
  split at h
  case isFalse => exact absurd h (by simp)
  case isTrue hen =>
    refine ⟨hen, ?_⟩
    unfold final
    split at h
    · rename_i hx
      obtain rfl := Option.some.inj h
      simp [hx]
    · rename_i hx
      obtain rfl := Option.some.inj h
      simp [hx]
    · exact absurd h (by simp)

/-- What `env_init` establishes and the `env_create` of every program keeps holds after boot. -/
theorem boot_rule_mem {I : Kernel → Prop} {mc : Machine} {programs : List (Image × Word)}
    (hinit : wp (envInit mc) (fun _ => I) (fun _ _ => True) mc.initial)
    (hcreate : ∀ k p, p ∈ programs → I k →
      wp (envCreate p.1 p.2) (fun _ => I) (fun _ _ => True) k)
    (hb : boot mc programs = some k) : I k := by
  have hboot : wp (mipsInit mc programs) (fun _ => I) (fun _ _ => True) mc.initial := by
    unfold mipsInit
    rw [wp_bind]
    refine wp_mono hinit (fun _ k₁ h₁ => wp_forM (fun p hp k hk => ?_) h₁) (fun _ _ h => h)
    rw [wp_bind]
    exact wp_mono (hcreate k p hp hk) (fun _ _ h => (wp_pure _).mpr h) (fun _ _ h => h)
  unfold boot at hb
  split at hb
  case h_1 k' hk =>
    obtain rfl := Option.some.inj hb
    exact wp_run_ok hboot hk
  case h_2 => exact absurd hb (by simp)

theorem boot_rule {I : Kernel → Prop} {mc : Machine} {programs : List (Image × Word)}
    (hinit : wp (envInit mc) (fun _ => I) (fun _ _ => True) mc.initial)
    (hcreate : ∀ k image priority, I k →
      wp (envCreate image priority) (fun _ => I) (fun _ _ => True) k)
    (hb : boot mc programs = some k) : I k :=
  boot_rule_mem hinit (fun k p _ hk => hcreate k p.1 p.2 hk) hb

end Mos
