import Mos.Kern.Identity
import Mos.Mem.PageSpecs
import Mos.Sched

/-!
# The counter of `mkenvid` wraps

A process that creates a child, makes it runnable and destroys it again uses up nothing but the
counter. After `2 ^ 21` children an identifier comes again.
-/

namespace Mos

open Lib

variable {k k' : Kernel} {m : Mem} {p : Nat} {rest : List Nat}

/-! ## One page directory -/

/-- `p` is a page directory without page tables below `UTOP`. -/
structure BareDir (m : Mem) (p : Nat) : Prop where
  lt : p < m.npage
  npage_le : m.npage ≤ 2 ^ 20
  ref : m.ppRef p = 1
  bare : ∀ i, i < pdx utop → m.phys p i = 0

/-- The page `p` is the next one that `page_alloc` gives. -/
structure NextPage (m : Mem) (p : Nat) : Prop where
  lt : p < m.npage
  npage_le : m.npage ≤ 2 ^ 20
  ref : m.ppRef p = 0
  head : m.pageFreeList.head? = some p

section

variable {Q : Nat → Mem → Prop} {E : Fault → Mem → Prop}

theorem ppn_page (hp : p < m.npage) (hn : m.npage ≤ 2 ^ 20) : ppn (page2pa p) = p :=
  ppn_page2pa (by omega)

theorem wp_kaddr_page (hp : p < m.npage) (hn : m.npage ≤ 2 ^ 20) (hQ : Q p m) :
    wp (kaddr (page2pa p)) Q E m := by
  unfold kaddr
  simp only [wp_bind, wp_get, wp_ite, wp_throw, wp_pure, ppn_page hp hn]
  exact ⟨fun h => absurd hp (by omega), fun _ => hQ⟩

theorem wp_pa2page_page (hp : p < m.npage) (hn : m.npage ≤ 2 ^ 20) (hQ : Q p m) :
    wp (pa2page (page2pa p)) Q E m := by
  unfold pa2page
  simp only [wp_bind, wp_get, wp_ite, wp_throw, wp_pure, ppn_page hp hn]
  exact ⟨fun h => absurd hp (by omega), fun _ => hQ⟩

theorem wp_pageAlloc_next (h : NextPage m p)
    (hQ : ∀ rest, Q p { m with pageFreeList := rest, phys := Function.update m.phys p fun _ => 0 }) :
    wp pageAlloc Q E m := by
  obtain ⟨rest, hl⟩ : ∃ rest, m.pageFreeList = p :: rest := List.head?_eq_some_iff.mp h.head
  unfold pageAlloc
  rw [wp_bind, wp_get, hl]
  simp only [wp_bind, wp_modify]
  refine wp_kaddr_page h.lt h.npage_le ?_
  rw [wp_pure]
  exact hQ rest

end

theorem envSetupVm_next (h : NextPage k.mem p) (e : EnvIx) : wp (envSetupVm e)
    (fun _ k' => ∃ m, k' = (k.setMem m).setEnv e (fun env => { env with envPgdir := p }) ∧ BareDir m p)
    (fun _ _ => False) k := by
  unfold envSetupVm
  rw [wp_bind, wp_onMem]
  refine wp_pageAlloc_next h fun rest => ?_
  rw [wp_bind, wp_onMem, wp_modify, wp_bind, wp_onMem]
  refine wp_kaddr_page h.lt h.npage_le ?_
  rw [wp_bind, wp_updEnv, wp_bind, wp_get, wp_onMem, wp_modify]
  refine ⟨_, rfl, h.lt, h.npage_le, ?_, fun i hi => ?_⟩
  · simp [h.ref]
  · have hne : i ≠ pdx uvpt := by
      rintro rfl
      exact absurd hi (by decide)
    simp [setupDir, hne, not_le.mpr hi]

/-- Nothing is mapped, so `env_free` only gives the directory back. -/
theorem envFreeVm_bare (h : BareDir m p) (asid : Nat) :
    wp (envFreeVm p asid) (fun _ m' => NextPage m' p) (fun _ _ => False) m := by
  unfold envFreeVm
  rw [wp_bind]
  refine wp_mono (wp_forM (I := fun m' => m' = m) (fun i hi m' hm => ?_) rfl) ?_ (fun _ _ h => h)
  · subst hm
    have hlt : i < pdx utop := by simpa using (List.mem_filter.mp hi).2
    unfold envFreeTable
    rw [wp_bind, wp_readPte, h.bare i hlt, if_neg (by decide), wp_pure]
  · rintro _ m' rfl
    rw [wp_bind]
    refine wp_pa2page_page h.lt h.npage_le ?_
    unfold pageDecref pageFree
    have href : m'.ppRef p ≠ 0 := by simp [h.ref]
    have hzero : (m'.setRef p (m'.ppRef p - 1)).ppRef p = 0 := by simp [h.ref]
    simp only [wp_bind, wp_get, wp_ite, wp_throw, wp_modify, wp_pure]
    refine ⟨fun h0 => absurd h0 href, fun _ => ⟨fun _ => ⟨fun hn => absurd hzero hn, fun _ => ?_⟩,
      fun hn => absurd hzero hn⟩⟩
    exact ⟨h.lt, h.npage_le, hzero, rfl⟩

/-! ## One child -/

/-- The environment in slot 0 runs alone, and slot 1 is the next one to be used. -/
structure Alone (k : Kernel) : Prop where
  cur : k.curenv = some 0
  head : k.envFreeList.head? = some 1
  queued : Queued [0] k
  page : ∃ p, NextPage k.mem p
  asid : ∃ a < nasid, k.asidBitmap a = false

/-- The environment in slot 1 is its child. -/
structure WithChild (st : EnvStatus) (l : List EnvIx) (k : Kernel) : Prop where
  cur : k.curenv = some 0
  status : (k.envs 1).envStatus = st
  id : (k.envs 1).envId = envidOf k.mkenvidCount 1
  parent : (k.envs 1).envParentId = (k.envs 0).envId
  queued : Queued l k
  dir : BareDir k.mem (k.envs 1).envPgdir
  asid : (k.envs 1).envAsid < nasid

theorem exofork_alone (h : Alone k) : wp sysExofork
    (fun _ k' => WithChild .notRunnable [0] k' ∧ k'.mkenvidCount = k.mkenvidCount + 1 ∧
      k'.kstack = k.kstack)
    (fun _ _ => False) k := by
  obtain ⟨p, hp⟩ := h.page
  obtain ⟨a, ha, hfree⟩ := h.asid
  obtain ⟨rest, hl⟩ : ∃ rest, k.envFreeList = 1 :: rest := List.head?_eq_some_iff.mp h.head
  have hfind : ((List.range nasid).find? fun i => !k.asidBitmap i).isSome = true := by
    rw [List.find?_isSome]
    exact ⟨a, List.mem_range.mpr ha, by simp [hfree]⟩
  obtain ⟨b, hb⟩ := Option.isSome_iff_exists.mp hfind
  have hmade : wp sysExofork
      (fun _ k' => BareDir k'.mem (k'.envs 1).envPgdir ∧ (k'.envs 1).envAsid < nasid ∧
        k'.envSchedList = k.envSchedList ∧ k'.schedMisused = k.schedMisused ∧ k'.kstack = k.kstack)
      (fun _ _ => False) k := by
    unfold sysExofork envAlloc envSetup asidAlloc mkenvid
    rw [wp_bind]
    refine wp_curenvPtr (fun c _ => ?_) (fun hn => by simp [h.cur] at hn)
    simp only [wp_bind, wp_get, hl]
    refine wp_mono (envSetupVm_next hp 1) ?_ (fun _ _ h => h)
    rintro _ _ ⟨m, rfl, hdir⟩
    simp only [wp_updEnv, Kernel.setEnv_asidBitmap, Kernel.setMem_asidBitmap, hb, wp_bind,
      wp_modify, wp_pure]
    refine ⟨by simpa using hdir, ?_, rfl, rfl, rfl⟩
    simpa using List.mem_of_find?_eq_some hb
  refine wp_mono (wp_and hmade (sysExofork_spec k)) ?_ (fun _ _ h => h.1)
  rintro v k' ⟨⟨hdir, hasid, hlist, hmis, hframe⟩, c, e, m, asids, pgdir, asid, hc, he, hv, rfl⟩
  obtain rfl : e = 1 := Option.some.inj (he.symm.trans h.head)
  obtain rfl : c = 0 := Option.some.inj (hc.symm.trans h.cur)
  refine ⟨⟨h.cur, ?_, ?_, ?_, ?_, hdir, hasid⟩, rfl, hframe⟩
  · simp [Env.fork]
  · simp [Env.fork, Env.alloc, hv]
  · simp [Env.fork, Env.alloc]
  · exact ⟨hlist ▸ h.queued.1, hmis.trans h.queued.2⟩

theorem WithChild.target {st : EnvStatus} {l : List EnvIx} (h : WithChild st l k) (hst : st ≠ .free) :
    Mos.target k (k.envs 1).envId true = some 1 := by
  have hid : (k.envs 1).envId ≠ 0 := by
    rw [h.id]
    intro hzero
    have := envx_envidOf k.mkenvidCount 1
    rw [hzero] at this
    exact absurd this (by decide)
  have hx : envx (k.envs 1).envId = 1 := by rw [h.id, envx_envidOf]
  have hperm : Permitted k 1 := ⟨0, h.cur, Or.inr h.parent⟩
  unfold Mos.target
  rw [if_neg hid]
  simp only [hx]
  rw [if_neg (by simp [h.status, hst]), if_neg fun hn => hn.2 hperm]

theorem wp_envid2env_target {Q : EnvIx → Kernel → Prop} {E : Stop → Kernel → Prop} {envid : Word}
    {checkperm : Bool} {e : EnvIx} (h : Mos.target k envid checkperm = some e) (hQ : Q e k) :
    wp (envid2env envid checkperm) Q E k := by
  refine wp_mono (envid2env_spec k envid checkperm) ?_ ?_
  · rintro e' _ ⟨rfl, he⟩
    obtain rfl := Option.some.inj (he.symm.trans h)
    exact hQ
  · rintro _ _ ⟨_, _, hnone⟩
    rw [h] at hnone
    cases hnone

theorem setEnvStatus_child (h : WithChild .notRunnable [0] k) :
    wp (sysSetEnvStatus (k.envs 1).envId 1)
      (fun _ k' => WithChild .runnable [0, 1] k' ∧ k'.mkenvidCount = k.mkenvidCount ∧
        k'.kstack = k.kstack)
      (fun _ _ => False) k := by
  have hst : toStatus 1 = some .runnable := rfl
  unfold sysSetEnvStatus
  rw [hst]
  simp only [wp_bind]
  refine wp_envid2env_target (h.target (by decide)) ?_
  simp only [wp_get, h.status, wp_ite, wp_bind]
  refine ⟨fun _ => ⟨fun _ => ?_, fun hn => absurd trivial hn⟩, fun hn => absurd (by decide) hn⟩
  refine wp_schedInsertTail h.queued (by decide) fun q hq => ?_
  rw [wp_updEnv, wp_pure]
  refine ⟨⟨h.cur, ?_, ?_, ?_, hq, ?_, ?_⟩, rfl, rfl⟩
  · simp
  · simpa using h.id
  · simpa using h.parent
  · simpa using h.dir
  · simpa using h.asid

theorem envDestroy_child (h : WithChild .runnable [0, 1] k) :
    wp (sysEnvDestroy (k.envs 1).envId)
      (fun _ k' => Alone k' ∧ k'.mkenvidCount = k.mkenvidCount ∧ k'.kstack = k.kstack)
      (fun _ _ => False) k := by
  unfold sysEnvDestroy envDestroy envFree envRelease
  rw [wp_bind]
  refine wp_envid2env_target (h.target (by decide)) ?_
  simp only [wp_bind, wp_get, wp_onMem]
  refine wp_mono (envFreeVm_bare h.dir _) ?_ (fun _ _ h => h)
  intro _ m hpage
  unfold tlbInvalidate tlbOut
  rw [wp_asidFree, wp_modify, wp_updEnv, wp_modify]
  refine wp_schedRemove (l := [0, 1]) h.queued (by decide) fun q hq => ?_
  rw [wp_ite]
  refine ⟨fun hc => ?_, fun _ => ?_⟩
  · have := h.cur.symm.trans hc
    exact absurd (Option.some.inj this) (by decide)
  · rw [wp_pure, wp_pure]
    refine ⟨⟨h.cur, rfl, hq, ⟨_, hpage.lt, hpage.npage_le, hpage.ref, hpage.head⟩, ?_⟩, rfl, rfl⟩
    exact ⟨(k.envs 1).envAsid, h.asid, by simp⟩

/-! ## The calls of the process -/

/-- The status word of a process. -/
def userStatus : Word := eret initStatus

theorem syscall_next {f : Trapframe} {inp : Inputs} {s : Syscall} {P : Kernel → Prop}
    (hcur : k.curenv.isSome = true) (hu : k.status = userStatus)
    (hs : Syscall.ofFrame f inp = some s)
    (hw : wp (s.run inp) (fun _ k' => P k' ∧ k'.kstack = (k.entered f).kstack) (fun _ _ => False)
      (k.entered f)) :
    ∃ k₁ v, P k₁ ∧ next (.syscall f inp) k = some (k₁.returned v) ∧
      (k₁.returned v).status = userStatus := by
  have hbody : wp (Op.body (.syscall f inp))
      (fun _ k' => ∃ k₁ v, P k₁ ∧ k' = k₁.returned v ∧ k'.status = userStatus) (fun _ _ => False) k := by
    unfold Op.body doSyscall leaveKernel
    simp only [wp_bind, wp_enterKernel, wp_get]
    split
    case h_1 hnone => exact absurd (hnone.symm.trans hs) (by simp)
    case h_2 s' hs' =>
      obtain rfl : s = s' := Option.some.inj (hs.symm.trans hs')
      simp only [wp_bind, wp_modify, wp_recover, wp_setKstackReg, wp_restoreAll]
      refine wp_mono hw ?_ (fun _ _ h => h.elim)
      rintro v k₁ ⟨hP, hframe⟩
      refine ⟨k₁, v, hP, rfl, ?_⟩
      have hst : k₁.kstack.cp0Status = k.status ||| statusExl := by rw [hframe]; rfl
      show eret k₁.kstack.cp0Status = userStatus
      rw [hst, hu]
      decide
  obtain ⟨a, k', hx, k₁, v, hP, rfl, hst⟩ := exists_of_wp hbody
  refine ⟨k₁, v, hP, ?_, hst⟩
  have hen : Op.enabled k (.syscall f inp) = true := by
    show (k.curenv.isSome && userMode k.status) = true
    rw [hcur, hu]
    decide
  unfold next
  rw [if_pos hen]
  simp [Op.run, handle, hx]

theorem ofFrame_call (sysno a1 a2 a3 : Word) :
    Syscall.ofFrame ((((Trapframe.zero.setReg 4 sysno).setReg 5 a1).setReg 6 a2).setReg 7 a3) .none =
      syscallTable sysno.toNat a1 a2 a3 0 0 := by
  unfold Syscall.ofFrame
  simp [Inputs.none]

theorem fork_next (h : Alone k) (hu : k.status = userStatus) :
    ∃ k', next (callOp 9 0 0 0) k = some k' ∧ WithChild .notRunnable [0] k' ∧
      k'.mkenvidCount = k.mkenvidCount + 1 ∧ k'.status = userStatus := by
  have hent : ∀ f, Alone (k.entered f) := fun f => ⟨h.cur, h.head, h.queued, h.page, h.asid⟩
  obtain ⟨k₁, v, ⟨hc, hids⟩, hn, hst⟩ := syscall_next
    (P := fun k' => WithChild .notRunnable [0] k' ∧ k'.mkenvidCount = k.mkenvidCount + 1)
    (by rw [h.cur]; rfl) hu (ofFrame_call 9 0 0 0)
    (wp_mono (exofork_alone (hent _)) (fun _ _ hx => ⟨⟨hx.1, hx.2.1⟩, hx.2.2⟩) (fun _ _ hx => hx))
  exact ⟨_, hn, ⟨hc.cur, hc.status, hc.id, hc.parent, hc.queued, hc.dir, hc.asid⟩, hids, hst⟩

theorem wake_next (h : WithChild .notRunnable [0] k) (hu : k.status = userStatus) :
    ∃ k', next (callOp 10 (k.envs 1).envId 1 0) k = some k' ∧ WithChild .runnable [0, 1] k' ∧
      k'.mkenvidCount = k.mkenvidCount ∧ k'.status = userStatus := by
  have hent : ∀ f, WithChild .notRunnable [0] (k.entered f) := fun f =>
    ⟨h.cur, h.status, h.id, h.parent, h.queued, h.dir, h.asid⟩
  obtain ⟨k₁, v, ⟨hc, hids⟩, hn, hst⟩ := syscall_next
    (P := fun k' => WithChild .runnable [0, 1] k' ∧ k'.mkenvidCount = k.mkenvidCount)
    (by rw [h.cur]; rfl) hu (ofFrame_call 10 (k.envs 1).envId 1 0)
    (wp_mono (setEnvStatus_child (hent _)) (fun _ _ hx => ⟨⟨hx.1, hx.2.1⟩, hx.2.2⟩) (fun _ _ hx => hx))
  exact ⟨_, hn, ⟨hc.cur, hc.status, hc.id, hc.parent, hc.queued, hc.dir, hc.asid⟩, hids, hst⟩

theorem destroy_next (h : WithChild .runnable [0, 1] k) (hu : k.status = userStatus) :
    ∃ k', next (callOp 4 (k.envs 1).envId 0 0) k = some k' ∧ Alone k' ∧
      k'.mkenvidCount = k.mkenvidCount ∧ k'.status = userStatus := by
  have hent : ∀ f, WithChild .runnable [0, 1] (k.entered f) := fun f =>
    ⟨h.cur, h.status, h.id, h.parent, h.queued, h.dir, h.asid⟩
  obtain ⟨k₁, v, ⟨hc, hids⟩, hn, hst⟩ := syscall_next
    (P := fun k' => Alone k' ∧ k'.mkenvidCount = k.mkenvidCount)
    (by rw [h.cur]; rfl) hu (ofFrame_call 4 (k.envs 1).envId 0 0)
    (wp_mono (envDestroy_child (hent _)) (fun _ _ hx => ⟨⟨hx.1, hx.2.1⟩, hx.2.2⟩) (fun _ _ hx => hx))
  exact ⟨_, hn, ⟨hc.cur, hc.head, hc.queued, hc.page, hc.asid⟩, hids, hst⟩

/-! ## Many children -/

/-- The process runs, and all the environments but the first were its children in slot 1. -/
structure Breeds (p : Kernel × Births) : Prop where
  reachable : lineage.Reachable p
  alone : Alone p.1
  status : p.1.status = userStatus
  slot : ∀ n e id, 1 ≤ n → p.2.born[n]? = some (e, id) → e = 1

theorem Bears.same_of_ids {b : Bool} (h : Bears b k k') (hids : k'.mkenvidCount = k.mkenvidCount) :
    ∀ x, SameOrGone k k' x := by
  cases h with
  | nobody same => exact same
  | one _ _ _ _ _ _ ids =>
    rw [hids] at ids
    simp at ids

/-- One more child. -/
theorem Breeds.more {p : Kernel × Births} (h : Breeds p) :
    ∃ p', Breeds p' ∧ p'.2.born.length = p.2.born.length + 1 := by
  obtain ⟨k, g⟩ := p
  have hinv := birth_inv h.reachable
  obtain ⟨k₁, hn₁, hc₁, -, hu₁⟩ := fork_next h.alone h.status
  obtain ⟨k₂, hn₂, hc₂, hids₂, hu₂⟩ := wake_next hc₁ hu₁
  obtain ⟨k₃, hn₃, hc₃, hids₃, hu₃⟩ := destroy_next hc₂ hu₂
  have hs₁ : SlotInv k₁ := slot_next hinv.slots hn₁
  have hs₂ : SlotInv k₂ := slot_next hs₁ hn₂
  have hfree := hinv.slots.free_status 1 (List.mem_of_head? h.alone.head)
  have hnew : newborn k k₁ 1 = true := newborn_iff.mpr ⟨hfree, by simp [hc₁.status]⟩
  have hreach := lineage_call (lineage_call (lineage_call h.reachable trivial
    (c := .step (callOp 9 0 0 0)) hn₁) trivial (c := .step (callOp 10 _ 1 0)) hn₂) trivial
    (c := .step (callOp 4 _ 0 0)) hn₃
  have hborn := follow_newborn (c := .step (callOp 9 0 0 0)) g (bears_next hinv.slots hn₁) hnew
  simp only at hreach
  rw [hborn, follow_nobody _ ((bears_next hs₁ hn₂).same_of_ids hids₂),
    follow_nobody _ ((bears_next hs₂ hn₃).same_of_ids hids₃)] at hreach
  refine ⟨_, ⟨hreach, hc₃, hu₃, fun n e id hpos hn => ?_⟩, by simp⟩
  simp only at hn
  rcases Nat.lt_or_ge n g.born.length with hlt | hge
  · rw [List.getElem?_append_left hlt] at hn
    exact h.slot n e id hpos hn
  · rw [List.getElem?_append_right hge, List.getElem?_singleton] at hn
    split at hn
    · exact (Prod.mk.inj (Option.some.inj hn)).1.symm
    · cases hn

/-- What `Alone` asks for, and the first identifier. -/
def aloneCheck (k : Kernel) : Bool :=
  k.curenv == some 0 && k.envFreeList.head? == some 1 &&
  (k.envSchedList.first == some 0 && k.envSchedList.prev 0 == some .head &&
    k.envSchedList.next 0 == none && k.envSchedList.last == .node 0 && !k.schedMisused) &&
  (k.mem.pageFreeList.head?.any fun p => p < k.mem.npage && k.mem.ppRef p == 0) &&
  k.mem.npage ≤ 2 ^ 20 && !k.asidBitmap 1 && k.status == userStatus && k.mkenvidCount == 1

theorem aloneCheck_sound (h : aloneCheck k = true) :
    Alone k ∧ k.status = userStatus ∧ k.mkenvidCount = 1 := by
  unfold aloneCheck at h
  simp only [Bool.and_eq_true, beq_iff_eq, Bool.not_eq_true', decide_eq_true_eq,
    Option.any_eq_true] at h
  obtain ⟨⟨⟨⟨⟨⟨⟨hcur, hhead⟩, ⟨⟨⟨hfirst, hprev⟩, hnext⟩, hlast⟩, hmis⟩, p, hp, hlt, href⟩, hnp⟩,
    hasid⟩, hst⟩, hids⟩ := h
  refine ⟨⟨hcur, hhead, ⟨⟨by simp, hfirst, hprev, hnext, hlast⟩, hmis⟩, ⟨p, hlt, hnp, href, hp⟩, ?_⟩,
    hst, hids⟩
  exact ⟨1, by decide, hasid⟩

theorem lineage_longer {c : Call} {g : Births} (hr : lineage.Reachable (k, g))
    (hs : afterEnvInit.next c k = some k') :
    ∃ g', lineage.Reachable (k', g') ∧ g'.born.length ≤ g.born.length + 1 := by
  refine ⟨_, lineage_call hr trivial hs, ?_⟩
  rcases follow_length (h := g) (bears_call (birth_inv hr).slots hs).1 with hl | ⟨-, hl⟩
  · rw [hl]
    exact Nat.le_succ _
  · exact hl.le

theorem count_one {n : Nat} (hcount : k.mkenvidCount = BitVec.ofNat 32 n) (hone : k.mkenvidCount = 1)
    (hle : n ≤ 2) : n = 1 := by
  rw [hone] at hcount
  interval_cases n
  · exact absurd hcount (by decide)
  · rfl
  · exact absurd hcount (by decide)

theorem breeds_one {p : Kernel × Births} (hr : lineage.Reachable p) (ha : Alone p.1)
    (hst : p.1.status = userStatus) (hone : p.1.mkenvidCount = 1) (hle : p.2.born.length ≤ 2) :
    Breeds p ∧ p.2.born.length = 1 := by
  have hlength := count_one (birth_inv hr).count hone hle
  refine ⟨⟨hr, ha, hst, fun n e id hpos hn => ?_⟩, hlength⟩
  have hlt := (List.getElem?_eq_some_iff.mp hn).1
  omega

theorem breeds_start : ∃ p, Breeds p ∧ p.2.born.length = 1 := by
  have hcheck : ((smallInit.bind (afterEnvInit.exec [.create bareLoop 1, .step .start])).any
      aloneCheck) = true := by
    decide +kernel
  obtain ⟨k, hk, halone⟩ := (Option.any_eq_true _ _).mp hcheck
  obtain ⟨ha, hst, hids⟩ := aloneCheck_sound halone
  obtain ⟨k₀, h₀, hrun⟩ := Option.bind_eq_some_iff.mp hk
  obtain ⟨k₁, h₁, hrun⟩ := Option.bind_eq_some_iff.mp hrun
  obtain ⟨k₂, h₂, hrun⟩ := Option.bind_eq_some_iff.mp hrun
  obtain rfl := Option.some.inj hrun
  have hr₀ : lineage.Reachable (k₀, ⟨[], fun _ => none⟩) := .init ⟨smallInit_init h₀, rfl⟩
  obtain ⟨g₁, hr₁, hle₁⟩ := lineage_longer hr₀ h₁
  obtain ⟨g₂, hr₂, hle₂⟩ := lineage_longer hr₁ h₂
  exact ⟨(k₂, g₂), breeds_one hr₂ ha hst hids (hle₂.trans (Nat.succ_le_succ hle₁))⟩

theorem breeds_many (n : Nat) : ∃ p, Breeds p ∧ p.2.born.length = n + 1 := by
  induction n with
  | zero => exact breeds_start
  | succ n ih =>
    obtain ⟨p, hp, hlen⟩ := ih
    obtain ⟨p', hp', hlen'⟩ := hp.more
    exact ⟨p', hp', by omega⟩

/-- After `2 ^ 21` children the identifier of the first one comes again. -/
theorem not_never_reused : ∃ p, lineage.Reachable p ∧ ¬ NeverReused p.1 p.2 := by
  obtain ⟨p, hp, hlen⟩ := breeds_many (2 ^ 21 + 1)
  refine ⟨p, hp.reachable, fun hnever => ?_⟩
  have hinv := birth_inv hp.reachable
  have hget : ∀ n, 1 ≤ n → n < p.2.born.length →
      (p.2.born.map Prod.snd)[n]? = some (envidOf (BitVec.ofNat 32 (n + 1)) 1) := by
    intro n hpos hn
    obtain ⟨⟨e, id⟩, hborn⟩ : ∃ b, p.2.born[n]? = some b := ⟨_, List.getElem?_eq_getElem hn⟩
    obtain rfl := hp.slot n e id hpos hborn
    rw [List.getElem?_map, hborn, Option.map_some, hinv.ids n _ _ hborn]
  have hne := List.nodup_iff_getElem?_ne_getElem?.mp hnever.distinct 1 (1 + 2 ^ 21) (by omega)
    (by rw [List.length_map]; omega)
  rw [hget 1 (by omega) (by omega), hget (1 + 2 ^ 21) (by omega) (by omega)] at hne
  exact hne (congrArg some (by decide))

end Mos
