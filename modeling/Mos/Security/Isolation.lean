import Mos.Mem.References
import Mos.Mem.Spares

/-!
# Isolation

An environment that does not run and is not a child of the one that runs keeps its
record, its page tables and the pages that only it has mapped, whatever the others do,
unless a message or `kill_job` is for it.
-/

namespace Mos

open Lib (wp wp_bind wp_get wp_guard wp_modify wp_mono wp_and wp_pure wp_throw wp_ite wp_forM wp_recover
  wp_run_ok wp_run_error wp_handle)

variable {pool : Finset Nat} {base : Nat} {k k₀ k₁ k' : Kernel} {m : Mem} {x e c : EnvIx} {P : Set Nat}
  {va perm : Word} {p : Nat} {op : Op} {inp : Inputs} {s : Syscall} {α β : Type}

/-! ## What stays -/

/-- `x` has been left alone: of its record only `env_runs` may have changed, its directory and page
tables are as they were, and so are the pages in `P`. -/
structure Spared (x : EnvIx) (P : Set Nat) (k k' : Kernel) : Prop where
  record : ∃ n, k'.envs x = { k.envs x with envRuns := n }
  dir : k'.mem.phys (k.envs x).envPgdir = k.mem.phys (k.envs x).envPgdir
  table : ∀ i t, k.mem.pde (k.envs x).envPgdir i = some t → k'.mem.phys t = k.mem.phys t
  page : ∀ p ∈ P, k'.mem.phys p = k.mem.phys p

namespace Spared

theorem refl : Spared x P k k := ⟨⟨_, rfl⟩, rfl, fun _ _ _ => rfl, fun _ _ => rfl⟩

theorem pgdir (h : Spared x P k k') : (k'.envs x).envPgdir = (k.envs x).envPgdir := by
  obtain ⟨n, hn⟩ := h.record
  rw [hn]

theorem status (h : Spared x P k k') : (k'.envs x).envStatus = (k.envs x).envStatus := by
  obtain ⟨n, hn⟩ := h.record
  rw [hn]

theorem trans (h : Spared x P k k₁) (h' : Spared x P k₁ k') : Spared x P k k' where
  record := by
    obtain ⟨n, hn⟩ := h.record
    obtain ⟨n', hn'⟩ := h'.record
    exact ⟨n', by rw [hn', hn]⟩
  dir := by
    have hdir := h'.dir
    rw [h.pgdir] at hdir
    exact hdir.trans h.dir
  table i t ht := by
    have htable := h'.table i t
    rw [h.pgdir, pde_congr h.dir] at htable
    exact (htable ht).trans (h.table i t ht)
  page p hp := (h'.page p hp).trans (h.page p hp)

theorem mapped (h : Spared x P k k') (i j : WordIx) :
    k'.mem.mapped (k'.envs x).envPgdir i j = k.mem.mapped (k.envs x).envPgdir i j := by
  rw [h.pgdir]
  exact mapped_congr h.dir (h.table) i j

theorem of_mem (hm : k'.mem = k.mem) (hr : ∃ n, k'.envs x = { k.envs x with envRuns := n }) :
    Spared x P k k' :=
  ⟨hr, by rw [hm], fun _ _ _ => by rw [hm], fun _ _ => by rw [hm]⟩

theorem of_envs (hm : k'.mem = k.mem) (he : k'.envs x = k.envs x) : Spared x P k k' :=
  .of_mem hm ⟨_, he⟩

theorem setEnv (f : Env → Env) (hne : e ≠ x) : Spared x P k (k.setEnv e f) :=
  .of_envs rfl (by simp [hne.symm])

theorem switched (hs : Switched k e k') (hc : k.curenv ≠ some x) : Spared x P k k' := by
  refine .of_mem hs.mem ⟨(k'.envs x).envRuns, ?_⟩
  rw [hs.envs, Env.switched, if_neg hc]

end Spared

/-- No other environment maps a page in `P`. -/
def Unshared (x : EnvIx) (P : Set Nat) (v : Vm) : Prop :=
  ∀ e s i j w, e ≠ x → v.space e = some s → i < pdx utop → v.mem.mapped s.pgdir i j = some w → ppn w ∉ P

/-- `x` lives, and the pages in `P` are its own. -/
structure Aside (pool : Finset Nat) (base : Nat) (x : EnvIx) (P : Set Nat) (k : Kernel) : Prop where
  sound : Sound pool base k
  live : (k.envs x).envStatus ≠ .free
  mapped : ∀ p ∈ P, ∃ i j, i < pdx utop ∧ k.mem.pte (k.envs x).envPgdir i j = some p
  unshared : Unshared x P k.vm

/-- What a function leaves. -/
structure Beside (pool : Finset Nat) (base : Nat) (x : EnvIx) (P : Set Nat) (k k' : Kernel) : Prop where
  spared : Spared x P k k'
  aside : Aside pool base x P k'

/-- Everything may be mapped but the pages in `P`. -/
abbrev besides (P : Set Nat) : Grant := fun _ _ _ w => ppn w ∉ P

theorem Unshared.path {v v' : Vm} (h : Unshared x P v) (hi : VmInv pool base v)
    (hp : Vm.Path pool base (besides P) v v') : Unshared x P v' := by
  refine hp.invariant (I := Unshared x P) (fun hv hs hunshared => ?_) hi h
  intro e s i j w he hspace hu hw
  rcases hs.entries hv hspace hu hw with ⟨hspace, hw⟩ | hgrant
  · exact hunshared e s i j w he hspace hu hw
  · exact hgrant

namespace Aside

theorem dirs (h : Aside pool base x P k) : k.vm.dirs x = some (k.envs x).envPgdir := Sound.dirs_live h.live

theorem mem_pool (h : Aside pool base x P k) (hp : p ∈ P) : p ∈ pool := by
  obtain ⟨i, j, hi, hpte⟩ := h.mapped p hp
  obtain ⟨t, ht, hentry⟩ := Option.bind_eq_some_iff.mp hpte
  rcases h.sound.vm.table x _ i t h.dirs ht with hown | ⟨hle, -⟩
  · exact (hown.pages j p hentry).2
  · exact absurd hi (not_lt.mpr hle)

theorem not_free (h : Aside pool base x P k) (hp : p ∈ P) : p ∉ k.mem.pageFreeList := by
  obtain ⟨i, j, -, hpte⟩ := h.mapped p hp
  exact (h.sound.vm.toMemInv.held_data h.dirs hpte (h.mem_pool hp)).not_free

theorem others (h : Aside pool base x P k) (hne : e ≠ x) (hp : p ∈ P) :
    Others pool k.vm.dirs e k.mem p := by
  obtain ⟨i, j, -, hpte⟩ := h.mapped p hp
  exact ⟨h.mem_pool hp, x, _, i, j, hne.symm, h.dirs, hpte⟩

theorem setMem (h : Aside pool base x P k) (hne : e ≠ x)
    (hs : Spares pool k.vm.dirs e k.mem m) : Spared x P k (k.setMem m) := by
  obtain ⟨hdir, htable⟩ := hs.apart x _ hne.symm h.dirs
  exact ⟨⟨_, rfl⟩, hdir, htable, fun p hp => hs.data p (h.others hne hp)⟩

theorem keep (h : Aside pool base x P k) (hs : Spared x P k k') (hsound : Sound pool base k')
    (ha : Unshared x P k'.vm) : Beside pool base x P k k' := by
  refine ⟨hs, hsound, hs.status ▸ h.live, fun p hp => ?_, ha⟩
  obtain ⟨i, j, hi, hpte⟩ := h.mapped p hp
  refine ⟨i, j, hi, ?_⟩
  rw [pte_eq, hs.mapped, ← pte_eq]
  exact hpte

theorem moved (h : Aside pool base x P k) (hm : Moved pool base (besides P) k k')
    (hs : Spared x P k k') : Beside pool base x P k k' :=
  h.keep hs hm.sound (h.unshared.path h.sound.vm hm.path)

theorem not_mapped (h : Aside pool base x P k) (hne : e ≠ x) (he : (k.envs e).envStatus ≠ .free)
    {i j : WordIx} (hi : i < pdx utop) (hp : k.mem.pte (k.envs e).envPgdir i j = some p) : p ∉ P := by
  rw [pte_eq] at hp
  obtain ⟨w, hw, rfl⟩ := Option.map_eq_some_iff.mp hp
  exact h.unshared e _ i j w hne (Sound.space_live he) hi hw

end Aside

theorem Beside.refl (h : Aside pool base x P k) : Beside pool base x P k k := ⟨.refl, h⟩

theorem Beside.trans (h : Beside pool base x P k k₁) (h' : Beside pool base x P k₁ k') :
    Beside pool base x P k k' := ⟨h.spared.trans h'.spared, h'.aside⟩

theorem Beside.same (h : Beside pool base x P k₀ k) (hs : SameVm k k') (he : k'.envs x = k.envs x) :
    Beside pool base x P k₀ k' :=
  h.trans (h.aside.moved (hs.moved h.aside.sound) (.of_envs hs.mem he))

/-! ## Calls -/

/-- The function may stop the machine. Otherwise `x` has been left alone since `k₀`. -/
def Skips (x : EnvIx) (P : Set Nat) (k₀ : Kernel) (y : K α) (k : Kernel) : Prop :=
  wp y (fun _ => Spared x P k₀) (fun err k' => Halts err ∨ (err ≠ .tlbMod ∧ Spared x P k₀ k')) k

namespace Skips

theorem pure (a : α) (h : Spared x P k₀ k) : Skips x P k₀ (pure a : K α) k := (wp_pure a).mpr h

theorem fault {f : Fault} (h : Spared x P k₀ k) : Skips x P k₀ (throw (.fault f) : K α) k :=
  (wp_throw _).mpr (Or.inr ⟨by simp, h⟩)

theorem bind {y : K β} {f : β → K α} (hy : Skips x P k₀ y k)
    (hf : ∀ b k₁, Spared x P k₀ k₁ → Skips x P k₀ (f b) k₁) : Skips x P k₀ (y >>= f) k := by
  unfold Skips at *
  rw [wp_bind]
  exact wp_mono hy (fun b k₁ h => hf b k₁ h) (fun _ _ h => h)

theorem guard {p : Prop} [Decidable p] {f : Fault} {y : K α} (h : Spared x P k₀ k)
    (hy : ¬ p → Skips x P k₀ y k) : Skips x P k₀ (do
      if p then throw (.fault f)
      y) k :=
  wp_guard (fun _ => Or.inr ⟨by simp, h⟩) hy

theorem get {f : Kernel → K α} (hf : Skips x P k₀ (f k) k) :
    Skips x P k₀ (MonadState.get >>= f) k := by
  unfold Skips
  rw [wp_bind, wp_get]
  exact hf

theorem curenvPtr {f : EnvIx → K α} (hf : ∀ c, k.curenv = some c → Skips x P k₀ (f c) k) :
    Skips x P k₀ (Mos.curenvPtr >>= f) k := by
  unfold Skips
  rw [wp_bind]
  exact wp_curenvPtr hf fun _ => Or.inl trivial

theorem envid2env {envid : Word} {checkperm : Bool} {f : EnvIx → K α} (h : Spared x P k₀ k)
    (hf : ∀ e, target k envid checkperm = some e → Skips x P k₀ (f e) k) :
    Skips x P k₀ (Mos.envid2env envid checkperm >>= f) k := by
  unfold Skips
  rw [wp_bind]
  refine wp_envid2env hf ?_
  rintro err (rfl | rfl)
  · exact Or.inr ⟨by simp, h⟩
  · exact Or.inl trivial

theorem lookup {d : Nat} {f : Option (Nat × PtePtr) → K α}
    (hf : Skips x P k₀ (f (k.mem.lookup d va)) k) :
    Skips x P k₀ (onMem (pageLookup d va) >>= f) k := by
  unfold Skips
  rw [wp_bind, wp_onMem]
  refine wp_mono (pageLookup_spec k.mem d va) ?_ (fun _ _ herr => Or.inl herr.2.halts)
  rintro r m ⟨rfl, rfl⟩
  exact hf

theorem schedule (h : Spared x P k₀ k) (hc : k.curenv ≠ some x) (yield : Bool) :
    Skips x P k₀ (Mos.schedule yield) k := by
  refine wp_mono (schedule_spec k yield) (fun _ _ h => h.elim) ?_
  rintro err k' (⟨rfl, e, hs⟩ | hh)
  · exact Or.inr ⟨by simp, h.trans (.switched hs hc)⟩
  · exact Or.inl hh

end Skips

theorem Aside.insert (h : Aside pool base x P k) (hne : e ≠ x) (he : (k.envs e).envStatus ≠ .free)
    (hva : pdx va < pdx utop) (hp : Held pool k.vm.dirs k.mem p) (hok : Mappable (besides P) k e p va perm) :
    Skips x P k (onMem (pageInsert (k.envs e).envPgdir (k.envs e).envAsid p va perm)) k := by
  unfold Skips
  rw [wp_onMem]
  refine wp_mono (pageInsert_spares h.sound.vm.toMemInv (Sound.dirs_live he) hva hp hok.plain hok.room)
    (fun _ _ hs => h.setMem hne hs) ?_
  rintro err m (hbad | hs)
  · exact Or.inl hbad.halts
  · exact Or.inr ⟨by simp, h.setMem hne hs⟩

theorem memAlloc_skips (h : Aside pool base x P k) {envid : Word}
    (hx : target k envid true ≠ some x) (hok : CallOk (besides P) k (.memAlloc envid va perm)) :
    Skips x P k (sysMemAlloc envid va perm) k := by
  unfold sysMemAlloc
  refine .guard .refl fun hva => .envid2env .refl fun e he => ?_
  have hva := (Bool.not_eq_true _).mp hva
  have hne : e ≠ x := fun hex => hx (hex ▸ he)
  have hlive := h.sound.target_live he
  have hinv := h.sound.vm.toMemInv
  unfold Skips
  rw [wp_bind, wp_onMem]
  refine wp_mono (pageAlloc_spec hinv) ?_ ?_
  · rintro p m ⟨rest, hfree, rfl⟩
    have hm := hok e p va perm (.memAlloc hva he (by rw [hfree]; rfl))
    have hd := Sound.dirs_live hlive
    have hfresh := hinv.fresh_taken hfree
    have hroom : ((k.mem.taken p rest).ppRef p).toNat = 65535 →
        (k.mem.taken p rest).pte (k.envs e).envPgdir (pdx va) (ptx va) = some p := by
      intro hmax
      have hzero := congrArg BitVec.toNat hfresh.ppRef
      exact absurd (hzero.symm.trans hmax) (by decide)
    have htaken : Spares pool k.vm.dirs e k.mem (k.mem.taken p rest) := .taken hinv hfree
    refine Skips.get (.bind ?_ fun _ _ hs => .pure _ hs)
    unfold Skips
    rw [wp_onMem]
    refine wp_mono (pageInsert_spares (hinv.taken hfree) hd (legal_pdx hva) hfresh.held hm.plain hroom)
      (fun _ _ hs => h.setMem hne (htaken.trans hs)) ?_
    rintro err m (hbad | hs)
    · exact Or.inl hbad.halts
    · exact Or.inr ⟨by simp, h.setMem hne (htaken.trans hs)⟩
  · rintro err m (⟨rfl, rfl⟩ | hbad)
    · exact Or.inr ⟨by simp, .refl⟩
    · exact Or.inl hbad.halts

theorem memMap_skips (h : Aside pool base x P k) {srcid srcva dstid dstva : Word}
    (hx : target k dstid true ≠ some x)
    (hok : CallOk (besides P) k (.memMap srcid srcva dstid dstva perm)) :
    Skips x P k (sysMemMap srcid srcva dstid dstva perm) k := by
  unfold sysMemMap
  refine .guard .refl fun hva => ?_
  rw [not_or, Bool.not_eq_true, Bool.not_eq_true] at hva
  refine .envid2env .refl fun src hsrc => .envid2env .refl fun dst hdst => .get (.get (.lookup ?_))
  cases hl : k.mem.lookup (k.envs src).envPgdir srcva with
  | none => exact .fault .refl
  | some r =>
    obtain ⟨p, w⟩ := r
    have hpage : k.pageAt src srcva = some p := by
      rw [Kernel.pageAt, hl]
      rfl
    have hheld := lookup_held h.sound (h.sound.target_live hsrc) (legal_pdx hva.1) hl
    refine .bind ?_ fun _ _ hs => .pure _ hs
    exact h.insert (fun hex => hx (hex ▸ hdst)) (h.sound.target_live hdst) (legal_pdx hva.2) hheld
      (hok dst p dstva perm (.memMap hva.1 hva.2 hsrc hdst hpage))

theorem memUnmap_skips (h : Aside pool base x P k) {envid : Word}
    (hx : target k envid true ≠ some x) : Skips x P k (sysMemUnmap envid va) k := by
  unfold sysMemUnmap
  refine .guard .refl fun hva => .envid2env .refl fun e he => .get (.bind ?_ fun _ _ hs => .pure _ hs)
  have hva := (Bool.not_eq_true _).mp hva
  have hd := Sound.dirs_live (h.sound.target_live he)
  unfold Skips
  rw [wp_onMem]
  exact wp_mono (pageRemove_spares h.sound.vm.toMemInv hd (legal_pdx hva))
    (fun _ _ hs => h.setMem (fun hex => hx (hex ▸ he)) hs) (fun _ _ hbad => Or.inl hbad.halts)

/-! ## Messages -/

theorem Skips.after {y : K α} (h : Spared x P k₀ k) (hy : Skips x P k y k) : Skips x P k₀ y k :=
  wp_mono hy (fun _ _ hs => h.trans hs) (fun _ _ hs => hs.imp_right fun hs => ⟨hs.1, h.trans hs.2⟩)

theorem mapSent_skips (h : Aside pool base x P k) (hne : e ≠ x) (he : (k.envs e).envStatus ≠ .free)
    {srcva : Word} (hva : pdx srcva < pdx utop) (hok : ∀ c p, k.curenv = some c →
      k.pageAt c srcva = some p → Mappable (besides P) k e p (k.envs e).envIpcDstva perm) :
    Skips x P k (mapSent e srcva perm) k := by
  unfold mapSent
  refine .curenvPtr fun c hc => .get (.lookup ?_)
  cases hl : k.mem.lookup (k.envs c).envPgdir srcva with
  | none => exact .fault .refl
  | some r =>
    obtain ⟨p, w⟩ := r
    have hpage : k.pageAt c srcva = some p := by
      rw [Kernel.pageAt, hl]
      rfl
    have hheld := lookup_held h.sound (h.sound.live hc) hva hl
    exact .get (h.insert hne he (pdx_lt_utop (h.sound.dstva_lt e)) hheld (hok c p hc hpage))

theorem send_skips (h : Aside pool base x P k) {waiting : Env → Bool} {deliver : Word → Env → Env}
    (hd : Delivers deliver) {envid srcva : Word} (hx : ∀ c, ¬ Ready k waiting envid srcva c x)
    (hok : ∀ c e p, srcva ≠ 0 → Ready k waiting envid srcva c e → k.pageAt c srcva = some p →
      Mappable (besides P) k e p (k.envs e).envIpcDstva perm) :
    Skips x P k (send waiting deliver envid srcva perm) k := by
  unfold send wakeAndMap
  refine .guard .refl fun hlegal => .envid2env .refl fun e he => .get ?_
  refine .guard .refl fun hwait => .curenvPtr fun c hc => .get ?_
  have hlive := h.sound.target_live he
  have hready : Ready k waiting envid srcva c e := ⟨hlegal, he, by simpa using hwait, hc⟩
  have hne : e ≠ x := fun hex => hx c (hex ▸ hready)
  have hwake := hd.woken (k.envs c).envId hlive
  unfold Skips
  rw [wp_bind, wp_updEnv, wp_bind, wp_updEnv, wp_bind]
  refine wp_mono (schedInsertTail_spec _ e) ?_ (fun _ _ h => h.elim)
  rintro _ k₃ ⟨q, b, rfl⟩
  have hs := hwake.trans (LinkFree.setList (R := SameVm) _ q b)
  have hb := (Beside.refl h).same hs (by simp [hne.symm])
  split
  case isFalse => exact (wp_pure _).mpr hb.spared
  case isTrue hsrc =>
    have hva : isIllegalVa srcva = false := (Bool.not_eq_true _).mp fun hill => hlegal ⟨hsrc, hill⟩
    refine Skips.bind (.after hb.spared ?_) fun _ _ hs => .pure _ hs
    refine mapSent_skips hb.aside hne ((hs.live_iff e).mpr hlive) (legal_pdx hva) fun c' p hc' hp => ?_
    obtain rfl : c = c' := Option.some.inj (hc.symm.trans hc')
    rw [hs.dstva]
    have hpage := (hs.pageAt (h.sound.live hc) srcva).symm.trans hp
    exact hs.mappable hlive (hok c e p hsrc hready hpage)

theorem Spared.blocked {f : Env → Env} {q : Lib.TailQueue EnvIx} {b : Bool} (hc : k.curenv = some c)
    (hne : c ≠ x) (hs : Switched (k.blocked c f q b) e k') : Spared x P k k' := by
  have hset : Spared x P k (k.blocked c f q b) := .of_envs rfl (by simp [Kernel.blocked, hne.symm])
  refine hset.trans (.switched hs ?_)
  exact fun hx => hne (Option.some.inj (hc.symm.trans hx))

theorem ipcRecv_skips (hx : k.curenv ≠ some x) (dstva : Word) :
    Skips x P k (sysIpcRecv dstva) k := by
  refine wp_mono (sysIpcRecv_spec k dstva) (fun _ _ h => h.elim) ?_
  rintro err k' (⟨⟨f, rfl⟩, rfl⟩ | hh | ⟨rfl, -, c, q, b, e, hc, hs⟩)
  · exact Or.inr ⟨by simp, .refl⟩
  · exact Or.inl hh
  · exact Or.inr ⟨by simp, .blocked hc (fun hcx => hx (hcx ▸ hc)) hs⟩

theorem recvReturnValue_skips (hx : k.curenv ≠ some x) : Skips x P k sysRecvReturnValue k := by
  refine wp_mono (sysRecvReturnValue_spec k) (fun _ _ h => h.elim) ?_
  rintro err k' (hh | ⟨rfl, c, q, b, e, hc, hs⟩)
  · exact Or.inl hh
  · exact Or.inr ⟨by simp, .blocked hc (fun hcx => hx (hcx ▸ hc)) hs⟩

/-! ## Environments come and go -/

theorem envDestroy_skips (h : Aside pool base x P k) (hne : e ≠ x)
    (he : (k.envs e).envStatus ≠ .free) : Skips x P k (envDestroy e) k := by
  have hfree : wp (envFree e) (fun _ k' => Spared x P k k' ∧ k'.curenv = k.curenv)
      (fun err _ => Halts err) k := by
    unfold envFree envRelease
    simp only [wp_bind, wp_get]
    rw [wp_onMem]
    refine wp_mono (envFreeVm_spares h.sound.vm.toMemInv (Sound.dirs_live he)) ?_
      (fun _ _ hbad => hbad.halts)
    intro _ m hs
    rw [wp_asidFree, wp_onMem, wp_tlbInvalidate, wp_updEnv, wp_modify]
    refine wp_mono (schedRemove_spec _ e) ?_ (fun _ _ hh => hh)
    rintro _ _ ⟨q, b, rfl⟩
    refine ⟨(h.setMem hne hs).trans ⟨⟨(k.envs x).envRuns, ?_⟩, rfl, fun _ _ _ => rfl, fun _ _ => rfl⟩, rfl⟩
    simp [Kernel.setEnv, Kernel.setMem, hne.symm]
  unfold envDestroy Skips
  rw [wp_bind]
  refine wp_mono hfree ?_ (fun _ _ hh => Or.inl hh)
  rintro _ k₁ ⟨hs, hcur⟩
  simp only [wp_bind, wp_get, wp_ite, wp_modify, wp_pure]
  refine ⟨fun _ => ?_, fun _ => hs⟩
  have hnone : Spared x P k { k₁ with curenv := none } := hs.trans (.of_envs rfl rfl)
  exact Skips.schedule hnone (by simp) true

theorem killJob_skips (h : Aside pool base x P k) {jobId : Word}
    (hjob : ∀ i < k.jobCnt, (k.jobs i).jobId = jobId → envx (k.jobs i).envid ≠ x) :
    Skips x P k (envKillJob jobId) k := by
  unfold envKillJob findJob
  refine .get ?_
  dsimp only
  split
  case h_2 => exact .pure _ .refl
  case h_1 i hi =>
    have hlt := List.mem_range.mp (List.mem_of_find?_eq_some hi)
    have hid : (k.jobs i).jobId = jobId := by simpa using List.find?_some hi
    refine .get (.get ?_)
    unfold Skips
    simp only [wp_bind, wp_ite, wp_pure]
    refine ⟨fun hrun => ?_, fun _ => .refl⟩
    refine wp_mono (envDestroy_skips h (hjob i hlt hid) (by rw [hrun]; simp)) ?_ (fun _ _ h => h)
    exact fun _ k₁ hs => (wp_updJob _ _).mpr (hs.trans (.of_envs rfl rfl))

theorem envAlloc_skips (h : Aside pool base x P k)
    (hfree : ∀ e, k.envFreeList.head? = some e → (k.envs e).envStatus = .free) (parentId : Word) :
    wp (envAlloc parentId) (fun e k' => e ≠ x ∧ Spared x P k k')
      (fun err k' => Halts err ∨ (err ≠ .tlbMod ∧ Spared x P k k')) k := by
  unfold envAlloc
  rw [wp_bind, wp_get]
  cases hf : k.envFreeList with
  | nil => exact (wp_throw _).mpr (Or.inr ⟨by simp, .refl⟩)
  | cons e rest =>
    have hne : e ≠ x := by
      rintro rfl
      exact h.live (hfree e (by rw [hf]; rfl))
    unfold envSetup
    simp only [wp_bind]
    refine wp_mono (setupVm_spec h.sound e) ?_ ?_
    · rintro _ _ ⟨p, rest', hpages, rfl⟩
      have hbase := h.sound.base
      have hs : Spared x P k (k.setMem ((k.mem.taken p rest').newDir k.basePgdir p)) :=
        h.setMem hne (hbase ▸ newDir_spares h.sound.vm.toMemInv hpages)
      have hset : ∀ k', k'.mem = (k.mem.taken p rest').newDir k.basePgdir p → k'.envs x = k.envs x →
          Spared x P k k' := fun k' hm he => hs.trans (.of_envs hm he)
      rw [wp_updEnv]
      refine wp_mono (asidAlloc_spec _) ?_ ?_
      · rintro a _ ⟨-, -, rfl⟩
        unfold mkenvid
        simp only [wp_bind, wp_updEnv, wp_modify, wp_get, wp_pure]
        exact ⟨hne, hset _ rfl (by simp [Kernel.setEnv, Kernel.setMem, hne.symm])⟩
      · rintro err _ ⟨rfl, rfl⟩
        exact Or.inr ⟨by simp, hset _ rfl (by simp [hne.symm])⟩
    · rintro err _ (hh | ⟨rfl, rfl⟩)
      · exact Or.inl hh
      · exact Or.inr ⟨by simp, .refl⟩

theorem exofork_skips (h : Aside pool base x P k)
    (hfree : ∀ e, k.envFreeList.head? = some e → (k.envs e).envStatus = .free) :
    Skips x P k sysExofork k := by
  unfold sysExofork
  refine .curenvPtr fun c hc => .get ?_
  unfold Skips
  rw [wp_bind]
  refine wp_mono (envAlloc_skips h hfree _) ?_ (fun _ _ h => h)
  rintro e k₁ ⟨hne, hs⟩
  simp only [wp_bind, wp_get, wp_updEnv, wp_pure]
  exact (((hs.trans (.setEnv _ hne)).trans (.setEnv _ hne)).trans (.setEnv _ hne)).trans (.setEnv _ hne)

/-! ## Page faults -/

/-- `curenv` and its faults have gone on, beside `x`. -/
structure Bypassed (pool : Finset Nat) (base : Nat) (x : EnvIx) (P : Set Nat) (k k' : Kernel) : Prop
    extends Beside pool base x P k k' where
  cur : k'.curenv = k.curenv
  pgdir : k'.curPgdir = k.curPgdir

namespace Bypassed

theorem refl (h : Aside pool base x P k) : Bypassed pool base x P k k := ⟨.refl h, rfl, rfl⟩

theorem trans (h : Bypassed pool base x P k k₁) (h' : Bypassed pool base x P k₁ k') :
    Bypassed pool base x P k k' :=
  ⟨h.toBeside.trans h'.toBeside, h'.cur.trans h.cur, h'.pgdir.trans h.pgdir⟩

/-- The machine may have stopped, or the function ends with a TLB Mod exception. -/
def Ends (pool : Finset Nat) (base : Nat) (x : EnvIx) (P : Set Nat) (k : Kernel) (err : Stop)
    (k' : Kernel) : Prop := Halts err ∨ (err = .tlbMod ∧ Bypassed pool base x P k k')

end Bypassed

theorem pte_user {sp : Spaces} {d : Nat} {i j : WordIx} (h : MemInv pool base sp m) (he : sp e = some d)
    (hpte : m.pte d i j = some p) (hp : p ∈ pool) : i < pdx utop := by
  obtain ⟨t, ht, hentry⟩ := Option.bind_eq_some_iff.mp hpte
  rcases h.table e d i t he ht with hown | ⟨-, hshared⟩
  · exact (hown.pages j p hentry).1
  · exact absurd hp (hshared.pages j p hentry)

/-- `do_tlb_refill` for `curenv`: a page that it maps was free. -/
theorem refill_bypassed (h : Aside pool base x P k) (hc : k.curenv = some c) (hne : c ≠ x) (va : Word) :
    wp (onMem (doTlbRefill k.curPgdir va k.entryHiAsid)) (fun _ => Bypassed pool base x P k)
      (fun err _ => Halts err) k := by
  have hinv := h.sound.vm.toMemInv
  have hgrant : ∀ q ∈ k.mem.pageFreeList, Faultable va →
      besides P c (pdx va) (ptx va) (pteWord q pteD) := by
    intro q hq _ hqP
    rw [ppn_pteWord_low (hinv.lt_two_pow (hinv.counts.free_used q hq)) (by decide)] at hqP
    exact h.not_free hqP hq
  rw [wp_onMem]
  refine wp_mono (wp_and (doTlbRefill_spec hinv (h.sound.dirs hc) hgrant (fun _ _ _ => trivial))
    (doTlbRefill_spares hinv (h.sound.dirs hc))) ?_ (fun _ _ herr => herr.1.halts)
  rintro _ m ⟨⟨⟨m₁, pte, hch, hwalk, rfl⟩, -⟩, hs⟩
  have hwork : Vm.Step pool base (besides P) k.vm ⟨m₁, k.space⟩ := .work (h.sound.running c hc) hch
  have hfill : Vm.Step pool base (besides P) ⟨m₁, k.space⟩
      ⟨{ m₁ with tlb := m₁.tlbEntry k.entryHiAsid va pte :: m₁.tlb }, k.space⟩ :=
    .fill (v := ⟨m₁, k.space⟩) (h.sound.running c hc) hwalk
  have hmoved := h.sound.setMem ((Relation.ReflTransGen.single hwork).tail hfill)
  exact ⟨h.moved hmoved (h.setMem hne hs), rfl, rfl⟩

/-- A store to a page that `curenv` has mapped. -/
theorem store_bypassed (h : Aside pool base x P k) (hc : k.curenv = some c) (hne : c ≠ x) (hp : p ∈ pool)
    (hw : ¬ k.mem.Walked k.vm.dirs p) (hm : ∃ i j, k.mem.pte k.curPgdir i j = some p) (j : WordIx)
    (w : Word) : Bypassed pool base x P k (k.setMem (k.mem.store p j w)) := by
  have hnot : p ∉ P := by
    intro hpP
    obtain ⟨i, j, hpte⟩ := hm
    have hi := pte_user h.sound.vm.toMemInv (h.sound.dirs hc) hpte hp
    rw [pte_eq] at hpte
    obtain ⟨w, hmap, rfl⟩ := Option.map_eq_some_iff.mp hpte
    exact h.unshared c _ i j w hne (h.sound.running c hc) hi hmap hpP
  have hphys : ∀ q, q ≠ p → (k.mem.store p j w).phys q = k.mem.phys q := fun q hq => store_of_ne hq
  have hs : Spared x P k (k.setMem (k.mem.store p j w)) := by
    refine ⟨⟨(k.envs x).envRuns, rfl⟩, hphys _ ?_, fun i t ht => hphys t ?_, fun q hq => hphys q ?_⟩
    · rintro rfl
      exact hw (walked_dir h.dirs)
    · rintro rfl
      exact hw (walked_table h.dirs ht)
    · rintro rfl
      exact hnot hq
  exact ⟨h.moved (store_faulted h.sound hc hp hw j w).toMoved hs, rfl, rfl⟩

theorem kernelStore_bypassed (h : Aside pool base x P k) (hc : k.curenv = some c) (hne : c ≠ x)
    (va : Word) (size : Nat) (f : Word → Word) : wp (kernelStore va size f)
    (fun _ => Bypassed pool base x P k) (Bypassed.Ends pool base x P k) k := by
  unfold kernelStore
  simp only [wp_bind, wp_ite, wp_throw, wp_get]
  refine ⟨fun _ => Or.inl trivial, fun _ => ?_⟩
  refine wp_mono (refill_bypassed h hc hne va) ?_ (fun _ _ herr => Or.inl herr)
  intro _ k₁ h₁
  have hc₁ := h₁.cur.trans hc
  have hinv := h₁.aside.sound.vm.toMemInv
  have hd := h₁.aside.sound.dirs hc₁
  rw [wp_onMem, ← h₁.pgdir]
  refine wp_mono (wp_and (writable_spec hinv hd) (writable_mapped hinv hd)) ?_
    (fun _ _ herr => Or.inl herr.1.halts)
  rintro r m ⟨⟨rfl, hdata⟩, -, hmapped⟩
  cases r with
  | none => exact (wp_throw _).mpr (Or.inr ⟨rfl, h₁⟩)
  | some p =>
    obtain ⟨hp, hw⟩ := hdata p rfl
    rw [wp_onMem, wp_modify]
    exact h₁.trans (store_bypassed h₁.aside hc₁ hne hp hw (hmapped p rfl) _ _)

theorem doTlbMod_bypassed (h : Aside pool base x P k) (hc : k.curenv = some c) (hne : c ≠ x)
    (tf : Trapframe) : wp (doTlbMod tf) (fun _ => Bypassed pool base x P k)
    (Bypassed.Ends pool base x P k) k := by
  unfold doTlbMod storeFrame
  simp only [wp_bind]
  refine wp_mono (wp_forM (I := Bypassed pool base x P k) (E := Bypassed.Ends pool base x P k)
    (fun i _ k₁ h₁ => ?_) (.refl h)) ?_ (fun _ _ h => h)
  · refine wp_mono (kernelStore_bypassed h₁.aside (h₁.cur.trans hc) hne _ _ _) ?_ ?_
    · exact fun _ _ h₂ => h₁.trans h₂
    · exact fun _ _ h₂ => h₂.imp_right fun h₂ => ⟨h₂.1, h₁.trans h₂.2⟩
  intro _ k₁ h₁
  rw [wp_get, wp_onMem]
  refine wp_mono (pageLookup_spec k₁.mem _ _) ?_ (fun _ _ herr => Or.inl herr.2.halts)
  rintro r m ⟨rfl, -⟩
  refine wp_curenvPtr (fun _ _ => ?_) (fun _ => Or.inl trivial)
  simp only [wp_bind, wp_get, wp_ite, wp_throw, wp_pure]
  exact ⟨fun _ => Or.inl trivial, fun _ => h₁⟩

theorem Beside.regs (h : Beside pool base x P k₀ k) (st : Word) (tf : Trapframe) :
    Beside pool base x P k₀ { k with status := st, kstack := tf } := h.same (same_regs k st tf) rfl

theorem nestedTlbMod_beside (h : Aside pool base x P k) (hc : k.curenv = some c) (hne : c ≠ x)
    {kregs : Trapframe} (hx : nestedTlbMod kregs k = .error .resched k') :
    Beside pool base x P k k' := by
  have hw : wp (nestedTlbMod kregs) (fun _ _ => False)
      (fun err k' => Halts err ∨ Beside pool base x P k k') k := by
    unfold nestedTlbMod
    simp only [wp_bind, wp_get, wp_handle, wp_restoreAll, wp_throw]
    refine wp_mono (doTlbMod_bypassed h hc hne _) ?_ ?_
    · exact fun _ k₁ h₁ => Or.inr (h₁.toBeside.regs _ _)
    · rintro err k₁ (hh | ⟨rfl, -⟩)
      · exact ⟨fun _ => Or.inl trivial, fun _ => Or.inl hh⟩
      · exact ⟨fun _ => Or.inl trivial, fun hn => absurd hn (by simp)⟩
  exact (wp_run_error hw hx :).resolve_left id

/-! ## Steps beside `x` -/

/-- The calls that reach an environment without asking whose it is: a message that it waits for, and
`kill_job` of its job. -/
inductive Concerns (k : Kernel) (x : EnvIx) : Syscall → Prop
  | ipcTrySend {envid value srcva perm c}
      (ready : Ready k (fun env => env.envIpcRecving == 1) envid srcva c x) :
      Concerns k x (.ipcTrySend envid value srcva perm)
  | sendReturnValue {envid value srcva perm c}
      (ready : Ready k (fun env => env.waitingReturnValue == 1) envid srcva c x) :
      Concerns k x (.sendReturnValue envid value srcva perm)
  | killJob {jobId i} (lt : i < k.jobCnt) (id : (k.jobs i).jobId = jobId)
      (job : envx (k.jobs i).envid = x) : Concerns k x (.killJob jobId)

theorem Concerns.regs {st : Word} {tf : Trapframe} (h : Concerns { k with status := st, kstack := tf } x s) :
    Concerns k x s := by
  cases h with
  | ipcTrySend ready => exact .ipcTrySend ⟨ready.legal, ready.target, ready.waiting, ready.cur⟩
  | sendReturnValue ready => exact .sendReturnValue ⟨ready.legal, ready.target, ready.waiting, ready.cur⟩
  | killJob lt id job => exact .killJob lt id job

/-- `x` does not run, the one that runs is not its parent, and no message or `kill_job` is for `x`. -/
structure Bystander (k : Kernel) (op : Op) (x : EnvIx) : Prop where
  waits : k.curenv ≠ some x
  stranger : ∀ c, k.curenv = some c → (k.envs x).envParentId ≠ (k.envs c).envId
  unreached : ∀ f inp s, op = .syscall f inp → Syscall.ofFrame f inp = some s → ¬ Concerns k x s

theorem Bystander.not_target (h : Bystander k op x) (hslot : SlotInv k) (envid : Word) :
    target k envid true ≠ some x := by
  intro hx
  rcases target_cases hx with ⟨-, hc⟩ | ⟨-, -, hlive, -, hperm⟩
  · exact h.waits hc
  · obtain ⟨c, hc, hid | hparent⟩ := hperm rfl
    · have hxc : x = c := by
        rw [← hslot.ids x hlive, hid, hslot.ids c (hslot.cur_live c hc)]
      exact h.waits (hxc ▸ hc)
    · exact h.stranger c hc hparent

/-- A function that goes on beside `x`. -/
def Passes (pool : Finset Nat) (base : Nat) (x : EnvIx) (P : Set Nat) (k₀ : Kernel) (y : K α)
    (k : Kernel) : Prop :=
  wp y (fun _ => Beside pool base x P k₀) (fun err k' => Halts err ∨
    (Beside pool base x P k₀ k' ∧ (err = .tlbMod → ∃ c, k'.curenv = some c ∧ c ≠ x))) k

namespace Passes

variable {y : K α}

theorem of_goes (h : Aside pool base x P k) (hg : Goes pool base (besides P) k y k)
    (hl : Skips x P k y k) : Passes pool base x P k y k := by
  refine wp_mono (wp_and hg hl) (fun _ _ hx => h.moved hx.1 hx.2) ?_
  rintro err k' ⟨hh | ⟨hm, -⟩, hh' | ⟨herr, hs⟩⟩
  · exact Or.inl hh
  · exact Or.inl hh
  · exact Or.inl hh'
  · exact Or.inr ⟨h.moved hm hs, fun htlb => absurd htlb herr⟩

theorem pure (a : α) (h : Beside pool base x P k₀ k) : Passes pool base x P k₀ (pure a : K α) k :=
  (wp_pure a).mpr h

theorem fault {f : Fault} (h : Beside pool base x P k₀ k) :
    Passes pool base x P k₀ (throw (.fault f) : K α) k :=
  (wp_throw _).mpr (Or.inr ⟨h, fun herr => by cases herr⟩)

theorem guard {p : Prop} [Decidable p] {f : Fault} (h : Beside pool base x P k₀ k)
    (hy : ¬ p → Passes pool base x P k₀ y k) : Passes pool base x P k₀ (do
      if p then throw (.fault f)
      y) k :=
  wp_guard (fun _ => Or.inr ⟨h, fun herr => by cases herr⟩) hy

theorem bind {y : K β} {f : β → K α} (hy : Passes pool base x P k₀ y k)
    (hf : ∀ b k₁, Beside pool base x P k₀ k₁ → Passes pool base x P k₀ (f b) k₁) :
    Passes pool base x P k₀ (y >>= f) k := by
  unfold Passes at *
  rw [wp_bind]
  exact wp_mono hy (fun b k₁ h => hf b k₁ h) (fun _ _ h => h)

theorem of_ends (hc : k.curenv = some c) (hne : c ≠ x)
    (hy : wp y (fun _ => Bypassed pool base x P k) (Bypassed.Ends pool base x P k) k) :
    Passes pool base x P k y k := by
  refine wp_mono hy (fun _ _ hb => hb.toBeside) ?_
  rintro err k' (hh | ⟨-, hb⟩)
  · exact Or.inl hh
  · exact Or.inr ⟨hb.toBeside, fun _ => ⟨c, hb.cur.trans hc, hne⟩⟩

end Passes

theorem readDev_passes (h : Aside pool base x P k) (hc : k.curenv = some c) (hne : c ≠ x)
    (inp : Inputs) (va pa len : Word) : Passes pool base x P k (sysReadDev inp va pa len) k := by
  unfold sysReadDev
  refine .guard (.refl h) fun _ => .guard (.refl h) fun _ => ?_
  split
  · exact .bind (.of_ends hc hne (kernelStore_bypassed h hc hne _ _ _)) fun _ _ hb => .pure _ hb
  · exact .fault (.refl h)

/-- Every call of the table. -/
theorem call_passes (h : Aside pool base x P k) (hslot : SlotInv k) (hc : k.curenv = some c)
    (hne : c ≠ x) (ht : ∀ envid, target k envid true ≠ some x) (inp : Inputs) (hr : ¬ Concerns k x s)
    (hok : CallOk (besides P) k s) : Passes pool base x P k (s.run inp) k := by
  have hs := h.sound
  have hx : k.curenv ≠ some x := fun hcx => hne (Option.some.inj (hc.symm.trans hcx))
  have hfree : ∀ e, k.envFreeList.head? = some e → (k.envs e).envStatus = .free :=
    fun e he => hslot.free_status e (List.mem_of_head? he)
  have hself : ∀ {envid e}, target k envid true = some e → e ≠ x := fun he hex => ht _ (hex ▸ he)
  cases s with
  | putchar | cgetc | printJobs => exact .pure _ (.refl h)
  | printCons s num => exact .guard (.refl h) fun _ => .pure _ (.refl h)
  | getenvid =>
    refine .of_goes h (Goes.get (.curenvPtr fun _ _ => ?_)) (Skips.get (.curenvPtr fun _ _ => ?_))
    · exact .pure _ (.refl hs)
    · exact .pure _ .refl
  | yield =>
    refine .of_goes h (.bind (.schedule (.refl hs) true) fun _ _ hm => .pure _ hm) ?_
    exact .bind (.schedule .refl hx true) fun _ _ hl => .pure _ hl
  | envDestroy envid =>
    refine .of_goes h (.envid2env (.refl hs) fun e he => ?_) (.envid2env .refl fun e he => ?_)
    · exact .bind (envDestroy_goes hs (hs.target_live he)) fun _ _ hm => .pure _ hm
    · exact .bind (envDestroy_skips h (hself he) (hs.target_live he)) fun _ _ hl => .pure _ hl
  | setTlbModEntry envid func =>
    refine .of_goes h (setTlbModEntry_goes hs envid func) ?_
    refine wp_mono (sysSetTlbModEntry_spec k envid func) ?_ ?_
    · rintro _ _ ⟨e, he, rfl⟩
      exact .setEnv _ (hself he)
    · rintro _ _ ⟨⟨f, rfl⟩, rfl⟩
      exact Or.inr ⟨by simp, .refl⟩
  | memAlloc envid va perm => exact .of_goes h (memAlloc_goes hs hok) (memAlloc_skips h (ht _) hok)
  | memMap srcid srcva dstid dstva perm =>
    exact .of_goes h (memMap_goes hs hok) (memMap_skips h (ht _) hok)
  | memUnmap envid va => exact .of_goes h (memUnmap_goes hs envid va) (memUnmap_skips h (ht _))
  | exofork => exact .of_goes h (exofork_goes hs hfree) (exofork_skips h hfree)
  | setEnvStatus envid status =>
    refine .of_goes h (setEnvStatus_goes hs envid status) ?_
    refine wp_mono (sysSetEnvStatus_spec k envid status) ?_ ?_
    · rintro _ _ ⟨st, e, q, b, -, he, rfl⟩
      exact Spared.of_envs rfl (by simp [(hself he).symm])
    · rintro _ _ (⟨⟨f, rfl⟩, rfl⟩ | hh)
      · exact Or.inr ⟨by simp, .refl⟩
      · exact Or.inl hh
  | setTrapframe envid tf =>
    refine .of_goes h (setTrapframe_goes hs envid tf inp.tf) ?_
    refine wp_mono (sysSetTrapframe_spec k envid tf inp.tf) ?_ ?_
    · rintro _ _ ⟨-, e, he, ⟨-, -, rfl⟩ | ⟨-, -, rfl⟩⟩
      · exact .of_envs rfl rfl
      · exact .setEnv _ (hself he)
    · rintro _ _ ⟨⟨f, rfl⟩, rfl⟩
      exact Or.inr ⟨by simp, .refl⟩
  | panic msg => exact .fault (.refl h)
  | ipcTrySend envid value srcva perm =>
    have hd : Delivers (Env.sent value perm) :=
      ⟨fun _ _ => rfl, fun _ _ => rfl, fun _ _ => rfl, fun _ _ => rfl⟩
    have hmaps := fun c e p hsrc hr hp => hok e p _ perm (.ipcTrySend (c := c) hsrc hr hp)
    exact .of_goes h (send_goes hs hd hmaps) (send_skips h hd (fun c hc => hr (.ipcTrySend hc)) hmaps)
  | ipcRecv dstva => exact .of_goes h (ipcRecv_goes hs dstva) (ipcRecv_skips hx dstva)
  | writeDev va pa len =>
    exact .guard (.refl h) fun _ => .guard (.refl h) fun _ => .guard (.refl h) fun _ => .pure _ (.refl h)
  | readDev va pa len => exact readDev_passes h hc hne inp va pa len
  | createJob envid cmd =>
    refine .of_goes h (.bind (createJob_goes hs envid inp.cmd) fun _ _ hm => .pure _ hm) ?_
    refine .bind (.get (.guard .refl fun _ => ?_)) fun _ _ hl => .pure _ hl
    unfold Skips
    rw [wp_bind, wp_updJob, wp_modify]
    exact .of_envs rfl rfl
  | setJobDone envid =>
    refine .of_goes h (.bind (setJobDone_goes hs envid) fun _ _ hm => .pure _ hm) ?_
    refine .bind ?_ fun _ _ hl => .pure _ hl
    unfold envSetJobDone findJob
    refine .get ?_
    dsimp only
    split
    · exact (wp_updJob _ _).mpr (.of_envs rfl rfl)
    · exact .pure _ .refl
  | fgJob envid =>
    refine .of_goes h (fgJob_goes hs envid) ?_
    unfold Syscall.run envFgJob findJob
    refine .get ?_
    dsimp only
    split
    · exact .get (.pure _ .refl)
    · exact .pure _ .refl
  | killJob envid =>
    refine .of_goes h (.bind (killJob_goes hs envid) fun _ _ hm => .pure _ hm) ?_
    exact .bind (killJob_skips h fun i hi hid hjob => hr (.killJob hi hid hjob)) fun _ _ hl => .pure _ hl
  | sendReturnValue envid value srcva perm =>
    have hd : Delivers (Env.sentReturn value perm) :=
      ⟨fun _ _ => rfl, fun _ _ => rfl, fun _ _ => rfl, fun _ _ => rfl⟩
    have hmaps := fun c e p hsrc hr hp => hok e p _ perm (.sendReturnValue (c := c) hsrc hr hp)
    exact .of_goes h (send_goes hs hd hmaps)
      (send_skips h hd (fun c hc => hr (.sendReturnValue hc)) hmaps)
  | recvReturnValue => exact .of_goes h (recvReturnValue_goes hs) (recvReturnValue_skips hx)

/-- What the step maps is not in `P`. -/
theorem Aside.stepOk (h : Aside pool base x P k) (hslot : SlotInv k) (hb : Bystander k op x)
    (hplain : PlainStep k op) (hroom : Countable k op) : StepOk (besides P) k op := by
  have found : ∀ {e va p}, e ≠ x → (k.envs e).envStatus ≠ .free → isIllegalVa va = false →
      k.pageAt e va = some p → p ∉ P := by
    intro e va p hne he hva hp
    obtain ⟨⟨q, w⟩, hl, rfl⟩ := Option.map_eq_some_iff.mp hp
    obtain ⟨t, rfl, ht, hq⟩ := (lookup_user (legal_pdx hva)).mp hl
    exact h.not_mapped hne he (legal_pdx hva) hq
  have legal : ∀ {va : Word}, va ≠ 0 → ¬ (va ≠ 0 ∧ isIllegalVa va = true) → isIllegalVa va = false :=
    fun h0 hn => (Bool.not_eq_true _).mp fun hill => hn ⟨h0, hill⟩
  have sender : ∀ {c}, k.curenv = some c → c ≠ x := fun hc hcx => hb.waits (hcx ▸ hc)
  rintro e p va perm hm
  refine ⟨?_, hplain e p va perm hm, hroom e p va perm hm⟩
  have hkept := hplain e p va perm hm
  obtain ⟨f, inp, s, -, -, hmaps⟩ := hm
  unfold besides
  rw [hkept]
  cases hmaps with
  | memAlloc _ _ page => exact fun hp => h.not_free hp (List.mem_of_head? page)
  | memMap srcLegal _ source _ page =>
    refine found (fun hex => ?_) (h.sound.target_live source) srcLegal page
    exact hb.not_target hslot _ (hex ▸ source)
  | ipcTrySend send ready page =>
    exact found (sender ready.cur) (h.sound.live ready.cur) (legal send ready.legal) page
  | sendReturnValue send ready page =>
    exact found (sender ready.cur) (h.sound.live ready.cur) (legal send ready.legal) page

theorem Passes.leave (h : Beside pool base x P k₀ k) : Passes pool base x P k₀ leaveKernel k := by
  unfold leaveKernel Passes
  rw [wp_bind, wp_get, wp_restoreAll]
  exact h.regs _ k.kstack

theorem doSyscall_passes (h : Aside pool base x P k) (hslot : SlotInv k) (hc : k.curenv = some c)
    (hne : c ≠ x) (ht : ∀ envid, target k envid true ≠ some x) (inp : Inputs)
    (hr : ∀ s, Syscall.ofFrame k.kstack inp = some s → ¬ Concerns k x s)
    (hok : ∀ s, Syscall.ofFrame k.kstack inp = some s → CallOk (besides P) k s) :
    Passes pool base x P k (doSyscall inp) k := by
  unfold doSyscall Passes
  rw [wp_bind, wp_get]
  split
  case h_1 =>
    rw [wp_setKstackReg]
    exact (Beside.refl h).regs k.status _
  case h_2 s hs =>
    have hb := (Beside.refl h).regs k.status { k.kstack with cp0Epc := k.kstack.cp0Epc + 4 }
    have hreg : ∀ (k₁ : Kernel) v, Beside pool base x P k k₁ →
        Beside pool base x P k { k₁ with kstack := k₁.kstack.setReg 2 v } :=
      fun k₁ v h₁ => h₁.regs k₁.status _
    simp only [wp_bind, wp_modify, wp_recover, wp_setKstackReg]
    refine wp_mono (call_passes hb.aside (hslot.congr ⟨rfl, rfl, rfl⟩) hc hne ht inp
      (fun hconcerns => hr s hs hconcerns.regs) ((hok s hs).regs _ _)) ?_ ?_
    · exact fun v k₁ h₁ => hreg k₁ v (hb.trans h₁)
    · rintro err k₁ (hh | ⟨h₁, hcur⟩)
      · rw [errnoValue_halts hh]
        exact Or.inl hh
      · cases errnoValue err with
        | none => exact Or.inr ⟨hb.trans h₁, hcur⟩
        | some v => exact hreg k₁ v (hb.trans h₁)

/-- The body of a step. -/
theorem body_passes (h : Aside pool base x P k) (hslot : SlotInv k) (hb : Bystander k op x)
    (hok : StepOk (besides P) k op) (hen : op.enabled k = true) : Passes pool base x P k op.body k := by
  have htrap : ∀ f, Beside pool base x P k (k.trapped f) := fun f => (Beside.refl h).regs _ _
  have after : ∀ {k₁ : Kernel} {y : K Unit}, Beside pool base x P k k₁ → Passes pool base x P k₁ y k₁ →
      Passes pool base x P k y k₁ := fun h₁ hy => wp_mono hy (fun _ _ hb => h₁.trans hb)
    (fun _ _ hb => hb.imp_right fun hb => ⟨h₁.trans hb.1, hb.2⟩)
  have switch : ∀ {k₁ : Kernel}, Beside pool base x P k k₁ → k₁.curenv = k.curenv →
      Passes pool base x P k (schedule false) k₁ := fun h₁ hcur => after h₁
    (.of_goes h₁.aside (.schedule (.refl h₁.aside.sound) false)
      (.schedule .refl (hcur ▸ hb.waits) false))
  by_cases hstart : op = .start
  · subst hstart
    exact switch (.refl h) rfl
  obtain ⟨c, hc⟩ : ∃ c, k.curenv = some c := by
    refine Option.isSome_iff_exists.mp ?_
    cases op <;> simp_all [Op.enabled]
  have hne : c ≠ x := fun hcx => hb.waits (hcx ▸ hc)
  cases op with
  | start => exact absurd rfl hstart
  | syscall f inp =>
    unfold Op.body Passes
    rw [wp_bind, wp_enterKernel]
    refine Passes.bind (after (htrap f) ?_) fun _ _ hb => .leave hb
    have ht : ∀ envid, target (k.trapped f) envid true ≠ some x := hb.not_target hslot
    refine doSyscall_passes (htrap f).aside (hslot.congr ⟨rfl, rfl, rfl⟩) hc hne ht inp ?_ ?_
    · exact fun s hs hconcerns => hb.unreached f inp s rfl hs hconcerns.regs
    · intro s hs
      have hcall : CallOk (besides P) k s :=
        fun e p va perm hmaps => hok e p va perm ⟨f, inp, s, rfl, hs, hmaps⟩
      exact hcall.regs _ _
  | timer f =>
    unfold Op.body Passes
    rw [wp_bind, wp_enterKernel]
    exact switch (htrap f) rfl
  | tlbRefill f va =>
    unfold Op.body Passes
    rw [wp_bind, wp_enterKernel, wp_bind, wp_get, wp_bind]
    refine wp_mono (refill_bypassed (htrap _).aside hc hne va) ?_ (fun _ _ hh => Or.inl hh)
    exact fun _ k₁ hf => Passes.leave ((htrap _).trans hf.toBeside)
  | tlbMod f va inp =>
    unfold Op.body Passes
    rw [wp_bind, wp_enterKernel, wp_bind, wp_get, wp_bind]
    refine wp_mono (doTlbMod_bypassed (htrap _).aside hc hne _) ?_ ?_
    · intro tf k₁ hf
      rw [wp_bind, wp_modify]
      exact Passes.leave (((htrap _).trans hf.toBeside).regs k₁.status tf)
    · rintro err k₁ (hh | ⟨-, hf⟩)
      · exact Or.inl hh
      · exact Or.inr ⟨(htrap _).trans hf.toBeside, fun _ => ⟨c, hf.cur.trans hc, hne⟩⟩
  | store va w =>
    have hinv := h.sound.vm.toMemInv
    have hd := h.sound.dirs hc
    unfold Op.body Passes
    rw [wp_bind, wp_get, wp_bind, wp_onMem]
    refine wp_mono (wp_and (writable_spec hinv hd) (writable_mapped hinv hd)) ?_
      (fun _ _ herr => Or.inl herr.1.halts)
    rintro r m ⟨⟨rfl, hdata⟩, -, hmapped⟩
    cases r with
    | none => exact (wp_throw _).mpr (Or.inl trivial)
    | some p =>
      obtain ⟨hp, hw⟩ := hdata p rfl
      rw [wp_onMem, wp_modify]
      exact (store_bypassed h hc hne hp hw (hmapped p rfl) _ _).toBeside
  | tlbEvict i =>
    refine .of_goes h (evict_goes h.sound hc i) ?_
    unfold Op.body Skips
    rw [wp_onMem, wp_modify]
    exact h.setMem hne (.of_phys rfl)

theorem beside_next (h : Aside pool base x P k) (hslot : SlotInv k) (hb : Bystander k op x)
    (hplain : PlainStep k op) (hroom : Countable k op) (hn : next op k = some k') :
    Beside pool base x P k k' := by
  have hbody := body_passes h hslot hb (h.stepOk hslot hb hplain hroom) (next_cases hn).1
  rcases next_body hn with hx | hx | ⟨k₁, hx, hnested⟩
  · exact (wp_run_ok hbody hx :)
  · exact ((wp_run_error hbody hx :).resolve_left id).1
  · obtain ⟨h₁, hcur⟩ := (wp_run_error hbody hx :).resolve_left id
    obtain ⟨c, hc, hne⟩ := hcur rfl
    exact h₁.trans (nestedTlbMod_beside h₁.aside hc hne hnested)

/-! ## Runs beside `x` -/

/-- Of the live environments only `x` maps the page `p`. -/
def Kernel.Private (k : Kernel) (x : EnvIx) (p : Nat) : Prop :=
  (∃ i j, k.mem.pte (k.envs x).envPgdir i j = some p) ∧
  ∀ e i j, e ≠ x → (k.envs e).envStatus ≠ .free → k.mem.pte (k.envs e).envPgdir i j ≠ some p

theorem Sound.aside (h : Sound pool base k) (hlive : (k.envs x).envStatus ≠ .free) :
    Aside pool base x {p | p ∈ pool ∧ k.Private x p} k := by
  refine ⟨h, hlive, fun p hp => ?_, fun e s i j w hne hspace hi hw hp => ?_⟩
  · obtain ⟨hpool, ⟨i, j, hpte⟩, -⟩ := hp
    exact ⟨i, j, pte_user h.vm.toMemInv (Sound.dirs_live hlive) hpte hpool, hpte⟩
  · unfold Kernel.vm Kernel.space at hspace
    dsimp only at hspace
    split at hspace
    case isTrue => cases hspace
    case isFalse he =>
      obtain rfl := Option.some.inj hspace
      refine hp.2.2 e i j hne he ?_
      rw [pte_eq]
      exact Option.map_eq_some_iff.mpr ⟨w, hw, rfl⟩

theorem Aside.private (h : Aside pool base x P k) (hp : p ∈ P) : k.Private x p := by
  obtain ⟨i, j, -, hpte⟩ := h.mapped p hp
  refine ⟨⟨i, j, hpte⟩, fun e i j hne he hpte => ?_⟩
  have hi := pte_user h.sound.vm.toMemInv (Sound.dirs_live he) hpte (h.mem_pool hp)
  exact h.not_mapped hne he hi hpte hp

theorem Sound.private_of_one {i j : WordIx} (h : Sound pool base k)
    (hlive : (k.envs x).envStatus ≠ .free) (hp : p ∈ pool)
    (hpte : k.mem.pte (k.envs x).envPgdir i j = some p) (hone : (k.mem.ppRef p).toNat = 1) :
    k.Private x p := by
  refine ⟨⟨i, j, hpte⟩, fun e i' j' hne he hpte' => ?_⟩
  have hx := MemInv.pte_refs (Sound.dirs_live hlive) hpte hp
  have heq : Ref.pte x i j = .pte e i' j' :=
    h.vm.counts.eq_of_cnt_one hone hx (MemInv.pte_refs (Sound.dirs_live he) hpte' hp)
  injection heq with hxe
  exact hne hxe.symm

variable {mc : Machine} {programs : List (Image × Word)}

/-- As long as an environment is a bystander its record but for `env_runs`, its mappings and the pages
that only it maps stay as they are. -/
theorem isolated (h : (mosOn mc programs).Run (fun k op => PlainStep k op ∧ Countable k op) k)
    (hlive : (k.envs x).envStatus ≠ .free) (hrun : (mosOn mc programs).Leads
      (fun k op => (PlainStep k op ∧ Countable k op) ∧ Bystander k op x) k k') :
    (∃ n, k'.envs x = { k.envs x with envRuns := n }) ∧
    (∀ i j, k'.mem.mapped (k.envs x).envPgdir i j = k.mem.mapped (k.envs x).envPgdir i j) ∧
    ∀ p ∈ mc.userPages, k.Private x p → k'.mem.phys p = k.mem.phys p ∧ k'.Private x p := by
  obtain ⟨-, base, hs⟩ := run_counted h
  have ha := hs.aside hlive
  have hbeside := Lib.System.Run.leads (I := Beside _ base x _ k) (fun _ _ hc => hc.1) h (.refl ha)
    (fun s op s' hr hb hc hn => hb.trans
      (beside_next hb.aside (run_counted hr).1 hc.2 hc.1.1 hc.1.2 hn)) hrun
  obtain ⟨hspared, haside⟩ := hbeside.2
  refine ⟨hspared.record, fun i j => ?_, fun p hp hpriv => ?_⟩
  · have hmap := hspared.mapped i j
    rwa [hspared.pgdir] at hmap
  · have hmem : p ∈ {p | p ∈ mc.userPages.toFinset ∧ k.Private x p} :=
      ⟨List.mem_toFinset.mpr hp, hpriv⟩
    exact ⟨hspared.page p hmem, haside.private hmem⟩

/-- One program allocates a page and writes to it; the other one has the page 135 of its code. -/
theorem isolated_store : ∃ k k' : Kernel, (mosOn smallMachine [(bareLoop, 1), (bareLoop, 1)]).Run
      (fun k op => PlainStep k op ∧ Countable k op) k ∧ (k.envs 0).envStatus ≠ .free ∧
    135 ∈ smallMachine.userPages ∧ k.Private 0 135 ∧ k'.mem.phys 130 0 = 7 ∧
    ((∃ n, k'.envs 0 = { k.envs 0 with envRuns := n }) ∧
    (∀ i j, k'.mem.mapped (k.envs 0).envPgdir i j = k.mem.mapped (k.envs 0).envPgdir i j) ∧
    ∀ p ∈ smallMachine.userPages, k.Private 0 p →
      k'.mem.phys p = k.mem.phys p ∧ k'.Private 0 p) := by
  have hcheck : ((boot smallMachine [(bareLoop, 1), (bareLoop, 1)]).any fun k =>
      (next .start k).any fun k₁ => k₁.curenv == some 1 && (k₁.envs 0).envStatus == .runnable &&
        k₁.mem.pte (k₁.envs 0).envPgdir (pdx utext) (ptx utext) == some 135 &&
        (k₁.mem.ppRef 135).toNat == 1 && (k₁.envs 0).envParentId == 0 && (k₁.envs 1).envId != 0 &&
        k₁.mem.pageFreeList.head? == some 130 && k₁.mem.ppRef 130 == 0 &&
        (next (callOp 6 0 0x800000 pteD) k₁).any fun k₂ => k₂.curenv == some 1 &&
          (k₂.envs 0).envParentId == 0 && (k₂.envs 1).envId != 0 &&
          (next (.store 0x800000 7) k₂).any fun k₃ => k₃.mem.phys 130 0 == 7) = true := by
    decide +kernel
  have hpage : 135 ∈ smallMachine.userPages := by decide +kernel
  simp only [Option.any_eq_true, Bool.and_eq_true, beq_iff_eq, bne_iff_ne] at hcheck
  obtain ⟨k, hb, k₁, h₁, ⟨⟨⟨⟨⟨⟨⟨hcur, hrunnable⟩, hpte⟩, hone⟩, hparent⟩, hid⟩, hhead⟩, href⟩, k₂, h₂,
    ⟨⟨hcur₂, hparent₂⟩, hid₂⟩, k₃, h₃, hphys⟩ := hcheck
  have none : ∀ {k op}, (∀ f inp, op ≠ .syscall f inp) → PlainStep k op ∧ Countable k op := fun hop =>
    ⟨fun _ _ _ _ hm => absurd hm (no_maps hop), fun _ _ _ _ hm => absurd hm (no_maps hop)⟩
  have halloc : ∀ e p va perm, StepMaps k₁ (callOp 6 0 0x800000 pteD) e p va perm →
      p = 130 ∧ perm = pteD := by
    rintro e p va perm ⟨f, inp, s, ⟨⟩, hs, hmaps⟩
    obtain rfl := Option.some.inj hs
    cases hmaps with
    | memAlloc legal he hp => exact ⟨Option.some.inj (hp.symm.trans hhead), rfl⟩
  have hrun : (mosOn smallMachine [(bareLoop, 1), (bareLoop, 1)]).Run
      (fun k op => PlainStep k op ∧ Countable k op) k₁ := .step (.init hb) (none (by simp)) h₁
  have hlive : (k₁.envs 0).envStatus ≠ .free := by simp [hrunnable]
  have bystander : ∀ {k : Kernel} {op}, k.curenv = some 1 → (k.envs 0).envParentId = 0 →
      (k.envs 1).envId ≠ 0 →
      (∀ f inp s, op = .syscall f inp → Syscall.ofFrame f inp = some s → ¬ Concerns k 0 s) →
      Bystander k op 0 := by
    intro k op hc hp hi hr
    refine ⟨by simp [hc], fun c hc' => ?_, hr⟩
    obtain rfl : 1 = c := Option.some.inj (hc.symm.trans hc')
    rw [hp]
    exact hi.symm
  have hleads : (mosOn smallMachine [(bareLoop, 1), (bareLoop, 1)]).Leads
      (fun k op => (PlainStep k op ∧ Countable k op) ∧ Bystander k op 0) k₁ k₃ := by
    refine .tail (.single ⟨_, ⟨⟨fun e p va perm hm => ?_, fun e p va perm hm hmax => ?_⟩, ?_⟩, h₂⟩)
      ⟨_, ⟨none (by simp), bystander hcur₂ hparent₂ hid₂ (by simp)⟩, h₃⟩
    · obtain ⟨rfl, rfl⟩ := halloc e p va perm hm
      decide
    · obtain ⟨rfl, -⟩ := halloc e p va perm hm
      rw [href] at hmax
      exact absurd hmax (by decide)
    · refine bystander hcur hparent hid ?_
      rintro f inp s ⟨⟩ hs hconcerns
      obtain rfl := Option.some.inj hs
      cases hconcerns
  obtain ⟨-, base, hs⟩ := run_counted hrun
  exact ⟨k₁, k₃, hrun, hlive, hpage, hs.private_of_one hlive (List.mem_toFinset.mpr hpage) hpte hone,
    hphys,
    isolated hrun hlive hleads⟩

end Mos
