import Mos.Mem.Calls
import Mos.Mem.Coherence

/-!
# A step of the machine, seen by memory

A page may be mapped where the grant allows it, if its entry does not hide the
page and if it has not used up its counter. When this holds of the page that a
call maps, the call goes along a path.
-/

namespace Mos

open Lib (wp wp_bind wp_get wp_modify wp_pure wp_throw wp_ite wp_mono wp_recover wp_run_ok
  wp_run_error)

variable {pool : Finset Nat} {base : Nat} {W : Grant} {k k₀ k₁ k' : Kernel} {m : Mem}
  {e c : EnvIx} {s : AddressSpace} {va perm : Word} {p : Nat}

/-! ## Pages that may be mapped -/

structure Mappable (W : Grant) (k : Kernel) (e : EnvIx) (p : Nat) (va perm : Word) : Prop where
  granted : W e (pdx va) (ptx va) (pteWord p perm)
  plain : ppn (pteWord p perm) = p
  room : (k.mem.ppRef p).toNat = 65535 →
    k.mem.pte (k.envs e).envPgdir (pdx va) (ptx va) = some p

/-- The page that `page_lookup` finds for `e`. -/
def Kernel.pageAt (k : Kernel) (e : EnvIx) (va : Word) : Option Nat :=
  (k.mem.lookup (k.envs e).envPgdir va).map Prod.fst

/-- The page `p` that a call maps at `va` in `e`, if it gets that far. -/
inductive CallMaps (k : Kernel) : Syscall → EnvIx → Nat → Word → Word → Prop
  | memAlloc {envid va perm e p} (legal : isIllegalVa va = false)
      (target : target k envid true = some e) (page : k.mem.pageFreeList.head? = some p) :
      CallMaps k (.memAlloc envid va perm) e p va perm
  | memMap {srcid srcva dstid dstva perm src dst p} (srcLegal : isIllegalVa srcva = false)
      (dstLegal : isIllegalVa dstva = false) (source : target k srcid true = some src)
      (target : target k dstid true = some dst) (page : k.pageAt src srcva = some p) :
      CallMaps k (.memMap srcid srcva dstid dstva perm) dst p dstva perm
  | ipcTrySend {envid value srcva perm c e p} (send : srcva ≠ 0)
      (ready : Ready k (fun env => env.envIpcRecving == 1) envid srcva c e)
      (page : k.pageAt c srcva = some p) :
      CallMaps k (.ipcTrySend envid value srcva perm) e p (k.envs e).envIpcDstva perm
  | sendReturnValue {envid value srcva perm c e p} (send : srcva ≠ 0)
      (ready : Ready k (fun env => env.waitingReturnValue == 1) envid srcva c e)
      (page : k.pageAt c srcva = some p) :
      CallMaps k (.sendReturnValue envid value srcva perm) e p (k.envs e).envIpcDstva perm

/-- What a call maps may be mapped there. -/
def CallOk (W : Grant) (k : Kernel) (s : Syscall) : Prop :=
  ∀ e p va perm, CallMaps k s e p va perm → Mappable W k e p va perm

theorem CallMaps.regs {s : Syscall} {st : Word} {tf : Trapframe}
    (h : CallMaps { k with status := st, kstack := tf } s e p va perm) : CallMaps k s e p va perm := by
  have hready : ∀ {waiting envid srcva c e}, Ready { k with status := st, kstack := tf } waiting envid
      srcva c e → Ready k waiting envid srcva c e := fun hr => ⟨hr.legal, hr.target, hr.waiting, hr.cur⟩
  cases h with
  | memAlloc legal target page => exact .memAlloc legal target page
  | memMap srcLegal dstLegal source target page => exact .memMap srcLegal dstLegal source target page
  | ipcTrySend send ready page => exact .ipcTrySend send (hready ready) page
  | sendReturnValue send ready page => exact .sendReturnValue send (hready ready) page

theorem CallOk.regs {s : Syscall} (h : CallOk W k s) (st : Word) (tf : Trapframe) :
    CallOk W { k with status := st, kstack := tf } s := by
  intro e p va perm hmaps
  have hm := h e p va perm hmaps.regs
  exact ⟨hm.granted, hm.plain, hm.room⟩

theorem legal_user (h : isIllegalVa va = false) : utemp ≤ va ∧ va < utop := by
  simp only [isIllegalVa, Bool.or_eq_false_iff, decide_eq_false_iff_not] at h
  exact ⟨BitVec.not_lt.mp h.1, BitVec.not_le.mp h.2⟩

theorem Sound.dstva_lt (h : Sound pool base k) (e : EnvIx) : (k.envs e).envIpcDstva < utop := by
  rcases h.dstva e with h0 | hlegal
  · rw [h0]
    decide
  · exact (legal_user hlegal).2

theorem legal_pdx (h : isIllegalVa va = false) : pdx va < pdx utop := pdx_lt_utop (legal_user h).2

namespace SameVm

theorem live_iff (h : SameVm k k') (e : EnvIx) :
    (k'.envs e).envStatus ≠ .free ↔ (k.envs e).envStatus ≠ .free := by
  have hspace := congrFun h.space e
  unfold Kernel.space at hspace
  split at hspace
  · split at hspace
    · simp_all
    · cases hspace
  · split at hspace
    · cases hspace
    · simp_all

theorem pgdir_eq (h : SameVm k k') (he : (k.envs e).envStatus ≠ .free) :
    (k'.envs e).envPgdir = (k.envs e).envPgdir := by
  have hspace := congrFun h.space e
  rw [Sound.space_live he, Sound.space_live ((h.live_iff e).mpr he)] at hspace
  exact congrArg AddressSpace.pgdir (Option.some.inj hspace)

theorem pageAt (h : SameVm k k') (he : (k.envs e).envStatus ≠ .free) (va : Word) :
    k'.pageAt e va = k.pageAt e va := by
  unfold Kernel.pageAt
  rw [h.mem, h.pgdir_eq he]

theorem mappable (h : SameVm k k') (he : (k.envs e).envStatus ≠ .free)
    (hm : Mappable W k e p va perm) : Mappable W k' e p va perm := by
  refine ⟨hm.granted, hm.plain, ?_⟩
  rw [h.mem, h.pgdir_eq he]
  exact hm.room

end SameVm

/-! ## Calls on one page -/

theorem Moved.work (h : Moved pool base W k₀ k) (he : (k.envs e).envStatus ≠ .free)
    (hch : Change pool base k.vm.dirs e (k.envs e).envAsid (W e) True k.mem m) :
    Moved pool base W k₀ (k.setMem m) := h.trans (h.sound.work (Sound.space_live he) hch)

theorem Sound.dirs_live (he : (k.envs e).envStatus ≠ .free) :
    k.vm.dirs e = some (k.envs e).envPgdir := Vm.dirs_some (v := k.vm) (Sound.space_live he)

theorem insert_goes (h : Moved pool base W k₀ k) (he : (k.envs e).envStatus ≠ .free)
    (hva : pdx va < pdx utop) (hp : Held pool k.vm.dirs k.mem p)
    (hok : Mappable W k e p va perm) : Goes pool base W k₀
      (onMem (pageInsert (k.envs e).envPgdir (k.envs e).envAsid p va perm)) k := by
  unfold Goes
  rw [wp_onMem]
  refine wp_mono (pageInsert_spec h.sound.vm.toMemInv (Sound.dirs_live he) hva hp) ?_ ?_
  · intro _ m hins
    rcases hins.effect hok.plain with hch | ⟨hmax, hne, -⟩
    · exact h.work he (hch _ _ hok.granted)
    · exact absurd (hok.room hmax) hne
  · rintro err m (⟨rfl, hch⟩ | hbad)
    · exact Or.inr ⟨h.work he (hch _ _), fun herr => by cases herr⟩
    · exact Or.inl hbad.halts

theorem lookup_held (h : Sound pool base k) (he : (k.envs e).envStatus ≠ .free)
    (hva : pdx va < pdx utop) {x : PtePtr}
    (hl : k.mem.lookup (k.envs e).envPgdir va = some (p, x)) : Held pool k.vm.dirs k.mem p := by
  obtain ⟨t, rfl, ht, hp⟩ := (lookup_user hva).mp hl
  have hd := Sound.dirs_live he
  have hown := h.vm.toMemInv.own_table hd ht hva
  have hpage : entry (k.mem.phys t (ptx va)) = some p := by
    rwa [Mem.pte, ht, Option.bind_some] at hp
  exact h.vm.toMemInv.held_data hd hp (hown.pages _ _ hpage).2

theorem memAlloc_goes (h : Sound pool base k) {envid : Word}
    (hok : CallOk W k (.memAlloc envid va perm)) :
    Goes pool base W k (sysMemAlloc envid va perm) k := by
  unfold sysMemAlloc
  refine Goes.guard (.refl h) fun hva => ?_
  have hva := (Bool.not_eq_true _).mp hva
  refine Goes.envid2env (.refl h) fun e he => ?_
  have hlive := h.target_live he
  unfold Goes
  rw [wp_bind, wp_onMem]
  refine wp_mono (pageAlloc_spec h.vm.toMemInv) ?_ ?_
  · rintro p m ⟨rest, hfree, rfl⟩
    have hm := hok e p va perm (.memAlloc hva he (by rw [hfree]; rfl))
    have htaken : Moved pool base W k (k.setMem (k.mem.taken p rest)) :=
      (Moved.refl h).work hlive (.taken h.vm.toMemInv hfree)
    have hfresh := h.vm.toMemInv.fresh_taken hfree
    refine Goes.get (Goes.bind ?_ fun _ _ hmoved => .pure _ hmoved)
    refine insert_goes (k := k.setMem (k.mem.taken p rest)) htaken hlive (legal_pdx hva) hfresh.held ?_
    refine ⟨hm.granted, hm.plain, fun hmax => ?_⟩
    have hzero : ((k.setMem (k.mem.taken p rest)).mem.ppRef p).toNat = 0 :=
      congrArg BitVec.toNat hfresh.ppRef
    omega
  · rintro err m (⟨rfl, rfl⟩ | hbad)
    · exact Or.inr ⟨.refl h, fun herr => by cases herr⟩
    · exact Or.inl hbad.halts

theorem lookup_goes {α : Type} {f : Option (Nat × PtePtr) → K α}
    (hf : Goes pool base W k₀ (f (k.mem.lookup (k.envs e).envPgdir va)) k) :
    Goes pool base W k₀ (onMem (pageLookup (k.envs e).envPgdir va) >>= f) k := by
  unfold Goes
  rw [wp_bind, wp_onMem]
  refine wp_mono (pageLookup_spec k.mem _ va) ?_ ?_
  · rintro r m ⟨rfl, rfl⟩
    exact hf
  · rintro err m ⟨rfl, hbad⟩
    exact Or.inl hbad.halts

theorem memMap_goes (h : Sound pool base k) {srcid srcva dstid dstva : Word}
    (hok : CallOk W k (.memMap srcid srcva dstid dstva perm)) :
    Goes pool base W k (sysMemMap srcid srcva dstid dstva perm) k := by
  unfold sysMemMap
  refine Goes.guard (.refl h) fun hva => ?_
  rw [not_or, Bool.not_eq_true, Bool.not_eq_true] at hva
  refine Goes.envid2env (.refl h) fun src hsrc => Goes.envid2env (.refl h) fun dst hdst => ?_
  refine Goes.get (Goes.get (lookup_goes ?_))
  cases hl : k.mem.lookup (k.envs src).envPgdir srcva with
  | none => exact .fault (.refl h)
  | some r =>
    obtain ⟨p, x⟩ := r
    have hpage : k.pageAt src srcva = some p := by
      rw [Kernel.pageAt, hl]
      rfl
    refine Goes.bind ?_ fun _ _ hmoved => .pure _ hmoved
    refine insert_goes (.refl h) (h.target_live hdst) (legal_pdx hva.2) ?_
      (hok dst p dstva perm (.memMap hva.1 hva.2 hsrc hdst hpage))
    exact lookup_held h (h.target_live hsrc) (legal_pdx hva.1) hl

theorem memUnmap_goes (h : Sound pool base k) (envid va : Word) :
    Goes pool base W k (sysMemUnmap envid va) k := by
  unfold sysMemUnmap
  refine Goes.guard (.refl h) fun hva => ?_
  have hva := (Bool.not_eq_true _).mp hva
  refine Goes.envid2env (.refl h) fun e he => Goes.get (Goes.bind ?_ fun _ _ hm => .pure _ hm)
  have hlive := h.target_live he
  unfold Goes
  rw [wp_onMem]
  refine wp_mono (pageRemove_spec h.vm.toMemInv (Sound.dirs_live hlive) (legal_pdx hva)) ?_
    (fun _ _ hbad => Or.inl hbad.halts)
  rintro _ m (⟨-, rfl⟩ | ⟨t, p, hr⟩)
  · exact .refl h
  · exact (Moved.refl h).work hlive (hr.change h.vm.toMemInv (Sound.dirs_live hlive))

/-! ## Messages -/

theorem mapSent_goes (h : Moved pool base W k₀ k) (he : (k.envs e).envStatus ≠ .free)
    {srcva : Word} (hva : pdx srcva < pdx utop) (hok : ∀ c p, k.curenv = some c →
      k.pageAt c srcva = some p → Mappable W k e p (k.envs e).envIpcDstva perm) :
    Goes pool base W k₀ (mapSent e srcva perm) k := by
  unfold mapSent
  refine Goes.curenvPtr fun c hc => Goes.get (lookup_goes ?_)
  cases hl : k.mem.lookup (k.envs c).envPgdir srcva with
  | none => exact .fault h
  | some r =>
    obtain ⟨p, x⟩ := r
    have hpage : k.pageAt c srcva = some p := by
      rw [Kernel.pageAt, hl]
      rfl
    refine Goes.get (insert_goes h he (pdx_lt_utop (h.sound.dstva_lt e)) ?_ (hok c p hc hpage))
    exact lookup_held h.sound (h.sound.live hc) hva hl

/-- What the two sends write into the record of the target. -/
structure Delivers (deliver : Word → Env → Env) : Prop where
  status : ∀ sender env, (deliver sender env).envStatus = env.envStatus
  pgdir : ∀ sender env, (deliver sender env).envPgdir = env.envPgdir
  asid : ∀ sender env, (deliver sender env).envAsid = env.envAsid
  dstva : ∀ sender env, (deliver sender env).envIpcDstva = env.envIpcDstva

theorem Delivers.woken {deliver : Word → Env → Env} (hd : Delivers deliver) (sender : Word)
    (he : (k.envs e).envStatus ≠ .free) : SameVm k ((k.setEnv e (deliver sender)).setEnv e fun env =>
      { env with envStatus := .runnable }) := by
  refine .trans (same_setEnv ?_ (hd.pgdir _ _) (hd.asid _ _) (hd.dstva _ _))
    (same_setEnv ?_ rfl rfl rfl)
  · rw [hd.status]
  · rw [Kernel.setEnv_envs, Function.update_self, hd.status]
    exact iff_of_false (by simp) he

theorem send_goes (h : Sound pool base k) {waiting : Env → Bool} {deliver : Word → Env → Env}
    (hd : Delivers deliver) {envid srcva : Word} (hok : ∀ c e p, srcva ≠ 0 →
      Ready k waiting envid srcva c e → k.pageAt c srcva = some p →
      Mappable W k e p (k.envs e).envIpcDstva perm) :
    Goes pool base W k (send waiting deliver envid srcva perm) k := by
  unfold send wakeAndMap
  refine Goes.guard (.refl h) fun hlegal => Goes.envid2env (.refl h) fun e he => Goes.get ?_
  refine Goes.guard (.refl h) fun hwait => Goes.curenvPtr fun c hc => Goes.get ?_
  have hlive := h.target_live he
  have hready : Ready k waiting envid srcva c e := ⟨hlegal, he, by simpa using hwait, hc⟩
  have hwake := hd.woken (k.envs c).envId hlive
  refine Goes.updEnv (Goes.updEnv ?_)
  unfold Goes
  rw [wp_bind]
  refine wp_mono (schedInsertTail_spec _ e) ?_ (fun _ _ h => h.elim)
  rintro _ k₃ ⟨q, b, rfl⟩
  have hs := hwake.trans (LinkFree.setList (R := SameVm) _ q b)
  refine Goes.ite (fun hsrc => Goes.bind ?_ fun _ _ hm => .pure _ hm) fun _ => .pure _ (hs.moved h)
  have hva : isIllegalVa srcva = false := (Bool.not_eq_true _).mp fun hill => hlegal ⟨hsrc, hill⟩
  refine mapSent_goes (hs.moved h) ?_ (legal_pdx hva) fun c' p hc' hp => ?_
  · exact (hs.live_iff e).mpr hlive
  obtain rfl : c = c' := Option.some.inj (hc.symm.trans hc')
  rw [hs.dstva]
  exact hs.mappable hlive (hok c e p hsrc hready ((hs.pageAt (h.live hc) srcva).symm.trans hp))

/-! ## Blocking -/

theorem blockCurenv_goes (h : Moved pool base W k₀ k) : Goes pool base W k₀ blockCurenv k := by
  unfold blockCurenv
  refine Goes.curenvPtr fun c hc => Goes.updEnv ?_
  have hs : SameVm k (k.setEnv c fun env => { env with envStatus := .notRunnable }) :=
    same_setEnv (iff_of_false (by simp) (h.sound.live hc)) rfl rfl rfl
  unfold Goes
  rw [wp_bind]
  refine wp_mono (schedRemove_spec _ c) ?_ (fun _ _ hh => Or.inl hh)
  rintro _ k₁ ⟨q, b, rfl⟩
  have hs := hs.trans (LinkFree.setList (R := SameVm) _ q b)
  rw [wp_bind, wp_setKstackReg]
  refine Goes.bind (.schedule (h.trans ?_) true) fun _ _ hm => .pure _ hm
  exact (hs.trans (same_regs _ _ _)).moved h.sound

theorem ipcRecv_goes (h : Sound pool base k) (dstva : Word) :
    Goes pool base W k (sysIpcRecv dstva) k := by
  unfold sysIpcRecv
  refine Goes.guard (.refl h) fun hlegal => Goes.curenvPtr fun c hc => ?_
  have hs : SameVm k (k.setEnv c fun env => { env with envIpcRecving := 1 }) :=
    same_setEnv Iff.rfl rfl rfl rfl
  refine Goes.update (.refl h) hs fun h₁ => Goes.updEnv (blockCurenv_goes (h₁.trans ?_))
  have hcheck : dstva = 0 ∨ isIllegalVa dstva = false := by
    by_cases h0 : dstva = 0
    · exact Or.inl h0
    · exact Or.inr ((Bool.not_eq_true _).mp fun hill => hlegal ⟨h0, hill⟩)
  have hspace := space_setEnv (k := k.setEnv c fun env => { env with envIpcRecving := 1 }) (e := c)
    (f := fun env => { env with envIpcDstva := dstva }) Iff.rfl rfl rfl
  refine ⟨⟨?_, h₁.sound.base, ?_, ?_, fun e => ?_⟩, ?_⟩
  · unfold Kernel.vm
    rw [hspace]
    exact h₁.sound.vm
  · rw [hspace]
    exact h₁.sound.asids
  · rw [hspace]
    exact h₁.sound.running
  · rw [Kernel.setEnv_envs]
    rcases eq_or_ne e c with rfl | hne
    · rw [Function.update_self]
      exact hcheck
    · rw [Function.update_of_ne hne]
      exact h₁.sound.dstva e
  · unfold Kernel.vm
    rw [hspace]
    exact .refl

theorem recvReturnValue_goes (h : Sound pool base k) :
    Goes pool base W k sysRecvReturnValue k := by
  unfold sysRecvReturnValue
  refine Goes.curenvPtr fun c hc => ?_
  have hs : SameVm k (k.setEnv c fun env => { env with waitingReturnValue := 1 }) :=
    same_setEnv Iff.rfl rfl rfl rfl
  exact Goes.update (.refl h) hs fun h₁ => blockCurenv_goes h₁

/-! ## Environments come -/

/-- The directory that `env_setup_vm` makes. -/
theorem setupVm_spec (h : Sound pool base k) (e : EnvIx) : wp (envSetupVm e)
    (fun _ k' => ∃ p rest, k.mem.pageFreeList = p :: rest ∧
      k' = (k.setMem ((k.mem.taken p rest).newDir k.basePgdir p)).setEnv e fun env =>
        { env with envPgdir := p })
    (fun err k' => Halts err ∨ (err = .errno .noMem ∧ k' = k)) k := by
  unfold envSetupVm
  rw [wp_bind, wp_onMem]
  refine wp_mono (pageAlloc_spec h.vm.toMemInv) ?_ ?_
  · rintro p m ⟨rest, hfree, rfl⟩
    have hlt : p < 2 ^ 20 := h.vm.toMemInv.lt_two_pow (h.vm.toMemInv.fresh_taken hfree).mem
    simp only [wp_bind, wp_onMem, wp_modify]
    refine wp_mono (kaddr_spec _ _) ?_ (fun _ _ hbad => Or.inl hbad.2.halts)
    rintro f m ⟨rfl, rfl⟩
    simp only [wp_updEnv, wp_get]
    refine ⟨p, rest, hfree, ?_⟩
    rw [ppn_page2pa hlt]
    rfl
  · rintro err m (⟨rfl, rfl⟩ | hbad)
    · exact Or.inr ⟨rfl, rfl⟩
    · exact Or.inl hbad.halts

theorem asidAlloc_spec (k : Kernel) : wp asidAlloc
    (fun a k' => a < nasid ∧ k.asidBitmap a = false ∧
      k' = { k with asidBitmap := Function.update k.asidBitmap a true })
    (fun err k' => err = .errno .noFreeEnv ∧ k' = k) k := by
  unfold asidAlloc
  simp only [wp_bind, wp_get]
  split
  case h_1 a ha =>
    simp only [wp_bind, wp_modify, wp_pure]
    have hclear := List.find?_some ha
    exact ⟨List.mem_range.mp (List.mem_of_find?_eq_some ha), by simpa using hclear, trivial⟩
  case h_2 => exact (wp_throw _).mpr ⟨rfl, rfl⟩

theorem space_free {f : Env → Env} (he : (k.envs e).envStatus = .free)
    (hf : (f (k.envs e)).envStatus = .free) : (k.setEnv e f).space = k.space := by
  funext x
  unfold Kernel.space
  rw [Kernel.setEnv_envs]
  rcases eq_or_ne x e with rfl | hx
  · rw [Function.update_self, if_pos hf, if_pos he]
  · rw [Function.update_of_ne hx]

/-- What `env_alloc` leaves of a slot: a new directory and a new ASID. -/
structure Opened (k : Kernel) (e : EnvIx) (k' : Kernel) : Prop where
  gone : (k.envs e).envStatus = .free
  env : ∃ p rest a, k.mem.pageFreeList = p :: rest ∧ a < nasid ∧ k.asidBitmap a = false ∧
    k'.mem = (k.mem.taken p rest).newDir k.basePgdir p ∧
    k'.asidBitmap = Function.update k.asidBitmap a true ∧
    (k'.envs e).envPgdir = p ∧ (k'.envs e).envAsid = a
  others : ∀ x, x ≠ e → k'.envs x = k.envs x
  dstva : (k'.envs e).envIpcDstva = (k.envs e).envIpcDstva
  base : k'.basePgdir = k.basePgdir
  cur : k'.curenv = k.curenv
  pgdir : k'.curPgdir = k.curPgdir
  asid : k'.entryHiAsid = k.entryHiAsid

theorem Opened.setEnv {f : Env → Env} (h : Opened k e k')
    (hp : (f (k'.envs e)).envPgdir = (k'.envs e).envPgdir)
    (ha : (f (k'.envs e)).envAsid = (k'.envs e).envAsid)
    (hd : (f (k'.envs e)).envIpcDstva = (k'.envs e).envIpcDstva) : Opened k e (k'.setEnv e f) := by
  obtain ⟨p, rest, a, hfree, hlt, hclear, hmem, hasids, hpgdir, hasid⟩ := h.env
  have hself : (k'.setEnv e f).envs e = f (k'.envs e) := by simp
  refine ⟨h.gone, ⟨p, rest, a, hfree, hlt, hclear, hmem, hasids, ?_, ?_⟩, fun x hx => ?_, ?_,
    h.base, h.cur, h.pgdir, h.asid⟩
  · rw [hself, hp, hpgdir]
  · rw [hself, ha, hasid]
  · rw [Kernel.setEnv_envs, Function.update_of_ne hx, h.others x hx]
  · rw [hself, hd, h.dstva]

/-- When the status says that the environment lives, its address space starts. -/
theorem Opened.moved (h : Sound pool base k) (ho : Opened k e k')
    (hlive : (k'.envs e).envStatus ≠ .free) : Moved pool base W k k' := by
  obtain ⟨p, rest, a, hfree, ha, hclear, hmem, hasids, hp, has⟩ := ho.env
  have hgone : k.space e = none := if_pos ho.gone
  have hspace : k'.space = Function.update k.space e (some ⟨p, a⟩) := by
    funext x
    rcases eq_or_ne x e with rfl | hx
    · rw [Function.update_self, Sound.space_live hlive, hp, has]
    · rw [Function.update_of_ne hx]
      unfold Kernel.space
      rw [ho.others x hx]
  have hnew : ∀ x s, k.space x = some s → s.asid ≠ a := by
    rintro x s hx rfl
    exact absurd ((h.asids x s hx).symm.trans hclear) (by simp)
  have hstep : Vm.Step pool base W k.vm k'.vm := by
    have hopens : Vm.Step pool base W k.vm _ := .opens hgone hfree ha hnew
    unfold Kernel.vm at hopens ⊢
    rwa [hspace, hmem, h.base]
  refine ⟨⟨hstep.inv h.vm, ho.base.trans h.base, fun x s hx => ?_, fun c hc => ?_, fun x => ?_⟩,
    .single hstep⟩
  · rw [hasids]
    rcases eq_or_ne s.asid a with heq | hne
    · rw [heq, Function.update_self]
    · rw [Function.update_of_ne hne]
      rw [hspace] at hx
      rcases eq_or_ne x e with rfl | hxe
      · rw [Function.update_self] at hx
        exact absurd (congrArg AddressSpace.asid (Option.some.inj hx).symm) hne
      · rw [Function.update_of_ne hxe] at hx
        exact h.asids x s hx
  · have hrun := h.running c (ho.cur.symm.trans hc)
    have hce : c ≠ e := by
      rintro rfl
      exact nomatch hgone.symm.trans hrun
    rw [hspace, Function.update_of_ne hce, ho.pgdir, ho.asid]
    exact hrun
  · rcases eq_or_ne x e with rfl | hx
    · rw [ho.dstva]
      exact h.dstva x
    · rw [ho.others x hx]
      exact h.dstva x

theorem setEnv_setEnv (k : Kernel) (e : EnvIx) (f g : Env → Env) :
    (k.setEnv e f).setEnv e g = k.setEnv e (g ∘ f) := by
  simp [Kernel.setEnv]

/-- Without an ASID the new directory is lost. -/
theorem leaked_moved (h : Sound pool base k) {rest : List Nat} {f : Env → Env}
    (hfree : k.mem.pageFreeList = p :: rest) (he : (k.envs e).envStatus = .free)
    (hf : (f (k.envs e)).envStatus = .free)
    (hd : (f (k.envs e)).envIpcDstva = (k.envs e).envIpcDstva) : Moved pool base W k
      ((k.setMem ((k.mem.taken p rest).newDir k.basePgdir p)).setEnv e f) := by
  have hspace := space_free (k := k.setMem ((k.mem.taken p rest).newDir k.basePgdir p)) he hf
  have hstep : Vm.Step pool base W k.vm
      ((k.setMem ((k.mem.taken p rest).newDir k.basePgdir p)).setEnv e f).vm := by
    unfold Kernel.vm
    rw [hspace, h.base]
    exact .leaks hfree
  refine ⟨⟨hstep.inv h.vm, h.base, ?_, ?_, fun x => ?_⟩, .single hstep⟩
  · rw [hspace]
    exact h.asids
  · rw [hspace]
    exact h.running
  · rw [Kernel.setEnv_envs]
    rcases eq_or_ne x e with rfl | hx
    · rw [Function.update_self]
      exact hd ▸ h.dstva x
    · rw [Function.update_of_ne hx]
      exact h.dstva x

theorem envAlloc_opened (h : Sound pool base k)
    (hfree : ∀ e, k.envFreeList.head? = some e → (k.envs e).envStatus = .free) (parentId : Word) :
    wp (envAlloc parentId) (fun e k' => k.envFreeList.head? = some e ∧ Opened k e k' ∧
        (k'.envs e).envStatus = .free)
      (fun err k' => Halts err ∨ ∃ er, err = .errno er ∧ Moved pool base W k k') k := by
  unfold envAlloc
  rw [wp_bind, wp_get]
  cases hf : k.envFreeList with
  | nil => exact (wp_throw _).mpr (Or.inr ⟨_, rfl, .refl h⟩)
  | cons e rest =>
    have hgone := hfree e (by rw [hf]; rfl)
    unfold envSetup
    simp only [wp_bind]
    refine wp_mono (setupVm_spec h e) ?_ ?_
    · rintro _ _ ⟨p, rest', hpages, rfl⟩
      rw [wp_updEnv]
      refine wp_mono (asidAlloc_spec _) ?_ ?_
      · rintro a _ ⟨ha, hclear, rfl⟩
        unfold mkenvid
        simp only [wp_bind, wp_updEnv, wp_modify, wp_get, wp_pure]
        refine ⟨rfl, ⟨hgone, ⟨p, rest', a, hpages, ha, hclear, ?_⟩, fun x hx => ?_, ?_, rfl, rfl, rfl, rfl⟩, ?_⟩
        · simp [Kernel.setEnv, Kernel.setMem, Trapframe.setReg]
        · simp [Kernel.setEnv, Kernel.setMem, hx]
        · simp [Kernel.setEnv, Kernel.setMem]
        · simpa [Kernel.setEnv, Kernel.setMem] using hgone
      · rintro err _ ⟨rfl, rfl⟩
        rw [setEnv_setEnv]
        exact Or.inr ⟨_, rfl, leaked_moved h hpages hgone hgone rfl⟩
    · rintro err _ (hh | ⟨rfl, rfl⟩)
      · exact Or.inl hh
      · exact Or.inr ⟨_, rfl, .refl h⟩

theorem exofork_goes (h : Sound pool base k)
    (hfree : ∀ e, k.envFreeList.head? = some e → (k.envs e).envStatus = .free) :
    Goes pool base W k sysExofork k := by
  unfold sysExofork
  refine Goes.curenvPtr fun c hc => Goes.get ?_
  unfold Goes
  rw [wp_bind]
  refine wp_mono (envAlloc_opened (W := W) h hfree _) ?_ ?_
  · rintro e k₁ ⟨-, ho, -⟩
    simp only [wp_bind, wp_get, wp_updEnv, wp_pure]
    rw [setEnv_setEnv, setEnv_setEnv, setEnv_setEnv]
    exact Opened.moved h (ho.setEnv rfl rfl rfl) (by simp)
  · rintro err k₁ (hh | ⟨er, rfl, hm⟩)
    · exact Or.inl hh
    · exact Or.inr ⟨hm, fun herr => by cases herr⟩

/-! ## Environments go -/

/-- `curenv` goes with its environment. -/
def Kernel.leave (k : Kernel) (e : EnvIx) : Kernel :=
  { k with curenv := if k.curenv = some e then none else k.curenv }

theorem Freed.flush {sp : Spaces} {asid : Nat} {m' : Mem} (h : Freed pool base sp e asid m m')
    (va : Word) : Freed pool base sp e asid m (m'.flush asid va) := by
  refine ⟨h.inv.congr ⟨rfl, fun _ _ => rfl, fun _ _ => rfl⟩ rfl rfl, h.apart, fun x hx => ?_, h.exact⟩
  exact h.flushed x (mem_flush hx).1

/-- What `env_free` leaves. -/
theorem closed_moved (h : Sound pool base k) (he : k.space e = some s)
    (hf : Freed pool base k.vm.dirs e s.asid k.mem k'.mem)
    (hspace : k'.space = Function.update k.space e none) (hbase : k'.basePgdir = k.basePgdir)
    (hasids : k'.asidBitmap = Function.update k.asidBitmap s.asid false)
    (hcur : k'.curenv = if k.curenv = some e then none else k.curenv)
    (hpgdir : k'.curPgdir = k.curPgdir) (hasid : k'.entryHiAsid = k.entryHiAsid)
    (hdstva : ∀ x, (k'.envs x).envIpcDstva = (k.envs x).envIpcDstva) :
    Moved pool base W k k' := by
  have hstep : Vm.Step pool base W k.vm k'.vm := by
    have hcloses : Vm.Step pool base W k.vm _ := .closes he hf
    unfold Kernel.vm at hcloses ⊢
    rwa [hspace]
  refine ⟨⟨hstep.inv h.vm, hbase.trans h.base, fun x t hx => ?_, fun c hc => ?_, fun x => ?_⟩,
    .single hstep⟩
  · rw [hspace] at hx
    rcases eq_or_ne x e with rfl | hxe
    · rw [Function.update_self] at hx
      cases hx
    · rw [Function.update_of_ne hxe] at hx
      have hne : t.asid ≠ s.asid := fun heq => hxe (h.vm.asid_inj e x s t he hx heq.symm)
      rw [hasids, Function.update_of_ne hne]
      exact h.asids x t hx
  · rw [hcur] at hc
    split at hc
    · cases hc
    · rename_i hne
      have hce : c ≠ e := by
        rintro rfl
        exact hne hc
      rw [hspace, Function.update_of_ne hce, hpgdir, hasid]
      exact h.running c hc
  · rw [hdstva]
    exact h.dstva x

/-- `env_free` on a kernel whose `curenv` may be the one that goes. -/
theorem envFree_moved (h : Sound pool base k) (he : (k.envs e).envStatus ≠ .free) :
    wp (envFree e) (fun _ k' => k'.curenv = k.curenv ∧ Moved pool base W k (k'.leave e))
      (fun err _ => Halts err) k := by
  unfold envFree envRelease
  simp only [wp_bind, wp_get]
  rw [wp_onMem]
  refine wp_mono (envFreeVm_spec h.vm.toMemInv (Sound.dirs_live he)) ?_ (fun _ _ hbad => hbad.halts)
  intro _ m hfreed
  rw [wp_asidFree, wp_onMem, wp_tlbInvalidate, wp_updEnv, wp_modify]
  refine wp_mono (schedRemove_spec _ e) ?_ (fun _ _ hh => hh)
  rintro _ _ ⟨q, b, rfl⟩
  refine ⟨rfl, closed_moved h (Sound.space_live he) (hfreed.flush _) ?_ rfl rfl rfl rfl rfl fun x => ?_⟩
  · funext x
    rcases eq_or_ne x e with rfl | hx
    · simp [Kernel.space, Kernel.leave, Kernel.setEnv]
    · simp [Kernel.space, Kernel.leave, Kernel.setEnv, Kernel.setMem, hx]
  · rcases eq_or_ne x e with rfl | hx
    · simp [Kernel.leave, Kernel.setEnv, Kernel.setMem]
    · simp [Kernel.leave, Kernel.setEnv, Kernel.setMem, hx]

theorem envDestroy_goes (h : Sound pool base k) (he : (k.envs e).envStatus ≠ .free) :
    Goes pool base W k (envDestroy e) k := by
  unfold envDestroy Goes
  rw [wp_bind]
  refine wp_mono (envFree_moved (W := W) h he) ?_ (fun _ _ hh => Or.inl hh)
  rintro _ k₁ ⟨hcur, hm⟩
  refine Goes.get (Goes.ite (fun hc => ?_) fun hc => .pure _ ?_)
  · have hleave : k₁.leave e = { k₁ with curenv := none } := by
      unfold Kernel.leave
      rw [if_pos hc]
    rw [hleave] at hm
    unfold Goes
    rw [wp_bind, wp_modify]
    exact Goes.schedule hm true
  · have hleave : k₁.leave e = k₁ := by
      unfold Kernel.leave
      rw [if_neg hc]
    rwa [hleave] at hm

theorem same_jobs (k : Kernel) (jobs : Nat → Job) (n : Nat) :
    SameVm k { k with jobs := jobs, jobCnt := n } :=
  ⟨rfl, rfl, rfl, rfl, rfl, rfl, rfl, fun _ => rfl⟩

theorem killJob_goes (h : Sound pool base k) (jobId : Word) :
    Goes pool base W k (envKillJob jobId) k := by
  unfold envKillJob findJob
  refine Goes.get ?_
  dsimp only
  split
  case h_2 => exact (wp_pure _).mpr (.refl h)
  case h_1 i hi =>
    refine Goes.get (Goes.get (Goes.ite (fun hrun => ?_) fun _ => .pure _ (.refl h)))
    refine Goes.bind (envDestroy_goes h (by rw [hrun]; simp)) fun _ k₁ hm => ?_
    exact (wp_updJob _ _).mpr (hm.trans ((same_jobs _ _ _).moved hm.sound))

/-! ## The other calls -/

theorem setEnvStatus_goes (h : Sound pool base k) (envid status : Word) :
    Goes pool base W k (sysSetEnvStatus envid status) k := by
  refine wp_mono (sysSetEnvStatus_spec k envid status) ?_ ?_
  · rintro v _ ⟨st, e, q, b, hst, he, rfl⟩
    have hs : SameVm k (k.relist q b) := LinkFree.setList k q b
    refine (hs.trans (same_setEnv ?_ rfl rfl rfl)).moved h
    refine iff_of_false ?_ (h.target_live he)
    unfold toStatus at hst
    split at hst
    · simp [← Option.some.inj hst]
    · split at hst
      · simp [← Option.some.inj hst]
      · cases hst
  · rintro err k' (⟨⟨f, rfl⟩, rfl⟩ | hh)
    · exact Or.inr ⟨.refl h, fun herr => by cases herr⟩
    · exact Or.inl hh

theorem setTrapframe_goes (h : Sound pool base k) (envid tf : Word) (content : Trapframe) :
    Goes pool base W k (sysSetTrapframe envid tf content) k := by
  refine wp_mono (sysSetTrapframe_spec k envid tf content) ?_ ?_
  · rintro v _ ⟨-, e, he, ⟨hc, -, rfl⟩ | ⟨hc, -, rfl⟩⟩
    · exact (same_regs k k.status content).moved h
    · exact (same_setEnv Iff.rfl rfl rfl rfl).moved h
  · rintro err k' ⟨⟨f, rfl⟩, rfl⟩
    exact Or.inr ⟨.refl h, fun herr => by cases herr⟩

theorem setTlbModEntry_goes (h : Sound pool base k) (envid func : Word) :
    Goes pool base W k (sysSetTlbModEntry envid func) k := by
  unfold sysSetTlbModEntry
  refine Goes.envid2env (.refl h) fun e he => Goes.update (.refl h) ?_ fun h₁ => .pure _ h₁
  exact same_setEnv Iff.rfl rfl rfl rfl

theorem createJob_goes (h : Sound pool base k) (envid : Word) (cmd : List UInt8) :
    Goes pool base W k (envCreateJob envid cmd) k := by
  unfold envCreateJob
  refine Goes.get (Goes.ite (fun _ => ?_) fun _ => ?_)
  · exact .fault (.refl h)
  · unfold Goes
    rw [wp_bind, wp_updJob, wp_modify]
    exact (same_jobs k _ _).moved h

theorem setJobDone_goes (h : Sound pool base k) (envid : Word) :
    Goes pool base W k (envSetJobDone envid) k := by
  unfold envSetJobDone findJob
  refine Goes.get ?_
  dsimp only
  split
  · exact (wp_updJob _ _).mpr ((same_jobs k _ k.jobCnt).moved h)
  · exact (wp_pure _).mpr (.refl h)

theorem fgJob_goes (h : Sound pool base k) (jobId : Word) :
    Goes pool base W k (envFgJob jobId) k := by
  unfold envFgJob findJob
  refine Goes.get ?_
  dsimp only
  split
  · exact Goes.get (.pure _ (.refl h))
  · exact .pure _ (.refl h)

theorem readDev_goes (h : Sound pool base k) (hW : FaultGrants pool W) (hc : k.curenv = some c)
    (inp : Inputs) (va pa len : Word) : Goes pool base W k (sysReadDev inp va pa len) k := by
  unfold sysReadDev
  refine Goes.guard (.refl h) fun _ => Goes.guard (.refl h) fun _ => ?_
  refine Goes.ite (fun _ => Goes.bind ?_ fun _ _ hm => .pure _ hm) fun _ => .fault (.refl h)
  refine wp_mono (kernelStore_faulted h hc hW _ _ _) (fun _ _ hf => hf.toMoved) ?_
  rintro err k' (hh | ⟨rfl, hf⟩)
  · exact Or.inl hh
  · exact Or.inr ⟨hf.toMoved, fun _ => by simp [hf.cur, hc]⟩

/-- Every call of the table. -/
theorem call_goes (h : Sound pool base k) (hW : FaultGrants pool W)
    (hfree : ∀ e, k.envFreeList.head? = some e → (k.envs e).envStatus = .free)
    (hc : k.curenv = some c) (inp : Inputs) {s : Syscall} (hok : CallOk W k s) :
    Goes pool base W k (s.run inp) k := by
  cases s with
  | putchar | cgetc | printJobs => exact .pure _ (.refl h)
  | printCons s num => exact Goes.guard (.refl h) fun _ => .pure _ (.refl h)
  | getenvid => exact Goes.get (Goes.curenvPtr fun _ _ => .pure _ (.refl h))
  | yield => exact Goes.bind (.schedule (.refl h) true) fun _ _ hm => .pure _ hm
  | envDestroy envid =>
    refine Goes.envid2env (.refl h) fun e he => ?_
    exact Goes.bind (envDestroy_goes h (h.target_live he)) fun _ _ hm => .pure _ hm
  | setTlbModEntry envid func => exact setTlbModEntry_goes h envid func
  | memAlloc envid va perm => exact memAlloc_goes h hok
  | memMap srcid srcva dstid dstva perm => exact memMap_goes h hok
  | memUnmap envid va => exact memUnmap_goes h envid va
  | exofork => exact exofork_goes h hfree
  | setEnvStatus envid status => exact setEnvStatus_goes h envid status
  | setTrapframe envid tf => exact setTrapframe_goes h envid tf inp.tf
  | panic msg => exact .fault (.refl h)
  | ipcTrySend envid value srcva perm =>
    have hd : Delivers (Env.sent value perm) :=
      ⟨fun _ _ => rfl, fun _ _ => rfl, fun _ _ => rfl, fun _ _ => rfl⟩
    exact send_goes h hd fun c e p hsrc hr hp => hok e p _ perm (.ipcTrySend hsrc hr hp)
  | ipcRecv dstva => exact ipcRecv_goes h dstva
  | writeDev va pa len =>
    exact Goes.guard (.refl h) fun _ => Goes.guard (.refl h) fun _ =>
      Goes.guard (.refl h) fun _ => .pure _ (.refl h)
  | readDev va pa len => exact readDev_goes h hW hc inp va pa len
  | createJob envid cmd => exact Goes.bind (createJob_goes h envid inp.cmd) fun _ _ hm => .pure _ hm
  | setJobDone envid => exact Goes.bind (setJobDone_goes h envid) fun _ _ hm => .pure _ hm
  | fgJob envid => exact fgJob_goes h envid
  | killJob envid => exact Goes.bind (killJob_goes h envid) fun _ _ hm => .pure _ hm
  | sendReturnValue envid value srcva perm =>
    have hd : Delivers (Env.sentReturn value perm) :=
      ⟨fun _ _ => rfl, fun _ _ => rfl, fun _ _ => rfl, fun _ _ => rfl⟩
    exact send_goes h hd fun c e p hsrc hr hp => hok e p _ perm (.sendReturnValue hsrc hr hp)
  | recvReturnValue => exact recvReturnValue_goes h

/-! ## Steps -/

/-- What a step maps. -/
def StepMaps (k : Kernel) (op : Op) (e : EnvIx) (p : Nat) (va perm : Word) : Prop :=
  ∃ f inp s, op = .syscall f inp ∧ Syscall.ofFrame f inp = some s ∧ CallMaps k s e p va perm

/-- What a step maps may be mapped there. -/
def StepOk (W : Grant) (k : Kernel) (op : Op) : Prop :=
  ∀ e p va perm, StepMaps k op e p va perm → Mappable W k e p va perm

theorem same_trapped (k : Kernel) (f : Trapframe) : SameVm k (k.trapped f) := same_regs k _ _

theorem leaveKernel_goes (h : Moved pool base W k₀ k) : Goes pool base W k₀ leaveKernel k := by
  unfold leaveKernel
  refine Goes.get ((wp_restoreAll _).mpr (h.trans ?_))
  exact (same_regs k _ k.kstack).moved h.sound

theorem doSyscall_goes (h : Moved pool base W k₀ k) (hW : FaultGrants pool W)
    (hfree : ∀ e, k.envFreeList.head? = some e → (k.envs e).envStatus = .free)
    (hc : k.curenv = some c) (inp : Inputs)
    (hok : ∀ s, Syscall.ofFrame k.kstack inp = some s → CallOk W k s) :
    Goes pool base W k₀ (doSyscall inp) k := by
  unfold doSyscall
  refine Goes.get ?_
  unfold Goes
  split
  case h_1 =>
    rw [wp_setKstackReg]
    exact h.trans ((same_regs k k.status _).moved h.sound)
  case h_2 s hs =>
    have hsame : SameVm k { k with kstack := { k.kstack with cp0Epc := k.kstack.cp0Epc + 4 } } :=
      same_regs k k.status _
    have hentered := hsame.moved (W := W) h.sound
    simp only [wp_bind, wp_modify, wp_recover, wp_setKstackReg]
    have hreg : ∀ (k₁ : Kernel) v, Moved pool base W k₀ k₁ →
        Moved pool base W k₀ { k₁ with kstack := k₁.kstack.setReg 2 v } := fun k₁ v h₁ =>
      h₁.trans ((same_regs k₁ k₁.status _).moved h₁.sound)
    refine wp_mono (call_goes hentered.sound hW hfree hc inp ((hok s hs).regs _ _)) ?_ ?_
    · exact fun v k₁ h₁ => hreg k₁ v ((h.trans hentered).trans h₁)
    · rintro err k₁ (hh | ⟨h₁, hcur⟩)
      · rw [errnoValue_halts hh]
        exact Or.inl hh
      · cases herr : errnoValue err with
        | none => exact Or.inr ⟨(h.trans hentered).trans h₁, hcur⟩
        | some v => exact hreg k₁ v ((h.trans hentered).trans h₁)

theorem storeUser_goes (h : Sound pool base k) (hc : k.curenv = some c) (va w : Word) :
    Goes pool base W k (Op.body (.store va w)) k := by
  unfold Op.body
  refine Goes.get ?_
  unfold Goes
  rw [wp_bind, wp_onMem]
  refine wp_mono (writable_spec h.vm.toMemInv (h.dirs hc)) ?_ (fun _ _ hbad => Or.inl hbad.halts)
  rintro r m ⟨rfl, hdata⟩
  cases r with
  | none => exact (wp_throw _).mpr (Or.inl trivial)
  | some p =>
    obtain ⟨hp, hw⟩ := hdata p rfl
    rw [wp_onMem, wp_modify]
    exact (store_faulted h hc hp hw _ _).toMoved

theorem tlbMod_goes (h : Sound pool base k) (hW : FaultGrants pool W) (hc : k.curenv = some c)
    (f : Trapframe) (va : Word) (inp : Inputs) :
    Goes pool base W k (Op.body (.tlbMod f va inp)) k := by
  unfold Op.body Goes
  rw [wp_bind, wp_enterKernel, wp_bind, wp_get, wp_bind]
  have htrap := (same_trapped k { f with cp0Badvaddr := va }).moved (W := W) h
  refine wp_mono (doTlbMod_faulted htrap.sound hc hW _) ?_ ?_
  · intro tf k₁ hf
    rw [wp_bind, wp_modify]
    have hm := htrap.trans hf.toMoved
    exact leaveKernel_goes (hm.trans ((same_regs k₁ k₁.status tf).moved hm.sound))
  · rintro err k₁ (hh | ⟨rfl, hf⟩)
    · exact Or.inl hh
    · exact Or.inr ⟨htrap.trans hf.toMoved, fun _ => by simp [hf.cur, hc]⟩

theorem evict_goes (h : Sound pool base k) (hc : k.curenv = some c) (i : Nat) :
    Goes pool base W k (Op.body (.tlbEvict i)) k := by
  unfold Op.body Goes
  rw [wp_onMem, wp_modify]
  refine h.work (h.running c hc) (.of_same h.vm.toMemInv ?_ rfl rfl fun x hx => ?_)
  · exact ⟨rfl, fun _ _ => rfl, fun _ _ => rfl⟩
  · exact List.mem_of_mem_eraseIdx hx

theorem Goes.next {op : Op} (h : Goes pool base W k op.body k) (hW : FaultGrants pool W)
    (hs : next op k = some k') : Moved pool base W k k' := by
  rcases next_body hs with hx | hx | ⟨k₁, hx, hnested⟩
  · exact (wp_run_ok h hx :)
  · exact ((wp_run_error h hx :).resolve_left id).1
  · obtain ⟨hm, hcur⟩ := (wp_run_error h hx :).resolve_left id
    obtain ⟨c, hc⟩ := Option.ne_none_iff_exists'.mp (hcur rfl)
    exact hm.trans (nestedTlbMod_moved hm.sound hc hW hnested)

/-- The body of a step that may be taken. -/
theorem body_goes {op : Op} (h : Sound pool base k) (hW : FaultGrants pool W) (hslot : SlotInv k)
    (hok : StepOk W k op) (henabled : op.enabled k = true) : Goes pool base W k op.body k := by
  have hfree : ∀ e, k.envFreeList.head? = some e → (k.envs e).envStatus = .free :=
    fun e he => hslot.free_status e (List.mem_of_head? he)
  have htrap : ∀ f, Moved pool base W k (k.trapped f) := fun f => (same_trapped k f).moved h
  by_cases hstart : op = .start
  · subst hstart
    exact Goes.schedule (.refl h) false
  obtain ⟨c, hc⟩ : ∃ c, k.curenv = some c := by
    refine Option.isSome_iff_exists.mp ?_
    cases op <;> simp_all [Op.enabled]
  cases op with
  | start => exact absurd rfl hstart
  | syscall f inp =>
    unfold Op.body Goes
    rw [wp_bind, wp_enterKernel]
    refine Goes.bind (doSyscall_goes (htrap f) hW hfree hc inp fun s hs => ?_) fun _ _ hm =>
      leaveKernel_goes hm
    have hcall : CallOk W k s := fun e p va perm hmaps => hok e p va perm ⟨f, inp, s, rfl, hs, hmaps⟩
    exact hcall.regs _ _
  | timer f =>
    unfold Op.body Goes
    rw [wp_bind, wp_enterKernel]
    exact Goes.schedule (htrap f) false
  | tlbRefill f va =>
    unfold Op.body Goes
    rw [wp_bind, wp_enterKernel, wp_bind, wp_get, wp_bind]
    refine wp_mono (refill_faulted (htrap _).sound hc hW va) ?_ (fun _ _ hh => Or.inl hh)
    exact fun _ k₁ hf => leaveKernel_goes ((htrap _).trans hf.toMoved)
  | tlbMod f va inp => exact tlbMod_goes h hW hc f va inp
  | store va w => exact storeUser_goes h hc va w
  | tlbEvict i => exact evict_goes h hc i

theorem moved_next {op : Op} (h : Sound pool base k) (hW : FaultGrants pool W) (hslot : SlotInv k)
    (hok : StepOk W k op) (hs : next op k = some k') : Moved pool base W k k' :=
  (body_goes h hW hslot hok (next_cases hs).1).next hW hs

end Mos
