import Mos.Mem.Assertions
import Mos.Mem.Tlb

/-!
# Counters and references

`pp_ref` of a page says how many entries and `env_pgdir`s of live environments refer
to it, as long as every permission stays in its low 12 bits and no page has more
references than 16 bits can count.
-/

namespace Mos

open Lib (Heap wp wp_and wp_bind wp_forM wp_get wp_guard wp_modify wp_mono wp_pure wp_recover wp_run_error
  wp_run_ok wp_self wp_throw)

variable {pool : Finset Nat} {base : Nat} {W : Grant} {k k₀ k₁ k' : Kernel} {m : Mem} {e c : EnvIx}
  {va perm : Word} {p : Nat} {op : Op} {mc : Machine} {programs : List (Image × Word)} {α β : Type}

/-! ## Counting -/

/-- The valid entries in the directories and page tables of the live environments, and their
`env_pgdir`s, that refer to `p`. Entry `PDX(UVPT)`, which maps the directory itself, does not count. -/
def Kernel.references (k : Kernel) (p : Nat) : Nat :=
  (Finset.univ.filter fun r => k.mem.refers k.vm.dirs r = some p).card

/-- The pages that are free when `env_init` returns. All others are reserved for the kernel. -/
def Machine.userPages (mc : Machine) : List Nat :=
  match envInit mc mc.initial with
  | .ok _ k => k.mem.pageFreeList
  | .error _ _ => []

/-- The permissions that reach `page_insert` have nothing above their low 12 bits. -/
def LowPerm (k : Kernel) (op : Op) : Prop :=
  ∀ e p va perm, StepMaps k op e p va perm → perm.toNat < 4096

/-- No page has 65536 references. -/
def Bounded (pages : List Nat) (k : Kernel) : Prop := ∀ p ∈ pages, k.references p < 65536

theorem card_fiber (hp : p ∈ pool) :
    ((k.mem.heap pool k.vm.dirs).fiber p).card = k.references p := by
  have hsame : (k.mem.heap pool k.vm.dirs).fiber p =
      Finset.univ.filter fun r => k.mem.refers k.vm.dirs r = some p := by
    ext r
    simp only [Heap.mem_fiber, refs_some, Finset.mem_filter, Finset.mem_univ, true_and, hp, and_true]
  exact congrArg Finset.card hsame

/-! ## A step that counts too far -/

/-- A page has more references than its counter can say. -/
def Overfull (pool : Finset Nat) (k : Kernel) : Prop := Overflow pool k.vm.dirs k.mem

theorem Overfull.not_bounded {pages : List Nat} (h : Overfull pages.toFinset k) : ¬ Bounded pages k := by
  obtain ⟨p, hp, hcard⟩ := h
  rw [card_fiber hp] at hcard
  exact fun hb => absurd (hb p (List.mem_toFinset.mp hp)) (not_lt.mpr hcard)

theorem SameVm.overfull (h : SameVm k k') (ho : Overfull pool k) : Overfull pool k' := by
  unfold Overfull at ho ⊢
  rw [h.vm, h.mem]
  exact ho

/-- Any page may be mapped anywhere. -/
abbrev anywhere : Grant := fun _ _ _ _ => True

/-- Like `Goes`, but when the function returns a page may have too many references. -/
def Spills (pool : Finset Nat) (base : Nat) (k₀ : Kernel) (x : K α) (k : Kernel) : Prop :=
  wp x (fun _ k' => Moved pool base anywhere k₀ k' ∨ Overfull pool k') (fun err k' => Halts err ∨
    (Moved pool base anywhere k₀ k' ∧ (err = .tlbMod → k'.curenv ≠ none))) k

theorem Goes.spills {x : K α} (h : Goes pool base anywhere k₀ x k) : Spills pool base k₀ x k :=
  wp_mono h (fun _ _ hm => Or.inl hm) (fun _ _ h => h)

namespace Spills

theorem after {x : K β} {f : β → K α} (hx : Goes pool base anywhere k₀ x k)
    (hf : ∀ b k₁, Moved pool base anywhere k₀ k₁ → Spills pool base k₀ (f b) k₁) :
    Spills pool base k₀ (x >>= f) k := by
  unfold Spills
  rw [wp_bind]
  exact wp_mono hx (fun b k₁ h => hf b k₁ h) (fun _ _ h => h)

theorem bind {x : K β} {f : β → K α} (hx : Spills pool base k₀ x k)
    (hf : ∀ b k₁, wp (f b) (fun _ k₂ => SameVm k₁ k₂) (fun _ _ => False) k₁) :
    Spills pool base k₀ (x >>= f) k := by
  unfold Spills
  rw [wp_bind]
  refine wp_mono hx (fun b k₁ h => wp_mono (hf b k₁) (fun _ k₂ hs => ?_) fun _ _ h => h.elim)
    (fun _ _ h => h)
  rcases h with hm | ho
  · exact Or.inl (hm.trans (hs.moved hm.sound))
  · exact Or.inr (hs.overfull ho)

theorem get {f : Kernel → K α} (hf : Spills pool base k₀ (f k) k) :
    Spills pool base k₀ (MonadState.get >>= f) k := by
  unfold Spills
  rw [wp_bind, wp_get]
  exact hf

theorem guard {p : Prop} [Decidable p] {f : Fault} {x : K α} (h : Moved pool base anywhere k₀ k)
    (hx : ¬ p → Spills pool base k₀ x k) : Spills pool base k₀ (do
      if p then throw (.fault f)
      x) k :=
  wp_guard (fun _ => Or.inr ⟨h, fun herr => by cases herr⟩) hx

theorem curenvPtr {f : EnvIx → K α} (hf : ∀ c, k.curenv = some c → Spills pool base k₀ (f c) k) :
    Spills pool base k₀ (Mos.curenvPtr >>= f) k := by
  unfold Spills
  rw [wp_bind]
  exact wp_curenvPtr hf fun _ => Or.inl trivial

theorem envid2env {envid : Word} {checkperm : Bool} {f : EnvIx → K α}
    (h : Moved pool base anywhere k₀ k)
    (hf : ∀ e, target k envid checkperm = some e → Spills pool base k₀ (f e) k) :
    Spills pool base k₀ (Mos.envid2env envid checkperm >>= f) k := by
  unfold Spills
  rw [wp_bind]
  refine wp_envid2env hf ?_
  rintro err (rfl | rfl)
  · exact Or.inr ⟨h, fun herr => by cases herr⟩
  · exact Or.inl trivial

theorem updEnv {g : Env → Env} {f : Unit → K α} (hf : Spills pool base k₀ (f ()) (k.setEnv e g)) :
    Spills pool base k₀ (Mos.updEnv e g >>= f) k := by
  unfold Spills
  rw [wp_bind, wp_updEnv]
  exact hf

theorem lookup {d : Nat} {f : Option (Nat × PtePtr) → K α}
    (hf : Spills pool base k₀ (f (k.mem.lookup d va)) k) :
    Spills pool base k₀ (onMem (pageLookup d va) >>= f) k := by
  unfold Spills
  rw [wp_bind, wp_onMem]
  refine wp_mono (pageLookup_spec k.mem d va) ?_ (fun _ _ herr => Or.inl herr.2.halts)
  rintro r m ⟨rfl, rfl⟩
  exact hf

end Spills

theorem insert_spills (h : Moved pool base anywhere k₀ k) (he : (k.envs e).envStatus ≠ .free)
    (hva : pdx va < pdx utop) (hp : Held pool k.vm.dirs k.mem p)
    (hplain : ppn (pteWord p perm) = p) : Spills pool base k₀
      (onMem (pageInsert (k.envs e).envPgdir (k.envs e).envAsid p va perm)) k := by
  unfold Spills
  rw [wp_onMem]
  refine wp_mono (pageInsert_spec h.sound.vm.toMemInv (Sound.dirs_live he) hva hp) ?_ ?_
  · intro _ m hins
    rcases hins.effect hplain with hch | ⟨-, -, hover⟩
    · exact Or.inl (h.work he (hch _ _ trivial))
    · exact Or.inr hover
  · rintro err m (⟨rfl, hch⟩ | hbad)
    · exact Or.inr ⟨h.work he (hch _ _), fun herr => by cases herr⟩
    · exact Or.inl hbad.halts

/-- The permission of a call leaves the number of the page alone. -/
def PlainCall (k : Kernel) (s : Syscall) : Prop :=
  ∀ e p va perm, CallMaps k s e p va perm → ppn (pteWord p perm) = p

theorem PlainCall.regs {s : Syscall} (h : PlainCall k s) (st : Word) (tf : Trapframe) :
    PlainCall { k with status := st, kstack := tf } s :=
  fun e p va perm hmaps => h e p va perm hmaps.regs

theorem memMap_spills (h : Sound pool base k) {srcid srcva dstid dstva : Word}
    (hplain : PlainCall k (.memMap srcid srcva dstid dstva perm)) :
    Spills pool base k (sysMemMap srcid srcva dstid dstva perm) k := by
  unfold sysMemMap
  refine .guard (.refl h) fun hva => ?_
  rw [not_or, Bool.not_eq_true, Bool.not_eq_true] at hva
  refine .envid2env (.refl h) fun src hsrc => .envid2env (.refl h) fun dst hdst => ?_
  refine .get (.get (.lookup ?_))
  cases hl : k.mem.lookup (k.envs src).envPgdir srcva with
  | none => exact Goes.spills (.fault (.refl h))
  | some r =>
    obtain ⟨p, x⟩ := r
    have hpage : k.pageAt src srcva = some p := by
      rw [Kernel.pageAt, hl]
      rfl
    have hheld := lookup_held h (h.target_live hsrc) (legal_pdx hva.1) hl
    refine .bind (insert_spills (.refl h) (h.target_live hdst) (legal_pdx hva.2) hheld ?_) ?_
    · exact hplain dst p dstva perm (.memMap hva.1 hva.2 hsrc hdst hpage)
    · exact fun _ k₁ => (wp_pure _).mpr (.refl k₁)

theorem mapSent_spills (h : Moved pool base anywhere k₀ k) (he : (k.envs e).envStatus ≠ .free)
    {srcva : Word} (hva : pdx srcva < pdx utop) (hplain : ∀ c p, k.curenv = some c →
      k.pageAt c srcva = some p → ppn (pteWord p perm) = p) :
    Spills pool base k₀ (mapSent e srcva perm) k := by
  unfold mapSent
  refine .curenvPtr fun c hc => .get (.lookup ?_)
  cases hl : k.mem.lookup (k.envs c).envPgdir srcva with
  | none => exact Goes.spills (.fault h)
  | some r =>
    obtain ⟨p, x⟩ := r
    have hpage : k.pageAt c srcva = some p := by
      rw [Kernel.pageAt, hl]
      rfl
    have hheld := lookup_held h.sound (h.sound.live hc) hva hl
    exact .get (insert_spills h he (pdx_lt_utop (h.sound.dstva_lt e)) hheld (hplain c p hc hpage))

theorem send_spills (h : Sound pool base k) {waiting : Env → Bool} {deliver : Word → Env → Env}
    (hd : Delivers deliver) {envid srcva : Word} (hplain : ∀ c e p, srcva ≠ 0 →
      Ready k waiting envid srcva c e → k.pageAt c srcva = some p → ppn (pteWord p perm) = p) :
    Spills pool base k (send waiting deliver envid srcva perm) k := by
  unfold send wakeAndMap
  refine .guard (.refl h) fun hlegal => .envid2env (.refl h) fun e he => .get ?_
  refine .guard (.refl h) fun hwait => .curenvPtr fun c hc => .get (.updEnv (.updEnv ?_))
  have hlive := h.target_live he
  have hready : Ready k waiting envid srcva c e := ⟨hlegal, he, by simpa using hwait, hc⟩
  have hwake := hd.woken (k.envs c).envId hlive
  unfold Spills
  rw [wp_bind]
  refine wp_mono (schedInsertTail_spec _ e) ?_ (fun _ _ h => h.elim)
  rintro _ k₃ ⟨q, b, rfl⟩
  have hs := hwake.trans (LinkFree.setList (R := SameVm) _ q b)
  have hmoved := hs.moved (W := anywhere) h
  split
  case isFalse => exact (wp_pure _).mpr (Or.inl hmoved)
  case isTrue hsrc =>
    have hva : isIllegalVa srcva = false := (Bool.not_eq_true _).mp fun hill => hlegal ⟨hsrc, hill⟩
    refine Spills.bind (mapSent_spills hmoved ((hs.live_iff e).mpr hlive) (legal_pdx hva) ?_) ?_
    · intro c' p hc' hp
      obtain rfl : c = c' := Option.some.inj (hc.symm.trans hc')
      exact hplain c e p hsrc hready ((hs.pageAt (h.live hc) srcva).symm.trans hp)
    · exact fun _ k₁ => (wp_pure _).mpr (.refl k₁)

/-- Every call of the table: only a page that was mapped before gets one reference too many. -/
theorem call_spills (h : Sound pool base k)
    (hfree : ∀ e, k.envFreeList.head? = some e → (k.envs e).envStatus = .free)
    (hc : k.curenv = some c) (inp : Inputs) {s : Syscall} (hplain : PlainCall k s) :
    Spills pool base k (s.run inp) k := by
  -- calls that map no page, or a fresh one
  have goes : (∀ e p va perm, CallMaps k s e p va perm → (k.mem.ppRef p).toNat ≠ 65535) →
      Spills pool base k (s.run inp) k := by
    intro hroom
    refine Goes.spills (call_goes h (anyFault pool) hfree hc inp fun e p va perm hmaps => ?_)
    exact ⟨trivial, hplain e p va perm hmaps, fun hmax => absurd hmax (hroom e p va perm hmaps)⟩
  cases s with
  | memMap srcid srcva dstid dstva perm => exact memMap_spills h hplain
  | ipcTrySend envid value srcva perm =>
    have hd : Delivers (Env.sent value perm) :=
      ⟨fun _ _ => rfl, fun _ _ => rfl, fun _ _ => rfl, fun _ _ => rfl⟩
    exact send_spills h hd fun c e p hsrc hr hp => hplain e p _ perm (.ipcTrySend hsrc hr hp)
  | sendReturnValue envid value srcva perm =>
    have hd : Delivers (Env.sentReturn value perm) :=
      ⟨fun _ _ => rfl, fun _ _ => rfl, fun _ _ => rfl, fun _ _ => rfl⟩
    exact send_spills h hd fun c e p hsrc hr hp => hplain e p _ perm (.sendReturnValue hsrc hr hp)
  | memAlloc envid va perm =>
    refine goes fun e p va' perm' hmaps hmax => ?_
    cases hmaps with
    | memAlloc _ _ page =>
      have hzero := h.vm.counts.free_zero p (List.mem_of_head? page)
      exact absurd (hzero.symm.trans hmax) (by decide)
  | _ => exact goes fun e p va' perm' hmaps => by cases hmaps

theorem doSyscall_spills (h : Sound pool base k)
    (hfree : ∀ e, k.envFreeList.head? = some e → (k.envs e).envStatus = .free)
    (hc : k.curenv = some c) (inp : Inputs)
    (hplain : ∀ s, Syscall.ofFrame k.kstack inp = some s → PlainCall k s) :
    Spills pool base k (doSyscall inp) k := by
  unfold doSyscall
  refine .get ?_
  unfold Spills
  split
  case h_1 =>
    rw [wp_setKstackReg]
    exact Or.inl ((same_regs k k.status _).moved h)
  case h_2 s hs =>
    have hsame : SameVm k { k with kstack := { k.kstack with cp0Epc := k.kstack.cp0Epc + 4 } } :=
      same_regs k k.status _
    have hentered := hsame.moved (W := anywhere) h
    have hreg : ∀ (k₁ : Kernel) v, SameVm k₁ { k₁ with kstack := k₁.kstack.setReg 2 v } :=
      fun k₁ v => same_regs k₁ k₁.status _
    simp only [wp_bind, wp_modify, wp_recover, wp_setKstackReg]
    refine wp_mono (call_spills hentered.sound hfree hc inp ((hplain s hs).regs _ _)) ?_ ?_
    · rintro v k₁ (h₁ | ho)
      · exact Or.inl ((hentered.trans h₁).trans ((hreg k₁ v).moved h₁.sound))
      · exact Or.inr ((hreg k₁ v).overfull ho)
    · rintro err k₁ (hh | ⟨h₁, hcur⟩)
      · rw [errnoValue_halts hh]
        exact Or.inl hh
      · cases errnoValue err with
        | none => exact Or.inr ⟨hentered.trans h₁, hcur⟩
        | some v => exact Or.inl ((hentered.trans h₁).trans ((hreg k₁ v).moved h₁.sound))

/-! ## Steps and runs -/

/-- The permission of a step's call leaves the number of the page alone. -/
def PlainStep (k : Kernel) (op : Op) : Prop :=
  ∀ e p va perm, StepMaps k op e p va perm → ppn (pteWord p perm) = p

theorem LowPerm.plain (h : Sound pool base k) (hl : LowPerm k op) : PlainStep k op :=
  fun e p va perm hm => ppn_pteWord_low (maps_lt h hm) (hl e p va perm hm)

theorem body_spills (h : Sound pool base k) (hslot : SlotInv k) (hplain : PlainStep k op)
    (hen : op.enabled k = true) : Spills pool base k op.body k := by
  by_cases hop : ∃ f inp, op = .syscall f inp
  · obtain ⟨f, inp, rfl⟩ := hop
    have hfree : ∀ e, k.envFreeList.head? = some e → (k.envs e).envStatus = .free :=
      fun e he => hslot.free_status e (List.mem_of_head? he)
    obtain ⟨c, hc⟩ : ∃ c, k.curenv = some c := by
      refine Option.isSome_iff_exists.mp ?_
      simp_all [Op.enabled]
    have htrap := (same_trapped k f).moved (W := anywhere) h
    unfold Op.body Spills
    rw [wp_bind, wp_enterKernel]
    refine Spills.bind ?_ fun _ k₁ => ?_
    · refine wp_mono (doSyscall_spills htrap.sound hfree hc inp fun s hs => ?_) ?_ ?_
      · have hcall : PlainCall k s := fun e p va perm hmaps =>
          hplain e p va perm ⟨f, inp, s, rfl, hs, hmaps⟩
        exact hcall.regs _ _
      · exact fun _ _ h₁ => h₁.imp_left htrap.trans
      · exact fun _ _ h₁ => h₁.imp_right fun h₂ => ⟨htrap.trans h₂.1, h₂.2⟩
    · unfold leaveKernel
      rw [wp_bind, wp_get, wp_restoreAll]
      exact same_regs k₁ _ k₁.kstack
  · refine Goes.spills (body_goes h (anyFault pool) hslot (fun e p va perm hm => ?_) hen)
    exact absurd hm (no_maps fun f inp heq => hop ⟨f, inp, heq⟩)

theorem spills_next (h : Sound pool base k) (hslot : SlotInv k) (hplain : PlainStep k op)
    (hs : next op k = some k') : Moved pool base anywhere k k' ∨ Overfull pool k' := by
  have hbody := body_spills h hslot hplain (next_cases hs).1
  rcases next_body hs with hx | hx | ⟨k₁, hx, hnested⟩
  · exact (wp_run_ok hbody hx :)
  · exact Or.inl ((wp_run_error hbody hx :).resolve_left id).1
  · obtain ⟨hm, hcur⟩ := (wp_run_error hbody hx :).resolve_left id
    obtain ⟨c, hc⟩ := Option.ne_none_iff_exists'.mp (hcur rfl)
    exact Or.inl (hm.trans (nestedTlbMod_moved hm.sound hc (anyFault pool) hnested))

theorem step_sure (h : Sound pool base k) (hslot : SlotInv k) (hplain : PlainStep k op)
    (hen : op.enabled k = true) : Sure op.run k := by
  refine run_sure h op hen (wp_mono (body_spills h hslot hplain hen) (fun _ _ _ => trivial) ?_)
  rintro err k' (hh | ⟨hm, hcur⟩) rfl
  · exact absurd hh id
  · exact ⟨hm.sound, hcur rfl⟩

/-- During boot no assertion fails, and afterwards the pool is the pages that `env_init` has left. -/
theorem mipsInit_sound (mc : Machine) (programs : List (Image × Word)) :
    wp (mipsInit mc programs)
      (fun _ k => SlotInv k ∧ ∃ base, Sound mc.userPages.toFinset base k)
      (fun err _ => ¬ err.Asserts) mc.initial := by
  unfold mipsInit
  rw [wp_bind]
  refine wp_mono (wp_and (wp_and (slot_envInit mc) (envInit_bare mc)) (wp_self _ _)) ?_
    (fun _ _ h => h.1.2)
  rintro _ k₀ ⟨⟨hslot, pool, base, hbare⟩, hrun⟩
  have hpages : mc.userPages.toFinset = pool := by
    rw [Machine.userPages, hrun, ← hbare.pages]
  refine wp_forM (I := fun k => SlotInv k ∧ ∃ base, Sound mc.userPages.toFinset base k)
    (fun p _ k hk => ?_) ⟨hslot, base, hpages ▸ hbare.sound⟩
  obtain ⟨hslot, base, hs⟩ := hk
  have hfree : ∀ e, k.envFreeList.head? = some e → (k.envs e).envStatus = .free :=
    fun e he => hslot.free_status e (List.mem_of_head? he)
  rw [wp_bind]
  refine wp_mono (wp_and (slot_envCreate hslot p.1 p.2)
    (envCreate_moved (W := anywhere) hs hfree (fun _ _ _ _ _ => trivial) p.2)) ?_ (fun _ _ h => h.2)
  exact fun _ _ ⟨hslot, hm⟩ => (wp_pure _).mpr ⟨hslot, base, hm.sound⟩

theorem boot_sound (hb : boot mc programs = some k) :
    SlotInv k ∧ ∃ base, Sound mc.userPages.toFinset base k := by
  unfold boot at hb
  split at hb
  case h_1 k' hx =>
    obtain rfl := Option.some.inj hb
    exact (wp_run_ok (mipsInit_sound mc programs) hx :)
  case h_2 => cases hb

/-! ## Counters are right -/

/-- What `pp_ref` and `page_free_list` say of the pages is true. -/
structure RefSafe (pages : List Nat) (k : Kernel) : Prop where
  counted : ∀ p ∈ pages, k.references p ≤ (k.mem.ppRef p).toNat
  nodup : k.mem.pageFreeList.Nodup
  free : ∀ p ∈ k.mem.pageFreeList, p ∈ pages ∧ k.mem.ppRef p = 0 ∧ k.references p = 0
  handed : ∀ p m, pageAlloc k.mem = .ok p m → k.references p = 0

variable {pages : List Nat}

theorem Sound.counted (h : Sound pages.toFinset base k) (hp : p ∈ pages) :
    k.references p ≤ (k.mem.ppRef p).toNat := by
  rw [← card_fiber (List.mem_toFinset.mpr hp)]
  exact h.vm.counts.fiber_le p

theorem Sound.exact (h : Sound pages.toFinset base k) (hp : p ∈ pages) (hpos : k.references p ≠ 0) :
    (k.mem.ppRef p).toNat = k.references p := by
  rw [← card_fiber (List.mem_toFinset.mpr hp)] at hpos ⊢
  exact h.vm.counts.cnt_eq hpos

theorem Sound.bounded (h : Sound pages.toFinset base k) : Bounded pages k := fun p hp =>
  lt_of_le_of_lt (h.counted hp) (k.mem.ppRef p).isLt

theorem Sound.unreferenced (h : Sound pages.toFinset base k) (hp : p ∈ k.mem.pageFreeList) :
    p ∈ pages ∧ k.references p = 0 := by
  have hmem : p ∈ pages := List.mem_toFinset.mp (h.vm.counts.free_used p hp)
  have hzero : (k.mem.ppRef p).toNat = 0 := h.vm.counts.free_zero p hp
  exact ⟨hmem, Nat.le_zero.mp (hzero ▸ h.counted hmem)⟩

theorem Sound.refSafe (h : Sound pages.toFinset base k) : RefSafe pages k where
  counted _ hp := h.counted hp
  nodup := h.vm.counts.free_nodup
  free p hp := ⟨(h.unreferenced hp).1, BitVec.eq_of_toNat_eq (h.vm.counts.free_zero p hp),
    (h.unreferenced hp).2⟩
  handed p m hx := by
    obtain ⟨rest, hfree, -⟩ := wp_run_ok (pageAlloc_spec h.vm.toMemInv) hx
    exact (h.unreferenced (hfree ▸ List.mem_cons_self)).2

theorem run_sound (h : (mosOn mc programs).Run (fun k op => LowPerm k op ∧ Bounded mc.userPages k) k) :
    SlotInv k ∧ (Bounded mc.userPages k → ∃ base, Sound mc.userPages.toFinset base k) := by
  induction h with
  | init hb => exact ⟨(boot_sound hb).1, fun _ => (boot_sound hb).2⟩
  | @step k k' op _ hc hs ih =>
    obtain ⟨hslot, hsound⟩ := ih
    refine ⟨slot_next hslot hs, fun hbounded => ?_⟩
    obtain ⟨base, hsound⟩ := hsound hc.2
    rcases spills_next hsound hslot (hc.1.plain hsound) hs with hm | hover
    · exact ⟨base, hm.sound⟩
    · exact absurd hbounded hover.not_bounded

/-- In a run whose permissions stay in the low 12 bits and in which no page has 65536 references, the
counters cover the references, free pages have none, and neither boot nor a step fails in an
assertion about them. -/
theorem references_safe
    (h : (mosOn mc programs).Run (fun k op => LowPerm k op ∧ Bounded mc.userPages k) k)
    (hk : Bounded mc.userPages k) : RefSafe mc.userPages k ∧
      (∀ op err k', op.enabled k = true → LowPerm k op → op.run k = .error err k' → ¬ err.Asserts) ∧
      ∀ err k', mipsInit mc programs mc.initial = .error err k' → ¬ err.Asserts := by
  obtain ⟨hslot, hsound⟩ := run_sound h
  obtain ⟨base, hsound⟩ := hsound hk
  refine ⟨hsound.refSafe, fun op err k' hen hlow hx => ?_, fun err k' hx => ?_⟩
  · exact (wp_run_error (step_sure hsound hslot (hlow.plain hsound) hen) hx :)
  · exact (wp_run_error (mipsInit_sound mc programs) hx :)

theorem low_none (h : ∀ f inp, op ≠ .syscall f inp) : LowPerm k op := fun _ _ _ _ hm =>
  absurd hm (no_maps h)

/-- A program that runs and has touched a page. -/
theorem references_safe_refill : ∃ k, (mosOn smallMachine [(bareLoop, 1)]).Run
      (fun k op => LowPerm k op ∧ Bounded smallMachine.userPages k) k ∧
    Bounded smallMachine.userPages k ∧ k.mem.ppRef 134 = 1 ∧ (RefSafe smallMachine.userPages k ∧
      (∀ op err k', op.enabled k = true → LowPerm k op → op.run k = .error err k' → ¬ err.Asserts) ∧
      ∀ err k', mipsInit smallMachine [(bareLoop, 1)] smallMachine.initial = .error err k' →
        ¬ err.Asserts) := by
  have hcheck : ((boot smallMachine [(bareLoop, 1)]).any fun k =>
      (next .start k).any fun k₁ => (next (.tlbRefill .zero 0x800000) k₁).any fun k₂ =>
        k₂.mem.ppRef 134 == 1) = true := by
    decide +kernel
  simp only [Option.any_eq_true, beq_iff_eq] at hcheck
  obtain ⟨k, hb, k₁, h₁, k₂, h₂, href⟩ := hcheck
  obtain ⟨hslot, base, hs⟩ := boot_sound hb
  have go : ∀ {k k' : Kernel} {op}, Sound smallMachine.userPages.toFinset base k → SlotInv k →
      (∀ f inp, op ≠ .syscall f inp) → next op k = some k' →
      Sound smallMachine.userPages.toFinset base k' := by
    intro k k' op hs hslot hop hn
    have hok : StepOk anywhere k op := fun _ _ _ _ hm => absurd hm (no_maps hop)
    exact (moved_next hs (anyFault _) hslot hok hn).sound
  have hs₁ := go hs hslot (by simp) h₁
  have hs₂ := go hs₁ (slot_next hslot h₁) (by simp) h₂
  have hrun : (mosOn smallMachine [(bareLoop, 1)]).Run
      (fun k op => LowPerm k op ∧ Bounded smallMachine.userPages k) k₂ :=
    .step (.step (.init hb) ⟨low_none (by simp), hs.bounded⟩ h₁)
      ⟨low_none (by simp), hs₁.bounded⟩ h₂
  exact ⟨k₂, hrun, hs₂.bounded, href, references_safe hrun hs₂.bounded⟩

/-! ## Counters that never wrap -/

/-- Every counter of a page in use is the number of its references, and no page that a page table
refers to is free. -/
structure NeverWraps (pages : List Nat) (k : Kernel) : Prop where
  bound : ∀ p ∈ pages, k.references p ≤ 65535
  exact : ∀ p ∈ pages, k.references p ≠ 0 → (k.mem.ppRef p).toNat = k.references p
  kept : ∀ p ∈ k.mem.pageFreeList, k.references p = 0

theorem Sound.neverWraps (h : Sound pages.toFinset base k) : NeverWraps pages k where
  bound p hp := Nat.le_of_lt_succ (h.bounded p hp)
  exact _ hp hpos := h.exact hp hpos
  kept _ hp := (h.unreferenced hp).2

theorem maps_user (h : Sound pages.toFinset base k) (hm : StepMaps k op e p va perm) : p ∈ pages := by
  have found : ∀ {e va}, (k.envs e).envStatus ≠ .free → isIllegalVa va = false →
      k.pageAt e va = some p → p ∈ pages := by
    intro e va he hva hp
    obtain ⟨⟨q, x⟩, hl, rfl⟩ := Option.map_eq_some_iff.mp hp
    exact List.mem_toFinset.mp (lookup_held h he (legal_pdx hva) hl).used
  have legal : ∀ {va : Word}, va ≠ 0 → ¬ (va ≠ 0 ∧ isIllegalVa va = true) → isIllegalVa va = false :=
    fun h0 hn => (Bool.not_eq_true _).mp fun hill => hn ⟨h0, hill⟩
  obtain ⟨f, inp, s, rfl, -, hmaps⟩ := hm
  cases hmaps with
  | memAlloc _ _ page => exact (h.unreferenced (List.mem_of_head? page)).1
  | memMap srcLegal _ source _ page => exact found (h.target_live source) srcLegal page
  | ipcTrySend send ready page => exact found (h.live ready.cur) (legal send ready.legal) page
  | sendReturnValue send ready page => exact found (h.live ready.cur) (legal send ready.legal) page

theorem run_counted (h : (mosOn mc programs).Run (fun k op => PlainStep k op ∧ Countable k op) k) :
    SlotInv k ∧ ∃ base, Sound mc.userPages.toFinset base k := by
  refine h.invariant (fun k (hb : boot mc programs = some k) => boot_sound hb) ?_
  rintro k op k' ⟨hslot, base, hs⟩ ⟨hplain, hroom⟩ hn
  have hok : StepOk anywhere k op := fun e p va perm hm =>
    ⟨trivial, hplain e p va perm hm, hroom e p va perm hm⟩
  exact ⟨slot_next hslot hn, base, (moved_next hs (anyFault _) hslot hok hn).sound⟩

/-- In a run that maps no page whose counter is used up, and whose permissions leave the numbers of
the pages alone, no counter wraps. -/
theorem counters_exact
    (h : (mosOn mc programs).Run (fun k op => PlainStep k op ∧ Countable k op) k) :
    NeverWraps mc.userPages k ∧ ∀ op e p va perm, Countable k op → StepMaps k op e p va perm →
      k.mem.pte (k.envs e).envPgdir (pdx va) (ptx va) ≠ some p → k.references p ≤ 65534 := by
  obtain ⟨-, base, hs⟩ := run_counted h
  refine ⟨hs.neverWraps, fun op e p va perm hroom hm hne => ?_⟩
  have hp := maps_user hs hm
  by_cases hzero : k.references p = 0
  · omega
  · have hcnt := hs.exact hp hzero
    have hmax : (k.mem.ppRef p).toNat ≠ 65535 := fun hmax => hne (hroom e p va perm hm hmax)
    have hb := hs.bounded p hp
    omega

/-- A program that has allocated a page. -/
theorem counters_exact_alloc : ∃ k, (mosOn smallMachine [(bareLoop, 1)]).Run
      (fun k op => PlainStep k op ∧ Countable k op) k ∧ (k.mem.ppRef 133).toNat = 1 ∧
    (NeverWraps smallMachine.userPages k ∧ ∀ op e p va perm, Countable k op →
      StepMaps k op e p va perm → k.mem.pte (k.envs e).envPgdir (pdx va) (ptx va) ≠ some p →
      k.references p ≤ 65534) := by
  have hcheck : ((boot smallMachine [(bareLoop, 1)]).any fun k =>
      (next .start k).any fun k₁ => k₁.mem.pageFreeList.head? == some 133 && k₁.mem.ppRef 133 == 0 &&
        (next (callOp 6 0 0x800000 pteD) k₁).any fun k₂ => (k₂.mem.ppRef 133).toNat == 1) = true := by
    decide +kernel
  simp only [Option.any_eq_true, Bool.and_eq_true, beq_iff_eq] at hcheck
  obtain ⟨k, hb, k₁, h₁, ⟨hhead, href⟩, k₂, h₂, hone⟩ := hcheck
  have hstart : PlainStep k .start ∧ Countable k .start :=
    ⟨fun _ _ _ _ hm => absurd hm (no_maps (by simp)), fun _ _ _ _ hm => absurd hm (no_maps (by simp))⟩
  have halloc : ∀ e p va perm, StepMaps k₁ (callOp 6 0 0x800000 pteD) e p va perm →
      p = 133 ∧ perm = pteD := by
    rintro e p va perm ⟨f, inp, s, ⟨⟩, hs, hmaps⟩
    obtain rfl := Option.some.inj hs
    cases hmaps with
    | memAlloc legal he hp => exact ⟨Option.some.inj (hp.symm.trans hhead), rfl⟩
  have hrun : (mosOn smallMachine [(bareLoop, 1)]).Run
      (fun k op => PlainStep k op ∧ Countable k op) k₂ := by
    refine .step (.step (.init hb) hstart h₁) ⟨fun e p va perm hm => ?_, fun e p va perm hm hmax => ?_⟩ h₂
    · obtain ⟨rfl, rfl⟩ := halloc e p va perm hm
      decide
    · obtain ⟨rfl, -⟩ := halloc e p va perm hm
      rw [href] at hmax
      exact absurd hmax (by decide)
  exact ⟨k₂, hrun, hone, counters_exact hrun⟩

end Mos
