import Mos.Fork.Cow

/-!
# The handler of copy-on-write faults (`cow_entry`)

A page is allocated at `UCOW`, filled, mapped at the address of the fault and unmapped at `UCOW`.
-/

namespace Mos

open Lib (wp wp_bind wp_get wp_modify wp_pure wp_throw wp_ite wp_mono wp_and wp_recover)

variable {pool : Finset Nat} {base : Nat} {sp : Spaces} {k k' k₁ : Kernel} {m m' m₁ : Mem}
  {c e : EnvIx} {d d' p asid : Nat} {va addr envid vpn w perm : Word} {i j : WordIx}

/-! ## A page at `UCOW` -/

/-- All entries are as they were but that of `UCOW` in `c`. -/
structure Prepared (pool : Finset Nat) (base : Nat) (sp : Spaces) (c : EnvIx) (m m' : Mem) : Prop where
  inv : MemInv pool base sp m'
  others : ∀ e d i j, sp e = some d → ¬ (e = c ∧ i = pdx ucow ∧ j = ptx ucow) →
    m'.mapped d i j = m.mapped d i j

theorem Prepared.same (h : Prepared pool base sp c m m₁) (hinv : MemInv pool base sp m')
    (hm : ∀ e d i j, sp e = some d → m'.mapped d i j = m₁.mapped d i j) :
    Prepared pool base sp c m m' :=
  ⟨hinv, fun e d i j he hne => (hm e d i j he).trans (h.others e d i j he hne)⟩

theorem ucow_user : pdx ucow < pdx utop := by decide

theorem pageAlloc_empty (m : Mem) : wp pageAlloc (fun _ _ => True)
    (fun f _ => ¬ NoErrno f → m.pageFreeList = []) m := by
  unfold pageAlloc
  rw [wp_bind, wp_get]
  split
  case h_1 hfree => exact (wp_throw _).mpr fun _ => hfree
  case h_2 =>
    simp only [wp_bind, wp_modify]
    refine wp_mono (kaddr_spec _ _) (fun _ _ _ => ?_) fun _ _ h hno => absurd h.2.noErrno hno
    exact (wp_pure _).mpr trivial

theorem MemInv.not_selfTable (h : MemInv pool base sp m) (he : sp e = some d) (hva : pdx va < pdx utop) :
    ¬ SelfTable m d va p := by
  intro hs
  have htable : m.pde d (pdx va) = some d := (pde_user hva).trans hs.entry
  exact h.table_ne_dir he htable he rfl

/-- The entry for `UCOW` is there, or no page is left. -/
theorem memAlloc_ucow (h : MemInv pool base k.vm.dirs k.mem) (hc : k.curenv = some c)
    (hdir : k.vm.dirs c = some d) :
    wp (msyscall (sysMemAlloc 0 ucow pteD))
      (fun _ k' => ∃ m, k' = k.setMem m ∧ Prepared pool base k.vm.dirs c k.mem m ∧
        (m.mapped d (pdx ucow) (ptx ucow) = none → m.pageFreeList = []))
      (fun _ _ => True) k := by
  have hpgdir := dirs_pgdir hdir
  refine wp_msyscall ?_
  unfold sysMemAlloc
  refine Lib.wp_guard (fun h => absurd h (by decide)) fun _ => ?_
  rw [wp_bind]
  refine wp_envid2env_target hc ?_
  rw [wp_bind, wp_onMem]
  refine wp_mono (wp_and (pageAlloc_spec h) (pageAlloc_empty k.mem)) ?_ ?_
  · rintro p m ⟨⟨rest, hfree, rfl⟩, -⟩
    have hfresh := h.fresh_taken hfree
    have htaken := h.taken hfree
    have hsame : ∀ e d i j, k.vm.dirs e = some d →
        (k.mem.taken p rest).mapped d i j = k.mem.mapped d i j :=
      fun e d i j he => (h.same_taken hfree).mapped he i j
    simp only [wp_bind, wp_get, wp_onMem]
    refine wp_mono (wp_and (wp_and (pageInsert_spec htaken (hpgdir ▸ hdir) ucow_user hfresh.held)
      (pageInsert_sets htaken (hpgdir ▸ hdir) ucow_user))
      (wp_and (pageInsert_errno _ _ _ _ _ _) (pageInsert_failed _ _ _ _ _ _))) ?_ ?_
    · rintro _ m ⟨⟨hins, hsets⟩, -⟩
      have hplain : ppn (pteWord p pteD) = p :=
        ppn_pteWord_low (h.lt_two_pow hfresh.mem) (by decide)
      have hinv : MemInv pool base k.vm.dirs m := by
        rcases hins.effect hplain with hch | ⟨hmax, -⟩
        · exact (hch (fun _ _ _ => True) True trivial).inv
        · have hzero : ((k.setMem (k.mem.taken p rest)).mem.ppRef p) = 0 := hfresh.ppRef
          rw [hzero] at hmax
          exact absurd hmax (by decide)
      rw [wp_pure]
      refine ⟨m, rfl, ⟨hinv, fun e d i j he hne => ?_⟩, fun hnone => ?_⟩
      · exact (hsets.others e d i j he hne).trans (hsame e d i j he)
      · cases (hsets.self d hdir).symm.trans hnone
    · rintro f m ⟨-, hstarved, hfail⟩ err herr
      have hno : ¬ NoErrno f := fun hno => hno err (Stop.fault.inj herr)
      have hm := (hfail hno).2 (htaken.not_selfTable (hpgdir ▸ hdir) ucow_user)
      have hempty := (not_not.mp fun hs => hno (hstarved.mpr hs)).empty
      refine ⟨m, rfl, ?_, fun _ => ?_⟩
      · subst hm
        refine ⟨htaken.congr ⟨rfl, fun _ _ => rfl, fun _ _ => rfl⟩ rfl rfl, fun e d i j he _ => ?_⟩
        exact hsame e d i j he
      · rw [hm]
        exact hempty
  · rintro f m ⟨hf, hempty⟩ err herr
    have hno : ¬ NoErrno f := fun hno => hno err (Stop.fault.inj herr)
    rcases hf with ⟨-, rfl⟩ | hbad
    · exact ⟨_, rfl, ⟨h, fun _ _ _ _ _ _ => rfl⟩, fun _ => hempty hno⟩
    · exact absurd hbad.noErrno hno

/-! ## `memcpy` -/

/-- Only the TLB is filled for a page that is there. -/
theorem refill_present (hva : pdx va < pdx utop) (hw : m.mapped d (pdx va) (ptx va) = some w) :
    wp (doTlbRefill d va asid) (fun _ m' => ∃ tlb, m' = { m with tlb := tlb }) (fun _ _ => True) m := by
  have hwalk : ∀ n, wp (refillLoop d asid va (n + 1)) (fun _ m' => m' = m.flush asid va)
      (fun _ _ => True) (m.flush asid va) := by
    intro n
    obtain ⟨t, -, -, -, -, hl⟩ := mapped_walk (m := m.flush asid va) hva hw
    unfold refillLoop
    rw [wp_bind]
    refine wp_mono (pageLookup_spec _ d va) ?_ fun _ _ _ => trivial
    rintro r m₁ ⟨rfl, rfl⟩
    rw [hl]
    exact (wp_pure _).mpr rfl
  unfold doTlbRefill
  rw [wp_bind, wp_tlbInvalidate, wp_bind]
  refine wp_mono (hwalk 1) ?_ fun _ _ _ => trivial
  rintro ⟨pt, i⟩ m₁ rfl
  simp only [wp_bind, wp_readPte, wp_modify]
  exact ⟨_, rfl⟩

/-- A page that is not there needs a page. -/
theorem refill_absent (hva : pdx va < pdx utop) (hw : m.mapped d (pdx va) (ptx va) = none)
    (hfree : m.pageFreeList = []) :
    wp (doTlbRefill d va asid) (fun _ _ => False) (fun _ _ => True) m := by
  have halloc : wp pageAlloc (fun _ _ => False) (fun _ _ => True) (m.flush asid va) := by
    have hempty : (m.flush asid va).pageFreeList = [] := hfree
    unfold pageAlloc
    rw [wp_bind, wp_get, hempty]
    exact (wp_throw _).mpr trivial
  have hpassive : wp (passiveAlloc va d asid) (fun _ _ => False) (fun _ _ => True) (m.flush asid va) := by
    unfold passiveAlloc panicOn
    simp only [wp_bind, wp_ite, wp_throw, Lib.wp_mapStop]
    simp only [implies_true, true_and]
    intro _ _ _ _ _
    exact wp_mono halloc (fun _ _ h => h.elim) fun _ _ _ => trivial
  have hl : (m.flush asid va).lookup d va = none := (lookup_mapped hva).mpr hw
  unfold doTlbRefill
  rw [wp_bind, wp_tlbInvalidate, wp_bind]
  unfold refillLoop
  rw [wp_bind]
  refine wp_mono (pageLookup_spec _ d va) ?_ fun _ _ _ => trivial
  rintro r m₁ ⟨rfl, rfl⟩
  rw [hl]
  simp only [wp_bind]
  exact wp_mono hpassive (fun _ _ h => h.elim) fun _ _ _ => trivial

/-- The page at `UCOW` is there and has been filled. -/
theorem copyPage_spec (h : MemInv pool base k.vm.dirs k.mem) (hdir : k.vm.dirs c = some k.curPgdir)
    (hva : pdx va < pdx utop)
    (hsrc : k.mem.mapped k.curPgdir (pdx va) (ptx va) = none → k.mem.pageFreeList = [])
    (hempty : k.mem.mapped k.curPgdir (pdx ucow) (ptx ucow) = none → k.mem.pageFreeList = []) :
    wp (copyPage ucow va)
      (fun _ k' => ∃ m, k' = k.setMem m ∧ MemInv pool base k.vm.dirs m ∧
        (∀ e d i j, k.vm.dirs e = some d → m.mapped d i j = k.mem.mapped d i j) ∧
        k.mem.mapped k.curPgdir (pdx ucow) (ptx ucow) ≠ none)
      (fun _ _ => True) k := by
  unfold copyPage
  rw [wp_bind, wp_get, wp_bind, wp_onMem]
  by_cases hw : k.mem.mapped k.curPgdir (pdx va) (ptx va) = none
  · exact wp_mono (refill_absent hva hw (hsrc hw)) (fun _ _ h => h.elim) fun _ _ _ => trivial
  obtain ⟨w, hw⟩ := Option.ne_none_iff_exists'.mp hw
  refine wp_mono (refill_present hva hw) ?_ fun _ _ _ => trivial
  rintro _ _ ⟨tlb, rfl⟩
  rw [wp_bind, wp_onMem]
  cases hu : k.mem.mapped k.curPgdir (pdx ucow) (ptx ucow) with
  | none => exact wp_mono (refill_absent ucow_user hu (hempty hu)) (fun _ _ h => h.elim) fun _ _ _ => trivial
  | some u =>
    refine wp_mono (refill_present ucow_user hu) ?_ fun _ _ _ => trivial
    rintro _ _ ⟨tlb', rfl⟩
    have hinv : MemInv pool base k.vm.dirs { k.mem with tlb := tlb' } :=
      h.congr ⟨rfl, fun _ _ => rfl, fun _ _ => rfl⟩ rfl rfl
    rw [wp_bind, wp_onMem]
    refine wp_mono (pageLookup_spec _ _ _) ?_ fun _ _ _ => trivial
    rintro r _ ⟨rfl, -⟩
    rw [wp_bind, wp_onMem]
    refine wp_mono (writable_spec hinv hdir) ?_ fun _ _ _ => trivial
    rintro r' _ ⟨rfl, hdata⟩
    split
    · rename_i pp x qq
      obtain ⟨hqq, hnot⟩ := hdata qq rfl
      rw [wp_onMem, wp_modify]
      have hs : SameTables pool k.vm.dirs { k.mem with tlb := tlb' }
          { k.mem with tlb := tlb', phys := Function.update k.mem.phys qq (k.mem.phys pp) } :=
        .page hqq hnot rfl rfl
      exact ⟨_, rfl, hinv.congr hs rfl rfl, fun e d i j he => hs.mapped he i j, by simp⟩
    · exact (wp_throw _).mpr trivial

/-! ## `cow_entry` -/

theorem vpn_page (va : Word) : va >>> 12 * pageSize = pteAddr va := by
  have hsize : pageSize = BitVec.twoPow 32 12 := by decide
  rw [hsize, BitVec.mul_twoPow_eq_shiftLeft, pteAddr_eq, page2pa, ppn, BitVec.ofNat_toNat, BitVec.setWidth_eq]

theorem pteAddr_self (va : Word) : pteAddr (pteAddr va) = pteAddr va := by
  rw [pteAddr, pteAddr, BitVec.and_assoc, BitVec.and_self]

theorem page_eq (hva : pteAddr va = va) (haddr : pteAddr addr = addr) (hi : pdx va = pdx addr)
    (hj : ptx va = ptx addr) : va = addr := by
  rw [← hva, ← haddr, ← pageVa_eq, ← pageVa_eq, hi, hj]

/-- The copy is mapped at the address. -/
theorem memMap_copy (h : MemInv pool base k.vm.dirs k.mem) (hc : k.curenv = some c)
    (hdir : k.vm.dirs c = some d) (hva : addr < utop) (hlow : utemp ≤ addr)
    (hw : k.mem.mapped d (pdx addr) (ptx addr) ≠ none)
    (hu : k.mem.mapped d (pdx ucow) (ptx ucow) ≠ none) :
    wp (msyscall (sysMemMap 0 ucow 0 addr perm))
      (fun _ k' => ∃ m p, k' = k.setMem m ∧
        Sets k.vm.dirs c (pdx addr) (ptx addr) (some (pteWord p perm)) k.mem m)
      (fun _ _ => True) k := by
  have huser := pdx_lt_utop hva
  have hpgdir := dirs_pgdir hdir
  obtain ⟨w, hw⟩ := Option.ne_none_iff_exists'.mp hw
  obtain ⟨u, hu⟩ := Option.ne_none_iff_exists'.mp hu
  obtain ⟨t, ht, -⟩ := mapped_walk huser hw
  obtain ⟨t', -, -, -, -, hl⟩ := mapped_walk ucow_user hu
  rw [← hpgdir] at hl
  refine wp_msyscall (wp_memMap hc hc (by decide) (legal_of_le hva hlow) hl ?_ fun f hf err herr => ?_)
  · refine wp_mono (wp_and (pageInsert_sets h (hpgdir ▸ hdir) huser) (pageInsert_errno _ _ _ _ _ _)) ?_ ?_
    · exact fun _ m hm => ⟨m, _, rfl, hm.1⟩
    · rintro f m ⟨-, hstarved⟩ err herr
      have hno : ¬ NoErrno f := fun hno => hno err (Stop.fault.inj herr)
      rcases (not_not.mp fun hs => hno (hstarved.mpr hs)).table with htable | hself
      · rw [hpgdir] at htable
        rw [pde_user huser] at ht
        exact absurd ((entry_some.mp ht).1) (by simp [htable])
      · exact absurd hself (h.not_selfTable (hpgdir ▸ hdir) huser)
  · exact absurd (Stop.fault.inj herr) (hf err)

theorem memUnmap_ucow (h : Distinct k.vm.dirs k.mem) (hc : k.curenv = some c)
    (hdir : k.vm.dirs c = some d) :
    wp (msyscall (sysMemUnmap 0 ucow))
      (fun _ k' => ∃ m, k' = k.setMem m ∧ Sets k.vm.dirs c (pdx ucow) (ptx ucow) none k.mem m)
      (fun _ _ => True) k := by
  have hpgdir := dirs_pgdir hdir
  refine wp_msyscall ?_
  unfold sysMemUnmap
  refine Lib.wp_guard (fun h => absurd h (by decide)) fun _ => ?_
  rw [wp_bind]
  refine wp_envid2env_target hc ?_
  simp only [wp_bind, wp_get, wp_onMem, wp_pure]
  refine wp_mono (pageRemove_sets h (hpgdir ▸ hdir) ucow_user) ?_ ?_
  · exact fun _ m hm => ⟨m, rfl, hm⟩
  · exact fun f m hf err herr => absurd (Stop.fault.inj herr) (hf err)

theorem resume_spec (tf : Word) (content : Trapframe) (hc : k.curenv = some c) :
    wp (resume tf content) (fun _ k' => ∀ x va, k'.mapping x va = k.mapping x va) (fun _ _ => True) k := by
  unfold resume
  rw [wp_recover, wp_bind]
  unfold sysSetTrapframe
  refine Lib.wp_guard (fun _ => ?_) fun _ => ?_
  · exact fun _ _ => rfl
  · rw [wp_bind]
    refine wp_envid2env_target hc ?_
    rw [wp_bind, wp_get, if_pos hc, wp_bind, wp_modify, wp_pure, wp_pure]
    exact fun _ _ => rfl

theorem cowEntry_cow (h : Sound pool base k) (hc : k.curenv = some c) (tf : Word) (content : Trapframe)
    (hva : pteAddr content.cp0Badvaddr < utop) (hw : k.mapping c (pteAddr content.cp0Badvaddr) = some w) :
    wp (cowEntry tf content) (fun r _ => r = true → w &&& pteCow ≠ 0) (fun _ _ => True) k := by
  have hflag : w &&& 0xFFF &&& pteCow = w &&& pteCow := flags_and (by decide) w
  unfold cowEntry
  dsimp only
  rw [wp_bind]
  refine wp_vpt h hc (by rwa [vpn_page]) (by rwa [vpn_page]) ?_
  rw [hflag]
  refine (wp_ite _ _).mpr ⟨fun _ => (wp_pure _).mpr nofun, fun hcow => ?_⟩
  exact wp_mono (Lib.wp_trivial _) (fun _ _ _ _ => hcow) fun _ _ _ => trivial

/-- What is left of the page where the write faulted. -/
theorem cowEntry_spec (h : Sound pool base k) (hc : k.curenv = some c) (tf : Word) (content : Trapframe)
    (hva : pteAddr content.cp0Badvaddr < utop) (hlow : utemp ≤ pteAddr content.cp0Badvaddr)
    (hw : k.mapping c (pteAddr content.cp0Badvaddr) = some w) :
    wp (cowEntry tf content)
      (fun r k' => r = true → ∃ p, k'.mapping c (pteAddr content.cp0Badvaddr) =
        if pteAddr content.cp0Badvaddr = ucow then none else some (pteWord p pteD))
      (fun _ _ => True) k := by
  have huser := pdx_lt_utop hva
  have hdir := h.dirs hc
  have hpgdir := dirs_pgdir hdir
  have hflag : w &&& 0xFFF &&& pteCow = w &&& pteCow := flags_and (by decide) w
  unfold cowEntry
  dsimp only
  rw [wp_bind]
  refine wp_vpt h hc (by rwa [vpn_page]) (by rwa [vpn_page]) ?_
  rw [hflag]
  refine (wp_ite _ _).mpr ⟨fun _ => (wp_pure _).mpr nofun, fun _ => ?_⟩
  rw [and_lnot (by decide), wp_bind]
  rw [mapping_eq huser, hpgdir] at hw
  have haligned := pteAddr_self content.cp0Badvaddr
  generalize pteAddr content.cp0Badvaddr = addr at *
  refine wp_mono (memAlloc_ucow h.vm.toMemInv hc hdir) ?_ fun _ _ _ => trivial
  rintro _ _ ⟨m₁, rfl, hprep, hready⟩
  have hsame : ∀ {i j}, ¬ (i = pdx ucow ∧ j = ptx ucow) → m₁.mapped k.curPgdir i j =
      k.mem.mapped k.curPgdir i j := fun hne => hprep.others c _ _ _ hdir fun h => hne h.2
  rw [wp_bind]
  refine wp_mono (copyPage_spec (k := k.setMem m₁) hprep.inv hdir huser (fun hnone => ?_) hready) ?_
    fun _ _ _ => trivial
  · refine hready ?_
    by_cases hat : pdx addr = pdx ucow ∧ ptx addr = ptx ucow
    · rwa [hat.1, hat.2] at hnone
    · exact nomatch hw.symm.trans ((hsame hat).symm.trans hnone)
  rintro _ _ ⟨m₂, rfl, hinv, hm₂, hu⟩
  have hdir₂ := hm₂ c _ (pdx ucow) (ptx ucow) hdir
  have hpage : m₂.mapped k.curPgdir (pdx addr) (ptx addr) ≠ none := by
    rw [hm₂ c _ _ _ hdir]
    by_cases hat : pdx addr = pdx ucow ∧ ptx addr = ptx ucow
    · rwa [hat.1, hat.2]
    · intro hnone
      exact nomatch hw.symm.trans ((hsame hat).symm.trans hnone)
  rw [wp_bind]
  refine wp_mono (memMap_copy (k := k.setMem m₂) hinv hc hdir hva hlow hpage ?_) ?_ fun _ _ _ => trivial
  · exact hdir₂ ▸ hu
  rintro _ _ ⟨m₃, p, rfl, hm₃⟩
  rw [wp_bind]
  refine wp_mono (memUnmap_ucow (k := k.setMem m₃) hm₃.distinct hc hdir) ?_ fun _ _ _ => trivial
  rintro _ _ ⟨m₄, rfl, hm₄⟩
  refine wp_mono (resume_spec tf content (k := k.setMem m₄) hc) ?_ fun _ _ _ => trivial
  intro r k' hk' _
  refine ⟨p, ?_⟩
  rw [hk']
  have hentry := hm₄.mapping (k := k.setMem m₃) hdir huser hdir
  have hcopied := hm₃.mapping (k := k.setMem m₂) hdir huser hdir
  rw [if_pos ⟨rfl, rfl, rfl⟩] at hcopied
  refine hentry.trans ?_
  by_cases hat : addr = ucow
  · rw [if_pos hat, if_pos ⟨rfl, by rw [hat], by rw [hat]⟩]
  · rw [if_neg hat, if_neg fun h => hat (page_eq haligned (by decide) h.2.1 h.2.2)]
    exact hcopied

end Mos
