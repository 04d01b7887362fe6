import Mos.Mem.Boot

/-!
# A counter that wraps

`pp_ref` has 16 bits, and `page_insert` does not look at its overflow: after 65537
mappings of one page the counter says 1, and the next unmapping frees the page.
-/

namespace Mos

open Lib (wp wp_bind wp_get wp_modify wp_pure wp_throw wp_ite wp_mono wp_run_ok wp_run_error)

variable {m m' : Mem} {k k' : Kernel} {d t p asid n : Nat} {i j : WordIx} {va w perm : Word}
  {rest : List Nat}

/-! ## Functions that do not fail -/

/-- The function returns, and `Q` holds of what it leaves. -/
abbrev Yields {α : Type} (x : M α) (Q : α → Mem → Prop) (m : Mem) : Prop :=
  wp x Q (fun _ _ => False) m

theorem kaddr_returns {pa : Word} (h : ppn pa < m.npage) :
    Yields (kaddr pa) (fun f m' => f = ppn pa ∧ m' = m) m := by
  unfold Yields kaddr
  simp only [wp_bind, wp_get, wp_ite, wp_throw, wp_pure]
  exact ⟨fun hle => absurd hle (not_le.mpr h), fun _ => ⟨trivial, trivial⟩⟩

theorem pa2page_returns {pa : Word} (h : ppn pa < m.npage) :
    Yields (pa2page pa) (fun f m' => f = ppn pa ∧ m' = m) m := by
  unfold Yields pa2page
  simp only [wp_bind, wp_get, wp_ite, wp_throw, wp_pure]
  exact ⟨fun hle => absurd hle (not_le.mpr h), fun _ => ⟨trivial, trivial⟩⟩

/-- The table for `va` is there. -/
structure HasTable (m : Mem) (d : Nat) (va : Word) (t : Nat) : Prop where
  entry : entry (m.phys d (pdx va)) = some t
  lt : t < m.npage

theorem pteOf_returns (h : HasTable m d va t) :
    Yields (pteOf d va) (fun r m' => r = some (t, ptx va) ∧ m' = m) m := by
  have hppn := (entry_some.mp h.entry).2
  unfold Yields pteOf
  simp only [wp_bind, wp_readPte]
  refine wp_mono (kaddr_returns ?_) ?_ (fun _ _ h => h)
  · rw [ppn_pteAddr, hppn]
    exact h.lt
  · rintro f m₁ ⟨rfl, rfl⟩
    rw [wp_pure, ppn_pteAddr, hppn]
    exact ⟨rfl, rfl⟩

theorem walk_returns (h : HasTable m d va t) (create : Bool) :
    Yields (pgdirWalk d va create) (fun r m' => r = some (t, ptx va) ∧ m' = m) m := by
  have hvalid := (entry_some.mp h.entry).1
  unfold Yields pgdirWalk
  simp only [wp_bind, wp_readPte, hvalid, if_true]
  exact pteOf_returns h

theorem lookup_returns (h : HasTable m d va t) (hp : entry (m.phys t (ptx va)) = some p)
    (hlt : p < m.npage) :
    Yields (pageLookup d va) (fun r m' => r = some (p, (t, ptx va)) ∧ m' = m) m := by
  obtain ⟨hvalid, hppn⟩ := entry_some.mp hp
  unfold Yields pageLookup
  rw [wp_bind]
  refine wp_mono (walk_returns h false) ?_ (fun _ _ h => h)
  rintro r m₁ ⟨rfl, rfl⟩
  simp only [wp_bind, wp_readPte, hvalid, if_true]
  refine wp_mono (pa2page_returns (hppn ▸ hlt)) ?_ (fun _ _ h => h)
  rintro f m₂ ⟨rfl, rfl⟩
  rw [wp_pure, hppn]
  exact ⟨rfl, rfl⟩

theorem insert_returns (h : HasTable m d va t) (hempty : pteValid (m.phys t (ptx va)) = false) :
    Yields (pageInsert d asid p va perm) (fun _ m' => m' =
      ((m.flush asid va).setRef p (m.ppRef p + 1)).store t (ptx va) (pteWord p perm)) m := by
  have hflush : HasTable (m.flush asid va) d va t := ⟨h.entry, h.lt⟩
  unfold Yields pageInsert pageInsertNew
  rw [wp_bind]
  refine wp_mono (walk_returns h false) ?_ (fun _ _ h => h)
  rintro r m₁ ⟨rfl, rfl⟩
  simp only [wp_bind, wp_readPte, hempty, Bool.false_eq_true, if_false, wp_tlbInvalidate]
  refine wp_mono (walk_returns hflush true) ?_ (fun _ _ h => h)
  rintro r m₂ ⟨rfl, rfl⟩
  simp only [wp_bind, wp_modify, wp_writePte]
  rfl

theorem alloc_returns (hfree : m.pageFreeList = t :: rest) (ht : t < 2 ^ 20) (hlt : t < m.npage) :
    Yields pageAlloc (fun p m' => p = t ∧ m' = m.taken t rest) m := by
  have hpage : ppn (page2pa t) = t := ppn_page2pa ht
  unfold Yields pageAlloc
  rw [wp_bind, wp_get, hfree]
  simp only [wp_bind, wp_modify]
  refine wp_mono (kaddr_returns (hpage.symm ▸ hlt)) ?_ (fun _ _ h => h)
  rintro f m₁ ⟨rfl, rfl⟩
  rw [hpage]
  exact (wp_pure _).mpr ⟨rfl, rfl⟩

/-- The memory after a new table for `va` has been put into the directory. -/
def Mem.withTable (m : Mem) (d asid : Nat) (va : Word) (t : Nat) (rest : List Nat) : Mem :=
  (((m.flush asid va).taken t rest).setRef t 1).store d (pdx va) (tableWord t)

/-- `page_insert` where the table has to be made first. -/
theorem insert_creates (hempty : pteValid (m.phys d (pdx va)) = false)
    (hfree : m.pageFreeList = t :: rest) (ht : t < 2 ^ 20) (hlt : t < m.npage) :
    Yields (pageInsert d asid p va perm) (fun _ m' => m' =
      ((m.withTable d asid va t rest).setRef p ((m.withTable d asid va t rest).ppRef p + 1)).store
        t (ptx va) (pteWord p perm)) m := by
  unfold Yields pageInsert pgdirWalk
  simp only [wp_bind, wp_readPte, hempty, Bool.false_eq_true, if_false, wp_pure]
  unfold pageInsertNew pgdirWalk
  simp only [wp_bind, wp_readPte, hempty, Bool.false_eq_true, if_false, wp_tlbInvalidate,
    Mem.flush_phys, if_true]
  refine wp_mono (alloc_returns hfree ht hlt) ?_ (fun _ _ h => h)
  rintro q m₁ ⟨rfl, rfl⟩
  have hword : page2pa q ||| pteV ||| pteCCacheable = tableWord q := rfl
  simp only [wp_modify, wp_writePte, hword]
  have htable : HasTable (m.withTable d asid va q rest) d va q := by
    refine ⟨?_, hlt⟩
    simp [Mem.withTable, entry_tableWord ht]
  refine wp_mono (pteOf_returns htable) ?_ (fun _ _ h => h)
  rintro r m₂ ⟨rfl, rfl⟩
  simp only [wp_bind, wp_modify, wp_writePte]
  rfl

/-! ## A page that is mapped again and again -/

/-- The addresses from 0x800000 on. -/
def nthVa (n : Nat) : Word := BitVec.ofNat 32 (0x800000 + 4096 * n)

/-- The memory of the small machine: the program has mapped its page, which is page 135, at the first
`n` addresses. Its directory is page 136, and `u` new tables are pages 133, 132 and so on. -/
structure Mapped (u n : Nat) (m : Mem) : Prop where
  npage : m.npage = 140
  textTable : m.phys 136 1 = tableWord 134
  text : entry (m.phys 134 0) = some 135
  table : ∀ i : WordIx, 2 ≤ i.val → i.val < 2 + u → m.phys 136 i = tableWord (135 - i.val)
  noTable : ∀ i : WordIx, 2 + u ≤ i.val → i.val < 509 → m.phys 136 i = 0
  page : ∀ i j : WordIx, i.val * 1024 + j.val < n → m.phys (133 - i.val) j = pteWord 135 pteD
  noPage : ∀ i j : WordIx, i.val < u → n ≤ i.val * 1024 + j.val → m.phys (133 - i.val) j = 0
  ppRef : m.ppRef 135 = BitVec.ofNat 16 (n + 1)
  free : m.pageFreeList = (List.range' 58 (76 - u)).reverse

theorem nthVa_pdx (h : n < 65536) : (pdx (nthVa n)).val = 2 + n / 1024 := by
  rw [pdx_val, nthVa, BitVec.toNat_ofNat]
  omega

theorem nthVa_ptx (n : Nat) : (ptx (nthVa n)).val = n % 1024 := by
  rw [ptx_val, nthVa, BitVec.toNat_ofNat]
  omega

theorem nthVa_legal (_ : n < 65536) : isIllegalVa (nthVa n) = false := by
  have hlow : utemp.toNat = 0x3fe000 := by decide
  have hhigh : utop.toNat = 0x7f400000 := by decide
  have hval : (nthVa n).toNat = 0x800000 + 4096 * n := by
    rw [nthVa, BitVec.toNat_ofNat]
    omega
  simp only [isIllegalVa, Bool.or_eq_false_iff, decide_eq_false_iff_not, BitVec.le_def,
    BitVec.lt_def, hlow, hhigh, hval]
  omega

variable {u : Nat}

theorem freePages_cons (hu : u < 76) : (List.range' 58 (76 - u)).reverse =
    (133 - u) :: (List.range' 58 (76 - (u + 1))).reverse := by
  have hsucc : 76 - u = 76 - (u + 1) + 1 := by omega
  have hlast : 58 + 1 * (76 - (u + 1)) = 133 - u := by omega
  rw [hsucc, List.range'_concat, List.reverse_append, hlast]
  rfl

/-- The first address of a table makes that table. -/
theorem Mapped.withTable (h : Mapped u (u * 1024) m) (asid : Nat) (hu : u < 64) (hva : (pdx va).val = 2 + u) :
    Mapped (u + 1) (u * 1024) (m.withTable 136 asid va (133 - u)
      (List.range' 58 (76 - (u + 1))).reverse) := by
  obtain ⟨m', hm'⟩ : ∃ m', m' = m.withTable 136 asid va (133 - u)
    (List.range' 58 (76 - (u + 1))).reverse := ⟨_, rfl⟩
  rw [← hm']
  have hphys : ∀ f, f ≠ 136 → f ≠ 133 - u → m'.phys f = m.phys f := by
    intro f h1 h2
    rw [hm', Mem.withTable, store_of_ne h1]
    exact Function.update_of_ne h2 _ _
  have hdir : ∀ i, m'.phys 136 i = if i = pdx va then tableWord (133 - u) else m.phys 136 i := by
    intro i
    have hne : 136 ≠ 133 - u := by omega
    rw [hm', Mem.withTable, store_self]
    simp [Function.update_apply, hne]
  have hnew : ∀ j, m'.phys (133 - u) j = 0 := by
    intro j
    have hne : 133 - u ≠ 136 := by omega
    rw [hm', Mem.withTable, store_of_ne hne]
    simp
  have hother : ∀ i : WordIx, i.val ≠ 2 + u → m'.phys 136 i = m.phys 136 i := by
    intro i hi
    rw [hdir, if_neg]
    rintro rfl
    exact hi hva
  refine ⟨hm' ▸ h.npage, ?_, ?_, fun i h2 hi => ?_, fun i hi h9 => ?_, fun i j hij => ?_,
    fun i j hi hij => ?_, ?_, hm' ▸ rfl⟩
  · rw [hother 1 (by simp; omega), h.textTable]
  · rw [hphys 134 (by omega) (by omega)]
    exact h.text
  · rcases eq_or_ne i.val (2 + u) with hiu | hiu
    · rw [hdir, if_pos (Fin.ext (hiu.trans hva.symm)), hiu]
      congr 1
      omega
    · rw [hother i hiu]
      exact h.table i h2 (by omega)
  · rw [hother i (by omega)]
    exact h.noTable i (by omega) h9
  · rw [hphys _ (by omega) (by omega)]
    exact h.page i j hij
  · rcases eq_or_ne i.val u with hiu | hiu
    · rw [hiu]
      exact hnew j
    · rw [hphys _ (by omega) (by omega)]
      exact h.noPage i j (by omega) hij
  · have hne : 135 ≠ 133 - u := by omega
    have href : m'.ppRef 135 = m.ppRef 135 := by
      rw [hm', Mem.withTable]
      simp [hne]
    rw [href, h.ppRef]

/-- Every other address goes into the last table. -/
theorem Mapped.store (h : Mapped u n m) (hn : n < u * 1024) (hu : u ≤ 64)
    (hpdx : n / 1024 + 1 = u) (hva : (ptx va).val = n % 1024) :
    Mapped u (n + 1) ((m.setRef 135 (m.ppRef 135 + 1)).store (133 - n / 1024) (ptx va)
      (pteWord 135 pteD)) := by
  obtain ⟨m', hm'⟩ : ∃ m', m' = (m.setRef 135 (m.ppRef 135 + 1)).store (133 - n / 1024) (ptx va)
      (pteWord 135 pteD) := ⟨_, rfl⟩
  rw [← hm']
  have hphys : ∀ f, f ≠ 133 - n / 1024 → m'.phys f = m.phys f := by
    intro f hf
    rw [hm', store_of_ne hf]
    rfl
  have hself : ∀ j, m'.phys (133 - n / 1024) j = if j = ptx va then pteWord 135 pteD else
      m.phys (133 - n / 1024) j := by
    intro j
    rw [hm', store_self]
    simp [Function.update_apply]
  refine ⟨hm' ▸ h.npage, ?_, ?_, fun i h2 hi => ?_, fun i hi h9 => ?_, fun i j hij => ?_,
    fun i j hi hij => ?_, ?_, hm' ▸ h.free⟩
  · rw [hphys 136 (by omega)]
    exact h.textTable
  · rw [hphys 134 (by omega)]
    exact h.text
  · rw [hphys 136 (by omega)]
    exact h.table i h2 hi
  · rw [hphys 136 (by omega)]
    exact h.noTable i hi h9
  · have hj := j.isLt
    rcases eq_or_ne i.val (n / 1024) with hi | hi
    · rw [hi, hself]
      split
      · rfl
      · rename_i hjva
        have hne : j.val ≠ n % 1024 := fun heq => hjva (Fin.ext (heq.trans hva.symm))
        rw [← hi]
        exact h.page i j (by omega)
    · rw [hphys _ (by omega)]
      exact h.page i j (by omega)
  · have hj := j.isLt
    rcases eq_or_ne i.val (n / 1024) with hi' | hi'
    · rw [hi', hself, if_neg]
      · rw [← hi']
        exact h.noPage i j hi (by omega)
      · rintro rfl
        omega
    · rw [hphys _ (by omega)]
      exact h.noPage i j hi (by omega)
  · have href : m'.ppRef 135 = m.ppRef 135 + 1 := by
      rw [hm']
      simp
    rw [href, h.ppRef]
    apply BitVec.eq_of_toNat_eq
    simp [BitVec.toNat_add, BitVec.toNat_ofNat]

theorem tables_div (u : Nat) : u * 1024 / 1024 = u ∧ (u * 1024 + 1023) / 1024 = u ∧
    (u * 1024 + 1 + 1023) / 1024 = u + 1 := by
  omega

/-- One more mapping. -/
theorem insert_mapped (h : Mapped ((n + 1023) / 1024) n m) (hn : n < 65536) :
    Yields (pageInsert 136 asid 135 (nthVa n) pteD)
      (fun _ m' => Mapped ((n + 1 + 1023) / 1024) (n + 1) m') m := by
  have hpdx := nthVa_pdx hn
  have hptx := nthVa_ptx n
  rcases eq_or_ne (n % 1024) 0 with hfirst | hlater
  · obtain ⟨u, rfl⟩ : ∃ u, n = u * 1024 := ⟨n / 1024, by omega⟩
    obtain ⟨hdiv, hu, hu'⟩ := tables_div u
    rw [hu] at h
    rw [hdiv] at hpdx
    have hempty : pteValid (m.phys 136 (pdx (nthVa (u * 1024)))) = false := by
      rw [h.noTable _ (by omega) (by omega)]
      exact pteValid_zero
    have hfree := h.free.trans (freePages_cons (by omega))
    have hstore := (h.withTable asid (by omega) hpdx).store (by omega) (by omega)
      (by omega) hptx
    refine wp_mono (insert_creates hempty hfree (by omega) (by rw [h.npage]; omega)) ?_
      (fun _ _ h => h)
    rintro _ _ rfl
    rw [hdiv] at hstore
    rw [hu']
    exact hstore
  · have hu : (n + 1 + 1023) / 1024 = (n + 1023) / 1024 := by omega
    have htable : HasTable m 136 (nthVa n) (133 - n / 1024) := by
      have hword := h.table (pdx (nthVa n)) (by omega) (by omega)
      refine ⟨?_, by rw [h.npage]; omega⟩
      rw [hword, hpdx, entry_tableWord (by omega)]
      congr 1
      omega
    have hempty : pteValid (m.phys (133 - n / 1024) (ptx (nthVa n))) = false := by
      have hzero := h.noPage ⟨n / 1024, by omega⟩ (ptx (nthVa n)) (by dsimp only; omega)
        (by dsimp only; omega)
      rw [hzero]
      exact pteValid_zero
    refine wp_mono (insert_returns htable hempty) ?_ (fun _ _ h => h)
    rintro _ _ rfl
    rw [hu]
    have hflush : Mapped ((n + 1023) / 1024) n (m.flush asid (nthVa n)) := by
      obtain ⟨h1, h2, h3, h4, h5, h6, h7, h8, h9⟩ := h
      exact ⟨h1, h2, h3, h4, h5, h6, h7, h8, h9⟩
    exact hflush.store (by omega) (by omega) (by omega) hptx

/-! ## Steps of the only program -/

/-- The first environment is alone, and runs. -/
structure Solo (k : Kernel) : Prop where
  cur : k.curenv = some 0
  live : (k.envs 0).envStatus = .runnable
  others : ∀ e, e ≠ 0 → (k.envs e).envStatus = .free
  space : (k.envs 0).envPgdir = 136 ∧ (k.envs 0).envAsid = 0
  regs : k.curPgdir = 136 ∧ k.entryHiAsid = 0
  status : k.status = 0x8011

theorem Solo.setMem (h : Solo k) (m : Mem) : Solo (k.setMem m) :=
  ⟨h.cur, h.live, h.others, h.space, h.regs, h.status⟩

theorem Solo.enabled (h : Solo k) (f : Trapframe) (inp : Inputs) :
    (Op.syscall f inp).enabled k = true := by
  have hmode : userMode k.status = true := by
    rw [h.status]
    decide
  simp [Op.enabled, h.cur, hmode]

theorem Solo.returned (h : Solo k) (f : Trapframe) (m : Mem) (v : Word) :
    Solo (((k.entered f).setMem m).returned v) := by
  refine ⟨h.cur, h.live, h.others, h.space, h.regs, ?_⟩
  change eret (k.status ||| statusExl) = _
  rw [h.status]
  decide

theorem call_next {R : Kernel → Prop} {f : Trapframe} {inp : Inputs} {s : Syscall}
    (hs : Syscall.ofFrame f inp = some s) (hen : (Op.syscall f inp).enabled k = true)
    (hrun : wp (s.run inp) (fun v k₁ => R (k₁.returned v)) (fun _ _ => False) (k.entered f)) :
    ∃ k', next (.syscall f inp) k = some k' ∧ R k' := by
  have hbody := syscall_body k hs
  cases hx : Op.body (.syscall f inp) k with
  | ok a k' =>
    have hnext : next (.syscall f inp) k = some k' := by
      unfold next Op.run Lib.handle
      rw [if_pos hen, hx]
    rcases wp_run_ok hbody hx with ⟨v, k₁, hok, rfl⟩ | ⟨e, k₁, herr, -⟩
    · exact ⟨_, hnext, (wp_run_ok hrun hok :)⟩
    · exact (wp_run_error hrun herr :).elim
  | error err k' => exact (wp_run_error hrun (wp_run_error hbody hx :) :).elim

theorem envid2env_self {c : EnvIx} {Q : EnvIx → Kernel → Prop} (hc : k.curenv = some c)
    (checkperm : Bool) (hQ : Q c k) : wp (envid2env 0 checkperm) Q (fun _ _ => False) k := by
  unfold envid2env
  rw [if_pos rfl]
  refine wp_curenvPtr (fun c' hc' => ?_) (fun hn => nomatch hn.symm.trans hc)
  obtain rfl : c = c' := Option.some.inj (hc.symm.trans hc')
  exact hQ

/-- `syscall_mem_map(0, UTEXT, 0, va, PTE_D)` -/
def mapOp (va : Word) : Op :=
  .syscall ((Trapframe.zero.setReg 4 7).setReg 6 utext) { Inputs.none with arg4 := va, arg5 := pteD }

theorem mapOp_next {Q : Mem → Prop} (h : Solo k) (hva : isIllegalVa va = false)
    (hlookup : Yields (pageLookup 136 utext) (fun r m' => r = some (135, (134, 0)) ∧ m' = k.mem) k.mem)
    (hinsert : Yields (pageInsert 136 0 135 va pteD) (fun _ m' => Q m') k.mem) :
    ∃ k', next (mapOp va) k = some k' ∧ Solo k' ∧ Q k'.mem := by
  refine call_next (s := .memMap 0 utext 0 va pteD) rfl (h.enabled _ _) ?_
  obtain ⟨f, hf⟩ : ∃ f, f = (Trapframe.zero.setReg 4 7).setReg 6 utext := ⟨_, rfl⟩
  rw [← hf]
  have hcur : (k.entered f).curenv = some 0 := h.cur
  have hpgdir : ((k.entered f).envs 0).envPgdir = 136 := h.space.1
  have hasid : ((k.entered f).envs 0).envAsid = 0 := h.space.2
  have htext : isIllegalVa utext = false := by decide
  unfold Syscall.run sysMemMap
  simp only [wp_bind, wp_ite, htext, hva, Bool.false_eq_true, or_self, false_implies, not_false_eq_true,
    true_implies, true_and]
  refine envid2env_self hcur true (envid2env_self hcur true ?_)
  simp only [wp_get, hpgdir, hasid, wp_onMem]
  refine wp_mono hlookup ?_ (fun _ _ h => h)
  rintro r m ⟨rfl, hm⟩
  simp only [wp_bind, wp_onMem, wp_pure]
  rw [hm]
  refine wp_mono hinsert ?_ (fun _ _ h => h)
  exact fun _ m hm => ⟨h.returned f m _, hm⟩

theorem mapped_next (h : Solo k) (hm : Mapped ((n + 1023) / 1024) n k.mem) (hn : n < 65536) :
    ∃ k', next (mapOp (nthVa n)) k = some k' ∧ Solo k' ∧
      Mapped ((n + 1 + 1023) / 1024) (n + 1) k'.mem := by
  refine mapOp_next h (nthVa_legal hn) ?_ (insert_mapped hm hn)
  have htable : HasTable k.mem 136 utext 134 := by
    have hpdx : pdx utext = 1 := by decide
    refine ⟨?_, by rw [hm.npage]; omega⟩
    rw [hpdx, hm.textTable, entry_tableWord (by omega)]
  exact lookup_returns htable hm.text (by rw [hm.npage]; omega)

/-! ## The page is freed while it is mapped -/

/-- The page is at the second address, and the address `va` has no table. -/
structure Aliased (m : Mem) : Prop where
  npage : m.npage = 140
  textTable : m.phys 136 1 = tableWord 134
  text : entry (m.phys 134 0) = some 135
  table : m.phys 136 2 = tableWord 133
  page : m.phys 133 1 = pteWord 135 pteD

/-- An address far from the others. -/
def farVa : Word := 0x19000000

/-- The page at the first address is unmapped: its counter says that this was the last mapping. -/
theorem remove_freed (hm : Mapped 64 65536 m) : Yields (pageRemove 136 0 (nthVa 0))
    (fun _ m' => Aliased m' ∧ m'.phys 136 100 = 0 ∧ ∃ rest, m'.pageFreeList = 135 :: rest) m := by
  have hpdx : pdx (nthVa 0) = 2 := by decide
  have hptx : ptx (nthVa 0) = 0 := by decide
  have htableWord : m.phys 136 2 = tableWord 133 := hm.table 2 (by decide) (by decide)
  have hfirst : m.phys 133 0 = pteWord 135 pteD := hm.page 0 0 (by decide)
  have hsecond : m.phys 133 1 = pteWord 135 pteD := hm.page 0 1 (by decide)
  have href : m.ppRef 135 = 1 := hm.ppRef
  have htable : HasTable m 136 (nthVa 0) 133 := by
    refine ⟨?_, by rw [hm.npage]; omega⟩
    rw [hpdx, htableWord]
    exact entry_tableWord (by omega)
  have hpage : entry (m.phys 133 (ptx (nthVa 0))) = some 135 := by
    rw [hptx, hfirst]
    decide
  unfold Yields pageRemove
  rw [wp_bind]
  refine wp_mono (lookup_returns htable hpage (by rw [hm.npage]; omega)) ?_ (fun _ _ h => h)
  rintro r m ⟨rfl, rfl⟩
  simp only [wp_bind]
  refine wp_mono (pageDecref_spec m (by rw [href]; decide)) ?_ (fun _ _ h => h)
  rintro _ _ rfl
  rw [wp_writePte, wp_tlbInvalidate, hptx]
  have hother : ∀ g, g ≠ 133 → (((m.decref 135).store 133 0 0).flush 0 (nthVa 0)).phys g = m.phys g :=
    fun g hg => store_of_ne (m := m.decref 135) hg
  refine ⟨⟨hm.npage, ?_, ?_, ?_, ?_⟩, ?_, m.pageFreeList, ?_⟩
  · rw [hother 136 (by omega)]
    exact hm.textTable
  · rw [hother 134 (by omega)]
    exact hm.text
  · rw [hother 136 (by omega)]
    exact htableWord
  · simp [hsecond]
  · rw [hother 136 (by omega)]
    exact hm.noTable 100 (by decide) (by decide)
  · simp [Mem.decref, href]

/-- The freed page becomes a page table, in which it is mapped itself. -/
theorem insert_freed (h : Aliased m) (hempty : m.phys 136 100 = 0)
    (hfree : m.pageFreeList = 135 :: rest) : Yields (pageInsert 136 0 135 farVa pteD)
    (fun _ m' => Aliased m' ∧ m'.phys 136 100 = tableWord 135 ∧ m'.phys 135 0 = pteWord 135 pteD) m := by
  have hpdx : pdx farVa = 100 := by decide
  have hptx : ptx farVa = 0 := by decide
  have hinvalid : pteValid (m.phys 136 (pdx farVa)) = false := by
    rw [hpdx, hempty]
    exact pteValid_zero
  refine wp_mono (insert_creates hinvalid hfree (by omega) (by rw [h.npage]; omega)) ?_
    (fun _ _ h => h)
  rintro _ _ rfl
  rw [hptx]
  have hother : ∀ g, g ≠ 135 → g ≠ 136 → (((m.withTable 136 0 farVa 135 rest).setRef 135
      ((m.withTable 136 0 farVa 135 rest).ppRef 135 + 1)).store 135 0 (pteWord 135 pteD)).phys g =
      m.phys g := by
    intro g h1 h2
    rw [store_of_ne h1]
    refine (store_of_ne h2).trans ?_
    exact Function.update_of_ne h1 _ _
  have hdir : (((m.withTable 136 0 farVa 135 rest).setRef 135
      ((m.withTable 136 0 farVa 135 rest).ppRef 135 + 1)).store 135 0 (pteWord 135 pteD)).phys 136 =
      Function.update (m.phys 136) 100 (tableWord 135) := by
    rw [store_of_ne (by omega), ← hpdx]
    change ((((m.flush 0 farVa).taken 135 rest).setRef 135 1).store 136 (pdx farVa)
      (tableWord 135)).phys 136 = _
    rw [store_self]
    congr 1
  refine ⟨⟨h.npage, ?_, ?_, ?_, ?_⟩, ?_, ?_⟩
  · rw [hdir, Function.update_of_ne (by decide)]
    exact h.textTable
  · rw [hother 134 (by omega) (by omega)]
    exact h.text
  · rw [hdir, Function.update_of_ne (by decide)]
    exact h.table
  · rw [hother 133 (by omega) (by omega)]
    exact h.page
  · rw [hdir, Function.update_self]
  · rw [store_self, Function.update_self]

/-- The TLB gets an entry from that table. -/
theorem refill_freed (h : Aliased m) (hdir : m.phys 136 100 = tableWord 135)
    (hself : m.phys 135 0 = pteWord 135 pteD) : Yields (doTlbRefill 136 farVa 0)
    (fun _ m' => Aliased m' ∧ m'.phys 136 100 = tableWord 135 ∧
      ∃ lo1, ⟨entryHi 0 farVa, pteWord 135 pteD >>> 6, lo1⟩ ∈ m'.tlb) m := by
  have hpdx : pdx farVa = 100 := by decide
  have hptx : ptx farVa = 0 := by decide
  have htable : HasTable (m.flush 0 farVa) 136 farVa 135 := by
    refine ⟨?_, by rw [Mem.flush_npage, h.npage]; omega⟩
    rw [Mem.flush_phys, hpdx, hdir]
    exact entry_tableWord (by omega)
  have hpage : entry ((m.flush 0 farVa).phys 135 (ptx farVa)) = some 135 := by
    rw [Mem.flush_phys, hptx, hself]
    decide
  unfold Yields doTlbRefill refillLoop
  rw [wp_bind, wp_tlbInvalidate, wp_bind, wp_bind]
  refine wp_mono (lookup_returns htable hpage (by rw [Mem.flush_npage, h.npage]; omega)) ?_ (fun _ _ h => h)
  rintro r m₁ ⟨rfl, rfl⟩
  simp only [wp_pure, wp_bind, wp_readPte, wp_modify]
  refine ⟨⟨h.npage, h.textTable, h.text, h.table, h.page⟩, hdir, ?_⟩
  have heven : (⟨(ptx farVa).val / 2 * 2, by omega⟩ : WordIx) = 0 := Fin.ext (by decide)
  have hlo : (m.flush 0 farVa).phys 135 ⟨(ptx farVa).val / 2 * 2, by omega⟩ = pteWord 135 pteD := by
    rw [heven]
    exact hself
  rw [hlo]
  exact ⟨_, List.mem_cons_self⟩

/-- A store of the program through the old mapping clears the new entry. -/
theorem writable_freed (h : Aliased m) : Yields (writable 136 (nthVa 1))
    (fun r m' => r = some 135 ∧ m' = m) m := by
  have hpdx : pdx (nthVa 1) = 2 := by decide
  have hptx : ptx (nthVa 1) = 1 := by decide
  have htable : HasTable m 136 (nthVa 1) 133 := by
    refine ⟨?_, by rw [h.npage]; omega⟩
    rw [hpdx, h.table]
    exact entry_tableWord (by omega)
  have hpage : entry (m.phys 133 (ptx (nthVa 1))) = some 135 := by
    rw [hptx, h.page]
    decide
  unfold Yields writable
  rw [wp_bind]
  refine wp_mono (lookup_returns htable hpage (by rw [h.npage]; omega)) ?_ (fun _ _ h => h)
  rintro r m ⟨rfl, rfl⟩
  simp only [wp_bind, wp_readPte, wp_pure, hptx, h.page]
  exact ⟨by decide, trivial⟩

theorem aliased_text (h : Aliased m) : Yields (pageLookup 136 utext)
    (fun r m' => r = some (135, (134, 0)) ∧ m' = m) m := by
  have htable : HasTable m 136 utext 134 := by
    have hpdx : pdx utext = 1 := by decide
    refine ⟨?_, by rw [h.npage]; omega⟩
    rw [hpdx, h.textTable, entry_tableWord (by omega)]
  exact lookup_returns htable h.text (by rw [h.npage]; omega)

/-! ## The run -/

/-- `syscall_mem_unmap(0, va)` for the first address. -/
theorem unmap_next (h : Solo k) (hm : Mapped 64 65536 k.mem) :
    ∃ k', next (callOp 8 0 (nthVa 0) 0) k = some k' ∧ Solo k' ∧ Aliased k'.mem ∧
      k'.mem.phys 136 100 = 0 ∧ ∃ rest, k'.mem.pageFreeList = 135 :: rest := by
  refine call_next (s := .memUnmap 0 (nthVa 0)) rfl (h.enabled _ _) ?_
  obtain ⟨f, hf⟩ : ∃ f, f = (((Trapframe.zero.setReg 4 8).setReg 5 0).setReg 6 (nthVa 0)).setReg 7 0 :=
    ⟨_, rfl⟩
  rw [← hf]
  have hcur : (k.entered f).curenv = some 0 := h.cur
  have hpgdir : ((k.entered f).envs 0).envPgdir = 136 := h.space.1
  have hasid : ((k.entered f).envs 0).envAsid = 0 := h.space.2
  have hva : isIllegalVa (nthVa 0) = false := nthVa_legal (by omega)
  unfold Syscall.run sysMemUnmap
  simp only [wp_bind, wp_ite, hva, Bool.false_eq_true, false_implies, not_false_eq_true, true_implies,
    true_and]
  refine envid2env_self hcur true ?_
  simp only [wp_get, hpgdir, hasid, wp_onMem]
  refine wp_mono (remove_freed (m := k.mem) hm) ?_ (fun _ _ h => h)
  exact fun _ m hm => (wp_pure _).mpr ⟨h.returned f m _, hm⟩

theorem body_next {R : Kernel → Prop} {op : Op} (hen : op.enabled k = true)
    (h : wp op.body (fun _ => R) (fun _ _ => False) k) : ∃ k', next op k = some k' ∧ R k' := by
  cases hx : op.body k with
  | ok a k' =>
    refine ⟨k', ?_, wp_run_ok h hx⟩
    unfold next Op.run Lib.handle
    rw [if_pos hen, hx]
  | error err k' => exact (wp_run_error h hx :).elim

theorem refill_next (h : Solo k) (hm : Aliased k.mem) (hdir : k.mem.phys 136 100 = tableWord 135)
    (hself : k.mem.phys 135 0 = pteWord 135 pteD) :
    ∃ k', next (.tlbRefill .zero farVa) k = some k' ∧ Solo k' ∧ Aliased k'.mem ∧
      k'.mem.phys 136 100 = tableWord 135 ∧
      ∃ lo1, ⟨entryHi 0 farVa, pteWord 135 pteD >>> 6, lo1⟩ ∈ k'.mem.tlb := by
  have hmode : userMode k.status = true := by
    rw [h.status]
    decide
  refine body_next (by simp [Op.enabled, h.cur, hmode]) ?_
  unfold Op.body leaveKernel
  rw [wp_bind, wp_enterKernel, wp_bind, wp_get, wp_bind, wp_onMem]
  have hpgdir : (k.trapped { Trapframe.zero with cp0Badvaddr := farVa }).curPgdir = 136 := h.regs.1
  have hasid : (k.trapped { Trapframe.zero with cp0Badvaddr := farVa }).entryHiAsid = 0 := h.regs.2
  rw [hpgdir, hasid]
  refine wp_mono (refill_freed (m := k.mem) hm hdir hself) ?_ (fun _ _ h => h)
  intro _ m hres
  rw [wp_bind, wp_get, wp_restoreAll]
  refine ⟨⟨h.cur, h.live, h.others, h.space, h.regs, ?_⟩, hres⟩
  change eret (k.status ||| statusExl) = _
  rw [h.status]
  decide

theorem store_next (h : Solo k) (hm : Aliased k.mem) (hdir : k.mem.phys 136 100 = tableWord 135) :
    ∃ k', next (.store (nthVa 1) 0) k = some k' ∧ Solo k' ∧ k'.mem.tlb = k.mem.tlb ∧
      k'.mem.mapped 136 100 0 = none := by
  have hmode : userMode k.status = true := by
    rw [h.status]
    decide
  have hword : wordIx (nthVa 1) = 0 := by decide
  refine body_next (by simp [Op.enabled, h.cur, hmode]) ?_
  unfold Op.body
  rw [wp_bind, wp_get, wp_bind, wp_onMem, h.regs.1]
  refine wp_mono (writable_freed hm) ?_ (fun _ _ h => h)
  rintro r m ⟨rfl, rfl⟩
  rw [wp_onMem, wp_modify, hword]
  refine ⟨h.setMem _, rfl, ?_⟩
  have hdir' : (k.mem.store 135 0 0).phys 136 100 = tableWord 135 := by
    rw [store_of_ne (by omega)]
    exact hdir
  have hpde : (k.mem.store 135 0 0).pde 136 100 = some 135 := by
    refine pde_some.mpr ⟨by decide, ?_⟩
    rw [hdir', entry_tableWord (by omega)]
  change (k.mem.store 135 0 0).mapped 136 100 0 = none
  rw [Mem.mapped, hpde, Option.bind_some, store_self, Function.update_self]
  decide

/-- The small machine with one program, which runs. -/
theorem solo_start : ∃ k, smallRun [.start] = some k ∧ Solo k ∧ Mapped 0 0 k.mem := by
  have hcheck : ((smallRun [.start]).any fun k =>
      (k.curenv == some 0 && (k.envs 0).envStatus == .runnable &&
        decide (∀ e, e ≠ 0 → (k.envs e).envStatus = .free) &&
        (k.envs 0).envPgdir == 136 && (k.envs 0).envAsid == 0 && k.curPgdir == 136 &&
        k.entryHiAsid == 0 && k.status == 0x8011) &&
      (k.mem.npage == 140 && k.mem.phys 136 1 == tableWord 134 &&
        entry (k.mem.phys 134 0) == some 135 &&
        decide (∀ i : WordIx, 2 ≤ i.val → i.val < 509 → k.mem.phys 136 i = 0) &&
        k.mem.ppRef 135 == 1 && k.mem.pageFreeList == (List.range' 58 76).reverse)) = true := by
    decide +kernel
  obtain ⟨k, hk, hcheck⟩ := (Option.any_eq_true _ _).mp hcheck
  simp only [Bool.and_eq_true, beq_iff_eq, decide_eq_true_eq] at hcheck
  obtain ⟨⟨⟨⟨⟨⟨⟨⟨hcur, hlive⟩, hothers⟩, hpgdir⟩, hasid⟩, hcurdir⟩, hcurasid⟩, hstatus⟩,
    ⟨⟨⟨⟨hnpage, htable⟩, htext⟩, hempty⟩, href⟩, hfree⟩ := hcheck
  refine ⟨k, hk, ⟨hcur, hlive, hothers, ⟨hpgdir, hasid⟩, ⟨hcurdir, hcurasid⟩, hstatus⟩, ?_⟩
  exact ⟨hnpage, htable, htext, fun i h2 hi => absurd h2 (by omega), hempty,
    fun i j hij => absurd hij (by omega), fun i j hi => absurd hi (by omega), href, hfree⟩

end Mos
