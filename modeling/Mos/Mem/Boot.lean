import Mos.Mem.Assertions

/-!
# Memory at boot

`env_init` builds the template page directory from pages of the kernel; the free
pages that are left are those the environments live on.
-/

namespace Mos

open Lib (Heap wp wp_and wp_bind wp_get wp_modify wp_pure wp_throw wp_ite wp_mono wp_recover wp_run_ok)

variable {used base : Nat} {m m' : Mem} {k k₀ k' : Kernel} {t p pp asid : Nat} {i j : WordIx}
  {w va perm : Word} {pool : Finset Nat} {W : Grant}

/-! ## The template -/

/-- The pages below `used` are the kernel's. The template maps some of them, read-only, and its
tables are not free. -/
structure Template (used base : Nat) (m : Mem) : Prop where
  npage_le : m.npage ≤ 2 ^ 20
  used_le : used ≤ m.npage
  free : ∀ p ∈ m.pageFreeList, used ≤ p ∧ p < m.npage
  free_nodup : m.pageFreeList.Nodup
  free_zero : ∀ p ∈ m.pageFreeList, m.ppRef p = 0
  base_used : base ∉ m.pageFreeList
  readOnly : ∀ i, m.phys base i &&& pteD = 0
  table : ∀ i t, entry (m.phys base i) = some t → t ∉ m.pageFreeList ∧ t ≠ base ∧
    ∀ j, m.phys t j &&& pteD = 0 ∧ ∀ p, entry (m.phys t j) = some p → p < used
  table_inj : ∀ i i' t, entry (m.phys base i) = some t → entry (m.phys base i') = some t → i = i'
  tlb : m.tlb = []

/-- The template maps nothing at `va`. -/
def Vacant (base : Nat) (m : Mem) (va : Word) : Prop := m.lookup base va = none

theorem vacant_iff : Vacant base m va ↔
    ∀ t, entry (m.phys base (pdx va)) = some t → entry (m.phys t (ptx va)) = none := by
  unfold Vacant Mem.lookup Mem.walk
  cases entry (m.phys base (pdx va)) with
  | none => simp
  | some t => simp

/-- The template maps what it mapped before, and one more page at most. -/
def Fills (base : Nat) (va : Word) (m m' : Mem) : Prop :=
  ∀ va', pdx va' ≠ pdx va ∨ ptx va' ≠ ptx va → Vacant base m va' → Vacant base m' va'

namespace Template

theorem flush (h : Template used base m) (asid : Nat) (va : Word) :
    Template used base (m.flush asid va) := by
  refine ⟨h.npage_le, h.used_le, h.free, h.free_nodup, h.free_zero, h.base_used, h.readOnly, h.table,
    h.table_inj, ?_⟩
  rw [Mem.flush_tlb, h.tlb]
  rfl

theorem lt_two_pow (h : Template used base m) (hp : p < used) : p < 2 ^ 20 :=
  lt_of_lt_of_le hp (h.used_le.trans h.npage_le)

/-- An entry of one of its tables. -/
theorem store (h : Template used base m) (ht : entry (m.phys base i) = some t)
    (hro : w &&& pteD = 0) (hw : ∀ p, entry w = some p → p < used) :
    Template used base (m.store t j w) := by
  have hne : base ≠ t := fun heq => (h.table i t ht).2.1 heq.symm
  have hbase : (m.store t j w).phys base = m.phys base := store_of_ne hne
  refine ⟨h.npage_le, h.used_le, h.free, h.free_nodup, h.free_zero, h.base_used, ?_, ?_, ?_, h.tlb⟩
  · rw [hbase]
    exact h.readOnly
  · rw [hbase]
    intro i' t' ht'
    obtain ⟨hfree, hnb, hentries⟩ := h.table i' t' ht'
    refine ⟨hfree, hnb, fun j' => ?_⟩
    rcases eq_or_ne t' t with rfl | htt
    · rw [store_self]
      rcases eq_or_ne j' j with rfl | hjj
      · rw [Function.update_self]
        exact ⟨hro, hw⟩
      · rw [Function.update_of_ne hjj]
        exact hentries j'
    · rw [store_of_ne htt]
      exact hentries j'
  · rw [hbase]
    exact h.table_inj

theorem store_fills (h : Template used base m) (ht : entry (m.phys base (pdx va)) = some t) :
    Fills base va m (m.store t (ptx va) w) := by
  intro va' hva' hv
  have hbase : (m.store t (ptx va) w).phys base = m.phys base :=
    store_of_ne fun heq => (h.table _ t ht).2.1 heq.symm
  rw [vacant_iff] at hv ⊢
  rw [hbase]
  intro t' ht'
  rcases eq_or_ne t' t with rfl | htt
  · have hpdx := h.table_inj _ _ t' ht' ht
    have hptx : ptx va' ≠ ptx va := hva'.resolve_left fun hn => hn hpdx
    rw [store_self, Function.update_of_ne hptx]
    exact hv t' ht'
  · rw [store_of_ne htt]
    exact hv t' ht'

theorem not_free (h : Template used base m) (hp : p < used) : p ∉ m.pageFreeList := fun hf =>
  absurd (h.free p hf).1 (not_le.mpr hp)

theorem setRef (h : Template used base m) (hp : p ∉ m.pageFreeList) (n : BitVec 16) :
    Template used base (m.setRef p n) := by
  refine ⟨h.npage_le, h.used_le, h.free, h.free_nodup, fun q hq => ?_, h.base_used, h.readOnly,
    h.table, h.table_inj, h.tlb⟩
  have hne : q ≠ p := by
    rintro rfl
    exact hp hq
  simpa [Mem.setRef, hne] using h.free_zero q hq

/-- A page of the template: it is blank, and not free any more. -/
theorem taken {rest : List Nat} (h : Template used base m) (hfree : m.pageFreeList = t :: rest) :
    Template used base (m.taken t rest) ∧ (m.taken t rest).phys base = m.phys base := by
  have hmem : t ∈ m.pageFreeList := hfree ▸ List.mem_cons_self
  have hsub : ∀ p ∈ rest, p ∈ m.pageFreeList := fun p hp => hfree ▸ List.mem_cons_of_mem t hp
  have hne : base ≠ t := by
    rintro rfl
    exact h.base_used hmem
  have hbase : (m.taken t rest).phys base = m.phys base := Function.update_of_ne hne _ _
  refine ⟨⟨h.npage_le, h.used_le, fun p hp => h.free p (hsub p hp), ?_,
    fun p hp => h.free_zero p (hsub p hp), fun hb => h.base_used (hsub _ hb), ?_, ?_, ?_, h.tlb⟩, hbase⟩
  · exact (List.nodup_cons.mp (hfree ▸ h.free_nodup)).2
  · rw [hbase]
    exact h.readOnly
  · rw [hbase]
    intro i t' ht'
    obtain ⟨hfree', hnb, hentries⟩ := h.table i t' ht'
    have htt : t' ≠ t := by
      rintro rfl
      exact hfree' hmem
    have hphys : (m.taken t rest).phys t' = m.phys t' := Function.update_of_ne htt _ _
    refine ⟨fun hr => hfree' (hsub _ hr), hnb, ?_⟩
    rw [hphys]
    exact hentries
  · rw [hbase]
    exact h.table_inj

theorem taken_fills {rest : List Nat} (h : Template used base m)
    (hfree : m.pageFreeList = t :: rest) (hv : Vacant base m va) : Vacant base (m.taken t rest) va := by
  obtain ⟨-, hbase⟩ := h.taken hfree
  rw [vacant_iff] at hv ⊢
  rw [hbase]
  intro t' ht'
  have htt : t' ≠ t := by
    rintro rfl
    exact (h.table _ _ ht').1 (hfree ▸ List.mem_cons_self)
  have hphys : (m.taken t rest).phys t' = m.phys t' := Function.update_of_ne htt _ _
  rw [hphys]
  exact hv t' ht'

/-- A blank page becomes a table. -/
theorem newTable (h : Template used base m) (hempty : entry (m.phys base i) = none)
    (htb : t ≠ base) (hfree : t ∉ m.pageFreeList) (hblank : ∀ j, m.phys t j = 0) (hlt : t < 2 ^ 20)
    (hold : ∀ i, entry (m.phys base i) ≠ some t) :
    Template used base (m.store base i (tableWord t)) := by
  have hentry : ∀ i' t', entry ((m.store base i (tableWord t)).phys base i') = some t' →
      (i' = i ∧ t' = t) ∨ (i' ≠ i ∧ entry (m.phys base i') = some t') := by
    intro i' t' ht'
    rw [store_self] at ht'
    rcases eq_or_ne i' i with rfl | hi
    · rw [Function.update_self, entry_tableWord hlt] at ht'
      exact Or.inl ⟨rfl, (Option.some.inj ht').symm⟩
    · rw [Function.update_of_ne hi] at ht'
      exact Or.inr ⟨hi, ht'⟩
  have hphys : ∀ t', t' ≠ base → (m.store base i (tableWord t)).phys t' = m.phys t' :=
    fun t' ht' => store_of_ne ht'
  refine ⟨h.npage_le, h.used_le, h.free, h.free_nodup, h.free_zero, h.base_used, fun i' => ?_,
    fun i' t' ht' => ?_, fun i' i'' t' ht' ht'' => ?_, h.tlb⟩
  · rw [store_self]
    rcases eq_or_ne i' i with rfl | hi
    · rw [Function.update_self]
      exact tableWord_readOnly t
    · rw [Function.update_of_ne hi]
      exact h.readOnly i'
  · rcases hentry i' t' ht' with ⟨rfl, rfl⟩ | ⟨-, hs⟩
    · refine ⟨hfree, htb, fun j => ?_⟩
      rw [hphys _ htb, hblank j]
      exact ⟨by decide, fun p hp => by rw [entry_zero] at hp; cases hp⟩
    · obtain ⟨hf, hnb, hentries⟩ := h.table i' t' hs
      rw [hphys _ hnb]
      exact ⟨hf, hnb, hentries⟩
  · rcases hentry i' t' ht' with ⟨rfl, rfl⟩ | ⟨-, hs⟩
    · rcases hentry i'' _ ht'' with ⟨rfl, -⟩ | ⟨-, hs''⟩
      · rfl
      · exact absurd hs'' (hold i'')
    · rcases hentry i'' t' ht'' with ⟨rfl, rfl⟩ | ⟨-, hs''⟩
      · exact absurd hs (hold i')
      · exact h.table_inj i' i'' t' hs hs''

theorem newTable_fills (hempty : entry (m.phys base i) = none) (htb : t ≠ base)
    (hblank : ∀ j, m.phys t j = 0) (hlt : t < 2 ^ 20) (hnb : ∀ i t, entry (m.phys base i) = some t → t ≠ base)
    (hv : Vacant base m va) : Vacant base (m.store base i (tableWord t)) va := by
  rw [vacant_iff] at hv ⊢
  intro t' ht'
  rw [store_self] at ht'
  rcases eq_or_ne (pdx va) i with rfl | hi
  · rw [Function.update_self, entry_tableWord hlt] at ht'
    obtain rfl := Option.some.inj ht'
    rw [store_of_ne htb, hblank, entry_zero]
  · rw [Function.update_of_ne hi] at ht'
    rw [store_of_ne (hnb _ _ ht')]
    exact hv t' ht'

end Template

/-! ## Mapping the pages of the kernel -/

/-- `page_insert` of a page of the kernel has gone through, or memory has run out. -/
theorem insert_template (h : Template used base m) (hv : Vacant base m va) (hp : pp < used)
    (hro : pteWord pp perm &&& pteD = 0) (hplain : ppn (pteWord pp perm) = pp) :
    wp (pageInsert base asid pp va perm) (fun _ m' => Template used base m' ∧ Fills base va m m')
      (fun err m' => (err = .errno .noMem ∧ Template used base m' ∧ Fills base va m m') ∨
        BadAddress err) m := by
  have hstore : ∀ {m₁ t}, Template used base m₁ → Fills base va m m₁ →
      entry (m₁.phys base (pdx va)) = some t →
      Template used base ((m₁.setRef pp (m₁.ppRef pp + 1)).store t (ptx va) (pteWord pp perm)) ∧
      Fills base va m ((m₁.setRef pp (m₁.ppRef pp + 1)).store t (ptx va) (pteWord pp perm)) := by
    intro m₁ t h₁ hf ht
    have href := h₁.setRef (h₁.not_free hp) (m₁.ppRef pp + 1)
    have hpage : ∀ q, entry (pteWord pp perm) = some q → q < used := by
      intro q hq
      rw [entry_pteWord hplain] at hq
      exact Option.some.inj hq ▸ hp
    refine ⟨href.store ht hro hpage, fun va' hva' hv' => ?_⟩
    exact href.store_fills ht va' hva' (hf va' hva' hv')
  have hflush := h.flush asid va
  have hfills : Fills base va m (m.flush asid va) := fun _ _ hv' => hv'
  refine pageInsert_none hv (fun _ => Or.inr) ?_
  unfold pageInsertNew
  rw [wp_bind, wp_tlbInvalidate]
  unfold pgdirWalk
  rw [wp_bind, wp_bind, wp_readPte]
  split
  case isTrue hvalid =>
    have ht : entry (m.phys base (pdx va)) = some (ppn (m.phys base (pdx va))) :=
      entry_some.mpr ⟨hvalid, rfl⟩
    refine wp_mono (pteOf_spec _ base va) ?_ (fun _ _ h => Or.inr h.2)
    rintro r m₁ ⟨rfl, rfl⟩
    simp only [wp_bind, wp_modify, wp_writePte]
    exact hstore hflush hfills ht
  case isFalse hvalid =>
    have hempty : entry (m.phys base (pdx va)) = none := entry_none.mpr (by simpa using hvalid)
    have hlt : ∀ p ∈ (m.flush asid va).pageFreeList, p < 2 ^ 20 := fun p hp =>
      lt_of_lt_of_le (h.free p hp).2 h.npage_le
    rw [if_pos rfl, wp_bind]
    refine wp_mono (pageAlloc_taken hlt) ?_ ?_
    · rintro t m₁ ⟨rest, hfree, rfl⟩
      obtain ⟨htaken, hbase⟩ := hflush.taken hfree
      have hmem : t ∈ (m.flush asid va).pageFreeList := hfree ▸ List.mem_cons_self
      have hnew : t ∉ rest := (List.nodup_cons.mp (hfree ▸ hflush.free_nodup)).1
      have htb : t ≠ base := by
        rintro rfl
        exact hflush.base_used hmem
      have hblank : ∀ j, ((m.flush asid va).taken t rest).phys t j = 0 := by simp [Mem.taken]
      have hold : ∀ i, entry (((m.flush asid va).taken t rest).phys base i) ≠ some t := by
        intro i hi
        rw [hbase] at hi
        exact (hflush.table i t hi).1 hmem
      have hempty' : entry (((m.flush asid va).taken t rest).phys base (pdx va)) = none := by
        rw [hbase]
        exact hempty
      have htable := (htaken.setRef hnew 1).newTable hempty' htb hnew hblank (hlt t hmem) hold
      simp only [wp_bind, wp_modify, wp_writePte]
      refine wp_mono (pteOf_spec _ base va) ?_ (fun _ _ h => Or.inr h.2)
      rintro r m₁ ⟨rfl, rfl⟩
      simp only [wp_bind, wp_modify, wp_writePte]
      have hself : ((((m.flush asid va).taken t rest).setRef t 1).store base (pdx va)
          (tableWord t)).phys base (pdx va) = tableWord t := by simp
      rw [show page2pa t ||| pteV ||| pteCCacheable = tableWord t from rfl, hself]
      refine hstore htable (fun va' _ hv' => ?_) ?_
      · refine Template.newTable_fills hempty' htb hblank (hlt t hmem) (fun i t' ht' => ?_)
          (hflush.taken_fills hfree hv')
        exact (htaken.table i t' ht').2.1
      · rw [hself, entry_tableWord (hlt t hmem), (entry_some.mp (entry_tableWord (hlt t hmem))).2]
    · rintro err m₁ (⟨rfl, rfl⟩ | hbad)
      · exact Or.inl ⟨rfl, hflush, hfills⟩
      · exact Or.inr hbad

theorem segment_page (hva : va.toNat % 2 ^ 22 = 0) {n : Nat} (hn : n < 1024) :
    pdx (va + BitVec.ofNat 32 (4096 * n)) = pdx va ∧
      (ptx (va + BitVec.ofNat 32 (4096 * n))).val = n := by
  have hlt := va.isLt
  have hsum : (va + BitVec.ofNat 32 (4096 * n)).toNat = va.toNat + 4096 * n := by
    rw [BitVec.toNat_add, BitVec.toNat_ofNat]
    omega
  constructor
  · apply Fin.ext
    rw [pdx_val, pdx_val, hsum]
    omega
  · rw [ptx_val, hsum]
    omega

/-- What `map_segment` leaves alone. -/
def FillsTable (base : Nat) (i : WordIx) (m m' : Mem) : Prop :=
  ∀ va, pdx va ≠ i → Vacant base m va → Vacant base m' va

theorem segment_template (h : Template used base m) {frame n : Nat} (hframe : frame + n ≤ used)
    (hva : va.toNat % 2 ^ 22 = 0) (hn : n ≤ 1024)
    (hv : ∀ va', pdx va' = pdx va → Vacant base m va') :
    wp (mapSegment base 0 frame va n pteG)
      (fun _ m' => Template used base m' ∧ FillsTable base (pdx va) m m') (fun err _ => ¬ Asserts err) m := by
  have hloop := Lib.wp_forM_suffix (E := fun err (_ : Mem) => ¬ Asserts err)
    (I := fun (l : List Nat) m' => Template used base m' ∧ FillsTable base (pdx va) m m' ∧
      ∀ i ∈ l, Vacant base m' (va + BitVec.ofNat 32 (4096 * i)))
    (f := fun i => do
      let pp ← pa2page (page2pa (frame + i))
      Lib.recover (pageInsert base 0 pp (va + BitVec.ofNat 32 (4096 * i)) (pteG ||| pteV)) ignoreErrno)
    (l := List.range n) ?_ (s := m) ⟨h, fun _ _ hv' => hv', fun i hi => ?_⟩
  · exact wp_mono hloop (fun _ _ ⟨ht, hf, _⟩ => ⟨ht, hf⟩) (fun _ _ h => h)
  · rintro i r hsuf m₁ ⟨ht, hf, hvac⟩
    have hi : i < n := List.mem_range.mp (hsuf.subset List.mem_cons_self)
    have hnodup : i ∉ r := (List.nodup_cons.mp (hsuf.sublist.nodup List.nodup_range)).1
    have hused : frame + i < used := by omega
    have hlt := ht.lt_two_pow hused
    obtain ⟨hpdx, hptx⟩ := segment_page hva (n := i) (by omega)
    have hnext : ∀ {m₂}, Template used base m₂ →
        Fills base (va + BitVec.ofNat 32 (4096 * i)) m₁ m₂ → Template used base m₂ ∧
        FillsTable base (pdx va) m m₂ ∧ ∀ j ∈ r, Vacant base m₂ (va + BitVec.ofNat 32 (4096 * j)) := by
      intro m₂ ht₂ hf₂
      refine ⟨ht₂, fun va' hne hv' => ?_, fun j hj => ?_⟩
      · exact hf₂ va' (Or.inl (by rw [hpdx]; exact hne)) (hf va' hne hv')
      · have hjn : j < n := List.mem_range.mp (hsuf.subset (List.mem_cons_of_mem _ hj))
        have hptxj := (segment_page hva (n := j) (by omega)).2
        refine hf₂ _ (Or.inr fun heq => ?_) (hvac j (List.mem_cons_of_mem _ hj))
        have hij : i = j := by rw [← hptx, ← hptxj, heq]
        exact hnodup (hij ▸ hj)
    rw [wp_bind]
    refine wp_mono (pa2page_spec m₁ _) ?_ (fun _ _ h => h.2.not_asserts)
    rintro pp m₂ ⟨rfl, rfl⟩
    rw [ppn_page2pa hlt, wp_recover]
    have hro : pteWord (frame + i) (pteG ||| pteV) &&& pteD = 0 := by
      unfold pteWord
      rw [BitVec.or_assoc, BitVec.or_assoc, BitVec.and_or_distrib_right, page2pa_low (by decide)]
      decide
    refine wp_mono (insert_template ht (hvac i List.mem_cons_self) hused hro
      (ppn_pteWord_low hlt (by decide))) (fun _ m₃ ⟨ht₃, hf₃⟩ => hnext ht₃ hf₃) ?_
    rintro err m₃ (⟨rfl, ht₃, hf₃⟩ | hbad)
    · exact hnext ht₃ hf₃
    · rcases hbad with rfl | rfl
      · exact BadAddress.not_asserts (Or.inl rfl)
      · exact BadAddress.not_asserts (Or.inr rfl)
  · exact hv _ (segment_page hva (by have := List.mem_range.mp hi; omega)).1

/-! ## The end of `env_init` -/

/-- The pages that are free then are those the environments live on. -/
theorem Template.memInv (h : Template used base m) :
    MemInv m.pageFreeList.toFinset base (fun _ => none) m := by
  have hrefs : ∀ r, (m.heap m.pageFreeList.toFinset fun _ => none).refs r = none := fun r =>
    refs_none (refers_gone rfl)
  constructor
  · refine ⟨h.npage_le, fun p hp => (h.free p (List.mem_toFinset.mp hp)).2, fun _ _ he => (nomatch he),
      fun _ _ he => (nomatch he), fun _ _ _ he => (nomatch he), fun _ _ _ _ he => (nomatch he),
      fun hb => h.base_used (List.mem_toFinset.mp hb), fun i _ _ => h.readOnly i, fun i t _ _ ht => ?_⟩
    obtain ⟨hfree, -, hentries⟩ := h.table i t ht
    refine ⟨fun hp => hfree (List.mem_toFinset.mp hp), fun j p hp hmem => ?_, fun j => (hentries j).1⟩
    exact h.not_free ((hentries j).2 p hp) (List.mem_toFinset.mp hmem)
  · refine ⟨fun r p hr => ?_, fun r p hr => ?_, fun r _ p _ hr => ?_, h.free_nodup,
      fun p hp => List.mem_toFinset.mpr hp, fun p hp => ?_⟩
    · exact nomatch (hrefs r).symm.trans hr
    · exact nomatch (hrefs r).symm.trans hr
    · exact nomatch (hrefs r).symm.trans hr
    · exact congrArg BitVec.toNat (h.free_zero p hp)

/-- No environment lives yet. -/
structure Bare (pool : Finset Nat) (base : Nat) (k : Kernel) : Prop where
  sound : Sound pool base k
  space : ∀ e, k.space e = none
  tlb : k.mem.tlb = []
  pages : pool = k.mem.pageFreeList.toFinset
  zero : ∀ p ∈ pool, k.mem.ppRef p = 0

theorem template_bare (h : Template used base m) (hm : k.mem = m) (hb : k.basePgdir = base)
    (hc : k.curenv = none) (he : ∀ e, k.envs e = .zero) : Bare m.pageFreeList.toFinset base k := by
  have hspace : ∀ e, k.space e = none := fun e => by
    unfold Kernel.space
    rw [he e]
    rfl
  have hdirs : k.vm.dirs = fun _ => none := funext fun e => Vm.dirs_none (hspace e)
  subst hm
  refine ⟨⟨⟨?_, fun e s hs => ?_, fun e _ s _ hs => ?_⟩, hb, fun e s hs => ?_, fun c hcur => ?_,
    fun e => ?_⟩, hspace, h.tlb, rfl, fun p hp => h.free_zero p (List.mem_toFinset.mp hp)⟩
  · rw [hdirs]
    exact h.memInv
  · exact nomatch (hspace e).symm.trans hs
  · exact nomatch (hspace e).symm.trans hs
  · exact nomatch (hspace e).symm.trans hs
  · exact nomatch hc.symm.trans hcur
  · rw [he e]
    decide

/-- The template before it maps anything. -/
theorem template_start {rest : List Nat} (hnpage : m.npage ≤ 2 ^ 20) (hused : used ≤ m.npage)
    (hfree : ∀ p ∈ m.pageFreeList, used ≤ p ∧ p < m.npage) (hnodup : m.pageFreeList.Nodup)
    (hzero : ∀ p ∈ m.pageFreeList, m.ppRef p = 0) (htlb : m.tlb = [])
    (hcons : m.pageFreeList = p :: rest) :
    Template used p ((m.taken p rest).setRef p ((m.taken p rest).ppRef p + 1)) := by
  have hsub : ∀ q ∈ rest, q ∈ m.pageFreeList := fun q hq => hcons ▸ List.mem_cons_of_mem p hq
  obtain ⟨hnew, hrest⟩ := List.nodup_cons.mp (hcons ▸ hnodup)
  have hblank : ∀ i, ((m.taken p rest).setRef p ((m.taken p rest).ppRef p + 1)).phys p i = 0 := by
    simp [Mem.taken]
  have hnone : ∀ i t, entry (((m.taken p rest).setRef p
      ((m.taken p rest).ppRef p + 1)).phys p i) ≠ some t := by
    intro i t ht
    rw [hblank, entry_zero] at ht
    cases ht
  refine ⟨hnpage, hused, fun q hq => hfree q (hsub q hq), hrest, fun q hq => ?_, hnew, fun i => ?_,
    fun i t ht => absurd ht (hnone i t), fun i _ t ht => absurd ht (hnone i t), htlb⟩
  · have hne : q ≠ p := by
      rintro rfl
      exact hnew hq
    simpa [Mem.setRef, Mem.taken, hne] using hzero q (hsub q hq)
  · rw [hblank]
    decide

theorem noMem_sure {err : Fault} {P : Prop} (h : (err = .errno .noMem ∧ P) ∨ BadAddress err) :
    ¬ Asserts err := by
  rcases h with ⟨rfl, -⟩ | hbad
  · exact errno_sure .noMem
  · exact hbad.not_asserts

theorem panicOn_sure {err : Fault} {msg : String} (hmsg : ¬ Asserts (.panic msg)) : ¬ Asserts err →
    ¬ Asserts (match err with
      | .errno _ => .panic msg
      | err => err) := by
  intro h
  cases err with
  | errno e => exact hmsg
  | panic msg' | wild => exact h

theorem usedPageNum_le (mc : Machine) : mc.usedPageNum ≤ mc.npage := mc.pages_fit

theorem envInit_bare (mc : Machine) : wp (envInit mc) (fun _ k => ∃ pool base, Bare pool base k)
    (fun err _ => ¬ err.Asserts) mc.initial := by
  have hnpage : mc.npage ≤ 2 ^ 20 := mc.npage_le.trans (by decide)
  have hfree : ∀ p, p ∈ mc.initial.mem.pageFreeList ↔ mc.usedPageNum ≤ p ∧ p < mc.npage := by
    intro p
    have hle := usedPageNum_le mc
    simp only [Machine.initial, List.mem_reverse, List.mem_range'_1]
    omega
  have hnodup : mc.initial.mem.pageFreeList.Nodup := by
    simp only [Machine.initial, List.nodup_reverse]
    exact List.nodup_range'
  unfold envInit panicOn
  rw [wp_bind, wp_onMem, Lib.wp_mapStop]
  refine wp_mono (pageAlloc_taken fun p hp => ?_) ?_
    (fun _ _ h => panicOn_sure (by simp [Asserts]) (noMem_sure h))
  · exact lt_of_lt_of_le ((hfree p).mp hp).2 hnpage
  rintro p m ⟨rest, hcons, rfl⟩
  have hp := (hfree p).mp (hcons ▸ List.mem_cons_self)
  have hplt : p < 2 ^ 20 := lt_of_lt_of_le hp.2 hnpage
  have hstart := template_start hnpage (usedPageNum_le mc) (fun q hq => (hfree q).mp hq) hnodup
    (fun q hq => if_neg (not_lt.mpr ((hfree q).mp hq).1)) rfl hcons
  simp only [wp_bind, wp_onMem, wp_modify]
  refine wp_mono (kaddr_spec _ _) ?_ (fun _ _ h => h.2.sure)
  rintro base m ⟨rfl, rfl⟩
  rw [ppn_page2pa hplt]
  have hpages : roundPages (mc.npage * sizeofPage) ≤ 1024 := by
    have := mc.npage_le
    simp only [roundPages, sizeofPage]
    omega
  have hvac : ∀ va, Vacant p (((mc.initial.mem.taken p rest).setRef p
      ((mc.initial.mem.taken p rest).ppRef p + 1))) va := by
    intro va
    rw [vacant_iff]
    intro t ht
    have hzero : ((mc.initial.mem.taken p rest).setRef p
        ((mc.initial.mem.taken p rest).ppRef p + 1)).phys p (pdx va) = 0 := by simp [Mem.taken]
    rw [hzero, entry_zero] at ht
    cases ht
  refine wp_mono (segment_template hstart (le_refl _) (by decide) hpages fun va _ => hvac va) ?_
    (fun _ _ h => h)
  rintro _ m₁ ⟨ht₁, hf₁⟩
  refine wp_mono (segment_template ht₁ (le_trans mc.envs_fit (Nat.le_add_right _ _)) (by decide)
    (by decide) fun va hva => hf₁ va ?_ (hvac va)) ?_ (fun _ _ h => h)
  · rw [hva]
    decide
  · rintro _ m₂ ⟨ht₂, -⟩
    exact ⟨_, p, template_bare ht₂ rfl rfl rfl fun _ => rfl⟩

/-! ## The programs -/

/-- The pages of a program may be mapped. -/
def ImageGrants (pool : Finset Nat) (W : Grant) (image : Image) : Prop :=
  ∀ ip ∈ image.pages, ∀ e q, q ∈ pool → W e (pdx ip.va) (ptx ip.va) (pteWord q ip.perm)

variable {sp : Spaces} {e : EnvIx} {d : Nat}

theorem loadIcodeMapper_change (h : MemInv pool base sp m) (he : sp e = some d) {ip : ImagePage}
    (hW : ∀ q, q ∈ pool → W e (pdx ip.va) (ptx ip.va) (pteWord q ip.perm)) :
    wp (loadIcodeMapper d asid ip) (fun _ m' => Change pool base sp e asid (W e) True m m')
      (fun err _ => ¬ Asserts err) m := by
  unfold loadIcodeMapper
  rw [wp_bind]
  refine wp_mono (pageAlloc_spec h) ?_ (fun _ _ h => noMem_sure h)
  rintro p m₁ ⟨rest, hfree, rfl⟩
  have hfresh := h.fresh_taken hfree
  have htaken : Change pool base sp e asid (W e) True m (m.taken p rest) := .taken h hfree
  have hlt := h.lt_two_pow hfresh.mem
  rw [wp_bind]
  refine wp_mono (kaddr_spec _ _) ?_ (fun _ _ h => h.2.not_asserts)
  rintro f m₁ ⟨rfl, rfl⟩
  rw [ppn_page2pa hlt, wp_bind, wp_modify]
  have hs : SameTables pool sp (m.taken p rest)
      { m.taken p rest with phys := Function.update (m.taken p rest).phys p ip.content } :=
    .page hfresh.mem (MemInv.unreferenced_not_walked hfresh.mem hfresh.unreferenced) rfl rfl
  have hdata : Change pool base sp e asid (W e) True (m.taken p rest) _ :=
    .of_same htaken.inv hs rfl rfl fun _ hx => hx
  have hheld : Held pool sp { m.taken p rest with
      phys := Function.update (m.taken p rest).phys p ip.content } p := by
    unfold Held
    rw [heap_congr (refers_congr hs.walked) rfl rfl]
    exact hfresh.held
  have hpermlt : ip.perm.toNat < 4096 := by
    unfold ImagePage.perm
    split <;> decide
  refine wp_mono (pageInsert_spec hdata.inv he (pdx_lt_utop ip.va_lt) hheld) ?_
    (fun _ _ h => noMem_sure h)
  intro _ m₂ hins
  rcases hins.effect (ppn_pteWord_low hlt hpermlt) with hch | ⟨hmax, -⟩
  · exact (htaken.trans hdata).trans (hch _ _ (hW p hfresh.mem))
  · have hzero : ((m.taken p rest).ppRef p).toNat = 0 := congrArg BitVec.toNat hfresh.ppRef
    exact absurd (hzero.symm.trans hmax) (by decide)

theorem uninitialised_sure {err : Stop} (h : ¬ err.Asserts) : ¬ (uninitialised err).Asserts := by
  unfold uninitialised
  split
  · exact wild_sure
  · exact h

theorem envCreate_moved (h : Sound pool base k)
    (hfree : ∀ e, k.envFreeList.head? = some e → (k.envs e).envStatus = .free) {image : Image}
    (hW : ImageGrants pool W image) (priority : Word) :
    wp (envCreate image priority) (fun _ k' => Moved pool base W k k') (fun err _ => ¬ err.Asserts) k := by
  unfold envCreate
  rw [wp_bind, Lib.wp_mapStop]
  refine wp_mono (wp_and (envAlloc_opened (W := W) h hfree 0) (quietly_envAlloc 0 k)) ?_
    (fun _ _ herr => uninitialised_sure herr.2.2)
  rintro e k₁ ⟨⟨-, ho, -⟩, -⟩
  rw [wp_bind, wp_updEnv, wp_bind, wp_updEnv, setEnv_setEnv]
  have hopen := (ho.setEnv (f := (fun env => { env with envStatus := .runnable }) ∘
    fun env => { env with envPri := priority }) rfl rfl rfl).moved (W := W) h (by simp)
  obtain ⟨k₂, hk₂⟩ : ∃ k₂, k₂ = k₁.setEnv e ((fun env => { env with envStatus := .runnable }) ∘
    fun env => { env with envPri := priority }) := ⟨_, rfl⟩
  rw [← hk₂] at hopen ⊢
  have hlive : (k₂.envs e).envStatus ≠ .free := by simp [hk₂]
  have hdirs := Sound.dirs_live hlive
  have hinv := hopen.sound.vm.toMemInv
  unfold loadIcode panicOn
  simp only [wp_bind, wp_get]
  rw [wp_onMem]
  refine wp_mono (Lib.wp_forM (I := fun m => Change pool base k₂.vm.dirs e (k₂.envs e).envAsid (W e)
    True k₂.mem m) (E := fun err _ => ¬ Asserts err) (fun ip hip m hch => ?_) (.refl hinv)) ?_
    (fun _ _ h => h)
  · rw [Lib.wp_mapStop]
    exact wp_mono (loadIcodeMapper_change hch.inv hdirs (hW ip hip e)) (fun _ _ h => hch.trans h)
      (fun _ _ h => panicOn_sure (by simp [Asserts]) h)
  intro _ m hch
  have hwork := hopen.work hlive hch
  rw [wp_updEnv]
  have hentry : SameVm (k₂.setMem m) ((k₂.setMem m).setEnv e fun env =>
      { env with envTf := { env.envTf with cp0Epc := image.entry } }) :=
    same_setEnv Iff.rfl rfl rfl rfl
  have hloaded := hwork.trans (hentry.moved hwork.sound)
  refine wp_mono (keeps_schedInsertHead (R := SameVm) (F := fun err => ¬ err.Asserts) e _) ?_
    (fun _ _ h => h.2)
  exact fun _ _ hs => (wp_pure _).mpr (hloaded.trans (hs.moved hloaded.sound))

theorem boot_moved {mc : Machine} {programs : List (Image × Word)}
    (hW : ∀ pool, ∀ p ∈ programs, ImageGrants pool W p.1) (hb : boot mc programs = some k) :
    ∃ pool base k₀, Bare pool base k₀ ∧ Moved pool base W k₀ k := by
  have hboth : SlotInv k ∧ ∃ pool base k₀, Bare pool base k₀ ∧ Moved pool base W k₀ k := by
    refine boot_rule_mem (I := fun k => SlotInv k ∧ ∃ pool base k₀, Bare pool base k₀ ∧
      Moved pool base W k₀ k) ?_ ?_ hb
    · refine wp_mono (Lib.wp_and (slot_envInit mc) (envInit_bare mc)) ?_ (fun _ _ _ => trivial)
      rintro _ k₀ ⟨hslot, pool, base, hbare⟩
      exact ⟨hslot, pool, base, k₀, hbare, .refl hbare.sound⟩
    · rintro k₁ p hp ⟨hslot, pool, base, k₀, hbare, hm⟩
      have hfree : ∀ e, k₁.envFreeList.head? = some e → (k₁.envs e).envStatus = .free :=
        fun e he => hslot.free_status e (List.mem_of_head? he)
      refine wp_mono (Lib.wp_and (slot_envCreate hslot p.1 p.2)
        (envCreate_moved hm.sound hfree (hW pool p hp) p.2)) ?_ (fun _ _ _ => trivial)
      exact fun _ _ ⟨hs, hm'⟩ => ⟨hs, pool, base, k₀, hbare, hm.trans hm'⟩
  exact hboth.2

/-! ## Runs -/

/-- The machine, booted with programs that `Fit`. -/
def mosWith (Fit : Image → Prop) : Lib.System Kernel Op where
  init k := ∃ mc programs, (∀ p ∈ programs, Fit p.1) ∧ boot mc programs = some k
  next := next

/-- The machine `mc`, booted with `programs`. -/
def mosOn (mc : Machine) (programs : List (Image × Word)) : Lib.System Kernel Op where
  init k := boot mc programs = some k
  next := next

theorem run_mosOn {mc : Machine} {programs : List (Image × Word)} {C : Kernel → Op → Prop}
    (h : (mosOn mc programs).Run C k) : mos.Run C k := by
  induction h with
  | init hb => exact .init ⟨mc, programs, hb⟩
  | step _ hc hs ih => exact .step ih hc hs

theorem run_mosWith {C : Kernel → Op → Prop} (h : mos.Run C k) : (mosWith fun _ => True).Run C k := by
  induction h with
  | init h =>
    obtain ⟨mc, programs, hb⟩ := h
    exact .init ⟨mc, programs, fun _ _ => trivial, hb⟩
  | step _ hc hs ih => exact .step ih hc hs

/-- The rule for memory in a run: what holds without environments and is kept by every step on memory. -/
theorem memory_rule {Fit : Image → Prop} {C : Kernel → Op → Prop} {J : Vm → Prop}
    (hfit : ∀ image, Fit image → ∀ pool, ImageGrants pool W image)
    (hW : ∀ pool, FaultGrants pool W)
    (hC : ∀ {pool base k op}, Sound pool base k → C k op → StepOk W k op)
    (hstart : ∀ {pool base k}, Bare pool base k → J k.vm)
    (hstep : ∀ {pool base v v'}, VmInv pool base v → Vm.Step pool base W v v' → J v → J v')
    (h : (mosWith Fit).Run C k) : ∃ pool base, Sound pool base k ∧ J k.vm := by
  have hpath : ∀ {pool base k k'}, Sound pool base k → Moved pool base W k k' → J k.vm → J k'.vm :=
    fun hs hm hj => hm.path.invariant (fun hi hs hj => hstep hi hs hj) hs.vm hj
  have hrun := h.invariant (I := fun k => SlotInv k ∧ ∃ pool base, Sound pool base k ∧ J k.vm) ?_ ?_
  · exact hrun.2
  · rintro k ⟨mc, programs, hall, hb⟩
    obtain ⟨pool, base, k₀, hbare, hm⟩ :=
      boot_moved (W := W) (fun pool p hp => hfit p.1 (hall p hp) pool) hb
    exact ⟨slot_boot hb, pool, base, hm.sound, hpath hbare.sound hm (hstart hbare)⟩
  · rintro k op k' ⟨hslot, pool, base, hs, hj⟩ hc hnext
    have hm := moved_next hs (hW pool) hslot (hC hs hc) hnext
    exact ⟨slot_next hslot hnext, pool, base, hm.sound, hpath hs hm hj⟩

end Mos
