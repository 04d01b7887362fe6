import Mos.Mem.Exact
import Mos.Mem.Syscalls

/-!
# What the work for one environment leaves alone

The directories and page tables of the others, and their pages of data, are as they
were after every function of `pmap.c`, however it ends.
-/

namespace Mos

open Lib (wp wp_bind wp_modify wp_pure wp_throw wp_mono wp_and wp_ite wp_forM)

variable {pool : Finset Nat} {base : Nat} {sp : Spaces} {m m' m₁ : Mem} {e x : EnvIx} {d t p q : Nat}
  {i j : WordIx} {w va perm : Word} {asid : Nat}

/-! ## Pages of others -/

/-- A page that a page table of another environment than `e` refers to. -/
def Others (pool : Finset Nat) (sp : Spaces) (e : EnvIx) (m : Mem) (p : Nat) : Prop :=
  p ∈ pool ∧ ∃ x d i j, x ≠ e ∧ sp x = some d ∧ m.pte d i j = some p

structure Spares (pool : Finset Nat) (sp : Spaces) (e : EnvIx) (m m' : Mem) : Prop where
  apart : Apart sp e m m'
  data : ∀ p, Others pool sp e m p → m'.phys p = m.phys p

/-- Of the pages that are neither free nor walked, all are as they were. -/
def SameData (sp : Spaces) (m m' : Mem) : Prop :=
  ∀ q, ¬ m.Walked sp q → q ∉ m.pageFreeList → m'.phys q = m.phys q

theorem Apart.pte (h : Apart sp e m m') (hx : x ≠ e) (hd : sp x = some d) (i j : WordIx) :
    m'.pte d i j = m.pte d i j := by
  rw [pte_eq, pte_eq, h.mapped hx hd]

namespace Spares

theorem refl : Spares pool sp e m m := ⟨.refl, fun _ _ => rfl⟩

theorem trans (h : Spares pool sp e m m₁) (h' : Spares pool sp e m₁ m') : Spares pool sp e m m' := by
  refine ⟨h.apart.trans h'.apart, fun p hp => (h'.data p ?_).trans (h.data p hp)⟩
  obtain ⟨hpool, x, d, i, j, hx, hd, hpte⟩ := hp
  exact ⟨hpool, x, d, i, j, hx, hd, (h.apart.pte hx hd i j).trans hpte⟩

theorem of_data (h : MemInv pool base sp m) (ha : Apart sp e m m') (hd : SameData sp m m') :
    Spares pool sp e m m' := by
  refine ⟨ha, fun p hp => ?_⟩
  obtain ⟨hpool, x, d, i, j, -, hx, hpte⟩ := hp
  exact hd p (h.data_not_walked hx hpte hpool) (h.held_data hx hpte hpool).not_free

theorem of_phys (h : m'.phys = m.phys) : Spares pool sp e m m' :=
  ⟨fun _ _ _ _ => ⟨congrFun h _, fun _ _ _ => congrFun h _⟩, fun _ _ => congrFun h _⟩

theorem taken {rest : List Nat} (h : MemInv pool base sp m) (hfree : m.pageFreeList = p :: rest) :
    Spares pool sp e m (m.taken p rest) := by
  have hsame := h.same_taken hfree
  refine .of_data h (.of_walked hsame.walked) fun q _ hq => ?_
  have hne : q ≠ p := by
    rintro rfl
    exact hq (hfree ▸ List.mem_cons_self)
  exact Function.update_of_ne hne _ _

end Spares

/-! ## `page_remove` and `page_insert` -/

theorem pageRemove_spares (h : MemInv pool base sp m) (he : sp e = some d) (hva : pdx va < pdx utop) :
    wp (pageRemove d asid va) (fun _ m' => Spares pool sp e m m') (fun err _ => BadAddress err) m := by
  refine wp_mono (pageRemove_spec h he hva) ?_ (fun _ _ h => h)
  rintro _ m' (⟨-, rfl⟩ | ⟨t, p, hr⟩)
  · exact .refl
  · have hch : Change pool base sp e asid (fun _ _ _ => True) True m m' := hr.change h he
    exact .of_data h hch.apart (hr.placed h he).data

/-- The page table comes from the free list if it is not there. -/
theorem pageInsertNew_data (h : MemInv pool base sp m) (he : sp e = some d) (hva : pdx va < pdx utop) :
    wp (pageInsertNew d asid p va perm)
      (fun _ m' => ∀ q, ¬ m.Walked sp q → q ∉ m.pageFreeList ∨ m.pde d (pdx va) ≠ none →
        m'.phys q = m.phys q)
      (fun err m' => BadAddress err ∨ m'.phys = m.phys) m := by
  have hflush : MemInv pool base sp (m.flush asid va) :=
    h.congr ⟨rfl, fun _ _ => rfl, fun _ _ => rfl⟩ rfl rfl
  unfold pageInsertNew
  rw [wp_bind, wp_tlbInvalidate, wp_bind]
  refine wp_mono (wp_and (walkCreate_cases hflush hva) (pgdirWalkCreate_spec hflush he hva)) ?_ ?_
  · rintro r m₁ ⟨⟨t, rfl, hcases⟩, t', ht', hready⟩
    obtain rfl : t = t' := congrArg Prod.fst (Option.some.inj ht')
    simp only [wp_bind, wp_modify, wp_writePte]
    intro q hq hfree
    rcases hcases with ⟨rfl, ht⟩ | ⟨rest, hempty, hhead, rfl⟩
    · refine store_of_ne (m := (m.flush asid va).incref p) ?_
      rintro rfl
      exact hq (walked_table he ht)
    · have hqt : q ≠ t := by
        rintro rfl
        rcases hfree with hfree | hpde
        · exact hfree (hhead ▸ List.mem_cons_self)
        · exact hpde ((pde_user hva).trans hempty)
      have hqd : q ≠ d := by
        rintro rfl
        exact hq (walked_dir he)
      refine (store_of_ne hqt).trans ((store_of_ne hqd).trans ?_)
      exact Function.update_of_ne hqt _ _
  · rintro err m' ⟨-, ⟨-, rfl⟩ | hbad⟩
    · exact Or.inr rfl
    · exact Or.inl hbad

theorem pageInsert_data (h : MemInv pool base sp m) (he : sp e = some d) (hva : pdx va < pdx utop) :
    wp (pageInsert d asid p va perm) (fun _ m' => SameData sp m m')
      (fun err m' => BadAddress err ∨ SameData sp m m') m := by
  cases hl : m.lookup d va with
  | none =>
    refine pageInsert_none hl (fun _ => Or.inl) ?_
    refine wp_mono (pageInsertNew_data h he hva) (fun _ m' hm q hq hfree => hm q hq (Or.inl hfree)) ?_
    exact fun err m' => Or.imp_right fun hphys q _ _ => congrFun hphys q
  | some r =>
    obtain ⟨q₀, x⟩ := r
    obtain ⟨t, rfl, ht, hq₀⟩ := (lookup_user hva).mp hl
    have hown := h.own_table he ht hva
    have hold : entry (m.phys t (ptx va)) = some q₀ := by
      rwa [Mem.pte, ht, Option.bind_some] at hq₀
    obtain ⟨hvalid, hppn⟩ := entry_some.mp hold
    have hwalk : m.walk d va = some (t, ptx va) := by
      rw [Mem.walk, ← pde_user hva, ht]
      rfl
    unfold pageInsert
    rw [wp_bind]
    refine wp_mono (pgdirWalk_spec m d va) ?_ (fun _ _ h => Or.inl h.2)
    rintro r m₁ ⟨hm, rfl⟩
    subst hm
    rw [hwalk]
    simp only [wp_bind, wp_readPte, if_pos hvalid]
    refine wp_mono (pa2page_spec m₁ _) ?_ (fun _ _ h => Or.inl h.2)
    rintro r m₂ ⟨hm, rfl⟩
    subst hm
    rw [hppn]
    split
    case isTrue hne =>
      rw [wp_bind]
      refine wp_mono (pageRemove_spec h he hva) ?_ (fun _ _ h => Or.inl h)
      rintro _ m₃ (⟨hnone, _⟩ | ⟨t', q', hr⟩)
      · exact absurd (hq₀.symm.trans hnone) (by simp)
      · have hpl := hr.placed h he
        have hsole : ∀ r : Ref, r.sole → m₃.refers sp r = m₂.refers sp r :=
          fun r hs => hr.sole h he hs
        have hd : m₃.pde d (pdx va) ≠ none := by
          have hpde := hsole (.pde e (pdx va)) trivial
          simp only [Mem.refers, he, Option.bind_some] at hpde
          rw [hpde, ht]
          simp
        have hwalked : ∀ q, ¬ m₂.Walked sp q → ¬ m₃.Walked sp q := by
          intro q hq
          rw [walked_iff] at hq ⊢
          rintro ⟨r, hr', hrq⟩
          exact hq ⟨r, hr', (hsole r hr').symm.trans hrq⟩
        refine wp_mono (pageInsertNew_data hpl.inv he hva) ?_ ?_
        · intro _ m₄ hphys q hq hfree
          rw [hphys q (hwalked q hq) (Or.inr hd), hpl.data q hq hfree]
        · refine fun err m₄ => Or.imp_right fun hphys q hq hfree => ?_
          rw [congrFun hphys q, hpl.data q hq hfree]
    case isFalse =>
      rw [wp_bind, wp_tlbInvalidate, wp_writePte]
      intro q hq _
      refine store_of_ne (m := m₂.flush asid va) ?_
      rintro rfl
      exact hq (walked_table he ht)

theorem pageInsert_spares (h : MemInv pool base sp m) (he : sp e = some d) (hva : pdx va < pdx utop)
    (hp : Held pool sp m p) (hw : ppn (pteWord p perm) = p)
    (hroom : (m.ppRef p).toNat = 65535 → m.pte d (pdx va) (ptx va) = some p) :
    wp (pageInsert d asid p va perm) (fun _ m' => Spares pool sp e m m')
      (fun err m' => BadAddress err ∨ Spares pool sp e m m') m := by
  refine wp_mono (wp_and (pageInsert_spec h he hva hp) (pageInsert_data h he hva)) ?_ ?_
  · rintro _ m' ⟨hins, hdata⟩
    rcases hins.effect hw with hch | ⟨hmax, hne, -⟩
    · exact .of_data h (hch (fun _ _ _ => True) True trivial).apart hdata
    · exact absurd (hroom hmax) hne
  · rintro err m' ⟨⟨-, hch⟩ | hbad, hdata⟩
    · exact hdata.imp_right (.of_data h (hch (fun _ _ _ => True) True).apart)
    · exact Or.inl hbad

/-! ## Page faults -/

theorem insertWindow_data (h : MemInv pool base sp m) (he : sp e = some d) (hva : pdx va = pdx uvpt) :
    wp (pageInsertNew d asid p va perm) (fun _ m' => ∀ q, q ≠ d → m'.phys q = m.phys q)
      (fun _ _ => True) m := by
  have hself := entry_some.mp (entry_selfMap h he)
  unfold pageInsertNew
  rw [wp_bind, wp_tlbInvalidate]
  unfold pgdirWalk
  simp only [wp_bind, wp_readPte, hva, Mem.flush_phys, if_pos hself.1]
  refine wp_mono (pteOf_spec _ d va) ?_ (fun _ _ _ => trivial)
  rintro r m₁ ⟨rfl, rfl⟩
  rw [hva, Mem.flush_phys, hself.2]
  simp only [wp_bind, wp_modify, wp_writePte]
  exact fun q hq => store_of_ne hq

theorem passiveAlloc_data (h : MemInv pool base sp m) (he : sp e = some d)
    (hl : m.lookup d va = none) :
    wp (passiveAlloc va d asid) (fun _ m' => SameData sp m m') (fun _ _ => True) m := by
  unfold passiveAlloc panicOn
  simp only [wp_bind, wp_ite, wp_throw, Lib.wp_mapStop, implies_true, true_and]
  intro _ _ h1 h2 h3
  refine wp_mono (pageAlloc_spec h) ?_ (fun _ _ _ => trivial)
  rintro p m₁ ⟨rest, hfree, rfl⟩
  have h₁ := h.taken hfree
  have hsame := h.same_taken hfree
  have hl₁ : (m.taken p rest).lookup d (pteAddr va) = none := by
    rw [lookup_pteAddr, lookup_congr h he hsame, hl]
  have hwalked : ∀ q, ¬ m.Walked sp q → ¬ (m.taken p rest).Walked sp q := by
    intro q hq
    rwa [walked_iff, refers_congr hsame.walked, ← walked_iff]
  have htaken : ∀ q, q ∉ m.pageFreeList → q ∉ rest ∧ (m.taken p rest).phys q = m.phys q := by
    intro q hq
    rw [hfree, List.mem_cons, not_or] at hq
    exact ⟨hq.2, Function.update_of_ne hq.1 _ _⟩
  refine pageInsert_none hl₁ (fun _ _ => trivial) ?_
  rcases passive_cases h1 h2 h3 with hva | ⟨hva, -, -⟩
  · refine wp_mono (pageInsertNew_data h₁ he (by rwa [pdx_pteAddr])) ?_ (fun _ _ _ => trivial)
    intro _ m' hphys q hq hqfree
    obtain ⟨hrest, hq₁⟩ := htaken q hqfree
    exact (hphys q (hwalked q hq) (Or.inl hrest)).trans hq₁
  · refine wp_mono (insertWindow_data h₁ he (by rwa [pdx_pteAddr])) ?_ (fun _ _ _ => trivial)
    intro _ m' hphys q hq hqfree
    refine (hphys q ?_).trans (htaken q hqfree).2
    rintro rfl
    exact hq (walked_dir he)

theorem refillLoop_spares (he : sp e = some d) (n : Nat) (h : MemInv pool base sp m) :
    wp (refillLoop d asid va n) (fun _ m' => Spares pool sp e m m') (fun _ _ => True) m := by
  induction n generalizing m with
  | zero => exact (wp_throw _).mpr trivial
  | succ n ih =>
    unfold refillLoop
    rw [wp_bind]
    refine wp_mono (pageLookup_spec m d va) ?_ (fun _ _ _ => trivial)
    rintro r m₁ ⟨hm, rfl⟩
    subst hm
    cases hl : m₁.lookup d va with
    | some r => exact (wp_pure _).mpr .refl
    | none =>
      rw [wp_bind]
      have hupper : uvpt ≤ va → va < ulim → pdx utop ≤ ptx va → True := fun _ _ _ => trivial
      refine wp_mono (wp_and (passiveAlloc_spec (W := fun _ _ _ => True) h he hl (fun _ _ _ => trivial)
        hupper) (passiveAlloc_data h he hl)) ?_ (fun _ _ _ => trivial)
      rintro _ m₂ ⟨⟨hch, -⟩, hdata⟩
      exact wp_mono (ih hch.inv) (fun _ _ hs => (Spares.of_data h hch.apart hdata).trans hs)
        (fun _ _ h => h)

theorem doTlbRefill_spares (h : MemInv pool base sp m) (he : sp e = some d) :
    wp (doTlbRefill d va asid) (fun _ m' => Spares pool sp e m m') (fun _ _ => True) m := by
  have hflush : MemInv pool base sp (m.flush asid va) :=
    h.congr ⟨rfl, fun _ _ => rfl, fun _ _ => rfl⟩ rfl rfl
  unfold doTlbRefill
  rw [wp_bind, wp_tlbInvalidate, wp_bind]
  refine wp_mono (refillLoop_spares he 2 hflush) ?_ (fun _ _ h => h)
  rintro ⟨pt, i⟩ m₁ hs
  simp only [wp_bind, wp_readPte, wp_modify]
  have hfirst : Spares pool sp e m (m.flush asid va) := .of_phys rfl
  exact (hfirst.trans hs).trans (.of_phys rfl)

/-- A page that `e` may write is one that a page table of `e` maps. -/
theorem writable_mapped (h : MemInv pool base sp m) (he : sp e = some d) :
    wp (writable d va) (fun r m' => m' = m ∧ ∀ p, r = some p → ∃ i j, m.pte d i j = some p)
      (fun _ _ => True) m := by
  unfold writable
  rw [wp_bind]
  refine wp_mono (pageLookup_spec m d va) ?_ (fun _ _ _ => trivial)
  rintro r m₁ ⟨hm, rfl⟩
  subst hm
  cases hl : m₁.lookup d va with
  | none => exact (wp_pure _).mpr ⟨rfl, fun p hp => by cases hp⟩
  | some r =>
    obtain ⟨p, x⟩ := r
    simp only [wp_bind, wp_readPte]
    rw [wp_pure]
    refine ⟨rfl, fun p' hp' => ?_⟩
    split at hp'
    case isFalse => cases hp'
    case isTrue hD =>
      obtain rfl : p = p' := Option.some.inj hp'
      obtain ⟨y, hwalk, hmap⟩ := Option.bind_eq_some_iff.mp hl
      obtain ⟨p', hp, hpair⟩ := Option.map_eq_some_iff.mp hmap
      obtain ⟨rfl, rfl⟩ := Prod.mk.inj hpair
      obtain ⟨t, ht, rfl⟩ := Option.map_eq_some_iff.mp hwalk
      -- the directory itself is read-only
      have hi : pdx va ≠ pdx uvpt := by
        intro hi
        rw [hi, entry_selfMap h he] at ht
        obtain rfl : d = t := Option.some.inj ht
        exact absurd hD (by simp [h.dirReadOnly e d _ he])
      refine ⟨pdx va, ptx va, ?_⟩
      rw [Mem.pte, pde_some.mpr ⟨hi, ht⟩, Option.bind_some]
      exact hp

/-! ## The start and the end of an address space -/

theorem newDir_spares {rest : List Nat} (h : MemInv pool base sp m)
    (hfree : m.pageFreeList = p :: rest) : Spares pool sp e m ((m.taken p rest).newDir base p) := by
  have hfresh := h.fresh_taken hfree
  have hsame := same_newDir base hfresh
  refine (Spares.taken h hfree).trans ⟨.of_walked hsame.walked, fun q hq => ?_⟩
  obtain ⟨hpool, x, d, i, j, -, hx, hpte⟩ := hq
  refine Function.update_of_ne ?_ _ _
  rintro rfl
  exact hfresh.unreferenced _ (MemInv.pte_refs hx hpte hpool)

theorem freeEntries_spares (h : MemInv pool base sp m) (he : sp e = some d) (hi : i < pdx utop) :
    wp ((List.finRange 1024).forM fun j => do
        if pteValid (← readPte (t, j)) then pageRemove d asid (pageVa i j))
      (fun _ m' => MemInv pool base sp m' ∧ Spares pool sp e m m') (fun err _ => BadAddress err) m := by
  refine wp_forM (I := fun m' => MemInv pool base sp m' ∧ Spares pool sp e m m')
    (fun j _ m₁ ⟨h₁, hs₁⟩ => ?_) ⟨h, .refl⟩
  have hva : pdx (pageVa i j) < pdx utop := by rwa [pdx_pageVa]
  rw [wp_bind, wp_readPte]
  split
  · refine wp_mono (wp_and (pageRemove_spec h₁ he hva) (pageRemove_spares h₁ he hva)) ?_
      (fun _ _ h => h.1)
    rintro _ m₂ ⟨hr, hs₂⟩
    refine ⟨?_, hs₁.trans hs₂⟩
    rcases hr with ⟨-, rfl⟩ | ⟨t', p, hr⟩
    · exact h₁
    · have hch : Change pool base sp e asid (fun _ _ _ => True) True m₁ m₂ := hr.change h₁ he
      exact hch.inv
  · exact (wp_pure _).mpr ⟨h₁, hs₁⟩

theorem pageDecref_phys (m : Mem) (p : Nat) :
    wp (pageDecref p) (fun _ m' => m'.phys = m.phys) (fun _ _ => True) m := by
  unfold pageDecref pageFree
  simp only [wp_bind, Lib.wp_get, wp_ite, wp_throw, wp_modify, implies_true, true_and, wp_pure]
  exact fun _ => ⟨fun _ _ => rfl, fun _ => rfl⟩

theorem envFreeTable_spares (h : MemInv pool base sp m) (he : sp e = some d) (hi : i < pdx utop) :
    wp (envFreeTable d asid i) (fun _ m' => MemInv pool base sp m' ∧ Spares pool sp e m m')
      (fun err _ => BadAddress err) m := by
  have hdata : wp (envFreeTable d asid i)
      (fun _ m' => ∀ p, Others pool sp e m p → m'.phys p = m.phys p) (fun _ _ => True) m := by
    unfold envFreeTable
    rw [wp_bind, wp_readPte]
    split
    · rw [wp_bind]
      refine wp_mono (kaddr_spec m _) ?_ (fun _ _ _ => trivial)
      rintro t m₁ ⟨hm, rfl⟩
      subst hm
      rw [wp_bind]
      refine wp_mono (freeEntries_spares h he hi) ?_ (fun _ _ _ => trivial)
      rintro _ m₂ ⟨h₂, hs₂⟩
      simp only [wp_bind, wp_writePte]
      refine wp_mono (pa2page_spec _ _) ?_ (fun _ _ _ => trivial)
      rintro pp m₃ ⟨hm, rfl⟩
      subst hm
      refine wp_mono (pageDecref_phys _ _) ?_ (fun _ _ _ => trivial)
      intro _ m₄ hphys
      rw [wp_tlbInvalidate]
      intro p hp
      refine (congrFun hphys p).trans ((store_of_ne ?_).trans (hs₂.data p hp))
      rintro rfl
      obtain ⟨hpool, x, d', i', j', hx, hd', hpte⟩ := hp
      exact h.data_not_walked hd' hpte hpool (walked_dir he)
    · exact (wp_pure _).mpr fun _ _ => rfl
  refine wp_mono (wp_and (envFreeTable_spec h he hi) hdata) ?_ (fun _ _ h => h.1)
  rintro _ m' ⟨⟨hch, -⟩, hd⟩
  exact ⟨hch.inv, hch.apart, hd⟩

/-- `env_free` -/
theorem envFreeVm_spares (h : MemInv pool base sp m) (he : sp e = some d) :
    wp (envFreeVm d asid) (fun _ m' => Spares pool sp e m m') (fun err _ => BadAddress err) m := by
  unfold envFreeVm
  rw [wp_bind]
  have hloop := wp_forM (I := fun m' => MemInv pool base sp m' ∧ Spares pool sp e m m')
    (E := fun err (_ : Mem) => BadAddress err) (f := envFreeTable d asid) (l := userPdes) (s := m)
    (fun i hmem m₁ hm₁ => ?_) ⟨h, .refl⟩
  · refine wp_mono hloop ?_ (fun _ _ h => h)
    rintro _ m₁ ⟨h₁, hs₁⟩
    rw [wp_bind]
    refine wp_mono (pa2page_spec m₁ _) ?_ (fun _ _ h => h.2)
    rintro pp m₂ ⟨hm, rfl⟩
    subst hm
    rw [ppn_page2pa (h.lt_two_pow (h.dir_pool e d he))]
    refine wp_mono (pageDecref_spec m₂ (h₁.ppRef_ne_zero (h₁.dir_refs he))) ?_ (fun _ _ h => h.elim)
    rintro _ m₃ rfl
    exact hs₁.trans (.of_phys rfl)
  · have hi : i < pdx utop := by simpa [userPdes] using hmem
    refine wp_mono (envFreeTable_spares hm₁.1 he hi) ?_ (fun _ _ h => h)
    exact fun _ m₂ h₂ => ⟨h₂.1, hm₁.2.trans h₂.2⟩

end Mos
