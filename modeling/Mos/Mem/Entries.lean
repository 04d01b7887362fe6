import Mos.Mem.Calls
import Mos.Mem.Exact
import Mos.Mem.Unspent

/-!
# The entries of all address spaces

`page_insert` and `page_remove` end with one store to a page table. Whether the counters are
right after it does not matter for the entries, as long as no page table is used twice.
-/

namespace Mos

open Lib (wp wp_bind wp_get wp_modify wp_pure wp_throw wp_ite wp_mono wp_and)

variable {pool : Finset Nat} {base : Nat} {sp : Spaces} {m m' m₁ : Mem} {e : EnvIx} {d t p : Nat}
  {i j : WordIx} {w va perm : Word} {asid : Nat} {o o' : Option Word}

/-- A page table below `UTOP` is at one place only, and it is no directory. -/
structure Distinct (sp : Spaces) (m : Mem) : Prop where
  dir : ∀ {e d i t e' d'}, sp e = some d → i < pdx utop → m.pde d i = some t → sp e' = some d' →
    t ≠ d'
  table : ∀ {e d i t e' d' i'}, sp e = some d → i < pdx utop → m.pde d i = some t →
    sp e' = some d' → m.pde d' i' = some t → e' = e ∧ i' = i

theorem MemInv.distinct (h : MemInv pool base sp m) : Distinct sp m where
  dir he _ ht he' := h.table_ne_dir he ht he'
  table he hi ht he' ht' := h.table_inj he ht (h.own_table he ht hi).mem he' ht'

/-- Of all valid entries the one of the page `(i, j)` in `e` has become `o`. -/
structure Sets (sp : Spaces) (e : EnvIx) (i j : WordIx) (o : Option Word) (m m' : Mem) : Prop where
  distinct : Distinct sp m'
  self : ∀ d, sp e = some d → m'.mapped d i j = o
  others : ∀ e' d' i' j', sp e' = some d' → ¬ (e' = e ∧ i' = i ∧ j' = j) →
    m'.mapped d' i' j' = m.mapped d' i' j'

theorem Sets.trans (h : Sets sp e i j o m m₁) (h' : Sets sp e i j o' m₁ m') :
    Sets sp e i j o' m m' where
  distinct := h'.distinct
  self := h'.self
  others e' d' i' j' he' hne := (h'.others e' d' i' j' he' hne).trans (h.others e' d' i' j' he' hne)

theorem Sets.of_same (h : Sets sp e i j o m₁ m')
    (hm : ∀ e' d' i' j', sp e' = some d' → m₁.mapped d' i' j' = m.mapped d' i' j') :
    Sets sp e i j o m m' where
  distinct := h.distinct
  self := h.self
  others e' d' i' j' he' hne := (h.others e' d' i' j' he' hne).trans (hm e' d' i' j' he')

/-- A store to a page table. -/
theorem Distinct.store (h : Distinct sp m) (he : sp e = some d) (hi : i < pdx utop)
    (ht : m.pde d i = some t) (hphys : m'.phys = (m.store t j w).phys) :
    Sets sp e i j (valid w) m m' := by
  have hdir : ∀ {e' d'}, sp e' = some d' → m'.phys d' = m.phys d' := fun he' => by
    rw [hphys]
    exact store_of_ne (h.dir he hi ht he').symm
  have hpde : ∀ {e' d'} (i'), sp e' = some d' → m'.pde d' i' = m.pde d' i' :=
    fun i' he' => pde_congr (hdir he') i'
  have hself : m'.phys t = Function.update (m.phys t) j w := by
    rw [hphys]
    exact store_self
  refine ⟨⟨?_, ?_⟩, ?_, ?_⟩
  · intro e₁ d₁ i₁ t₁ e₂ d₂ he₁ hi₁ ht₁ he₂
    rw [hpde _ he₁] at ht₁
    exact h.dir he₁ hi₁ ht₁ he₂
  · intro e₁ d₁ i₁ t₁ e₂ d₂ i₂ he₁ hi₁ ht₁ he₂ ht₂
    rw [hpde _ he₁] at ht₁
    rw [hpde _ he₂] at ht₂
    exact h.table he₁ hi₁ ht₁ he₂ ht₂
  · intro d' he'
    obtain rfl : d = d' := Option.some.inj (he.symm.trans he')
    rw [Mem.mapped, hpde _ he, ht, Option.bind_some, hself, Function.update_self]
  · intro e' d' i' j' he' hne
    unfold Mem.mapped
    rw [hpde _ he']
    cases ht' : m.pde d' i' with
    | none => rfl
    | some t' =>
      rw [Option.bind_some, Option.bind_some]
      by_cases htt : t' = t
      · subst htt
        obtain ⟨rfl, rfl⟩ := h.table he hi ht he' ht'
        rw [hself, Function.update_of_ne fun hj => hne ⟨rfl, rfl, hj⟩]
      · rw [hphys, store_of_ne htt]

theorem mapped_of_phys (h : m'.phys = m.phys) (d : Nat) (i j : WordIx) :
    m'.mapped d i j = m.mapped d i j := mapped_congr (by rw [h]) (fun _ _ _ => by rw [h]) i j

theorem Distinct.congr (h : Distinct sp m) (hphys : m'.phys = m.phys) : Distinct sp m' := by
  have hpde : ∀ d i, m'.pde d i = m.pde d i := fun d i => pde_congr (by rw [hphys]) i
  refine ⟨?_, ?_⟩
  · intro e d i t e' d' he hi ht he'
    rw [hpde] at ht
    exact h.dir he hi ht he'
  · intro e d i t e' d' i' he hi ht he' ht'
    rw [hpde] at ht ht'
    exact h.table he hi ht he' ht'

/-! ## `page_remove` -/

theorem mapped_walk (hva : pdx va < pdx utop) (hw : m.mapped d (pdx va) (ptx va) = some w) :
    ∃ t, m.pde d (pdx va) = some t ∧ m.walk d va = some (t, ptx va) ∧ m.phys t (ptx va) = w ∧
      pteValid w = true ∧ m.lookup d va = some (ppn w, t, ptx va) := by
  obtain ⟨t, ht, hvalid⟩ := Option.bind_eq_some_iff.mp hw
  obtain ⟨hv, rfl⟩ := valid_some.mp hvalid
  have hwalk : m.walk d va = some (t, ptx va) := by
    rw [Mem.walk, ← pde_user hva, ht]
    rfl
  refine ⟨t, ht, hwalk, rfl, hv, ?_⟩
  rw [Mem.lookup, hwalk, Option.bind_some, entry_some.mpr ⟨hv, rfl⟩]
  rfl

theorem lookup_mapped (hva : pdx va < pdx utop) :
    m.lookup d va = none ↔ m.mapped d (pdx va) (ptx va) = none := by
  rw [lookup_user_none hva, MemInv.mapped_none]

/-- `page_remove` leaves no entry, whatever it does to counters. -/
theorem pageRemove_sets (h : Distinct sp m) (he : sp e = some d) (hva : pdx va < pdx utop) :
    wp (pageRemove d asid va) (fun _ m' => Sets sp e (pdx va) (ptx va) none m m')
      (fun f _ => NoErrno f) m := by
  unfold pageRemove
  rw [wp_bind]
  refine wp_mono (pageLookup_spec m d va) ?_ fun _ _ h => h.2.noErrno
  rintro r m₁ ⟨hm, rfl⟩
  subst hm
  cases hw : m₁.mapped d (pdx va) (ptx va) with
  | none =>
    rw [(lookup_mapped hva).mpr hw]
    rw [wp_pure]
    refine ⟨h, fun d' he' => ?_, fun _ _ _ _ _ _ => rfl⟩
    obtain rfl : d = d' := Option.some.inj (he.symm.trans he')
    exact hw
  | some w =>
    obtain ⟨t, ht, -, -, -, hl⟩ := mapped_walk hva hw
    rw [hl]
    rw [wp_bind]
    refine wp_mono (pageDecref_exact m₁ _) (fun _ m₂ hdec => ?_) fun _ _ h => h.1
    rw [wp_bind, wp_writePte, wp_tlbInvalidate]
    have hphys : ((m₂.store t (ptx va) 0).flush asid va).phys = (m₁.store t (ptx va) 0).phys := by
      change (m₂.store t (ptx va) 0).phys = _
      rw [Mem.store, Mem.store, hdec.2.1]
    have hstore := h.store he hva ht hphys
    rwa [show valid 0 = none by decide] at hstore

/-! ## `page_insert` -/

/-- The page is there already, and the entry is written anew. -/
theorem pageInsert_again (h : Distinct sp m) (he : sp e = some d) (hva : pdx va < pdx utop)
    (hw : m.mapped d (pdx va) (ptx va) = some w) (hp : ppn w = p) :
    wp (pageInsert d asid p va perm)
      (fun _ m' => Sets sp e (pdx va) (ptx va) (some (pteWord p perm)) m m')
      (fun f _ => NoErrno f) m := by
  obtain ⟨t, ht, hwalk, hphys, hv, -⟩ := mapped_walk hva hw
  unfold pageInsert
  rw [wp_bind]
  refine wp_mono (pgdirWalk_spec m d va) ?_ fun _ _ h => h.2.noErrno
  rintro r m₁ ⟨hm, rfl⟩
  subst hm
  rw [hwalk]
  simp only [wp_bind, wp_readPte, hphys, if_pos hv]
  refine wp_mono (pa2page_spec m₁ _) ?_ fun _ _ h => h.2.noErrno
  rintro r m₂ ⟨hm, rfl⟩
  subst hm
  rw [if_neg (not_not.mpr hp), wp_bind, wp_tlbInvalidate, wp_writePte]
  have hstore : Sets sp e (pdx va) (ptx va) (valid (pteWord p perm)) m₂
      ((m₂.flush asid va).store t (ptx va) (pteWord p perm)) := h.store he hva ht rfl
  rwa [valid_some.mpr ⟨pteValid_pteWord p perm, rfl⟩] at hstore

theorem newTable_mapped {rest : List Nat} (h : MemInv pool base sp m) (he : sp e = some d)
    (hi : i ≠ pdx uvpt) (hempty : entry (m.phys d i) = none) (hfree : m.pageFreeList = t :: rest)
    {e' : EnvIx} {d' : Nat} (he' : sp e' = some d') (i' j' : WordIx) :
    (m.newTable d i t rest).mapped d' i' j' = m.mapped d' i' j' := by
  have hch : Change pool base sp e 0 (fun _ _ _ => False) True m (m.newTable d i t rest) :=
    .newTable h he hi hempty hfree fun _ => trivial
  rcases eq_or_ne e' e with rfl | hne
  · obtain rfl : d = d' := Option.some.inj (he.symm.trans he')
    have hrefers := newTable_refers (r := .pte e' i' j') h he hi hempty hfree (by simp)
    simp only [Mem.refers, he, Option.bind_some] at hrefers
    cases hw : (m.newTable d i t rest).mapped d i' j' with
    | none =>
      rw [MemInv.mapped_none, hrefers, ← MemInv.mapped_none] at hw
      exact hw.symm
    | some w => exact ((hch.entries d i' j' w he hw).resolve_right id).symm
  · exact hch.apart.mapped hne he' i' j'

theorem pageInsertNew_sets (h : MemInv pool base sp m) (he : sp e = some d) (hva : pdx va < pdx utop) :
    wp (pageInsertNew d asid p va perm)
      (fun _ m' => Sets sp e (pdx va) (ptx va) (some (pteWord p perm)) m m') (fun _ _ => True) m := by
  have hflush : MemInv pool base sp (m.flush asid va) := h.congr ⟨rfl, fun _ _ => rfl, fun _ _ => rfl⟩ rfl rfl
  have hvalid : valid (pteWord p perm) = some (pteWord p perm) :=
    valid_some.mpr ⟨pteValid_pteWord p perm, rfl⟩
  unfold pageInsertNew
  rw [wp_bind, wp_tlbInvalidate, wp_bind]
  refine wp_mono (walkCreate_cases hflush hva) ?_ fun _ _ _ => trivial
  rintro r m₁ ⟨t, rfl, ⟨rfl, ht⟩ | ⟨rest, hempty, hfree, rfl⟩⟩
  · simp only [wp_bind, wp_modify, wp_writePte]
    rw [← hvalid]
    exact h.distinct.store he hva ht rfl
  · simp only [wp_bind, wp_modify, wp_writePte]
    have hi := user_ne_uvpt hva
    have hch : Change pool base sp e asid (fun _ _ _ => True) True (m.flush asid va)
        ((m.flush asid va).newTable d (pdx va) t rest) :=
      .newTable hflush he hi hempty hfree fun _ => trivial
    have hnew := hch.inv
    have hready := tableReady_new hflush he hva hempty hfree
    have hstore : Sets sp e (pdx va) (ptx va) (valid (pteWord p perm)) _
        (((m.flush asid va).newTable d (pdx va) t rest |>.incref p).store t (ptx va) (pteWord p perm)) :=
      hnew.distinct.store he hva hready.table rfl
    rw [← hvalid]
    exact hstore.of_same fun e' d' i' j' he' => newTable_mapped hflush he hi hempty hfree he' i' j'

/-- `page_insert` -/
theorem pageInsert_sets (h : MemInv pool base sp m) (he : sp e = some d) (hva : pdx va < pdx utop) :
    wp (pageInsert d asid p va perm)
      (fun _ m' => Sets sp e (pdx va) (ptx va) (some (pteWord p perm)) m m') (fun _ _ => True) m := by
  cases hw : m.mapped d (pdx va) (ptx va) with
  | none =>
    exact pageInsert_none ((lookup_mapped hva).mpr hw) (fun _ _ => trivial) (pageInsertNew_sets h he hva)
  | some w =>
    by_cases hp : ppn w = p
    · exact wp_mono (pageInsert_again h.distinct he hva hw hp) (fun _ _ h => h) fun _ _ _ => trivial
    · obtain ⟨t, ht, hwalk, hphys, hv, -⟩ := mapped_walk hva hw
      unfold pageInsert
      rw [wp_bind]
      refine wp_mono (pgdirWalk_spec m d va) ?_ fun _ _ _ => trivial
      rintro r m₁ ⟨hm, rfl⟩
      subst hm
      rw [hwalk]
      simp only [wp_bind, wp_readPte, hphys, if_pos hv]
      refine wp_mono (pa2page_spec m₁ _) ?_ fun _ _ _ => trivial
      rintro r m₂ ⟨hm, rfl⟩
      subst hm
      rw [if_pos hp, wp_bind]
      refine wp_mono (wp_and (pageRemove_spec h he hva) (pageRemove_sets h.distinct he hva)) ?_
        fun _ _ _ => trivial
      rintro _ m₃ ⟨hr, hsets⟩
      have hinv : MemInv pool base sp m₃ := by
        rcases hr with ⟨-, rfl⟩ | ⟨t', q, hr⟩
        · exact h
        · exact (hr.placed h he).inv
      exact wp_mono (pageInsertNew_sets hinv he hva) (fun _ _ h => hsets.trans h) fun _ _ _ => trivial

end Mos
