import Mos.Kern.Slots
import Mos.Mem.PageSpecs

/-!
# The address spaces of the environments

`env_setup_vm` and `load_icode` build an address space, `env_free` takes it down,
and every system call works on at most one.
-/

namespace Mos

open Lib (Heap wp wp_bind wp_get wp_modify wp_pure wp_throw wp_ite wp_mono)

variable {pool : Finset Nat} {base : Nat} {sp : Spaces} {m m' m₁ : Mem} {e : EnvIx} {d t p q : Nat}
  {i j : WordIx} {w va perm : Word} {asid : Nat} {G : Nat → Prop} {upper : Prop}

/-! ## The end of an address space -/

/-- A page table of `d` keeps its place, and no entry has come into any. -/
structure Shrunk (d : Nat) (m m' : Mem) : Prop where
  pde : ∀ i, m'.pde d i = none ∨ m'.pde d i = m.pde d i
  pte : ∀ i j, m'.pte d i j = none ∨ m'.pte d i j = m.pte d i j

namespace Shrunk

theorem refl : Shrunk d m m := ⟨fun _ => Or.inr rfl, fun _ _ => Or.inr rfl⟩

theorem trans (h : Shrunk d m m₁) (h' : Shrunk d m₁ m') : Shrunk d m m' where
  pde i := (h'.pde i).elim Or.inl fun h₁ => by
    rw [h₁]
    exact h.pde i
  pte i j := (h'.pte i j).elim Or.inl fun h₁ => by
    rw [h₁]
    exact h.pte i j

theorem pde_none (h : Shrunk d m m') (hn : m.pde d i = none) : m'.pde d i = none := by
  rcases h.pde i with hi | hi
  · exact hi
  · rw [hi, hn]

theorem pte_none (h : Shrunk d m m') (hn : m.pte d i j = none) : m'.pte d i j = none := by
  rcases h.pte i j with hij | hij
  · exact hij
  · rw [hij, hn]

end Shrunk

theorem Removed.shrunk (h : MemInv pool base sp m) (he : sp e = some d)
    (hr : Removed pool d asid va m m' t p) :
    Shrunk d m m' ∧ ∀ i, m'.pde d i = m.pde d i := by
  obtain ⟨ht, htm, hp, hpm, rfl⟩ := hr
  have hd : (((m.decref p).store t (ptx va) 0).flush asid va).phys d = m.phys d :=
    store_of_ne (m := m.decref p) (h.table_ne_dir he ht he).symm
  have hpde : ∀ i, (((m.decref p).store t (ptx va) 0).flush asid va).pde d i = m.pde d i :=
    fun i => pde_congr hd i
  refine ⟨⟨fun i => Or.inr (hpde i), fun i j => ?_⟩, hpde⟩
  have hrefers := h.refers_unlink_pte (p := p) (j := ptx va) he ht htm
  have hij := congrFun hrefers (.pte e i j)
  have hleft : ((m.decref p).store t (ptx va) 0).refers sp (.pte e i j) =
      (((m.decref p).store t (ptx va) 0).flush asid va).pte d i j := by
    simp only [Mem.refers, he, Option.bind_some]
    rfl
  rw [hleft] at hij
  rw [hij]
  by_cases hsame : Ref.pte e i j = .pte e (pdx va) (ptx va)
  · rw [hsame, Function.update_self]
    exact Or.inl rfl
  · rw [Function.update_of_ne hsame]
    right
    simp [Mem.refers, he]

/-- The inner loop of `env_free` empties a page table. -/
theorem freeEntries_spec (h : MemInv pool base sp m) (he : sp e = some d) (hi : i < pdx utop)
    (ht : m.pde d i = some t) :
    wp ((List.finRange 1024).forM fun j => do
        if pteValid (← readPte (t, j)) then pageRemove d asid (pageVa i j))
      (fun _ m' => Change pool base sp e asid (fun _ _ _ => False) False m m' ∧ Shrunk d m m' ∧ m'.pde d i = some t ∧
        ∀ j, entry (m'.phys t j) = none)
      (fun err _ => BadAddress err) m := by
  have hva : ∀ j, pdx (pageVa i j) < pdx utop := fun j => by rwa [pdx_pageVa]
  have hloop := Lib.wp_forM_suffix (E := fun err (_ : Mem) => BadAddress err)
    (I := fun (l : List WordIx) m' => Change pool base sp e asid (fun _ _ _ => False) False m m' ∧ Shrunk d m m' ∧
      m'.pde d i = some t ∧ ∀ j, j ∉ l → entry (m'.phys t j) = none)
    (f := fun j => do if pteValid (← readPte (t, j)) then pageRemove d asid (pageVa i j))
    (l := List.finRange 1024) ?_ (s := m) ⟨.refl h, .refl, ht, fun j hj => absurd (List.mem_finRange j) hj⟩
  · exact wp_mono hloop (fun _ m' ⟨hch, hsh, ht', hall⟩ => ⟨hch, hsh, ht', fun j => hall j (by simp)⟩)
      (fun _ _ h => h)
  · rintro j r - m₁ ⟨hch, hsh, ht₁, hall⟩
    have hentry : m₁.pte d i j = entry (m₁.phys t j) := by rw [Mem.pte, ht₁, Option.bind_some]
    rw [wp_bind, wp_readPte]
    split
    case isTrue hv =>
      refine wp_mono (pageRemove_spec hch.inv he (hva j)) ?_ (fun _ _ h => h)
      rintro _ m₂ (⟨hnone, _⟩ | ⟨t', p, hr⟩)
      · rw [pdx_pageVa, ptx_pageVa, hentry, entry_none] at hnone
        exact absurd (hnone.symm.trans hv) (by simp)
      · obtain ⟨hsh₂, hpde₂⟩ := hr.shrunk hch.inv he
        have ht₂ : m₂.pde d i = some t := (hpde₂ i).trans ht₁
        have hempty := hr.empty hch.inv he
        rw [pdx_pageVa, ptx_pageVa, Mem.pte, ht₂, Option.bind_some] at hempty
        refine ⟨hch.trans (hr.change hch.inv he), hsh.trans hsh₂, ht₂, fun j' hj' => ?_⟩
        by_cases hjj : j' = j
        · rw [hjj]
          exact hempty
        · have hnone := hsh₂.pte_none (i := i) (j := j') (by
            rw [Mem.pte, ht₁, Option.bind_some]
            exact hall j' (by simp [hjj, hj']))
          rwa [Mem.pte, ht₂, Option.bind_some] at hnone
    case isFalse hv =>
      rw [wp_pure]
      refine ⟨hch, hsh, ht₁, fun j' hj' => ?_⟩
      by_cases hjj : j' = j
      · rw [hjj]
        exact entry_none.mpr (by simpa using hv)
      · exact hall j' (by simp [hjj, hj'])

theorem shrunk_of_refers {r : Ref} (he : sp e = some d)
    (hr : m'.refers sp = Function.update (m.refers sp) r none) : Shrunk d m m' := by
  have hone : ∀ r', m'.refers sp r' = none ∨ m'.refers sp r' = m.refers sp r' := by
    intro r'
    rw [hr]
    rcases eq_or_ne r' r with rfl | hne
    · rw [Function.update_self]
      exact Or.inl rfl
    · rw [Function.update_of_ne hne]
      exact Or.inr rfl
  refine ⟨fun i => ?_, fun i j => ?_⟩
  · simpa [Mem.refers, he] using hone (.pde e i)
  · simpa [Mem.refers, he] using hone (.pte e i j)

/-- One turn of the outer loop: the page table goes. -/
theorem envFreeTable_spec (h : MemInv pool base sp m) (he : sp e = some d) (hi : i < pdx utop) :
    wp (envFreeTable d asid i)
      (fun _ m' => Change pool base sp e asid (fun _ _ _ => False) False m m' ∧ Shrunk d m m' ∧ m'.pde d i = none)
      (fun err _ => BadAddress err) m := by
  have hiu : i ≠ pdx uvpt := by
    rintro rfl
    exact absurd hi (by decide)
  unfold envFreeTable
  rw [wp_bind, wp_readPte]
  split
  case isTrue hv =>
    have ht : m.pde d i = some (ppn (m.phys d i)) := pde_some.mpr ⟨hiu, entry_some.mpr ⟨hv, rfl⟩⟩
    rw [wp_bind]
    refine wp_mono (kaddr_spec m _) ?_ (fun _ _ h => h.2)
    rintro t m₁ ⟨hm, rfl⟩
    subst hm
    rw [ppn_pteAddr]
    rw [wp_bind]
    refine wp_mono (freeEntries_spec h he hi ht) ?_ (fun _ _ h => h)
    rintro _ m₂ ⟨hch, hsh, ht₂, hzero⟩
    have hpool := (hch.inv.own_table he ht₂ hi).mem
    simp only [wp_bind, wp_writePte]
    refine wp_mono (pa2page_spec _ _) ?_ (fun _ _ h => h.2)
    rintro pp m₃ ⟨hm, rfl⟩
    subst hm
    rw [ppn_pteAddr]
    have hpos : m₂.ppRef (ppn (m₁.phys d i)) ≠ 0 :=
      hch.inv.ppRef_ne_zero (MemInv.pde_refs he ht₂ hpool)
    refine wp_mono (pageDecref_spec (m₂.store d i 0) hpos) ?_ (fun _ _ h => h.elim)
    rintro _ m₄ rfl
    rw [wp_tlbInvalidate]
    have hrefers := hch.inv.refers_unlink_pde he ht₂ hzero
    refine ⟨(hch.trans (.unlink_pde hch.inv he ht₂ hpool hi hzero)).flush _, ?_, ?_⟩
    · exact hsh.trans (shrunk_of_refers he hrefers)
    · have hgone := congrFun hrefers (.pde e i)
      rw [Function.update_self, Mem.refers, he, Option.bind_some] at hgone
      exact hgone
  case isFalse hv =>
    rw [wp_pure]
    refine ⟨.refl h, .refl, ?_⟩
    unfold Mem.pde
    rw [if_neg hiu]
    exact entry_none.mpr (by simpa using hv)

/-- What is left of the address space of `e` after `env_free`: none of its user pages is in the TLB. -/
structure Freed (pool : Finset Nat) (base : Nat) (sp : Spaces) (e : EnvIx) (asid : Nat) (m m' : Mem) :
    Prop where
  inv : MemInv pool base (Function.update sp e none) m'
  apart : Apart sp e m m'
  flushed : ∀ x ∈ m'.tlb, x ∈ m.tlb ∧ ∀ d i j, sp e = some d → i < pdx utop → m.mapped d i j ≠ none →
    x.matches (entryHi asid (pageVa i j)) = false
  exact : (∀ d i t, sp e = some d → pdx utop ≤ i → m.pde d i = some t → t ∉ pool) →
    (m.heap pool sp).Exact (· ∈ pool) →
    (m'.heap pool (Function.update sp e none)).Exact (· ∈ pool)

theorem envFreeVm_spec (h : MemInv pool base sp m) (he : sp e = some d) :
    wp (envFreeVm d asid) (fun _ m' => Freed pool base sp e asid m m')
      (fun err _ => BadAddress err) m := by
  have hmem : ∀ {i}, i ∈ userPdes ↔ i < pdx utop := by
    intro i
    simp [userPdes]
  unfold envFreeVm
  rw [wp_bind]
  have hloop := Lib.wp_forM_suffix (E := fun err (_ : Mem) => BadAddress err)
    (I := fun (l : List WordIx) m' => Change pool base sp e asid (fun _ _ _ => False) False m m' ∧
      Shrunk d m m' ∧ ∀ i, i < pdx utop → i ∉ l → m'.pde d i = none)
    (f := envFreeTable d asid) (l := userPdes) ?_ (s := m)
    ⟨.refl h, .refl, fun i hi hn => absurd (hmem.mpr hi) hn⟩
  · refine wp_mono hloop ?_ (fun _ _ h => h)
    rintro _ m₁ ⟨hch, hsh, hall⟩
    have hd := h.lt_two_pow (h.dir_pool e d he)
    rw [wp_bind]
    refine wp_mono (pa2page_spec m₁ _) ?_ (fun _ _ h => h.2)
    rintro pp m₂ ⟨hm, rfl⟩
    subst hm
    rw [ppn_page2pa hd]
    refine wp_mono (pageDecref_spec m₂ (hch.inv.ppRef_ne_zero (hch.inv.dir_refs he))) ?_
      (fun _ _ h => h.elim)
    rintro _ m₃ rfl
    have hempty : ∀ i, i < pdx utop → m₂.pde d i = none := fun i hi => hall i hi (by simp)
    refine ⟨hch.inv.drop he hempty, ?_, fun x hx => ?_, fun hupper hx => ?_⟩
    · exact hch.apart.trans fun _ _ _ _ => ⟨rfl, fun _ _ _ => rfl⟩
    · obtain ⟨hx₀, hflushed⟩ := hch.flushed x hx
      refine ⟨hx₀, fun d' i j he' hi hne => hflushed d' i j he' ?_⟩
      obtain rfl : d = d' := Option.some.inj (he.symm.trans he')
      have hgone : m₂.mapped d i j = none := by
        rw [Mem.mapped, hempty i hi, Option.bind_none]
      rw [hgone]
      exact hne.symm
    · refine hch.inv.drop_exact he (fun i t ht => ?_) (hch.exact hx)
      rcases lt_or_ge i (pdx utop) with hi | hi
      · rw [hempty i hi] at ht
        cases ht
      · rcases hsh.pde i with hn | hs
        · exact absurd (hn.symm.trans ht) (by simp)
        · exact hupper d i t he hi (hs.symm.trans ht)
  · rintro i r hsuf m₁ ⟨hch, hsh, hall⟩
    have hi : i < pdx utop := hmem.mp (hsuf.subset List.mem_cons_self)
    refine wp_mono (envFreeTable_spec hch.inv he hi) ?_ (fun _ _ h => h)
    rintro _ m₂ ⟨hch₂, hsh₂, hgone⟩
    refine ⟨hch.trans hch₂, hsh.trans hsh₂, fun i' hi' hn => ?_⟩
    rcases eq_or_ne i' i with rfl | hne
    · exact hgone
    · exact hsh₂.pde_none (hall i' hi' (by simp [hne, hn]))

/-! ## The start of an address space -/

/-- The memory that `env_setup_vm` leaves. -/
def Mem.newDir (m : Mem) (base p : Nat) : Mem :=
  { m.incref p with phys := Function.update m.phys p (setupDir (m.phys base) (m.phys p) p) }

theorem newDir_phys : (m.newDir base p).phys p = setupDir (m.phys base) (m.phys p) p := by
  simp [Mem.newDir]

theorem same_newDir (base : Nat) (hp : Fresh pool sp m p) : SameTables pool sp m (m.newDir base p) :=
  .page hp.mem (MemInv.unreferenced_not_walked hp.mem hp.unreferenced) rfl rfl

/-- Entries of a new directory. -/
theorem newDir_entry (h : MemInv pool base sp m) (hp : Fresh pool sp m p) (i : WordIx) :
    (m.newDir base p).phys p i &&& pteD = 0 ∧ ∀ t, (m.newDir base p).pde p i = some t →
      pdx utop ≤ i ∧ SharedTable pool m t := by
  rw [newDir_phys]
  unfold setupDir
  by_cases hu : i = pdx uvpt
  · subst hu
    refine ⟨?_, fun t ht => absurd rfl (pde_some.mp ht).1⟩
    rw [if_pos rfl, BitVec.and_or_distrib_right, page2pa_low (by decide)]
    decide
  · rw [if_neg hu]
    have hphys : (m.newDir base p).phys p i =
        if pdx utop ≤ i ∧ i < pdx uvpt then m.phys base i else m.phys p i := by
      rw [newDir_phys, setupDir, if_neg hu]
    by_cases hr : pdx utop ≤ i ∧ i < pdx uvpt
    · rw [if_pos hr]
      refine ⟨h.baseReadOnly i hr.1 hr.2, fun t ht => ⟨hr.1, ?_⟩⟩
      have hentry := (pde_some.mp ht).2
      rw [hphys, if_pos hr] at hentry
      exact h.baseTable i t hr.1 hr.2 hentry
    · rw [if_neg hr, hp.zero]
      refine ⟨by decide, fun t ht => ?_⟩
      have hentry := (pde_some.mp ht).2
      rw [hphys, if_neg hr, hp.zero, entry_zero] at hentry
      cases hentry

theorem newDir_pte (h : MemInv pool base sp m) (hp : Fresh pool sp m p) (hq : q ∈ pool) :
    (m.newDir base p).pte p i j ≠ some q := by
  intro hpte
  obtain ⟨t, ht, hentry⟩ := Option.bind_eq_some_iff.mp hpte
  have hshared := ((newDir_entry h hp i).2 t ht).2
  rw [(same_newDir base hp).kernel t hshared.kernel] at hentry
  exact hshared.pages j q hentry hq

theorem refs_newDir (h : MemInv pool base sp m) (hp : Fresh pool sp m p) (hnone : sp e = none) :
    ((m.newDir base p).heap pool (Function.update sp e (some p))).refs =
      Function.update (m.heap pool sp).refs (.dir e) (some p) := by
  funext r
  rw [refs_eq]
  by_cases hr : r.owner = e
  · have hold : m.refers sp r = none := refers_gone (by rw [hr, hnone])
    cases r with
    | dir e' =>
      obtain rfl : e' = e := hr
      rw [Function.update_self]
      simp [Mem.refers, hp.mem]
    | pde e' i =>
      obtain rfl : e' = e := hr
      rw [Function.update_of_ne (by simp), refs_none hold]
      simp only [Mem.refers, Function.update_self, Option.bind_some, Option.filter_eq_none_iff]
      intro t ht
      have hkernel := ((newDir_entry h hp i).2 t ht).2.kernel
      simpa using hkernel
    | pte e' i j =>
      obtain rfl : e' = e := hr
      rw [Function.update_of_ne (by simp), refs_none hold]
      simp only [Mem.refers, Function.update_self, Option.bind_some, Option.filter_eq_none_iff]
      intro q hq hmem
      exact newDir_pte h hp (by simpa using hmem) hq
  · have hne : r ≠ .dir e := by
      rintro rfl
      exact hr rfl
    rw [Function.update_of_ne hne, refs_eq, ← refers_congr (same_newDir base hp).walked]
    congr 1
    exact refers_other rfl (Function.update_of_ne hr _ _)

theorem heap_newDir (h : MemInv pool base sp m) (hp : Fresh pool sp m p) (hnone : sp e = none) :
    (m.newDir base p).heap pool (Function.update sp e (some p)) =
      (m.heap pool sp).link (.dir e) p := by
  refine Heap.ext (refs_newDir h hp hnone) ?_ rfl
  refine cnt_incref rfl ?_
  rw [hp.ppRef]
  decide

/-- A new environment gets a directory. -/
theorem MemInv.newDir (h : MemInv pool base sp m) (hp : Fresh pool sp m p) (hnone : sp e = none) :
    MemInv pool base (Function.update sp e (some p)) (m.newDir base p) := by
  have hs : SameTables pool sp m (m.newDir base p) := same_newDir base hp
  have h' := h.toLayout.congr hs
  have hsp : ∀ e' d', Function.update sp e (some p) e' = some d' →
      d' = p ∨ sp e' = some d' := by
    intro e' d' he'
    rcases eq_or_ne e' e with rfl | hne
    · rw [Function.update_self] at he'
      exact Or.inl (Option.some.inj he').symm
    · rw [Function.update_of_ne hne] at he'
      exact Or.inr he'
  constructor
  · refine ⟨h'.npage_le, h'.pool_lt, fun e' d' he' => ?_, fun e' d' he' => ?_,
      fun e' d' i' he' => ?_, fun e' d' i' t' he' ht' => ?_, h'.base_kernel, h'.baseReadOnly,
      h'.baseTable⟩
    · rcases hsp e' d' he' with rfl | he''
      · exact hp.mem
      · exact h'.dir_pool e' d' he''
    · rcases hsp e' d' he' with rfl | he''
      · rw [newDir_phys, setupDir, if_pos rfl]
      · exact h'.selfMap e' d' he''
    · rcases hsp e' d' he' with rfl | he''
      · exact (newDir_entry h hp i').1
      · exact h'.dirReadOnly e' d' i' he''
    · rcases hsp e' d' he' with rfl | he''
      · obtain ⟨hi', hshared⟩ := (newDir_entry h hp i').2 t' ht'
        exact Or.inr ⟨hi', hshared.congr hs.kernel⟩
      · exact h'.table e' d' i' t' he'' ht'
  · rw [heap_newDir h hp hnone]
    refine h.counts.link (hp.held.canLink ?_ (Or.inr hp.unreferenced))
    exact refs_none (refers_gone hnone)

end Mos
