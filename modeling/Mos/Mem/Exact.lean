import Mos.Mem.PageSpecs

/-!
# The pages that an address space shows

`page_insert` and `page_remove` change what one address shows, and nothing else.
-/

namespace Mos

open Lib (wp wp_bind wp_modify wp_pure wp_throw wp_mono wp_and)

variable {pool : Finset Nat} {base : Nat} {sp : Spaces} {m m' m₁ : Mem} {e : EnvIx} {d t p q : Nat}
  {i j : WordIx} {va perm : Word} {asid : Nat} {r : Ref} {o o' : Option Nat}

/-- Among the entries of page tables only `r` has changed, and no page of data has. -/
structure Placed (pool : Finset Nat) (base : Nat) (sp : Spaces) (r : Ref) (o : Option Nat)
    (m m' : Mem) : Prop where
  inv : MemInv pool base sp m'
  entry : ∀ e i j, m'.refers sp (.pte e i j) = Function.update (m.refers sp) r o (.pte e i j)
  data : ∀ q, ¬ m.Walked sp q → q ∉ m.pageFreeList → m'.phys q = m.phys q

theorem held_not_walked (h : MemInv pool base sp m) (hp : Held pool sp m p) : ¬ m.Walked sp p := by
  rintro ⟨e', d', he', rfl | ⟨i', ht⟩⟩
  · exact hp.shared (.dir e') (h.dir_refs he') trivial
  · exact hp.shared (.pde e' i') (MemInv.pde_refs he' ht hp.used) trivial

theorem Placed.held (h : MemInv pool base sp m) (hpl : Placed pool base sp r o m m')
    (hp : Held pool sp m p) : m'.phys p = m.phys p :=
  hpl.data p (held_not_walked h hp) hp.not_free

theorem walked_iff : m.Walked sp q ↔ ∃ r : Ref, r.sole ∧ m.refers sp r = some q := by
  constructor
  · rintro ⟨e, d, he, rfl | ⟨i, ht⟩⟩
    · exact ⟨.dir e, trivial, he⟩
    · exact ⟨.pde e i, trivial, by simp [Mem.refers, he, ht]⟩
  · rintro ⟨r, hr, hq⟩
    cases r with
    | dir e => exact walked_dir hq
    | pde e i =>
      obtain ⟨d, he, ht⟩ := Option.bind_eq_some_iff.mp hq
      exact walked_table he ht
    | pte e i j => exact hr.elim

/-- `pgdir_walk` finds the page table or makes it from the first free page. -/
theorem walkCreate_cases (h : MemInv pool base sp m) (hva : pdx va < pdx utop) :
    wp (pgdirWalk d va true) (fun r m' => ∃ t, r = some (t, ptx va) ∧
      ((m' = m ∧ m.pde d (pdx va) = some t) ∨ ∃ rest, entry (m.phys d (pdx va)) = none ∧
        m.pageFreeList = t :: rest ∧ m' = m.newTable d (pdx va) t rest)) (fun _ _ => True) m := by
  unfold pgdirWalk
  rw [wp_bind, wp_readPte]
  split
  case isTrue hv =>
    refine wp_mono (pteOf_spec m d va) ?_ (fun _ _ _ => trivial)
    rintro r m' ⟨rfl, rfl⟩
    refine ⟨_, rfl, Or.inl ⟨rfl, ?_⟩⟩
    rw [pde_user hva]
    exact entry_some.mpr ⟨hv, rfl⟩
  case isFalse hv =>
    have hempty : entry (m.phys d (pdx va)) = none := entry_none.mpr (by simpa using hv)
    rw [if_pos rfl, wp_bind]
    refine wp_mono (pageAlloc_spec h) ?_ (fun _ _ _ => trivial)
    rintro t m₁ ⟨rest, hfree, rfl⟩
    have hset : (m.taken t rest).setRef t 1 = (m.taken t rest).incref t := by
      have h0 := (h.fresh_taken hfree).ppRef
      simp only [Mem.setRef, Mem.incref, h0]
      rfl
    simp only [wp_bind, wp_modify, wp_writePte, hset]
    refine wp_mono (pteOf_spec _ d va) ?_ (fun _ _ _ => trivial)
    rintro r m' ⟨rfl, rfl⟩
    have hppn := (entry_some.mp (entry_tableWord (h.lt_two_pow (h.fresh_taken hfree).mem))).2
    have hself : (((m.taken t rest).incref t).store d (pdx va) (tableWord t)).phys d (pdx va) =
        tableWord t := by simp
    refine ⟨t, ?_, Or.inr ⟨rest, hempty, hfree, rfl⟩⟩
    exact congrArg (fun f => some (f, ptx va)) ((congrArg ppn hself).trans hppn)

theorem newTable_refers {rest : List Nat} (h : MemInv pool base sp m) (he : sp e = some d)
    (hi : i ≠ pdx uvpt) (hempty : entry (m.phys d i) = none) (hfree : m.pageFreeList = t :: rest)
    (hr : r ≠ .pde e i) : (m.newTable d i t rest).refers sp r = m.refers sp r := by
  have hfresh := h.fresh_taken hfree
  have hentry := entry_tableWord (h.lt_two_pow hfresh.mem)
  have hlink := (h.taken hfree).refers_link_pde he hi (by rwa [h.taken_dir he hfree]) hfresh hentry
  unfold Mem.newTable
  rw [hlink, Function.update_of_ne hr, refers_congr (h.same_taken hfree).walked]

/-- The step of `page_insert` at an address that maps nothing. -/
theorem pageInsertNew_exact (h : MemInv pool base sp m) (he : sp e = some d)
    (hva : pdx va < pdx utop) (hw : entry (pteWord p perm) = some p) :
    wp (pageInsertNew d asid p va perm)
      (fun _ m' => (∀ e' i j, m'.refers sp (.pte e' i j) =
          Function.update (m.refers sp) (.pte e (pdx va) (ptx va)) (some p) (.pte e' i j)) ∧
        ∀ q, ¬ m.Walked sp q → q ∉ m.pageFreeList ∨ m.pde d (pdx va) ≠ none → m'.phys q = m.phys q)
      (fun _ _ => True) m := by
  have hflush : MemInv pool base sp (m.flush asid va) :=
    h.congr ⟨rfl, fun _ _ => rfl, fun _ _ => rfl⟩ rfl rfl
  unfold pageInsertNew
  rw [wp_bind, wp_tlbInvalidate, wp_bind]
  refine wp_mono (walkCreate_cases hflush hva) ?_ (fun _ _ h => h)
  rintro r m₁ ⟨t, rfl, ⟨rfl, ht⟩ | ⟨rest, hempty, hfree, rfl⟩⟩
  · simp only [wp_bind, wp_modify, wp_writePte]
    have htm := (hflush.own_table he ht hva).mem
    refine ⟨fun e' i j => ?_, fun q hq _ => store_of_ne ?_⟩
    · exact congrFun (hflush.refers_link_pte he ht htm hw) (.pte e' i j)
    · rintro rfl
      exact hq (walked_table he ht)
  · simp only [wp_bind, wp_modify, wp_writePte]
    have hi := user_ne_uvpt hva
    have hch : Change pool base sp e asid (fun _ _ _ => True) True (m.flush asid va)
        ((m.flush asid va).newTable d (pdx va) t rest) :=
      .newTable hflush he hi hempty hfree fun _ => trivial
    have hnew := hch.inv
    have hready := tableReady_new hflush he hva hempty hfree
    have htm := (hnew.own_table he hready.table hva).mem
    refine ⟨fun e' i j => ?_, fun q hq hfresh => ?_⟩
    · have hlink := congrFun (hnew.refers_link_pte (j := ptx va) he hready.table htm hw)
        (.pte e' i j)
      refine hlink.trans ?_
      by_cases hr : Ref.pte e' i j = .pte e (pdx va) (ptx va)
      · rw [hr, Function.update_self, Function.update_self]
      · rw [Function.update_of_ne hr, Function.update_of_ne hr,
          newTable_refers hflush he hi hempty hfree (by simp)]
        rfl
    · have hqt : q ≠ t := by
        rintro rfl
        rcases hfresh with hfresh | hpde
        · refine hfresh ?_
          have hfree' : m.pageFreeList = q :: rest := hfree
          rw [hfree']
          exact List.mem_cons_self
        · exact hpde ((pde_user hva).trans hempty)
      have hqd : q ≠ d := by
        rintro rfl
        exact hq (walked_dir he)
      refine (store_of_ne hqt).trans ((store_of_ne hqd).trans ?_)
      exact Function.update_of_ne hqt _ _

theorem Removed.sole (h : MemInv pool base sp m) (he : sp e = some d)
    (hr : Removed pool d asid va m m' t p) (hs : r.sole) : m'.refers sp r = m.refers sp r := by
  obtain ⟨ht, htm, hp, hpm, rfl⟩ := hr
  have hrefers := congrFun (h.refers_unlink_pte (p := p) (j := ptx va) he ht htm) r
  rw [Function.update_of_ne (by rintro rfl; exact hs)] at hrefers
  exact hrefers

theorem Removed.placed (h : MemInv pool base sp m) (he : sp e = some d)
    (hr : Removed pool d asid va m m' t p) :
    Placed pool base sp (.pte e (pdx va) (ptx va)) none m m' := by
  have hch : Change pool base sp e asid (fun _ _ _ => True) True m m' := hr.change h he
  refine ⟨hch.inv, fun e' i j => ?_, fun q hq _ => ?_⟩
  · obtain ⟨ht, htm, hp, hpm, rfl⟩ := hr
    exact congrFun (h.refers_unlink_pte he ht htm) (.pte e' i j)
  · obtain ⟨ht, htm, hp, hpm, rfl⟩ := hr
    refine store_of_ne (m := m.decref p) ?_
    rintro rfl
    exact hq (walked_table he ht)

theorem pageRemove_placed (h : MemInv pool base sp m) (he : sp e = some d)
    (hva : pdx va < pdx utop) : wp (pageRemove d asid va)
    (fun _ m' => Placed pool base sp (.pte e (pdx va) (ptx va)) none m m') (fun _ _ => True) m := by
  refine wp_mono (pageRemove_spec h he hva) ?_ (fun _ _ _ => trivial)
  rintro _ m' (⟨hnone, rfl⟩ | ⟨t, p, hr⟩)
  · refine ⟨h, fun e' i j => ?_, fun _ _ _ => rfl⟩
    by_cases hr : Ref.pte e' i j = .pte e (pdx va) (ptx va)
    · rw [hr, Function.update_self]
      exact refers_pte_none he hnone
    · rw [Function.update_of_ne hr]
  · exact hr.placed h he

/-- `page_insert` of a page in hand. -/
theorem pageInsert_placed (h : MemInv pool base sp m) (he : sp e = some d) (hva : pdx va < pdx utop)
    (hp : Held pool sp m p) (hw : ppn (pteWord p perm) = p) (hroom : (m.ppRef p).toNat ≠ 65535) :
    wp (pageInsert d asid p va perm)
      (fun _ m' => Placed pool base sp (.pte e (pdx va) (ptx va)) (some p) m m')
      (fun _ _ => True) m := by
  have hentry := entry_pteWord hw
  have hexact : wp (pageInsert d asid p va perm)
      (fun _ m' => (∀ e' i j, m'.refers sp (.pte e' i j) =
          Function.update (m.refers sp) (.pte e (pdx va) (ptx va)) (some p) (.pte e' i j)) ∧
        ∀ q, ¬ m.Walked sp q → q ∉ m.pageFreeList → m'.phys q = m.phys q) (fun _ _ => True) m := by
    cases hl : m.lookup d va with
    | none =>
      refine pageInsert_none hl (fun _ _ => trivial) ?_
      exact wp_mono (pageInsertNew_exact h he hva hentry)
        (fun _ m' hx => ⟨hx.1, fun q hq hfree => hx.2 q hq (Or.inl hfree)⟩) (fun _ _ h => h)
    | some r =>
      obtain ⟨q₀, x⟩ := r
      obtain ⟨t, rfl, ht, hq₀⟩ := (lookup_user hva).mp hl
      have hown := h.own_table he ht hva
      have hold : entry (m.phys t (ptx va)) = some q₀ := by
        rwa [Mem.pte, ht, Option.bind_some] at hq₀
      obtain ⟨hvalid, hppn⟩ := entry_some.mp hold
      have hwalk : m.walk d va = some (t, ptx va) := by
        rw [Mem.walk, ← pde_user hva, ht]
        rfl
      unfold pageInsert
      rw [wp_bind]
      refine wp_mono (pgdirWalk_spec m d va) ?_ (fun _ _ _ => trivial)
      rintro r m₁ ⟨hm, rfl⟩
      subst hm
      rw [hwalk]
      simp only [wp_bind, wp_readPte, if_pos hvalid]
      refine wp_mono (pa2page_spec m₁ _) ?_ (fun _ _ _ => trivial)
      rintro r m₂ ⟨hm, rfl⟩
      subst hm
      rw [hppn]
      split
      case isTrue hne =>
        rw [wp_bind]
        refine wp_mono (pageRemove_spec h he hva) ?_ (fun _ _ _ => trivial)
        rintro _ m₃ (⟨hnone, _⟩ | ⟨t', q', hr⟩)
        · exact nomatch hq₀.symm.trans hnone
        · have hpl := hr.placed h he
          have hsole : ∀ r : Ref, r.sole → m₃.refers sp r = m₂.refers sp r :=
            fun r hs => hr.sole h he hs
          have hd : m₃.pde d (pdx va) ≠ none := by
            have hpde := hsole (.pde e (pdx va)) trivial
            simp only [Mem.refers, he, Option.bind_some] at hpde
            rw [hpde, ht]
            simp
          refine wp_mono (pageInsertNew_exact hpl.inv he hva hentry) ?_ (fun _ _ h => h)
          rintro _ m₄ ⟨hrefs, hphys⟩
          refine ⟨fun e' i j => ?_, fun q hq hfree => ?_⟩
          · rw [hrefs]
            by_cases hr' : Ref.pte e' i j = .pte e (pdx va) (ptx va)
            · rw [hr', Function.update_self, Function.update_self]
            · rw [Function.update_of_ne hr', Function.update_of_ne hr', hpl.entry,
                Function.update_of_ne hr']
          · rw [hphys q ?_ (Or.inr hd), hpl.data q hq hfree]
            rw [walked_iff] at hq ⊢
            rintro ⟨r, hr', hrq⟩
            exact hq ⟨r, hr', (hsole r hr').symm.trans hrq⟩
      case isFalse heq =>
        have heq : q₀ = p := not_not.mp heq
        subst heq
        rw [wp_bind, wp_tlbInvalidate, wp_writePte]
        have hstore := h.refers_store_table (w := pteWord q₀ perm) he ht hown.mem (j := ptx va)
        refine ⟨fun e' i j => ?_, fun q hq _ => ?_⟩
        · have hthis := congrFun hstore (.pte e' i j)
          rw [hentry] at hthis
          exact hthis
        · refine store_of_ne (m := m₂.flush asid va) ?_
          rintro rfl
          exact hq (walked_table he ht)
  refine wp_mono (wp_and (pageInsert_spec h he hva hp) hexact) ?_ (fun _ _ _ => trivial)
  rintro _ m' ⟨hins, hrefs, hphys⟩
  rcases hins.effect hw with hch | ⟨hmax, -⟩
  · exact ⟨(hch (fun _ _ _ => True) True trivial).inv, hrefs, hphys⟩
  · exact absurd hmax hroom

end Mos
