import Mos.Mem.AddressSpace

/-!
# References come and go

What each change of a page table, a directory, a counter and the free list means
for the counted heap, and that the invariant survives it.
-/

namespace Mos

open Lib (Heap)

variable {pool : Finset Nat} {base : Nat} {sp : Spaces} {m m' m₁ : Mem} {e : EnvIx} {d t p q f : Nat}
  {i j : WordIx} {w va : Word} {asid : Nat}

/-! ## What happens to the counted heap -/

namespace Mem

@[simps] def incref (m : Mem) (p : Nat) : Mem :=
  { m with ppRef := Function.update m.ppRef p (m.ppRef p + 1) }

/-- `page_decref`, with `page_free` for the last reference. -/
@[simps] def decref (m : Mem) (p : Nat) : Mem :=
  { m with
    ppRef := Function.update m.ppRef p (m.ppRef p - 1)
    pageFreeList := if m.ppRef p - 1 = 0 then p :: m.pageFreeList else m.pageFreeList }

/-- `page_alloc` with `p` at the head of the list. -/
@[simps] def taken (m : Mem) (p : Nat) (rest : List Nat) : Mem :=
  { m with pageFreeList := rest, phys := Function.update m.phys p fun _ => 0 }

end Mem

section

variable {sp' : Spaces} {r : Ref}

theorem refs_eq (pool : Finset Nat) (sp : Spaces) (m : Mem) (r : Ref) :
    (m.heap pool sp).refs r = (m.refers sp r).filter (· ∈ pool) := rfl

theorem refs_update {x : Option Nat} (hr : m'.refers sp' = Function.update (m.refers sp) r x) :
    (m'.heap pool sp').refs = Function.update (m.heap pool sp).refs r (x.filter (· ∈ pool)) := by
  funext r'
  unfold Mem.heap
  rw [hr]
  rcases eq_or_ne r' r with rfl | hne
  · simp
  · simp [hne]

theorem cnt_incref (hc : m'.ppRef = (m.incref p).ppRef) (hmax : (m.ppRef p).toNat ≠ 65535) :
    (m'.heap pool sp').cnt = Function.update (m.heap pool sp).cnt p ((m.heap pool sp).cnt p + 1) := by
  have hadd : (m.ppRef p + 1).toNat = (m.ppRef p).toNat + 1 := by
    have hlt := (m.ppRef p).isLt
    rw [BitVec.toNat_add]
    change ((m.ppRef p).toNat + 1) % 65536 = _
    omega
  funext q
  change (m'.ppRef q).toNat = Function.update (fun q => (m.ppRef q).toNat) p _ q
  rw [hc, Mem.incref_ppRef]
  rcases eq_or_ne q p with rfl | hq
  · rw [Function.update_self, Function.update_self]
    exact hadd
  · simp [hq]

theorem heap_link (hr : m'.refers sp' = Function.update (m.refers sp) r (some p)) (hp : p ∈ pool)
    (hc : m'.ppRef = (m.incref p).ppRef) (hmax : (m.ppRef p).toNat ≠ 65535)
    (hf : m'.pageFreeList = m.pageFreeList) :
    m'.heap pool sp' = (m.heap pool sp).link r p := by
  refine Heap.ext ?_ (cnt_incref hc hmax) hf
  rw [refs_update hr, Option.filter_some_pos (by simpa using hp)]
  rfl

theorem toNat_pred {n : BitVec 16} (hpos : n ≠ 0) : (n - 1).toNat = n.toNat - 1 := by
  have hlt := n.isLt
  have hne : n.toNat ≠ 0 := fun h => hpos (BitVec.eq_of_toNat_eq h)
  rw [BitVec.toNat_sub]
  change (65536 - 1 + n.toNat) % 65536 = _
  omega

theorem cnt_decref (hc : m'.ppRef = (m.decref p).ppRef) (hpos : m.ppRef p ≠ 0) :
    (m'.heap pool sp').cnt = Function.update (m.heap pool sp).cnt p ((m.heap pool sp).cnt p - 1) := by
  funext q
  change (m'.ppRef q).toNat = Function.update (fun q => (m.ppRef q).toNat) p _ q
  rw [hc, Mem.decref_ppRef]
  rcases eq_or_ne q p with rfl | hq
  · rw [Function.update_self, Function.update_self]
    exact toNat_pred hpos
  · simp [hq]

theorem free_decref (hf : m'.pageFreeList = (m.decref p).pageFreeList) (hpos : m.ppRef p ≠ 0) :
    (m'.heap pool sp').free = if (m.heap pool sp).cnt p - 1 = 0 then p :: (m.heap pool sp).free
      else (m.heap pool sp).free := by
  change m'.pageFreeList =
    if (m.ppRef p).toNat - 1 = 0 then p :: m.pageFreeList else m.pageFreeList
  have hzero : m.ppRef p - 1 = 0 ↔ (m.ppRef p).toNat - 1 = 0 := by
    rw [← toNat_pred hpos]
    exact ⟨fun h => by rw [h]; rfl, fun h => BitVec.eq_of_toNat_eq h⟩
  rw [hf, Mem.decref_pageFreeList]
  by_cases h0 : m.ppRef p - 1 = 0
  · rw [if_pos h0, if_pos (hzero.mp h0)]
  · rw [if_neg h0, if_neg (mt hzero.mpr h0)]

theorem heap_unlink (hr : m'.refers sp' = Function.update (m.refers sp) r none)
    (hc : m'.ppRef = (m.decref p).ppRef) (hpos : m.ppRef p ≠ 0)
    (hf : m'.pageFreeList = (m.decref p).pageFreeList) :
    m'.heap pool sp' = (m.heap pool sp).unlink r p := by
  refine Heap.ext ?_ (cnt_decref hc hpos) (free_decref hf hpos)
  rw [refs_update hr]
  rfl

theorem heap_take {rest : List Nat} (hr : m'.refers sp = m.refers sp) (hc : m'.ppRef = m.ppRef)
    (hfree : m.pageFreeList = p :: rest) (hf : m'.pageFreeList = rest) :
    m'.heap pool sp = (m.heap pool sp).take := by
  unfold Mem.heap Heap.take
  rw [hr, hc, hf, hfree]
  rfl

end

/-! ## Pages in hand -/

/-- A page that a page table may come to refer to. -/
abbrev Held (pool : Finset Nat) (sp : Spaces) (m : Mem) (p : Nat) : Prop :=
  Heap.Held (· ∈ pool) Ref.sole (m.heap pool sp) p

/-- A page that `page_alloc` has just handed out. -/
structure Fresh (pool : Finset Nat) (sp : Spaces) (m : Mem) (p : Nat) : Prop where
  mem : p ∈ pool
  not_free : p ∉ m.pageFreeList
  ppRef : m.ppRef p = 0
  unreferenced : ∀ r, (m.heap pool sp).refs r ≠ some p
  zero : ∀ j, m.phys p j = 0

theorem Fresh.held (h : Fresh pool sp m p) : Held pool sp m p where
  used := h.mem
  not_free := h.not_free
  counted := by
    rw [Heap.fiber_eq_empty h.unreferenced]
    change (m.ppRef p).toNat = 0
    rw [h.ppRef]
    rfl
  shared r hr := absurd hr (h.unreferenced r)

theorem refs_none {r : Ref} (h : m.refers sp r = none) : (m.heap pool sp).refs r = none := by
  simp [Mem.heap, h]

namespace MemInv

theorem held_data (h : MemInv pool base sp m) (he : sp e = some d) (hp : m.pte d i j = some p)
    (hpool : p ∈ pool) : Held pool sp m p where
  used := hpool
  not_free hf := h.counts.free_unreferenced hf _ (pte_refs he hp hpool)
  counted := h.counts.counted _ _ (pte_refs he hp hpool)
  shared r hr hs := by
    have := h.counts.sole_ref r _ _ hs hr (pte_refs he hp hpool)
    subst this
    exact hs

theorem ppRef_ne_zero (h : MemInv pool base sp m) {r : Ref} (hr : (m.heap pool sp).refs r = some p) :
    m.ppRef p ≠ 0 := by
  intro h0
  have hcnt : 0 < (m.ppRef p).toNat := h.counts.cnt_pos hr
  rw [h0] at hcnt
  exact absurd hcnt (lt_irrefl 0)

/-! ### The five changes -/

theorem refers_link_pte (h : MemInv pool base sp m) (he : sp e = some d) (ht : m.pde d i = some t)
    (hpool : t ∈ pool) (hw : entry w = some p) : ((m.incref p).store t j w).refers sp =
      Function.update (m.refers sp) (.pte e i j) (some p) := by
  rw [← hw]
  exact h.refers_store_table he ht hpool

theorem heap_link_pte (h : MemInv pool base sp m) (he : sp e = some d) (ht : m.pde d i = some t)
    (hpool : t ∈ pool) (hw : entry w = some p) (hp : p ∈ pool) (hmax : (m.ppRef p).toNat ≠ 65535) :
    ((m.incref p).store t j w).heap pool sp = (m.heap pool sp).link (.pte e i j) p :=
  heap_link (h.refers_link_pte he ht hpool hw) hp rfl hmax rfl

theorem refers_unlink_pte (h : MemInv pool base sp m) (he : sp e = some d)
    (ht : m.pde d i = some t) (hpool : t ∈ pool) : ((m.decref p).store t j 0).refers sp =
      Function.update (m.refers sp) (.pte e i j) none := by
  rw [← entry_zero]
  exact h.refers_store_table he ht hpool

theorem heap_unlink_pte (h : MemInv pool base sp m) (he : sp e = some d) (ht : m.pde d i = some t)
    (hpool : t ∈ pool) (hold : m.pte d i j = some p) (hp : p ∈ pool) :
    ((m.decref p).store t j 0).heap pool sp = (m.heap pool sp).unlink (.pte e i j) p :=
  heap_unlink (h.refers_unlink_pte he ht hpool) rfl (h.ppRef_ne_zero (pte_refs he hold hp)) rfl

theorem refers_link_pde (h : MemInv pool base sp m) (he : sp e = some d) (hi : i ≠ pdx uvpt)
    (hempty : entry (m.phys d i) = none) (hp : Fresh pool sp m p) (hw : entry w = some p) :
    ((m.incref p).store d i w).refers sp = Function.update (m.refers sp) (.pde e i) (some p) := by
  have hpde : m.pde d i = none := by
    unfold Mem.pde
    rw [if_neg hi, hempty]
  rw [← hw]
  refine h.refers_store_dir he hi (fun j => by rw [Mem.pte, hpde, Option.bind_none]) ?_
  rintro t ht
  obtain rfl : p = t := Option.some.inj (hw.symm.trans ht)
  refine ⟨?_, fun j => by rw [hp.zero, entry_zero]⟩
  rintro rfl
  exact hp.unreferenced _ (h.dir_refs he)

theorem heap_link_pde (h : MemInv pool base sp m) (he : sp e = some d) (hi : i ≠ pdx uvpt)
    (hempty : entry (m.phys d i) = none) (hp : Fresh pool sp m p) (hw : entry w = some p) :
    ((m.incref p).store d i w).heap pool sp = (m.heap pool sp).link (.pde e i) p := by
  refine heap_link (h.refers_link_pde he hi hempty hp hw) hp.mem rfl ?_ rfl
  rw [hp.ppRef]
  decide

theorem refers_unlink_pde (h : MemInv pool base sp m) (he : sp e = some d)
    (ht : m.pde d i = some t) (hzero : ∀ j, entry (m.phys t j) = none) :
    ((m.store d i 0).decref t).refers sp = Function.update (m.refers sp) (.pde e i) none := by
  rw [← entry_zero]
  refine h.refers_store_dir he (pde_some.mp ht).1 (fun j => ?_) ?_
  · rw [Mem.pte, ht, Option.bind_some, hzero]
  · rintro t ⟨⟩

theorem heap_unlink_pde (h : MemInv pool base sp m) (he : sp e = some d) (ht : m.pde d i = some t)
    (hpool : t ∈ pool) (hzero : ∀ j, entry (m.phys t j) = none) :
    ((m.store d i 0).decref t).heap pool sp = (m.heap pool sp).unlink (.pde e i) t :=
  heap_unlink (h.refers_unlink_pde he ht hzero) rfl (h.ppRef_ne_zero (pde_refs he ht hpool)) rfl

theorem same_taken {rest : List Nat} (h : MemInv pool base sp m)
    (hfree : m.pageFreeList = p :: rest) : SameTables pool sp m (m.taken p rest) := by
  have hmem : p ∈ m.pageFreeList := by
    rw [hfree]
    exact List.mem_cons_self
  have hpool := h.counts.free_used p hmem
  exact .page hpool (unreferenced_not_walked hpool (h.counts.free_unreferenced hmem)) rfl rfl

theorem heap_taken {rest : List Nat} (h : MemInv pool base sp m)
    (hfree : m.pageFreeList = p :: rest) :
    (m.taken p rest).heap pool sp = (m.heap pool sp).take :=
  heap_take (refers_congr (h.same_taken hfree).walked) rfl hfree rfl

end MemInv

/-! ## Changes of one address space -/

/-- The directories and page tables of the other environments are as they were. -/
def Apart (sp : Spaces) (e : EnvIx) (m m' : Mem) : Prop :=
  ∀ e' d', e' ≠ e → sp e' = some d' →
    m'.phys d' = m.phys d' ∧ ∀ i t, m.pde d' i = some t → m'.phys t = m.phys t

namespace Apart

theorem refl : Apart sp e m m := fun _ _ _ _ => ⟨rfl, fun _ _ _ => rfl⟩

theorem trans (h : Apart sp e m m₁) (h' : Apart sp e m₁ m') : Apart sp e m m' := by
  intro e' d' hne he'
  obtain ⟨hd, ht⟩ := h e' d' hne he'
  obtain ⟨hd', ht'⟩ := h' e' d' hne he'
  refine ⟨hd'.trans hd, fun i t hit => ?_⟩
  rw [ht' i t (by rwa [pde_congr hd]), ht i t hit]

theorem of_walked (h : ∀ f, m.Walked sp f → m'.phys f = m.phys f) : Apart sp e m m' :=
  fun _ d' _ he' => ⟨h d' (walked_dir he'), fun _ t ht => h t (walked_table he' ht)⟩

theorem refers (h : Apart sp e m m') {r : Ref} (hr : r.owner ≠ e) :
    m'.refers sp r = m.refers sp r := by
  cases r with
  | dir e' => rfl
  | pde e' i =>
    cases he' : sp e' with
    | none => simp [Mem.refers, he']
    | some d' => simp [Mem.refers, he', pde_congr (h e' d' hr he').1]
  | pte e' i j =>
    cases he' : sp e' with
    | none => simp [Mem.refers, he']
    | some d' =>
      obtain ⟨hd, ht⟩ := h e' d' hr he'
      cases hit : m.pde d' i with
      | none => simp [Mem.refers, Mem.pte, he', pde_congr hd, hit]
      | some t => simp [Mem.refers, Mem.pte, he', pde_congr hd, hit, ht i t hit]

end Apart

/-- `tlb_invalidate` -/
@[simps] def Mem.flush (m : Mem) (asid : Nat) (va : Word) : Mem :=
  { m with tlb := m.tlb.filter fun t => !t.matches (entryHi asid va) }

/-- The TLB has no entry for the page `(i, j)`. -/
def Mem.Unseen (m : Mem) (asid : Nat) (i j : WordIx) : Prop :=
  ∀ t ∈ m.tlb, t.matches (entryHi asid (pageVa i j)) = false

theorem entryHi_page (asid : Nat) (va : Word) :
    entryHi asid (pageVa (pdx va) (ptx va)) = entryHi asid va := by
  have h : ~~~(0xFFF : Word) &&& ~~~0x1FFF = ~~~0x1FFF := by decide
  unfold entryHi
  rw [pageVa_eq, pteAddr, BitVec.and_assoc, h]

theorem mem_flush {x : TlbEntry} (hx : x ∈ (m.flush asid va).tlb) :
    x ∈ m.tlb ∧ x.matches (entryHi asid va) = false := by
  simpa using hx

theorem unseen_flush (m : Mem) (asid : Nat) (va : Word) :
    (m.flush asid va).Unseen asid (pdx va) (ptx va) := by
  intro x hx
  rw [entryHi_page]
  exact (mem_flush hx).2

/-- The kernel has worked for the environment `e`: an entry of its tables that has changed is not in
the TLB any more, only entries that `W` allows are new, and only with `upper` a page table has come
into the upper part of the directory. -/
structure Change (pool : Finset Nat) (base : Nat) (sp : Spaces) (e : EnvIx) (asid : Nat)
    (W : WordIx → WordIx → Word → Prop) (upper : Prop) (m m' : Mem) : Prop where
  inv : MemInv pool base sp m'
  apart : Apart sp e m m'
  entries : ∀ d i j w, sp e = some d → m'.mapped d i j = some w → m.mapped d i j = some w ∨ W i j w
  flushed : ∀ x ∈ m'.tlb, x ∈ m.tlb ∧ ∀ d i j, sp e = some d → m'.mapped d i j ≠ m.mapped d i j →
    x.matches (entryHi asid (pageVa i j)) = false
  upper : ∀ d i, sp e = some d → pdx utop ≤ i → upper ∨ m'.phys d i = m.phys d i
  exact : (m.heap pool sp).Exact (· ∈ pool) → (m'.heap pool sp).Exact (· ∈ pool)

theorem mapped_congr (hd : m'.phys d = m.phys d) (ht : ∀ i t, m.pde d i = some t → m'.phys t = m.phys t)
    (i j : WordIx) : m'.mapped d i j = m.mapped d i j := by
  unfold Mem.mapped
  rw [pde_congr hd]
  cases hit : m.pde d i with
  | none => rfl
  | some t => simp only [Option.bind_some, ht i t hit]

namespace Change

variable {W : WordIx → WordIx → Word → Prop} {upper : Prop}

theorem refl (h : MemInv pool base sp m) : Change pool base sp e asid W upper m m :=
  ⟨h, .refl, fun _ _ _ _ _ hw => Or.inl hw, fun _ hx => ⟨hx, fun _ _ _ _ hne => absurd rfl hne⟩,
    fun _ _ _ _ => Or.inr rfl, id⟩

theorem trans (h : Change pool base sp e asid W upper m m₁)
    (h' : Change pool base sp e asid W upper m₁ m') : Change pool base sp e asid W upper m m' where
  inv := h'.inv
  apart := h.apart.trans h'.apart
  entries d i j w he hw := (h'.entries d i j w he hw).elim (h.entries d i j w he) Or.inr
  flushed x hx := by
    obtain ⟨hx₁, hlater⟩ := h'.flushed x hx
    obtain ⟨hx₀, hsooner⟩ := h.flushed x hx₁
    refine ⟨hx₀, fun d i j he hne => ?_⟩
    rcases eq_or_ne (m'.mapped d i j) (m₁.mapped d i j) with hsame | hdiff
    · exact hsooner d i j he (hsame ▸ hne)
    · exact hlater d i j he hdiff
  upper d i he hi := by
    rcases h.upper d i he hi with hu | hd
    · exact Or.inl hu
    · exact (h'.upper d i he hi).imp_right fun hd' => hd'.trans hd
  exact hx := h'.exact (h.exact hx)

theorem mono {W' : WordIx → WordIx → Word → Prop} {upper' : Prop}
    (h : Change pool base sp e asid W upper m m') (hW : ∀ i j w, W i j w → W' i j w)
    (hu : upper → upper') : Change pool base sp e asid W' upper' m m' where
  inv := h.inv
  apart := h.apart
  entries d i j w he hw := (h.entries d i j w he hw).imp_right (hW i j w)
  flushed := h.flushed
  upper d i he hi := (h.upper d i he hi).imp_left hu
  exact := h.exact

theorem of_same (h : MemInv pool base sp m) (hs : SameTables pool sp m m')
    (hc : m'.ppRef = m.ppRef) (hf : m'.pageFreeList = m.pageFreeList)
    (htlb : ∀ x ∈ m'.tlb, x ∈ m.tlb) : Change pool base sp e asid W upper m m' := by
  have hmapped : ∀ d i j, sp e = some d → m'.mapped d i j = m.mapped d i j := fun d i j he =>
    mapped_congr (hs.walked d (walked_dir he)) (fun i t ht => hs.walked t (walked_table he ht)) i j
  constructor
  · exact h.congr hs hc hf
  · exact .of_walked hs.walked
  · intro d i j w he hw
    exact Or.inl ((hmapped d i j he).symm.trans hw)
  · exact fun x hx => ⟨htlb x hx, fun d i j he hne => absurd (hmapped d i j he) hne⟩
  · exact fun d i he _ => Or.inr (congrFun (hs.walked d (walked_dir he)) i)
  · intro hx
    rw [heap_congr (refers_congr hs.walked) hc hf]
    exact hx

theorem flush (h : Change pool base sp e asid W upper m m') (va : Word) :
    Change pool base sp e asid W upper m (m'.flush asid va) :=
  h.trans (.of_same h.inv ⟨rfl, fun _ _ => rfl, fun _ _ => rfl⟩ rfl rfl fun _ hx => (mem_flush hx).1)

/-! ### Page table entries -/

theorem apart_store_table (h : MemInv pool base sp m) (he : sp e = some d)
    (ht : m.pde d i = some t) (hpool : t ∈ pool) (hphys : m'.phys = (m.store t j w).phys) :
    Apart sp e m m' := by
  intro e' d' hne he'
  rw [hphys]
  refine ⟨store_of_ne (h.table_ne_dir he ht he').symm, fun i' t' ht' => store_of_ne ?_⟩
  rintro rfl
  exact hne (h.table_inj he ht hpool he' ht').1

theorem entries_store (h : MemInv pool base sp m) (he : sp e = some d) (ht : m.pde d i = some t)
    (hpool : t ∈ pool) (hphys : m'.phys = (m.store t j w).phys) (hnew : pteValid w = true → W i j w) :
    ∀ d' i' j' w', sp e = some d' → m'.mapped d' i' j' = some w' →
      m.mapped d' i' j' = some w' ∨ W i' j' w' := by
  intro d' i' j' w' he' hw'
  obtain rfl : d = d' := Option.some.inj (he.symm.trans he')
  have hstore : m'.mapped d i' j' = (m.store t j w).mapped d i' j' :=
    mapped_congr (by rw [hphys]) (fun _ _ _ => by rw [hphys]) i' j'
  rw [hstore, h.mapped_store_table he ht hpool] at hw'
  split at hw'
  case isTrue hij =>
    obtain ⟨rfl, rfl⟩ := hij
    obtain ⟨hv, rfl⟩ := valid_some.mp hw'
    exact Or.inr (hnew hv)
  case isFalse => exact Or.inl hw'

theorem flushed_store (h : MemInv pool base sp m) (he : sp e = some d) (ht : m.pde d i = some t)
    (hpool : t ∈ pool) (hphys : m'.phys = (m.store t j w).phys) (htlb : ∀ x ∈ m'.tlb, x ∈ m.tlb)
    (hunseen : m'.Unseen asid i j) :
    ∀ x ∈ m'.tlb, x ∈ m.tlb ∧ ∀ d' i' j', sp e = some d' → m'.mapped d' i' j' ≠ m.mapped d' i' j' →
      x.matches (entryHi asid (pageVa i' j')) = false := by
  refine fun x hx => ⟨htlb x hx, fun d' i' j' he' hne => ?_⟩
  obtain rfl : d = d' := Option.some.inj (he.symm.trans he')
  have hstore : m'.mapped d i' j' = (m.store t j w).mapped d i' j' :=
    mapped_congr (by rw [hphys]) (fun _ _ _ => by rw [hphys]) i' j'
  rw [hstore, h.mapped_store_table he ht hpool] at hne
  split at hne
  case isTrue hij =>
    obtain ⟨rfl, rfl⟩ := hij
    exact hunseen x hx
  case isFalse => exact absurd rfl hne

/-- An empty entry gets a page. -/
theorem link_pte (h : MemInv pool base sp m) (he : sp e = some d) (ht : m.pde d i = some t)
    (hpool : t ∈ pool) (hi : i < pdx utop) (hempty : entry (m.phys t j) = none)
    (hp : Held pool sp m p) (hw : entry w = some p) (hmax : (m.ppRef p).toNat ≠ 65535)
    (hunseen : m.Unseen asid i j) (hW : W i j w) :
    Change pool base sp e asid W upper m ((m.incref p).store t j w) := by
  have hnone : m.refers sp (.pte e i j) = none := by
    simp [Mem.refers, Mem.pte, he, ht, hempty]
  have hlink := hp.canLink (refs_none hnone) (Or.inl id)
  constructor
  · refine ⟨(h.layout_store_table he ht hpool ?_).congr ⟨rfl, fun _ _ => rfl, fun _ _ => rfl⟩, ?_⟩
    · rintro q hq
      obtain rfl : p = q := Option.some.inj (hw.symm.trans hq)
      exact ⟨hi, hp.used⟩
    · rw [h.heap_link_pte he ht hpool hw hp.used hmax]
      exact h.counts.link hlink
  · exact apart_store_table h he ht hpool rfl
  · exact entries_store h he ht hpool rfl fun _ => hW
  · exact flushed_store h he ht hpool rfl (fun _ hx => hx) hunseen
  · intro d' i' he' _
    exact Or.inr (congrFun (store_of_ne (h.table_ne_dir he ht he').symm) i')
  · intro hx
    rw [h.heap_link_pte he ht hpool hw hp.used hmax]
    exact Heap.Exact.link hx hlink.empty

/-- An entry keeps its page. -/
theorem relabel_pte (h : MemInv pool base sp m) (he : sp e = some d) (ht : m.pde d i = some t)
    (hpool : t ∈ pool) (hold : entry (m.phys t j) = entry w) (hunseen : m.Unseen asid i j)
    (hW : W i j w) : Change pool base sp e asid W upper m (m.store t j w) := by
  have hrefers : (m.store t j w).refers sp = m.refers sp := by
    rw [h.refers_store_table he ht hpool, Function.update_eq_self_iff, ← hold]
    simp [Mem.refers, Mem.pte, he, ht]
  have hheap : (m.store t j w).heap pool sp = m.heap pool sp := heap_congr hrefers rfl rfl
  constructor
  · refine ⟨h.layout_store_table he ht hpool fun q hq => ?_, ?_⟩
    · rcases h.table e d i t he ht with hown | ⟨_, hshared⟩
      · exact hown.pages j q (hold.trans hq)
      · exact absurd hpool hshared.kernel
    · rw [hheap]
      exact h.counts
  · exact apart_store_table h he ht hpool rfl
  · exact entries_store h he ht hpool rfl fun _ => hW
  · exact flushed_store h he ht hpool rfl (fun _ hx => hx) hunseen
  · intro d' i' he' _
    exact Or.inr (congrFun (store_of_ne (h.table_ne_dir he ht he').symm) i')
  · rw [hheap]
    exact id

/-- An entry loses its page. -/
theorem unlink_pte (h : MemInv pool base sp m) (he : sp e = some d)
    (ht : m.pde d (pdx va) = some t) (hpool : t ∈ pool)
    (hold : m.pte d (pdx va) (ptx va) = some p) (hp : p ∈ pool) :
    Change pool base sp e asid W upper m (((m.decref p).store t (ptx va) 0).flush asid va) := by
  have href := MemInv.pte_refs he hold hp
  have hheap : (((m.decref p).store t (ptx va) 0).flush asid va).heap pool sp =
      (m.heap pool sp).unlink (.pte e (pdx va) (ptx va)) p := h.heap_unlink_pte he ht hpool hold hp
  constructor
  · refine ⟨(h.layout_store_table (w := 0) he ht hpool ?_).congr
      ⟨rfl, fun _ _ => rfl, fun _ _ => rfl⟩, ?_⟩
    · rintro q ⟨⟩
    · rw [hheap]
      exact h.counts.unlink href
  · exact apart_store_table h he ht hpool rfl
  · exact entries_store h he ht hpool rfl fun hv => absurd hv (by decide)
  · exact flushed_store h he ht hpool rfl (fun _ hx => (mem_flush hx).1) (unseen_flush _ _ _)
  · intro d' i' he' _
    exact Or.inr (congrFun (store_of_ne (h.table_ne_dir he ht he').symm) i')
  · intro hx
    rw [hheap]
    exact Heap.Exact.unlink hx href

/-! ### Page directory entries -/

theorem apart_store_dir (h : MemInv pool base sp m) (he : sp e = some d)
    (hphys : m'.phys = (m.store d i w).phys) : Apart sp e m m' := by
  intro e' d' hne he'
  rw [hphys]
  refine ⟨store_of_ne ?_, fun i' t' ht' => store_of_ne (h.table_ne_dir he' ht' he)⟩
  rintro rfl
  exact hne (h.dir_inj he he')

theorem unmoved (asid : Nat) (he : sp e = some d) (hsame : ∀ i j, m'.mapped d i j = m.mapped d i j)
    (htlb : m'.tlb = m.tlb) :
    (∀ d' i j w, sp e = some d' → m'.mapped d' i j = some w → m.mapped d' i j = some w ∨ W i j w) ∧
    ∀ x ∈ m'.tlb, x ∈ m.tlb ∧ ∀ d' i j, sp e = some d' → m'.mapped d' i j ≠ m.mapped d' i j →
      x.matches (entryHi asid (pageVa i j)) = false := by
  constructor
  · intro d' i j w he' hw
    obtain rfl : d = d' := Option.some.inj (he.symm.trans he')
    exact Or.inl ((hsame i j).symm.trans hw)
  · intro x hx
    refine ⟨htlb ▸ hx, fun d' i j he' hne => ?_⟩
    obtain rfl : d = d' := Option.some.inj (he.symm.trans he')
    exact absurd (hsame i j) hne

/-- An empty entry gets a new page table. -/
theorem link_pde (h : MemInv pool base sp m) (he : sp e = some d) (hi : i ≠ pdx uvpt)
    (hempty : entry (m.phys d i) = none) (hp : Fresh pool sp m p) (hw : entry w = some p)
    (hro : w &&& pteD = 0) (hu : pdx utop ≤ i → upper) :
    Change pool base sp e asid W upper m ((m.incref p).store d i w) := by
  have hnone : m.refers sp (.pde e i) = none := by
    simp [Mem.refers, he, Mem.pde, hi, hempty]
  have hlink := hp.held.canLink (refs_none hnone) (Or.inr hp.unreferenced)
  have hpte : ∀ j, m.pte d i j = none := by
    intro j
    unfold Mem.pte Mem.pde
    rw [if_neg hi, hempty, Option.bind_none]
  have hblank : ∀ t, entry w = some t → t ≠ d ∧ ∀ j, entry (m.phys t j) = none := by
    intro t ht
    obtain rfl : p = t := Option.some.inj (hw.symm.trans ht)
    refine ⟨?_, fun j => by rw [hp.zero, entry_zero]⟩
    rintro rfl
    exact hp.unreferenced _ (h.dir_refs he)
  have hsame : ∀ i' j, ((m.incref p).store d i w).mapped d i' j = m.mapped d i' j :=
    h.mapped_store_dir (w := w) he hi hpte hblank
  obtain ⟨hentries, hflushed⟩ := unmoved (W := W) asid he hsame rfl
  constructor
  · refine ⟨(h.layout_store_dir he hi hro ?_).congr ⟨rfl, fun _ _ => rfl, fun _ _ => rfl⟩, ?_⟩
    · rintro t ht
      obtain rfl : p = t := Option.some.inj (hw.symm.trans ht)
      refine ⟨?_, hp.mem, fun j q hq => ?_⟩
      · rintro rfl
        exact hp.unreferenced _ (h.dir_refs he)
      · rw [hp.zero, entry_zero] at hq
        cases hq
    · rw [h.heap_link_pde he hi hempty hp hw]
      exact h.counts.link hlink
  · exact apart_store_dir h he rfl
  · exact hentries
  · exact hflushed
  · intro d' i' he' hi'
    obtain rfl : d = d' := Option.some.inj (he.symm.trans he')
    rcases eq_or_ne i' i with rfl | hii
    · exact Or.inl (hu hi')
    · refine Or.inr ?_
      change (m.store d i w).phys d i' = _
      rw [store_self, Function.update_of_ne hii]
  · intro hx
    rw [h.heap_link_pde he hi hempty hp hw]
    exact Heap.Exact.link hx hlink.empty

/-- A page table without entries goes. -/
theorem unlink_pde (h : MemInv pool base sp m) (he : sp e = some d) (ht : m.pde d i = some t)
    (hpool : t ∈ pool) (hi : i < pdx utop) (hzero : ∀ j, entry (m.phys t j) = none) :
    Change pool base sp e asid W upper m ((m.store d i 0).decref t) := by
  have href := MemInv.pde_refs he ht hpool
  have hpte : ∀ j, m.pte d i j = none := by
    intro j
    rw [Mem.pte, ht, Option.bind_some, hzero]
  have hblank : ∀ t, entry 0 = some t → t ≠ d ∧ ∀ j, entry (m.phys t j) = none := by
    rintro t ⟨⟩
  have hsame : ∀ i' j, ((m.store d i 0).decref t).mapped d i' j = m.mapped d i' j :=
    h.mapped_store_dir he (pde_some.mp ht).1 hpte hblank
  obtain ⟨hentries, hflushed⟩ := unmoved (W := W) asid he hsame rfl
  constructor
  · refine ⟨(h.layout_store_dir (w := 0) he (pde_some.mp ht).1 (by decide) ?_).congr
      ⟨rfl, fun _ _ => rfl, fun _ _ => rfl⟩, ?_⟩
    · rintro t ⟨⟩
    · rw [h.heap_unlink_pde he ht hpool hzero]
      exact h.counts.unlink href
  · exact apart_store_dir h he rfl
  · exact hentries
  · exact hflushed
  · intro d' i' he' hi'
    obtain rfl : d = d' := Option.some.inj (he.symm.trans he')
    refine Or.inr ?_
    change (m.store d i 0).phys d i' = _
    rw [store_self, Function.update_of_ne]
    rintro rfl
    exact absurd hi (not_lt.mpr hi')
  · intro hx
    rw [h.heap_unlink_pde he ht hpool hzero]
    exact Heap.Exact.unlink hx href

end Change

/-! ### Pages -/

theorem MemInv.taken {rest : List Nat} (h : MemInv pool base sp m)
    (hfree : m.pageFreeList = p :: rest) : MemInv pool base sp (m.taken p rest) where
  toLayout := h.toLayout.congr (h.same_taken hfree)
  counts := by
    rw [h.heap_taken hfree]
    exact h.counts.take

theorem Change.taken {W : WordIx → WordIx → Word → Prop} {upper : Prop} {rest : List Nat}
    (h : MemInv pool base sp m) (hfree : m.pageFreeList = p :: rest) :
    Change pool base sp e asid W upper m (m.taken p rest) := by
  have hs := h.same_taken hfree
  have hmapped : ∀ d i j, sp e = some d → (m.taken p rest).mapped d i j = m.mapped d i j :=
    fun d i j he =>
      mapped_congr (hs.walked d (walked_dir he)) (fun i t ht => hs.walked t (walked_table he ht)) i j
  refine ⟨h.taken hfree, .of_walked hs.walked, fun d i j w he hw => ?_, fun x hx => ?_, ?_,
    fun hx => ?_⟩
  · exact Or.inl ((hmapped d i j he).symm.trans hw)
  · exact ⟨hx, fun d i j he hne => absurd (hmapped d i j he) hne⟩
  · exact fun d' i' he' _ => Or.inr (congrFun (hs.walked d' (walked_dir he')) i')
  · rw [h.heap_taken hfree]
    exact hx.take

theorem MemInv.fresh_taken {rest : List Nat} (h : MemInv pool base sp m)
    (hfree : m.pageFreeList = p :: rest) : Fresh pool sp (m.taken p rest) p := by
  have hmem : p ∈ m.pageFreeList := by
    rw [hfree]
    exact List.mem_cons_self
  have hnodup : m.pageFreeList.Nodup := h.counts.free_nodup
  rw [hfree] at hnodup
  refine ⟨h.counts.free_used p hmem, (List.nodup_cons.mp hnodup).1, ?_, fun r hr => ?_,
    fun j => by simp⟩
  · exact BitVec.eq_of_toNat_eq (h.counts.free_zero p hmem)
  · rw [h.heap_taken hfree] at hr
    exact h.counts.free_unreferenced hmem r hr

/-! ## Address spaces come and go -/

theorem refers_other {sp' : Spaces} {r : Ref} (hphys : m'.phys = m.phys)
    (hr : sp' r.owner = sp r.owner) : m'.refers sp' r = m.refers sp r := by
  cases r with
  | dir e => exact hr
  | pde e i =>
    change (sp' e).bind _ = (sp e).bind _
    rw [show sp' e = sp e from hr]
    simp only [Mem.pde, hphys]
  | pte e i j =>
    change (sp' e).bind _ = (sp e).bind _
    rw [show sp' e = sp e from hr]
    simp only [Mem.pte, Mem.pde, hphys]

theorem refers_gone {sp' : Spaces} {r : Ref} (hr : sp' r.owner = none) : m.refers sp' r = none := by
  cases r with
  | dir e => exact hr
  | pde e i =>
    change (sp' e).bind _ = none
    rw [show sp' e = none from hr, Option.bind_none]
  | pte e i j =>
    change (sp' e).bind _ = none
    rw [show sp' e = none from hr, Option.bind_none]

namespace MemInv

theorem heap_drop (h : MemInv pool base sp m) (he : sp e = some d) :
    (m.decref d).heap pool (Function.update sp e none) =
      ((m.heap pool sp).unlink (.dir e) d).forget fun r => r.owner = e := by
  have hpos := h.ppRef_ne_zero (h.dir_refs he)
  refine Heap.ext ?_ (cnt_decref rfl hpos) (free_decref rfl hpos)
  funext r
  simp only [Heap.forget, Heap.unlink]
  by_cases hr : r.owner = e
  · rw [if_pos hr]
    exact refs_none (refers_gone (by rw [hr, Function.update_self]))
  · have hne : r ≠ .dir e := by
      rintro rfl
      exact hr rfl
    rw [if_neg hr, Function.update_of_ne hne]
    rw [refs_eq, refs_eq, refers_other rfl (Function.update_of_ne hr none sp)]
    rfl

theorem upper_pte (h : MemInv pool base sp m) (he : sp e = some d) (hi : pdx utop ≤ i)
    (hp : p ∈ pool) : m.pte d i j ≠ some p := by
  intro hpte
  obtain ⟨t, ht, hentry⟩ := Option.bind_eq_some_iff.mp hpte
  rcases h.table e d i t he ht with hown | ⟨_, hshared⟩
  · exact absurd (hown.pages j p hentry).1 (not_lt.mpr hi)
  · exact hshared.pages j p hentry hp

/-- A directory whose lower part is empty goes. -/
theorem drop (h : MemInv pool base sp m) (he : sp e = some d)
    (hempty : ∀ i, i < pdx utop → m.pde d i = none) :
    MemInv pool base (Function.update sp e none) (m.decref d) := by
  have hsp : ∀ e' d', Function.update sp e none e' = some d' → e' ≠ e ∧ sp e' = some d' := by
    intro e' d' he'
    rcases eq_or_ne e' e with rfl | hne
    · rw [Function.update_self] at he'
      cases he'
    · rw [Function.update_of_ne hne] at he'
      exact ⟨hne, he'⟩
  constructor
  · exact ⟨h.npage_le, h.pool_lt, fun e' d' he' => h.dir_pool e' d' (hsp e' d' he').2,
      fun e' d' he' => h.selfMap e' d' (hsp e' d' he').2,
      fun e' d' i' he' => h.dirReadOnly e' d' i' (hsp e' d' he').2,
      fun e' d' i' t' he' ht' => (h.table e' d' i' t' (hsp e' d' he').2 ht').imp
        (fun hown => ⟨hown.mem, hown.pages⟩)
        (fun ⟨hi', hs⟩ => ⟨hi', ⟨hs.kernel, hs.pages, hs.readOnly⟩⟩),
      h.base_kernel, h.baseReadOnly,
      fun i' t' hlo hhi ht' => ⟨(h.baseTable i' t' hlo hhi ht').kernel,
        (h.baseTable i' t' hlo hhi ht').pages, (h.baseTable i' t' hlo hhi ht').readOnly⟩⟩
  · rw [h.heap_drop he]
    have hunlinked := h.counts.unlink (h.dir_refs he)
    refine hunlinked.forget fun r r' p hr hp hp' => ?_
    -- what the environment still refers to are page tables in the upper part
    have hp₀ : r ≠ .dir e ∧ (m.heap pool sp).refs r = some p := by
      by_cases hd : r = .dir e
      · simp [Heap.unlink, hd] at hp
      · exact ⟨hd, by simpa [Heap.unlink, hd] using hp⟩
    have hsole : r.sole := by
      cases r with
      | dir e' | pde e' i' => trivial
      | pte e' i' j' =>
        obtain rfl : e' = e := hr
        obtain ⟨href, hpool⟩ := refs_some.mp hp₀.2
        simp only [Mem.refers, he, Option.bind_some] at href
        rcases lt_or_ge i' (pdx utop) with hi | hi
        · rw [Mem.pte, hempty i' hi, Option.bind_none] at href
          cases href
        · exact absurd href (h.upper_pte he hi hpool)
    rw [hunlinked.sole_ref r r' p hsole hp hp']
    exact hr

/-- The counters stay exact if the upper part has no page table of its own. -/
theorem drop_exact (h : MemInv pool base sp m) (he : sp e = some d)
    (hempty : ∀ i t, m.pde d i = some t → t ∉ pool)
    (hx : (m.heap pool sp).Exact (· ∈ pool)) :
    ((m.decref d).heap pool (Function.update sp e none)).Exact (· ∈ pool) := by
  rw [h.heap_drop he]
  refine (Heap.Exact.unlink hx (h.dir_refs he)).forget fun r hr => ?_
  cases r with
  | dir e' =>
    obtain rfl : e' = e := hr
    simp [Heap.unlink]
  | pde e' i =>
    obtain rfl : e' = e := hr
    by_contra hne
    obtain ⟨t, ht⟩ := Option.ne_none_iff_exists'.mp hne
    obtain ⟨href, hpool⟩ := refs_some.mp (show (m.heap pool sp).refs _ = some t by
      simpa [Heap.unlink] using ht)
    simp only [Mem.refers, he, Option.bind_some] at href
    exact hempty i t href hpool
  | pte e' i j =>
    obtain rfl : e' = e := hr
    by_contra hne
    obtain ⟨p, hp⟩ := Option.ne_none_iff_exists'.mp hne
    obtain ⟨href, hpool⟩ := refs_some.mp (show (m.heap pool sp).refs _ = some p by
      simpa [Heap.unlink] using hp)
    simp only [Mem.refers, he, Option.bind_some] at href
    obtain ⟨t, ht, hentry⟩ := Option.bind_eq_some_iff.mp href
    rcases h.table e' d i t he ht with hown | ⟨_, hshared⟩
    · exact hempty i t ht hown.mem
    · exact hshared.pages j p hentry hpool

end MemInv

end Mos
