import Mos.Mem.Counting

/-!
# What the functions of `pmap.c` and `tlbex.c` do to an address space

One specification for each function, in the terms of the counted heap. No
assertion of theirs fails.
-/

namespace Mos

open Lib (Heap wp wp_bind wp_get wp_modify wp_pure wp_throw wp_ite wp_mono)

variable {pool : Finset Nat} {base : Nat} {sp : Spaces} {m m' m₁ : Mem} {e : EnvIx} {d t p q : Nat}
  {i j : WordIx} {w va perm : Word} {asid : Nat} {W : WordIx → WordIx → Word → Prop}
  {upper : Prop}

/-- The assertions of `page_free` and `page_decref`. -/
def Asserts (f : Fault) : Prop :=
  f = .panic "assertion failed: pp->pp_ref == 0" ∨ f = .panic "assertion failed: pp->pp_ref > 0"

/-- A stop that changes nothing and is not an error code: an address is not in memory. -/
def BadAddress (f : Fault) : Prop :=
  f = .panic "KADDR called with invalid pa" ∨ f = .panic "pa2page called with invalid pa"

theorem BadAddress.not_asserts {f : Fault} (h : BadAddress f) : ¬ Asserts f := by
  rcases h with rfl | rfl
  · simp [Asserts]
  · simp [Asserts]

/-! ## Reading -/

theorem kaddr_spec (m : Mem) (pa : Word) : wp (kaddr pa) (fun f m' => m' = m ∧ f = ppn pa)
    (fun err m' => m' = m ∧ BadAddress err) m := by
  unfold kaddr
  simp only [wp_bind, wp_get, wp_ite, wp_throw, wp_pure]
  exact ⟨fun _ => ⟨trivial, Or.inl rfl⟩, fun _ => ⟨trivial, trivial⟩⟩

theorem pa2page_spec (m : Mem) (pa : Word) : wp (pa2page pa) (fun f m' => m' = m ∧ f = ppn pa)
    (fun err m' => m' = m ∧ BadAddress err) m := by
  unfold pa2page
  simp only [wp_bind, wp_get, wp_ite, wp_throw, wp_pure]
  exact ⟨fun _ => ⟨trivial, Or.inr rfl⟩, fun _ => ⟨trivial, trivial⟩⟩

@[simp] theorem wp_readPte {Q : Word → Mem → Prop} {E : Fault → Mem → Prop} (x : PtePtr) :
    wp (readPte x) Q E m ↔ Q (m.phys x.1 x.2) m := by
  unfold readPte
  simp only [wp_bind, wp_get, wp_pure]

@[simp] theorem wp_writePte {Q : Unit → Mem → Prop} {E : Fault → Mem → Prop} (x : PtePtr) (w : Word) :
    wp (writePte x w) Q E m ↔ Q () (m.store x.1 x.2 w) := wp_modify _

@[simp] theorem wp_tlbInvalidate {Q : Unit → Mem → Prop} {E : Fault → Mem → Prop} :
    wp (tlbInvalidate asid va) Q E m ↔ Q () (m.flush asid va) := wp_modify _

/-- Where the walk for `va` ends. -/
def Mem.walk (m : Mem) (d : Nat) (va : Word) : Option PtePtr :=
  (entry (m.phys d (pdx va))).map fun t => (t, ptx va)

/-- What `page_lookup` finds. -/
def Mem.lookup (m : Mem) (d : Nat) (va : Word) : Option (Nat × PtePtr) :=
  (m.walk d va).bind fun x => (entry (m.phys x.1 x.2)).map fun p => (p, x)

theorem pteOf_spec (m : Mem) (d : Nat) (va : Word) : wp (pteOf d va)
    (fun r m' => m' = m ∧ r = some (ppn (m.phys d (pdx va)), ptx va))
    (fun err m' => m' = m ∧ BadAddress err) m := by
  unfold pteOf
  rw [wp_bind, wp_readPte, wp_bind]
  refine wp_mono (kaddr_spec m _) ?_ (fun _ _ h => h)
  rintro f _ ⟨rfl, rfl⟩
  rw [wp_pure, ppn_pteAddr]
  exact ⟨rfl, rfl⟩

theorem pgdirWalk_spec (m : Mem) (d : Nat) (va : Word) : wp (pgdirWalk d va false)
    (fun r m' => m' = m ∧ r = m.walk d va) (fun err m' => m' = m ∧ BadAddress err) m := by
  unfold pgdirWalk Mem.walk entry
  rw [wp_bind, wp_readPte]
  split
  case isTrue => exact pteOf_spec m d va
  case isFalse =>
    rw [if_neg (by simp), wp_pure]
    exact ⟨rfl, rfl⟩

theorem pageLookup_spec (m : Mem) (d : Nat) (va : Word) : wp (pageLookup d va)
    (fun r m' => m' = m ∧ r = m.lookup d va) (fun err m' => m' = m ∧ BadAddress err) m := by
  unfold pageLookup Mem.lookup
  rw [wp_bind]
  refine wp_mono (pgdirWalk_spec m d va) ?_ (fun _ _ h => h)
  rintro r m ⟨rfl, rfl⟩
  cases hx : m.walk d va with
  | none => exact (wp_pure _).mpr ⟨rfl, rfl⟩
  | some x =>
    simp only [Option.bind_some, wp_bind, wp_readPte]
    unfold entry
    split
    case isTrue =>
      rw [wp_bind]
      refine wp_mono (pa2page_spec m _) ?_ (fun _ _ h => h)
      rintro pp _ ⟨rfl, rfl⟩
      exact (wp_pure _).mpr ⟨rfl, rfl⟩
    case isFalse => exact (wp_pure _).mpr ⟨rfl, rfl⟩

/-! ## Pages -/

theorem pageAlloc_taken (hlt : ∀ p ∈ m.pageFreeList, p < 2 ^ 20) : wp pageAlloc
    (fun p m' => ∃ rest, m.pageFreeList = p :: rest ∧ m' = m.taken p rest)
    (fun err m' => (err = .errno .noMem ∧ m' = m) ∨ BadAddress err) m := by
  unfold pageAlloc
  rw [wp_bind, wp_get]
  split
  case h_1 => exact (wp_throw _).mpr (Or.inl ⟨rfl, rfl⟩)
  case h_2 p rest hcons =>
    have hp := hlt p (hcons ▸ List.mem_cons_self)
    simp only [wp_bind, wp_modify]
    refine wp_mono (kaddr_spec _ _) ?_ (fun _ _ h => Or.inr h.2)
    rintro f m₁ ⟨rfl, rfl⟩
    rw [ppn_page2pa hp]
    exact (wp_pure _).mpr ⟨rest, hcons, rfl⟩

theorem MemInv.lt_two_pow (h : MemInv pool base sp m) (hp : p ∈ pool) : p < 2 ^ 20 := by
  have hlt := h.pool_lt p hp
  have hle := h.npage_le
  omega

theorem pageAlloc_spec (h : MemInv pool base sp m) : wp pageAlloc
    (fun p m' => ∃ rest, m.pageFreeList = p :: rest ∧ m' = m.taken p rest)
    (fun err m' => (err = .errno .noMem ∧ m' = m) ∨ BadAddress err) m :=
  pageAlloc_taken fun p hp => h.lt_two_pow (h.counts.free_used p hp)

theorem pageDecref_spec (m : Mem) (hpos : m.ppRef p ≠ 0) : wp (pageDecref p)
    (fun _ m' => m' = m.decref p) (fun _ _ => False) m := by
  unfold pageDecref pageFree
  simp only [wp_bind, wp_get, wp_ite, wp_throw, wp_modify, wp_pure]
  have hset : (m.setRef p (m.ppRef p - 1)).ppRef p = m.ppRef p - 1 := by simp
  rw [hset]
  refine ⟨fun h0 => hpos h0, fun _ => ⟨fun h0 => ⟨fun h1 => h1 h0, fun _ => ?_⟩, fun h1 => ?_⟩⟩
  · simp only [Mem.decref, Mem.setRef, if_pos h0]
  · simp only [Mem.decref, Mem.setRef, if_neg h1]

/-! ## User addresses -/

theorem user_ne_uvpt (hva : pdx va < pdx utop) : pdx va ≠ pdx uvpt := by
  intro h
  rw [h] at hva
  exact absurd hva (by decide)

theorem pde_user (hva : pdx va < pdx utop) : m.pde d (pdx va) = entry (m.phys d (pdx va)) := by
  unfold Mem.pde
  rw [if_neg (user_ne_uvpt hva)]

theorem MemInv.own_table (h : MemInv pool base sp m) (he : sp e = some d)
    (ht : m.pde d i = some t) (hi : i < pdx utop) : OwnTable pool m i t := by
  rcases h.table e d i t he ht with hown | ⟨hi', _⟩
  · exact hown
  · exact absurd hi (not_lt.mpr hi')

theorem lookup_user (hva : pdx va < pdx utop) {x : PtePtr} :
    m.lookup d va = some (p, x) ↔ ∃ t, x = (t, ptx va) ∧ m.pde d (pdx va) = some t ∧
      m.pte d (pdx va) (ptx va) = some p := by
  unfold Mem.lookup Mem.walk Mem.pte
  rw [← pde_user hva]
  cases ht : m.pde d (pdx va) with
  | none => simp
  | some t =>
    simp only [Option.map_some, Option.bind_some, Option.map_eq_some_iff, Prod.mk.injEq,
      Option.some.injEq]
    constructor
    · rintro ⟨p', hp, rfl, rfl⟩
      exact ⟨t, rfl, rfl, hp⟩
    · rintro ⟨t', rfl, rfl, hp⟩
      exact ⟨p, hp, rfl, rfl⟩

theorem lookup_user_none (hva : pdx va < pdx utop) :
    m.lookup d va = none ↔ m.pte d (pdx va) (ptx va) = none := by
  unfold Mem.lookup Mem.walk Mem.pte
  rw [← pde_user hva]
  cases ht : m.pde d (pdx va) with
  | none => simp
  | some t => simp

/-- `page_remove` has unmapped the page `p` at `va`. -/
structure Removed (pool : Finset Nat) (d asid : Nat) (va : Word) (m m' : Mem) (t p : Nat) : Prop where
  table : m.pde d (pdx va) = some t
  table_mem : t ∈ pool
  page : m.pte d (pdx va) (ptx va) = some p
  page_mem : p ∈ pool
  state : m' = ((m.decref p).store t (ptx va) 0).flush asid va

theorem pageRemove_spec (h : MemInv pool base sp m) (he : sp e = some d)
    (hva : pdx va < pdx utop) : wp (pageRemove d asid va)
    (fun _ m' => (m.pte d (pdx va) (ptx va) = none ∧ m' = m) ∨
      ∃ t p, Removed pool d asid va m m' t p)
    (fun err _ => BadAddress err) m := by
  unfold pageRemove
  rw [wp_bind]
  refine wp_mono (pageLookup_spec m d va) ?_ (fun _ _ h => h.2)
  rintro r m₁ ⟨hm, rfl⟩
  subst hm
  cases hl : m₁.lookup d va with
  | none => exact (wp_pure _).mpr (Or.inl ⟨(lookup_user_none hva).mp hl, rfl⟩)
  | some r =>
    obtain ⟨p, x⟩ := r
    obtain ⟨t, rfl, ht, hp⟩ := (lookup_user hva).mp hl
    have hown := h.own_table he ht hva
    have hp' : entry (m₁.phys t (ptx va)) = some p := by
      rwa [Mem.pte, ht, Option.bind_some] at hp
    have hpool := (hown.pages _ _ hp').2
    simp only [wp_bind]
    refine wp_mono (pageDecref_spec m₁ (h.ppRef_ne_zero (MemInv.pte_refs he hp hpool))) ?_
      (fun _ _ h => h.elim)
    rintro _ m₂ rfl
    rw [wp_writePte, wp_tlbInvalidate]
    exact Or.inr ⟨t, p, ht, hown.mem, hp, hpool, rfl⟩

theorem Removed.change (h : MemInv pool base sp m) (he : sp e = some d)
    (hr : Removed pool d asid va m m' t p) : Change pool base sp e asid W upper m m' := by
  obtain ⟨ht, htm, hp, hpm, rfl⟩ := hr
  exact .unlink_pte h he ht htm hp hpm

/-! ## Installing an entry -/

/-- A page table for `va` is there, and nothing else has happened. -/
structure TableReady (pool : Finset Nat) (base : Nat) (sp : Spaces) (e : EnvIx) (d : Nat) (va : Word)
    (m m' : Mem) (t : Nat) : Prop where
  change : ∀ asid W upper, Change pool base sp e asid W upper m m'
  tlb : m'.tlb = m.tlb
  table : m'.pde d (pdx va) = some t
  empty : m.pte d (pdx va) (ptx va) = none → m'.pte d (pdx va) (ptx va) = none
  held : ∀ q, Held pool sp m q → Held pool sp m' q ∧ m'.ppRef q = m.ppRef q
  free : ∀ q ∈ m'.pageFreeList, q ∈ m.pageFreeList

/-- The entry that `pgdir_walk` makes for a new page table. -/
def tableWord (pp : Nat) : Word := page2pa pp ||| pteV ||| pteCCacheable

theorem tableWord_eq (pp : Nat) : tableWord pp = pteWord pp 0 := by
  unfold tableWord pteWord
  rw [BitVec.or_assoc, BitVec.or_comm pteV, ← BitVec.or_assoc]
  simp only [BitVec.ofNat_eq_ofNat, BitVec.or_zero]

theorem page2pa_low {pp : Nat} {mask : Word} (hm : ~~~0xFFF &&& mask = 0) :
    page2pa pp &&& mask = 0 := by
  have h : page2pa pp = page2pa pp &&& ~~~0xFFF := by
    unfold page2pa
    ext i hi
    interval_cases i <;> simp
  rw [h, BitVec.and_assoc, hm]
  exact BitVec.and_zero

theorem tableWord_readOnly (pp : Nat) : tableWord pp &&& pteD = 0 := by
  unfold tableWord
  rw [BitVec.or_assoc, BitVec.and_or_distrib_right, page2pa_low (by decide)]
  decide

theorem entry_tableWord {pp : Nat} (hpp : pp < 2 ^ 20) : entry (tableWord pp) = some pp := by
  rw [tableWord_eq]
  exact entry_pteWord (ppn_pteWord_low hpp (by decide))

/-- `pgdir_walk` has put a new page table into the directory. -/
def Mem.newTable (m : Mem) (d : Nat) (i : WordIx) (t : Nat) (rest : List Nat) : Mem :=
  ((m.taken t rest).incref t).store d i (tableWord t)

section

variable {rest : List Nat}

theorem MemInv.taken_dir (h : MemInv pool base sp m) (he : sp e = some d)
    (hfree : m.pageFreeList = t :: rest) : (m.taken t rest).phys d = m.phys d :=
  (h.same_taken hfree).walked d (walked_dir he)

theorem Change.newTable (h : MemInv pool base sp m) (he : sp e = some d) (hi : i ≠ pdx uvpt)
    (hempty : entry (m.phys d i) = none) (hfree : m.pageFreeList = t :: rest)
    (hu : pdx utop ≤ i → upper) : Change pool base sp e asid W upper m (m.newTable d i t rest) := by
  have hfresh := h.fresh_taken hfree
  refine (Change.taken h hfree).trans (.link_pde (h.taken hfree) he hi ?_ hfresh ?_ ?_ hu)
  · rw [h.taken_dir he hfree]
    exact hempty
  · exact entry_tableWord (h.lt_two_pow hfresh.mem)
  · exact tableWord_readOnly t

theorem newTable_heap (h : MemInv pool base sp m) (he : sp e = some d) (hi : i ≠ pdx uvpt)
    (hempty : entry (m.phys d i) = none) (hfree : m.pageFreeList = t :: rest) :
    (m.newTable d i t rest).heap pool sp = (m.heap pool sp).take.link (.pde e i) t := by
  have hfresh := h.fresh_taken hfree
  rw [← h.heap_taken hfree]
  refine (h.taken hfree).heap_link_pde he hi ?_ hfresh (entry_tableWord (h.lt_two_pow hfresh.mem))
  rw [h.taken_dir he hfree]
  exact hempty

theorem newTable_held (h : MemInv pool base sp m) (he : sp e = some d) (hi : i ≠ pdx uvpt)
    (hempty : entry (m.phys d i) = none) (hfree : m.pageFreeList = t :: rest)
    (hq : Held pool sp m q) :
    Held pool sp (m.newTable d i t rest) q ∧ (m.newTable d i t rest).ppRef q = m.ppRef q := by
  have hqt : q ≠ t := by
    rintro rfl
    refine hq.not_free ?_
    change q ∈ m.pageFreeList
    rw [hfree]
    exact List.mem_cons_self
  constructor
  · unfold Held
    rw [newTable_heap h he hi hempty hfree]
    refine hq.take.link (refs_none ?_) hqt
    simp [Mem.refers, he, Mem.pde, hi, hempty]
  · simp [Mem.newTable, hqt]

theorem tableReady_new (h : MemInv pool base sp m) (he : sp e = some d) (hva : pdx va < pdx utop)
    (hempty : entry (m.phys d (pdx va)) = none) (hfree : m.pageFreeList = t :: rest) :
    TableReady pool base sp e d va m (m.newTable d (pdx va) t rest) t := by
  have hi := user_ne_uvpt hva
  have hfresh := h.fresh_taken hfree
  have hw := entry_tableWord (h.lt_two_pow hfresh.mem)
  have htable : (m.newTable d (pdx va) t rest).pde d (pdx va) = some t := by
    rw [pde_user hva]
    simpa [Mem.newTable] using hw
  refine ⟨fun asid W upper => ?_, rfl, htable, fun _ => ?_, fun q hq => ?_, fun q hq => ?_⟩
  · exact .newTable h he hi hempty hfree fun hu => absurd hva (not_lt.mpr hu)
  · have htd : t ≠ d := by
      rintro rfl
      exact hfresh.unreferenced _ ((h.taken hfree).dir_refs he)
    rw [Mem.pte, htable, Option.bind_some]
    unfold Mem.newTable
    rw [store_of_ne htd]
    change entry ((m.taken t rest).phys t (ptx va)) = none
    rw [hfresh.zero, entry_zero]
  · exact newTable_held h he hi hempty hfree hq
  · rw [hfree]
    exact List.mem_cons_of_mem _ hq

end

theorem pgdirWalkCreate_spec (h : MemInv pool base sp m) (he : sp e = some d)
    (hva : pdx va < pdx utop) : wp (pgdirWalk d va true)
    (fun r m' => ∃ t, r = some (t, ptx va) ∧ TableReady pool base sp e d va m m' t)
    (fun err m' => (err = .errno .noMem ∧ m' = m) ∨ BadAddress err) m := by
  unfold pgdirWalk
  rw [wp_bind, wp_readPte]
  split
  case isTrue hv =>
    refine wp_mono (pteOf_spec m d va) ?_ (fun _ _ h => Or.inr h.2)
    rintro r m' ⟨rfl, rfl⟩
    refine ⟨_, rfl, fun _ _ _ => .refl h, rfl, ?_, id, fun q hq => ⟨hq, rfl⟩, fun q hq => hq⟩
    rw [pde_user hva]
    exact entry_some.mpr ⟨hv, rfl⟩
  case isFalse hv =>
    have hempty : entry (m.phys d (pdx va)) = none := entry_none.mpr (by simpa using hv)
    rw [if_pos rfl, wp_bind]
    refine wp_mono (pageAlloc_spec h) ?_ (fun _ _ h => h)
    rintro t m₁ ⟨rest, hfree, rfl⟩
    have hset : (m.taken t rest).setRef t 1 = (m.taken t rest).incref t := by
      have h0 := (h.fresh_taken hfree).ppRef
      simp only [Mem.setRef, Mem.incref, h0]
      rfl
    simp only [wp_bind, wp_modify, wp_writePte, hset]
    refine wp_mono (pteOf_spec _ d va) ?_ (fun _ _ h => Or.inr h.2)
    rintro r m' ⟨rfl, rfl⟩
    have hready := tableReady_new h he hva hempty hfree
    refine ⟨t, ?_, hready⟩
    have hppn := (entry_some.mp (entry_tableWord (h.lt_two_pow (h.fresh_taken hfree).mem))).2
    have hself : (((m.taken t rest).incref t).store d (pdx va) (tableWord t)).phys d (pdx va) =
        tableWord t := by simp
    exact congrArg (fun f => some (f, ptx va)) ((congrArg ppn hself).trans hppn)

/-- A page has more references than its counter can say. -/
def Overflow (pool : Finset Nat) (sp : Spaces) (m : Mem) : Prop :=
  ∃ p ∈ pool, 65536 ≤ ((m.heap pool sp).fiber p).card

/-- `page_insert` has mapped the page `pp` at `va`. If `perm` does not hide the page, then only this
page has got a reference, or it has one too many now. -/
structure Inserted (pool : Finset Nat) (base : Nat) (sp : Spaces) (e : EnvIx) (d asid pp : Nat)
    (va perm : Word) (m m' : Mem) : Prop where
  installed : ∃ t, m'.pde d (pdx va) = some t ∧ m'.phys t (ptx va) = pteWord pp perm
  effect : ppn (pteWord pp perm) = pp →
    (∀ (W : WordIx → WordIx → Word → Prop) upper, W (pdx va) (ptx va) (pteWord pp perm) →
      Change pool base sp e asid W upper m m') ∨
    ((m.ppRef pp).toNat = 65535 ∧ m.pte d (pdx va) (ptx va) ≠ some pp ∧ Overflow pool sp m')

theorem Inserted.of_change (h : ∀ W upper, Change pool base sp e asid W upper m m₁)
    (hc : m₁.ppRef p = m.ppRef p) (hne : m.pte d (pdx va) (ptx va) ≠ some p)
    (hi : Inserted pool base sp e d asid p va perm m₁ m') :
    Inserted pool base sp e d asid p va perm m m' where
  installed := hi.installed
  effect hw := by
    rcases hi.effect hw with hch | ⟨hmax, -, hover⟩
    · exact Or.inl fun W upper hW => (h W upper).trans (hch W upper hW)
    · exact Or.inr ⟨hc ▸ hmax, hne, hover⟩

theorem held_flush (asid : Nat) (va : Word) (hp : Held pool sp m p) :
    Held pool sp (m.flush asid va) p := hp

theorem refers_pte_none (he : sp e = some d) (hp : m.pte d i j = none) :
    m.refers sp (.pte e i j) = none := by
  simp [Mem.refers, he, hp]

/-- The store that ends `page_insert`. -/
theorem inserted_store (h : MemInv pool base sp m) (he : sp e = some d) (hva : pdx va < pdx utop)
    (ht : m.pde d (pdx va) = some t) (hempty : m.pte d (pdx va) (ptx va) = none)
    (hp : Held pool sp m p) (hunseen : m.Unseen asid (pdx va) (ptx va)) :
    Inserted pool base sp e d asid p va perm m ((m.incref p).store t (ptx va) (pteWord p perm)) := by
  have hown := h.own_table he ht hva
  have hnone : entry (m.phys t (ptx va)) = none := by
    rwa [Mem.pte, ht, Option.bind_some] at hempty
  constructor
  · refine ⟨t, ?_, by simp⟩
    have hd : ((m.incref p).store t (ptx va) (pteWord p perm)).phys d = m.phys d :=
      store_of_ne (m := m.incref p) (h.table_ne_dir he ht he).symm
    rw [pde_congr hd]
    exact ht
  · intro hw
    by_cases hmax : (m.ppRef p).toNat = 65535
    · refine Or.inr ⟨hmax, by simp [hempty], p, hp.used, ?_⟩
      have hrefs : (((m.incref p).store t (ptx va) (pteWord p perm)).heap pool sp).refs =
          ((m.heap pool sp).link (.pte e (pdx va) (ptx va)) p).refs := by
        rw [refs_update (h.refers_link_pte he ht hown.mem (entry_pteWord hw)),
          Option.filter_some_pos (by simpa using hp.used)]
        rfl
      have hcard : ((m.heap pool sp).fiber p).card = 65535 := hp.counted.symm.trans hmax
      rw [Heap.fiber_congr hrefs, Heap.card_link (refs_none (refers_pte_none he hempty)), hcard]
    · exact Or.inl fun W upper hW =>
        .link_pte h he ht hown.mem hva hnone hp (entry_pteWord hw) hmax hunseen hW

theorem pageInsertNew_spec (h : MemInv pool base sp m) (he : sp e = some d)
    (hva : pdx va < pdx utop) (hempty : m.pte d (pdx va) (ptx va) = none)
    (hp : Held pool sp m p) : wp (pageInsertNew d asid p va perm)
    (fun _ m' => Inserted pool base sp e d asid p va perm m m' ∧
      ∀ q ∈ m'.pageFreeList, q ∈ m.pageFreeList)
    (fun err m' => (err = .errno .noMem ∧ ∀ W upper, Change pool base sp e asid W upper m m') ∨
      BadAddress err) m := by
  have hflush : ∀ W upper, Change pool base sp e asid W upper m (m.flush asid va) :=
    fun W upper => (Change.refl h).flush va
  unfold pageInsertNew
  rw [wp_bind, wp_tlbInvalidate, wp_bind]
  refine wp_mono (pgdirWalkCreate_spec (hflush (fun _ _ _ => True) True).inv he hva) ?_ ?_
  · rintro r m₁ ⟨t, rfl, hr⟩
    obtain ⟨hp₁, hc₁⟩ := hr.held p (held_flush asid va hp)
    have hm₁ : ∀ W upper, Change pool base sp e asid W upper m m₁ :=
      fun W upper => (hflush W upper).trans (hr.change asid W upper)
    have hunseen : m₁.Unseen asid (pdx va) (ptx va) := by
      unfold Mem.Unseen
      rw [hr.tlb]
      exact unseen_flush m asid va
    simp only [wp_bind, wp_modify, wp_writePte]
    refine ⟨?_, hr.free⟩
    exact .of_change hm₁ hc₁ (by simp [hempty]) (inserted_store (hm₁ (fun _ _ _ => True) True).inv he hva hr.table
      (hr.empty hempty) hp₁ hunseen)
  · rintro err m' (⟨rfl, rfl⟩ | hbad)
    · exact Or.inl ⟨rfl, hflush⟩
    · exact Or.inr hbad

theorem pageInsert_none {Q : Unit → Mem → Prop} {E : Fault → Mem → Prop}
    (hl : m.lookup d va = none) (hE : ∀ err, BadAddress err → E err m)
    (hnew : wp (pageInsertNew d asid p va perm) Q E m) :
    wp (pageInsert d asid p va perm) Q E m := by
  unfold pageInsert
  rw [wp_bind]
  refine wp_mono (pgdirWalk_spec m d va) ?_ (fun err m' h => h.1 ▸ hE err h.2)
  rintro r m₁ ⟨rfl, rfl⟩
  unfold Mem.lookup at hl
  cases hx : m₁.walk d va with
  | none => exact hnew
  | some x =>
    rw [hx, Option.bind_some, Option.map_eq_none_iff, entry_none] at hl
    simp only [wp_bind, wp_readPte, hl]
    exact hnew

theorem Removed.empty (h : MemInv pool base sp m) (he : sp e = some d)
    (hr : Removed pool d asid va m m' t p) : m'.pte d (pdx va) (ptx va) = none := by
  obtain ⟨ht, htm, _, _, rfl⟩ := hr
  have hd : (((m.decref p).store t (ptx va) 0).flush asid va).phys d = m.phys d :=
    store_of_ne (m := m.decref p) (h.table_ne_dir he ht he).symm
  have hself : (((m.decref p).store t (ptx va) 0).flush asid va).phys t (ptx va) = 0 := by simp
  rw [Mem.pte, pde_congr hd, ht, Option.bind_some, hself, entry_zero]

theorem Removed.held (h : MemInv pool base sp m) (he : sp e = some d)
    (hr : Removed pool d asid va m m' t p) (hq : Held pool sp m q) (hne : q ≠ p) :
    Held pool sp m' q ∧ m'.ppRef q = m.ppRef q := by
  obtain ⟨ht, htm, hp, hpm, rfl⟩ := hr
  refine ⟨held_flush asid va ?_, by simp [hne]⟩
  unfold Held
  rw [h.heap_unlink_pte he ht htm hp hpm]
  exact hq.unlink (MemInv.pte_refs he hp hpm) hne

theorem pageInsert_spec (h : MemInv pool base sp m) (he : sp e = some d)
    (hva : pdx va < pdx utop) (hp : Held pool sp m p) : wp (pageInsert d asid p va perm)
    (fun _ m' => Inserted pool base sp e d asid p va perm m m')
    (fun err m' => (err = .errno .noMem ∧ ∀ W upper, Change pool base sp e asid W upper m m') ∨
      BadAddress err) m := by
  cases hl : m.lookup d va with
  | none =>
    refine pageInsert_none hl (fun _ => Or.inr) ?_
    exact wp_mono (pageInsertNew_spec h he hva ((lookup_user_none hva).mp hl) hp)
      (fun _ _ h => h.1) (fun _ _ h => h)
  | some r =>
    obtain ⟨q, x⟩ := r
    obtain ⟨t, rfl, ht, hq⟩ := (lookup_user hva).mp hl
    have hown := h.own_table he ht hva
    have hq' : entry (m.phys t (ptx va)) = some q := by
      rwa [Mem.pte, ht, Option.bind_some] at hq
    obtain ⟨hvalid, hppn⟩ := entry_some.mp hq'
    have hwalk : m.walk d va = some (t, ptx va) := by
      rw [Mem.walk, ← pde_user hva, ht]
      rfl
    unfold pageInsert
    rw [wp_bind]
    refine wp_mono (pgdirWalk_spec m d va) ?_ (fun _ _ h => Or.inr h.2)
    rintro r m₁ ⟨hm, rfl⟩
    subst hm
    rw [hwalk]
    simp only [wp_bind, wp_readPte, if_pos hvalid]
    refine wp_mono (pa2page_spec m₁ _) ?_ (fun _ _ h => Or.inr h.2)
    rintro r m₂ ⟨hm, rfl⟩
    subst hm
    rw [hppn]
    split
    case isTrue hne =>
      -- another page is mapped there
      rw [wp_bind]
      refine wp_mono (pageRemove_spec h he hva) ?_ (fun _ _ h => Or.inr h)
      rintro _ m₃ (⟨hnone, _⟩ | ⟨t', q', hr⟩)
      · exact absurd (hq.symm.trans hnone) (by simp)
      · obtain rfl : q = q' := Option.some.inj (hq.symm.trans hr.page)
        obtain ⟨hp₃, hc₃⟩ := hr.held h he hp (Ne.symm hne)
        have hch : ∀ W upper, Change pool base sp e asid W upper m₂ m₃ := fun _ _ => hr.change h he
        refine wp_mono (pageInsertNew_spec (hch (fun _ _ _ => True) True).inv he hva (hr.empty h he) hp₃)
          ?_ ?_
        · exact fun _ m' hi => .of_change hch hc₃ (by simpa [hq] using hne) hi.1
        · rintro err m' (⟨herr, hch'⟩ | hbad)
          · exact Or.inl ⟨herr, fun W upper => (hch W upper).trans (hch' W upper)⟩
          · exact Or.inr hbad
    case isFalse heq =>
      have heq : q = p := not_not.mp heq
      subst heq
      rw [wp_bind, wp_tlbInvalidate, wp_writePte]
      have hd : ((m₂.flush asid va).store t (ptx va) (pteWord q perm)).phys d = m₂.phys d :=
        store_of_ne (m := m₂.flush asid va) (h.table_ne_dir he ht he).symm
      refine ⟨⟨t, by rw [pde_congr hd]; exact ht, by simp⟩, fun hw => Or.inl fun W upper hW => ?_⟩
      have hflush : Change pool base sp e asid W upper m₂ (m₂.flush asid va) := (Change.refl h).flush va
      refine hflush.trans (.relabel_pte hflush.inv he ht hown.mem ?_ (unseen_flush _ _ _) hW)
      exact hq'.trans (entry_pteWord hw).symm

/-! ## Page faults -/

/-- The kernel panics, but not in an assertion about a counter. -/
def Panics (f : Fault) : Prop := ¬ Asserts f ∧ ∀ e, f ≠ .errno e

theorem BadAddress.panics {f : Fault} (h : BadAddress f) : Panics f := by
  rcases h with rfl | rfl
  · simp [Panics, Asserts]
  · simp [Panics, Asserts]

theorem pdx_pteAddr (va : Word) : pdx (pteAddr va) = pdx va := by
  have h : pteAddr va >>> 22 = va >>> 22 := by
    unfold pteAddr
    ext i hi
    interval_cases i <;> simp
  unfold pdx
  rw [h]

theorem ptx_pteAddr (va : Word) : ptx (pteAddr va) = ptx va := by
  have h : pteAddr va >>> 12 = va >>> 12 := by
    unfold pteAddr
    ext i hi
    interval_cases i <;> simp
  unfold ptx
  rw [h]

theorem pdx_mono {a b : Word} (h : a ≤ b) : pdx a ≤ pdx b := by
  rw [Fin.le_def, pdx_val, pdx_val]
  exact Nat.div_le_div_right h

theorem passive_cases {va : Word} (h1 : ¬ (uenvs ≤ va ∧ va < upages))
    (h2 : ¬ (upages ≤ va ∧ va < uvpt)) (h3 : ¬ ulim ≤ va) :
    pdx va < pdx utop ∨ (pdx va = pdx uvpt ∧ uvpt ≤ va ∧ va < ulim) := by
  have e1 : uenvs.toNat = 2 ^ 22 * 509 := by decide
  have e2 : upages.toNat = 2 ^ 22 * 510 := by decide
  have e3 : uvpt.toNat = 2 ^ 22 * 511 := by decide
  have e4 : ulim.toNat = 2 ^ 22 * 512 := by decide
  have h509 : (pdx utop).val = 509 := by decide
  have h511 : (pdx uvpt).val = 511 := by decide
  simp only [BitVec.lt_def, BitVec.le_def, e1, e2, e3, e4] at h1 h2 h3 ⊢
  rw [Fin.lt_def, Fin.ext_iff, pdx_val, h509, h511]
  omega

theorem entry_selfMap (h : MemInv pool base sp m) (he : sp e = some d) :
    entry (m.phys d (pdx uvpt)) = some d := by
  rw [h.selfMap e d he]
  have hd := h.lt_two_pow (h.dir_pool e d he)
  refine entry_some.mpr ⟨?_, ?_⟩
  · rw [pteValid_or]
    have hv : pteValid pteV = true := by decide
    rw [hv, Bool.or_true]
  · rw [ppn_or, ppn_page2pa hd]
    have hv : ppn pteV = 0 := by decide
    rw [hv, Nat.or_zero]

theorem walk_window (h : MemInv pool base sp m) (he : sp e = some d) (hva : pdx va = pdx uvpt) :
    m.walk d va = some (d, ptx va) := by
  rw [Mem.walk, hva, entry_selfMap h he]
  rfl

theorem lookup_pteAddr : m.lookup d (pteAddr va) = m.lookup d va := by
  unfold Mem.lookup Mem.walk
  rw [pdx_pteAddr, ptx_pteAddr]

theorem lookup_congr (h : MemInv pool base sp m) (he : sp e = some d)
    (hs : SameTables pool sp m m') : m'.lookup d va = m.lookup d va := by
  have hwalk : m'.walk d va = m.walk d va := by
    rw [Mem.walk, hs.walked d (walked_dir he)]
    rfl
  unfold Mem.lookup
  rw [hwalk]
  cases hx : m.walk d va with
  | none => rfl
  | some x =>
    obtain ⟨t, ht, rfl⟩ := Option.map_eq_some_iff.mp hx
    have hwalked : m.Walked sp t := by
      by_cases hi : pdx va = pdx uvpt
      · rw [hi, entry_selfMap h he] at ht
        exact Option.some.inj ht ▸ walked_dir he
      · exact walked_table he (pde_some.mpr ⟨hi, ht⟩)
    simp only [Option.bind_some, hs.walked t hwalked]

/-- `passive_alloc` in the window: the page becomes a page table. -/
theorem insertWindow_spec (h : MemInv pool base sp m) (he : sp e = some d)
    (hva : pdx va = pdx uvpt) (hl : m.lookup d va = none) (hp : Fresh pool sp m p)
    (hu : pdx utop ≤ ptx va → upper) : wp (pageInsertNew d asid p va 0)
    (fun _ m' => Change pool base sp e asid W upper m m' ∧ m'.pageFreeList = m.pageFreeList)
    (fun err _ => BadAddress err) m := by
  have hempty : entry (m.phys d (ptx va)) = none := by
    rwa [Mem.lookup, walk_window h he hva, Option.bind_some, Option.map_eq_none_iff] at hl
  have hne : ptx va ≠ pdx uvpt := by
    intro heq
    rw [heq, entry_selfMap h he] at hempty
    cases hempty
  have hself := entry_some.mp (entry_selfMap h he)
  have hflush : Change pool base sp e asid W upper m (m.flush asid va) := (Change.refl h).flush va
  unfold pageInsertNew
  rw [wp_bind, wp_tlbInvalidate]
  unfold pgdirWalk
  simp only [wp_bind, wp_readPte, hva, Mem.flush_phys, if_pos hself.1]
  refine wp_mono (pteOf_spec _ d va) ?_ (fun _ _ h => h.2)
  rintro r m₁ ⟨rfl, rfl⟩
  rw [hva, Mem.flush_phys, hself.2]
  simp only [wp_bind, wp_modify, wp_writePte]
  refine ⟨?_, rfl⟩
  rw [← tableWord_eq]
  refine hflush.trans (.link_pde hflush.inv he hne hempty ?_ ?_ ?_ hu)
  · exact ⟨hp.mem, hp.not_free, hp.ppRef, hp.unreferenced, hp.zero⟩
  · exact entry_tableWord (h.lt_two_pow hp.mem)
  · exact tableWord_readOnly p

/-- A user address at which `passive_alloc` puts a page. -/
structure Faultable (va : Word) : Prop where
  low : utemp ≤ va
  user : pdx va < pdx utop

theorem BadAddress.panics_on {err : Fault} (msg : String) : BadAddress err →
    Panics (match err with
      | .errno _ => .panic msg
      | err => err) := by
  rintro (rfl | rfl)
  · simp [Panics, Asserts]
  · simp [Panics, Asserts]

theorem passiveAlloc_spec (h : MemInv pool base sp m) (he : sp e = some d)
    (hl : m.lookup d va = none)
    (hW : ∀ q ∈ m.pageFreeList, Faultable va → W (pdx va) (ptx va) (pteWord q pteD))
    (hu : uvpt ≤ va → va < ulim → pdx utop ≤ ptx va → upper) : wp (passiveAlloc va d asid)
    (fun _ m' => Change pool base sp e asid W upper m m' ∧ ∀ q ∈ m'.pageFreeList, q ∈ m.pageFreeList)
    (fun err _ => Panics err) m := by
  have hpanic : ∀ s, s ≠ "assertion failed: pp->pp_ref == 0" → s ≠ "assertion failed: pp->pp_ref > 0" →
      Panics (.panic s) := by
    intro s h1 h2
    simp [Panics, Asserts, h1, h2]
  unfold passiveAlloc panicOn
  simp only [wp_bind, wp_ite, wp_throw, Lib.wp_mapStop]
  refine ⟨fun _ => hpanic _ (by simp) (by simp), fun h0 => ⟨fun _ => hpanic _ (by simp) (by simp),
    fun _ => ⟨fun _ => hpanic _ (by simp) (by simp), fun h1 => ⟨fun _ => hpanic _ (by simp) (by simp),
    fun h2 => ⟨fun _ => hpanic _ (by simp) (by simp), fun h3 => ?_⟩⟩⟩⟩⟩
  refine wp_mono (pageAlloc_spec h) ?_ ?_
  · rintro p m₁ ⟨rest, hfree, rfl⟩
    have h₁ := h.taken hfree
    have hfresh := h.fresh_taken hfree
    have hp : Faultable va → W (pdx va) (ptx va) (pteWord p pteD) := by
      refine hW p ?_
      rw [hfree]
      exact List.mem_cons_self
    have hrest : ∀ q ∈ rest, q ∈ m.pageFreeList := by
      intro q hq
      rw [hfree]
      exact List.mem_cons_of_mem _ hq
    have hl₁ : (m.taken p rest).lookup d (pteAddr va) = none := by
      rw [lookup_pteAddr, lookup_congr h he (h.same_taken hfree), hl]
    have htaken : Change pool base sp e asid W upper m (m.taken p rest) := .taken h hfree
    refine pageInsert_none hl₁ (fun err h => h.panics_on _) ?_
    rcases passive_cases h1 h2 h3 with hva | ⟨hva, hlo, hhi⟩
    · -- below `UTOP`
      have hva' : pdx (pteAddr va) < pdx utop := by rwa [pdx_pteAddr]
      have hperm : passivePerm va = pteD := by
        unfold passivePerm
        rw [if_neg]
        rintro ⟨hlo, _⟩
        exact absurd (lt_of_le_of_lt (pdx_mono hlo) hva) (by decide)
      rw [hperm]
      refine wp_mono (pageInsertNew_spec h₁ he hva' ((lookup_user_none hva').mp hl₁) hfresh.held)
        ?_ ?_
      · rintro _ m' ⟨hi, hfree'⟩
        rcases hi.effect (ppn_pteWord_low (h.lt_two_pow hfresh.mem) (by decide)) with hch | ⟨hmax, _⟩
        · have hnew := hp ⟨BitVec.not_lt.mp h0, hva⟩
          rw [← pdx_pteAddr, ← ptx_pteAddr] at hnew
          exact ⟨htaken.trans (hch W upper hnew), fun q hq => hrest q (hfree' q hq)⟩
        · rw [hfresh.ppRef] at hmax
          exact absurd hmax (by decide)
      · rintro err m' (⟨rfl, _⟩ | herr)
        · exact hpanic _ (by simp) (by simp)
        · exact herr.panics_on _
    · have hperm : passivePerm va = 0 := by
        unfold passivePerm
        rw [if_pos ⟨hlo, hhi⟩]
      rw [hperm]
      have hva' : pdx (pteAddr va) = pdx uvpt := by rwa [pdx_pteAddr]
      have hu' : pdx utop ≤ ptx (pteAddr va) → upper := by
        rw [ptx_pteAddr]
        exact hu hlo hhi
      refine wp_mono (insertWindow_spec (W := W) h₁ he hva' hl₁ hfresh hu') ?_ (fun _ _ h => h.panics_on _)
      · rintro _ m' ⟨hch, hfree'⟩
        refine ⟨htaken.trans hch, fun q hq => hrest q ?_⟩
        rwa [hfree'] at hq
  · rintro err m' (⟨rfl, _⟩ | herr)
    · exact hpanic _ (by simp) (by simp)
    · exact herr.panics_on _

theorem refillLoop_spec (he : sp e = some d) (hu : uvpt ≤ va → va < ulim → pdx utop ≤ ptx va → upper)
    (n : Nat) (h : MemInv pool base sp m)
    (hW : ∀ q ∈ m.pageFreeList, Faultable va → W (pdx va) (ptx va) (pteWord q pteD)) :
    wp (refillLoop d asid va n)
      (fun x m' => Change pool base sp e asid W upper m m' ∧ m'.walk d va = some x ∧
        ∀ q ∈ m'.pageFreeList, q ∈ m.pageFreeList)
      (fun err _ => Panics err) m := by
  induction n generalizing m with
  | zero => exact (wp_throw _).mpr (by simp [Panics, Asserts])
  | succ n ih =>
    unfold refillLoop
    rw [wp_bind]
    refine wp_mono (pageLookup_spec m d va) ?_ (fun _ _ h => h.2.panics)
    rintro r m₁ ⟨hm, rfl⟩
    subst hm
    cases hl : m₁.lookup d va with
    | some r =>
      obtain ⟨y, hy, hmap⟩ := Option.bind_eq_some_iff.mp hl
      obtain ⟨p, -, rfl⟩ := Option.map_eq_some_iff.mp hmap
      exact (wp_pure _).mpr ⟨.refl h, hy, fun _ hq => hq⟩
    | none =>
      simp only [wp_bind]
      refine wp_mono (passiveAlloc_spec h he hl hW hu) ?_ (fun _ _ h => h)
      rintro _ m₂ ⟨hch, hfree⟩
      refine wp_mono (ih hch.inv fun q hq => hW q (hfree q hq)) ?_ (fun _ _ h => h)
      rintro _ m' ⟨hch', hwalk, hfree'⟩
      exact ⟨hch.trans hch', hwalk, fun q hq => hfree q (hfree' q hq)⟩

/-- The entry that `tlbwr` writes for the entry `x` of a page table. -/
def Mem.tlbEntry (m : Mem) (asid : Nat) (va : Word) (x : PtePtr) : TlbEntry where
  hi := entryHi asid va
  lo0 := m.phys x.1 ⟨x.2.val / 2 * 2, by omega⟩ >>> 6
  lo1 := m.phys x.1 ⟨x.2.val / 2 * 2 + 1, by omega⟩ >>> 6

/-- `_do_tlb_refill`: the page is there, and the pair is in the TLB. -/
structure Refilled (pool : Finset Nat) (base : Nat) (sp : Spaces) (e : EnvIx) (d asid : Nat)
    (va : Word) (W : WordIx → WordIx → Word → Prop) (upper : Prop) (m m' : Mem) : Prop where
  state : ∃ m₁ x, Change pool base sp e asid W upper m m₁ ∧ m₁.walk d va = some x ∧
    m' = { m₁ with tlb := m₁.tlbEntry asid va x :: m₁.tlb }
  free : ∀ q ∈ m'.pageFreeList, q ∈ m.pageFreeList

theorem doTlbRefill_spec (h : MemInv pool base sp m) (he : sp e = some d)
    (hW : ∀ q ∈ m.pageFreeList, Faultable va → W (pdx va) (ptx va) (pteWord q pteD))
    (hu : uvpt ≤ va → va < ulim → pdx utop ≤ ptx va → upper) :
    wp (doTlbRefill d va asid) (fun _ m' => Refilled pool base sp e d asid va W upper m m')
      (fun err _ => Panics err) m := by
  have hflush : Change pool base sp e asid W upper m (m.flush asid va) := (Change.refl h).flush va
  unfold doTlbRefill
  rw [wp_bind, wp_tlbInvalidate, wp_bind]
  refine wp_mono (refillLoop_spec he hu 2 hflush.inv hW) ?_ (fun _ _ h => h)
  rintro ⟨pt, i⟩ m₁ ⟨hch, hwalk, hfree⟩
  simp only [wp_bind, wp_readPte, wp_modify]
  exact ⟨⟨m₁, _, hflush.trans hch, hwalk, rfl⟩, hfree⟩

/-! ## Stores -/

/-- A page that may be written is a page of data. -/
theorem writable_spec (h : MemInv pool base sp m) (he : sp e = some d) : wp (writable d va)
    (fun r m' => m' = m ∧ ∀ p, r = some p → p ∈ pool ∧ ¬ m.Walked sp p)
    (fun err _ => BadAddress err) m := by
  unfold writable
  rw [wp_bind]
  refine wp_mono (pageLookup_spec m d va) ?_ (fun _ _ h => h.2)
  rintro r m₁ ⟨hm, rfl⟩
  subst hm
  cases hl : m₁.lookup d va with
  | none => exact (wp_pure _).mpr ⟨rfl, fun p hp => by cases hp⟩
  | some r =>
    obtain ⟨p, x⟩ := r
    simp only [wp_bind, wp_readPte]
    rw [wp_pure]
    refine ⟨rfl, fun p' hp' => ?_⟩
    split at hp'
    case isFalse => cases hp'
    case isTrue hD =>
      obtain rfl : p = p' := Option.some.inj hp'
      have hD : m₁.phys x.1 x.2 &&& pteD ≠ 0 := by simpa using hD
      obtain ⟨y, hwalk, hmap⟩ := Option.bind_eq_some_iff.mp hl
      obtain ⟨p', hp, hpair⟩ := Option.map_eq_some_iff.mp hmap
      obtain ⟨rfl, rfl⟩ := Prod.mk.inj hpair
      obtain ⟨t, ht, rfl⟩ := Option.map_eq_some_iff.mp hwalk
      -- the window and the template are read-only
      have hi : pdx va ≠ pdx uvpt := by
        intro hi
        rw [hi, entry_selfMap h he] at ht
        obtain rfl : d = t := Option.some.inj ht
        exact hD (h.dirReadOnly e d _ he)
      have hpde : m₁.pde d (pdx va) = some t := pde_some.mpr ⟨hi, ht⟩
      rcases h.table e d _ t he hpde with hown | ⟨_, hshared⟩
      · have hpool := (hown.pages _ _ hp).2
        refine ⟨hpool, h.data_not_walked (i := pdx va) (j := ptx va) he ?_ hpool⟩
        rw [Mem.pte, hpde, Option.bind_some]
        exact hp
      · exact absurd (hshared.readOnly _) hD

theorem Change.data (h : MemInv pool base sp m) (hp : p ∈ pool) (hw : ¬ m.Walked sp p)
    (j : WordIx) (w : Word) : Change pool base sp e asid W upper m (m.store p j w) :=
  .of_same h (.page hp hw rfl rfl) rfl rfl fun _ hx => hx

end Mos
