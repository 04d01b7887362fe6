import Mathlib.Data.Fintype.Sigma
import Mathlib.Data.Fintype.Sum
import Mathlib.Tactic.DeriveFintype
import Mos.Kern.Pmap
import Mos.Lib.RefCount

/-!
# Address spaces

The references that the page directories and page tables of the live
environments hold, as the places of a counted heap. `pool` are the pages that
`page_alloc` hands out; the others are the kernel's for good, among them the page
tables of the template that all directories share.
-/

namespace Mos

open Lib (Heap)

/-! ## Entries -/

/-- A word as an entry. -/
def valid (w : Word) : Option Word := if pteValid w then some w else none

theorem valid_some {w w' : Word} : valid w = some w' ↔ pteValid w = true ∧ w = w' := by
  unfold valid
  split <;> simp_all

/-- The page that an entry refers to. -/
def entry (w : Word) : Option Nat := if pteValid w then some (ppn w) else none

theorem entry_none {w : Word} : entry w = none ↔ pteValid w = false := by
  unfold entry
  split <;> simp_all

theorem entry_some {w : Word} {p : Nat} : entry w = some p ↔ pteValid w = true ∧ ppn w = p := by
  unfold entry
  split <;> simp_all

@[simp] theorem entry_zero : entry 0 = none := entry_none.mpr pteValid_zero

theorem entry_pteWord {pp : Nat} {perm : Word} (h : ppn (pteWord pp perm) = pp) :
    entry (pteWord pp perm) = some pp := entry_some.mpr ⟨pteValid_pteWord pp perm, h⟩

namespace Mem

/-- The page table at entry `i` of the directory `d`. Entry `PDX(UVPT)`, which maps the directory
itself, does not count. -/
def pde (m : Mem) (d : Nat) (i : WordIx) : Option Nat :=
  if i = pdx uvpt then none else entry (m.phys d i)

def pte (m : Mem) (d : Nat) (i j : WordIx) : Option Nat :=
  (m.pde d i).bind fun t => entry (m.phys t j)

/-- The entry that maps the page `(i, j)`, if it is valid. -/
def mapped (m : Mem) (d : Nat) (i j : WordIx) : Option Word :=
  (m.pde d i).bind fun t => valid (m.phys t j)

end Mem

theorem entry_eq (w : Word) : entry w = (valid w).map ppn := by
  unfold entry valid
  split <;> rfl

theorem pte_eq (m : Mem) (d : Nat) (i j : WordIx) : m.pte d i j = (m.mapped d i j).map ppn := by
  unfold Mem.pte Mem.mapped
  cases m.pde d i with
  | none => rfl
  | some t => exact entry_eq _

/-! ## References -/

/-- A place that may refer to a page: `env_pgdir`, a page directory entry, a page table entry. -/
inductive Ref where
  | dir (e : EnvIx)
  | pde (e : EnvIx) (i : WordIx)
  | pte (e : EnvIx) (i j : WordIx)
  deriving DecidableEq, Fintype

/-- Directories and page tables are not shared. -/
def Ref.sole : Ref → Prop
  | .pte .. => False
  | _ => True

def Ref.owner : Ref → EnvIx
  | .dir e | .pde e _ | .pte e _ _ => e

/-- The page directories of the live environments. -/
abbrev Spaces := EnvIx → Option Nat

namespace Mem

def refers (m : Mem) (sp : Spaces) : Ref → Option Nat
  | .dir e => sp e
  | .pde e i => (sp e).bind fun d => m.pde d i
  | .pte e i j => (sp e).bind fun d => m.pte d i j

def heap (pool : Finset Nat) (sp : Spaces) (m : Mem) : Heap Ref Nat where
  refs r := (m.refers sp r).filter (· ∈ pool)
  cnt p := (m.ppRef p).toNat
  free := m.pageFreeList

end Mem

variable {pool : Finset Nat} {base : Nat} {sp : Spaces} {m m' : Mem} {e : EnvIx} {d t p f : Nat}
  {i j : WordIx} {w : Word}

theorem refs_some {r : Ref} : (m.heap pool sp).refs r = some p ↔ m.refers sp r = some p ∧ p ∈ pool := by
  simp [Mem.heap, Option.filter_eq_some_iff]

/-! ## What holds of every address space -/

/-- A page table of an environment. -/
structure OwnTable (pool : Finset Nat) (m : Mem) (i : WordIx) (t : Nat) : Prop where
  mem : t ∈ pool
  pages : ∀ j p, entry (m.phys t j) = some p → i < pdx utop ∧ p ∈ pool

/-- A page table of the template, which maps pages of the kernel. -/
structure SharedTable (pool : Finset Nat) (m : Mem) (t : Nat) : Prop where
  kernel : t ∉ pool
  pages : ∀ j p, entry (m.phys t j) = some p → p ∉ pool
  readOnly : ∀ j, m.phys t j &&& pteD = 0

structure Layout (pool : Finset Nat) (base : Nat) (sp : Spaces) (m : Mem) : Prop where
  npage_le : m.npage ≤ 2 ^ 20
  pool_lt : ∀ p ∈ pool, p < m.npage
  dir_pool : ∀ e d, sp e = some d → d ∈ pool
  selfMap : ∀ e d, sp e = some d → m.phys d (pdx uvpt) = page2pa d ||| pteV
  dirReadOnly : ∀ e d i, sp e = some d → m.phys d i &&& pteD = 0
  table : ∀ e d i t, sp e = some d → m.pde d i = some t →
    OwnTable pool m i t ∨ (pdx utop ≤ i ∧ SharedTable pool m t)
  base_kernel : base ∉ pool
  baseReadOnly : ∀ i, pdx utop ≤ i → i < pdx uvpt → m.phys base i &&& pteD = 0
  baseTable : ∀ i t, pdx utop ≤ i → i < pdx uvpt → entry (m.phys base i) = some t →
    SharedTable pool m t

/-- The counters agree with the references. -/
structure MemInv (pool : Finset Nat) (base : Nat) (sp : Spaces) (m : Mem) : Prop
    extends Layout pool base sp m where
  counts : (m.heap pool sp).Inv (· ∈ pool) Ref.sole

/-! ## What a page directory or a page table does not see -/

/-- The pages in which a walk through the live directories reads. -/
def Mem.Walked (m : Mem) (sp : Spaces) (f : Nat) : Prop :=
  ∃ e d, sp e = some d ∧ (f = d ∨ ∃ i, m.pde d i = some f)

theorem walked_dir (he : sp e = some d) : m.Walked sp d := ⟨e, d, he, Or.inl rfl⟩

theorem walked_table (he : sp e = some d) (ht : m.pde d i = some t) : m.Walked sp t :=
  ⟨e, d, he, Or.inr ⟨i, ht⟩⟩

theorem pde_some : m.pde d i = some t ↔ i ≠ pdx uvpt ∧ entry (m.phys d i) = some t := by
  unfold Mem.pde
  split <;> simp_all

theorem pde_congr (h : m'.phys d = m.phys d) (i : WordIx) : m'.pde d i = m.pde d i := by
  unfold Mem.pde
  rw [h]

theorem refers_congr (h : ∀ f, m.Walked sp f → m'.phys f = m.phys f) :
    m'.refers sp = m.refers sp := by
  funext r
  cases r with
  | dir e => rfl
  | pde e i =>
    cases he : sp e with
    | none => simp [Mem.refers, he]
    | some d => simp [Mem.refers, he, pde_congr (h d (walked_dir he))]
  | pte e i j =>
    cases he : sp e with
    | none => simp [Mem.refers, he]
    | some d =>
      cases ht : m.pde d i with
      | none => simp [Mem.refers, Mem.pte, he, pde_congr (h d (walked_dir he)), ht]
      | some t =>
        simp [Mem.refers, Mem.pte, he, pde_congr (h d (walked_dir he)), ht,
          h t (walked_table he ht)]

/-- Memory that agrees on what the walks read and on what belongs to the kernel. -/
structure SameTables (pool : Finset Nat) (sp : Spaces) (m m' : Mem) : Prop where
  npage : m'.npage = m.npage
  kernel : ∀ f, f ∉ pool → m'.phys f = m.phys f
  walked : ∀ f, m.Walked sp f → m'.phys f = m.phys f

theorem SameTables.page {g : WordIx → Word} (hp : p ∈ pool) (hw : ¬ m.Walked sp p)
    (hn : m'.npage = m.npage) (hphys : m'.phys = Function.update m.phys p g) :
    SameTables pool sp m m' := by
  have hother : ∀ f, f ≠ p → m'.phys f = m.phys f := by
    intro f hf
    rw [hphys, Function.update_of_ne hf]
  refine ⟨hn, fun f hf => hother f ?_, fun f hf => hother f ?_⟩
  · rintro rfl
    exact hf hp
  · rintro rfl
    exact hw hf

theorem SharedTable.congr (h : SharedTable pool m t) (hk : ∀ f, f ∉ pool → m'.phys f = m.phys f) :
    SharedTable pool m' t := by
  obtain ⟨hkernel, hpages, hro⟩ := h
  exact ⟨hkernel, by rwa [hk t hkernel], by rwa [hk t hkernel]⟩

theorem OwnTable.congr (h : OwnTable pool m i t) (ht : m'.phys t = m.phys t) :
    OwnTable pool m' i t := ⟨h.mem, by rw [ht]; exact h.pages⟩

theorem Layout.congr (h : Layout pool base sp m) (hs : SameTables pool sp m m') :
    Layout pool base sp m' where
  npage_le := hs.npage ▸ h.npage_le
  pool_lt := hs.npage ▸ h.pool_lt
  dir_pool := h.dir_pool
  selfMap e d he := by
    rw [hs.walked d (walked_dir he)]
    exact h.selfMap e d he
  dirReadOnly e d i he := by
    rw [hs.walked d (walked_dir he)]
    exact h.dirReadOnly e d i he
  table e d i t he ht := by
    rw [pde_congr (hs.walked d (walked_dir he))] at ht
    rcases h.table e d i t he ht with hown | ⟨hi, hshared⟩
    · exact Or.inl (hown.congr (hs.walked t (walked_table he ht)))
    · exact Or.inr ⟨hi, hshared.congr hs.kernel⟩
  base_kernel := h.base_kernel
  baseReadOnly := by
    rw [hs.kernel base h.base_kernel]
    exact h.baseReadOnly
  baseTable := by
    rw [hs.kernel base h.base_kernel]
    exact fun i t hlo hhi ht => (h.baseTable i t hlo hhi ht).congr hs.kernel

theorem heap_congr (hr : m'.refers sp = m.refers sp) (hc : m'.ppRef = m.ppRef)
    (hf : m'.pageFreeList = m.pageFreeList) : m'.heap pool sp = m.heap pool sp := by
  unfold Mem.heap
  rw [hr, hc, hf]

theorem MemInv.congr (h : MemInv pool base sp m) (hs : SameTables pool sp m m')
    (hc : m'.ppRef = m.ppRef) (hf : m'.pageFreeList = m.pageFreeList) :
    MemInv pool base sp m' where
  toLayout := h.toLayout.congr hs
  counts := by
    rw [heap_congr (refers_congr hs.walked) hc hf]
    exact h.counts

/-! ## Pages that are not tables -/

namespace MemInv

theorem data_not_walked (h : MemInv pool base sp m) (he : sp e = some d)
    (hp : m.pte d i j = some p) (hpool : p ∈ pool) : ¬ m.Walked sp p := by
  have hdata : (m.heap pool sp).refs (.pte e i j) = some p :=
    refs_some.mpr ⟨by simp [Mem.refers, he, hp], hpool⟩
  rintro ⟨e', d', he', rfl | ⟨i', ht⟩⟩
  · have hdir : (m.heap pool sp).refs (.dir e') = some p :=
      refs_some.mpr ⟨by simp [Mem.refers, he'], hpool⟩
    exact absurd (h.counts.sole_ref (.dir e') _ _ trivial hdir hdata) (by simp)
  · have hpde : (m.heap pool sp).refs (.pde e' i') = some p :=
      refs_some.mpr ⟨by simp [Mem.refers, he', ht], hpool⟩
    exact absurd (h.counts.sole_ref (.pde e' i') _ _ trivial hpde hdata) (by simp)

theorem unreferenced_not_walked (hpool : p ∈ pool) (hp : ∀ r, (m.heap pool sp).refs r ≠ some p) :
    ¬ m.Walked sp p := by
  rintro ⟨e', d', he', rfl | ⟨i', ht⟩⟩
  · exact hp (.dir e') (refs_some.mpr ⟨by simp [Mem.refers, he'], hpool⟩)
  · exact hp (.pde e' i') (refs_some.mpr ⟨by simp [Mem.refers, he', ht], hpool⟩)

end MemInv

/-! ## Stores to tables and directories -/

theorem store_of_ne {g : Nat} (hg : g ≠ f) : (m.store f j w).phys g = m.phys g := by
  simp [Mem.store, hg]

theorem store_self : (m.store f j w).phys f = Function.update (m.phys f) j w := by
  simp [Mem.store]

theorem pde_store_self : (m.store d i w).pde d j =
    if j = i ∧ i ≠ pdx uvpt then entry w else m.pde d j := by
  unfold Mem.pde
  rw [store_self]
  rcases eq_or_ne j i with rfl | hji
  · by_cases hi : j = pdx uvpt <;> simp [hi]
  · simp [hji]

namespace MemInv

theorem dir_refs (h : MemInv pool base sp m) (he : sp e = some d) :
    (m.heap pool sp).refs (.dir e) = some d :=
  refs_some.mpr ⟨by simp [Mem.refers, he], h.dir_pool e d he⟩

theorem pde_refs (he : sp e = some d) (ht : m.pde d i = some t) (hpool : t ∈ pool) :
    (m.heap pool sp).refs (.pde e i) = some t := refs_some.mpr ⟨by simp [Mem.refers, he, ht], hpool⟩

theorem pte_refs (he : sp e = some d) (hp : m.pte d i j = some p) (hpool : p ∈ pool) :
    (m.heap pool sp).refs (.pte e i j) = some p := refs_some.mpr ⟨by simp [Mem.refers, he, hp], hpool⟩

theorem dir_inj (h : MemInv pool base sp m) {e' : EnvIx} (he : sp e = some d)
    (he' : sp e' = some d) : e' = e := by
  have := h.counts.sole_ref (.dir e) _ _ trivial (h.dir_refs he) (h.dir_refs he')
  exact Ref.dir.inj this

theorem table_ne_dir (h : MemInv pool base sp m) {e' : EnvIx} {d' : Nat} (he : sp e = some d)
    (ht : m.pde d i = some t) (he' : sp e' = some d') : t ≠ d' := by
  rintro rfl
  have hpool := h.dir_pool e' t he'
  have := h.counts.sole_ref (.dir e') _ _ trivial (h.dir_refs he') (pde_refs he ht hpool)
  exact absurd this (by simp)

theorem table_inj (h : MemInv pool base sp m) {e' : EnvIx} {d' : Nat} {i' : WordIx}
    (he : sp e = some d) (ht : m.pde d i = some t) (hpool : t ∈ pool) (he' : sp e' = some d')
    (ht' : m.pde d' i' = some t) : e' = e ∧ i' = i := by
  have := h.counts.sole_ref (.pde e i) _ _ trivial (pde_refs he ht hpool) (pde_refs he' ht' hpool)
  simpa using this

/-- A store to a page table changes one reference. -/
theorem refers_store_table (h : MemInv pool base sp m) (he : sp e = some d)
    (ht : m.pde d i = some t) (hpool : t ∈ pool) :
    (m.store t j w).refers sp = Function.update (m.refers sp) (.pte e i j) (entry w) := by
  have hdirs : ∀ e' d', sp e' = some d' → ∀ i', (m.store t j w).pde d' i' = m.pde d' i' :=
    fun e' d' he' => pde_congr (store_of_ne (h.table_ne_dir he ht he').symm)
  funext r
  cases r with
  | dir e' => simp [Mem.refers]
  | pde e' i' =>
    rw [Function.update_of_ne (by simp)]
    cases he' : sp e' with
    | none => simp [Mem.refers, he']
    | some d' => simp [Mem.refers, he', hdirs e' d' he']
  | pte e' i' j' =>
    cases he' : sp e' with
    | none =>
      have hne : e' ≠ e := by
        rintro rfl
        exact absurd (he'.symm.trans he) (by simp)
      rw [Function.update_of_ne (by simp [hne])]
      simp [Mem.refers, he']
    | some d' =>
      have hleft : (m.store t j w).refers sp (.pte e' i' j') =
          (m.pde d' i').bind fun t' => entry ((m.store t j w).phys t' j') := by
        simp [Mem.refers, Mem.pte, he', hdirs e' d' he']
      rw [hleft]
      cases ht' : m.pde d' i' with
      | none =>
        have hne : ¬ (e' = e ∧ i' = i) := by
          rintro ⟨rfl, rfl⟩
          obtain rfl : d = d' := Option.some.inj (he.symm.trans he')
          exact absurd (ht'.symm.trans ht) (by simp)
        rw [Function.update_of_ne (fun hr => hne (by simp_all))]
        simp [Mem.refers, Mem.pte, he', ht']
      | some t' =>
        rw [Option.bind_some]
        by_cases htt : t' = t
        · subst htt
          obtain ⟨rfl, rfl⟩ := h.table_inj he ht hpool he' ht'
          rw [store_self]
          rcases eq_or_ne j' j with rfl | hj
          · simp
          · simp [hj, Mem.refers, Mem.pte, he', ht']
        · have hne : ¬ (e' = e ∧ i' = i) := by
            rintro ⟨rfl, rfl⟩
            obtain rfl : d = d' := Option.some.inj (he.symm.trans he')
            exact htt (Option.some.inj (ht'.symm.trans ht))
          rw [Function.update_of_ne (fun hr => hne (by simp_all)), store_of_ne htt]
          simp [Mem.refers, Mem.pte, he', ht']

/-- A store to a page table changes one entry. -/
theorem mapped_store_table (h : MemInv pool base sp m) (he : sp e = some d)
    (ht : m.pde d i = some t) (hpool : t ∈ pool) (i' j' : WordIx) :
    (m.store t j w).mapped d i' j' = if i' = i ∧ j' = j then valid w else m.mapped d i' j' := by
  have hd : (m.store t j w).pde d i' = m.pde d i' :=
    pde_congr (store_of_ne (h.table_ne_dir he ht he).symm) i'
  unfold Mem.mapped
  rw [hd]
  cases ht' : m.pde d i' with
  | none =>
    have hne : i' ≠ i := by
      rintro rfl
      exact nomatch ht'.symm.trans ht
    simp [hne]
  | some t' =>
    rw [Option.bind_some, Option.bind_some]
    rcases eq_or_ne t' t with rfl | hne
    · obtain ⟨-, rfl⟩ := h.table_inj he ht hpool he ht'
      rw [store_self]
      rcases eq_or_ne j' j with rfl | hj
      · simp
      · simp [hj]
    · have hi : i' ≠ i := by
        rintro rfl
        exact hne (Option.some.inj (ht'.symm.trans ht))
      rw [store_of_ne hne, if_neg fun hij => hi hij.1]

theorem pte_store_dir (h : MemInv pool base sp m) (he : sp e = some d) {e' : EnvIx} {d' : Nat}
    {i' : WordIx} (he' : sp e' = some d') (hi : ¬ (e' = e ∧ i' = i)) :
    (m.store d i w).pde d' i' = m.pde d' i' ∧ (m.store d i w).pte d' i' j = m.pte d' i' j := by
  have hpde : (m.store d i w).pde d' i' = m.pde d' i' := by
    by_cases hee : e' = e
    · obtain rfl : d = d' := Option.some.inj (he.symm.trans (hee ▸ he'))
      rw [pde_store_self, if_neg fun hc => hi ⟨hee, hc.1⟩]
    · refine pde_congr (store_of_ne ?_) i'
      rintro rfl
      exact hee (h.dir_inj he he')
  refine ⟨hpde, ?_⟩
  unfold Mem.pte
  rw [hpde]
  cases ht : m.pde d' i' with
  | none => rfl
  | some t => simp only [Option.bind_some, store_of_ne (h.table_ne_dir he' ht he)]

/-- A store to a directory changes one reference, when no entry of a page table comes or goes with
it. -/
theorem refers_store_dir (h : MemInv pool base sp m) (he : sp e = some d) (hi : i ≠ pdx uvpt)
    (hold : ∀ j, m.pte d i j = none)
    (hnew : ∀ t, entry w = some t → t ≠ d ∧ ∀ j, entry (m.phys t j) = none) :
    (m.store d i w).refers sp = Function.update (m.refers sp) (.pde e i) (entry w) := by
  funext r
  cases r with
  | dir e' => simp [Mem.refers]
  | pde e' i' =>
    by_cases hei : e' = e ∧ i' = i
    · obtain ⟨rfl, rfl⟩ := hei
      simp [Mem.refers, he, pde_store_self, hi]
    · rw [Function.update_of_ne (by simpa using hei)]
      cases he' : sp e' with
      | none => simp [Mem.refers, he']
      | some d' => simp [Mem.refers, he', (h.pte_store_dir (w := w) (j := i) he he' hei).1]
  | pte e' i' j' =>
    rw [Function.update_of_ne (by simp)]
    by_cases hei : e' = e ∧ i' = i
    · obtain ⟨rfl, rfl⟩ := hei
      have hlost : (m.store d i' w).pte d i' j' = none := by
        unfold Mem.pte
        rw [pde_store_self, if_pos ⟨rfl, hi⟩]
        cases hw : entry w with
        | none => rfl
        | some t =>
          obtain ⟨htd, hzero⟩ := hnew t hw
          rw [Option.bind_some, store_of_ne htd, hzero]
      simp [Mem.refers, he, hlost, hold]
    · cases he' : sp e' with
      | none => simp [Mem.refers, he']
      | some d' => simp [Mem.refers, he', (h.pte_store_dir (w := w) he he' hei).2]

theorem mapped_none : m.mapped d i j = none ↔ m.pte d i j = none := by
  rw [pte_eq, Option.map_eq_none_iff]

theorem mapped_store_dir (h : MemInv pool base sp m) (he : sp e = some d) (hi : i ≠ pdx uvpt)
    (hold : ∀ j, m.pte d i j = none)
    (hnew : ∀ t, entry w = some t → t ≠ d ∧ ∀ j, entry (m.phys t j) = none) (i' j' : WordIx) :
    (m.store d i w).mapped d i' j' = m.mapped d i' j' := by
  rcases eq_or_ne i' i with rfl | hii
  · rw [mapped_none.mpr (hold j'), mapped_none]
    have hrefers := h.refers_store_dir he hi hold hnew
    have hpte := congrFun hrefers (.pte e i' j')
    rw [Function.update_of_ne (by simp)] at hpte
    simp only [Mem.refers, he, Option.bind_some] at hpte
    rw [hpte, hold]
  · have hpde := (h.pte_store_dir (w := w) (j := j') he he fun hc => hii hc.2).1
    unfold Mem.mapped
    rw [hpde]
    cases ht : m.pde d i' with
    | none => rfl
    | some t => simp only [Option.bind_some, store_of_ne (h.table_ne_dir he ht he)]

theorem layout_store_table (h : MemInv pool base sp m) (he : sp e = some d)
    (ht : m.pde d i = some t) (hpool : t ∈ pool)
    (hw : ∀ q, entry w = some q → i < pdx utop ∧ q ∈ pool) :
    Layout pool base sp (m.store t j w) := by
  have hdirs : ∀ e' d', sp e' = some d' → (m.store t j w).phys d' = m.phys d' :=
    fun e' d' he' => store_of_ne (h.table_ne_dir he ht he').symm
  have hkernel : ∀ f, f ∉ pool → (m.store t j w).phys f = m.phys f := by
    intro f hf
    refine store_of_ne ?_
    rintro rfl
    exact hf hpool
  refine ⟨h.npage_le, h.pool_lt, h.dir_pool, fun e' d' he' => ?_, fun e' d' i' he' => ?_,
    fun e' d' i' t' he' ht' => ?_, h.base_kernel, ?_, ?_⟩
  · rw [hdirs e' d' he']
    exact h.selfMap e' d' he'
  · rw [hdirs e' d' he']
    exact h.dirReadOnly e' d' i' he'
  · rw [pde_congr (hdirs e' d' he')] at ht'
    by_cases htt : t' = t
    · subst htt
      obtain ⟨rfl, rfl⟩ := h.table_inj he ht hpool he' ht'
      refine Or.inl ⟨hpool, fun j' q hq => ?_⟩
      rw [store_self] at hq
      rcases h.table e' d' i' t' he' ht' with hown | ⟨_, hshared⟩
      · rcases eq_or_ne j' j with rfl | hj
        · exact hw q (by simpa using hq)
        · exact hown.pages j' q (by simpa [hj] using hq)
      · exact absurd hpool hshared.kernel
    · rcases h.table e' d' i' t' he' ht' with hown | ⟨hi, hshared⟩
      · exact Or.inl (hown.congr (store_of_ne htt))
      · exact Or.inr ⟨hi, hshared.congr hkernel⟩
  · rw [hkernel base h.base_kernel]
    exact h.baseReadOnly
  · rw [hkernel base h.base_kernel]
    exact fun i' t' hlo hhi ht' => (h.baseTable i' t' hlo hhi ht').congr hkernel

theorem layout_store_dir (h : MemInv pool base sp m) (he : sp e = some d) (hi : i ≠ pdx uvpt)
    (hro : w &&& pteD = 0) (hw : ∀ t, entry w = some t → t ≠ d ∧ OwnTable pool m i t) :
    Layout pool base sp (m.store d i w) := by
  have hkernel : ∀ f, f ∉ pool → (m.store d i w).phys f = m.phys f := by
    intro f hf
    refine store_of_ne ?_
    rintro rfl
    exact hf (h.dir_pool e f he)
  refine ⟨h.npage_le, h.pool_lt, h.dir_pool, fun e' d' he' => ?_, fun e' d' i' he' => ?_,
    fun e' d' i' t' he' ht' => ?_, h.base_kernel, ?_, ?_⟩
  · rcases eq_or_ne d' d with rfl | hd
    · rw [store_self, Function.update_of_ne hi.symm]
      exact h.selfMap e' d' he'
    · rw [store_of_ne hd]
      exact h.selfMap e' d' he'
  · rcases eq_or_ne d' d with rfl | hd
    · rw [store_self]
      rcases eq_or_ne i' i with rfl | hii
      · simpa using hro
      · simpa [hii] using h.dirReadOnly e' d' i' he'
    · rw [store_of_ne hd]
      exact h.dirReadOnly e' d' i' he'
  · by_cases hei : e' = e ∧ i' = i
    · obtain ⟨rfl, rfl⟩ := hei
      obtain rfl : d = d' := Option.some.inj (he.symm.trans he')
      rw [pde_store_self, if_pos ⟨rfl, hi⟩] at ht'
      obtain ⟨hne, hown⟩ := hw t' ht'
      exact Or.inl (hown.congr (store_of_ne hne))
    · rw [(h.pte_store_dir (w := w) (j := i) he he' hei).1] at ht'
      rcases h.table e' d' i' t' he' ht' with hown | ⟨hi', hshared⟩
      · exact Or.inl (hown.congr (store_of_ne (h.table_ne_dir he' ht' he)))
      · exact Or.inr ⟨hi', hshared.congr hkernel⟩
  · rw [hkernel base h.base_kernel]
    exact h.baseReadOnly
  · rw [hkernel base h.base_kernel]
    exact fun i' t' hlo hhi ht' => (h.baseTable i' t' hlo hhi ht').congr hkernel

end MemInv

end Mos
