import Mos.Ipc.Failure
import Mos.Kern.Reuse

/-!
# What calls that fail use up

`sys_mem_alloc` keeps its page when `page_insert` fails, `env_alloc` its page
directory when no ASID is left.
-/

namespace Mos

open Lib

variable {m : Mem} {k k' : Kernel} {d p asid : Nat} {c e : EnvIx} {va perm : Word}

/-! ## `page_insert` that fails -/

theorem pageAlloc_failed (m : Mem) : wp pageAlloc (fun _ _ => True)
    (fun f m' => ¬ NoErrno f → m' = m) m := by
  unfold pageAlloc
  rw [wp_bind, wp_get]
  split
  case h_1 => exact (wp_throw _).mpr fun _ => rfl
  case h_2 =>
    simp only [wp_bind, wp_modify]
    refine wp_mono (kaddr_spec _ _) (fun _ _ _ => ?_) fun _ _ h hno => absurd h.2.noErrno hno
    exact (wp_pure _).mpr trivial

theorem pgdirWalk_failed (m : Mem) (d : Nat) (va : Word) : wp (pgdirWalk d va true)
    (fun _ _ => True) (fun f m' => ¬ NoErrno f → m' = m) m := by
  have hpte : ∀ m₁, wp (pteOf d va) (fun _ _ => True) (fun f m' => ¬ NoErrno f → m' = m) m₁ :=
    fun m₁ => wp_mono (pteOf_spec m₁ d va) (fun _ _ _ => trivial)
      fun _ _ h hno => absurd h.2.noErrno hno
  unfold pgdirWalk
  rw [wp_bind, wp_readPte]
  split
  case isTrue => exact hpte m
  case isFalse =>
    rw [if_pos rfl, wp_bind]
    refine wp_mono (pageAlloc_failed m) (fun pp m₁ _ => ?_) fun _ _ h => h
    rw [wp_bind, wp_modify, wp_bind, wp_writePte]
    exact hpte _

theorem pageInsertNew_failed (m : Mem) (d asid p : Nat) (va perm : Word) :
    wp (pageInsertNew d asid p va perm) (fun _ _ => True)
      (fun f m' => ¬ NoErrno f → m' = m.flush asid va) m := by
  unfold pageInsertNew
  rw [wp_bind, wp_tlbInvalidate, wp_bind]
  refine wp_mono (pgdirWalk_failed (m.flush asid va) d va) ?_ fun _ _ h => h
  intro r m₁ _
  cases r with
  | none => exact (wp_throw _).mpr fun hno => absurd (fun _ h => nomatch h) hno
  | some pte =>
    simp only [wp_bind, wp_modify, wp_writePte]

/-- The counter of the page goes down, and the page stays in use. -/
theorem pageRemove_counted {q : Nat} {x : PtePtr} (hl : m.lookup d va = some (q, x))
    (hq : m.ppRef q ≠ 1) : wp (pageRemove d asid va)
    (fun _ m' => m'.ppRef q ≠ m.ppRef q) (fun f _ => NoErrno f) m := by
  have hdec : m.ppRef q - 1 ≠ m.ppRef q := by
    intro h
    bv_omega
  have hkept : ¬ m.ppRef q - 1 = 0 := by
    intro h
    exact hq (by bv_omega)
  unfold pageRemove
  rw [wp_bind]
  refine wp_mono (pageLookup_spec m d va) ?_ fun _ _ h => h.2.noErrno
  rintro r m ⟨rfl, rfl⟩
  rw [hl]
  unfold pageDecref
  simp only [wp_bind, wp_get, wp_ite, wp_throw, wp_modify, wp_pure, wp_writePte, wp_tlbInvalidate,
    Mem.setRef_ppRef, Function.update_self]
  refine ⟨fun _ => Asserts.noErrno (Or.inr rfl), fun _ => ⟨fun h => absurd h hkept, fun _ => ?_⟩⟩
  rw [Mem.flush_ppRef, Mem.store_ppRef, Mem.setRef_ppRef, Function.update_self]
  exact hdec

theorem SelfTable.lookup (h : SelfTable m d va p) : m.lookup d va = some (d, d, pdx va) :=
  lookup_self h.index h.entry

/-- A failing `page_insert` changes only the TLB, unless it has removed the entry for the page table
from a directory that is its own page table. -/
theorem pageInsert_failed (m : Mem) (d asid p : Nat) (va perm : Word) :
    wp (pageInsert d asid p va perm) (fun _ _ => True)
      (fun f m' => ¬ NoErrno f → (SelfTable m d va p → m'.ppRef d ≠ m.ppRef d) ∧
        (¬ SelfTable m d va p → m' = m.flush asid va)) m := by
  cases hl : m.lookup d va with
  | none =>
    have hself : ¬ SelfTable m d va p := fun h => nomatch hl.symm.trans h.lookup
    refine pageInsert_none hl (fun _ hbad hno => absurd hbad.noErrno hno) ?_
    exact wp_mono (pageInsertNew_failed m d asid p va perm) (fun _ _ h => h)
      fun _ _ h hno => ⟨fun hs => absurd hs hself, fun _ => h hno⟩
  | some r =>
    obtain ⟨q, x⟩ := r
    by_cases hs : Starved m d va p
    · have htable : pteValid (m.phys d (pdx va)) = true := by
        obtain ⟨y, hwalk, -⟩ := Option.bind_eq_some_iff.mp hl
        obtain ⟨t, ht, -⟩ := Option.map_eq_some_iff.mp hwalk
        exact (entry_some.mp ht).1
      have hself := hs.table.resolve_left (by simp [htable])
      obtain ⟨rfl, rfl⟩ := Prod.mk.inj (Option.some.inj (hl.symm.trans hself.lookup))
      obtain ⟨y, hwalk, hmap⟩ := Option.bind_eq_some_iff.mp hl
      obtain ⟨q', hq, hpair⟩ := Option.map_eq_some_iff.mp hmap
      obtain ⟨rfl, rfl⟩ := Prod.mk.inj hpair
      obtain ⟨hv, hppn⟩ := entry_some.mp hq
      unfold pageInsert
      rw [wp_bind]
      refine wp_mono (pgdirWalk_spec m q' va) ?_ fun _ _ h hno => absurd h.2.noErrno hno
      rintro r m₁ ⟨rfl, rfl⟩
      rw [hwalk]
      simp only [wp_bind, wp_readPte, if_pos hv]
      refine wp_mono (pa2page_spec m₁ _) ?_ fun _ _ h hno => absurd h.2.noErrno hno
      rintro r m₂ ⟨rfl, rfl⟩
      rw [hppn, if_pos hself.other, wp_bind]
      refine wp_mono (pageRemove_counted hl hself.kept) ?_ fun _ _ h hno => absurd h hno
      intro _ m₃ hcount
      refine wp_mono (pageInsertNew_failed m₃ q' asid p va perm) (fun _ _ _ => trivial) ?_
      intro f m' hsame hno
      rw [hsame hno]
      exact ⟨fun _ => hcount, fun hs => absurd hself hs⟩
    · refine wp_mono (pageInsert_errno m d asid p va perm) (fun _ _ _ => trivial) ?_
      exact fun f _ hf hno => absurd (hf.mpr hs) hno

/-! ## `sys_mem_alloc` and `sys_mem_map` -/

/-- The valid page table entry for `va`. -/
def Kernel.mapping (k : Kernel) (e : EnvIx) (va : Word) : Option Word :=
  ((k.mem.walk (k.envs e).envPgdir va).map fun x => k.mem.phys x.1 x.2).filter pteValid

/-- Everyone's mappings, the counters and the set of free pages are as before. -/
structure Unspent (k k' : Kernel) : Prop where
  mappings : ∀ e va, k'.mapping e va = k.mapping e va
  refs : k'.mem.ppRef = k.mem.ppRef
  free : ∀ p, p ∈ k'.mem.pageFreeList ↔ p ∈ k.mem.pageFreeList

theorem Unspent.refl (k : Kernel) : Unspent k k := ⟨fun _ _ => rfl, rfl, fun _ => Iff.rfl⟩

theorem Unspent.flush (k : Kernel) (asid : Nat) (va : Word) :
    Unspent k (k.setMem (k.mem.flush asid va)) := ⟨fun _ _ => rfl, rfl, fun _ => Iff.rfl⟩

/-- If the call returns an error, it has used nothing up. -/
def FailsUnspent (x : K Word) (k : Kernel) : Prop :=
  ∀ err k', x k = .error (.errno err) k' → Unspent k k'

/-- Memory after `page_alloc` has taken the page `p`. -/
def Mem.allocated (m : Mem) (p : Nat) (rest : List Nat) : Mem :=
  { m with pageFreeList := rest, phys := Function.update m.phys (ppn (page2pa p)) fun _ => 0 }

/-- The call gets the last page, and none is left for a page table. -/
def LosesPage (k : Kernel) (envid va : Word) : Prop :=
  ∃ e p, isIllegalVa va = false ∧ target k envid true = some e ∧ k.mem.pageFreeList = [p] ∧
    ppn (page2pa p) < k.mem.npage ∧ Starved (k.mem.allocated p []) (k.envs e).envPgdir va p

/-- The call gets to map a page over one that the directory of the target is its own page table for,
and none is left. -/
def LosesMapping (k : Kernel) (srcid srcva dstid dstva : Word) : Prop :=
  ∃ src dst p x, isIllegalVa srcva = false ∧ isIllegalVa dstva = false ∧
    target k srcid true = some src ∧ target k dstid true = some dst ∧
    k.mem.lookup (k.envs src).envPgdir srcva = some (p, x) ∧
    k.mem.Looks (k.envs src).envPgdir srcva ∧ k.mem.pageFreeList = [] ∧
    SelfTable k.mem (k.envs dst).envPgdir dstva p

theorem fails_iff {α : Type} {x : K α} {P : Prop} {R : Kernel → Kernel → Prop}
    (h : wp x (fun _ _ => ¬ P) (fun err k' => (P → err.Returned ∧ ¬ R k k') ∧
      (¬ P → err.Returned → R k k')) k) :
    (∀ err k', x k = .error (.errno err) k' → R k k') ↔ ¬ P := by
  constructor
  · intro hall hp
    cases hx : x k with
    | ok v k' => exact wp_run_ok h hx hp
    | error err k' =>
      obtain ⟨⟨e, rfl⟩, hno⟩ := (wp_run_error h hx).1 hp
      exact hno (hall e k' hx)
  · intro hp err k' hx
    exact (wp_run_error h hx).2 hp ⟨err, rfl⟩

theorem fails_elsewhere {P : Prop} {err : Stop} (hp : ¬ P) (hs : err.Returned → Unspent k k') :
    (P → err.Returned ∧ ¬ Unspent k k') ∧ (¬ P → err.Returned → Unspent k k') :=
  ⟨fun h => absurd h hp, fun _ => hs⟩

/-- `page_insert` at the end of a call, in the memory `m` that the call has come to. -/
theorem insert_fails {P : Prop} (hrefs : m.ppRef = k.mem.ppRef) (hp : P → Starved m d va p)
    (hkept : Starved m d va p → ¬ P →
      ¬ SelfTable m d va p ∧ Unspent k (k.setMem (m.flush asid va)))
    (hlost : P → ¬ SelfTable m d va p → ¬ Unspent k (k.setMem (m.flush asid va))) :
    wp (pageInsert d asid p va perm) (fun _ _ => ¬ P)
      (fun f m' => (P → (Stop.fault f).Returned ∧ ¬ Unspent k (k.setMem m')) ∧
        (¬ P → (Stop.fault f).Returned → Unspent k (k.setMem m'))) m := by
  refine wp_mono (wp_and (pageInsert_errno m d asid p va perm)
    (pageInsert_failed m d asid p va perm)) (fun _ _ h hP => h.1 (hp hP)) ?_
  rintro f m' ⟨herr, hchange⟩
  refine ⟨fun hP => ?_, fun hP hret => ?_⟩
  · have hno : ¬ NoErrno f := fun h => herr.mp h (hp hP)
    refine ⟨(returned_fault f).mpr hno, fun hu => ?_⟩
    by_cases hself : SelfTable m d va p
    · have hcount := (hchange hno).1 hself
      rw [hrefs] at hcount
      exact hcount (congrFun hu.refs d)
    · rw [(hchange hno).2 hself] at hu
      exact hlost hP hself hu
  · have hno := (returned_fault f).mp hret
    have hstarved : Starved m d va p := by
      by_contra h
      exact hno (herr.mpr h)
    obtain ⟨hself, hu⟩ := hkept hstarved hP
    rw [(hchange hno).2 hself]
    exact hu

theorem memAlloc_failed (k : Kernel) (envid va perm : Word) :
    wp (sysMemAlloc envid va perm) (fun _ _ => ¬ LosesPage k envid va)
      (fun err k' => (LosesPage k envid va → err.Returned ∧ ¬ Unspent k k') ∧
        (¬ LosesPage k envid va → err.Returned → Unspent k k')) k := by
  unfold sysMemAlloc
  simp only [wp_bind, wp_ite, wp_throw]
  refine ⟨fun hill => fails_elsewhere ?_ fun _ => .refl k, fun hlegal => ?_⟩
  · rintro ⟨e, p, hlegal, -⟩
    cases hill.symm.trans hlegal
  refine wp_mono (envid2env_spec k envid true) ?_ ?_
  · rintro e k₁ ⟨rfl, he⟩
    rw [wp_onMem]
    unfold pageAlloc kaddr
    rw [wp_bind, wp_get]
    split
    case h_1 hnil =>
      refine (wp_throw _).mpr (fails_elsewhere ?_ fun _ => .refl k₁)
      rintro ⟨_, p, -, -, hone, -⟩
      cases hnil.symm.trans hone
    case h_2 p rest hcons =>
      simp only [wp_bind, wp_modify, wp_get, wp_ite, wp_throw, wp_pure]
      refine ⟨fun hbad => fails_elsewhere ?_ ?_, fun hgood => ?_⟩
      · rintro ⟨_, q, -, -, hone, hlt, -⟩
        obtain ⟨rfl, -⟩ := List.cons.inj (hcons.symm.trans hone)
        omega
      · rintro ⟨x, hx⟩
        cases hx
      · have hiff : LosesPage k₁ envid va ↔
            Starved (k₁.mem.allocated p rest) (k₁.envs e).envPgdir va p := by
          constructor
          · rintro ⟨e', q, -, he', hone, -, hs⟩
            obtain rfl : e = e' := Option.some.inj (he.symm.trans he')
            obtain ⟨rfl, rfl⟩ := List.cons.inj (hcons.symm.trans hone)
            exact hs
          · intro hs
            have hnil : rest = [] := hs.empty
            subst hnil
            exact ⟨e, p, (Bool.not_eq_true _).mp hlegal, he, hcons, Nat.lt_of_not_le hgood, hs⟩
        refine (wp_onMem _).mpr ?_
        have hrefs : (k₁.mem.allocated p rest).ppRef = k₁.mem.ppRef := rfl
        refine insert_fails hrefs hiff.mp (fun hs hno => absurd (hiff.mpr hs) hno) ?_
        intro hP _ hu
        have hnil : rest = [] := (hiff.mp hP).empty
        have hmem : p ∈ k₁.mem.pageFreeList := by simp [hcons]
        have hgone := (hu.free p).mpr hmem
        simp [Kernel.setMem, hnil] at hgone
  · rintro err k₁ ⟨rfl, -, hnone⟩
    refine fails_elsewhere ?_ fun _ => .refl k₁
    rintro ⟨e, -, -, he, -⟩
    cases hnone.symm.trans he

theorem memMap_failed (k : Kernel) (srcid srcva dstid dstva perm : Word) :
    wp (sysMemMap srcid srcva dstid dstva perm)
      (fun _ _ => ¬ LosesMapping k srcid srcva dstid dstva)
      (fun err k' => (LosesMapping k srcid srcva dstid dstva → err.Returned ∧ ¬ Unspent k k') ∧
        (¬ LosesMapping k srcid srcva dstid dstva → err.Returned → Unspent k k')) k := by
  unfold sysMemMap
  refine wp_guard (fun hill => fails_elsewhere ?_ fun _ => .refl k) fun hlegal => ?_
  · rintro ⟨_, _, _, _, hsrc, hdst, -⟩
    simp [hsrc, hdst] at hill
  rw [not_or, Bool.not_eq_true, Bool.not_eq_true] at hlegal
  rw [wp_bind]
  refine wp_mono (envid2env_spec k srcid true) ?_ ?_
  · rintro src k₁ ⟨rfl, hsrc⟩
    rw [wp_bind]
    refine wp_mono (envid2env_spec k₁ dstid true) ?_ ?_
    · rintro dst k ⟨rfl, hdst⟩
      rw [wp_bind, wp_get, wp_bind, wp_get, wp_bind, wp_onMem]
      refine wp_mono (pageLookup_exact k.mem _ srcva) ?_ ?_
      · rintro r m ⟨rfl, rfl, hlooks⟩
        cases hl : k.mem.lookup (k.envs src).envPgdir srcva with
        | none =>
          refine (wp_throw _).mpr (fails_elsewhere ?_ fun _ => .refl k)
          rintro ⟨src', _, _, _, -, -, hsrc', -, hl', -⟩
          obtain rfl : src = src' := Option.some.inj (hsrc.symm.trans hsrc')
          cases hl.symm.trans hl'
        | some r =>
          obtain ⟨p, x⟩ := r
          simp only [wp_bind, wp_pure, wp_onMem]
          refine insert_fails rfl ?_ ?_ ?_
          · rintro ⟨src', dst', p', x', -, -, hsrc', hdst', hl', -, hempty, hself⟩
            obtain rfl : src = src' := Option.some.inj (hsrc.symm.trans hsrc')
            obtain rfl : dst = dst' := Option.some.inj (hdst.symm.trans hdst')
            obtain ⟨rfl, rfl⟩ := Prod.mk.inj (Option.some.inj (hl.symm.trans hl'))
            exact ⟨hempty, Or.inr hself⟩
          · intro hs hno
            refine ⟨fun hself => hno ?_, .flush k _ _⟩
            exact ⟨src, dst, p, x, hlegal.1, hlegal.2, hsrc, hdst, hl, hlooks, hs.empty, hself⟩
          · rintro ⟨src', dst', p', x', -, -, hsrc', hdst', hl', -, -, hself⟩ hno
            obtain rfl : src = src' := Option.some.inj (hsrc.symm.trans hsrc')
            obtain rfl : dst = dst' := Option.some.inj (hdst.symm.trans hdst')
            obtain ⟨rfl, rfl⟩ := Prod.mk.inj (Option.some.inj (hl.symm.trans hl'))
            exact absurd hself hno
      · rintro f m ⟨hf, hbad⟩
        refine fails_elsewhere ?_ fun hret => absurd hf ((returned_fault f).mp hret)
        rintro ⟨src', _, _, _, -, -, hsrc', -, -, hlooks, -⟩
        obtain rfl : src = src' := Option.some.inj (hsrc.symm.trans hsrc')
        exact hbad hlooks
    · rintro err k ⟨rfl, -, hnone⟩
      refine fails_elsewhere ?_ fun _ => .refl k
      rintro ⟨_, _, _, _, -, -, -, hdst, -⟩
      cases hnone.symm.trans hdst
  · rintro err k₁ ⟨rfl, -, hnone⟩
    refine fails_elsewhere ?_ fun _ => .refl k₁
    rintro ⟨_, _, _, _, -, -, hsrc, -⟩
    cases hnone.symm.trans hsrc

/-- When the two calls use nothing up if they fail. -/
theorem mem_calls_atomic_iff (k : Kernel) :
    (∀ envid va perm, FailsUnspent (sysMemAlloc envid va perm) k ↔ ¬ LosesPage k envid va) ∧
    ∀ srcid srcva dstid dstva perm, FailsUnspent (sysMemMap srcid srcva dstid dstva perm) k ↔
      ¬ LosesMapping k srcid srcva dstid dstva :=
  ⟨fun envid va perm => fails_iff (memAlloc_failed k envid va perm),
    fun srcid srcva dstid dstva perm => fails_iff (memMap_failed k srcid srcva dstid dstva perm)⟩

/-- 65 pages of memory: one is free when the first program has been loaded. -/
def tinyMachine : Machine where
  npage := 65
  envsFrame := 0
  endFrame := 57
  ram := fun _ _ => 0
  npage_le := by decide
  envs_fit := smallMachine.envs_fit
  pages_fit := by decide

/-- The page 58 is free, and is not after the call has returned `-E_NO_MEM`. -/
def losesLast (k : Kernel) (envid va perm : Word) : Bool :=
  match sysMemAlloc envid va perm k with
  | .error (.errno .noMem) k' => k.mem.pageFreeList.contains 58 && !k'.mem.pageFreeList.contains 58
  | _ => false

theorem not_failsUnspent_of_losesLast {envid : Word} (h : losesLast k envid va perm = true) :
    ¬ FailsUnspent (sysMemAlloc envid va perm) k := by
  intro hu
  unfold losesLast at h
  split at h
  · rename_i k' hrun
    have hsame := (hu _ _ hrun).free 58
    simp only [Bool.and_eq_true, Bool.not_eq_true', List.contains_iff_mem] at h
    rw [← List.contains_iff_mem, h.2] at hsame
    exact Bool.noConfusion (hsame.mpr h.1)
  · exact Bool.noConfusion h

/-- The first program asks for a page where it has no page table. -/
theorem not_mem_calls_atomic : ¬ ∀ k, mos.Reachable k →
    (∀ envid va perm, FailsUnspent (sysMemAlloc envid va perm) k) ∧
    ∀ srcid srcva dstid dstva perm, FailsUnspent (sysMemMap srcid srcva dstid dstva perm) k := by
  have hcheck : ((boot tinyMachine [(bareLoop, 1)]).any fun k₀ => (mos.exec [.start] k₀).any fun k =>
      losesLast k 0 0x10000000 pteD) = true := by decide +kernel
  obtain ⟨k₀, h₀, hexec⟩ := (Option.any_eq_true _ _).mp hcheck
  obtain ⟨k, hk, hbad⟩ := (Option.any_eq_true _ _).mp hexec
  intro h
  exact not_failsUnspent_of_losesLast hbad ((h k (.exec (.init ⟨_, _, h₀⟩) hk)).1 _ _ _)

/-! ## `env_alloc` and `sys_exofork` -/

/-- The free pages, the counters, `env_free_list` and `asid_bitmap` are as before. -/
structure Reclaimed (k k' : Kernel) : Prop where
  free : k'.mem.pageFreeList = k.mem.pageFreeList
  refs : k'.mem.ppRef = k.mem.ppRef
  slots : k'.envFreeList = k.envFreeList
  asids : k'.asidBitmap = k.asidBitmap

/-- `n` calls one after another that return errors. -/
inductive Fails {α : Type} (x : K α) : Nat → Kernel → Kernel → Prop
  | zero (k : Kernel) : Fails x 0 k k
  | succ {n k k₁ k' err} (h : Fails x n k k₁) (hx : x k₁ = .error (.errno err) k') :
      Fails x (n + 1) k k'

/-- A slot and a page are free and no ASID is. -/
def LosesDirectory (k : Kernel) : Prop :=
  k.envFreeList ≠ [] ∧ (∃ p rest, k.mem.pageFreeList = p :: rest ∧ ppn (page2pa p) < k.mem.npage) ∧
    ∀ i < nasid, k.asidBitmap i = true

/-- `env_alloc` fails as it was, or it loses a page directory. -/
theorem envAlloc_failed (k : Kernel) (parentId : Word) :
    wp (envAlloc parentId) (fun _ _ => ¬ LosesDirectory k)
      (fun err k' => (LosesDirectory k → err.Returned ∧ ¬ Reclaimed k k') ∧
        (¬ LosesDirectory k → err.Returned → k' = k)) k := by
  unfold envAlloc
  rw [wp_bind, wp_get]
  split
  case h_1 hnil =>
    exact (wp_throw _).mpr ⟨fun h => absurd hnil h.1, fun _ _ => rfl⟩
  case h_2 e slots hslots =>
    have hslot : k.envFreeList ≠ [] := by simp [hslots]
    unfold envSetup envSetupVm
    simp only [wp_bind, wp_onMem]
    unfold pageAlloc kaddr
    rw [wp_bind, wp_get]
    split
    case h_1 hnil =>
      refine (wp_throw _).mpr ⟨?_, fun _ _ => rfl⟩
      rintro ⟨-, ⟨p, rest, hcons, -⟩, -⟩
      cases hnil.symm.trans hcons
    case h_2 p rest hcons =>
      simp only [wp_bind, wp_modify, wp_get, wp_ite, wp_throw, wp_pure, wp_updEnv]
      have hnot : ∀ {msg}, ¬ (Stop.fault (.panic msg)).Returned := by
        rintro msg ⟨x, hx⟩
        cases hx
      refine ⟨fun hbad => ⟨?_, fun _ hret => absurd hret hnot⟩, fun hgood => ?_⟩
      · rintro ⟨-, ⟨q, rest', hcons', hlt⟩, -⟩
        obtain ⟨rfl, -⟩ := List.cons.inj (hcons.symm.trans hcons')
        omega
      refine ⟨fun hbad => absurd hbad hgood, fun _ => ?_⟩
      unfold asidAlloc mkenvid
      simp only [wp_bind, wp_get]
      split
      case h_1 i hfound =>
        simp only [wp_modify, wp_pure, wp_bind]
        rintro ⟨-, -, hall⟩
        have hfree := List.find?_some hfound
        have hlt := List.mem_range.mp (List.mem_of_find?_eq_some hfound)
        simp [Kernel.setMem, Kernel.setEnv, hall i hlt] at hfree
      case h_2 hfull =>
        refine (wp_throw _).mpr ⟨fun _ => ⟨⟨_, rfl⟩, fun hr => ?_⟩, fun hno => absurd ?_ hno⟩
        · have hlost := hr.free
          simp [Kernel.setMem, Kernel.setEnv, Mem.setRef, hcons] at hlost
        · refine ⟨hslot, ⟨p, rest, hcons, Nat.lt_of_not_le hgood⟩, fun i hi => ?_⟩
          have hused := List.find?_eq_none.mp hfull i (List.mem_range.mpr hi)
          simpa [Kernel.setMem, Kernel.setEnv] using hused

theorem exofork_failed (k : Kernel) :
    wp sysExofork (fun _ _ => ¬ (k.curenv ≠ none ∧ LosesDirectory k))
      (fun err k' => (k.curenv ≠ none ∧ LosesDirectory k → err.Returned ∧ ¬ Reclaimed k k') ∧
        (¬ (k.curenv ≠ none ∧ LosesDirectory k) → err.Returned → k' = k)) k := by
  unfold sysExofork
  rw [wp_bind]
  refine wp_curenvPtr (fun c hc => ?_) fun hnone => ?_
  · have hcur : k.curenv ≠ none := by simp [hc]
    rw [wp_bind, wp_get, wp_bind]
    refine wp_mono (envAlloc_failed k _) (fun e k₁ h => ?_) fun err k' h => ?_
    · simp only [wp_bind, wp_get, wp_updEnv, wp_pure]
      exact fun hl => h hl.2
    · exact ⟨fun hl => h.1 hl.2, fun hno => h.2 fun hl => hno ⟨hcur, hl⟩⟩
  · refine ⟨fun hl => absurd hnone hl.1, ?_⟩
    rintro _ ⟨x, hx⟩
    cases hx

/-- When a failing `env_alloc`, and any number of failing `sys_exofork`, uses nothing up. -/
theorem env_alloc_atomic_iff (k : Kernel) :
    (∀ parentId, (∀ err k', envAlloc parentId k = .error (.errno err) k' → Reclaimed k k') ↔
      ¬ LosesDirectory k) ∧
    ((∀ n k', Fails sysExofork n k k' → Reclaimed k k') ↔
      ¬ (k.curenv ≠ none ∧ LosesDirectory k)) := by
  have hrefl : Reclaimed k k := ⟨rfl, rfl, rfl, rfl⟩
  refine ⟨fun parentId => ?_, ⟨fun hall => ?_, fun hno n k' h => ?_⟩⟩
  · refine fails_iff (wp_mono (envAlloc_failed k parentId) (fun _ _ h => h) fun _ _ h => ?_)
    exact ⟨h.1, fun hno hret => h.2 hno hret ▸ hrefl⟩
  · refine (fails_iff (R := Reclaimed) (wp_mono (exofork_failed k) (fun _ _ h => h)
      fun _ _ h => ?_)).mp fun err k' hx => hall 1 k' (.succ (.zero k) hx)
    exact ⟨h.1, fun hno hret => h.2 hno hret ▸ hrefl⟩
  · -- the state stays the same, so the calls go on to fail without loss
    have hsame : k' = k := by
      induction h with
      | zero => rfl
      | succ _ hx ih =>
        have ih := ih hrefl hno
        subst ih
        exact (wp_run_error (exofork_failed _) hx).2 hno ⟨_, rfl⟩
    rw [hsame]
    exact hrefl

/-! ## As many children as there are ASIDs -/

/-- The first program and its children have the ASIDs below `n`; the rest of `pages` pages is free. -/
structure Family (pages n : Nat) (k : Kernel) : Prop where
  cur : k.curenv = some 0
  slots : k.envFreeList.length + n = nenv
  free : k.mem.pageFreeList.length + n = pages
  page_lt : ∀ p ∈ k.mem.pageFreeList, p < k.mem.npage
  npage_le : k.mem.npage ≤ 2 ^ 20
  asids : ∀ i < nasid, k.asidBitmap i = decide (i < n)

theorem Family.find {pages n : Nat} (h : Family pages n k) (hn : n < nasid) :
    ((List.range nasid).find? fun i => !k.asidBitmap i) = some n := by
  rw [List.find?_range_eq_some]
  refine ⟨by simp [h.asids n hn], List.mem_range.mpr hn, fun i hi => ?_⟩
  simp [h.asids i (hi.trans hn), hi]

theorem exofork_family {pages n : Nat} (h : Family pages n k) (hn : n < nasid) (hpages : n < pages) :
    wp sysExofork (fun _ k' => Family pages (n + 1) k' ∧ k'.kstack = k.kstack) (fun _ _ => False) k := by
  have hslots := h.slots
  have hfree := h.free
  obtain ⟨e, slots, hes⟩ : ∃ e slots, k.envFreeList = e :: slots := by
    refine List.exists_cons_of_ne_nil fun hnil => ?_
    rw [hnil] at hslots
    exact absurd hn (by rw [← Nat.zero_add n]; exact hslots ▸ by decide)
  obtain ⟨p, rest, hps⟩ : ∃ p rest, k.mem.pageFreeList = p :: rest := by
    refine List.exists_cons_of_ne_nil fun hnil => ?_
    rw [hnil, List.length_nil] at hfree
    omega
  have hlt : p < k.mem.npage := h.page_lt p (by simp [hps])
  have hppn := ppn_page hlt h.npage_le
  unfold sysExofork envAlloc envSetup envSetupVm asidAlloc mkenvid
  rw [wp_bind]
  refine wp_curenvPtr (fun c _ => ?_) (fun hnone => nomatch h.cur.symm.trans hnone)
  simp only [wp_bind, wp_get, hes, wp_onMem]
  unfold pageAlloc kaddr
  simp only [wp_bind, wp_get, hps, wp_modify, wp_ite, wp_throw, wp_pure, hppn, wp_updEnv]
  refine ⟨fun hbad => absurd hlt (by omega), fun _ => ⟨fun hbad => absurd hlt (Nat.not_lt.mpr hbad),
    fun _ => ?_⟩⟩
  have hfind := h.find hn
  simp only [Kernel.setMem_asidBitmap, Kernel.setEnv_asidBitmap, hfind, wp_bind, wp_modify, wp_pure]
  refine ⟨⟨h.cur, ?_, ?_, ?_, h.npage_le, ?_⟩, rfl⟩
  · show (k.envFreeList.erase e).length + (n + 1) = nenv
    rw [hes, List.length_cons] at hslots
    rw [hes, List.erase_cons_head]
    omega
  · show rest.length + (n + 1) = pages
    rw [hps, List.length_cons] at hfree
    omega
  · show ∀ q ∈ rest, q < k.mem.npage
    exact fun q hq => h.page_lt q (by simp [hps, hq])
  · show ∀ i < nasid, Function.update k.asidBitmap n true i = decide (i < n + 1)
    intro i hi
    rcases eq_or_ne i n with rfl | hne
    · simp
    · rw [Function.update_of_ne hne, h.asids i hi]
      exact decide_eq_decide.mpr (by omega)

theorem family_next {pages n : Nat} (h : Family pages n k) (hu : k.status = userStatus)
    (hn : n < nasid) (hpages : n < pages) :
    ∃ k', next (callOp 9 0 0 0) k = some k' ∧ Family pages (n + 1) k' ∧ k'.status = userStatus := by
  have hent : ∀ f, Family pages n (k.entered f) := fun f =>
    ⟨h.cur, h.slots, h.free, h.page_lt, h.npage_le, h.asids⟩
  obtain ⟨k₁, v, hf, hnext, hst⟩ := syscall_next (P := Family pages (n + 1)) (by rw [h.cur]; rfl) hu
    (ofFrame_call 9 0 0 0) (exofork_family (hent _) hn hpages)
  exact ⟨_, hnext, ⟨hf.cur, hf.slots, hf.free, hf.page_lt, hf.npage_le, hf.asids⟩, hst⟩

theorem family_grows {pages : Nat} (hpages : nasid ≤ pages) (hr : mos.Reachable k)
    (h : Family pages 1 k) (hu : k.status = userStatus) (n : Nat) (hn : n + 1 ≤ nasid) :
    ∃ k', mos.Reachable k' ∧ Family pages (n + 1) k' ∧ k'.status = userStatus := by
  induction n with
  | zero => exact ⟨k, hr, h, hu⟩
  | succ n ih =>
    obtain ⟨k₁, hr₁, h₁, hu₁⟩ := ih (by omega)
    obtain ⟨k', hnext, h', hu'⟩ := family_next h₁ hu₁ (by omega) (by omega)
    exact ⟨k', .step hr₁ trivial hnext, h', hu'⟩

theorem Family.loses {pages : Nat} (h : Family pages nasid k) (hpages : nasid < pages) :
    k.curenv ≠ none ∧ LosesDirectory k := by
  have hslots := h.slots
  have hfree := h.free
  refine ⟨by simp [h.cur], fun hnil => ?_, ?_, fun i hi => ?_⟩
  · rw [hnil] at hslots
    exact absurd hslots (by decide)
  · cases hps : k.mem.pageFreeList with
    | nil =>
      rw [hps, List.length_nil] at hfree
      omega
    | cons p rest =>
      have hlt := h.page_lt p (by simp [hps])
      exact ⟨p, rest, rfl, (ppn_page hlt h.npage_le).symm ▸ hlt⟩
  · rw [h.asids i hi, decide_eq_true hi]

/-- 340 pages of memory: more are free than there are ASIDs. -/
def largerMachine : Machine where
  npage := 340
  envsFrame := 0
  endFrame := 57
  ram := fun _ _ => 0
  npage_le := by decide
  envs_fit := smallMachine.envs_fit
  pages_fit := by decide

/-- The first program has 255 children. -/
theorem not_env_alloc_atomic : ¬ ∀ k, mos.Reachable k →
    ∀ err k', sysExofork k = .error (.errno err) k' → Reclaimed k k' := by
  have hcheck : ((boot largerMachine [(bareLoop, 1)]).any fun k₀ => (next .start k₀).any fun k =>
      k.curenv == some 0 && k.status == userStatus && k.envFreeList.length + 1 == nenv &&
        k.mem.pageFreeList.length + 1 == 277 && k.mem.npage == 340 &&
        k.mem.pageFreeList.all (fun p => p < 340) &&
        (List.range nasid).all fun i => k.asidBitmap i == decide (i < 1)) = true := by decide +kernel
  simp only [Option.any_eq_true, Bool.and_eq_true, beq_iff_eq, List.all_eq_true, List.mem_range,
    decide_eq_true_eq] at hcheck
  obtain ⟨k₀, hb, k₁, hstart, ⟨⟨⟨⟨⟨hcur, hu⟩, hslots⟩, hfree⟩, hnpage⟩, hlt⟩, hasids⟩ := hcheck
  have hfam : Family 277 1 k₁ := by
    refine ⟨hcur, hslots, hfree, fun p hp => ?_, ?_, hasids⟩
    · rw [hnpage]
      exact hlt p hp
    · rw [hnpage]
      decide
  have hr : mos.Reachable k₁ := .step (.init ⟨_, _, hb⟩) trivial hstart
  obtain ⟨k, hr, hfam, -⟩ := family_grows (by decide) hr hfam hu 255 (by decide)
  intro hall
  refine (fails_iff (wp_mono (exofork_failed k) (fun _ _ h => h) fun _ _ h => ?_)).mp (hall k hr)
    (hfam.loses (by decide))
  exact ⟨h.1, fun hno hret => h.2 hno hret ▸ ⟨rfl, rfl, rfl, rfl⟩⟩

end Mos
