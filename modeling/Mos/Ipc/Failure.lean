import Mos.Ipc.PageSent

/-!
# Sends that fail

The sends fill in the target and wake it before they map the page. An error of the
last step comes too late.
-/

namespace Mos

open Lib

variable {m : Mem} {k k' : Kernel} {d p asid : Nat} {c e : EnvIx} {va envid srcva perm : Word}

/-! ## When the functions of `pmap.c` return an error -/

/-- The entries that a walk for `va` follows name pages. -/
def Mem.Walks (m : Mem) (d : Nat) (va : Word) : Prop :=
  ∀ t, entry (m.phys d (pdx va)) = some t → t < m.npage

/-- What a lookup of `va` follows names pages. -/
structure Mem.Looks (m : Mem) (d : Nat) (va : Word) : Prop where
  walks : m.Walks d va
  page : ∀ x q, m.walk d va = some x → entry (m.phys x.1 x.2) = some q → q < m.npage

theorem kaddr_exact (m : Mem) (pa : Word) : wp (kaddr pa)
    (fun f m' => m' = m ∧ f = ppn pa ∧ ppn pa < m.npage)
    (fun f _ => NoErrno f ∧ ¬ ppn pa < m.npage) m := by
  unfold kaddr
  simp only [wp_bind, wp_get, wp_ite, wp_throw, wp_pure]
  exact ⟨fun h => ⟨BadAddress.noErrno (Or.inl rfl), by omega⟩, fun h => ⟨trivial, trivial, by omega⟩⟩

theorem pa2page_exact (m : Mem) (pa : Word) : wp (pa2page pa)
    (fun f m' => m' = m ∧ f = ppn pa ∧ ppn pa < m.npage)
    (fun f _ => NoErrno f ∧ ¬ ppn pa < m.npage) m := by
  unfold pa2page
  simp only [wp_bind, wp_get, wp_ite, wp_throw, wp_pure]
  exact ⟨fun h => ⟨BadAddress.noErrno (Or.inr rfl), by omega⟩, fun h => ⟨trivial, trivial, by omega⟩⟩

theorem pteOf_exact (hv : pteValid (m.phys d (pdx va)) = true) : wp (pteOf d va)
    (fun r m' => m' = m ∧ r = m.walk d va ∧ m.Walks d va)
    (fun f _ => NoErrno f ∧ ¬ m.Walks d va) m := by
  have hentry : entry (m.phys d (pdx va)) = some (ppn (m.phys d (pdx va))) := if_pos hv
  have hwalks : m.Walks d va ↔ ppn (m.phys d (pdx va)) < m.npage := by
    unfold Mem.Walks
    rw [hentry]
    exact ⟨fun h => h _ rfl, fun h t ht => Option.some.inj ht ▸ h⟩
  unfold pteOf
  rw [wp_bind, wp_readPte, wp_bind]
  refine wp_mono (kaddr_exact m _) ?_ ?_
  · rintro f _ ⟨rfl, rfl, hlt⟩
    rw [wp_pure, ppn_pteAddr]
    rw [ppn_pteAddr] at hlt
    refine ⟨rfl, ?_, hwalks.mpr hlt⟩
    unfold Mem.walk
    rw [hentry]
    rfl
  · rintro f _ ⟨hf, hlt⟩
    rw [ppn_pteAddr] at hlt
    exact ⟨hf, fun h => hlt (hwalks.mp h)⟩

theorem pgdirWalk_exact (m : Mem) (d : Nat) (va : Word) : wp (pgdirWalk d va false)
    (fun r m' => m' = m ∧ r = m.walk d va ∧ m.Walks d va)
    (fun f _ => NoErrno f ∧ ¬ m.Walks d va) m := by
  unfold pgdirWalk
  rw [wp_bind, wp_readPte]
  split
  case isTrue hv => exact pteOf_exact hv
  case isFalse hv =>
    have hnone : entry (m.phys d (pdx va)) = none := if_neg hv
    rw [if_neg (by simp), wp_pure]
    refine ⟨rfl, ?_, fun t ht => nomatch hnone.symm.trans ht⟩
    unfold Mem.walk
    rw [hnone]
    rfl

theorem pageLookup_exact (m : Mem) (d : Nat) (va : Word) : wp (pageLookup d va)
    (fun r m' => m' = m ∧ r = m.lookup d va ∧ m.Looks d va)
    (fun f _ => NoErrno f ∧ ¬ m.Looks d va) m := by
  unfold pageLookup
  rw [wp_bind]
  refine wp_mono (pgdirWalk_exact m d va) ?_ fun f _ h => ⟨h.1, fun hl => h.2 hl.walks⟩
  rintro r m ⟨rfl, rfl, hwalks⟩
  cases hx : m.walk d va with
  | none =>
    refine (wp_pure _).mpr ⟨rfl, ?_, hwalks, fun x q hx' => by cases hx.symm.trans hx'⟩
    unfold Mem.lookup
    rw [hx]
    rfl
  | some x =>
    simp only [wp_bind, wp_readPte]
    split
    case isTrue hv =>
      have hq : entry (m.phys x.1 x.2) = some (ppn (m.phys x.1 x.2)) := if_pos hv
      have hlooks : ppn (m.phys x.1 x.2) < m.npage → m.Looks d va := fun hlt =>
        ⟨hwalks, fun y q hy hq' => by
          obtain rfl : x = y := Option.some.inj (hx.symm.trans hy)
          exact Option.some.inj (hq.symm.trans hq') ▸ hlt⟩
      rw [wp_bind]
      refine wp_mono (pa2page_exact m _) ?_ fun f _ h => ⟨h.1, fun hl => h.2 (hl.page x _ hx hq)⟩
      rintro pp _ ⟨rfl, rfl, hlt⟩
      refine (wp_pure _).mpr ⟨rfl, ?_, hlooks hlt⟩
      unfold Mem.lookup
      rw [hx, Option.bind_some, hq]
      rfl
    case isFalse hv =>
      have hnone : entry (m.phys x.1 x.2) = none := if_neg hv
      refine (wp_pure _).mpr ⟨rfl, ?_, hwalks, fun y q hy hq => ?_⟩
      · unfold Mem.lookup
        rw [hx, Option.bind_some, hnone]
        rfl
      · obtain rfl : x = y := Option.some.inj (hx.symm.trans hy)
        cases hnone.symm.trans hq

theorem pageAlloc_errno (m : Mem) : wp pageAlloc (fun _ _ => m.pageFreeList ≠ [])
    (fun f _ => NoErrno f ↔ m.pageFreeList ≠ []) m := by
  unfold pageAlloc
  rw [wp_bind, wp_get]
  split
  case h_1 hnil =>
    exact (wp_throw _).mpr (iff_of_false (fun h => h _ rfl) (by simp [hnil]))
  case h_2 p rest hcons =>
    have hne : m.pageFreeList ≠ [] := by simp [hcons]
    simp only [wp_bind, wp_modify]
    refine wp_mono (kaddr_spec _ _) ?_ fun _ _ h => iff_of_true h.2.noErrno hne
    rintro f _ ⟨rfl, -⟩
    exact (wp_pure _).mpr hne

theorem pgdirWalk_errno (m : Mem) (d : Nat) (va : Word) : wp (pgdirWalk d va true)
    (fun r _ => r ≠ none ∧ Supplied m d va) (fun f _ => NoErrno f ↔ Supplied m d va) m := by
  by_cases h : Supplied m d va
  · exact wp_mono (pgdirWalk_supplied h) (fun _ _ hr => ⟨hr, h⟩) fun _ _ hf => iff_of_true hf h
  · obtain ⟨hfree, hv⟩ := not_or.mp h
    unfold pgdirWalk
    rw [wp_bind, wp_readPte, if_neg hv, if_pos rfl, wp_bind]
    refine wp_mono (pageAlloc_errno m) (fun _ _ hne => absurd hne hfree) fun f _ hf => ?_
    exact iff_of_false (fun hno => hfree (hf.mp hno)) h

theorem pageInsertNew_errno (m : Mem) (d asid p : Nat) (va perm : Word) :
    wp (pageInsertNew d asid p va perm) (fun _ _ => Supplied m d va)
      (fun f _ => NoErrno f ↔ Supplied m d va) m := by
  unfold pageInsertNew
  rw [wp_bind, wp_tlbInvalidate, wp_bind]
  refine wp_mono (pgdirWalk_errno (m.flush asid va) d va) ?_ fun _ _ h => h
  rintro r m₁ ⟨hr, hs⟩
  cases r with
  | none => exact absurd rfl hr
  | some pte =>
    simp only [wp_bind, wp_modify, wp_writePte]
    exact hs

/-- A page directory is its own page table, and removing what is mapped at `va` removes the entry
that says so. -/
structure SelfTable (m : Mem) (d : Nat) (va : Word) (p : Nat) : Prop where
  index : ptx va = pdx va
  entry : entry (m.phys d (pdx va)) = some d
  page : d < m.npage
  other : d ≠ p
  used : m.ppRef d ≠ 0
  kept : m.ppRef d ≠ 1

/-- `page_insert` of `p` at `va` needs a page table when no page is free. -/
structure Starved (m : Mem) (d : Nat) (va : Word) (p : Nat) : Prop where
  empty : m.pageFreeList = []
  table : pteValid (m.phys d (pdx va)) = false ∨ SelfTable m d va p

theorem pageDecref_exact (m : Mem) (p : Nat) : wp (pageDecref p)
    (fun _ m' => m.ppRef p ≠ 0 ∧ m'.phys = m.phys ∧
      (m'.pageFreeList ≠ [] ↔ m.pageFreeList ≠ [] ∨ m.ppRef p = 1))
    (fun f _ => NoErrno f ∧ m.ppRef p = 0) m := by
  have hone : m.ppRef p - 1 = 0 ↔ m.ppRef p = 1 := by
    constructor
    · intro h
      bv_omega
    · intro h
      rw [h]
      rfl
  unfold pageDecref pageFree
  simp only [wp_bind, wp_get, wp_ite, wp_throw, wp_modify, wp_pure, Mem.setRef_ppRef,
    Function.update_self, hone, Mem.setRef_pageFreeList]
  refine ⟨fun h0 => ⟨Asserts.noErrno (Or.inr rfl), h0⟩, fun h0 => ⟨fun h1 => ⟨fun hno => ?_, fun _ => ?_⟩,
    fun h1 => ?_⟩⟩
  · exact absurd (hone.mpr h1) hno
  · exact ⟨h0, rfl, by simp [h1]⟩
  · exact ⟨h0, rfl, Or.inl, fun h => h.resolve_right h1⟩

theorem lookup_self (hi : ptx va = pdx va) (ht : entry (m.phys d (pdx va)) = some d) :
    m.lookup d va = some (d, d, pdx va) := by
  unfold Mem.lookup Mem.walk
  rw [ht, Option.map_some, Option.bind_some, hi, ht]
  rfl

/-- The directory entry that says that the directory is a page table is removed through itself. -/
theorem pageRemove_self (hi : ptx va = pdx va) (ht : entry (m.phys d (pdx va)) = some d)
    (hd : d < m.npage) (hfree : m.pageFreeList = []) : wp (pageRemove d asid va)
    (fun _ m' => m.ppRef d ≠ 0 ∧ (Supplied m' d va ↔ m.ppRef d = 1))
    (fun f _ => NoErrno f ∧ m.ppRef d = 0) m := by
  have hl := lookup_self hi ht
  have hlooks : m.Looks d va := by
    refine ⟨fun t ht' => Option.some.inj (ht.symm.trans ht') ▸ hd, fun x q hx hq => ?_⟩
    unfold Mem.walk at hx
    rw [ht, Option.map_some, hi] at hx
    obtain rfl := Option.some.inj hx
    exact Option.some.inj (ht.symm.trans hq) ▸ hd
  unfold pageRemove
  rw [wp_bind]
  refine wp_mono (pageLookup_exact m d va) ?_ fun _ _ h => absurd hlooks h.2
  rintro r m₁ ⟨rfl, rfl, -⟩
  rw [hl]
  simp only [wp_bind]
  refine wp_mono (pageDecref_exact m₁ d) ?_ fun _ _ h => h
  rintro _ m₂ ⟨h0, hphys, hlist⟩
  rw [wp_writePte, wp_tlbInvalidate]
  refine ⟨h0, ?_⟩
  have hgone : pteValid (((m₂.store d (pdx va) 0).flush asid va).phys d (pdx va)) = false := by
    rw [Mem.flush_phys, Mem.store_phys, Function.update_self, Function.update_self]
    rfl
  unfold Supplied
  rw [hgone]
  simp only [hfree, ne_eq, not_true_eq_false, false_or] at hlist
  simpa using hlist

theorem Starved.of_none (h : Starved m d va p) (hl : m.lookup d va = none) : ¬ Supplied m d va := by
  rintro (hfree | hv)
  · exact hfree h.empty
  · rcases h.table with hno | hself
    · exact Bool.noConfusion (hno.symm.trans hv)
    · exact nomatch hl.symm.trans (lookup_self hself.index hself.entry)

theorem not_starved_of_supplied (hl : m.lookup d va = none) :
    ¬ Starved m d va p ↔ Supplied m d va := by
  refine ⟨fun h => ?_, fun h hs => hs.of_none hl h⟩
  by_contra hno
  obtain ⟨hfree, hv⟩ := not_or.mp hno
  exact h ⟨by simpa using hfree, Or.inl (Bool.eq_false_iff.mpr hv)⟩

/-- The page at `va` is replaced, or put there anew. -/
theorem pageReplace_errno {q : Nat} {x : PtePtr} (hl : m.lookup d va = some (q, x))
    (hlooks : m.Looks d va) (hne : q ≠ p) :
    wp (do
        pageRemove d asid va
        pageInsertNew d asid p va perm)
      (fun _ _ => ¬ Starved m d va p) (fun f _ => NoErrno f ↔ ¬ Starved m d va p) m := by
  obtain ⟨y, hwalk, hmap⟩ := Option.bind_eq_some_iff.mp hl
  obtain ⟨q', hq, hpair⟩ := Option.map_eq_some_iff.mp hmap
  obtain ⟨rfl, rfl⟩ := Prod.mk.inj hpair
  obtain ⟨t, ht, rfl⟩ := Option.map_eq_some_iff.mp hwalk
  have hnotNone : pteValid (m.phys d (pdx va)) ≠ false := fun h => by simp [(entry_some.mp ht).1] at h
  rw [wp_bind]
  by_cases hroom : m.pageFreeList ≠ [] ∨
      ∃ t, entry (m.phys d (pdx va)) = some t ∧ (t, ptx va) ≠ (d, pdx va)
  · have hstarved : ¬ Starved m d va p := by
      rintro ⟨hempty, htable⟩
      rcases htable with hno | hself
      · exact hnotNone hno
      · rcases hroom with hfree | ⟨t', ht', hother⟩
        · exact hfree hempty
        · exact hother (by rw [Option.some.inj (ht'.symm.trans hself.entry), hself.index])
    refine wp_mono (pageRemove_supplied hl hroom) (fun _ m₁ hs => ?_)
      fun _ _ hf => iff_of_true hf hstarved
    exact wp_mono (pageInsertNew_supplied hs) (fun _ _ _ => hstarved)
      fun _ _ hf => iff_of_true hf hstarved
  · obtain ⟨hfree, hall⟩ := not_or.mp hroom
    have hfree : m.pageFreeList = [] := by simpa using hfree
    have hself : (t, ptx va) = (d, pdx va) := by
      by_contra hother
      exact hall ⟨t, ht, hother⟩
    obtain ⟨rfl, hi⟩ := Prod.mk.inj hself
    have hd := hlooks.walks _ ht
    rw [hi] at hq
    obtain rfl : q' = t := Option.some.inj (hq.symm.trans ht)
    have hstarved : Starved m q' va p ↔ m.ppRef q' ≠ 0 ∧ m.ppRef q' ≠ 1 := by
      refine ⟨fun h => ?_, fun h => ⟨hfree, Or.inr ⟨hi, ht, hd, hne, h.1, h.2⟩⟩⟩
      rcases h.table with hno | hs
      · exact absurd hno hnotNone
      · exact ⟨hs.used, hs.kept⟩
    rw [hstarved]
    refine wp_mono (pageRemove_self hi ht hd hfree) ?_ ?_
    · rintro _ m₁ ⟨h0, hs⟩
      refine wp_mono (pageInsertNew_errno m₁ q' asid p va perm) (fun _ _ h => ?_) fun f _ h => ?_
      · exact fun hno => hno.2 (hs.mp h)
      · rw [h, hs]
        exact ⟨fun h1 hno => hno.2 h1, fun hno => by_contra fun h1 => hno ⟨h0, h1⟩⟩
    · rintro f _ ⟨hf, h0⟩
      exact iff_of_true hf fun hno => hno.1 h0

/-- When `page_insert` returns an error. -/
theorem pageInsert_errno (m : Mem) (d asid p : Nat) (va perm : Word) :
    wp (pageInsert d asid p va perm) (fun _ _ => ¬ Starved m d va p)
      (fun f _ => NoErrno f ↔ ¬ Starved m d va p) m := by
  unfold pageInsert
  rw [wp_bind]
  refine wp_mono (pgdirWalk_exact m d va) ?_ ?_
  · rintro r m ⟨rfl, rfl, hwalks⟩
    cases hx : m.walk d va with
    | none =>
      have hl : m.lookup d va = none := by
        unfold Mem.lookup
        rw [hx]
        rfl
      rw [not_starved_of_supplied hl]
      exact pageInsertNew_errno m d asid p va perm
    | some x =>
      simp only [wp_bind, wp_readPte]
      split
      case isTrue hv =>
        have hq : entry (m.phys x.1 x.2) = some (ppn (m.phys x.1 x.2)) := if_pos hv
        have hl : m.lookup d va = some (ppn (m.phys x.1 x.2), x) := by
          unfold Mem.lookup
          rw [hx, Option.bind_some, hq]
          rfl
        have hself : SelfTable m d va p → ppn (m.phys x.1 x.2) = d := fun hs =>
          (Prod.mk.inj (Option.some.inj (hl.symm.trans (lookup_self hs.index hs.entry)))).1
        have htable : pteValid (m.phys d (pdx va)) = true := by
          obtain ⟨t, ht, -⟩ := Option.map_eq_some_iff.mp hx
          exact (entry_some.mp ht).1
        have hstarved : Starved m d va p → SelfTable m d va p := fun hs =>
          hs.table.resolve_left (by simp [htable])
        rw [wp_bind]
        refine wp_mono (pa2page_exact m _) ?_ ?_
        · rintro pp m ⟨rfl, rfl, hlt⟩
          split
          case isTrue hne =>
            refine pageReplace_errno hl ⟨hwalks, fun y q hy hq' => ?_⟩ hne
            obtain rfl : x = y := Option.some.inj (hx.symm.trans hy)
            exact Option.some.inj (hq.symm.trans hq') ▸ hlt
          case isFalse heq =>
            rw [wp_bind, wp_tlbInvalidate, wp_writePte]
            intro hs
            have hs := hstarved hs
            exact heq ((hself hs).trans_ne hs.other)
        · rintro f _ ⟨hf, hlt⟩
          refine iff_of_true hf fun hs => hlt ?_
          have hs := hstarved hs
          rw [hself hs]
          exact hs.page
      case isFalse hv =>
        have hnone : entry (m.phys x.1 x.2) = none := if_neg hv
        have hl : m.lookup d va = none := by
          unfold Mem.lookup
          rw [hx, Option.bind_some, hnone]
          rfl
        rw [not_starved_of_supplied hl]
        exact pageInsertNew_errno m d asid p va perm
  · rintro f _ ⟨hf, hno⟩
    refine iff_of_true hf fun hs => hno fun t ht => ?_
    rcases hs.table with hv | hself
    · exact absurd (entry_some.mp ht).1 (by simp [hv])
    · rw [Option.some.inj (ht.symm.trans hself.entry)]
      exact hself.page

/-! ## The sends -/

/-- The stop is an error that the call returns. -/
def Stop.Returned (err : Stop) : Prop := ∃ x, err = .errno x

theorem returned_fault (f : Fault) : Stop.Returned (.fault f) ↔ ¬ NoErrno f := by
  unfold Stop.Returned NoErrno
  simp

/-- The page cannot be sent: the sender has none at `srcva`, or no page is free for the page table
that the target needs. -/
def Blocked (k : Kernel) (c e : EnvIx) (srcva : Word) : Prop :=
  k.mem.Looks (k.envs c).envPgdir srcva ∧
    ∀ p x, k.mem.lookup (k.envs c).envPgdir srcva = some (p, x) →
      Starved k.mem (k.envs e).envPgdir (k.envs e).envIpcDstva p

theorem blocked_congr (hm : k'.mem = k.mem)
    (hpgdir : ∀ x, (k'.envs x).envPgdir = (k.envs x).envPgdir)
    (hdstva : (k'.envs e).envIpcDstva = (k.envs e).envIpcDstva) :
    Blocked k' c e srcva ↔ Blocked k c e srcva := by
  unfold Blocked
  rw [hm, hpgdir c, hpgdir e, hdstva]

theorem mapSent_errno (hc : k.curenv = some c) (e : EnvIx) (srcva perm : Word) :
    wp (mapSent e srcva perm) (fun _ _ => ¬ Blocked k c e srcva)
      (fun err _ => err.Returned ↔ Blocked k c e srcva) k := by
  unfold mapSent
  rw [wp_bind]
  refine wp_curenvPtr (fun c' hc' => ?_) (fun hn => nomatch hn.symm.trans hc)
  obtain rfl : c = c' := Option.some.inj (hc.symm.trans hc')
  rw [wp_bind, wp_get, wp_bind, wp_onMem]
  refine wp_mono (pageLookup_exact k.mem _ srcva) ?_ ?_
  · rintro r m ⟨rfl, rfl, hlooks⟩
    cases hl : k.mem.lookup (k.envs c).envPgdir srcva with
    | none =>
      refine (wp_throw _).mpr (iff_of_true ⟨_, rfl⟩ ⟨hlooks, fun p x hp => ?_⟩)
      exact nomatch hl.symm.trans hp
    | some r =>
      obtain ⟨p, x⟩ := r
      have hblocked : Blocked k c e srcva ↔
          Starved k.mem (k.envs e).envPgdir (k.envs e).envIpcDstva p := by
        refine ⟨fun h => h.2 p x hl, fun h => ⟨hlooks, fun p' x' hp => ?_⟩⟩
        obtain ⟨rfl, -⟩ := Prod.mk.inj (Option.some.inj (hl.symm.trans hp))
        exact h
      simp only [wp_bind, wp_get, wp_onMem, hblocked, returned_fault]
      refine wp_mono (pageInsert_errno _ _ _ _ _ _) (fun _ _ h => h) fun f _ h => ?_
      rw [h, not_not]
      rfl
  · rintro f m ⟨hf, hno⟩
    rw [returned_fault]
    exact iff_of_false (not_not.mpr hf) fun h => hno h.1

/-- The fields that the last step of a send uses are not those that it fills in. -/
structure KeepsSpace (deliver : Word → Env → Env) : Prop where
  pgdir : ∀ w env, (deliver w env).envPgdir = env.envPgdir
  dstva : ∀ w env, (deliver w env).envIpcDstva = env.envIpcDstva

theorem send_errno {waiting : Env → Bool} {deliver : Word → Env → Env} (hd : KeepsSpace deliver)
    (hready : Ready k waiting envid srcva c e) :
    wp (send waiting deliver envid srcva perm) (fun _ _ => ¬ (srcva ≠ 0 ∧ Blocked k c e srcva))
      (fun err _ => err.Returned ↔ srcva ≠ 0 ∧ Blocked k c e srcva) k := by
  unfold send
  simp only [wp_bind, wp_ite, wp_throw]
  refine ⟨fun hill => absurd hill hready.legal, fun _ => ?_⟩
  refine wp_mono (envid2env_spec k envid false) ?_ ?_
  · rintro e' k₁ ⟨rfl, he'⟩
    obtain rfl : e = e' := Option.some.inj (hready.target.symm.trans he')
    simp only [wp_get]
    refine ⟨fun hw => absurd hready.waiting (by simpa using hw), fun _ => ?_⟩
    refine wp_curenvPtr (fun c' hc' => ?_) (fun hn => by cases hn.symm.trans hready.cur)
    obtain rfl : c = c' := Option.some.inj (hready.cur.symm.trans hc')
    simp only [wp_updEnv]
    unfold wakeAndMap
    rw [wp_bind, wp_updEnv, wp_bind]
    refine wp_mono (schedInsertTail_spec _ e) ?_ (fun _ _ h => h.elim)
    rintro _ _ ⟨q, b, rfl⟩
    simp only [wp_bind, wp_ite, wp_pure]
    refine ⟨fun hne => ?_, fun h0 hno => h0 hno.1⟩
    have hpgdir : ∀ x, ((((k₁.setEnv e (deliver (k₁.envs c).envId)).setEnv e fun env =>
        { env with envStatus := .runnable }).relist q b).envs x).envPgdir = (k₁.envs x).envPgdir := by
      intro x
      rcases eq_or_ne x e with rfl | hx
      · simp [hd.pgdir]
      · simp [hx]
    have hdstva : ((((k₁.setEnv e (deliver (k₁.envs c).envId)).setEnv e fun env =>
        { env with envStatus := .runnable }).relist q b).envs e).envIpcDstva =
          (k₁.envs e).envIpcDstva := by
      simp [hd.dstva]
    have hblocked : Blocked _ c e srcva ↔ Blocked k₁ c e srcva :=
      blocked_congr (by rfl) hpgdir hdstva
    refine wp_mono (mapSent_errno (c := c) ?_ e srcva perm) ?_ ?_
    · exact hready.cur
    · exact fun _ _ h hno => h (hblocked.mpr hno.2)
    · exact fun _ _ h => h.trans (hblocked.trans ⟨fun hb => ⟨hne, hb⟩, fun hb => hb.2⟩)
  · rintro err k₁ ⟨rfl, -, hnone⟩
    cases hnone.symm.trans hready.target

/-- The environments, `env_sched_list` and memory are as before. -/
structure Untouched (k k' : Kernel) : Prop where
  envs : k'.envs = k.envs
  sched : k'.envSchedList = k.envSchedList
  mem : k'.mem = k.mem

/-- If the send returns an error, it has changed nothing. -/
def FailsClean (x : K Word) (k : Kernel) : Prop :=
  ∀ err k', x k = .error (.errno err) k' → Untouched k k'

/-- The send passes its checks and then has no page or no page table. -/
def FailsLate (k : Kernel) (waiting : Env → Bool) (envid srcva : Word) : Prop :=
  ∃ c e, Ready k waiting envid srcva c e ∧ srcva ≠ 0 ∧ Blocked k c e srcva

theorem send_failsClean_iff (k : Kernel) (waiting : Env → Bool) (deliver : Word → Env → Env)
    (hd : KeepsSpace deliver)
    (hflip : ∀ w env, waiting { deliver w env with envStatus := .runnable } = false)
    (envid srcva perm : Word) :
    FailsClean (send waiting deliver envid srcva perm) k ↔ ¬ FailsLate k waiting envid srcva := by
  have hspec := send_spec k waiting deliver envid srcva perm
  have herrno : ∀ c e, Ready k waiting envid srcva c e →
      wp (send waiting deliver envid srcva perm) _ _ k := fun c e => send_errno hd
  constructor
  · rintro hclean ⟨c, e, hready, hne, hb⟩
    cases hrun : send waiting deliver envid srcva perm k with
    | ok v k' => exact wp_run_ok (herrno c e hready) hrun ⟨hne, hb⟩
    | error err k' =>
      obtain ⟨x, rfl⟩ := (wp_run_error (herrno c e hready) hrun).mpr ⟨hne, hb⟩
      obtain ⟨-, ⟨-, hno⟩ | ⟨-, c', e', m, q, b, hready', rfl⟩⟩ := wp_run_error hspec hrun
      · exact hno c e hready
      · have hsame := congrFun (hclean x _ hrun).envs e'
        have hw := hready'.waiting
        rw [← hsame] at hw
        simp [Kernel.woken, hflip] at hw
  · intro hlate err k' hrun
    obtain ⟨-, ⟨rfl, -⟩ | ⟨hne, c, e, m, q, b, hready, rfl⟩⟩ := wp_run_error hspec hrun
    · exact ⟨rfl, rfl, rfl⟩
    · have hb := (wp_run_error (herrno c e hready) hrun).mp ⟨err, rfl⟩
      exact absurd ⟨c, e, hready, hb⟩ hlate

/-- When a send that fails has changed nothing. -/
theorem failed_send_clean_iff (k : Kernel) (envid value srcva perm : Word) :
    (FailsClean (sysIpcTrySend envid value srcva perm) k ↔
      ¬ FailsLate k (fun env => env.envIpcRecving == 1) envid srcva) ∧
    (FailsClean (sysSendReturnValue envid value srcva perm) k ↔
      ¬ FailsLate k (fun env => env.waitingReturnValue == 1) envid srcva) :=
  ⟨send_failsClean_iff k _ (Env.sent value perm) ⟨fun _ _ => rfl, fun _ _ => rfl⟩ (fun _ _ => rfl)
      envid srcva perm,
    send_failsClean_iff k _ (Env.sentReturn value perm) ⟨fun _ _ => rfl, fun _ _ => rfl⟩
      (fun _ _ => rfl) envid srcva perm⟩

/-- The send has returned `-E_INVAL` and the receiver does not wait any more. -/
def stranded (k : Kernel) (envid value srcva perm : Word) : Bool :=
  match sysIpcTrySend envid value srcva perm k with
  | .error (.errno .inval) k' =>
    (k.envs (envx envid)).envIpcRecving == 1 && (k'.envs (envx envid)).envIpcRecving == 0
  | _ => false

theorem not_failsClean_of_stranded {value : Word} (h : stranded k envid value srcva perm = true) :
    ¬ FailsClean (sysIpcTrySend envid value srcva perm) k := by
  intro hclean
  unfold stranded at h
  split at h
  · rename_i k' hrun
    rw [(hclean _ _ hrun).envs, Bool.and_eq_true_iff, beq_iff_eq, beq_iff_eq] at h
    exact nomatch h.1.symm.trans h.2
  · exact Bool.noConfusion h

/-- The first program sends a page it does not have to the second one, which is in
`sys_ipc_recv(REQVA)`. -/
theorem not_failed_send_clean : ¬ ∀ k, mos.Reachable k → ∀ envid value srcva perm,
    FailsClean (sysIpcTrySend envid value srcva perm) k ∧
      FailsClean (sysSendReturnValue envid value srcva perm) k := by
  have hrun : ((boot smallMachine [(bareLoop, 1), (bareLoop, 1)]).any fun k₀ =>
      (mos.exec [.start, callOp 14 reqva 0 0] k₀).any fun k =>
        stranded k 4097 2 0x500000 0) = true := by decide +kernel
  obtain ⟨k₀, h₀, hexec⟩ := (Option.any_eq_true _ _).mp hrun
  obtain ⟨k, hk, hbad⟩ := (Option.any_eq_true _ _).mp hexec
  intro h
  exact not_failsClean_of_stranded hbad (h k (.exec (.init ⟨_, _, h₀⟩) hk) 4097 2 0x500000 0).1

end Mos
