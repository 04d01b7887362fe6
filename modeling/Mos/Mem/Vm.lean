import Mathlib.Logic.Relation
import Mos.Mem.Spaces

/-!
# Memory with its address spaces

The steps by which the kernel changes memory and the TLB: it works for one
environment, the TLB gets an entry, an address space starts or ends. A call of
the kernel is a path of such steps; what they keep, it keeps.
-/

namespace Mos

open Lib (Heap)

/-! ## States and steps -/

/-- `env_pgdir` and `env_asid` of a live environment. -/
structure AddressSpace where
  pgdir : Nat
  asid : Nat

structure Vm where
  mem : Mem
  space : EnvIx → Option AddressSpace

def Vm.dirs (v : Vm) : Spaces := fun e => (v.space e).map AddressSpace.pgdir

/-- Which entries may come into the page tables of which environment. -/
abbrev Grant := EnvIx → WordIx → WordIx → Word → Prop

/-- Besides memory itself: the ASIDs are those of `asid_alloc`, and no two environments have the
same. -/
structure VmInv (pool : Finset Nat) (base : Nat) (v : Vm) : Prop
    extends MemInv pool base v.dirs v.mem where
  asid_lt : ∀ e s, v.space e = some s → s.asid < nasid
  asid_inj : ∀ e e' s s', v.space e = some s → v.space e' = some s' → s.asid = s'.asid → e' = e

namespace Vm

/-- `leaks` is an `env_alloc` that fails after `env_setup_vm`. -/
inductive Step (pool : Finset Nat) (base : Nat) (W : Grant) : Vm → Vm → Prop
  | work {v e s m'} (he : v.space e = some s)
      (change : Change pool base v.dirs e s.asid (W e) True v.mem m') :
      Step pool base W v { v with mem := m' }
  | fill {v e s va pte} (he : v.space e = some s) (walk : v.mem.walk s.pgdir va = some pte) :
      Step pool base W v
        { v with mem := { v.mem with tlb := v.mem.tlbEntry s.asid va pte :: v.mem.tlb } }
  | opens {v e p rest a} (gone : v.space e = none) (free : v.mem.pageFreeList = p :: rest)
      (lt : a < nasid) (new : ∀ e' s, v.space e' = some s → s.asid ≠ a) :
      Step pool base W v
        ⟨(v.mem.taken p rest).newDir base p, Function.update v.space e (some ⟨p, a⟩)⟩
  | leaks {v p rest} (free : v.mem.pageFreeList = p :: rest) :
      Step pool base W v { v with mem := (v.mem.taken p rest).newDir base p }
  | closes {v e s m'} (he : v.space e = some s)
      (freed : Freed pool base v.dirs e s.asid v.mem m') :
      Step pool base W v ⟨m', Function.update v.space e none⟩

abbrev Path (pool : Finset Nat) (base : Nat) (W : Grant) : Vm → Vm → Prop :=
  Relation.ReflTransGen (Step pool base W)

variable {v : Vm} {e : EnvIx} {s : AddressSpace}

theorem dirs_some (he : v.space e = some s) : v.dirs e = some s.pgdir := by
  unfold dirs
  rw [he]
  rfl

theorem dirs_none (he : v.space e = none) : v.dirs e = none := by
  unfold dirs
  rw [he]
  rfl

theorem dirs_update (m : Mem) (space : EnvIx → Option AddressSpace) (e : EnvIx)
    (x : Option AddressSpace) : dirs ⟨m, Function.update space e x⟩ =
      Function.update (dirs ⟨m, space⟩) e (x.map AddressSpace.pgdir) := by
  funext e'
  unfold dirs
  rcases eq_or_ne e' e with rfl | hne
  · simp
  · simp [hne]

end Vm

/-! ## The invariant -/

variable {pool : Finset Nat} {base : Nat} {W : Grant} {v v' v₁ : Vm} {m m' : Mem} {sp : Spaces}
  {e e' : EnvIx} {s s' : AddressSpace} {d p : Nat} {i j : WordIx} {w : Word} {rest : List Nat}

theorem SameTables.mapped (hs : SameTables pool sp m m') (he : sp e = some d) (i j : WordIx) :
    m'.mapped d i j = m.mapped d i j :=
  mapped_congr (hs.walked d (walked_dir he)) (fun _ t ht => hs.walked t (walked_table he ht)) i j

theorem Apart.mapped (h : Apart sp e m m') (hne : e' ≠ e) (he' : sp e' = some d) (i j : WordIx) :
    m'.mapped d i j = m.mapped d i j := by
  obtain ⟨hd, ht⟩ := h e' d hne he'
  exact mapped_congr hd ht i j

/-- A page that no environment comes to own is lost, and nothing else. -/
theorem MemInv.leak (h : MemInv pool base sp m) (hp : Fresh pool sp m p) :
    MemInv pool base sp (m.newDir base p) := by
  have hs := same_newDir base hp
  refine ⟨h.toLayout.congr hs, ?_⟩
  have hcnt : ((m.newDir base p).heap pool sp).cnt = Function.update (m.heap pool sp).cnt p
      ((m.heap pool sp).cnt p + 1) := by
    refine cnt_incref rfl ?_
    rw [hp.ppRef]
    decide
  have hheap : (m.newDir base p).heap pool sp = { m.heap pool sp with
      cnt := Function.update (m.heap pool sp).cnt p ((m.heap pool sp).cnt p + 1) } := by
    refine Heap.ext ?_ hcnt rfl
    funext r
    rw [refs_eq, refers_congr hs.walked]
    rfl
  rw [hheap]
  exact h.counts.recount hp.unreferenced hp.not_free _

theorem newDir_mapped (h : MemInv pool base sp m) (hp : Fresh pool sp m p) (hi : i < pdx utop) :
    (m.newDir base p).mapped p i j = none := by
  unfold Mem.mapped
  cases ht : (m.newDir base p).pde p i with
  | none => rfl
  | some t => exact absurd ((newDir_entry h hp i).2 t ht).1 (not_le.mpr hi)

theorem opened_mapped (h : MemInv pool base sp m) (free : m.pageFreeList = p :: rest)
    (he : sp e = some d) (i j : WordIx) :
    ((m.taken p rest).newDir base p).mapped d i j = m.mapped d i j := by
  rw [(same_newDir base (h.fresh_taken free)).mapped he, (h.same_taken free).mapped he]

theorem Vm.Step.inv (h : Vm.Step pool base W v v') (hi : VmInv pool base v) :
    VmInv pool base v' := by
  cases h with
  | work he change => exact ⟨change.inv, hi.asid_lt, hi.asid_inj⟩
  | fill he walk =>
    refine ⟨?_, hi.asid_lt, hi.asid_inj⟩
    exact hi.toMemInv.congr ⟨rfl, fun _ _ => rfl, fun _ _ => rfl⟩ rfl rfl
  | leaks free =>
    refine ⟨?_, hi.asid_lt, hi.asid_inj⟩
    exact (hi.toMemInv.taken free).leak (hi.fresh_taken free)
  | @opens e p rest a gone free lt new =>
    have hold : ∀ {x s}, Function.update v.space e (some ⟨p, a⟩) x = some s →
        (x = e ∧ s = ⟨p, a⟩) ∨ (x ≠ e ∧ v.space x = some s) := by
      intro x s hx
      rcases eq_or_ne x e with rfl | hne
      · rw [Function.update_self] at hx
        exact Or.inl ⟨rfl, (Option.some.inj hx).symm⟩
      · rw [Function.update_of_ne hne] at hx
        exact Or.inr ⟨hne, hx⟩
    refine ⟨?_, fun x s hx => ?_, fun x y s t hx hy hst => ?_⟩
    · rw [Vm.dirs_update]
      exact (hi.toMemInv.taken free).newDir (hi.fresh_taken free) (Vm.dirs_none gone)
    · rcases hold hx with ⟨rfl, rfl⟩ | ⟨-, hx⟩
      · exact lt
      · exact hi.asid_lt x s hx
    · rcases hold hx with ⟨rfl, rfl⟩ | ⟨-, hx₀⟩
      · rcases hold hy with ⟨rfl, rfl⟩ | ⟨-, hy₀⟩
        · rfl
        · exact absurd hst.symm (new y t hy₀)
      · rcases hold hy with ⟨rfl, rfl⟩ | ⟨-, hy₀⟩
        · exact absurd hst (new x s hx₀)
        · exact hi.asid_inj x y s t hx₀ hy₀ hst
  | @closes e s m' he freed =>
    have hold : ∀ {x t}, Function.update v.space e none x = some t → v.space x = some t := by
      intro x t hx
      rcases eq_or_ne x e with rfl | hne
      · rw [Function.update_self] at hx
        cases hx
      · rwa [Function.update_of_ne hne] at hx
    refine ⟨?_, fun x t hx => hi.asid_lt x t (hold hx), fun x y t u hx hy =>
      hi.asid_inj x y t u (hold hx) (hold hy)⟩
    rw [Vm.dirs_update]
    exact freed.inv

theorem Vm.Path.inv (h : Vm.Path pool base W v v') (hi : VmInv pool base v) :
    VmInv pool base v' := by
  induction h with
  | refl => exact hi
  | tail _ hs ih => exact hs.inv ih

theorem Vm.Path.invariant {I : Vm → Prop} (hI : ∀ {v v'}, VmInv pool base v → Vm.Step pool base W v v' →
    I v → I v') (h : Vm.Path pool base W v v') (hi : VmInv pool base v) (h0 : I v) : I v' := by
  induction h with
  | refl => exact h0
  | tail hp hs ih => exact hI (Vm.Path.inv hp hi) hs ih

/-! ## What a step does to entries -/

/-- A user entry was there before, or it has been granted. -/
theorem Vm.Step.entries (h : Vm.Step pool base W v v') (hi : VmInv pool base v)
    (he : v'.space e = some s) (hu : i < pdx utop) (hw : v'.mem.mapped s.pgdir i j = some w) :
    (v.space e = some s ∧ v.mem.mapped s.pgdir i j = some w) ∨ W e i j w := by
  cases h with
  | @work e₀ s₀ m' he₀ change =>
    rcases eq_or_ne e e₀ with rfl | hne
    · exact (change.entries _ _ _ _ (Vm.dirs_some he) hw).imp_left fun hold => ⟨he, hold⟩
    · rw [change.apart.mapped hne (Vm.dirs_some he)] at hw
      exact Or.inl ⟨he, hw⟩
  | fill he₀ walk => exact Or.inl ⟨he, hw⟩
  | leaks free =>
    rw [opened_mapped hi.toMemInv free (Vm.dirs_some he)] at hw
    exact Or.inl ⟨he, hw⟩
  | @opens e₀ p rest a gone free lt new =>
    dsimp only at he hw
    rcases eq_or_ne e e₀ with rfl | hne
    · rw [Function.update_self] at he
      obtain rfl := Option.some.inj he
      rw [newDir_mapped (hi.toMemInv.taken free) (hi.fresh_taken free) hu] at hw
      cases hw
    · rw [Function.update_of_ne hne] at he
      rw [opened_mapped hi.toMemInv free (Vm.dirs_some he)] at hw
      exact Or.inl ⟨he, hw⟩
  | @closes e₀ s₀ m' he₀ freed =>
    dsimp only at he hw
    rcases eq_or_ne e e₀ with rfl | hne
    · rw [Function.update_self] at he
      cases he
    · rw [Function.update_of_ne hne] at he
      rw [freed.apart.mapped hne (Vm.dirs_some he)] at hw
      exact Or.inl ⟨he, hw⟩

/-- A TLB entry is new and comes from a walk, or it was there before; and of the user pages it may
translate, those whose entry has changed are not among them. -/
theorem Vm.Step.tlb (h : Vm.Step pool base W v v') (hi : VmInv pool base v) {x : TlbEntry}
    (hx : x ∈ v'.mem.tlb) :
    (x ∈ v.mem.tlb ∧ ∀ e s i j, v.space e = some s → i < pdx utop →
      v.mem.mapped s.pgdir i j ≠ none →
        (v'.space e = some s ∧ v'.mem.mapped s.pgdir i j = v.mem.mapped s.pgdir i j) ∨
        x.matches (entryHi s.asid (pageVa i j)) = false) ∨
    ∃ e s va pte, v'.space e = some s ∧ v'.mem.walk s.pgdir va = some pte ∧
      x = v'.mem.tlbEntry s.asid va pte := by
  cases h with
  | @work e₀ s₀ m' he₀ change =>
    obtain ⟨hold, hflushed⟩ := change.flushed x hx
    refine Or.inl ⟨hold, fun e s i j he hu hne => ?_⟩
    rcases eq_or_ne e e₀ with rfl | hee
    · obtain rfl := Option.some.inj (he₀.symm.trans he)
      rcases eq_or_ne (m'.mapped s₀.pgdir i j) (v.mem.mapped s₀.pgdir i j) with hsame | hdiff
      · exact Or.inl ⟨he, hsame⟩
      · exact Or.inr (hflushed _ i j (Vm.dirs_some he) hdiff)
    · exact Or.inl ⟨he, change.apart.mapped hee (Vm.dirs_some he) i j⟩
  | @fill e₀ s₀ va pte he₀ walk =>
    rcases List.mem_cons.mp hx with rfl | hold
    · exact Or.inr ⟨e₀, s₀, va, pte, he₀, walk, rfl⟩
    · exact Or.inl ⟨hold, fun e s i j he _ _ => Or.inl ⟨he, rfl⟩⟩
  | leaks free =>
    exact Or.inl ⟨hx, fun e s i j he _ _ =>
      Or.inl ⟨he, opened_mapped hi.toMemInv free (Vm.dirs_some he) i j⟩⟩
  | @opens e₀ p rest a gone free lt new =>
    refine Or.inl ⟨hx, fun e s i j he _ _ => Or.inl ⟨?_, ?_⟩⟩
    · have hne : e ≠ e₀ := by
        rintro rfl
        exact nomatch gone.symm.trans he
      exact (Function.update_of_ne hne _ _).trans he
    · exact opened_mapped hi.toMemInv free (Vm.dirs_some he) i j
  | @closes e₀ s₀ m' he₀ freed =>
    obtain ⟨hold, hflushed⟩ := freed.flushed x hx
    refine Or.inl ⟨hold, fun e s i j he hu hne => ?_⟩
    rcases eq_or_ne e e₀ with rfl | hee
    · obtain rfl := Option.some.inj (he₀.symm.trans he)
      exact Or.inr (hflushed _ i j (Vm.dirs_some he) hu hne)
    · exact Or.inl ⟨(Function.update_of_ne hee _ _).trans he,
        freed.apart.mapped hee (Vm.dirs_some he) i j⟩

end Mos
