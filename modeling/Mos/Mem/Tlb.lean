import Mos.Mem.Coherence
import Mos.Mem.Wrap

/-!
# TLB coherence

`page_insert`, `page_remove` and `env_free` invalidate what they change. A program
gets at a page table itself only when a page that it has mapped is freed.
-/

namespace Mos

variable {pool : Finset Nat} {base : Nat} {k : Kernel} {e : EnvIx} {va perm : Word} {p n : Nat}
  {op : Op}

/-! ## Coherence -/

/-- The bits of an entry that EntryLo does not have. -/
def softwareBits : Word := 0x003F

/-- The permission of a mapping is made of `PTE_V`, `PTE_D` and software bits. -/
def PlainPerm (k : Kernel) (op : Op) : Prop :=
  ∀ e p va perm, StepMaps k op e p va perm → perm &&& ~~~(pteV ||| pteD ||| softwareBits) = 0

/-- A page that a call maps has not used up its counter. -/
def Countable (k : Kernel) (op : Op) : Prop :=
  ∀ e p va perm, StepMaps k op e p va perm → (k.mem.ppRef p).toNat = 65535 →
    k.mem.pte (k.envs e).envPgdir (pdx va) (ptx va) = some p

theorem and_split (a b : Word) : a = (a &&& b) ||| (a &&& ~~~b) := by
  ext i hi
  simp only [BitVec.getElem_or, BitVec.getElem_and, BitVec.getElem_not]
  cases a[i] <;> cases b[i] <;> rfl

theorem plain_perm (h : perm &&& ~~~(pteV ||| pteD ||| softwareBits) = 0) : perm.toNat < 4096 := by
  have hmask : perm = perm &&& (pteV ||| pteD ||| softwareBits) := by
    have hsplit := and_split perm (pteV ||| pteD ||| softwareBits)
    rwa [h, show (0 : Word) = 0#32 from rfl, BitVec.or_zero] at hsplit
  have hle : (perm &&& (pteV ||| pteD ||| softwareBits)).toNat ≤
      (pteV ||| pteD ||| softwareBits).toNat := by
    rw [BitVec.toNat_and]
    exact Nat.and_le_right
  rw [← hmask] at hle
  exact lt_of_le_of_lt hle (by decide)

theorem lookup_lt {m : Mem} {d : Nat} {x : PtePtr} (h : m.lookup d va = some (p, x)) : p < 2 ^ 20 := by
  obtain ⟨y, -, hy⟩ := Option.bind_eq_some_iff.mp h
  obtain ⟨q, hq, heq⟩ := Option.map_eq_some_iff.mp hy
  obtain rfl : q = p := congrArg Prod.fst heq
  rw [← (entry_some.mp hq).2]
  exact ppn_lt _

theorem pageAt_lt (h : k.pageAt e va = some p) : p < 2 ^ 20 := by
  obtain ⟨⟨q, x⟩, hl, rfl⟩ := Option.map_eq_some_iff.mp h
  exact lookup_lt hl

theorem maps_lt (h : Sound pool base k) (hm : StepMaps k op e p va perm) : p < 2 ^ 20 := by
  obtain ⟨f, inp, s, rfl, -, hmaps⟩ := hm
  cases hmaps with
  | memAlloc _ _ page =>
    exact h.vm.toMemInv.lt_two_pow (h.vm.counts.free_used p (List.mem_of_head? page))
  | memMap _ _ _ _ page => exact pageAt_lt page
  | ipcTrySend _ _ page => exact pageAt_lt page
  | sendReturnValue _ _ page => exact pageAt_lt page

/-- In a run in which no counter overflows, every valid half of a TLB entry for a user address is the
entry of that page in the only environment with that ASID. -/
theorem tlb_coherent (h : mos.Run (fun k op => PlainPerm k op ∧ Countable k op) k) :
    k.vm.Coherent := by
  have hrule := memory_rule (W := fun _ _ _ _ => True) (J := Vm.Coherent) ?_ ?_ ?_ ?_ ?_
    (run_mosWith h)
  · obtain ⟨pool, base, -, hj⟩ := hrule
    exact hj
  · exact fun _ _ _ _ _ _ _ _ => trivial
  · exact fun _ _ _ _ _ _ => trivial
  · intro pool base k op hs hc e p va perm hm
    refine ⟨trivial, ppn_pteWord_low (maps_lt hs hm) (plain_perm (hc.1 e p va perm hm)), ?_⟩
    exact hc.2 e p va perm hm
  · intro pool base k hbare x hx
    exact absurd (hbare.tlb ▸ hx) List.not_mem_nil
  · exact fun hi hs hj => coherent_step hi hs hj

theorem no_maps (h : ∀ f inp, op ≠ .syscall f inp) : ¬ StepMaps k op e p va perm := by
  rintro ⟨f, inp, s, rfl, -⟩
  exact h f inp rfl

/-- A program that has touched a page. -/
theorem tlb_coherent_refill : ∃ k, mos.Run (fun k op => PlainPerm k op ∧ Countable k op) k ∧
    (∃ x ∈ k.mem.tlb, ∃ odd, loValid (x.half odd) = true) ∧ k.vm.Coherent := by
  have hcheck : ((boot smallMachine [(bareLoop, 1)]).any fun k =>
      (next .start k).any fun k₁ => (next (.tlbRefill .zero 0x800000) k₁).any fun k₂ =>
        k₂.mem.tlb.any fun x => loValid (x.half false)) = true := by
    decide +kernel
  simp only [Option.any_eq_true, List.any_eq_true] at hcheck
  obtain ⟨k, hb, k₁, h₁, k₂, h₂, x, hx, hv⟩ := hcheck
  have hnone : ∀ {k op}, (∀ f inp, op ≠ .syscall f inp) → PlainPerm k op ∧ Countable k op := fun hop =>
    ⟨fun _ _ _ _ hm => absurd hm (no_maps hop), fun _ _ _ _ hm => absurd hm (no_maps hop)⟩
  have hrun : mos.Run (fun k op => PlainPerm k op ∧ Countable k op) k₂ :=
    .step (.step (.init ⟨_, _, hb⟩) (hnone (by simp)) h₁) (hnone (by simp)) h₂
  exact ⟨k₂, hrun, ⟨x, hx, false, hv⟩, tlb_coherent hrun⟩

/-! ## A counter that wraps -/

theorem plain_mapOp (k : Kernel) (va : Word) : PlainPerm k (mapOp va) := by
  rintro e p va' perm ⟨f, inp, s, ⟨⟩, hs, hmaps⟩
  obtain rfl := Option.some.inj hs
  have hd : pteD &&& ~~~(pteV ||| pteD ||| softwareBits) = 0 := by decide
  cases hmaps with
  | memMap => exact hd

theorem plain_none (h : ∀ f inp, op ≠ .syscall f inp) : PlainPerm k op :=
  fun _ _ _ _ hm => absurd hm (no_maps h)

theorem mapped_run (hn : n ≤ 65536) : ∃ k, (mosOn smallMachine [(bareLoop, 1)]).Run PlainPerm k ∧
    Solo k ∧ Mapped ((n + 1023) / 1024) n k.mem := by
  induction n with
  | zero =>
    obtain ⟨k, hk, halone, hm⟩ := solo_start
    obtain ⟨k₀, hb, hk⟩ := Option.bind_eq_some_iff.mp hk
    obtain ⟨k₁, h₁, hk⟩ := Option.bind_eq_some_iff.mp hk
    obtain rfl := Option.some.inj hk
    exact ⟨k₁, .step (.init hb) (plain_none (by simp)) h₁, halone, hm⟩
  | succ n ih =>
    obtain ⟨k, hrun, halone, hm⟩ := ih (by omega)
    obtain ⟨k', hnext, halone', hm'⟩ := mapped_next halone hm (by omega)
    exact ⟨k', .step hrun (plain_mapOp k _) hnext, halone', hm'⟩

/-- The only program maps its page 65536 times more and unmaps it once, and the page is freed. It
becomes a page table, and a store through an old mapping changes an entry that the TLB has. -/
theorem not_tlb_coherent : ∃ k, mos.Run PlainPerm k ∧ ¬ k.vm.Coherent := by
  obtain ⟨k₀, h₀, halone₀, hm₀⟩ := mapped_run (n := 65536) (by omega)
  obtain ⟨k₁, h₁, halone₁, hm₁, hempty, rest, hfree⟩ := unmap_next halone₀ hm₀
  have hfar : isIllegalVa farVa = false := by decide
  obtain ⟨k₂, h₂, halone₂, hm₂, hdir₂, hself⟩ := mapOp_next halone₁ hfar (aliased_text hm₁)
    (insert_freed hm₁ hempty hfree)
  obtain ⟨k₃, h₃, halone₃, hm₃, hdir₃, lo1, hx⟩ := refill_next halone₂ hm₂ hdir₂ hself
  obtain ⟨k₄, h₄, halone₄, htlb, hgone⟩ := store_next halone₃ hm₃ hdir₃
  have hunmap : PlainPerm k₀ (callOp 8 0 (nthVa 0) 0) := by
    rintro e p va perm ⟨f, inp, s, ⟨⟩, hs, hmaps⟩
    obtain rfl := Option.some.inj hs
    cases hmaps
  have hrun : mos.Run PlainPerm k₄ :=
    .step (.step (.step (.step (run_mosOn h₀) hunmap h₁) (plain_mapOp _ _) h₂) (plain_none (by simp)) h₃)
      (plain_none (by simp)) h₄
  refine ⟨k₄, hrun, fun hcoherent => ?_⟩
  have hvalid : loValid (pteWord 135 pteD >>> 6) = true := by decide
  obtain ⟨x, hx'⟩ : ∃ x : TlbEntry, x = ⟨entryHi 0 farVa, pteWord 135 pteD >>> 6, lo1⟩ := ⟨_, rfl⟩
  have hhalf : x.half false = pteWord 135 pteD >>> 6 := by
    rw [hx']
    rfl
  have hpage : x.page false = farVa := by
    rw [hx']
    change entryHi 0 farVa &&& ~~~(0x1FFF : Word) ||| 0 = farVa
    decide
  have hmem : x ∈ k₄.vm.mem.tlb := by
    rw [hx']
    exact htlb ▸ hx
  obtain ⟨e, s, w, he, -, -, hw, -⟩ := hcoherent x hmem false (hhalf ▸ hvalid) (by rw [hpage]; decide)
  rw [hpage] at hw
  rcases eq_or_ne e 0 with rfl | hne
  · have hpgdir : s.pgdir = 136 := by
      have hspace : k₄.vm.space 0 = some ⟨(k₄.envs 0).envPgdir, (k₄.envs 0).envAsid⟩ :=
        Sound.space_live (by rw [halone₄.live]; decide)
      rw [← Option.some.inj (hspace.symm.trans he)]
      exact halone₄.space.1
    rw [hpgdir] at hw
    exact nomatch hgone.symm.trans hw
  · have hspace : k₄.vm.space e = none := if_pos (halone₄.others e hne)
    exact nomatch hspace.symm.trans he

end Mos
