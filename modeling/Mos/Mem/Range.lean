import Mos.Mem.Boot

/-!
# Where user pages are mapped

`is_illegal_va` looks at the addresses a call is given. A page that comes with a
message goes to `env_ipc_dstva` of the receiver, which is 0 when it wants no page.
-/

namespace Mos

variable {pool : Finset Nat} {base : Nat} {k k' : Kernel} {e c : EnvIx} {va perm : Word} {p : Nat}
  {op : Op} {i j : WordIx} {w : Word}

/-- Every valid user entry of a live environment maps an address from `UTEMP` on. -/
def Kernel.InRange (k : Kernel) : Prop :=
  ∀ e i j w, (k.envs e).envStatus ≠ .free → i < pdx utop →
    k.mem.mapped (k.envs e).envPgdir i j = some w → utemp ≤ pageVa i j ∧ pageVa i j < utop

/-- The programs of the repository are linked at `UTEXT`. -/
def Linked (image : Image) : Prop := ∀ ip ∈ image.pages, utemp ≤ ip.va

/-- No message carries a page to a receiver that wants none, the permission does not reach into the
frame number, and the counter of the page is not used up. -/
def MapsInRange (k : Kernel) (op : Op) : Prop :=
  ∀ e p va perm, StepMaps k op e p va perm → va ≠ 0 ∧ ppn (pteWord p perm) = p ∧
    ((k.mem.ppRef p).toNat = 65535 → k.mem.pte (k.envs e).envPgdir (pdx va) (ptx va) = some p)

/-- An entry from `UTEMP` on. -/
def rangeGrant : Grant := fun _ i j _ => utemp ≤ pageVa i j

theorem page_above (h : utemp ≤ va) : utemp ≤ pageVa (pdx va) (ptx va) := by
  have hu : utemp.toNat = 4096 * 1022 := by decide
  rw [BitVec.le_def, hu] at h ⊢
  rw [pageVa_toNat, pdx_val, ptx_val]
  omega

theorem pageVa_lt (h : i < pdx utop) : pageVa i j < utop := by
  have hu : utop.toNat = 2 ^ 22 * 509 := by decide
  have hp : (pdx utop).val = 509 := by decide
  have hj := j.isLt
  rw [Fin.lt_def, hp] at h
  rw [BitVec.lt_def, hu, pageVa_toNat]
  omega

theorem maps_legal (h : Sound pool base k) (hm : StepMaps k op e p va perm) :
    va = 0 ∨ isIllegalVa va = false := by
  obtain ⟨f, inp, s, rfl, -, hmaps⟩ := hm
  cases hmaps with
  | memAlloc legal => exact Or.inr legal
  | memMap _ dstLegal => exact Or.inr dstLegal
  | ipcTrySend => exact h.dstva _
  | sendReturnValue => exact h.dstva _

/-- In a run whose steps map pages so, every user mapping is in user range. -/
theorem mapped_in_range (h : (mosWith Linked).Run MapsInRange k) : k.InRange := by
  have hrule := memory_rule (W := rangeGrant) (C := MapsInRange) (k := k)
    (J := fun v => ∀ e s i j w, v.space e = some s → i < pdx utop →
      v.mem.mapped s.pgdir i j = some w → utemp ≤ pageVa i j) ?_ ?_ ?_ ?_ ?_ h
  · obtain ⟨pool, base, -, hj⟩ := hrule
    exact fun e i j w he hi hw => ⟨hj e _ i j w (Sound.space_live he) hi hw, pageVa_lt hi⟩
  · exact fun image hfit pool ip hip _ _ _ => page_above (hfit ip hip)
  · exact fun pool _ _ va _ hf => page_above hf.low
  · intro pool base k op hs hc e p va perm hm
    obtain ⟨h0, hplain, hroom⟩ := hc e p va perm hm
    have hlegal := (maps_legal hs hm).resolve_left h0
    exact ⟨page_above (legal_user hlegal).1, hplain, hroom⟩
  · exact fun hbare e s _ _ _ he => nomatch (hbare.space e).symm.trans he
  · intro pool base v v' hi hs hj e s i j w he hu hw
    rcases hs.entries hi he hu hw with ⟨he', hw'⟩ | hgrant
    · exact hj e s i j w he' hu hw'
    · exact hgrant

/-! ## Runs of the small machine -/

theorem bareLoop_linked : Linked bareLoop := by
  intro ip hip
  obtain rfl := List.mem_singleton.mp hip
  decide

theorem linked_boot {n : Nat} (hb : boot smallMachine (List.replicate n (bareLoop, 1)) = some k) :
    (mosWith Linked).init k := by
  refine ⟨_, _, fun p hp => ?_, hb⟩
  rw [List.eq_of_mem_replicate hp]
  exact bareLoop_linked

/-- A program that allocates a page and writes to another one. -/
theorem mapped_in_range_alloc : ∃ k, (mosWith Linked).Run MapsInRange k ∧
    (k.mem.mapped (k.envs 0).envPgdir 2 0).isSome = true ∧ k.InRange := by
  have hcheck : ((boot smallMachine (List.replicate 1 (bareLoop, 1))).any fun k =>
      (next .start k).any fun k₁ => target k₁ 0 true == some 0 &&
        k₁.mem.pageFreeList.head? == some 133 && k₁.mem.ppRef 133 == 0 &&
        (next (callOp 6 0 0x800000 pteD) k₁).any fun k₂ =>
          (next (.tlbRefill .zero 0x900000) k₂).any fun k₃ =>
            (k₃.mem.mapped (k₃.envs 0).envPgdir 2 0).isSome) = true := by
    decide +kernel
  simp only [Option.any_eq_true, Bool.and_eq_true, beq_iff_eq] at hcheck
  obtain ⟨k, hb, k₁, h₁, ⟨⟨htarget, hhead⟩, href⟩, k₂, h₂, k₃, h₃, hw⟩ := hcheck
  have hnone : ∀ {k op}, (∀ f inp, op ≠ .syscall f inp) → MapsInRange k op := by
    rintro k op hop e p va perm ⟨f, inp, s, rfl, -⟩
    exact absurd rfl (hop f inp)
  have hrun : (mosWith Linked).Run MapsInRange k₃ := by
    refine .step (.step (.step (.init (linked_boot hb)) (hnone (by simp)) h₁) ?_ h₂) (hnone (by simp)) h₃
    rintro e p va perm ⟨f, inp, s, ⟨⟩, hs, hmaps⟩
    obtain rfl := Option.some.inj hs
    cases hmaps with
    | memAlloc legal he hp =>
      obtain rfl : 133 = p := Option.some.inj (hhead.symm.trans hp)
      rw [href]
      exact ⟨by decide, by decide, fun h => absurd h (by decide)⟩
  exact ⟨k₃, hrun, hw, mapped_in_range hrun⟩

/-- The second program waits for a value alone, and the first one sends its page: it is mapped at 0. -/
theorem not_mapped_in_range : ∃ k k', (mosWith Linked).Reachable k ∧ (k.envs 1).envIpcRecving = 1 ∧
    (k.envs 1).envIpcDstva = 0 ∧ next (callOp 13 4097 2 utext) k = some k' ∧
    (k'.mem.mapped (k'.envs 1).envPgdir (pdx 0) (ptx 0)).isSome = true ∧ ¬ k'.InRange := by
  have hcheck : ((boot smallMachine (List.replicate 2 (bareLoop, 1))).any fun k =>
      (next .start k).any fun k₁ => (next (callOp 14 0 0 0) k₁).any fun k₂ =>
        (k₂.envs 1).envIpcRecving == 1 && (k₂.envs 1).envIpcDstva == 0 &&
        (next (callOp 13 4097 2 utext) k₂).any fun k₃ =>
          (k₃.mem.mapped (k₃.envs 1).envPgdir (pdx 0) (ptx 0)).isSome &&
          (k₃.envs 1).envStatus == .runnable) = true := by
    decide +kernel
  simp only [Option.any_eq_true, Bool.and_eq_true, beq_iff_eq] at hcheck
  obtain ⟨k, hb, k₁, h₁, k₂, h₂, ⟨hrecv, hdst⟩, k₃, h₃, hw, hlive⟩ := hcheck
  have hrun : (mosWith Linked).Reachable k₂ :=
    .step (.step (.init (linked_boot hb)) trivial h₁) trivial h₂
  refine ⟨k₂, k₃, hrun, hrecv, hdst, h₃, hw, fun hrange => ?_⟩
  obtain ⟨w, hw⟩ := Option.isSome_iff_exists.mp hw
  have hlow := (hrange 1 _ _ w (by rw [hlive]; decide) (by decide) hw).1
  exact absurd hlow (by decide)

end Mos
