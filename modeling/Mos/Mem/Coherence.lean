import Mos.Mem.Vm

/-!
# The TLB and the page tables

A valid half of a TLB entry for a user address is the entry of the page table
that it was filled from.
-/

namespace Mos

/-! ## What a TLB entry says -/

namespace TlbEntry

def asid (x : TlbEntry) : Nat := (x.hi &&& 0xFF).toNat

def half (x : TlbEntry) (odd : Bool) : Word := if odd then x.lo1 else x.lo0

/-- The address of the page that the half translates. -/
def page (x : TlbEntry) (odd : Bool) : Word := (x.hi &&& ~~~(0x1FFF : Word)) ||| if odd then 0x1000 else 0

end TlbEntry

variable {pool : Finset Nat} {base : Nat} {W : Grant} {v v' : Vm} {e : EnvIx} {s : AddressSpace}
  {x : TlbEntry} {w va : Word} {asid : Nat}

/-- The V bit of EntryLo. -/
def loValid (lo : Word) : Bool := lo &&& 2 != 0

theorem loValid_iff (lo : Word) : loValid lo = true ↔ lo.getLsbD 1 = true := by
  have hv : (2 : Word) = BitVec.twoPow 32 1 := by decide
  have hne : BitVec.twoPow 32 1 ≠ 0 := by decide
  simp only [loValid, hv, bne_iff_ne, ne_eq]
  rw [BitVec.and_twoPow]
  split
  next h => exact iff_of_true hne h
  next h => exact iff_of_false (fun hn => hn rfl) h

theorem loValid_shift (w : Word) : loValid (w >>> 6) = pteValid w := by
  rw [Bool.eq_iff_iff, loValid_iff, pteValid_iff]
  simp

/-! ## Pairs of pages -/

theorem pair_eq (va : Word) : va &&& ~~~(0x1FFF : Word) = va >>> 13 <<< 13 := by
  ext i hi
  interval_cases i <;> simp

theorem pair_toNat (va : Word) : (va &&& ~~~(0x1FFF : Word)).toNat = va.toNat / 8192 * 8192 := by
  have hva := va.isLt
  rw [pair_eq, BitVec.toNat_shiftLeft, BitVec.toNat_ushiftRight, Nat.shiftRight_eq_div_pow,
    Nat.shiftLeft_eq]
  omega

theorem pair_or_toNat (va : Word) (odd : Bool) :
    ((va &&& ~~~(0x1FFF : Word)) ||| if odd then 0x1000 else 0).toNat =
      va.toNat / 8192 * 8192 + if odd then 4096 else 0 := by
  rw [BitVec.toNat_or, pair_toNat]
  cases odd with
  | false => simp
  | true =>
    have h : (4096 : Nat) < 2 ^ 13 := by decide
    have hor := Nat.two_pow_add_eq_or_of_lt h (va.toNat / 8192)
    rw [if_pos rfl, if_pos rfl]
    change va.toNat / 8192 * 8192 ||| 4096 = _
    rw [Nat.mul_comm, ← hor]

theorem entryHi_high (asid : Nat) (va : Word) : entryHi asid va &&& ~~~0x1FFF = va &&& ~~~0x1FFF := by
  have h : (0xFF : Word) &&& ~~~0x1FFF = 0 := by decide
  unfold entryHi
  rw [BitVec.and_or_distrib_right, BitVec.and_assoc, BitVec.and_assoc, h, BitVec.and_self]
  simp

theorem entryHi_low (asid : Nat) (va : Word) :
    entryHi asid va &&& 0xFF = BitVec.ofNat 32 asid &&& 0xFF := by
  have h : (~~~0x1FFF : Word) &&& 0xFF = 0 := by decide
  unfold entryHi
  rw [BitVec.and_or_distrib_right, BitVec.and_assoc, BitVec.and_assoc, h, BitVec.and_self]
  simp

theorem asid_low (h : asid < nasid) : (BitVec.ofNat 32 asid &&& 0xFF).toNat = asid := by
  have h : asid < 256 := h
  rw [BitVec.toNat_and, BitVec.toNat_ofNat]
  change asid % 2 ^ 32 &&& (2 ^ 8 - 1) = asid
  rw [Nat.and_two_pow_sub_one_eq_mod]
  omega

/-- An entry matches the pages that it translates. -/
theorem matches_page (odd : Bool) (h : asid < nasid) (ha : asid = x.asid) :
    x.matches (entryHi asid (pageVa (pdx (x.page odd)) (ptx (x.page odd)))) = true := by
  have hpair : x.page odd &&& ~~~0x1FFF = x.hi &&& ~~~0x1FFF := by
    apply BitVec.eq_of_toNat_eq
    rw [pair_toNat, pair_toNat, TlbEntry.page, pair_or_toNat]
    cases odd with
    | false => simp
    | true =>
      rw [if_pos rfl]
      omega
  have hhigh : ∀ a b : Word, a &&& ~~~0x1FFF = b &&& ~~~0x1FFF → a >>> 13 = b >>> 13 := by
    intro a b hab
    have ha := pair_toNat a
    rw [hab, pair_toNat] at ha
    apply BitVec.eq_of_toNat_eq
    rw [BitVec.toNat_ushiftRight, BitVec.toNat_ushiftRight, Nat.shiftRight_eq_div_pow,
      Nat.shiftRight_eq_div_pow]
    omega
  have hasid : x.hi &&& 0xFF = entryHi asid (x.page odd) &&& 0xFF := by
    apply BitVec.eq_of_toNat_eq
    rw [entryHi_low, asid_low h]
    exact ha.symm
  rw [entryHi_page]
  unfold TlbEntry.matches
  rw [hasid, hhigh x.hi (entryHi asid (x.page odd)) (by rw [entryHi_high, hpair])]
  simp

theorem pdx_lt_utop (h : va < utop) : pdx va < pdx utop := by
  have hu : utop.toNat = 2 ^ 22 * 509 := by decide
  have hp : (pdx utop).val = 509 := by decide
  rw [BitVec.lt_def, hu] at h
  rw [Fin.lt_def, pdx_val, hp]
  omega

/-! ## Coherence -/

/-- Every valid half for a user address is the current entry of that page, in the only environment
that has the ASID. -/
def Vm.Coherent (v : Vm) : Prop :=
  ∀ x ∈ v.mem.tlb, ∀ odd, loValid (x.half odd) = true → x.page odd < utop →
    ∃ e s w, v.space e = some s ∧ s.asid = x.asid ∧
      (∀ e' s', v.space e' = some s' → s'.asid = x.asid → e' = e) ∧
      v.mem.mapped s.pgdir (pdx (x.page odd)) (ptx (x.page odd)) = some w ∧ x.half odd = w >>> 6

/-- The entry that `tlbwr` writes. -/
theorem coherent_tlbEntry {pte : PtePtr} (hi : VmInv pool base v) (he : v.space e = some s)
    (hwalk : v.mem.walk s.pgdir va = some pte) {odd : Bool}
    (hx : x = v.mem.tlbEntry s.asid va pte) (hv : loValid (x.half odd) = true)
    (hu : x.page odd < utop) :
    s.asid = x.asid ∧ ∃ w, v.mem.mapped s.pgdir (pdx (x.page odd)) (ptx (x.page odd)) = some w ∧
      x.half odd = w >>> 6 := by
  obtain ⟨t, ht, rfl⟩ := Option.map_eq_some_iff.mp hwalk
  have hpage : (x.page odd).toNat = va.toNat / 8192 * 8192 + if odd then 4096 else 0 := by
    have hhi : x.hi = entryHi s.asid va := by rw [hx, Mem.tlbEntry]
    have hpair : (entryHi s.asid va).toNat / 8192 * 8192 = va.toNat / 8192 * 8192 := by
      rw [← pair_toNat, ← pair_toNat, entryHi_high]
    rw [TlbEntry.page, hhi, pair_or_toNat, hpair]
  have hpdx : pdx (x.page odd) = pdx va := by
    apply Fin.ext
    rw [pdx_val, pdx_val, hpage]
    cases odd with
    | false =>
      simp only [Bool.false_eq_true, if_false]
      omega
    | true =>
      rw [if_pos rfl]
      omega
  have hptx : (ptx (x.page odd)).val = (ptx va).val / 2 * 2 + if odd then 1 else 0 := by
    rw [ptx_val, ptx_val, hpage]
    cases odd with
    | false =>
      simp only [Bool.false_eq_true, if_false]
      omega
    | true =>
      rw [if_pos rfl, if_pos rfl]
      omega
  have hlo : x.half odd = v.mem.phys t (ptx (x.page odd)) >>> 6 := by
    unfold TlbEntry.half
    cases odd with
    | false =>
      have hix : (⟨(ptx va).val / 2 * 2, by omega⟩ : WordIx) = ptx (x.page false) :=
        Fin.ext (by rw [hptx]; simp)
      rw [← hix]
      exact congrArg TlbEntry.lo0 hx
    | true =>
      have hix : (⟨(ptx va).val / 2 * 2 + 1, by omega⟩ : WordIx) = ptx (x.page true) :=
        Fin.ext (by rw [hptx]; simp)
      rw [← hix]
      exact congrArg TlbEntry.lo1 hx
  have hlow : pdx va < pdx utop := hpdx ▸ pdx_lt_utop hu
  refine ⟨?_, _, ?_, hlo⟩
  · rw [hx]
    unfold TlbEntry.asid Mem.tlbEntry
    rw [entryHi_low, asid_low (hi.asid_lt e s he)]
  · rw [hlo, loValid_shift] at hv
    rw [hpdx, Mem.mapped, pde_user hlow, ht, Option.bind_some]
    exact valid_some.mpr ⟨hv, rfl⟩

theorem coherent_step (hi : VmInv pool base v) (h : Vm.Step pool base W v v') (hc : v.Coherent) :
    v'.Coherent := by
  have hi' := h.inv hi
  intro x hx odd hv hu
  have hunique : ∀ e s, v'.space e = some s → s.asid = x.asid →
      ∀ e' s', v'.space e' = some s' → s'.asid = x.asid → e' = e := by
    intro e s he ha e' s' he' ha'
    exact hi'.asid_inj e e' s s' he he' (ha.trans ha'.symm)
  rcases h.tlb hi hx with ⟨hold, hkeep⟩ | ⟨e, s, va, pte, he, hwalk, hentry⟩
  · obtain ⟨e, s, w, he, ha, -, hw, hlo⟩ := hc x hold odd hv hu
    rcases hkeep e s _ _ he (pdx_lt_utop hu) (by rw [hw]; simp) with ⟨he', hsame⟩ | hno
    · exact ⟨e, s, w, he', ha, hunique e s he' ha, hsame.trans hw, hlo⟩
    · exact absurd (matches_page odd (hi.asid_lt e s he) ha) (by rw [hno]; simp)
  · obtain ⟨ha, w, hw, hlo⟩ := coherent_tlbEntry hi' he hwalk hentry hv hu
    exact ⟨e, s, w, he, ha, hunique e s he ha, hw, hlo⟩

end Mos
