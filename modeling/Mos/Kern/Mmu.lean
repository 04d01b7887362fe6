import Mathlib.Data.Fin.Basic
import Mathlib.Tactic.Common
import Mathlib.Tactic.IntervalCases

/-!
# Addresses and page table entries (`mmu.h`, `trap.h`, `cp0regdef.h`)

Machine words are `BitVec 32`. A physical page is named by its number, as
`page2ppn` does, and its 1024 words by `WordIx`.
-/

namespace Mos

abbrev Word := BitVec 32

/-- The index of a word in a page, and of an entry in a page table. -/
abbrev WordIx := Fin 1024

instance neZero_words : NeZero 1024 := ⟨by decide⟩

/-! ## The address map -/

def pageSize : Word := 4096
def pdMap : Word := 4 * 1024 * 1024

def ulim : Word := 0x80000000
def uvpt : Word := ulim - pdMap
def upages : Word := uvpt - pdMap
def uenvs : Word := upages - pdMap
def utop : Word := uenvs
def uxstacktop : Word := utop
def ustacktop : Word := utop - 2 * pageSize
def utext : Word := pdMap
def ucow : Word := utext - pageSize
def utemp : Word := ucow - pageSize

def nasid : Nat := 256

/-- Bits 31-22. -/
def pdx (va : Word) : WordIx := Fin.ofNat 1024 (va >>> 22).toNat

/-- Bits 21-12. -/
def ptx (va : Word) : WordIx := Fin.ofNat 1024 (va >>> 12).toNat

/-- The frame number field of an address. -/
def ppn (pa : Word) : Nat := (pa >>> 12).toNat

def pteAddr (pte : Word) : Word := pte &&& ~~~0xFFF
def pteFlags (pte : Word) : Word := pte &&& 0xFFF

/-! ## The flags of an entry -/

def pteG : Word := 0x0001 <<< 6
def pteV : Word := 0x0002 <<< 6
def pteD : Word := 0x0004 <<< 6
def pteCCacheable : Word := 0x0018 <<< 6
def pteCow : Word := 0x0001
def pteLibrary : Word := 0x0002

/-- The test `pte & PTE_V`. -/
def pteValid (pte : Word) : Bool := pte &&& pteV != 0

def page2pa (pp : Nat) : Word := BitVec.ofNat 32 pp <<< 12

/-- The word that `page_insert` stores. -/
def pteWord (pp : Nat) (perm : Word) : Word := page2pa pp ||| perm ||| pteCCacheable ||| pteV

/-- The virtual address of page table entry `(i, j)`: `(pdeno << PDSHIFT) | (pteno << PGSHIFT)`. -/
def pageVa (pdeno pteno : WordIx) : Word :=
  BitVec.ofNat 32 pdeno.val <<< 22 ||| BitVec.ofNat 32 pteno.val <<< 12

/-! ## Bits of an entry -/

theorem ppn_lt (w : Word) : ppn w < 2 ^ 20 := by
  simp only [ppn, BitVec.toNat_ushiftRight, Nat.shiftRight_eq_div_pow]
  have := w.isLt
  omega

theorem ppn_or (a b : Word) : ppn (a ||| b) = ppn a ||| ppn b := by
  simp [ppn, BitVec.ushiftRight_or_distrib]

theorem ppn_page2pa {pp : Nat} (h : pp < 2 ^ 20) : ppn (page2pa pp) = pp := by
  simp only [ppn, page2pa, BitVec.toNat_ushiftRight, BitVec.toNat_shiftLeft, BitVec.toNat_ofNat,
    Nat.shiftRight_eq_div_pow, Nat.shiftLeft_eq]
  omega

theorem ppn_low {w : Word} (h : w.toNat < 4096) : ppn w = 0 := by
  simp only [ppn, BitVec.toNat_ushiftRight, Nat.shiftRight_eq_div_pow]
  omega

theorem ppn_pteWord {pp : Nat} (h : pp < 2 ^ 20) (perm : Word) :
    ppn (pteWord pp perm) = pp ||| ppn perm := by
  rw [pteWord, ppn_or, ppn_or, ppn_or, ppn_page2pa h]
  have h1 : ppn pteCCacheable = 0 := by decide
  have h2 : ppn pteV = 0 := by decide
  rw [h1, h2, Nat.or_zero, Nat.or_zero]

theorem ppn_pteWord_low {pp : Nat} (h : pp < 2 ^ 20) {perm : Word} (hp : perm.toNat < 4096) :
    ppn (pteWord pp perm) = pp := by
  rw [ppn_pteWord h, ppn_low hp, Nat.or_zero]

theorem pteValid_iff (w : Word) : pteValid w = true ↔ w.getLsbD 7 = true := by
  have hv : pteV = BitVec.twoPow 32 7 := by decide
  have hne : BitVec.twoPow 32 7 ≠ 0 := by decide
  simp only [pteValid, hv, bne_iff_ne, ne_eq]
  rw [BitVec.and_twoPow]
  split
  next h => exact iff_of_true hne h
  next h => exact iff_of_false (fun hn => hn rfl) h

theorem pteValid_or (a b : Word) : pteValid (a ||| b) = (pteValid a || pteValid b) := by
  rw [Bool.eq_iff_iff]
  simp [pteValid_iff]

@[simp] theorem pteValid_pteWord (pp : Nat) (perm : Word) : pteValid (pteWord pp perm) = true := by
  have h : pteValid pteV = true := by decide
  rw [pteWord, pteValid_or, h, Bool.or_true]

@[simp] theorem pteValid_zero : pteValid 0 = false := by decide

theorem pteAddr_eq (w : Word) : pteAddr w = page2pa (ppn w) := by
  have h : page2pa (ppn w) = w >>> 12 <<< 12 := by
    rw [page2pa, ppn, BitVec.ofNat_toNat, BitVec.setWidth_eq]
  rw [h, pteAddr]
  ext i hi
  interval_cases i <;> simp

@[simp] theorem ppn_pteAddr (w : Word) : ppn (pteAddr w) = ppn w := by
  rw [pteAddr_eq, ppn_page2pa (ppn_lt w)]

/-! ## Indices of an address -/

theorem pdx_val (va : Word) : (pdx va).val = va.toNat / 2 ^ 22 := by
  simp only [pdx, Fin.ofNat, BitVec.toNat_ushiftRight, Nat.shiftRight_eq_div_pow]
  have := va.isLt
  omega

theorem ptx_val (va : Word) : (ptx va).val = va.toNat / 2 ^ 12 % 1024 := by
  simp [ptx, Fin.ofNat, BitVec.toNat_ushiftRight, Nat.shiftRight_eq_div_pow]

theorem pageVa_toNat (i j : WordIx) : (pageVa i j).toNat = i.val * 2 ^ 22 + j.val * 2 ^ 12 := by
  have hi := i.isLt
  have hj := j.isLt
  have h1 : (i.val % 2 ^ 32) <<< 22 % 2 ^ 32 = i.val * 2 ^ 22 := by
    rw [Nat.shiftLeft_eq]; omega
  have h2 : (j.val % 2 ^ 32) <<< 12 % 2 ^ 32 = j.val * 2 ^ 12 := by
    rw [Nat.shiftLeft_eq]; omega
  simp only [pageVa, BitVec.toNat_or, BitVec.toNat_shiftLeft, BitVec.toNat_ofNat]
  rw [h1, h2]
  have : j.val * 2 ^ 12 < 2 ^ 22 := by omega
  rw [Nat.mul_comm i.val, Nat.two_pow_add_eq_or_of_lt this]

@[simp] theorem pdx_pageVa (i j : WordIx) : pdx (pageVa i j) = i := by
  apply Fin.ext
  rw [pdx_val, pageVa_toNat]
  have := j.isLt
  omega

@[simp] theorem ptx_pageVa (i j : WordIx) : ptx (pageVa i j) = j := by
  apply Fin.ext
  rw [ptx_val, pageVa_toNat]
  have := j.isLt
  omega

theorem pageVa_eq (va : Word) : pageVa (pdx va) (ptx va) = pteAddr va := by
  apply BitVec.eq_of_toNat_eq
  have hppn : ppn va = va.toNat / 2 ^ 12 := by
    simp only [ppn, BitVec.toNat_ushiftRight, Nat.shiftRight_eq_div_pow]
  have hva := va.isLt
  rw [pageVa_toNat, pteAddr_eq, pdx_val, ptx_val, page2pa, BitVec.toNat_shiftLeft,
    BitVec.toNat_ofNat, Nat.shiftLeft_eq, hppn]
  omega

end Mos
