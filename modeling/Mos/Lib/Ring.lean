import Mathlib.Logic.Function.Basic
import Mathlib.Tactic.Common

/-!
# Ring buffers

A buffer of `size` cells with two positions that only grow: position `k` is kept in cell
`k % size`. The cells between the positions hold the end of the list of all that was written.
-/

namespace Mos.Lib

variable {α : Type} {size r : Nat} {buf : Nat → α} {l : List α}

/-- What was written is `l`, of which the first `r` elements have been read. -/
structure Ring (size : Nat) (buf : Nat → α) (r : Nat) (l : List α) : Prop where
  read_le : r ≤ l.length
  fits : l.length ≤ r + size
  cell : ∀ k (hk : k < l.length), r ≤ k → buf (k % size) = l[k]

namespace Ring

theorem nil (size : Nat) (buf : Nat → α) : Ring size buf 0 [] :=
  ⟨Nat.le_refl _, Nat.zero_le _, fun _ hk => absurd hk (Nat.not_lt_zero _)⟩

theorem mod_ne {j k : Nat} (hjk : j < k) (hk : k < j + size) : j % size ≠ k % size := by
  intro h
  have hzero : (k - j) % size = 0 := Nat.sub_mod_eq_zero_of_mod_eq h.symm
  rw [Nat.mod_eq_of_lt (by omega)] at hzero
  omega

theorem push (h : Ring size buf r l) (hroom : l.length < r + size) (a : α) :
    Ring size (Function.update buf (l.length % size) a) r (l ++ [a]) where
  read_le := by
    have := h.read_le
    simp only [List.length_append, List.length_singleton]
    omega
  fits := by
    simp only [List.length_append, List.length_singleton]
    omega
  cell := by
    intro k hk hr
    rw [List.length_append, List.length_singleton] at hk
    by_cases hlast : k < l.length
    · rw [List.getElem_append_left hlast, Function.update_of_ne (mod_ne hlast (by omega)),
        h.cell k hlast hr]
    · obtain rfl : k = l.length := by omega
      rw [Function.update_self, List.getElem_concat_length rfl]

theorem pop (h : Ring size buf r l) (hr : r < l.length) : Ring size buf (r + 1) l where
  read_le := hr
  fits := by
    have := h.fits
    omega
  cell := fun k hk hle => h.cell k hk (by omega)

theorem take_pop (h : Ring size buf r l) (hr : r < l.length) :
    l.take r ++ [buf (r % size)] = l.take (r + 1) := by
  rw [h.cell r hr (Nat.le_refl _), List.take_append_getElem hr]

end Ring

end Mos.Lib
