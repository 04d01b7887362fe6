import Mathlib.Data.List.Nodup
import Mathlib.Logic.ExistsUnique
import Mathlib.Logic.Function.Basic

/-!
# Tokens that are given out and slots that are handed back

A table says which tokens are out, and every holder has at most one. A list says which slots are
free. Both come from different places of a program, and agree as long as a token goes out with the
slot that gets it.
-/

namespace Mos.Lib

variable {α ι : Type} {hold : α → Option ι} {out : ι → Bool}
  {free : List α} {a b : α} {i : ι}

/-- A token is out when somebody has it, and nobody else has it then. -/
structure Tokens (hold : α → Option ι) (out : ι → Bool) : Prop where
  one : ∀ a b i, hold a = some i → hold b = some i → a = b
  out : ∀ i, out i = true ↔ ∃ a, hold a = some i

/-- The free slots are those that hold nothing, each listed once. -/
structure FreeSlots (hold : α → Option ι) (free : List α) : Prop where
  nodup : free.Nodup
  mem : ∀ a, a ∈ free ↔ hold a = none

namespace Tokens

theorem out_iff (h : Tokens hold out) (i : ι) : out i = true ↔ ∃! a, hold a = some i := by
  rw [h.out]
  constructor
  · rintro ⟨a, ha⟩
    exact ⟨a, ha, fun b hb => h.one b a i hb ha⟩
  · exact fun hu => hu.exists

theorem nobody (h : Tokens hold out) (hi : out i = false) (a : α) : hold a ≠ some i := by
  intro ha
  have := (h.out i).mpr ⟨a, ha⟩
  rw [hi] at this
  cases this

variable [DecidableEq α]

/-- A token goes to a slot that holds nothing. -/
theorem give [DecidableEq ι] (h : Tokens hold out) (ha : hold a = none) (hi : out i = false) :
    Tokens (Function.update hold a (some i)) (Function.update out i true) := by
  have held : ∀ b j, Function.update hold a (some i) b = some j ↔
      (b = a ∧ j = i) ∨ hold b = some j := by
    intro b j
    rcases eq_or_ne b a with rfl | hb
    · rw [Function.update_self, ha]
      simp [eq_comm]
    · rw [Function.update_of_ne hb]
      simp [hb]
  constructor
  · intro b c j hb hc
    rw [held] at hb hc
    rcases hb with ⟨rfl, rfl⟩ | hb
    · rcases hc with ⟨rfl, _⟩ | hc
      · rfl
      · exact absurd hc (h.nobody hi c)
    · rcases hc with ⟨rfl, rfl⟩ | hc
      · exact absurd hb (h.nobody hi b)
      · exact h.one b c j hb hc
  · intro j
    simp only [held]
    rcases eq_or_ne j i with rfl | hj
    · rw [Function.update_self]
      exact iff_of_true rfl ⟨a, Or.inl ⟨rfl, rfl⟩⟩
    · rw [Function.update_of_ne hj, h.out]
      simp [hj]

/-- A slot hands its token back. -/
theorem handBack [DecidableEq ι] (h : Tokens hold out) (ha : hold a = some i) :
    Tokens (Function.update hold a none) (Function.update out i false) := by
  have held : ∀ b j, Function.update hold a none b = some j ↔ b ≠ a ∧ hold b = some j := by
    intro b j
    rcases eq_or_ne b a with rfl | hb
    · simp
    · simp [hb]
  constructor
  · intro b c j hb hc
    exact h.one b c j ((held b j).mp hb).2 ((held c j).mp hc).2
  · intro j
    simp only [held]
    rcases eq_or_ne j i with rfl | hj
    · rw [Function.update_self]
      refine iff_of_false (by simp) ?_
      rintro ⟨b, hb, hbj⟩
      exact hb (h.one b a j hbj ha)
    · rw [Function.update_of_ne hj, h.out]
      refine exists_congr fun b => (and_iff_right_of_imp ?_).symm
      rintro hb rfl
      exact hj (Option.some.inj (hb.symm.trans ha))

end Tokens

namespace FreeSlots

variable [DecidableEq α]

theorem take (h : FreeSlots hold free) (i : ι) :
    FreeSlots (Function.update hold a (some i)) (free.erase a) := by
  refine ⟨h.nodup.erase a, fun b => ?_⟩
  rw [h.nodup.mem_erase_iff, h.mem]
  rcases eq_or_ne b a with rfl | hb
  · simp
  · simp [hb]

theorem put (h : FreeSlots hold free) (ha : hold a = some i) :
    FreeSlots (Function.update hold a none) (a :: free) := by
  have hnot : a ∉ free := by
    rw [h.mem, ha]
    simp
  refine ⟨List.nodup_cons.mpr ⟨hnot, h.nodup⟩, fun b => ?_⟩
  rw [List.mem_cons, h.mem]
  rcases eq_or_ne b a with rfl | hb
  · simp
  · simp [hb]

end FreeSlots

end Mos.Lib
