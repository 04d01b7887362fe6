import Mathlib.Data.Finset.Card
import Mathlib.Data.Fintype.Basic
import Mathlib.Logic.Function.Basic
import Mathlib.Tactic.Common

/-!
# Counted references

A finite set `R` of places, each of which may refer to an object of `P`. Every
object carries a counter, and a free list holds the objects that may be handed
out again. `Inv` is what the counters must satisfy; each operation keeps it.
-/

namespace Mos.Lib

variable {R P : Type}

@[ext] structure Heap (R P : Type) where
  refs : R → Option P
  cnt : P → Nat
  free : List P

namespace Heap

section Operations

variable [DecidableEq R] [DecidableEq P]

/-- Hands out the first free object. -/
def take (h : Heap R P) : Heap R P := { h with free := h.free.tail }

def link (h : Heap R P) (r : R) (p : P) : Heap R P :=
  { h with refs := Function.update h.refs r (some p)
           cnt := Function.update h.cnt p (h.cnt p + 1) }

/-- Drops one reference, and frees the object with the last one. -/
def unlink (h : Heap R P) (r : R) (p : P) : Heap R P where
  refs := Function.update h.refs r none
  cnt := Function.update h.cnt p (h.cnt p - 1)
  free := if h.cnt p - 1 = 0 then p :: h.free else h.free

/-- Drops the references of `S` and leaves the counters alone. -/
def forget (h : Heap R P) (S : R → Prop) [DecidablePred S] : Heap R P :=
  { h with refs := fun r => if S r then none else h.refs r }

end Operations

variable [Fintype R] [DecidableEq P]

/-- The places that refer to `p`. -/
def fiber (h : Heap R P) (p : P) : Finset R := Finset.univ.filter fun r => h.refs r = some p

@[simp] theorem mem_fiber (h : Heap R P) (p : P) (r : R) : r ∈ h.fiber p ↔ h.refs r = some p := by
  simp [fiber]

/-- `U` are the objects under management. A place of `sole` is the only one that
refers to its object. -/
structure Inv (U : P → Prop) (sole : R → Prop) (h : Heap R P) : Prop where
  used : ∀ r p, h.refs r = some p → U p
  counted : ∀ r p, h.refs r = some p → h.cnt p = (h.fiber p).card
  sole_ref : ∀ r r' p, sole r → h.refs r = some p → h.refs r' = some p → r' = r
  free_nodup : h.free.Nodup
  free_used : ∀ p ∈ h.free, U p
  free_zero : ∀ p ∈ h.free, h.cnt p = 0

/-- The counters are right for the objects nobody refers to as well. -/
def Exact (U : P → Prop) (h : Heap R P) : Prop := ∀ p, U p → h.cnt p = (h.fiber p).card

variable {U : P → Prop} {sole : R → Prop} {h : Heap R P}

theorem card_fiber_pos {r : R} {p : P} (hr : h.refs r = some p) : 0 < (h.fiber p).card :=
  Finset.card_pos.mpr ⟨r, by simpa using hr⟩

theorem Inv.cnt_pos (hi : Inv U sole h) {r : R} {p : P} (hr : h.refs r = some p) : 0 < h.cnt p := by
  rw [hi.counted r p hr]
  exact card_fiber_pos hr

theorem Inv.free_unreferenced (hi : Inv U sole h) {p : P} (hp : p ∈ h.free) (r : R) :
    h.refs r ≠ some p := fun hr => by
  have := hi.cnt_pos hr
  rw [hi.free_zero p hp] at this
  exact absurd this (lt_irrefl 0)

theorem Inv.fiber_le (hi : Inv U sole h) (p : P) : (h.fiber p).card ≤ h.cnt p := by
  rcases (h.fiber p).eq_empty_or_nonempty with he | ⟨r, hr⟩
  · simp [he]
  · exact (hi.counted r p (by simpa using hr)).ge

theorem Inv.cnt_eq (hi : Inv U sole h) {p : P} (hp : (h.fiber p).card ≠ 0) :
    h.cnt p = (h.fiber p).card := by
  obtain ⟨r, hr⟩ := Finset.card_ne_zero.mp hp
  exact hi.counted r p ((mem_fiber h p r).mp hr)

theorem Inv.eq_of_cnt_one (hi : Inv U sole h) {p : P} (hp : h.cnt p = 1) {r r' : R}
    (hr : h.refs r = some p) (hr' : h.refs r' = some p) : r = r' := by
  have hle : (h.fiber p).card ≤ 1 := hp ▸ hi.fiber_le p
  exact Finset.card_le_one.mp hle r ((mem_fiber h p r).mpr hr) r' ((mem_fiber h p r').mpr hr')

theorem fiber_eq_empty {p : P} (hp : ∀ r, h.refs r ≠ some p) : h.fiber p = ∅ := by
  ext r
  simpa using hp r

/-! ## Taking a free object -/

omit [Fintype R] [DecidableEq P] in
theorem take_free {p : P} {rest : List P} (hf : h.free = p :: rest) : h.take.free = rest := by
  rw [take, hf]
  rfl

theorem Inv.take (hi : Inv U sole h) : Inv U sole h.take where
  used := hi.used
  counted := hi.counted
  sole_ref := hi.sole_ref
  free_nodup := hi.free_nodup.tail
  free_used p hp := hi.free_used p (List.mem_of_mem_tail hp)
  free_zero p hp := hi.free_zero p (List.mem_of_mem_tail hp)

theorem Exact.take (he : Exact U h) : Exact U h.take := he

/-! ## Adding a reference -/

variable [DecidableEq R]

theorem fiber_link_self {r : R} {p : P} : (h.link r p).fiber p = insert r (h.fiber p) := by
  ext x
  by_cases hx : x = r
  · simp [hx, link]
  · simp [hx, link]

omit [DecidableEq R] in
theorem fiber_congr {h' : Heap R P} {p : P} (hr : h'.refs = h.refs) : h'.fiber p = h.fiber p := by
  unfold fiber
  rw [hr]

theorem fiber_link_of_ne {r : R} {p q : P} (hr : h.refs r = none) (hq : q ≠ p) :
    (h.link r p).fiber q = h.fiber q := by
  ext x
  by_cases hx : x = r
  · simp [hx, link, hr, hq.symm]
  · simp [hx, link]

theorem card_link {r : R} {p : P} (hr : h.refs r = none) :
    ((h.link r p).fiber p).card = (h.fiber p).card + 1 := by
  rw [fiber_link_self, Finset.card_insert_of_notMem (by simp [hr])]

/-- What a new reference needs: a place that is empty, and an object in use that is
either already counted or fresh from the free list. -/
structure CanLink (U : P → Prop) (sole : R → Prop) (h : Heap R P) (r : R) (p : P) : Prop where
  empty : h.refs r = none
  used : U p
  not_free : p ∉ h.free
  counted : h.cnt p = (h.fiber p).card
  shared : ∀ r', h.refs r' = some p → ¬ sole r ∧ ¬ sole r'

theorem Inv.link (hi : Inv U sole h) {r : R} {p : P} (hl : CanLink U sole h r p) :
    Inv U sole (h.link r p) where
  used x q hx := by
    by_cases hxr : x = r
    · obtain rfl : p = q := by simpa [Heap.link, hxr] using hx
      exact hl.used
    · exact hi.used x q (by simpa [Heap.link, hxr] using hx)
  counted x q hx := by
    by_cases hq : q = p
    · subst hq
      rw [card_link hl.empty, ← hl.counted]
      simp [Heap.link]
    · have hxr : x ≠ r := by
        rintro rfl
        exact hq (by simpa [Heap.link] using hx.symm)
      rw [fiber_link_of_ne hl.empty hq, ← hi.counted x q (by simpa [Heap.link, hxr] using hx)]
      simp [Heap.link, hq]
  sole_ref x y q hs hx hy := by
    by_cases hxr : x = r <;> by_cases hyr : y = r
    · rw [hxr, hyr]
    · obtain rfl : p = q := by simpa [Heap.link, hxr] using hx
      exact absurd (hxr ▸ hs) (hl.shared y (by simpa [Heap.link, hyr] using hy)).1
    · obtain rfl : p = q := by simpa [Heap.link, hyr] using hy
      exact absurd hs (hl.shared x (by simpa [Heap.link, hxr] using hx)).2
    · exact hi.sole_ref x y q hs (by simpa [Heap.link, hxr] using hx)
        (by simpa [Heap.link, hyr] using hy)
  free_nodup := hi.free_nodup
  free_used := hi.free_used
  free_zero q hq := by
    have hne : q ≠ p := fun he => hl.not_free (he ▸ hq)
    simpa [Heap.link, hne] using hi.free_zero q hq

theorem Exact.link (he : Exact U h) {r : R} {p : P} (hr : h.refs r = none) :
    Exact U (h.link r p) := by
  intro q hq
  by_cases hqp : q = p
  · subst hqp
    rw [card_link hr, ← he q hq]
    simp [Heap.link]
  · rw [fiber_link_of_ne hr hqp, ← he q hq]
    simp [Heap.link, hqp]

/-- An object that may get one more shared reference: it is not free, its counter is right, and
nobody holds it alone. -/
structure Held (U : P → Prop) (sole : R → Prop) (h : Heap R P) (p : P) : Prop where
  used : U p
  not_free : p ∉ h.free
  counted : h.cnt p = (h.fiber p).card
  shared : ∀ r, h.refs r = some p → ¬ sole r

omit [DecidableEq R] in
theorem Held.canLink {r : R} {p : P} (hh : Held U sole h p) (hr : h.refs r = none)
    (hs : ¬ sole r ∨ ∀ r', h.refs r' ≠ some p) : CanLink U sole h r p where
  empty := hr
  used := hh.used
  not_free := hh.not_free
  counted := hh.counted
  shared r' hr' := by
    rcases hs with hs | hs
    · exact ⟨hs, hh.shared r' hr'⟩
    · exact absurd hr' (hs r')

omit [DecidableEq R] in
theorem Held.take {p : P} (hh : Held U sole h p) : Held U sole h.take p where
  used := hh.used
  not_free hf := hh.not_free (List.mem_of_mem_tail hf)
  counted := hh.counted
  shared := hh.shared

theorem Held.link {r : R} {p q : P} (hh : Held U sole h q) (hr : h.refs r = none) (hq : q ≠ p) :
    Held U sole (h.link r p) q where
  used := hh.used
  not_free := hh.not_free
  counted := by
    rw [fiber_link_of_ne hr hq, ← hh.counted]
    simp [Heap.link, hq]
  shared x hx := by
    refine hh.shared x ?_
    rw [← mem_fiber, ← fiber_link_of_ne hr hq]
    exact (mem_fiber _ _ _).mpr hx

/-! ## Dropping a reference -/

theorem fiber_unlink_self {r : R} {p : P} : (h.unlink r p).fiber p = (h.fiber p).erase r := by
  ext x
  by_cases hx : x = r
  · simp [hx, unlink]
  · simp [hx, unlink]

theorem fiber_unlink_of_ne {r : R} {p q : P} (hr : h.refs r = some p) (hq : q ≠ p) :
    (h.unlink r p).fiber q = h.fiber q := by
  ext x
  by_cases hx : x = r
  · simp [hx, unlink, hr, hq.symm]
  · simp [hx, unlink]

theorem card_unlink {r : R} {p : P} (hr : h.refs r = some p) :
    ((h.unlink r p).fiber p).card = (h.fiber p).card - 1 := by
  rw [fiber_unlink_self, Finset.card_erase_of_mem (by simpa using hr)]

theorem Inv.unlink (hi : Inv U sole h) {r : R} {p : P} (hr : h.refs r = some p) :
    Inv U sole (h.unlink r p) := by
  -- A reference that is still there was there before.
  have old : ∀ x q, (h.unlink r p).refs x = some q → x ≠ r ∧ h.refs x = some q := by
    intro x q hx
    by_cases hxr : x = r
    · simp [Heap.unlink, hxr] at hx
    · exact ⟨hxr, by simpa [Heap.unlink, hxr] using hx⟩
  have hcnt : ∀ q, q ≠ p → (h.unlink r p).cnt q = h.cnt q := fun q hq => by simp [Heap.unlink, hq]
  have hpos := hi.cnt_pos hr
  have hfree : ∀ q, q ∈ (h.unlink r p).free → (q = p ∧ h.cnt p - 1 = 0) ∨ q ∈ h.free := by
    intro q hq
    simp only [Heap.unlink] at hq
    split at hq
    · rcases List.mem_cons.mp hq with rfl | hq
      · exact Or.inl ⟨rfl, by assumption⟩
      · exact Or.inr hq
    · exact Or.inr hq
  have hnot : p ∉ h.free := fun hp => hi.free_unreferenced hp r hr
  constructor
  · exact fun x q hx => hi.used x q (old x q hx).2
  · intro x q hx
    obtain ⟨-, hx⟩ := old x q hx
    by_cases hq : q = p
    · subst hq
      rw [card_unlink hr, ← hi.counted r q hr]
      simp [Heap.unlink]
    · rw [fiber_unlink_of_ne hr hq, hcnt q hq, hi.counted x q hx]
  · exact fun x y q hs hx hy => hi.sole_ref x y q hs (old x q hx).2 (old y q hy).2
  · simp only [Heap.unlink]
    split
    · exact List.nodup_cons.mpr ⟨hnot, hi.free_nodup⟩
    · exact hi.free_nodup
  · intro q hq
    rcases hfree q hq with ⟨rfl, -⟩ | hq
    · exact hi.used r q hr
    · exact hi.free_used q hq
  · intro q hq
    rcases hfree q hq with ⟨rfl, hz⟩ | hq
    · simpa [Heap.unlink] using hz
    · rw [hcnt q (fun he => hnot (he ▸ hq))]
      exact hi.free_zero q hq

theorem Exact.unlink (he : Exact U h) {r : R} {p : P} (hr : h.refs r = some p) :
    Exact U (h.unlink r p) := by
  intro q hq
  by_cases hqp : q = p
  · subst hqp
    rw [card_unlink hr, ← he q hq]
    simp [Heap.unlink]
  · rw [fiber_unlink_of_ne hr hqp, ← he q hq]
    simp [Heap.unlink, hqp]

theorem Held.unlink {r : R} {p q : P} (hh : Held U sole h q) (hr : h.refs r = some p)
    (hq : q ≠ p) : Held U sole (h.unlink r p) q where
  used := hh.used
  not_free hf := by
    refine hh.not_free ?_
    simp only [Heap.unlink] at hf
    split at hf
    · exact (List.mem_cons.mp hf).resolve_left hq
    · exact hf
  counted := by
    rw [fiber_unlink_of_ne hr hq, ← hh.counted]
    simp [Heap.unlink, hq]
  shared x hx := by
    refine hh.shared x ?_
    rw [← mem_fiber, ← fiber_unlink_of_ne hr hq]
    exact (mem_fiber _ _ _).mpr hx

/-! ## Recounting -/

omit [DecidableEq R] in
theorem Inv.recount (hi : Inv U sole h) {p : P} (hp : ∀ r, h.refs r ≠ some p) (hf : p ∉ h.free)
    (n : Nat) : Inv U sole { h with cnt := Function.update h.cnt p n } where
  used := hi.used
  counted r q hr := by
    have hq : q ≠ p := fun he => hp r (he ▸ hr)
    change Function.update h.cnt p n q = _
    rw [Function.update_of_ne hq]
    exact hi.counted r q hr
  sole_ref := hi.sole_ref
  free_nodup := hi.free_nodup
  free_used := hi.free_used
  free_zero q hq := by
    have hne : q ≠ p := fun he => hf (he ▸ hq)
    change Function.update h.cnt p n q = 0
    rw [Function.update_of_ne hne]
    exact hi.free_zero q hq

/-! ## Forgetting places -/

section Forget

variable {S : R → Prop} [DecidablePred S]

omit [Fintype R] [DecidableEq P] [DecidableEq R] in
theorem forget_refs {r : R} {p : P} : (h.forget S).refs r = some p ↔ ¬ S r ∧ h.refs r = some p := by
  simp [Heap.forget]

omit [DecidableEq R] in
theorem Inv.forget (hi : Inv U sole h)
    (hS : ∀ r r' p, S r → h.refs r = some p → h.refs r' = some p → S r') :
    Inv U sole (h.forget S) where
  used r p hr := hi.used r p (forget_refs.mp hr).2
  counted r p hr := by
    obtain ⟨hn, hr⟩ := forget_refs.mp hr
    have : (h.forget S).fiber p = h.fiber p := by
      ext x
      rw [mem_fiber, mem_fiber, forget_refs]
      exact ⟨And.right, fun hx => ⟨fun hs => hn (hS x r p hs hx hr), hx⟩⟩
    rw [this]
    exact hi.counted r p hr
  sole_ref r r' p hs hr hr' := hi.sole_ref r r' p hs (forget_refs.mp hr).2 (forget_refs.mp hr').2
  free_nodup := hi.free_nodup
  free_used := hi.free_used
  free_zero := hi.free_zero

omit [DecidableEq R] in
theorem Exact.forget (he : Exact U h) (hS : ∀ r, S r → h.refs r = none) : Exact U (h.forget S) := by
  intro p hp
  have : (h.forget S).fiber p = h.fiber p := by
    ext r
    rw [mem_fiber, mem_fiber, forget_refs]
    exact ⟨And.right, fun hr => ⟨fun hs => by rw [hS r hs] at hr; simp at hr, hr⟩⟩
  rw [this]
  exact he p hp

end Forget

end Heap
end Mos.Lib
