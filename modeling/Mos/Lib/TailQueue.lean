import Mathlib.Data.List.Nodup
import Mathlib.Logic.Function.Basic
import Mathlib.Tactic.Common

/-!
# Intrusive tail queues

The doubly linked queue of `queue.h`, pointer by pointer, over any type of
nodes. `Repr q l` says that the pointers of `q` spell the list `l`; the three
operations refine cons, snoc and `List.erase` on that list.
-/

namespace Mos.Lib

variable {α : Type}

/-! ## The pointers -/

/-- A word that can hold the address of a node: the head's `tqh_first`, or the
`tqe_next` of a node. -/
inductive Cell (α : Type) where
  | head
  | node (a : α)
  deriving DecidableEq, Repr

/-- The head (`first`, `last`) and the two link fields of every node. A node
that was never linked has `prev a = none`, the null pointer. -/
structure TailQueue (α : Type) where
  first : Option α
  last : Cell α
  next : α → Option α
  prev : α → Option (Cell α)

namespace TailQueue

/-- `TAILQ_INIT`, over link fields that are all zero. -/
def init : TailQueue α where
  first := none
  last := .head
  next := fun _ => none
  prev := fun _ => none

def load (q : TailQueue α) : Cell α → Option α
  | .head => q.first
  | .node a => q.next a

variable [DecidableEq α]

def store (q : TailQueue α) (c : Cell α) (v : Option α) : TailQueue α :=
  match c with
  | .head => { q with first := v }
  | .node a => { q with next := Function.update q.next a v }

/-- `TAILQ_INSERT_HEAD` -/
def insertHead (q : TailQueue α) (a : α) : TailQueue α :=
  let q := { q with next := Function.update q.next a q.first }
  let q := match q.first with
    | some b => { q with prev := Function.update q.prev b (some (.node a)) }
    | none => { q with last := .node a }
  { q with first := some a, prev := Function.update q.prev a (some .head) }

/-- `TAILQ_INSERT_TAIL` -/
def insertTail (q : TailQueue α) (a : α) : TailQueue α :=
  let q := { q with next := Function.update q.next a none
                    prev := Function.update q.prev a (some q.last) }
  let q := q.store q.last (some a)
  { q with last := .node a }

/-- `TAILQ_REMOVE`. The result is `none` when `tqe_prev` is null: the last
store of the macro then goes through a null pointer. -/
def remove (q : TailQueue α) (a : α) : Option (TailQueue α) :=
  match q.prev a with
  | none => none
  | some c =>
    let q' := match q.next a with
      | some b => { q with prev := Function.update q.prev b (some c) }
      | none => { q with last := c }
    some (q'.store c (q.next a))

/-- The nodes met by `TAILQ_FOREACH`, at most `n` of them. -/
def walk (q : TailQueue α) : Nat → Option α → List α
  | 0, _ => []
  | _, none => []
  | n + 1, some a => a :: q.walk n (q.next a)

/-- The node is met within `n` steps from the head. -/
def linked (q : TailQueue α) (n : Nat) (a : α) : Bool := a ∈ q.walk n q.first

/-! ## What the pointers spell -/

/-- From the word `c` on, the links spell `l` and end at `last`. -/
def Seg (q : TailQueue α) : Cell α → List α → Prop
  | c, [] => q.load c = none ∧ q.last = c
  | c, a :: l => q.load c = some a ∧ q.prev a = some c ∧ q.Seg (.node a) l

def Repr (q : TailQueue α) (l : List α) : Prop := l.Nodup ∧ q.Seg .head l

/-- The word `c` is not a link field of a node of `l`. -/
def Apart (c : Cell α) (l : List α) : Prop := ∀ a ∈ l, c ≠ .node a

omit [DecidableEq α] in
theorem apart_head (l : List α) : Apart .head l := fun _ _ h => by cases h

omit [DecidableEq α] in
theorem apart_node {a : α} {l : List α} (h : a ∉ l) : Apart (.node a) l := by
  rintro b hb ⟨⟩
  exact h hb

omit [DecidableEq α] in
theorem seg_congr {q q' : TailQueue α} {c : Cell α} {l : List α} (h : q.Seg c l)
    (hc : q'.load c = q.load c) (hlast : q'.last = q.last)
    (hl : ∀ a ∈ l, q'.next a = q.next a ∧ q'.prev a = q.prev a) : q'.Seg c l := by
  induction l generalizing c with
  | nil => exact ⟨hc.trans h.1, hlast.trans h.2⟩
  | cons a l ih =>
    obtain ⟨h1, h2, h3⟩ := h
    obtain ⟨hn, hp⟩ := hl a List.mem_cons_self
    exact ⟨hc.trans h1, hp.trans h2, ih h3 hn fun b hb => hl b (List.mem_cons_of_mem _ hb)⟩

omit [DecidableEq α] in
theorem seg_last {q : TailQueue α} {c : Cell α} {l : List α} (h : q.Seg c l) :
    (l = [] ∧ q.last = c) ∨ ∃ a ∈ l, q.last = .node a := by
  induction l generalizing c with
  | nil => exact Or.inl ⟨rfl, h.2⟩
  | cons a l ih =>
    right
    rcases ih h.2.2 with ⟨_, hlast⟩ | ⟨b, hb, hlast⟩
    · exact ⟨a, List.mem_cons_self, hlast⟩
    · exact ⟨b, List.mem_cons_of_mem _ hb, hlast⟩

omit [DecidableEq α] in
theorem seg_prev {q : TailQueue α} {c : Cell α} {l : List α} {a : α} (h : q.Seg c l)
    (ha : a ∈ l) : q.prev a = some c ∨ ∃ b ∈ l, q.prev a = some (.node b) := by
  induction l generalizing c with
  | nil => simp at ha
  | cons x l ih =>
    rcases List.mem_cons.mp ha with rfl | ha
    · exact Or.inl h.2.1
    · right
      rcases ih h.2.2 ha with hp | ⟨b, hb, hp⟩
      · exact ⟨x, List.mem_cons_self, hp⟩
      · exact ⟨b, List.mem_cons_of_mem _ hb, hp⟩

omit [DecidableEq α] in
theorem seg_next {q : TailQueue α} {c : Cell α} {l : List α} {a b : α} (h : q.Seg c l)
    (ha : a ∈ l) (hb : q.next a = some b) : b ∈ l := by
  induction l generalizing c with
  | nil => simp at ha
  | cons x l ih =>
    rcases List.mem_cons.mp ha with rfl | ha
    · cases l with
      | nil => exact absurd (h.2.2.1.symm.trans hb) (by simp)
      | cons y l =>
        have hy : y = b := Option.some.inj (h.2.2.1.symm.trans hb)
        simp [hy]
    · exact List.mem_cons_of_mem _ (ih h.2.2 ha)

omit [DecidableEq α] in
theorem walk_seg {q : TailQueue α} {c : Cell α} {l : List α} (n : Nat) (h : q.Seg c l) :
    q.walk n (q.load c) = l.take n := by
  induction l generalizing c n with
  | nil => rw [h.1]; cases n <;> rfl
  | cons a l ih =>
    cases n with
    | zero => rw [h.1]; rfl
    | succ n =>
      rw [h.1, walk, List.take_succ_cons]
      have := ih n h.2.2
      rw [load] at this
      rw [this]

omit [DecidableEq α] in
theorem walk_nodup {q : TailQueue α} {l : List α} (h : q.Repr l) (n : Nat) :
    (q.walk n q.first).Nodup := by
  have hw : q.walk n q.first = l.take n := walk_seg n h.2
  rw [hw]
  exact h.1.sublist (List.take_sublist n l)

theorem linked_iff {q : TailQueue α} {l : List α} {n : Nat} (h : q.Repr l) (hn : l.length ≤ n)
    (a : α) : q.linked n a = true ↔ a ∈ l := by
  have hw : q.walk n q.first = l := (walk_seg n h.2).trans (List.take_of_length_le hn)
  simp [linked, hw]

/-! ## The operations -/

@[simp] theorem load_store_self (q : TailQueue α) (c : Cell α) (v : Option α) :
    (q.store c v).load c = v := by
  cases c <;> simp [store, load]

theorem load_store_of_ne (q : TailQueue α) {c d : Cell α} (v : Option α) (h : d ≠ c) :
    (q.store c v).load d = q.load d := by
  cases c with
  | head => cases d with
    | head => exact absurd rfl h
    | node b => rfl
  | node a => cases d with
    | head => rfl
    | node b => simp [store, load, Function.update_of_ne (fun hb : b = a => h (by rw [hb]))]

@[simp] theorem store_prev (q : TailQueue α) (c : Cell α) (v : Option α) :
    (q.store c v).prev = q.prev := by cases c <;> rfl

@[simp] theorem store_last (q : TailQueue α) (c : Cell α) (v : Option α) :
    (q.store c v).last = q.last := by cases c <;> rfl

theorem store_next (q : TailQueue α) (c : Cell α) (v : Option α) (a : α) (h : c ≠ .node a) :
    (q.store c v).next a = q.next a := load_store_of_ne q v (d := .node a) h.symm

omit [DecidableEq α] in
theorem repr_init : (init : TailQueue α).Repr [] := ⟨List.nodup_nil, rfl, rfl⟩

theorem repr_insertHead {q : TailQueue α} {l : List α} {a : α} (h : q.Repr l) (ha : a ∉ l) :
    (q.insertHead a).Repr (a :: l) := by
  obtain ⟨hnd, hseg⟩ := h
  refine ⟨List.nodup_cons.mpr ⟨ha, hnd⟩, rfl, by simp [insertHead], ?_⟩
  cases l with
  | nil =>
    have hf : q.first = none := hseg.1
    simp [Seg, insertHead, load, hf]
  | cons b l =>
    obtain ⟨hf, -, htail⟩ := hseg
    have hf : q.first = some b := hf
    have hba : b ≠ a := fun h => ha (by simp [h])
    refine ⟨by simp [insertHead, load, hf], by simp [insertHead, hf, hba], ?_⟩
    -- The rest of the list does not see the four stores.
    refine seg_congr htail (by simp [insertHead, load, hf, hba]) (by simp [insertHead, hf]) ?_
    intro x hx
    have hxa : x ≠ a := fun h => ha (by rw [← h]; exact List.mem_cons_of_mem _ hx)
    have hxb : x ≠ b := fun h => (List.nodup_cons.mp hnd).1 (h ▸ hx)
    exact ⟨by simp [insertHead, hf, hxa], by simp [insertHead, hf, hxa, hxb]⟩

theorem seg_insertTail {q : TailQueue α} {c : Cell α} {l : List α} {a : α} (h : q.Seg c l)
    (hnd : l.Nodup) (hc : Apart c l) (ha : a ∉ l) (hca : c ≠ .node a) :
    (q.insertTail a).Seg c (l ++ [a]) := by
  induction l generalizing c with
  | nil =>
    obtain ⟨-, hlast⟩ := h
    refine ⟨?_, by simp [insertTail, hlast], ?_, rfl⟩
    · change (TailQueue.store _ q.last _).load c = some a
      rw [← hlast]
      exact load_store_self _ _ _
    · change (TailQueue.store _ q.last _).next a = none
      rw [store_next _ _ _ _ (by rw [hlast]; exact hca)]
      simp
  | cons b l ih =>
    obtain ⟨hload, hprev, hseg⟩ := h
    obtain ⟨hbl, hnd'⟩ := List.nodup_cons.mp hnd
    have hba : b ≠ a := fun h => ha (by simp [h])
    have hlast : c ≠ q.last := by
      rcases seg_last hseg with ⟨_, hl⟩ | ⟨x, hx, hl⟩
      · rw [hl]; exact hc b List.mem_cons_self
      · rw [hl]; exact hc x (List.mem_cons_of_mem _ hx)
    refine ⟨?_, by simp [insertTail, hba, hprev], ih hseg hnd' (apart_node hbl)
      (fun h => ha (List.mem_cons_of_mem _ h)) (by simpa using hba)⟩
    have hne : (TailQueue.store _ q.last (some a)).load c = _ := load_store_of_ne
      { q with next := Function.update q.next a none
               prev := Function.update q.prev a (some q.last) } (some a) hlast
    refine (Eq.trans ?_ hne).trans (Eq.trans ?_ hload)
    · cases c <;> rfl
    · cases c with
      | head => rfl
      | node x => simp [load, Function.update_of_ne (fun h : x = a => hca (by rw [h]))]

theorem repr_insertTail {q : TailQueue α} {l : List α} {a : α} (h : q.Repr l) (ha : a ∉ l) :
    (q.insertTail a).Repr (l ++ [a]) := by
  obtain ⟨hnd, hseg⟩ := h
  exact ⟨List.nodup_append.mpr ⟨hnd, List.nodup_singleton _, by rintro x hx _ hy rfl; simp_all⟩,
    seg_insertTail hseg hnd (apart_head _) ha (by simp)⟩

theorem seg_remove {q q' : TailQueue α} {c : Cell α} {l : List α} {a : α} (h : q.Seg c l)
    (hnd : l.Nodup) (hc : Apart c l) (ha : a ∈ l) (hq : q.remove a = some q') :
    q'.Seg c (l.erase a) := by
  induction l generalizing c with
  | nil => simp at ha
  | cons x l ih =>
    obtain ⟨hload, hprev, hseg⟩ := h
    obtain ⟨hxl, hnd'⟩ := List.nodup_cons.mp hnd
    by_cases hxa : x = a
    · -- `a` is the first node: the word `c` takes over its link.
      subst hxa
      rw [List.erase_cons_head]
      simp only [remove, hprev, Option.some.injEq] at hq
      cases l with
      | nil =>
        obtain ⟨hnext, -⟩ := hseg
        have hnext : q.next x = none := hnext
        subst hq
        simp [hnext, Seg]
      | cons b l =>
        obtain ⟨hnext, -, htail⟩ := hseg
        have hnext : q.next x = some b := hnext
        simp only [hnext] at hq
        subst hq
        refine ⟨by simp, by simp, seg_congr htail ?_ (by simp) ?_⟩
        · exact store_next _ _ _ _ (hc b (by simp))
        · intro y hy
          have hyb : y ≠ b := fun h => (List.nodup_cons.mp hnd').1 (h ▸ hy)
          exact ⟨store_next _ _ _ _ (hc y (by simp [hy])), by simp [hyb]⟩
    · -- `a` comes later: neither `c` nor `x` is written.
      have hal : a ∈ l := (List.mem_cons.mp ha).resolve_left (fun h => hxa h.symm)
      rw [List.erase_cons_tail (by simpa using hxa)]
      have ih' := ih hseg hnd' (apart_node hxl) hal
      obtain ⟨w, hw, hcw⟩ : ∃ w, q.prev a = some w ∧ c ≠ w := by
        rcases seg_prev hseg hal with hp | ⟨y, hy, hp⟩
        · exact ⟨_, hp, hc x List.mem_cons_self⟩
        · exact ⟨_, hp, hc y (List.mem_cons_of_mem _ hy)⟩
      simp only [remove, hw, Option.some.injEq] at hq
      refine ⟨?_, ?_, ih'⟩
      · rw [← hq, load_store_of_ne _ _ hcw, ← hload]
        cases q.next a <;> cases c <;> rfl
      · rw [← hq, store_prev]
        cases hn : q.next a with
        | none => exact hprev
        | some b =>
          have hxb : x ≠ b := fun h => hxl (h ▸ seg_next hseg hal hn)
          simpa [hxb] using hprev

theorem repr_remove {q : TailQueue α} {l : List α} {a : α} (h : q.Repr l) (ha : a ∈ l) :
    ∃ q', q.remove a = some q' ∧ q'.Repr (l.erase a) := by
  obtain ⟨hnd, hseg⟩ := h
  obtain ⟨w, hw⟩ : ∃ w, q.prev a = some w := by
    rcases seg_prev hseg ha with hp | ⟨_, _, hp⟩ <;> exact ⟨_, hp⟩
  have hq : ∃ q', q.remove a = some q' := by simp [remove, hw]
  obtain ⟨q', hq⟩ := hq
  exact ⟨q', hq, hnd.erase a, seg_remove hseg hnd (apart_head _) ha hq⟩

omit [DecidableEq α] in
theorem repr_first {q : TailQueue α} {l : List α} (h : q.Repr l) : q.first = l.head? := by
  cases l with
  | nil => exact h.2.1
  | cons a l => exact h.2.1

end TailQueue
end Mos.Lib
