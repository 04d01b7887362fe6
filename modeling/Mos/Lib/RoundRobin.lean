import Mathlib.Algebra.GroupWithZero.Nat
import Mathlib.Algebra.BigOperators.Group.List.Basic
import Mathlib.Data.List.Flatten

/-!
# Round robin

A queue, the one of its members that runs, and the ticks that are left of its
slice. When the slice is over, or nobody of the queue runs, the running member
goes to the tail and the head gets a slice of its own weight.
-/

namespace Mos.Lib

variable {α : Type} [DecidableEq α]

structure Robin (α : Type) where
  queue : List α
  cur : Option α
  left : Nat

namespace Robin

variable {r r' : Robin α} {w w' : α → Nat} {a : α} {l es : List α} {n m : Nat}

/-- The queue after the running member has gone to its tail. -/
def order (r : Robin α) : List α :=
  match r.cur with
  | some c => if c ∈ r.queue then r.queue.erase c ++ [c] else r.queue
  | none => r.queue

/-- The rest of the slice. -/
def rest (r : Robin α) : List α :=
  match r.cur with
  | some c => List.replicate r.left c
  | none => []

/-- Who runs after the next tick. -/
def tick (w : α → Nat) (r : Robin α) : Option (α × Robin α) :=
  match r.rest with
  | c :: _ => some (c, { r with left := r.left - 1 })
  | [] =>
    match r.order with
    | h :: t => some (h, { queue := h :: t, cur := some h, left := w h - 1 })
    | [] => none

/-- Those who run after each of the next `n` ticks. -/
def ticks (w : α → Nat) : Nat → Robin α → Option (List α × Robin α)
  | 0, r => some ([], r)
  | n + 1, r => do
    let (a, r) ← r.tick w
    let (es, r) ← r.ticks w n
    some (a :: es, r)

/-- A slice for every member, in the order of the list. -/
def slices (w : α → Nat) (l : List α) : List α := l.flatMap fun a => List.replicate (w a) a

/-- The rest of the slice, then `m` rounds. -/
def plan (w : α → Nat) (r : Robin α) (m : Nat) : List α :=
  r.rest ++ (List.replicate m (slices w r.order)).flatten

/-! ## Rounds -/

omit [DecidableEq α] in
theorem slices_cons (h : α) (t : List α) :
    slices w (h :: t) = List.replicate (w h) h ++ slices w t := List.flatMap_cons

omit [DecidableEq α] in
theorem slices_append (l t : List α) : slices w (l ++ t) = slices w l ++ slices w t :=
  List.flatMap_append

omit [DecidableEq α] in
theorem length_slices (l : List α) : (slices w l).length = (l.map w).sum := by
  simp [slices, List.length_flatMap]

theorem count_slices (hl : l.Nodup) (ha : a ∈ l) : (slices w l).count a = w a := by
  induction l with
  | nil => exact absurd ha List.not_mem_nil
  | cons h t ih =>
    obtain ⟨hnot, ht⟩ := List.nodup_cons.mp hl
    rw [slices_cons, List.count_append, List.count_replicate]
    rcases eq_or_ne h a with rfl | hne
    · have hzero : (slices w t).count h = 0 := by
        refine List.count_eq_zero.mpr fun hmem => hnot ?_
        obtain ⟨b, hb, hrep⟩ := List.mem_flatMap.mp hmem
        rwa [List.eq_of_mem_replicate hrep]
      simp [hzero]
    · have hat : a ∈ t := (List.mem_cons.mp ha).resolve_left (Ne.symm hne)
      simp [hne, ih ht hat]

omit [DecidableEq α] in
theorem cycle_append (l t : List α) (m : Nat) : (List.replicate (m + 1) (l ++ t)).flatten =
    l ++ (List.replicate m (t ++ l)).flatten ++ t := by
  induction m with
  | zero => simp
  | succ m ih =>
    rw [List.replicate_succ, List.flatten_cons, ih, List.replicate_succ, List.flatten_cons]
    simp only [List.append_assoc]

/-! ## Runs -/

theorem order_perm (r : Robin α) : r.order.Perm r.queue := by
  unfold order
  split
  case h_1 c _ =>
    split_ifs with hc
    · exact (List.perm_append_singleton c _).trans (List.perm_cons_erase hc).symm
    · exact .refl _
  case h_2 => exact .refl _

/-- The running member is not the next one, unless it is alone. -/
theorem order_head {t : List α} (hn : r.queue.Nodup) (ha : r.cur = some a)
    (h : r.order = a :: t) : r.queue = [a] := by
  unfold order at h
  rw [ha] at h
  dsimp only at h
  split_ifs at h with hmem
  · cases herase : r.queue.erase a with
    | nil =>
      have hperm := List.perm_cons_erase hmem
      rw [herase] at hperm
      exact List.perm_singleton.mp hperm
    | cons b rest =>
      rw [herase, List.cons_append] at h
      have hab : a ∈ r.queue.erase a := by
        rw [herase, ← (List.cons.inj h).1]
        exact List.mem_cons_self
      exact absurd hab (hn.mem_erase_iff.not.mpr fun hne => hne.1 rfl)
  · exact absurd (h ▸ List.mem_cons_self) hmem

theorem order_switched (h : α) (t : List α) (n : Nat) :
    order { queue := h :: t, cur := some h, left := n } = t ++ [h] := by
  simp [order]

/-- One tick of the slice, or a switch to the head of the order. -/
theorem tick_cases (h : r.tick w = some (a, r')) :
    (r.rest = a :: r'.rest ∧ r' = { r with left := r.left - 1 }) ∨
    (r.rest = [] ∧ ∃ t, r.order = a :: t ∧
      r' = { queue := a :: t, cur := some a, left := w a - 1 }) := by
  unfold tick at h
  split at h
  case h_1 c t hrest =>
    obtain ⟨rfl, rfl⟩ := Prod.mk.inj (Option.some.inj h)
    refine Or.inl ⟨?_, rfl⟩
    unfold rest at hrest ⊢
    split at hrest
    case h_1 d hd =>
      cases hleft : r.left with
      | zero => simp [hleft] at hrest
      | succ n =>
        rw [hleft, List.replicate_succ] at hrest
        obtain ⟨rfl, _⟩ := List.cons.inj hrest
        simp [hd, List.replicate_succ]
    case h_2 => exact absurd hrest (by simp)
  case h_2 hrest =>
    split at h
    case h_1 b t horder =>
      obtain ⟨rfl, rfl⟩ := Prod.mk.inj (Option.some.inj h)
      exact Or.inr ⟨hrest, t, horder, rfl⟩
    case h_2 => exact absurd h (by simp)

theorem tick_perm (h : r.tick w = some (a, r')) : r'.queue.Perm r.queue := by
  rcases tick_cases h with ⟨_, rfl⟩ | ⟨_, t, horder, rfl⟩
  · exact .refl _
  · exact horder ▸ order_perm r

theorem tick_congr (hw : ∀ b ∈ r.queue, w b = w' b) : r.tick w = r.tick w' := by
  unfold tick
  split
  · rfl
  · split
    case h_1 b t horder =>
      rw [hw b ((order_perm r).mem_iff.mp (by simp [horder]))]
    case h_2 => rfl

theorem ticks_congr (hw : ∀ b ∈ r.queue, w b = w' b) (n : Nat) : r.ticks w n = r.ticks w' n := by
  induction n generalizing r with
  | zero => rfl
  | succ n ih =>
    unfold ticks
    rw [tick_congr hw]
    cases h : r.tick w' with
    | none => rfl
    | some p =>
      have hp := ih fun b hb => hw b ((tick_perm (w := w') h).mem_iff.mp hb)
      simp only [Option.bind_eq_bind, Option.bind_some, hp]

theorem tick_plan (h : r.tick w = some (a, r')) (hw : ∀ b ∈ r.queue, 1 ≤ w b) (m : Nat) :
    a :: r'.plan w m <+: r.plan w (m + 1) := by
  unfold plan
  rcases tick_cases h with ⟨hrest, rfl⟩ | ⟨hrest, t, horder, rfl⟩
  · have hsame : order { r with left := r.left - 1 } = r.order := rfl
    rw [hrest, hsame, List.cons_append, List.prefix_cons_inj, List.prefix_append_right_inj,
      List.replicate_succ', List.flatten_append]
    exact List.prefix_append _ _
  · have ha : a ∈ r.queue := (order_perm r).mem_iff.mp (by simp [horder])
    have hslice : a :: List.replicate (w a - 1) a = List.replicate (w a) a := by
      rw [← List.replicate_succ, Nat.sub_add_cancel (hw a ha)]
    have hsingle : slices w [a] = List.replicate (w a) a := by simp [slices]
    rw [hrest, horder, order_switched, slices_cons, slices_append, cycle_append, hsingle]
    refine ⟨slices w t, ?_⟩
    simp [rest, ← hslice]

theorem ticks_plan (h : r.ticks w n = some (es, r')) (hw : ∀ b ∈ r.queue, 1 ≤ w b) :
    es.length = n ∧ es <+: r.plan w n := by
  induction n generalizing r es with
  | zero =>
    obtain ⟨rfl, _⟩ := Prod.mk.inj (Option.some.inj h)
    exact ⟨rfl, List.nil_prefix⟩
  | succ n ih =>
    unfold ticks at h
    obtain ⟨⟨a, r₁⟩, h₁, h⟩ := Option.bind_eq_some_iff.mp h
    obtain ⟨⟨es', r₂⟩, h₂, h⟩ := Option.bind_eq_some_iff.mp h
    obtain ⟨rfl, rfl⟩ := Prod.mk.inj (Option.some.inj h)
    obtain ⟨hlen, hpre⟩ := ih h₂ fun b hb => hw b ((tick_perm h₁).mem_iff.mp hb)
    refine ⟨by simp [hlen], ?_⟩
    exact ((List.prefix_cons_inj a).mpr hpre).trans (tick_plan h₁ hw n)

theorem ticks_round (h : r.ticks w n = some (es, r')) (hw : ∀ b ∈ r.queue, 1 ≤ w b)
    (hrest : r.rest = []) (hn : n = (r.queue.map w).sum) : es = slices w r.order := by
  obtain ⟨hlen, hpre⟩ := ticks_plan h hw
  have hround : (slices w r.order).length = n := by
    rw [length_slices, hn]
    exact ((order_perm r).map w).sum_eq
  unfold plan at hpre
  rw [hrest, List.nil_append] at hpre
  cases n with
  | zero =>
    rw [List.length_eq_zero_iff.mp hlen, List.length_eq_zero_iff.mp hround]
  | succ n =>
    rw [List.replicate_succ, List.flatten_cons] at hpre
    have hle := List.prefix_of_prefix_length_le hpre (List.prefix_append _ _)
      (Nat.le_of_eq (hlen.trans hround.symm))
    exact hle.eq_of_length (hlen.trans hround.symm)

end Robin
end Mos.Lib
