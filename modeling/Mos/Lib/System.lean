import Mathlib.Logic.Relation
import Mathlib.Tactic.Common

/-!
# Runs of a machine

A machine takes one action at a time, or refuses it. `Run` follows runs whose
every step meets a condition on the state it starts from; what holds at the
start and is kept by such steps holds in every state of such a run.
-/

namespace Mos.Lib

structure System (σ α : Type) where
  init : σ → Prop
  next : α → σ → Option σ

namespace System

variable {σ α γ : Type} (S : System σ α) (C : σ → α → Prop)

/-- The states reached by runs whose steps all meet `C`. -/
inductive Run : σ → Prop
  | init {s : σ} (h : S.init s) : Run s
  | step {s s' : σ} {a : α} (h : Run s) (hc : C s a) (hs : S.next a s = some s') : Run s'

/-- The states reached by any run. -/
abbrev Reachable : σ → Prop := S.Run fun _ _ => True

variable {S C}

theorem Run.mono {C' : σ → α → Prop} (h : ∀ s a, C s a → C' s a) {s : σ} (hr : S.Run C s) :
    S.Run C' s := by
  induction hr with
  | init hi => exact .init hi
  | step _ hc hs ih => exact .step ih (h _ _ hc) hs

theorem Run.reachable {s : σ} (hr : S.Run C s) : S.Reachable s := hr.mono fun _ _ _ => trivial

theorem Run.invariant {I : σ → Prop} (h0 : ∀ s, S.init s → I s)
    (hstep : ∀ s a s', I s → C s a → S.next a s = some s' → I s') {s : σ} (hr : S.Run C s) :
    I s := by
  induction hr with
  | init hi => exact h0 _ hi
  | step _ hc hs ih => exact hstep _ _ _ ih hc hs

theorem Run.invariant_of {I J : σ → Prop} (hJ : ∀ s, S.Run C s → J s) (h0 : ∀ s, S.init s → I s)
    (hstep : ∀ s a s', J s → I s → C s a → S.next a s = some s' → I s') {s : σ} (hr : S.Run C s) :
    I s := by
  induction hr with
  | init hi => exact h0 _ hi
  | step hr hc hs ih => exact hstep _ _ _ (hJ _ hr) ih hc hs

/-- Runs from a state through a list of actions. -/
def exec (S : System σ α) : List α → σ → Option σ
  | [], s => some s
  | a :: as, s => (S.next a s).bind (S.exec as)

theorem Run.exec {s s' : σ} {as : List α} (hr : S.Reachable s) (h : S.exec as s = some s') :
    S.Reachable s' := by
  induction as generalizing s with
  | nil => exact Option.some.inj h ▸ hr
  | cons a as ih =>
    obtain ⟨t, ht, hrest⟩ := Option.bind_eq_some_iff.mp h
    exact ih (.step hr trivial ht) hrest

/-- Runs through a list of actions and checks the condition before each of them. -/
def execMeeting (S : System σ α) (C : σ → α → Prop) [∀ s a, Decidable (C s a)] :
    List α → σ → Option σ
  | [], s => some s
  | a :: as, s => if C s a then (S.next a s).bind (S.execMeeting C as) else none

theorem Run.execMeeting [∀ s a, Decidable (C s a)] {s s' : σ} {as : List α} (hr : S.Run C s)
    (h : S.execMeeting C as s = some s') : S.Run C s' := by
  induction as generalizing s with
  | nil => exact Option.some.inj h ▸ hr
  | cons a as ih =>
    unfold System.execMeeting at h
    split at h
    case isTrue hc =>
      obtain ⟨t, ht, hrest⟩ := Option.bind_eq_some_iff.mp h
      exact ih (.step hr hc ht) hrest
    case isFalse => cases h

/-- A run goes on from one state to another, by steps that all meet `C`. -/
def Leads (S : System σ α) (C : σ → α → Prop) : σ → σ → Prop :=
  Relation.ReflTransGen fun s s' => ∃ a, C s a ∧ S.next a s = some s'

theorem Run.leads {C' : σ → α → Prop} {I : σ → Prop} {s s' : σ} (hC : ∀ s a, C' s a → C s a)
    (hr : S.Run C s) (h0 : I s)
    (hstep : ∀ s a s', S.Run C s → I s → C' s a → S.next a s = some s' → I s')
    (h : S.Leads C' s s') : S.Run C s' ∧ I s' := by
  induction h with
  | refl => exact ⟨hr, h0⟩
  | tail _ hs ih =>
    obtain ⟨hr, hI⟩ := ih
    obtain ⟨a, hc, hs⟩ := hs
    exact ⟨.step hr (hC _ _ hc) hs, hstep _ _ _ hr hI hc hs⟩

/-! ## Histories -/

/-- The machine with a history that `obs` keeps of its steps. -/
def watch (S : System σ α) (g₀ : γ) (obs : α → σ → σ → γ → γ) : System (σ × γ) α where
  init p := S.init p.1 ∧ p.2 = g₀
  next a p := (S.next a p.1).map fun s' => (s', obs a p.1 s' p.2)

variable {g₀ : γ} {obs : α → σ → σ → γ → γ}

theorem watch_next {a : α} {p : σ × γ} {p' : σ × γ} (h : (S.watch g₀ obs).next a p = some p') :
    S.next a p.1 = some p'.1 ∧ p'.2 = obs a p.1 p'.1 p.2 := by
  obtain ⟨s', hs, rfl⟩ := Option.map_eq_some_iff.mp h
  exact ⟨hs, rfl⟩

theorem Run.watched {s : σ} (hr : S.Run C s) :
    ∃ g, (S.watch g₀ obs).Run (fun p a => C p.1 a) (s, g) := by
  induction hr with
  | init hi => exact ⟨g₀, .init ⟨hi, rfl⟩⟩
  | step _ hc hs ih =>
    obtain ⟨g, hg⟩ := ih
    exact ⟨_, .step hg hc (Option.map_eq_some_iff.mpr ⟨_, hs, rfl⟩)⟩

end System
end Mos.Lib
