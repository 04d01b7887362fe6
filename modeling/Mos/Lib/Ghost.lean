import Mos.Lib.Process

/-!
# Ghost state

A program with a ghost beside its state, which it writes but does not read, runs like the
program without the ghost.
-/

namespace Mos.Lib

open Proc (Trace World)

variable {C : Type} {R : C → Type} {ε σ γ α β : Type}

/-- The program `x`, with a ghost beside its state. -/
def Prog.lift (x : Prog C R ε σ α) : Prog C R ε (σ × γ) α := fun s =>
  (x s.1).bind fun r => .ret (r.1, (r.2, s.2))

/-- Only the ghost changes. -/
def Prog.note (f : γ → γ) : Prog C R ε (σ × γ) Unit := fun s => .ret (.ok (), (s.1, f s.2))

/-! ## Rules -/

section

variable {s : σ} {g : γ} {t : Trace C R}

theorem always_lift {x : Prog C R ε σ α} {Q : α → σ × γ → Trace C R → Prop}
    {E : ε → σ × γ → Trace C R → Prop} :
    always (Prog.lift x) Q E (s, g) t ↔
      always x (fun a s' t' => Q a (s', g) t') (fun e s' t' => E e (s', g) t') s t := by
  unfold always Prog.lift
  refine (Proc.every_bind (x s) _ _ t).trans ?_
  constructor <;>
  · intro h
    refine Proc.Every.mono h fun r t' hr => ?_
    rcases r with ⟨e | a, s'⟩ <;> exact hr

theorem provided_lift {M : Cond C R} {x : Prog C R ε σ α} {Q : α → σ × γ → Trace C R → Prop}
    {E : ε → σ × γ → Trace C R → Prop} :
    provided M (Prog.lift x) Q E (s, g) t ↔
      provided M x (fun a s' t' => Q a (s', g) t') (fun e s' t' => E e (s', g) t') s t := by
  unfold provided
  rw [always_lift]

theorem provided_note {M : Cond C R} {f : γ → γ} {Q : Unit → σ × γ → Trace C R → Prop}
    {E : ε → σ × γ → Trace C R → Prop} :
    provided M (Prog.note f : Prog C R ε (σ × γ) Unit) Q E (s, g) t ↔ (M.Holds t → Q () (s, f g) t) := by
  unfold provided always Prog.note
  exact ⟨fun h ht => h ht ht, fun h ht _ => h ht⟩

end

/-! ## Erasure -/

/-- Without the ghost, `x'` is `x`. -/
def Erases (x' : Prog C R ε (σ × γ) α) (x : Prog C R ε σ α) : Prop :=
  ∀ s g, (x' (s, g)).bind (fun r => .ret (r.1, r.2.1)) = x s

theorem erases_pure (a : α) : Erases (pure a : Prog C R ε (σ × γ) α) (pure a) := fun _ _ => rfl

theorem erases_throw (e : ε) : Erases (throw e : Prog C R ε (σ × γ) α) (throw e) := fun _ _ => rfl

theorem erases_note (f : γ → γ) : Erases (Prog.note f : Prog C R ε (σ × γ) Unit) (pure ()) := fun _ _ => rfl

theorem erases_lift (x : Prog C R ε σ α) : Erases (Prog.lift x : Prog C R ε (σ × γ) α) x := by
  intro s g
  unfold Prog.lift
  rw [Proc.bind_assoc]
  exact Proc.bind_ret (x s)

theorem bind_run (x : Prog C R ε σ β) (f : β → Prog C R ε σ α) (s : σ) :
    (x >>= f) s = (x s).bind fun r =>
      match r with
      | (.ok b, s') => f b s'
      | (.error e, s') => .ret (.error e, s') := by
  refine congrArg (Proc.bind (x s)) (funext fun r => ?_)
  rcases r with ⟨e | b, s'⟩ <;> rfl

theorem erases_bind {x' : Prog C R ε (σ × γ) β} {x : Prog C R ε σ β} {f' : β → Prog C R ε (σ × γ) α}
    {f : β → Prog C R ε σ α} (hx : Erases x' x) (hf : ∀ b, Erases (f' b) (f b)) :
    Erases (x' >>= f') (x >>= f) := by
  intro s g
  rw [bind_run, bind_run, ← hx s g, Proc.bind_assoc, Proc.bind_assoc]
  congr 1
  funext r
  rcases r with ⟨e | b, s', g'⟩
  · rfl
  · exact hf b s' g'

theorem Erases.run {x' : Prog C R ε (σ × γ) α} {x : Prog C R ε σ α} (h : Erases x' x) (w : World C R)
    (s : σ) (g : γ) :
    x.run w s = ((x'.run w (s, g)).1, (x'.run w (s, g)).2.1, (x'.run w (s, g)).2.2.1) := by
  unfold Prog.run
  rw [← h s g, Proc.run_bind]
  rfl

end Mos.Lib
