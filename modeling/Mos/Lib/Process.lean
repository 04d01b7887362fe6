import Mathlib.Data.List.Induction
import Mathlib.Data.Sigma.Basic
import Mathlib.Tactic.Common

/-!
# Processes that call their surroundings

A process is a tree: it ends, or it makes a call and goes on with the reply. A run is
the branch that one world picks, a world being what answers each call from what was
called and answered before. A program with a state and stops is a process for each state.
-/

namespace Mos.Lib

inductive Proc (C : Type) (R : C → Type) (α : Type) where
  | ret (a : α)
  | call (c : C) (k : R c → Proc C R α)

variable {C : Type} {R : C → Type} {ε σ α β γ : Type}

namespace Proc

protected def bind : Proc C R α → (α → Proc C R β) → Proc C R β
  | ret a, f => f a
  | call c k, f => call c fun r => (k r).bind f

instance : Monad (Proc C R) where
  pure := ret
  bind := Proc.bind

@[simp] theorem ret_bind (a : α) (f : α → Proc C R β) : (ret a).bind f = f a := rfl

@[simp] theorem call_bind (c : C) (k : R c → Proc C R α) (f : α → Proc C R β) :
    (call c k).bind f = call c fun r => (k r).bind f := rfl

theorem bind_assoc (p : Proc C R α) (f : α → Proc C R β) (g : β → Proc C R γ) :
    (p.bind f).bind g = p.bind fun a => (f a).bind g := by
  induction p with
  | ret a => rfl
  | call c k ih =>
    rw [call_bind, call_bind, call_bind]
    congr 1
    funext r
    exact ih r

theorem bind_ret (p : Proc C R α) : p.bind ret = p := by
  induction p with
  | ret a => rfl
  | call c k ih =>
    rw [call_bind]
    congr 1
    funext r
    exact ih r

instance : LawfulMonad (Proc C R) :=
  LawfulMonad.mk' (Proc C R) bind_ret (fun _ _ => rfl) bind_assoc

/-- The meaning of a process, if `step` is the meaning of a call and `end_` that of the end. -/
def fold (step : (c : C) → (R c → γ) → γ) (end_ : α → γ) : Proc C R α → γ
  | ret a => end_ a
  | call c k => step c fun r => (k r).fold step end_

theorem fold_bind (step : (c : C) → (R c → γ) → γ) (end_ : β → γ) (p : Proc C R α)
    (f : α → Proc C R β) :
    (p.bind f).fold step end_ = p.fold step fun a => (f a).fold step end_ := by
  induction p with
  | ret a => rfl
  | call c k ih =>
    rw [call_bind]
    exact congrArg (step c) (funext ih)

/-! ## Runs -/

/-- What was called and answered, oldest first. -/
abbrev Trace (C : Type) (R : C → Type) := List ((c : C) × R c)

abbrev World (C : Type) (R : C → Type) := Trace C R → (c : C) → R c

/-- The run of a process in a world, after the calls of `t`. -/
def run (w : World C R) : Proc C R α → Trace C R → Trace C R × α
  | ret a, t => (t, a)
  | call c k, t => (k (w t c)).run w (t ++ [⟨c, w t c⟩])

/-- `Q` holds at the end of every branch. -/
def Every : Proc C R α → (α → Trace C R → Prop) → Trace C R → Prop
  | ret a, Q, t => Q a t
  | call c k, Q, t => ∀ r, (k r).Every Q (t ++ [⟨c, r⟩])

theorem Every.mono {p : Proc C R α} {Q Q' : α → Trace C R → Prop} {t : Trace C R}
    (h : p.Every Q t) (hQ : ∀ a t', Q a t' → Q' a t') : p.Every Q' t := by
  induction p generalizing t with
  | ret a => exact hQ a t h
  | call c k ih => exact fun r => ih r (h r)

theorem every_bind (p : Proc C R α) (f : α → Proc C R β) (Q : β → Trace C R → Prop)
    (t : Trace C R) : (p.bind f).Every Q t ↔ p.Every (fun a => (f a).Every Q) t := by
  induction p generalizing t with
  | ret a => rfl
  | call c k ih => exact forall_congr' fun r => ih r _

theorem every_append (p : Proc C R α) (t : Trace C R) : p.Every (fun _ t' => ∃ l, t' = t ++ l) t := by
  induction p generalizing t with
  | ret a => exact ⟨[], (List.append_nil t).symm⟩
  | call c k ih =>
    refine fun r => Every.mono (ih r _) fun a t' h => ?_
    obtain ⟨l, rfl⟩ := h
    exact ⟨⟨c, r⟩ :: l, by simp⟩

theorem Every.run {p : Proc C R α} {Q : α → Trace C R → Prop} {t : Trace C R} (h : p.Every Q t)
    (w : World C R) : Q (p.run w t).2 (p.run w t).1 := by
  induction p generalizing t with
  | ret a => exact h
  | call c k ih => exact ih _ (h _)

end Proc

/-! ## Programs with a state -/

open Proc (Trace World)

abbrev Prog (C : Type) (R : C → Type) (ε σ : Type) := ExceptT ε (StateT σ (Proc C R))

def Prog.call (c : C) : Prog C R ε σ (R c) := fun s => Proc.call c fun r => .ret (.ok r, s)

/-- The meaning of `x` from `s`, if `step` is the meaning of a call and `k` that of what comes
after `x`. -/
def Prog.fold (step : (c : C) → (R c → γ) → γ) (x : Prog C R ε σ α) (s : σ)
    (k : Except ε α → σ → γ) : γ :=
  Proc.fold step (fun r => k r.1 r.2) (x s)

section Fold

variable {step : (c : C) → (R c → γ) → γ} {s : σ} {k : Except ε α → σ → γ}

@[simp] theorem fold_pure (a : α) :
    (pure a : Prog C R ε σ α).fold step s k = k (.ok a) s := rfl

@[simp] theorem fold_throw (e : ε) :
    (throw e : Prog C R ε σ α).fold step s k = k (.error e) s := rfl

@[simp] theorem fold_call (c : C) (k : Except ε (R c) → σ → γ) :
    (Prog.call c).fold step s k = step c fun r => k (.ok r) s := rfl

@[simp] theorem fold_get (k : Except ε σ → σ → γ) :
    (get : Prog C R ε σ σ).fold step s k = k (.ok s) s := rfl

@[simp] theorem fold_set (s' : σ) (k : Except ε PUnit → σ → γ) :
    (set s' : Prog C R ε σ PUnit).fold step s k = k (.ok ⟨⟩) s' := rfl

@[simp] theorem fold_modify (f : σ → σ) (k : Except ε PUnit → σ → γ) :
    (modify f : Prog C R ε σ PUnit).fold step s k = k (.ok ⟨⟩) (f s) := rfl

@[simp] theorem fold_bind (x : Prog C R ε σ β) (f : β → Prog C R ε σ α) :
    (x >>= f).fold step s k = x.fold step s fun r s' =>
      match r with
      | .ok b => (f b).fold step s' k
      | .error e => k (.error e) s' := by
  refine (Proc.fold_bind step _ (x s) _).trans ?_
  unfold Prog.fold
  congr 1
  funext r
  rcases r with ⟨e | b, s'⟩ <;> rfl

end Fold

/-! ## Programs that call nobody -/

/-- `x` ends in `s'` with the value `a` before it has called anybody. -/
def Prog.Returns (x : Prog C R ε σ α) (s : σ) (a : α) (s' : σ) : Prop := x s = .ret (.ok a, s')

theorem Prog.returns_pure (a : α) (s : σ) : (pure a : Prog C R ε σ α).Returns s a s := rfl

theorem Prog.returns_get (s : σ) : (get : Prog C R ε σ σ).Returns s s s := rfl

theorem Prog.returns_set (s s' : σ) : (set s' : Prog C R ε σ PUnit).Returns s ⟨⟩ s' := rfl

theorem Prog.Returns.bind {x : Prog C R ε σ β} {f : β → Prog C R ε σ α} {s s' s'' : σ} {a : α} {b : β}
    (h : x.Returns s b s') (hf : (f b).Returns s' a s'') : (x >>= f).Returns s a s'' := by
  unfold Prog.Returns at *
  have hx : (x >>= f) s = Proc.bind (x s) fun r =>
      match r with
      | (.ok b, s') => f b s'
      | (.error e, s') => .ret (.error e, s') := by
    refine congrArg (Proc.bind (x s)) (funext fun r => ?_)
    rcases r with ⟨e | b, s'⟩ <;> rfl
  rw [hx, h]
  exact hf

/-- The run of `x` from `s` in the world `w`. -/
def Prog.run (w : World C R) (x : Prog C R ε σ α) (s : σ) : Trace C R × Except ε α × σ :=
  Proc.run w (x s) []

/-- In every world, `Q` holds at a normal end and `E` at a stop. -/
@[irreducible] def always (x : Prog C R ε σ α) (Q : α → σ → Trace C R → Prop) (E : ε → σ → Trace C R → Prop)
    (s : σ) (t : Trace C R) : Prop :=
  Proc.Every (x s)
    (fun r t' => match r with
      | (.ok a, s') => Q a s' t'
      | (.error e, s') => E e s' t') t

section Rules

variable {Q : α → σ → Trace C R → Prop} {E : ε → σ → Trace C R → Prop} {s : σ} {t : Trace C R}

@[simp] theorem always_pure (a : α) :
    always (pure a : Prog C R ε σ α) Q E s t ↔ Q a s t := by
  unfold always
  rfl

@[simp] theorem always_throw (e : ε) :
    always (throw e : Prog C R ε σ α) Q E s t ↔ E e s t := by
  unfold always
  rfl

@[simp] theorem always_call (c : C) {Q : R c → σ → Trace C R → Prop} :
    always (Prog.call c) Q E s t ↔ ∀ r, Q r s (t ++ [⟨c, r⟩]) := by
  unfold always
  rfl

@[simp] theorem always_get {Q : σ → σ → Trace C R → Prop} :
    always (get : Prog C R ε σ σ) Q E s t ↔ Q s s t := by
  unfold always
  rfl

@[simp] theorem always_set {Q : PUnit → σ → Trace C R → Prop} (s' : σ) :
    always (set s' : Prog C R ε σ PUnit) Q E s t ↔ Q ⟨⟩ s' t := by
  unfold always
  rfl

@[simp] theorem always_modify {Q : PUnit → σ → Trace C R → Prop} (f : σ → σ) :
    always (modify f : Prog C R ε σ PUnit) Q E s t ↔ Q ⟨⟩ (f s) t := by
  unfold always
  rfl

@[simp] theorem always_bind (x : Prog C R ε σ β) (f : β → Prog C R ε σ α) :
    always (x >>= f) Q E s t ↔ always x (fun b s' t' => always (f b) Q E s' t') E s t := by
  unfold always
  refine (Proc.every_bind (x s) _ _ t).trans ?_
  constructor <;>
  · intro h
    refine Proc.Every.mono h fun r t' hr => ?_
    rcases r with ⟨e | b, s'⟩ <;> exact hr

theorem always_ite {c : Prop} [Decidable c] (x y : Prog C R ε σ α) :
    always (if c then x else y) Q E s t ↔ (c → always x Q E s t) ∧ (¬ c → always y Q E s t) := by
  split <;> simp_all

theorem always_mono {x : Prog C R ε σ α} {Q' : α → σ → Trace C R → Prop}
    {E' : ε → σ → Trace C R → Prop} (h : always x Q E s t)
    (hQ : ∀ a s' t', Q a s' t' → Q' a s' t') (hE : ∀ e s' t', E e s' t' → E' e s' t') :
    always x Q' E' s t := by
  unfold always at h ⊢
  refine Proc.Every.mono h fun r t' hr => ?_
  rcases r with ⟨e | a, s'⟩
  · exact hE e s' t' hr
  · exact hQ a s' t' hr

theorem always_and {x : Prog C R ε σ α} {Q' : α → σ → Trace C R → Prop}
    {E' : ε → σ → Trace C R → Prop} (h : always x Q E s t) (h' : always x Q' E' s t) :
    always x (fun a s' t' => Q a s' t' ∧ Q' a s' t') (fun e s' t' => E e s' t' ∧ E' e s' t') s t := by
  unfold always at h h' ⊢
  generalize x s = p at h h' ⊢
  induction p generalizing t with
  | ret r => rcases r with ⟨e | a, s'⟩ <;> exact ⟨h, h'⟩
  | call c k ih => exact fun r => ih r (h r) (h' r)

theorem always_grows (x : Prog C R ε σ α) :
    always x (fun _ _ t' => t <+: t') (fun _ _ t' => t <+: t') s t := by
  unfold always
  refine Proc.Every.mono (Proc.every_append (x s) t) fun r t' ht => ?_
  obtain ⟨l, rfl⟩ := ht
  rcases r with ⟨e | a, s'⟩
  · exact List.prefix_append t l
  · exact List.prefix_append t l

theorem always_run_ok {x : Prog C R ε σ α} {w : World C R} {a : α} {s' : σ}
    (h : always x Q E s []) (hx : x.run w s = (t, .ok a, s')) : Q a s' t := by
  unfold always at h
  have hr := Proc.Every.run h w
  unfold Prog.run at hx
  rw [hx] at hr
  exact hr

theorem always_run_error {x : Prog C R ε σ α} {w : World C R} {e : ε} {s' : σ}
    (h : always x Q E s []) (hx : x.run w s = (t, .error e, s')) : E e s' t := by
  unfold always at h
  have hr := Proc.Every.run h w
  unfold Prog.run at hx
  rw [hx] at hr
  exact hr

end Rules

/-! ## Runs under a condition -/

/-- A condition on traces that a trace meets only if its beginnings do. -/
structure Cond (C : Type) (R : C → Type) where
  Holds : Trace C R → Prop
  closed : ∀ {t e}, Holds (t ++ [e]) → Holds t

theorem Proc.Every.trivial (M : Cond C R) {t : Trace C R} (ht : ¬ M.Holds t) (p : Proc C R α)
    {Q : α → Trace C R → Prop} (hQ : ∀ a t', ¬ M.Holds t' → Q a t') : p.Every Q t := by
  induction p generalizing t with
  | ret a => exact hQ a t ht
  | call c k ih => exact fun r => ih r fun h => ht (M.closed h)

/-- In every world, if the trace meets the condition, `Q` holds at a normal end and `E` at a stop. -/
@[irreducible] def provided (M : Cond C R) (x : Prog C R ε σ α) (Q : α → σ → Trace C R → Prop)
    (E : ε → σ → Trace C R → Prop) (s : σ) (t : Trace C R) : Prop :=
  M.Holds t → always x (fun a s' t' => M.Holds t' → Q a s' t') (fun e s' t' => M.Holds t' → E e s' t') s t

section Provided

variable {M : Cond C R} {Q : α → σ → Trace C R → Prop} {E : ε → σ → Trace C R → Prop} {s : σ}
  {t : Trace C R}

theorem provided_pure (a : α) :
    provided M (pure a : Prog C R ε σ α) Q E s t ↔ (M.Holds t → Q a s t) := by
  unfold provided
  simp

theorem provided_throw (e : ε) :
    provided M (throw e : Prog C R ε σ α) Q E s t ↔ (M.Holds t → E e s t) := by
  unfold provided
  simp

theorem provided_call (c : C) {Q : R c → σ → Trace C R → Prop} :
    provided M (Prog.call c) Q E s t ↔
      ∀ r, M.Holds (t ++ [⟨c, r⟩]) → Q r s (t ++ [⟨c, r⟩]) := by
  unfold provided
  rw [always_call]
  exact ⟨fun h r hr => h (M.closed hr) r hr, fun h _ r hr => h r hr⟩

theorem provided_get {Q : σ → σ → Trace C R → Prop} :
    provided M (get : Prog C R ε σ σ) Q E s t ↔ (M.Holds t → Q s s t) := by
  unfold provided
  simp

theorem provided_set {Q : PUnit → σ → Trace C R → Prop} (s' : σ) :
    provided M (set s' : Prog C R ε σ PUnit) Q E s t ↔ (M.Holds t → Q ⟨⟩ s' t) := by
  unfold provided
  simp

theorem provided_modify {Q : PUnit → σ → Trace C R → Prop} (f : σ → σ) :
    provided M (modify f : Prog C R ε σ PUnit) Q E s t ↔ (M.Holds t → Q ⟨⟩ (f s) t) := by
  unfold provided
  simp

theorem provided_bind (x : Prog C R ε σ β) (f : β → Prog C R ε σ α) :
    provided M (x >>= f) Q E s t ↔
      provided M x (fun b s' t' => provided M (f b) Q E s' t') E s t := by
  unfold provided
  simp only [always_bind]
  refine imp_congr_right fun _ => ⟨fun h => ?_, fun h => ?_⟩
  · exact always_mono h (fun b s' t' hb _ _ => hb) fun _ _ _ => id
  · refine always_mono h (fun b s' t' hb => ?_) fun _ _ _ => id
    by_cases ht : M.Holds t'
    · exact hb ht ht
    · unfold always
      refine Proc.Every.trivial M ht (f b s') fun r t'' ht'' => ?_
      rcases r with ⟨e | a, s''⟩ <;> exact fun h => absurd h ht''

theorem provided_ite {c : Prop} [Decidable c] (x y : Prog C R ε σ α) :
    provided M (if c then x else y) Q E s t ↔
      (c → provided M x Q E s t) ∧ (¬ c → provided M y Q E s t) := by
  split <;> simp_all

theorem provided_mono {x : Prog C R ε σ α} {Q' : α → σ → Trace C R → Prop}
    {E' : ε → σ → Trace C R → Prop} (h : provided M x Q E s t)
    (hQ : ∀ a s' t', M.Holds t' → Q a s' t' → Q' a s' t')
    (hE : ∀ e s' t', M.Holds t' → E e s' t' → E' e s' t') : provided M x Q' E' s t := by
  unfold provided at h ⊢
  exact fun ht => always_mono (h ht) (fun a s' t' hq ht' => hQ a s' t' ht' (hq ht'))
    fun e s' t' he ht' => hE e s' t' ht' (he ht')

theorem provided_and {x : Prog C R ε σ α} {Q' : α → σ → Trace C R → Prop}
    {E' : ε → σ → Trace C R → Prop} (h : provided M x Q E s t) (h' : provided M x Q' E' s t) :
    provided M x (fun a s' t' => Q a s' t' ∧ Q' a s' t') (fun e s' t' => E e s' t' ∧ E' e s' t') s t := by
  unfold provided at h h' ⊢
  refine fun ht => always_mono (always_and (h ht) (h' ht)) (fun a s' t' hq ht' => ?_) fun e s' t' he ht' => ?_
  · exact ⟨hq.1 ht', hq.2 ht'⟩
  · exact ⟨he.1 ht', he.2 ht'⟩

theorem provided_weaken {M' : Cond C R} (hM : ∀ t, M'.Holds t → M.Holds t) {x : Prog C R ε σ α}
    (h : provided M x Q E s t) : provided M' x Q E s t := by
  unfold provided at h ⊢
  exact fun ht => always_mono (h (hM t ht)) (fun _ _ t' hq ht' => hq (hM t' ht'))
    fun _ _ t' he ht' => he (hM t' ht')

theorem provided_any (x : Prog C R ε σ α) :
    provided M x (fun _ _ _ => True) (fun _ _ _ => True) s t := by
  unfold provided always
  refine fun _ => Proc.Every.mono (Proc.every_append (x s) t) fun r t' _ => ?_
  rcases r with ⟨e | a, s'⟩
  · exact fun _ => trivial
  · exact fun _ => trivial

theorem provided_intro {x : Prog C R ε σ α} (h : M.Holds t → provided M x Q E s t) :
    provided M x Q E s t := by
  unfold provided at h ⊢
  exact fun ht => h ht ht

theorem provided_run_ok {x : Prog C R ε σ α} {w : World C R} {a : α} {s' : σ}
    (h : provided M x Q E s []) (hx : x.run w s = (t, .ok a, s')) (hn : M.Holds [])
    (ht : M.Holds t) : Q a s' t := by
  unfold provided at h
  exact always_run_ok (h hn) hx ht

theorem provided_run_error {x : Prog C R ε σ α} {w : World C R} {e : ε} {s' : σ}
    (h : provided M x Q E s []) (hx : x.run w s = (t, .error e, s')) (hn : M.Holds [])
    (ht : M.Holds t) : E e s' t := by
  unfold provided at h
  exact always_run_error (h hn) hx ht

end Provided

/-! ## Runs in parts -/

theorem Proc.run_bind (w : World C R) (p : Proc C R α) (f : α → Proc C R β) (t : Trace C R) :
    (p.bind f).run w t = (f (p.run w t).2).run w (p.run w t).1 := by
  induction p generalizing t with
  | ret a => rfl
  | call c k ih => exact ih _ _

theorem Prog.run_bind {x : Prog C R ε σ β} {f : β → Prog C R ε σ α} {w : World C R} {s s' : σ}
    {t : Trace C R} {b : β} (hx : x.run w s = (t, .ok b, s')) :
    (x >>= f).run w s = Proc.run w (f b s') t := by
  unfold Prog.run at hx ⊢
  refine (Proc.run_bind w (x s) _ []).trans ?_
  rw [hx]
  rfl

theorem Prog.run_bind_error {x : Prog C R ε σ β} {f : β → Prog C R ε σ α} {w : World C R} {s s' : σ}
    {t : Trace C R} {e : ε} (hx : x.run w s = (t, .error e, s')) :
    (x >>= f).run w s = (t, .error e, s') := by
  unfold Prog.run at hx ⊢
  refine (Proc.run_bind w (x s) _ []).trans ?_
  rw [hx]
  rfl

theorem Proc.run_answers {P : (c : C) → R c → Prop} {w : World C R} (hw : ∀ t c, P c (w t c))
    (p : Proc C R α) {t : Trace C R} (ht : ∀ e ∈ t, P e.1 e.2) : ∀ e ∈ (p.run w t).1, P e.1 e.2 := by
  induction p generalizing t with
  | ret a => exact ht
  | call c k ih =>
    refine ih _ fun e he => ?_
    rcases List.mem_append.mp he with he | he
    · exact ht e he
    · rw [List.mem_singleton.mp he]
      exact hw t c

theorem Cond.holds_of_append (M : Cond C R) {t l : Trace C R} (h : M.Holds (t ++ l)) : M.Holds t := by
  induction l using List.reverseRecOn with
  | nil => rwa [List.append_nil] at h
  | append_singleton l e ih =>
    rw [← List.append_assoc] at h
    exact ih (M.closed h)

theorem provided_part {M : Cond C R} {x : Prog C R ε σ α} {Q : α → σ → Trace C R → Prop}
    {E : ε → σ → Trace C R → Prop} {w : World C R} {s s' : σ} {t t' : Trace C R} {a : α}
    (h : provided M x Q E s t) (hx : Proc.run w (x s) t = (t', .ok a, s')) (ht' : M.Holds t') :
    M.Holds t ∧ Q a s' t' := by
  have hgrow := Proc.Every.run (Proc.every_append (x s) t) w
  rw [hx] at hgrow
  obtain ⟨l, rfl⟩ := hgrow
  have ht := M.holds_of_append ht'
  unfold provided always at h
  have hr := Proc.Every.run (h ht) w
  rw [hx] at hr
  exact ⟨ht, hr ht'⟩

/-! ## Effects -/

/-- What a program may do: the calls it may make, if the answers are as expected, and how it may
change the state. -/
structure Effect (C : Type) (R : C → Type) (σ : Type) where
  calls : C → Prop
  answers : (c : C) → R c → Prop
  rel : σ → σ → Prop
  refl : ∀ s, rel s s
  trans : ∀ {s s' s''}, rel s s' → rel s' s'' → rel s s''

def Proc.Within (F : Effect C R σ) : Proc C R α → (α → Prop) → Prop
  | ret a, Q => Q a
  | call c k, Q => F.calls c ∧ ∀ r, F.answers c r → (k r).Within F Q

theorem Proc.Within.mono {F : Effect C R σ} {p : Proc C R α} {Q Q' : α → Prop} (h : p.Within F Q)
    (hQ : ∀ a, Q a → Q' a) : p.Within F Q' := by
  induction p with
  | ret a => exact hQ a h
  | call c k ih => exact ⟨h.1, fun r hr => ih r (h.2 r hr)⟩

theorem Proc.Within.bind {F : Effect C R σ} {p : Proc C R α} {f : α → Proc C R β} {Q : α → Prop}
    {Q' : β → Prop} (h : p.Within F Q) (hf : ∀ a, Q a → (f a).Within F Q') :
    (p.bind f).Within F Q' := by
  induction p with
  | ret a => exact hf a h
  | call c k ih => exact ⟨h.1, fun r hr => ih r (h.2 r hr)⟩

/-- The effect of `x` is within `F`, and its result satisfies `Q`. -/
@[irreducible] def within (F : Effect C R σ) (x : Prog C R ε σ α) (Q : α → Prop) : Prop :=
  ∀ s, (x s).Within F fun r => F.rel s r.2 ∧ ∀ a, r.1 = .ok a → Q a

section Within

variable {F : Effect C R σ} {Q : α → Prop}

theorem within_pure {a : α} (h : Q a) : within F (pure a : Prog C R ε σ α) Q := by
  unfold within
  exact fun s => ⟨F.refl s, fun b hb => by cases hb; exact h⟩

theorem within_throw (e : ε) : within F (throw e : Prog C R ε σ α) Q := by
  unfold within
  exact fun s => ⟨F.refl s, fun b hb => nomatch hb⟩

theorem within_call {c : C} (hc : F.calls c) {Q : R c → Prop} (h : ∀ r, F.answers c r → Q r) :
    within F (Prog.call c : Prog C R ε σ (R c)) Q := by
  unfold within
  exact fun s => ⟨hc, fun r hr => ⟨F.refl s, fun b hb => by cases hb; exact h r hr⟩⟩

theorem within_get {Q : σ → Prop} (h : ∀ s, Q s) : within F (get : Prog C R ε σ σ) Q := by
  unfold within
  exact fun s => ⟨F.refl s, fun b _ => h b⟩

theorem within_bind {x : Prog C R ε σ β} {f : β → Prog C R ε σ α} {P : β → Prop}
    (hx : within F x P) (hf : ∀ b, P b → within F (f b) Q) : within F (x >>= f) Q := by
  unfold within at hx hf ⊢
  intro s
  refine Proc.Within.bind (hx s) fun r hr => ?_
  rcases r with ⟨e | b, s'⟩
  · exact ⟨hr.1, fun _ h => nomatch h⟩
  · exact (hf b (hr.2 b rfl) s').mono fun r' hr' => ⟨F.trans hr.1 hr'.1, hr'.2⟩

theorem within_update {f : σ → Prog C R ε σ α} (h : ∀ s, (f s s).Within F fun r =>
    F.rel s r.2 ∧ ∀ a, r.1 = .ok a → Q a) : within F (get >>= f) Q := by
  unfold within
  exact h

theorem within_modify {f : σ → σ} {Q : PUnit → Prop} (h : ∀ s, F.rel s (f s)) (hQ : Q ⟨⟩) :
    within F (modify f : Prog C R ε σ PUnit) Q := by
  unfold within
  exact fun s => ⟨h s, fun _ _ => hQ⟩

theorem within_ite {c : Prop} [Decidable c] {x y : Prog C R ε σ α} (hx : c → within F x Q)
    (hy : ¬ c → within F y Q) : within F (if c then x else y) Q := by
  split
  · exact hx ‹_›
  · exact hy ‹_›

theorem within_mono {x : Prog C R ε σ α} {Q' : α → Prop} (h : within F x Q) (hQ : ∀ a, Q a → Q' a) :
    within F x Q' := by
  unfold within at h ⊢
  exact fun s => (h s).mono fun r hr => ⟨hr.1, fun a ha => hQ a (hr.2 a ha)⟩

theorem within_weaken {G : Effect C R σ} {x : Prog C R ε σ α} (hcalls : ∀ c, F.calls c → G.calls c)
    (hanswers : ∀ c r, G.answers c r → F.answers c r) (hrel : ∀ s s', F.rel s s' → G.rel s s')
    (h : within F x Q) : within G x Q := by
  unfold within at h ⊢
  intro s
  have hp := h s
  generalize x s = p at hp
  induction p with
  | ret r => exact ⟨hrel _ _ hp.1, hp.2⟩
  | call c k ih => exact ⟨hcalls c hp.1, fun r hr => ih r (hp.2 r (hanswers c r hr))⟩

theorem Proc.Within.every {p : Proc C R α} {Q : α → Prop} (h : p.Within F Q) (t : Trace C R) :
    p.Every (fun a t' => ∃ l, t' = t ++ l ∧
      ((∀ e ∈ l, F.answers e.1 e.2) → (∀ e ∈ l, F.calls e.1) ∧ Q a)) t := by
  induction p generalizing t with
  | ret a => exact ⟨[], (List.append_nil t).symm, fun _ => ⟨(fun e he => nomatch he), h⟩⟩
  | call c k ih =>
    intro r
    by_cases hr : F.answers c r
    · refine (ih r (h.2 r hr) (t ++ [⟨c, r⟩])).mono fun a t' hl => ?_
      obtain ⟨l, rfl, hl⟩ := hl
      refine ⟨⟨c, r⟩ :: l, by simp, fun ha => ?_⟩
      obtain ⟨h1, h2⟩ := hl fun e he => ha e (List.mem_cons_of_mem _ he)
      exact ⟨fun e he => by rcases List.mem_cons.mp he with rfl | he; exacts [h.1, h1 e he], h2⟩
    · refine (every_append (k r) (t ++ [⟨c, r⟩])).mono fun a t' hl => ?_
      obtain ⟨l, rfl⟩ := hl
      exact ⟨⟨c, r⟩ :: l, by simp, fun ha => absurd (ha _ List.mem_cons_self) hr⟩

theorem always_within {x : Prog C R ε σ α} (h : within F x Q) (s : σ) (t : Trace C R) :
    always x
      (fun a s' t' => ∃ l, t' = t ++ l ∧
        ((∀ e ∈ l, F.answers e.1 e.2) → (∀ e ∈ l, F.calls e.1) ∧ F.rel s s' ∧ Q a))
      (fun _ s' t' => ∃ l, t' = t ++ l ∧
        ((∀ e ∈ l, F.answers e.1 e.2) → (∀ e ∈ l, F.calls e.1) ∧ F.rel s s')) s t := by
  unfold within at h
  unfold always
  refine ((h s).every t).mono fun r t' hl => ?_
  obtain ⟨l, rfl, hl⟩ := hl
  rcases r with ⟨e | a, s'⟩
  · exact ⟨l, rfl, fun ha => ⟨(hl ha).1, (hl ha).2.1⟩⟩
  · exact ⟨l, rfl, fun ha => ⟨(hl ha).1, (hl ha).2.1, (hl ha).2.2 a rfl⟩⟩

theorem provided_within {M : Cond C R} (hM : ∀ t, M.Holds t → ∀ e ∈ t, F.answers e.1 e.2)
    {x : Prog C R ε σ α} (h : within F x Q) (s : σ) (t : Trace C R) :
    provided M x
      (fun a s' t' => (∃ l, t' = t ++ l ∧ ∀ e ∈ l, F.calls e.1) ∧ F.rel s s' ∧ Q a)
      (fun _ s' t' => (∃ l, t' = t ++ l ∧ ∀ e ∈ l, F.calls e.1) ∧ F.rel s s') s t := by
  unfold provided
  refine fun _ => always_mono (always_within h s t) (fun a s' t' hl ht => ?_) fun e s' t' hl ht => ?_
  · obtain ⟨l, rfl, hl⟩ := hl
    obtain ⟨h1, h2, h3⟩ := hl fun e he => hM _ ht e (List.mem_append_right t he)
    exact ⟨⟨l, rfl, h1⟩, h2, h3⟩
  · obtain ⟨l, rfl, hl⟩ := hl
    obtain ⟨h1, h2⟩ := hl fun e he => hM _ ht e (List.mem_append_right t he)
    exact ⟨⟨l, rfl, h1⟩, h2⟩

/-- The answers are as expected. -/
def Effect.expected (F : Effect C R σ) : Cond C R where
  Holds t := ∀ e ∈ t, F.answers e.1 e.2
  closed h e he := h e (List.mem_append_left _ he)

end Within

end Mos.Lib
