import Mathlib.Logic.Function.Basic
import Mathlib.Tactic.Common

/-!
# Programs that change a state and may stop

`EStateM ε σ` with its weakest precondition: `Q` is the postcondition of a
normal end, `E` the one of a stop. A function is verified by one `wp` lemma,
and its callers use that lemma through `wp_mono`.
-/

namespace Mos.Lib

variable {ε δ σ τ α β : Type}

@[irreducible] def wp (x : EStateM ε σ α) (Q : α → σ → Prop) (E : ε → σ → Prop) (s : σ) : Prop :=
  match x s with
  | .ok a s' => Q a s'
  | .error e s' => E e s'

section Rules

variable {Q : α → σ → Prop} {E : ε → σ → Prop} {s : σ}

@[simp] theorem wp_pure (a : α) : wp (pure a : EStateM ε σ α) Q E s ↔ Q a s := by
  unfold wp
  rfl

@[simp] theorem wp_throw (e : ε) : wp (throw e : EStateM ε σ α) Q E s ↔ E e s := by
  unfold wp
  rfl

@[simp] theorem wp_bind (x : EStateM ε σ β) (f : β → EStateM ε σ α) :
    wp (x >>= f) Q E s ↔ wp x (fun b s' => wp (f b) Q E s') E s := by
  unfold wp
  simp only [bind, EStateM.bind]
  cases x s <;> rfl

@[simp] theorem wp_map (x : EStateM ε σ β) (f : β → α) :
    wp (f <$> x) Q E s ↔ wp x (fun b s' => Q (f b) s') E s := by
  unfold wp
  simp only [Functor.map, EStateM.map]
  cases x s <;> rfl

@[simp] theorem wp_get {Q : σ → σ → Prop} : wp (get : EStateM ε σ σ) Q E s ↔ Q s s := by
  unfold wp
  rfl

@[simp] theorem wp_set {Q : PUnit → σ → Prop} (s' : σ) :
    wp (set s' : EStateM ε σ PUnit) Q E s ↔ Q ⟨⟩ s' := by
  unfold wp
  rfl

@[simp] theorem wp_modify {Q : PUnit → σ → Prop} (f : σ → σ) :
    wp (modify f : EStateM ε σ PUnit) Q E s ↔ Q ⟨⟩ (f s) := by
  unfold wp
  rfl

theorem wp_ite {c : Prop} [Decidable c] (x y : EStateM ε σ α) :
    wp (if c then x else y) Q E s ↔ (c → wp x Q E s) ∧ (¬ c → wp y Q E s) := by
  split <;> simp_all

theorem wp_guard {c : Prop} [Decidable c] {x : EStateM ε σ α} {e : ε} (hc : c → E e s)
    (hx : ¬ c → wp x Q E s) : wp (do
      if c then throw e
      x) Q E s := by
  simp only [wp_bind, wp_ite, wp_throw]
  exact ⟨hc, hx⟩

theorem wp_mono {x : EStateM ε σ α} {Q' : α → σ → Prop} {E' : ε → σ → Prop} (h : wp x Q E s)
    (hQ : ∀ a s', Q a s' → Q' a s') (hE : ∀ e s', E e s' → E' e s') : wp x Q' E' s := by
  unfold wp at h ⊢
  cases hx : x s with
  | ok a s' => exact hQ a s' (by simpa [hx] using h)
  | error e s' => exact hE e s' (by simpa [hx] using h)

theorem wp_and {x : EStateM ε σ α} {Q' : α → σ → Prop} {E' : ε → σ → Prop} (h : wp x Q E s)
    (h' : wp x Q' E' s) :
    wp x (fun a s' => Q a s' ∧ Q' a s') (fun e s' => E e s' ∧ E' e s') s := by
  unfold wp at h h' ⊢
  cases hx : x s <;> simp_all

theorem wp_self (x : EStateM ε σ α) (s : σ) :
    wp x (fun a s' => x s = .ok a s') (fun e s' => x s = .error e s') s := by
  unfold wp
  cases x s <;> rfl

theorem wp_trivial (x : EStateM ε σ α) : wp x (fun _ _ => True) (fun _ _ => True) s := by
  unfold wp
  cases x s <;> trivial

theorem wp_run_ok {x : EStateM ε σ α} {a : α} {s' : σ} (h : wp x Q E s) (hx : x s = .ok a s') :
    Q a s' := by
  unfold wp at h
  simpa [hx] using h

theorem bind_ok {x : EStateM ε σ β} {f : β → EStateM ε σ α} {b : β} {s' : σ} (h : x s = .ok b s') :
    (x >>= f) s = f b s' := by
  simp only [bind, EStateM.bind, h]

theorem exists_of_wp {x : EStateM ε σ α} (h : wp x Q (fun _ _ => False) s) :
    ∃ a s', x s = .ok a s' ∧ Q a s' := by
  cases hx : x s with
  | ok a s' => exact ⟨a, s', rfl, wp_run_ok h hx⟩
  | error e s' =>
    unfold wp at h
    simp [hx] at h

theorem exists_of_wp_of_not {x : EStateM ε σ α} (h : wp x Q E s) (hE : ∀ e s', ¬ E e s') :
    ∃ a s', x s = .ok a s' ∧ Q a s' :=
  exists_of_wp (wp_mono h (fun _ _ hQ => hQ) hE)

theorem wp_run_error {x : EStateM ε σ α} {e : ε} {s' : σ} (h : wp x Q E s)
    (hx : x s = .error e s') : E e s' := by
  unfold wp at h
  simpa [hx] using h

end Rules

/-! ## Loops -/

@[simp] theorem wp_forM_nil {f : β → EStateM ε σ PUnit} {Q : PUnit → σ → Prop} {E : ε → σ → Prop}
    {s : σ} : wp (([] : List β).forM f) Q E s ↔ Q ⟨⟩ s := wp_pure _

theorem wp_forM_cons {b : β} {l : List β} {f : β → EStateM ε σ PUnit} {Q : PUnit → σ → Prop}
    {E : ε → σ → Prop} {s : σ} :
    wp ((b :: l).forM f) Q E s ↔ wp (f b) (fun _ s' => wp (l.forM f) Q E s') E s :=
  wp_bind (f b) fun _ => l.forM f

theorem wp_forM {l : List β} {f : β → EStateM ε σ PUnit} {I : σ → Prop} {E : ε → σ → Prop}
    (hf : ∀ b ∈ l, ∀ s, I s → wp (f b) (fun _ => I) E s) {s : σ} (hs : I s) :
    wp (l.forM f) (fun _ => I) E s := by
  induction l generalizing s with
  | nil => exact wp_forM_nil.mpr hs
  | cons b l ih =>
    rw [wp_forM_cons]
    refine wp_mono (hf b List.mem_cons_self s hs) (fun _ s' hs' => ?_) (fun _ _ h => h)
    exact ih (fun c hc => hf c (List.mem_cons_of_mem _ hc)) hs'

theorem wp_forM_suffix {f : β → EStateM ε σ PUnit} {I : List β → σ → Prop} {E : ε → σ → Prop}
    {l : List β} (hf : ∀ b r, b :: r <:+ l → ∀ s, I (b :: r) s → wp (f b) (fun _ => I r) E s)
    {s : σ} (hs : I l s) : wp (l.forM f) (fun _ => I []) E s := by
  induction l generalizing s with
  | nil => exact wp_forM_nil.mpr hs
  | cons b l ih =>
    rw [wp_forM_cons]
    refine wp_mono (hf b l List.suffix_rfl s hs) (fun _ s' hs' => ?_) (fun _ _ h => h)
    exact ih (fun c r hr => hf c r (hr.trans (List.suffix_cons _ _))) hs'

/-! ## A program on a part of the state -/

/-- Runs a program on the part of the state that `view` shows and `put` stores; `inj` says what its
stops are called in the larger program. -/
def zoom (view : σ → τ) (put : σ → τ → σ) (inj : δ → ε) (x : EStateM δ τ α) : EStateM ε σ α :=
  fun s =>
    match x (view s) with
    | .ok a t => .ok a (put s t)
    | .error e t => .error (inj e) (put s t)

@[simp] theorem wp_zoom (view : σ → τ) (put : σ → τ → σ) (inj : δ → ε) (x : EStateM δ τ α)
    {Q : α → σ → Prop} {E : ε → σ → Prop} {s : σ} :
    wp (zoom view put inj x) Q E s ↔
      wp x (fun a t => Q a (put s t)) (fun e t => E (inj e) (put s t)) (view s) := by
  unfold wp zoom
  cases x (view s) <;> rfl

/-- Turns some stops into results: an error code that is handed back as a value. -/
def recover (x : EStateM ε σ α) (f : ε → Option α) : EStateM ε σ α := fun s =>
  match x s with
  | .ok a s' => .ok a s'
  | .error e s' => match f e with
    | some a => .ok a s'
    | none => .error e s'

@[simp] theorem wp_recover (x : EStateM ε σ α) (f : ε → Option α) {Q : α → σ → Prop}
    {E : ε → σ → Prop} {s : σ} :
    wp (recover x f) Q E s ↔
      wp x Q (fun e s' => match f e with | some a => Q a s' | none => E e s') s := by
  unfold wp recover
  cases x s with
  | ok a s' => rfl
  | error e s' => cases h : f e <;> simp [h]

/-- Runs `h` after a stop that `f` selects. -/
def handle (x : EStateM ε σ α) (f : ε → Bool) (h : EStateM ε σ α) : EStateM ε σ α := fun s =>
  match x s with
  | .ok a s' => .ok a s'
  | .error e s' => if f e then h s' else .error e s'

@[simp] theorem wp_handle (x : EStateM ε σ α) (f : ε → Bool) (h : EStateM ε σ α)
    {Q : α → σ → Prop} {E : ε → σ → Prop} {s : σ} :
    wp (handle x f h) Q E s ↔
      wp x Q (fun e s' => (f e = true → wp h Q E s') ∧ (f e = false → E e s')) s := by
  unfold wp handle
  cases x s with
  | ok a s' => rfl
  | error e s' => cases hf : f e <;> simp [hf]

/-- After a stop that `f` selects, `h` runs before the program stops. -/
def cleanup (x : EStateM ε σ α) (f : ε → Bool) (h : EStateM ε σ PUnit) : EStateM ε σ α := fun s =>
  match x s with
  | .ok a s' => .ok a s'
  | .error e s' =>
    if f e then
      match h s' with
      | .ok _ s'' => .error e s''
      | .error e' s'' => .error e' s''
    else .error e s'

@[simp] theorem wp_cleanup (x : EStateM ε σ α) (f : ε → Bool) (h : EStateM ε σ PUnit)
    {Q : α → σ → Prop} {E : ε → σ → Prop} {s : σ} :
    wp (cleanup x f h) Q E s ↔
      wp x Q (fun e s' => (f e = true → wp h (fun _ => E e) E s') ∧ (f e = false → E e s')) s := by
  unfold wp cleanup
  cases x s with
  | ok a s' => rfl
  | error e s' =>
    cases hf : f e with
    | false => simp [hf]
    | true => cases hh : h s' <;> simp [hf, hh]

/-- Reports a stop as another one. -/
def mapStop (f : ε → ε) (x : EStateM ε σ α) : EStateM ε σ α := fun s =>
  match x s with
  | .ok a s' => .ok a s'
  | .error e s' => .error (f e) s'

@[simp] theorem wp_mapStop (f : ε → ε) (x : EStateM ε σ α) {Q : α → σ → Prop} {E : ε → σ → Prop}
    {s : σ} : wp (mapStop f x) Q E s ↔ wp x Q (fun e => E (f e)) s := by
  unfold wp mapStop
  cases x s <;> rfl

/-! ## Frames -/

/-- However `x` ends, its last state stands in the relation `R` to its first one, and it only stops
with one of `F`. -/
def Keeps (R : σ → σ → Prop) (F : ε → Prop) (x : EStateM ε σ α) : Prop :=
  ∀ s, wp x (fun _ s' => R s s') (fun e s' => R s s' ∧ F e) s

section

variable {R : σ → σ → Prop} {F : ε → Prop} [Std.Refl R]

theorem keeps_pure (a : α) : Keeps R F (pure a : EStateM ε σ α) := fun s =>
  (wp_pure a).mpr (Std.Refl.refl s)

theorem keeps_throw {e : ε} (he : F e) : Keeps R F (throw e : EStateM ε σ α) := fun s =>
  (wp_throw e).mpr ⟨Std.Refl.refl s, he⟩

theorem keeps_get : Keeps R F (get : EStateM ε σ σ) := fun s => wp_get.mpr (Std.Refl.refl s)

end

theorem keeps_modify {R : σ → σ → Prop} {F : ε → Prop} {f : σ → σ} (hf : ∀ s, R s (f s)) :
    Keeps R F (modify f : EStateM ε σ PUnit) := fun s => (wp_modify f).mpr (hf s)

namespace Keeps

variable {R : σ → σ → Prop} {F : ε → Prop}

theorem always {x : EStateM ε σ α} (hx : Keeps R F x) (s : σ) :
    wp x (fun _ s' => R s s') (fun _ s' => R s s') s :=
  wp_mono (hx s) (fun _ _ h => h) (fun _ _ h => h.1)

theorem bind [IsTrans σ R] {x : EStateM ε σ β} {f : β → EStateM ε σ α} (hx : Keeps R F x)
    (hf : ∀ b, Keeps R F (f b)) : Keeps R F (x >>= f) := by
  intro s
  rw [wp_bind]
  refine wp_mono (hx s) (fun b s' h => ?_) (fun _ _ h => h)
  exact wp_mono (hf b s') (fun _ _ h' => IsTrans.trans _ _ _ h h')
    (fun _ _ h' => ⟨IsTrans.trans _ _ _ h h'.1, h'.2⟩)

theorem ite {c : Prop} [Decidable c] {x y : EStateM ε σ α} (hx : Keeps R F x) (hy : Keeps R F y) :
    Keeps R F (if c then x else y) := by
  split
  · exact hx
  · exact hy

theorem guard [Std.Refl R] {c : Prop} [Decidable c] {e : ε} {x : EStateM ε σ α} (he : F e)
    (hx : Keeps R F x) : Keeps R F (do
      if c then throw e
      x) := by
  intro s
  simp only [wp_bind, wp_ite, wp_throw]
  exact ⟨fun _ => ⟨Std.Refl.refl s, he⟩, fun _ => hx s⟩

theorem forM [Std.Refl R] [IsTrans σ R] {l : List β} {f : β → EStateM ε σ PUnit}
    (hf : ∀ b ∈ l, Keeps R F (f b)) : Keeps R F (l.forM f) := by
  intro s
  refine wp_forM (fun b hb s' h => ?_) (Std.Refl.refl s)
  exact wp_mono (hf b hb s') (fun _ _ h' => IsTrans.trans _ _ _ h h')
    (fun _ _ h' => ⟨IsTrans.trans _ _ _ h h'.1, h'.2⟩)

theorem recover {x : EStateM ε σ α} {f : ε → Option α} (hx : Keeps R F x) :
    Keeps R F (Lib.recover x f) := by
  intro s
  rw [wp_recover]
  refine wp_mono (hx s) (fun _ _ h => h) (fun e _ h => ?_)
  cases f e with
  | none => exact h
  | some a => exact h.1

theorem handle [IsTrans σ R] {G : ε → Prop} {x : EStateM ε σ α} {f : ε → Bool}
    {h : EStateM ε σ α} (hx : Keeps R G x) (hh : Keeps R F h)
    (hG : ∀ e, f e = false → G e → F e) : Keeps R F (Lib.handle x f h) := by
  intro s
  rw [wp_handle]
  refine wp_mono (hx s) (fun _ _ h => h) (fun e s' hs => ⟨fun _ => ?_, fun he => ?_⟩)
  · exact wp_mono (hh s') (fun _ _ h' => IsTrans.trans _ _ _ hs.1 h')
      (fun _ _ h' => ⟨IsTrans.trans _ _ _ hs.1 h'.1, h'.2⟩)
  · exact ⟨hs.1, hG e he hs.2⟩

theorem zoom {view : σ → τ} {put : σ → τ → σ} {inj : δ → ε} (h : ∀ s t, R s (put s t))
    (hF : ∀ e, F (inj e)) (x : EStateM δ τ α) : Keeps R F (Lib.zoom view put inj x) := by
  intro s
  rw [wp_zoom]
  exact wp_mono (wp_trivial x) (fun _ t _ => h s t) (fun e t _ => ⟨h s t, hF e⟩)

theorem mono {S : σ → σ → Prop} {G : ε → Prop} {x : EStateM ε σ α} (hx : Keeps R F x)
    (h : ∀ s s', R s s' → S s s') (hF : ∀ e, F e → G e) : Keeps S G x := fun s =>
  wp_mono (hx s) (fun _ s' => h s s') (fun e s' he => ⟨h s s' he.1, hF e he.2⟩)

end Keeps

end Mos.Lib
