import Mos.Shell.Report

/-!
# Skipped commands

A command is skipped when its words are read with `mark == 0`. Then nothing of it runs, and the
commands behind the next `;` or `&` start from nothing and run with their own words, as long as the
skipped one is made of words and ends with the line or with `&&` or `||`. The branches of `;`, `&`,
`|` and of the redirections do not look at `mark`.
-/

namespace Mos.Shell

open Lib (Proc Prog)

/-! ## What skipping means -/

def Tok.ends : Tok → Bool
  | .eof | .and | .or | .semi | .amp | .pipe => true
  | _ => false

/-- At the token a child is forked that runs the command in front of it, and its parent reads on. -/
def Tok.splits : Tok → Bool
  | .and | .or | .semi | .amp => true
  | _ => false

/-- The token taken last belongs to a skipped command. -/
def Life.skips (l : Life) : Bool := l.last.elim false fun o => !o.frame.mark

/-- A skipped command has not come to its end. -/
def Life.reading (l : Life) : Bool := l.last.elim false fun o => !o.frame.mark && !o.token.ends

def takesIn (P : Frame → Prop) (e : Event) : Prop :=
  match e with
  | ⟨.takes _ _ f _, _⟩ => P f
  | _ => False

def isTakes (e : Event) : Bool :=
  match e with
  | ⟨.takes .., _⟩ => true
  | _ => false

def isBackquoted (e : Event) : Bool :=
  match e with
  | ⟨.takes .backquote _ _ _, _⟩ => true
  | _ => false

/-- A backquoted command was entered. -/
def Nested (t : Trace) : Prop := t.any isBackquoted = true

def pipeFails (e : Event) : Bool :=
  match e with
  | ⟨.pipe, r⟩ => decide ((r : Int × Int × Int).1 < 0)
  | _ => false

/-- The locals of a token after the token `o`. A command behind `;`, `&` or `|` is taken up as at the
start of a line, whatever was skipped, and all its words are its own. -/
def Follows (o : Taken) (f : Frame) : Prop :=
  match o.token with
  | .word => f = o.frame.push o.ptr
  | .less | .great | .append | .paren => f = o.frame
  | .and | .or => f.argc = 0 ∧ f.argv = o.frame.argv
  | .semi | .amp | .pipe => f = ⟨0, o.frame.argv, true⟩
  | .eof => False
  | .backquote => True

/-- The call `e` after `t` is one that a shell that skips commands may make. -/
structure Allowed (t : Trace) (e : Event) : Prop where
  /-- No command is run and no file opened, created or truncated. -/
  acts : (life t).skips = true → e.1.acts = false
  /-- The command is read to its end, without a call. -/
  reads : (life t).reading = true → takesIn (fun f => f.mark = false) e
  follows : ¬ Nested t → ∀ o, (life t).last = some o → isTakes e = true → takesIn (Follows o) e

def Skips (t : Trace) : Prop := ∀ pre e post, t = pre ++ e :: post → Allowed pre e

/-- How a process may have stopped. -/
structure Ended (t : Trace) : Prop where
  /-- It has not stopped in a skipped command. -/
  reads : (life t).reading = false
  /-- It has not stopped behind `;`, `&`, `&&` or `||`, unless it is the child that was forked there. -/
  forked : ¬ Nested t → ∀ o, (life t).last = some o → o.token.splits = true →
    ∀ e ∈ (life t).calls, isTakes e = false
  /-- The command that it has come to the end of and that is not skipped was run, with its words. -/
  runs : ¬ Nested t → ∀ o, (life t).last = some o → o.token.ends = true → o.frame.mark = true →
    0 < o.frame.argc → (∀ e ∈ (life t).calls, pipeFails e = false) →
    ∃ l u flag, (life t).calls = l ++ u ∧ Commanded o.buf o.frame.argv o.frame.argc flag u

/-! ## The condition -/

/-- A skipped command is made of words, at most as many as fit, and ends with the line or with `&&`
or `||`, or it has no word. -/
def Harmless (c : Tok) (f : Frame) : Prop :=
  match c with
  | .eof | .and | .or | .paren => True
  | .word => f.argc < MAXARGS
  | .semi | .amp | .pipe => f.argc = 0
  | .less | .great | .append | .backquote => False

instance (c : Tok) (f : Frame) : Decidable (Harmless c f) :=
  match c with
  | .eof | .and | .or | .paren => isTrue trivial
  | .word => inferInstanceAs (Decidable (f.argc < MAXARGS))
  | .semi | .amp | .pipe => inferInstanceAs (Decidable (f.argc = 0))
  | .less | .great | .append | .backquote => isFalse id

def harmless (e : Event) : Prop :=
  match e with
  | ⟨.takes c _ f _, _⟩ => f.mark = false → Harmless c f
  | _ => True

instance (e : Event) : Decidable (harmless e) :=
  match e with
  | ⟨.takes c _ f _, _⟩ => inferInstanceAs (Decidable (f.mark = false → Harmless c f))
  | ⟨.uninit, _⟩ | ⟨.open .., _⟩ | ⟨.close _, _⟩ | ⟨.dup .., _⟩ | ⟨.stat _, _⟩ | ⟨.fstat _, _⟩
  | ⟨.seek .., _⟩ | ⟨.write .., _⟩ | ⟨.pipe, _⟩ | ⟨.fork, _⟩ | ⟨.wait _, _⟩ | ⟨.spawn .., _⟩
  | ⟨.recvReturnValue, _⟩ | ⟨.sendReturnValue _, _⟩ | ⟨.createJob .., _⟩ | ⟨.printJobs, _⟩
  | ⟨.fgJob _, _⟩ | ⟨.runnable _, _⟩ | ⟨.killJob _, _⟩ | ⟨.printHistory, _⟩ | ⟨.debugf _, _⟩
  | ⟨.printf _, _⟩ | ⟨.closeAll, _⟩ => isTrue trivial

def AllHarmless (t : Trace) : Prop := ∀ e ∈ t, harmless e

theorem AllHarmless.left {t u : Trace} (h : AllHarmless (t ++ u)) : AllHarmless t :=
  fun e he => h e (List.mem_append_left u he)

theorem AllHarmless.taken {g : Statics} {f : Frame} {t : Trace} (h : AllHarmless (taken g f t))
    (hm : f.mark = false) : Harmless g.nc f :=
  h _ (List.mem_append_right t List.mem_cons_self) hm

/-! ## Skipping, call by call -/

theorem Skips.snoc {t : Trace} {e : Event} (h : Skips t) (he : Allowed t e) : Skips (t ++ [e]) := by
  intro pre e' post heq
  rcases List.eq_nil_or_concat post with rfl | ⟨post', x, rfl⟩
  · obtain ⟨rfl, hl⟩ := List.append_inj' heq rfl
    obtain rfl := (List.cons.inj hl).1
    exact he
  · have h' : t ++ [e] = (pre ++ e' :: post') ++ [x] := by simpa using heq
    exact h pre e' post' (List.append_inj' h' rfl).1

theorem Life.reading_of_skips {l : Life} (h : l.skips = false) : l.reading = false := by
  unfold Life.skips at h
  unfold Life.reading
  rcases hl : l.last with _ | o
  · rfl
  · rw [hl, Option.elim_some] at h
    rw [Option.elim_some, h, Bool.false_and]

theorem isTakes_of_stays {e : Event} (h : e.1.stays = true) : isTakes e = false := by
  obtain ⟨c, r⟩ := e
  cases c <;> first | rfl | simp [Call.stays] at h

theorem Nested.append {t : Trace} (h : Nested t) (u : Trace) : Nested (t ++ u) := by
  unfold Nested at h ⊢
  rw [List.any_append, h]
  rfl

theorem Life.skips_congr {l l' : Life} (h : l.last = l'.last) : l.skips = l'.skips := by
  unfold Life.skips
  rw [h]

theorem Life.reading_congr {l l' : Life} (h : l.last = l'.last) : l.reading = l'.reading := by
  unfold Life.reading
  rw [h]

theorem last_append {t u : Trace} (h : ∀ e ∈ u, e.1.stays = true) :
    (life (t ++ u)).last = (life t).last := by
  rw [life_append h]

theorem last_fork (t : Trace) (r : Int) : (life (t ++ [⟨.fork, r⟩])).last = (life t).last := by
  by_cases hr : r = 0
  · subst hr
    rw [life_child]
  · rw [life_parent t hr]

/-- After the end of a command any call goes that runs nothing, and in a command that runs any
call. -/
theorem Skips.append {t u : Trace} (h : Skips t) (hu : ∀ e ∈ u, e.1.stays = true)
    (hs : (life t).skips = false ∨ (life t).reading = false ∧ ∀ e ∈ u, e.1.acts = false) :
    Skips (t ++ u) := by
  induction u using List.reverseRecOn with
  | nil => simpa using h
  | append_singleton u e ih =>
    have hu' : ∀ x ∈ u, x.1.stays = true := fun x hx => hu x (by simp [hx])
    have hlast := last_append (t := t) hu'
    have htakes := isTakes_of_stays (hu e (by simp))
    have hread : (life (t ++ u)).reading = false := by
      rw [Life.reading_congr hlast]
      exact hs.elim Life.reading_of_skips fun h => h.1
    rw [← List.append_assoc]
    refine (ih hu' (hs.imp id fun h => ⟨h.1, fun x hx => h.2 x (by simp [hx])⟩)).snoc
      ⟨fun hsk => ?_, fun hr => ?_, fun _ _ _ ht => ?_⟩
    · rw [Life.skips_congr hlast] at hsk
      rcases hs with hs | hs
      · exact absurd (hs.symm.trans hsk) nofun
      · exact hs.2 e (by simp)
    · exact absurd (hread.symm.trans hr) nofun
    · exact absurd (htakes.symm.trans ht) nofun

theorem Skips.fork {t : Trace} (h : Skips t) (r : Int) (hr : (life t).reading = false) :
    Skips (t ++ [⟨.fork, r⟩]) :=
  h.snoc ⟨fun _ => rfl, fun hr' => absurd (hr.symm.trans hr') nofun,
    fun _ _ _ ht => absurd ht nofun⟩

/-! ## The invariant -/

/-- What holds before a token is taken with the locals `f`. -/
structure Skipping (f : Frame) (t : Trace) : Prop where
  skips : Skips t
  reads : (life t).reading = true → f.mark = false
  follows : ¬ Nested t → ∀ o, (life t).last = some o → Follows o f

/-- What holds when `parsecmd` has returned `argc` and `argv`. -/
structure Skipped (argc : Nat) (argv : Argv) (g : Statics) (t : Trace) : Prop where
  skips : Skips t
  reads : (life t).reading = false
  forked : ¬ Nested t → ∀ o, (life t).last = some o → o.token.splits = true → (life t).calls = []
  none : (life t).skips = true → argc = 0
  command : ¬ Nested t → ∀ o, (life t).last = some o →
    argv = o.frame.argv ∧ g.buf = o.buf ∧ (o.frame.mark = true → argc = o.frame.argc)

theorem Skipping.taken {f : Frame} {t : Trace} (h : Skipping f t) (g : Statics) :
    Skips (taken g f t) :=
  h.skips.snoc ⟨fun _ => rfl, h.reads, fun hn o ho _ => h.follows hn o ho⟩

theorem Skips.skipping {t : Trace} (h : Skips t) {o : Taken} (ho : (life t).last = some o)
    {f : Frame} (hm : o.token.ends = false → o.frame.mark = false → f.mark = false)
    (hf : Follows o f) : Skipping f t := by
  refine ⟨h, fun hr => ?_, fun _ o' ho' => ?_⟩
  · unfold Life.reading at hr
    rw [ho, Option.elim_some, Bool.and_eq_true, Bool.not_eq_true', Bool.not_eq_true'] at hr
    exact hm hr.2 hr.1
  · obtain rfl := Option.some.inj (ho.symm.trans ho')
    exact hf

theorem Skips.skipped {t : Trace} (h : Skips t) {o : Taken} (ho : (life t).last = some o)
    {argc : Nat} {argv : Argv} {g : Statics} (he : o.token.ends = true)
    (hfork : o.token.splits = true → (life t).calls = []) (hargv : argv = o.frame.argv)
    (hbuf : g.buf = o.buf) (hnone : o.frame.mark = false → argc = 0)
    (hargc : o.frame.mark = true → argc = o.frame.argc) : Skipped argc argv g t := by
  refine ⟨h, ?_, fun _ o' ho' => ?_, fun hs => ?_, fun _ o' ho' => ?_⟩
  · unfold Life.reading
    rw [ho, Option.elim_some, he, Bool.not_true, Bool.and_false]
  · obtain rfl := Option.some.inj (ho.symm.trans ho')
    exact hfork
  · unfold Life.skips at hs
    rw [ho, Option.elim_some, Bool.not_eq_true'] at hs
    exact hnone hs
  · obtain rfl := Option.some.inj (ho.symm.trans ho')
    exact ⟨hargv, hbuf, hargc⟩

theorem taken_last (g : Statics) (f : Frame) (t : Trace) :
    (life (taken g f t)).last = some ⟨g.nc, g.np1, f, g.next.buf⟩ := by
  rw [life_taken]

theorem taken_skips (g : Statics) (f : Frame) (t : Trace) :
    (life (taken g f t)).skips = !f.mark := by
  rw [life_taken]
  rfl

theorem reading_of_ends {g : Statics} {f : Frame} {t : Trace} (h : g.nc.ends = true) :
    (life (taken g f t)).reading = false := by
  rw [life_taken]
  unfold Life.reading
  rw [Option.elim_some, h, Bool.not_true, Bool.and_false]

theorem runs_append {g : Statics} {f : Frame} {t u : Trace} (h : Skips (taken g f t))
    (hm : f.mark = true) (hu : ∀ e ∈ u, e.1.stays = true) :
    Skips (taken g f t ++ u) ∧ (life (taken g f t ++ u)).skips = false := by
  have hs : (life (taken g f t)).skips = false := by rw [taken_skips, hm]; rfl
  refine ⟨h.append hu (Or.inl hs), ?_⟩
  rw [Life.skips_congr (last_append hu), hs]

theorem ends_append {t t' : Trace} (h : Skips t) (hr : (life t).reading = false)
    (ht : Adds Call.mute t t') : Skips t' ∧ (life t').last = (life t).last := by
  obtain ⟨u, rfl, hu⟩ := ht
  have hst : ∀ e ∈ u, e.1.stays = true := fun e he => mute_stays _ (hu e he)
  exact ⟨h.append hst (Or.inr ⟨hr, fun e he => Call.acts_of_mute (hu e he)⟩), last_append hst⟩

theorem fork_append {g : Statics} {f : Frame} {t t₁ t₂ : Trace} {r : Int}
    (h : Skips (taken g f t)) (he : g.nc.ends = true) (ht : Adds Call.mute (taken g f t) t₁)
    (ht' : Adds Call.mute (t₁ ++ [⟨.fork, r⟩]) t₂) :
    Skips t₂ ∧ (life t₂).last = some ⟨g.nc, g.np1, f, g.next.buf⟩ := by
  obtain ⟨h1, hl1⟩ := ends_append h (reading_of_ends he) ht
  have hr1 : (life t₁).reading = false := (Life.reading_congr hl1).trans (reading_of_ends he)
  have hl2 := last_fork t₁ r
  obtain ⟨h3, hl3⟩ := ends_append (h1.fork r hr1) ((Life.reading_congr hl2).trans hr1) ht'
  exact ⟨h3, hl3.trans (hl2.trans (hl1.trans (taken_last g f t)))⟩

theorem mark_of_harmful {g : Statics} {f : Frame} {t u : Trace}
    (ha : AllHarmless (taken g f t ++ u)) (h : ¬ Harmless g.nc f) : f.mark = true := by
  by_contra hm
  exact h (ha.left.taken (by simpa using hm))

/-! ## How a process stops -/

theorem ended_within {t : Trace} (hs : (life t).skips = false)
    (hl : ∀ o, (life t).last = some o → o.token.ends = false) : Ended t := by
  refine ⟨Life.reading_of_skips hs, fun _ o ho hsplit => ?_, fun _ o ho he => ?_⟩
  · have := hl o ho
    unfold Tok.splits at hsplit
    unfold Tok.ends at this
    split at hsplit <;> simp_all
  · exact absurd ((hl o ho).symm.trans he) nofun

theorem Skipped.stopped {argv : Argv} {g : Statics} {t u : Trace} (h : Skipped 0 argv g t)
    (hu : ∀ e ∈ u, e.1.stays = true) (ha : ∀ e ∈ u, e.1.acts = false) :
    Skips (t ++ u) ∧ Ended (t ++ u) := by
  have hlast := last_append (t := t) hu
  refine ⟨h.skips.append hu (Or.inr ⟨h.reads, ha⟩), ?_, fun hn o ho hsplit e he => ?_,
    fun hn o ho _ hm hpos => ?_⟩
  · rw [Life.reading_congr hlast, h.reads]
  · rw [hlast] at ho
    rw [life_append hu, h.forked (fun hn' => hn (hn'.append u)) o ho hsplit, List.nil_append] at he
    exact isTakes_of_stays (hu e he)
  · rw [hlast] at ho
    have hargc := (h.command (fun hn' => hn (hn'.append u)) o ho).2.2 hm
    exact absurd hpos (by omega)

/-- It stops with a command, which it has run. -/
theorem Skipped.ran {argc : Nat} {argv : Argv} {g : Statics} {t u : Trace} (h : Skipped argc argv g t)
    (hpos : 0 < argc) (hu : Commanded g.buf argv argc g.flag u) : Skips (t ++ u) ∧ Ended (t ++ u) := by
  have hlast := last_append (t := t) hu.stays
  have hns : (life t).skips = false := by
    by_contra hsk
    have := h.none (by simpa using hsk)
    omega
  refine ⟨h.skips.append hu.stays (Or.inl hns), ?_, fun hn o ho hsplit e he => ?_,
    fun hn o ho _ hm _ _ => ?_⟩
  · rw [Life.reading_congr hlast, h.reads]
  · rw [hlast] at ho
    rw [life_append hu.stays, h.forked (fun hn' => hn (hn'.append u)) o ho hsplit,
      List.nil_append] at he
    exact isTakes_of_stays (hu.stays e he)
  · rw [hlast] at ho
    obtain ⟨hargv, hbuf, hargc⟩ := h.command (fun hn' => hn (hn'.append u)) o ho
    refine ⟨(life t).calls, u, g.flag, by rw [life_append hu.stays], ?_⟩
    rw [← hargv, ← hbuf, ← hargc hm]
    exact hu

/-- The invariant of the loop, together with the depth of backquotes. -/
def Looping (d : Nat) (f : Frame) (t : Trace) : Prop :=
  (AllHarmless t → Skipping f t) ∧ (0 < d → Nested t)

def Returned (d argc : Nat) (argv : Argv) (g : Statics) (t : Trace) : Prop :=
  (AllHarmless t → Skipped argc argv g t) ∧ (0 < d → Nested t)

section

variable {d : Nat} {f : Frame} {g g' : Statics} {t t' t₁ t₂ : Trace} {r : Int}

theorem Looping.within (h : Looping d f t) {f' : Frame} (hm : f'.mark = f.mark)
    (hf : Follows ⟨g.nc, g.np1, f, g.next.buf⟩ f') : Looping d f' (taken g f t) :=
  ⟨fun ha => ((h.1 ha.left).taken g).skipping (taken_last g f t) (fun _ h => hm.trans h) hf,
    fun h0 => (h.2 h0).append _⟩

theorem Looping.full (h : Looping d f t) (hc : g.nc = .word) (hm : MAXARGS ≤ f.argc)
    (ht : Adds Call.mute (taken g f t) t') (ha : AllHarmless t') : Skips t' ∧ Ended t' := by
  obtain ⟨u, rfl, hu⟩ := ht
  have hst : ∀ e ∈ u, e.1.stays = true := fun e he => mute_stays _ (hu e he)
  have hmark := mark_of_harmful ha (by rw [hc]; unfold Harmless; omega)
  obtain ⟨h1, h2⟩ := runs_append ((h.1 ha.left.left).taken g) hmark hst
  refine ⟨h1, ended_within h2 fun o ho => ?_⟩
  rw [last_append hst, taken_last] at ho
  obtain rfl := Option.some.inj ho
  simp [hc, Tok.ends]

/-- A redirection, which is harmless only in a command that runs. -/
theorem Looping.redirect (h : Looping d f t) (hr : g.nc.redirects = true)
    (ht : Adds Call.plain (taken g f t) t') :
    Looping d f t' ∧ (AllHarmless t' → Skips t' ∧ Ended t') := by
  obtain ⟨u, rfl, hu⟩ := ht
  have hst : ∀ e ∈ u, e.1.stays = true := fun e he => Call.stays_of_plain (hu e he)
  have hlast := (last_append (t := taken g f t) hst).trans (taken_last g f t)
  have hall : AllHarmless (taken g f t ++ u) →
      Skips (taken g f t ++ u) ∧ (life (taken g f t ++ u)).skips = false := by
    intro ha
    refine runs_append ((h.1 ha.left.left).taken g) (mark_of_harmful ha fun hh => ?_) hst
    revert hr hh
    cases g.nc <;> simp [Tok.redirects, Harmless]
  refine ⟨⟨fun ha => (hall ha).1.skipping hlast (fun _ h => h) ?_,
    fun h0 => ((h.2 h0).append _).append _⟩, fun ha => ⟨(hall ha).1, ended_within (hall ha).2 fun o ho => ?_⟩⟩
  · revert hr
    unfold Follows
    cases g.nc <;> simp [Tok.redirects]
  · obtain rfl := Option.some.inj (hlast.symm.trans ho)
    revert hr
    cases g.nc <;> simp [Tok.redirects, Tok.ends]

theorem Looping.forked (h : Looping d f t) (he : g.nc.ends = true)
    (ht : Adds Call.mute (taken g f t) t₁) (ht' : Adds Call.mute (t₁ ++ [⟨.fork, r⟩]) t₂)
    {f' : Frame} (hf : Follows ⟨g.nc, g.np1, f, g.next.buf⟩ f') : Looping d f' t₂ := by
  obtain ⟨u, rfl, -⟩ := id ht
  obtain ⟨v, rfl, -⟩ := id ht'
  refine ⟨fun ha => ?_, fun h0 => ((((h.2 h0).append _).append _).append _).append _⟩
  obtain ⟨h1, hl⟩ := fork_append ((h.1 ha.left.left.left.left).taken g) he ht ht'
  exact h1.skipping hl (fun hne => absurd (he.symm.trans hne) nofun) hf

theorem Looping.returned (h : Looping d f t) (he : g.nc.ends = true)
    (ht : Adds Call.mute (taken g f t) t₁) (ht' : Adds Call.mute (t₁ ++ [⟨.fork, r⟩]) t₂)
    (hfork : g.nc.splits = true → (life t₂).calls = []) (hbuf : g'.buf = g.next.buf) {argc : Nat}
    (hnone : AllHarmless (taken g f t) → f.mark = false → argc = 0)
    (hargc : f.mark = true → argc = f.argc) : Returned d argc f.argv g' t₂ := by
  obtain ⟨u, rfl, -⟩ := id ht
  obtain ⟨v, rfl, -⟩ := id ht'
  refine ⟨fun ha => ?_, fun h0 => ((((h.2 h0).append _).append _).append _).append _⟩
  obtain ⟨h1, hl⟩ := fork_append ((h.1 ha.left.left.left.left).taken g) he ht ht'
  exact h1.skipped hl he hfork rfl hbuf (hnone ha.left.left.left) hargc

end

end Mos.Shell
