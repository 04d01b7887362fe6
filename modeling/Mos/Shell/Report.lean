import Mathlib.Data.List.Induction
import Mos.Shell.Rules

/-!
# Who reports to the parent shell

The parent shell that has forked a subshell at `&&` or `||` waits for its report. A
subshell reports once if its command runs, and if it does not run, when a word was read
before. A built-in command and a failed `spawn` report nothing. A subshell without a command
inside of backquotes goes on with the line around them, and may report there again.
-/

namespace Mos.Shell

open Lib (Proc Prog)

/-! ## The life of a process -/

/-- A token that was taken, with the locals and the memory at that time. -/
structure Taken where
  token : Tok
  ptr : Ptr
  frame : Frame
  buf : Str

/-- What `parsecmd` returns if it returns at the token. -/
def Taken.argc (o : Taken) : Nat :=
  match o.token with
  | .eof | .and | .or => o.frame.result
  | _ => o.frame.argc

/-- 1 if the command that the token ends is empty (or skipped) behind a word, as `argv[0]` is not
NULL. -/
def Taken.blank (o : Taken) : Nat := if o.argc = 0 ∧ (o.frame.argv 0).isSome = true then 1 else 0

/-- What a process has done since it was forked: the token it took last, the token it was forked
at (none for the line shell), its calls, and how many empty commands behind a word `parsecmd` has
returned in it. -/
structure Life where
  last : Option Taken
  origin : Option Taken
  calls : Trace
  blanks : Nat

/-- `parsecmd` returns at the end of a line, in the child of `;`, `&`, `&&` and `||` and in the parent
of `|`. -/
def Life.step (l : Life) : Event → Life
  | ⟨.takes c t f buf, r⟩ =>
    ⟨some ⟨c, t, f, buf⟩, l.origin, l.calls ++ [⟨.takes c t f buf, r⟩],
      l.blanks + if c = .eof then Taken.blank ⟨c, t, f, buf⟩ else 0⟩
  | ⟨.fork, r⟩ =>
    if (r : Int) = 0 then
      ⟨l.last, l.last, [], l.last.elim 0 fun o => if o.token = .pipe then 0 else o.blank⟩
    else
      ⟨l.last, l.origin, l.calls ++ [⟨.fork, r⟩],
        l.blanks + l.last.elim 0 fun o => if o.token = .pipe then o.blank else 0⟩
  | e => ⟨l.last, l.origin, l.calls ++ [e], l.blanks⟩

def life (t : Trace) : Life := t.foldl Life.step ⟨none, none, [], 0⟩

theorem life_snoc (t : Trace) (e : Event) : life (t ++ [e]) = (life t).step e := by
  unfold life
  rw [List.foldl_append]
  rfl

theorem Life.step_stays (l : Life) {e : Event} (h : e.1.stays = true) :
    l.step e = ⟨l.last, l.origin, l.calls ++ [e], l.blanks⟩ := by
  obtain ⟨c, r⟩ := e
  cases c <;> first | rfl | simp [Call.stays] at h

theorem life_append {t u : Trace} (h : ∀ e ∈ u, e.1.stays = true) :
    life (t ++ u) = ⟨(life t).last, (life t).origin, (life t).calls ++ u, (life t).blanks⟩ := by
  induction u using List.reverseRecOn with
  | nil => simp
  | append_singleton u e ih =>
    rw [← List.append_assoc, life_snoc, ih fun x hx => h x (by simp [hx]),
      Life.step_stays _ (h e (by simp))]
    simp

theorem life_taken (g : Statics) (f : Frame) (t : Trace) :
    life (taken g f t) = ⟨some ⟨g.nc, g.np1, f, g.next.buf⟩, (life t).origin,
      (life t).calls ++ [⟨.takes g.nc g.np1 f g.next.buf, ()⟩],
      (life t).blanks + if g.nc = .eof then Taken.blank ⟨g.nc, g.np1, f, g.next.buf⟩ else 0⟩ :=
  life_snoc t _

theorem life_child (t : Trace) :
    life (t ++ [⟨.fork, (0 : Int)⟩]) = ⟨(life t).last, (life t).last, [],
      (life t).last.elim 0 fun o => if o.token = .pipe then 0 else o.blank⟩ := life_snoc t _

theorem life_parent (t : Trace) {r : Int} (h : r ≠ 0) :
    life (t ++ [⟨.fork, r⟩]) = ⟨(life t).last, (life t).origin, (life t).calls ++ [⟨.fork, r⟩],
      (life t).blanks + (life t).last.elim 0 fun o => if o.token = .pipe then o.blank else 0⟩ := by
  rw [life_snoc]
  exact if_neg h

/-! ## The condition -/

/-- The subshell was forked at `&&` or `||`. -/
def Taken.conditional (o : Taken) : Prop := o.token = .and ∨ o.token = .or

def spawnFails (e : Event) : Bool :=
  match e with
  | ⟨.spawn _ _, r⟩ => decide ((r : Int) < 0)
  | _ => false

/-- A subshell that was forked with a command to run must not be one of the built-in commands, and
`spawn` must give it a child. One without returns into the line around its backquotes, if there is
one: of the empty commands that it comes to the end of, its own first, one must be behind a word. -/
def Reports (o : Taken) (t : Trace) : Prop :=
  if o.frame.result = 0 then (life t).blanks = 1
  else text o.buf (o.frame.argv 0) ∉ builtins ∧ ∀ e ∈ (life t).calls, spawnFails e = false

/-- A subshell of `&&` or `||` that has stopped reported once if and only if the condition holds. -/
def ReportsOnce (t : Trace) : Prop :=
  ∀ o, (life t).origin = some o → o.conditional → (sends (life t).calls = 1 ↔ Reports o t)

/-! ## The invariant -/

/-- At the loop a subshell of `&&` or `||` had no command, and has reported each empty command that
`parsecmd` has returned. -/
def Settled (t : Trace) : Prop :=
  ∀ o, (life t).origin = some o → o.conditional →
    o.frame.result = 0 ∧ sends (life t).calls = (life t).blanks

/-- `parsecmd` has returned `argc` in such a subshell: an empty command is still to be reported, and
another one is not. -/
structure Back (argc : Nat) (argv : Argv) (g : Statics) (o : Taken) (t : Trace) : Prop where
  result : o.frame.result = 0
  empty : argc = 0 →
    (life t).blanks = sends (life t).calls + if (argv 0).isSome = true then 1 else 0
  command : 0 < argc → (life t).blanks = sends (life t).calls ∧ g.flag = false

/-- The subshell was forked just now, with a command. -/
structure Fresh (argc : Nat) (argv : Argv) (g : Statics) (o : Taken) (t : Trace) : Prop where
  pos : 0 < argc
  calls : (life t).calls = []
  flag : g.flag = true
  argc : argc = o.frame.result
  argv : argv = o.frame.argv
  buf : g.buf = o.buf

def Passed (argc : Nat) (argv : Argv) (g : Statics) (t : Trace) : Prop :=
  ∀ o, (life t).origin = some o → o.conditional → Back argc argv g o t ∨ Fresh argc argv g o t

theorem Settled.reportsOnce {t : Trace} (h : Settled t) : ReportsOnce t := by
  intro o ho hc
  obtain ⟨hr, hs⟩ := h o ho hc
  unfold Reports
  rw [if_pos hr, hs]

theorem Settled.append {t u : Trace} (h : Settled t) (hu : ∀ e ∈ u, e.1.plain = true) :
    Settled (t ++ u) := by
  unfold Settled
  rw [life_append fun e he => Call.stays_of_plain (hu e he), sends_append, sends_plain hu, Nat.add_zero]
  exact h

theorem Settled.adds {t t' : Trace} {S : Call → Bool} (h : Settled t) (ht : Adds S t t')
    (hS : ∀ c, S c = true → c.plain = true) : Settled t' := by
  obtain ⟨u, rfl, hu⟩ := ht
  exact h.append fun e he => hS _ (hu e he)

theorem sends_takes (l : Trace) (c : Tok) (p : Ptr) (f : Frame) (buf : Str) :
    sends (l ++ [⟨.takes c p f buf, ()⟩]) = sends l := by
  rw [sends_append]
  rfl

theorem sends_fork (l : Trace) (r : Int) : sends (l ++ [⟨.fork, r⟩]) = sends l := by
  rw [sends_append]
  rfl

theorem Settled.taken {t : Trace} (h : Settled t) {g : Statics} (hne : g.nc ≠ .eof) (f : Frame) :
    Settled (taken g f t) := by
  unfold Settled
  rw [life_taken, sends_takes, if_neg hne, Nat.add_zero]
  exact h

theorem Settled.parent {t : Trace} (h : Settled t) {r : Int} (hr : r ≠ 0)
    (hl : ∀ o, (life t).last = some o → o.token ≠ .pipe) : Settled (t ++ [⟨.fork, r⟩]) := by
  have hnone : ((life t).last.elim 0 fun o => if o.token = .pipe then o.blank else 0) = 0 := by
    rcases ho : (life t).last with _ | o
    · rfl
    · exact if_neg (hl o ho)
  unfold Settled
  rw [life_parent t hr, sends_fork, hnone, Nat.add_zero]
  exact h

theorem settled_child {t : Trace} (hl : ∀ o, (life t).last = some o → ¬ o.conditional) :
    Settled (t ++ [⟨.fork, (0 : Int)⟩]) := by
  intro o ho hc
  rw [life_child] at ho
  exact absurd hc (hl o ho)

theorem Passed.settled {argc : Nat} {argv : Argv} {g : Statics} {t u : Trace}
    (h : Passed argc argv g t) (hzero : argc = 0) (hu : ∀ e ∈ u, e.1.stays = true)
    (hs : sends u = if (argv 0).isSome = true then 1 else 0) : Settled (t ++ u) := by
  unfold Settled
  rw [life_append hu, sends_append, hs]
  intro o ho hc
  rcases h o ho hc with hb | hf
  · exact ⟨hb.result, (hb.empty hzero).symm⟩
  · exact absurd hf.pos (by omega)

theorem spawnFails_of_acts {e : Event} (h : e.1.acts = false) : spawnFails e = false := by
  obtain ⟨c, r⟩ := e
  cases c <;> first | rfl | simp [Call.acts] at h

/-- How often a command reports itself. -/
theorem Commanded.sends_one {buf : Str} {argv : Argv} {argc : Nat} {flag : Bool} {u : Trace}
    (h : Commanded buf argv argc flag u) :
    sends u = 1 ↔ flag = true ∧ text buf (argv 0) ∉ builtins ∧ ∀ e ∈ u, spawnFails e = false := by
  rcases h with ⟨hb, hp⟩ | ⟨hb, child, v, rfl, -, ha, hv⟩
  · rw [sends_plain hp]
    exact ⟨fun h => absurd h (by omega), fun h => absurd hb h.2.1⟩
  have hspawn : sends (⟨.spawn (argv 0) ((List.range argc).map fun i => text buf (argv i)), child⟩ :: v) =
      sends v := rfl
  rw [hspawn, hv]
  constructor
  · intro h
    have hc : flag = true ∧ 0 ≤ child := by
      by_contra hno
      rw [if_neg hno] at h
      omega
    refine ⟨hc.1, hb, fun e he => ?_⟩
    rcases List.mem_cons.mp he with rfl | he
    · exact decide_eq_false (Int.not_lt.mpr hc.2)
    · exact spawnFails_of_acts (ha e he)
  · rintro ⟨hf, -, hs⟩
    have hc : 0 ≤ child := Int.not_lt.mp (of_decide_eq_false (hs _ List.mem_cons_self))
    rw [if_pos ⟨hf, hc⟩]

theorem Commanded.sends_zero {buf : Str} {argv : Argv} {argc : Nat} {u : Trace}
    (h : Commanded buf argv argc false u) : sends u = 0 := by
  rcases h with ⟨-, hp⟩ | ⟨-, child, v, rfl, -, -, hv⟩
  · exact sends_plain hp
  · have hspawn : sends (⟨.spawn (argv 0) ((List.range argc).map fun i => text buf (argv i)), child⟩ ::
        v) = sends v := rfl
    rw [hspawn, hv, if_neg (by simp)]

theorem Passed.commanded {argc : Nat} {argv : Argv} {g : Statics} {t u : Trace}
    (h : Passed argc argv g t) (hpos : 0 < argc) (hu : Commanded g.buf argv argc g.flag u) :
    ReportsOnce (t ++ u) := by
  unfold ReportsOnce Reports
  rw [life_append hu.stays]
  intro o ho hc
  rcases h o ho hc with hb | hf
  · obtain ⟨hblanks, hflag⟩ := hb.command hpos
    rw [hflag] at hu
    rw [if_pos hb.result, sends_append, hu.sends_zero, Nat.add_zero, hblanks]
  · have hne : o.frame.result ≠ 0 := by
      rw [← hf.argc]
      omega
    rw [if_neg hne, hf.calls, List.nil_append, hu.sends_one, hf.buf, hf.argv]
    exact and_iff_right hf.flag

theorem mute_stays (c : Call) (h : c.mute = true) : c.stays = true :=
  Call.stays_of_plain (Call.plain_of_mute h)

theorem mute_plain (c : Call) (h : c.mute = true) : c.plain = true := Call.plain_of_mute h

theorem last_taken {g : Statics} {f : Frame} {t t' : Trace} (ht : Adds Call.mute (taken g f t) t') :
    (life t').last = some ⟨g.nc, g.np1, f, g.next.buf⟩ := by
  obtain ⟨u, rfl, hu⟩ := ht
  rw [life_append fun e he => mute_stays _ (hu e he), life_taken]

theorem Settled.passed_eof {g g' : Statics} {f : Frame} {t : Trace} (h : Settled t)
    (hc : g.nc = .eof) (hg : g'.flag = false) : Passed f.result f.argv g' (Shell.taken g f t) := by
  unfold Passed
  intro o ho hcond
  rw [life_taken] at ho
  obtain ⟨hr, hs⟩ := h o ho hcond
  refine .inl ⟨hr, ?_, ?_⟩
  all_goals
    intro hargc
    rw [life_taken, sends_takes, hs, if_pos hc]
    unfold Taken.blank Taken.argc
    simp only [hc]
  · simp [hargc]
  · exact ⟨by rw [if_neg (by omega), Nat.add_zero], hg⟩

theorem Settled.passed_left {g g' : Statics} {f : Frame} {t t₁ t₂ : Trace} {r : Int} (h : Settled t)
    (hc : g.nc = .pipe) (ht : Adds Call.mute (Shell.taken g f t) t₁) (hr : r ≠ 0)
    (ht' : Adds Call.mute (t₁ ++ [⟨.fork, r⟩]) t₂) (hg : g'.flag = false) :
    Passed f.argc f.argv g' t₂ := by
  have h₁ := (h.taken (g := g) (by rw [hc]; simp) f).adds ht mute_plain
  have hlast := last_taken ht
  obtain ⟨u, rfl, hu⟩ := ht'
  have hu' : ∀ e ∈ u, e.1.stays = true := fun e he => mute_stays _ (hu e he)
  have hsend : sends u = 0 := sends_plain fun e he => mute_plain _ (hu e he)
  unfold Passed
  intro o ho hcond
  rw [life_append hu', life_parent _ hr] at ho
  obtain ⟨hres, hs⟩ := h₁ o ho hcond
  refine .inl ⟨hres, ?_, ?_⟩
  all_goals
    intro hargc
    rw [life_append hu', sends_append, hsend, Nat.add_zero, life_parent _ hr, sends_fork, hs, hlast,
      Option.elim_some, if_pos hc]
    unfold Taken.blank Taken.argc
    simp only [hc]
  · simp [hargc]
  · exact ⟨by rw [if_neg (by omega), Nat.add_zero], hg⟩

theorem passed_tested {g g' : Statics} {f : Frame} {t : Trace} (hc : g.nc = .and ∨ g.nc = .or)
    (hflag : g'.flag = true) (hbuf : g'.buf = g.next.buf) :
    Passed f.result f.argv g' (taken g f t ++ [⟨.fork, (0 : Int)⟩]) := by
  have hargc : Taken.argc ⟨g.nc, g.np1, f, g.next.buf⟩ = f.result := by
    rcases hc with hc | hc <;> simp only [Taken.argc, hc]
  have hpipe : g.nc ≠ .pipe := by rcases hc with hc | hc <;> rw [hc] <;> simp
  have hlife := life_child (taken g f t)
  rw [life_taken, Option.elim_some, if_neg hpipe] at hlife
  intro o ho _
  rw [hlife] at ho
  obtain rfl := Option.some.inj ho
  rcases Nat.eq_zero_or_pos f.result with hzero | hpos
  · refine .inl ⟨hzero, fun _ => ?_, fun h => absurd h (by omega)⟩
    rw [hlife, Taken.blank, hargc]
    simp [hzero, sends]
  · exact .inr ⟨hpos, by rw [hlife], hflag, rfl, rfl, hbuf⟩

theorem reports_keeps : Keeps (fun _ _ t => Settled t)
    (fun _ argc argv g t => Passed argc argv g t) ReportsOnce where
  eof h hc := h.passed_eof hc rfl
  word h hc _ := h.taken (by rw [hc]; simp) _
  full h hc _ ht := ((h.taken (by rw [hc]; simp) _).adds ht mute_plain).reportsOnce
  redirect h hc ht := by
    have hs := (h.taken (by rintro heq; simp [heq, Tok.redirects] at hc) _).adds ht fun _ h => h
    exact ⟨hs, hs.reportsOnce⟩
  paren h hc := h.taken (by rw [hc]; simp) _
  noPipe h hc _ ht :=
    (((h.taken (by rw [hc]; simp) _).append (by simp [Call.plain, Call.stays, Call.isSend])).adds ht
      mute_plain).reportsOnce
  left h hc ht hr ht' := h.passed_left hc ht hr ht' rfl
  right := by
    intro d f g t t₁ t₂ _ hc ht ht'
    refine (settled_child fun o ho => ?_).adds ht' mute_plain
    rw [last_taken ht] at ho
    obtain rfl := Option.some.inj ho
    simp [Taken.conditional, hc]
  listed := by
    intro d f g g' t _ hc _ o ho hcond
    rw [life_child, life_taken] at ho
    obtain rfl := Option.some.inj ho
    rcases hc with hc | hc <;> simp [Taken.conditional, hc] at hcond
  list := by
    intro d f g t t' r h hc hr ht
    refine ((h.taken (by rcases hc with hc | hc <;> rw [hc] <;> simp) f).parent hr fun o ho => ?_).adds ht
      mute_plain
    rw [life_taken] at ho
    obtain rfl := Option.some.inj ho
    rcases hc with hc | hc <;> simp [hc]
  tested h hc := passed_tested hc rfl rfl
  test := by
    intro d f g t r v mark h hc hr
    refine ((h.taken (by rcases hc with hc | hc <;> rw [hc] <;> simp) f).parent hr fun o ho => ?_).append
      (by simp [Call.plain, Call.stays, Call.isSend])
    rw [life_taken] at ho
    obtain rfl := Option.some.inj ho
    rcases hc with hc | hc <;> simp [hc]
  inner h hc := (h.taken (by rw [hc]; simp) _).append (by simp [Call.plain, Call.stays, Call.isSend])
  outerReported h h0 := h.settled rfl (by simp [Call.stays]) (by rw [if_pos h0]; rfl)
  outerSilent := by
    intro d f argv g t h h0
    have := h.settled (u := []) rfl (by simp) (by rw [h0]; rfl)
    rwa [List.append_nil] at this
  halt h hpos _ hu := h.commanded hpos hu
  reported := by
    intro argv g t r h h0
    rw [List.append_assoc]
    exact (h.settled rfl (by simp [Call.stays]) (by rw [if_pos h0]; rfl)).reportsOnce
  silent h h0 :=
    (h.settled rfl (by simp [Call.stays]) (by rw [h0]; rfl)).reportsOnce

/-! ## Every line shell -/

/-- In every world a line shell stops, and if its process is a subshell that was forked at `&&` or
`||`, it has reported once if and only if `Reports` holds. -/
theorem subshell_reports_once (buf : Str) (w : Proc.World Call Reply) :
    ∃ (t : Trace) (e : Stop) (g : Statics),
      lineRun buf w = (t, .error e, g) ∧ e ≠ .outOfFuel ∧
      ∀ o, (life t).origin = some o → o.conditional →
        (sends (life t).calls = 1 ↔ Reports o t) := by
  have h := reports_keeps.lineShell buf (by
    intro t argv ht
    have hs : Settled t := by
      obtain ⟨u, rfl, hu⟩ := ht
      have hstart : Settled [] := fun o ho => absurd ho nofun
      exact hstart.append hu
    exact ⟨hs.reportsOnce, hs⟩)
  rcases hr : lineRun buf w with ⟨t, e | a, g⟩
  · obtain ⟨he, hh⟩ := Lib.always_run_error h hr
    exact ⟨t, e, g, rfl, he, hh⟩
  · exact (Lib.always_run_ok h hr).elim

/-- A world where every call succeeds and `fork` returns `child`. -/
def calm (child : Int) : Proc.World Call Reply := fun _ c =>
  match c with
  | .takes .. | .printJobs | .createJob .. | .killJob _ | .printHistory | .debugf _ | .printf _
  | .closeAll => ()
  | .uninit => fun _ => none
  | .stat _ => (0, 0)
  | .fstat _ => (0, 0)
  | .pipe => (0, 3, 4)
  | .fork => child
  | .runnable _ => true
  | .spawn .. => (5 : Int)
  | .open .. | .close _ | .dup .. | .seek .. | .write .. | .wait _ | .recvReturnValue
  | .sendReturnValue _ | .fgJob _ => (0 : Int)

/-- The subshell of `jobs` in `jobs && true` exits without a report. -/
theorem builtin_subshell_silent :
    ¬ ∀ (buf : Str) (w : Proc.World Call Reply) (o : Taken),
      (life (lineRun buf w).1).origin = some o → o.conditional →
        sends (life (lineRun buf w).1).calls = 1 := by
  intro h
  have hrun : (life (lineRun (bytes "jobs && true") (calm 0)).1).origin.map (·.token) = some .and ∧
      sends (life (lineRun (bytes "jobs && true") (calm 0)).1).calls = 0 := by
    decide +kernel
  obtain ⟨o, ho, hc⟩ := Option.map_eq_some_iff.mp hrun.1
  have := h (bytes "jobs && true") (calm 0) o ho (Or.inl hc)
  omega

end Mos.Shell
