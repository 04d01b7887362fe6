import Mos.Shell.Parse

/-!
# What each function of the shell does

One specification for each function below `parsecmd`, and how many tokens `parsecmd` takes
at most, so that it has an end in every world.
-/

namespace Mos.Shell

open Lib (Proc always always_bind always_call always_ite always_pure always_throw always_get always_set
  always_modify always_mono)

abbrev Event := (c : Call) × Reply c

abbrev Trace := List Event

/-! ## Kinds of calls -/

def Call.isSend : Call → Bool
  | .sendReturnValue _ => true
  | _ => false

/-- A command is run, or a file of a redirection opened. -/
def Call.acts : Call → Bool
  | .open .. | .spawn .. | .printJobs | .fgJob _ | .killJob _ | .printHistory => true
  | _ => false

/-- Neither a new process nor a new token. -/
def Call.stays : Call → Bool
  | .takes .. | .fork => false
  | _ => true

def Call.plain (c : Call) : Bool := c.stays && !c.isSend

def Call.mute (c : Call) : Bool := c.plain && !c.acts

def sends (t : Trace) : Nat := t.countP (·.1.isSend)

theorem sends_append (t u : Trace) : sends (t ++ u) = sends t + sends u := List.countP_append

theorem sends_plain {t : Trace} (h : ∀ e ∈ t, e.1.plain = true) : sends t = 0 := by
  refine List.countP_eq_zero.mpr fun e he => ?_
  have := h e he
  unfold Call.plain at this
  simp only [Bool.and_eq_true, Bool.not_eq_true'] at this
  simp [this.2]

theorem Call.stays_of_plain {c : Call} (h : c.plain = true) : c.stays = true := by
  unfold Call.plain at h
  exact (Bool.and_eq_true_iff.mp h).1

theorem Call.plain_of_mute {c : Call} (h : c.mute = true) : c.plain = true := by
  unfold Call.mute at h
  exact (Bool.and_eq_true_iff.mp h).1

theorem Call.acts_of_mute {c : Call} (h : c.mute = true) : c.acts = false := by
  unfold Call.mute at h
  simpa using (Bool.and_eq_true_iff.mp h).2

/-- `t'` is `t` and then calls of the kind `S`. -/
def Adds (S : Call → Bool) (t t' : Trace) : Prop := ∃ u, t' = t ++ u ∧ ∀ e ∈ u, S e.1 = true

section Adds

variable {S : Call → Bool} {t t' t'' : Trace}

theorem Adds.refl (t : Trace) : Adds S t t := ⟨[], by simp, by simp⟩

theorem Adds.trans (h : Adds S t t') (h' : Adds S t' t'') : Adds S t t'' := by
  obtain ⟨u, rfl, hu⟩ := h
  obtain ⟨u', rfl, hu'⟩ := h'
  refine ⟨u ++ u', by simp, ?_⟩
  intro e he
  rcases List.mem_append.mp he with he | he
  · exact hu e he
  · exact hu' e he

theorem Adds.snoc (h : Adds S t t') {e : Event} (he : S e.1 = true) : Adds S t (t' ++ [e]) :=
  h.trans ⟨[e], rfl, by simpa using he⟩

end Adds

/-! ## The functions below `parsecmd` -/

/-- The pointers of the statics agree with the token they belong to. -/
structure Statics.Sound (g : Statics) : Prop where
  word : g.nc ≠ .eof → g.np1.isSome = true
  eof : g.nc = .eof → g.np2 = none
  moves : g.nc ≠ .eof → ∃ e, g.np2 = some e ∧ e ≤ g.buf.length + 1

/-- A bound for the tokens still to come. -/
def Statics.ahead (g : Statics) : Nat :=
  (backquotes g.buf + if g.nc = .backquote then 1 else 0) * (g.buf.length + 3) +
    left g.buf.length g.np2

theorem scanned_sound {g : Statics} {r : Scanned} {s : Nat} (h : r.Fits g.buf s) :
    (g.scanned r).Sound := by
  refine ⟨h.word, h.eof, ?_⟩
  intro hne
  obtain ⟨e, he, -, hle⟩ := h.moves hne
  refine ⟨e, he, ?_⟩
  have hlen : (g.scanned r).buf.length = g.buf.length := h.length
  omega

theorem ahead_scanned {g : Statics} {r : Scanned} {s : Nat} (h : r.Fits g.buf s) :
    (g.scanned r).ahead ≤ backquotes g.buf * (g.buf.length + 3) + (g.buf.length + 1 - s) := by
  have hq := Nat.mul_le_mul_right (g.buf.length + 3) h.quotes
  have hl : left g.buf.length r.p2 ≤ g.buf.length + 1 - s := by
    unfold left
    by_cases he : r.tok = .eof
    · rw [h.eof he]
      exact Nat.zero_le _
    · obtain ⟨e, he, hse, -⟩ := h.moves he
      rw [he, Option.elim_some]
      omega
  have heq : (g.scanned r).ahead =
      (backquotes r.buf + if r.tok = .backquote then 1 else 0) * (r.buf.length + 3) +
        left r.buf.length r.p2 := rfl
  rw [heq, h.length]
  omega

/-- The state after `gettoken`. -/
def Statics.next (g : Statics) : Statics := g.scanned (_gettoken g.buf g.np2)

theorem next_sound (g : Statics) : g.next.Sound := by
  unfold Statics.next
  rcases hp : g.np2 with _ | s
  · exact ⟨fun h => absurd rfl h, fun _ => rfl, fun h => absurd rfl h⟩
  · exact scanned_sound (gettoken_fits g.buf s)

theorem next_ahead {g : Statics} (h : g.Sound) (hne : g.nc ≠ .eof) :
    g.next.ahead + 1 + (if g.nc = .backquote then g.buf.length + 3 else 0) ≤ g.ahead := by
  obtain ⟨e, he, hle⟩ := h.moves hne
  have hs := ahead_scanned (gettoken_fits g.buf e)
  have hg : g.ahead = backquotes g.buf * (g.buf.length + 3) +
      (if g.nc = .backquote then g.buf.length + 3 else 0) + (g.buf.length + 2 - e) := by
    unfold Statics.ahead left
    rw [he, Option.elim_some, Nat.add_mul]
    split <;> omega
  unfold Statics.next
  rw [he, hg]
  omega

theorem next_ahead_le {g : Statics} (h : g.Sound) : g.next.ahead ≤ g.ahead := by
  by_cases hc : g.nc = .eof
  · have hg : g.next = { g with nc := .eof, np1 := none, np2 := none } := by
      unfold Statics.next
      rw [h.eof hc]
      rfl
    rw [hg]
    unfold Statics.ahead left
    simp only [hc, reduceCtorEq, if_false, Option.elim_none]
    omega
  · have := next_ahead h hc
    omega

/-- At least one token has gone since `g`. -/
def Later (g g' : Statics) : Prop := g'.Sound ∧ g'.ahead + 1 ≤ g.ahead

theorem later_next {g : Statics} (h : g.Sound) (hne : g.nc ≠ .eof) : Later g g.next := by
  have := next_ahead h hne
  exact ⟨next_sound g, by omega⟩

theorem Later.setFlag {g g' : Statics} (h : Later g g') (flag : Bool) : Later g (g'.setFlag flag) :=
  ⟨⟨h.1.word, h.1.eof, h.1.moves⟩, h.2⟩

theorem Later.setJobFlag {g g' : Statics} (h : Later g g') (jobFlag : Bool) :
    Later g (g'.setJobFlag jobFlag) :=
  ⟨⟨h.1.word, h.1.eof, h.1.moves⟩, h.2⟩

theorem Later.next {g g' : Statics} (h : Later g g') : Later g g'.next := by
  have := next_ahead_le h.1
  exact ⟨next_sound g', by have := h.2; omega⟩

theorem next_length {g : Statics} : g.next.buf.length = g.buf.length := by
  unfold Statics.next
  rcases g.np2 with _ | s
  · rfl
  · exact (gettoken_fits g.buf s).length

section

variable {E : Stop → Statics → Trace → Prop} {g : Statics} {t : Trace}

theorem always_exit {Q : α → Statics → Trace → Prop} :
    always (exit : Sh α) Q E g t ↔ ∀ r : Reply .closeAll, E .exited g (t ++ [⟨.closeAll, r⟩]) := by
  unfold exit
  simp only [always_bind, always_call, always_throw]

theorem always_gettoken {Q : Tok × Ptr → Statics → Trace → Prop} :
    always gettoken Q E g t ↔ Q (g.nc, g.np1) g.next t := by
  unfold gettoken Statics.next
  simp only [always_bind, always_get, always_set, always_pure]

theorem always_string {Q : Str → Statics → Trace → Prop} {p : Ptr} :
    always (string p) Q E g t ↔
      (∀ s, p = some s → Q (cstr g.buf s) g t) ∧ (p = none → E .fault g t) := by
  unfold string
  rcases p with _ | s
  · simp only [always_throw, reduceCtorEq, false_implies, implies_true, true_and, forall_const]
  · simp only [always_bind, always_get, always_pure, Option.some.injEq, forall_eq', reduceCtorEq,
      false_implies, and_true]

end

/-- A program that only calls: it leaves the statics as `g'` when it returns. -/
def Calls (x : Sh α) (S : Call → Bool) (g g' : Statics) : Prop :=
  ∀ t, always x (fun _ s t' => s = g' ∧ Adds S t t') (fun e _ t' => e ≠ .outOfFuel ∧ Adds S t t') g t

theorem Calls.always {x : Sh α} {S : Call → Bool} {g g' : Statics} (h : Calls x S g g')
    {Q : α → Statics → Trace → Prop} {E : Stop → Statics → Trace → Prop} {t : Trace}
    (hQ : ∀ a t', Adds S t t' → Q a g' t')
    (hE : ∀ e s t', e ≠ .outOfFuel → Adds S t t' → E e s t') : always x Q E g t := by
  refine always_mono (h t) ?_ ?_
  · rintro a s t' ⟨rfl, ht⟩
    exact hQ a t' ht
  · rintro e s t' ⟨he, ht⟩
    exact hE e s t' he ht

theorem exited_ne : Stop.exited ≠ .outOfFuel := by simp

theorem fault_ne : Stop.fault ≠ .outOfFuel := by simp

theorem redirectTo_calls (fd newfd : Int) (msg : String) (g : Statics) :
    Calls (redirectTo fd newfd msg) Call.plain g g := by
  intro t
  unfold redirectTo
  simp only [always_bind, always_call, always_ite, always_pure, always_exit]
  intro r
  have h0 : Adds Call.plain t (t ++ [⟨.dup fd newfd, r⟩]) := (Adds.refl t).snoc rfl
  refine ⟨fun _ r' r'' => ?_, fun _ r' => ?_⟩
  · exact ⟨exited_ne, (h0.snoc rfl).snoc rfl⟩
  · exact ⟨trivial, h0.snoc rfl⟩

theorem openTarget_calls (mode : Nat) (notWord failed : String) (g : Statics) :
    Calls (openTarget mode notWord failed) Call.plain g g.next := by
  intro t
  unfold openTarget
  simp only [always_bind, always_call, always_ite, always_pure, always_exit, always_gettoken,
    always_string]
  refine ⟨fun _ r r' => ⟨exited_ne, ((Adds.refl t).snoc rfl).snoc rfl⟩, fun _ => ⟨?_, ?_⟩⟩
  · intro s _ r
    have h0 : Adds Call.plain t (t ++ [⟨.open (cstr g.next.buf s) mode, r⟩]) :=
      (Adds.refl t).snoc rfl
    refine ⟨fun _ r' r'' => ⟨exited_ne, (h0.snoc rfl).snoc rfl⟩, fun _ => ⟨trivial, h0⟩⟩
  · exact fun _ => ⟨fault_ne, Adds.refl t⟩

theorem redirectIn_calls (g : Statics) : Calls redirectIn Call.plain g g.next := by
  intro t
  unfold redirectIn
  rw [always_bind]
  refine (openTarget_calls _ _ _ g).always (fun fd t' ht => ?_) (fun e s t' he ht => ⟨he, ht⟩)
  exact (redirectTo_calls _ _ _ _).always (fun _ t'' ht' => ⟨rfl, ht.trans ht'⟩)
    (fun e s t'' he ht' => ⟨he, ht.trans ht'⟩)

theorem redirectOut_calls (g : Statics) : Calls redirectOut Call.plain g g.next := by
  intro t
  unfold redirectOut
  rw [always_bind]
  refine (openTarget_calls _ _ _ g).always (fun fd t' ht => ?_) (fun e s t' he ht => ⟨he, ht⟩)
  exact (redirectTo_calls _ _ _ _).always (fun _ t'' ht' => ⟨rfl, ht.trans ht'⟩)
    (fun e s t'' he ht' => ⟨he, ht.trans ht'⟩)

theorem redirectAppend_calls (g : Statics) : Calls redirectAppend Call.plain g g.next := by
  intro t
  unfold redirectAppend
  rw [always_bind]
  refine (openTarget_calls _ _ _ g).always (fun fd t' ht => ?_) (fun e s t' he ht => ⟨he, ht⟩)
  simp only [always_bind, always_call, always_ite, always_exit]
  intro r
  have h0 : Adds Call.plain t (t' ++ [⟨.fstat fd, r⟩]) := ht.snoc rfl
  refine ⟨fun _ r' r'' => ⟨exited_ne, (h0.snoc rfl).snoc rfl⟩, fun _ r' => ?_⟩
  have h1 : Adds Call.plain t (t' ++ [⟨.fstat fd, r⟩] ++ [⟨.seek fd r.2, r'⟩]) := h0.snoc rfl
  exact (redirectTo_calls _ _ _ _).always (fun _ t'' ht' => ⟨rfl, h1.trans ht'⟩)
    (fun e s t'' he ht' => ⟨he, h1.trans ht'⟩)

theorem Adds.mono {S S' : Call → Bool} {t t' : Trace} (h : Adds S t t')
    (hS : ∀ c, S c = true → S' c = true) : Adds S' t t' := by
  obtain ⟨u, rfl, hu⟩ := h
  exact ⟨u, rfl, fun e he => hS _ (hu e he)⟩

/-- A call on a file, or a message. -/
def Call.onFile : Call → Bool
  | .open .. | .close _ | .stat _ | .seek .. | .write .. | .printf _ => true
  | _ => false

theorem Call.plain_of_onFile (c : Call) (h : c.onFile = true) : c.plain = true := by
  cases c
  all_goals first | rfl | cases h

theorem saveHistoryCmd_onFile (cmd : Str) (g : Statics) (t : Trace) :
    always (saveHistoryCmd cmd) (fun _ g' t' => g' = g ∧ Adds Call.onFile t t')
      (fun _ _ _ => False) g t := by
  unfold saveHistoryCmd
  simp only [always_bind, always_call, always_ite, always_pure]
  intro r
  have h0 : Adds Call.onFile t (t ++ [⟨.open historyFile O_WRONLY, r⟩]) := (Adds.refl t).snoc rfl
  refine ⟨fun _ r' r1 r2 r3 r4 r5 => ⟨trivial, ?_⟩, fun _ r1 r2 r3 r4 r5 => ⟨trivial, ?_⟩⟩
  · exact (((((h0.snoc rfl).snoc rfl).snoc rfl).snoc rfl).snoc rfl).snoc rfl
  · exact ((((h0.snoc rfl).snoc rfl).snoc rfl).snoc rfl).snoc rfl

theorem saveHistoryCmd_calls (cmd : Str) (g : Statics) :
    Calls (saveHistoryCmd cmd) Call.plain g g := fun t =>
  always_mono (saveHistoryCmd_onFile cmd g t)
    (fun _ _ _ ⟨hg, ht⟩ => ⟨hg, ht.mono Call.plain_of_onFile⟩) fun _ _ _ => False.elim

/-! ## `runcmd` after `parsecmd` -/

theorem finish_nothing (argv : Argv) (rightpipe : Int) {Q : Unit → Statics → Trace → Prop}
    {E : Stop → Statics → Trace → Prop} {g : Statics} {t : Trace} :
    always (finish 0 argv rightpipe) Q E g t ↔
      ((argv 0).isSome = true → ∀ r : Int, Q () g (t ++ [⟨.sendReturnValue 0, r⟩])) ∧
        (¬ (argv 0).isSome = true → Q () g t) := by
  unfold finish
  rw [if_pos rfl, always_ite]
  simp only [always_bind, always_call, always_pure]

def Words (argv : Argv) (argc : Nat) : Prop := ∀ i < argc, (argv i).isSome = true

def text (buf : Str) (p : Ptr) : Str := p.elim [] (cstr buf)

theorem always_args {argv : Argv} {argc : Nat} (h : Words argv argc)
    {Q : List Str → Statics → Trace → Prop} {E : Stop → Statics → Trace → Prop} {g : Statics}
    {t : Trace} :
    always (args argv argc) Q E g t ↔ Q ((List.range argc).map fun i => text g.buf (argv i)) g t := by
  have hl : ∀ i ∈ List.range argc, (argv i).isSome = true := fun i hi => h i (List.mem_range.mp hi)
  unfold args
  generalize List.range argc = l at hl
  induction l generalizing Q with
  | nil => simp only [List.mapM_nil, always_pure, List.map_nil]
  | cons i l ih =>
    obtain ⟨s, hs⟩ := Option.isSome_iff_exists.mp (hl i List.mem_cons_self)
    simp only [List.mapM_cons, always_bind, always_pure, always_string, hs]
    have := ih (fun j hj => hl j (List.mem_cons_of_mem _ hj))
      (Q := fun b s' t' => Q (cstr g.buf s :: b) s' t')
    simpa [text, hs] using this

/-- The process stops without a report, after a call at most. -/
def Stops (x : Sh α) (S : Call → Bool) (g : Statics) : Prop :=
  ∀ t, always x (fun _ _ _ => False) (fun e _ t' => e ≠ .outOfFuel ∧ Adds S t t') g t

theorem Calls.thenExit {x : Sh α} {g g' : Statics} (h : Calls x Call.plain g g') :
    Stops (do let _ ← x; exit : Sh Unit) Call.plain g := by
  intro t
  rw [always_bind]
  refine h.always (fun _ t' ht => ?_) (fun e s t' he ht => ⟨he, ht⟩)
  rw [always_exit]
  exact fun r => ⟨nofun, ht.snoc rfl⟩

theorem call_calls (c : Call) (hc : c.plain = true) (g : Statics) : Calls (call c) Call.plain g g := by
  intro t
  rw [always_call]
  exact fun r => ⟨rfl, (Adds.refl t).snoc hc⟩

theorem executeFg_calls (jobId : Int) (g : Statics) : Calls (executeFg jobId) Call.plain g g := by
  intro t
  unfold executeFg
  simp only [always_bind, always_call, always_ite, always_pure]
  intro r
  have h0 : Adds Call.plain t (t ++ [⟨.fgJob jobId, r⟩]) := (Adds.refl t).snoc rfl
  refine ⟨fun _ r' => ⟨trivial, h0.snoc rfl⟩, fun _ r' => ?_⟩
  have h1 : Adds Call.plain t (t ++ [⟨.fgJob jobId, r⟩] ++ [⟨.runnable r, r'⟩]) := h0.snoc rfl
  exact ⟨fun _ r'' => ⟨trivial, h1.snoc rfl⟩, fun _ r'' => ⟨trivial, h1.snoc rfl⟩⟩

theorem jobCommand_stops {x : Int → Sh Unit} {g : Statics} (h : ∀ i, Calls (x i) Call.plain g g)
    (p : Ptr) : Stops (do x (parseJobId (← string p)); exit : Sh Unit) Call.plain g := by
  intro t
  rw [always_bind, always_string]
  exact ⟨fun s _ => (h _).thenExit t, fun _ => ⟨nofun, Adds.refl t⟩⟩

def builtins : List Str := [bytes "jobs", bytes "fg", bytes "kill", bytes "history"]

theorem runBuiltin_spec (prog : Str) (argv : Argv) (g : Statics) (t : Trace) :
    always (runBuiltin prog argv) (fun _ g' t' => g' = g ∧ t' = t ∧ prog ∉ builtins)
      (fun e _ t' => e ≠ .outOfFuel ∧ prog ∈ builtins ∧ Adds Call.plain t t') g t := by
  have hstop : ∀ {x : Sh Unit}, Stops x Call.plain g → prog ∈ builtins →
      always x (fun _ g' t' => g' = g ∧ t' = t ∧ prog ∉ builtins)
        (fun e _ t' => e ≠ .outOfFuel ∧ prog ∈ builtins ∧ Adds Call.plain t t') g t :=
    fun h hp => always_mono (h t) (fun _ _ _ => False.elim) (fun e _ t' he => ⟨he.1, hp, he.2⟩)
  unfold runBuiltin
  simp only [always_ite]
  refine ⟨fun h => ?_, fun hj => ⟨fun h => ?_, fun hf => ⟨fun h => ?_, fun hk => ⟨fun h => ?_, fun hh => ?_⟩⟩⟩⟩
  · exact hstop (call_calls _ rfl g).thenExit (by simp [h, builtins])
  · exact hstop (jobCommand_stops (fun i => executeFg_calls i g) _) (by simp [h, builtins])
  · exact hstop (jobCommand_stops (fun i => call_calls _ rfl g) _) (by simp [h, builtins])
  · exact hstop (call_calls _ rfl g).thenExit (by simp [h, builtins])
  · rw [always_pure]
    exact ⟨rfl, rfl, by simp [builtins, hj, hf, hk, hh]⟩

/-- What `report` calls: one report if there is a child and the token before asks for it. -/
def Reported (child : Int) (flag : Bool) (v : Trace) : Prop :=
  (∀ e ∈ v, e.1.stays = true) ∧ (∀ e ∈ v, e.1.acts = false) ∧
    sends v = if flag = true ∧ 0 ≤ child then 1 else 0

/-- The calls `u` of a process that was left with an external command: `spawn` and, if the token
before was `&&` or `||`, a report if there is a child. -/
def Spawned (prog : Ptr) (words : List Str) (flag : Bool) (u : Trace) : Prop :=
  ∃ (child : Int) (v : Trace), u = ⟨.spawn prog words, child⟩ :: v ∧ Reported child flag v

theorem Spawned.append {prog : Ptr} {words : List Str} {flag : Bool} {u w : Trace}
    (h : Spawned prog words flag u) (hw : ∀ e ∈ w, e.1.mute = true) :
    Spawned prog words flag (u ++ w) := by
  obtain ⟨child, v, rfl, hs, ha, hf⟩ := h
  refine ⟨child, v ++ w, rfl, ?_, ?_, ?_⟩
  · intro e he
    rcases List.mem_append.mp he with he | he
    · exact hs e he
    · exact Call.stays_of_plain (Call.plain_of_mute (hw e he))
  · intro e he
    rcases List.mem_append.mp he with he | he
    · exact ha e he
    · exact Call.acts_of_mute (hw e he)
  · rw [sends_append, sends_plain fun e he => Call.plain_of_mute (hw e he), hf, Nat.add_zero]

theorem waitRight_calls (rightpipe : Int) (g : Statics) :
    Calls (waitRight rightpipe) Call.mute g g := by
  intro t
  unfold waitRight
  simp only [always_ite, always_bind, always_call, always_pure]
  exact ⟨fun _ r => ⟨trivial, (Adds.refl t).snoc rfl⟩, fun _ => ⟨trivial, Adds.refl t⟩⟩

theorem report_spec (child : Int) (g : Statics) (t : Trace) :
    always (report child) (fun _ g' t' => g' = g ∧ ∃ v, t' = t ++ v ∧ Reported child g.flag v)
      (fun _ _ _ => False) g t := by
  unfold report Reported
  simp only [always_bind, always_get, always_ite, always_call, always_pure]
  refine ⟨fun hc r => ?_, fun hc => ⟨fun hf r r' => ?_, fun hf => ⟨fun _ r r' => ?_, fun _ r => ?_⟩⟩⟩
  · have : ¬ 0 ≤ child := by omega
    exact ⟨trivial, [⟨_, r⟩], rfl, by simp [Call.stays], by simp [Call.acts], by simp [this, sends, Call.isSend]⟩
  · have : 0 ≤ child := by omega
    exact ⟨trivial, [⟨.recvReturnValue, r⟩, ⟨.sendReturnValue r, r'⟩], by simp, by simp [Call.stays],
      by simp [Call.acts], by simp [this, hf, sends, Call.isSend]⟩
  · exact ⟨trivial, [⟨.createJob child g.cmd, r⟩, ⟨.recvReturnValue, r'⟩], by simp,
      by simp [Call.stays], by simp [Call.acts], by simp [hf, sends, Call.isSend]⟩
  · exact ⟨trivial, [⟨.recvReturnValue, r⟩], rfl, by simp [Call.stays], by simp [Call.acts],
      by simp [hf, sends, Call.isSend]⟩

theorem runExternal_spec {argc : Nat} {argv : Argv} (h : Words argv argc) (rightpipe : Int)
    (g : Statics) (t : Trace) :
    always (runExternal argc argv rightpipe) (fun _ _ _ => False)
      (fun e _ t' => e ≠ .outOfFuel ∧ ∃ u, t' = t ++ u ∧ Spawned (argv 0)
        ((List.range argc).map fun i => text g.buf (argv i)) g.flag u) g t := by
  unfold runExternal
  rw [always_bind, always_args h, always_bind, always_call]
  intro child
  generalize (List.range argc).map (fun i => text g.buf (argv i)) = words
  rw [always_bind]
  refine always_mono (report_spec child g _) ?_ (fun _ _ _ => False.elim)
  rintro ⟨⟩ g' t₁ ⟨rfl, v, rfl, hv⟩
  have h0 : Spawned (argv 0) words g'.flag (⟨.spawn (argv 0) words, child⟩ :: v) :=
    ⟨child, v, rfl, hv⟩
  rw [always_bind]
  refine (waitRight_calls rightpipe g').always (fun _ t₂ ht => ?_) (fun e _ t₂ he ht => ?_)
  · obtain ⟨w, rfl, hw⟩ := ht
    rw [always_bind, always_call]
    intro r
    rw [always_exit]
    refine fun r' => ⟨nofun, _, ?_, (h0.append hw).append (w := [⟨.closeAll, r⟩, ⟨.closeAll, r'⟩]) ?_⟩
    · simp
    · simp [Call.mute, Call.plain, Call.stays, Call.isSend, Call.acts]
  · obtain ⟨w, rfl, hw⟩ := ht
    exact ⟨he, _, by simp, h0.append hw⟩

/-- What a process calls that was left with the command `argv[0..argc-1]`. -/
def Commanded (buf : Str) (argv : Argv) (argc : Nat) (flag : Bool) (u : Trace) : Prop :=
  (text buf (argv 0) ∈ builtins ∧ ∀ e ∈ u, e.1.plain = true) ∨
    (text buf (argv 0) ∉ builtins ∧
      Spawned (argv 0) ((List.range argc).map fun i => text buf (argv i)) flag u)

theorem Commanded.stays {buf : Str} {argv : Argv} {argc : Nat} {flag : Bool} {u : Trace}
    (h : Commanded buf argv argc flag u) : ∀ e ∈ u, e.1.stays = true := by
  rcases h with ⟨-, h⟩ | ⟨-, child, v, rfl, hv, -⟩
  · exact fun e he => Call.stays_of_plain (h e he)
  · intro e he
    rcases List.mem_cons.mp he with rfl | he
    · rfl
    · exact hv e he

theorem finish_command {argc : Nat} {argv : Argv} (hpos : 0 < argc) (h : Words argv argc)
    (rightpipe : Int) (g : Statics) (t : Trace) :
    always (finish argc argv rightpipe) (fun _ _ _ => False)
      (fun e _ t' => e ≠ .outOfFuel ∧ ∃ u, t' = t ++ u ∧ Commanded g.buf argv argc g.flag u) g t := by
  have hlt : ∀ i < argc, Function.update argv argc none i = argv i := fun i hi =>
    Function.update_of_ne (by omega) ..
  have hw : Words (Function.update argv argc none) argc := by
    intro i hi
    rw [hlt i hi]
    exact h i hi
  have hwords : ((List.range argc).map fun i => text g.buf (Function.update argv argc none i)) =
      (List.range argc).map fun i => text g.buf (argv i) := by
    refine List.map_congr_left fun i hi => ?_
    rw [hlt i (List.mem_range.mp hi)]
  obtain ⟨s, hs⟩ := Option.isSome_iff_exists.mp (h 0 hpos)
  have htext : text g.buf (argv 0) = cstr g.buf s := by
    rw [hs]
    rfl
  unfold finish
  rw [if_neg (by omega), always_bind, always_string, hlt 0 hpos]
  refine ⟨fun s' hs' => ?_, fun hn => absurd (hn.symm.trans hs) nofun⟩
  obtain rfl : s = s' := Option.some.inj (hs.symm.trans hs')
  rw [always_bind]
  refine always_mono (runBuiltin_spec _ _ g t) ?_ ?_
  · rintro ⟨⟩ g' t' ⟨rfl, rfl, hb⟩
    refine always_mono (runExternal_spec hw rightpipe g' t') (fun _ _ _ => False.elim) ?_
    rintro e g'' t'' ⟨he, u, rfl, hu⟩
    rw [hlt 0 hpos, hwords] at hu
    exact ⟨he, u, rfl, Or.inr ⟨htext ▸ hb, hu⟩⟩
  · rintro e g' t' ⟨he, hb, u, rfl, hu⟩
    exact ⟨he, u, rfl, Or.inl ⟨htext ▸ hb, hu⟩⟩

/-! ## The loop of `parsecmd` -/

theorem words_push {f : Frame} {p : Ptr} (h : Words f.argv f.argc) (hp : p.isSome = true) :
    Words (f.push p).argv (f.push p).argc := by
  intro i hi
  unfold Frame.push at hi ⊢
  simp only at hi ⊢
  by_cases hif : i = f.argc
  · rw [hif]
    simpa using hp
  · rw [Function.update_of_ne hif]
    exact h i (by omega)

theorem words_result {f : Frame} (h : Words f.argv f.argc) : Words f.argv f.result := by
  intro i hi
  unfold Frame.result at hi
  split at hi
  · exact h i hi
  · omega

theorem words_none (argv : Argv) : Words argv 0 := by
  intro i hi
  omega

/-- The statics after `runcmd` has handed the line at `s` to the lexer. -/
def Statics.atLine (g : Statics) (s : Nat) : Statics :=
  let buf := g.buf.set (scan (fun c => c != 0 && c != ch '#') g.buf s) 0
  { g with buf := buf }.scanned (_gettoken buf (some s))

theorem atLine_sound (g : Statics) (s : Nat) : (g.atLine s).Sound :=
  scanned_sound (g := { g with buf := _ }) (gettoken_fits _ s)

theorem atLine_ahead (g : Statics) (s : Nat) :
    (g.atLine s).ahead ≤ backquotes g.buf * (g.buf.length + 3) + (g.buf.length + 1) := by
  have h := ahead_scanned (g := { g with
    buf := g.buf.set (scan (fun c => c != 0 && c != ch '#') g.buf s) 0 }) (gettoken_fits _ s)
  have hb := Nat.mul_le_mul_right (g.buf.length + 3)
    (backquotes_set g.buf (scan (fun c => c != 0 && c != ch '#') g.buf s))
  have heq : (g.atLine s).ahead = ({ g with
    buf := g.buf.set (scan (fun c => c != 0 && c != ch '#') g.buf s) 0 }.scanned
      (_gettoken (g.buf.set (scan (fun c => c != 0 && c != ch '#') g.buf s) 0) (some s))).ahead := rfl
  simp only [List.length_set] at h
  omega

theorem always_runcmdWith (parse : Frame → Int → Sh (Nat × Argv × Int)) (s : Nat)
    {Q : Unit → Statics → Trace → Prop} {E : Stop → Statics → Trace → Prop} {g : Statics}
    {t : Trace} :
    always (runcmdWith parse s) Q E g t ↔ ∀ argv : Argv,
      always (parse ⟨0, argv, true⟩ 0) (fun r g' t' => always (finish r.1 r.2.1 r.2.2) Q E g' t') E
        (g.atLine s) (t ++ [⟨.uninit, argv⟩]) := by
  unfold runcmdWith cutComment setLine
  simp only [always_bind, always_modify, always_call]
  rfl

/-- The trace when `parsecmd` has taken the token of `g`. -/
def taken (g : Statics) (f : Frame) (t : Trace) : Trace :=
  t ++ [⟨.takes g.nc g.np1 f g.next.buf, ()⟩]

def Tok.redirects : Tok → Bool
  | .less | .great | .append => true
  | _ => false

/-- What the turns of the loop must keep. `Loop d f` is the invariant before a token is taken in a
command that is `d` backquotes deep, `Done d` what `parsecmd` returns with and `Halt` what holds of
the calls of a process that has stopped. -/
structure Keeps (Loop : Nat → Frame → Trace → Prop) (Done : Nat → Nat → Argv → Statics → Trace → Prop)
    (Halt : Trace → Prop) : Prop where
  eof {d f g t} : Loop d f t → g.nc = .eof →
    Done d f.result f.argv (g.next.setFlag false) (taken g f t)
  word {d f g t} : Loop d f t → g.nc = .word → f.argc < MAXARGS →
    Loop d (f.push g.np1) (taken g f t)
  full {d f g t t'} : Loop d f t → g.nc = .word → MAXARGS ≤ f.argc →
    Adds Call.mute (taken g f t) t' → Halt t'
  redirect {d f g t t'} : Loop d f t → g.nc.redirects = true →
    Adds Call.plain (taken g f t) t' → Loop d f t' ∧ Halt t'
  paren {d f g t} : Loop d f t → g.nc = .paren → Loop d f (taken g f t)
  noPipe {d f g t t'} {r : Int × Int × Int} : Loop d f t → g.nc = .pipe → r.1 < 0 →
    Adds Call.mute (taken g f t ++ [⟨.pipe, r⟩]) t' → Halt t'
  left {d f g t t₁ t₂} {r : Int} : Loop d f t → g.nc = .pipe → Adds Call.mute (taken g f t) t₁ →
    r ≠ 0 → Adds Call.mute (t₁ ++ [⟨.fork, r⟩]) t₂ →
    Done d f.argc f.argv (g.next.setFlag false) t₂
  right {d f g t t₁ t₂} : Loop d f t → g.nc = .pipe → Adds Call.mute (taken g f t) t₁ →
    Adds Call.mute (t₁ ++ [⟨.fork, (0 : Int)⟩]) t₂ → Loop d ⟨0, f.argv, true⟩ t₂
  listed {d f g g' t} : Loop d f t → g.nc = .semi ∨ g.nc = .amp → g'.buf = g.next.buf →
    Done d f.argc f.argv g' (taken g f t ++ [⟨.fork, (0 : Int)⟩])
  list {d f g t t'} {r : Int} : Loop d f t → g.nc = .semi ∨ g.nc = .amp → r ≠ 0 →
    Adds Call.mute (taken g f t ++ [⟨.fork, r⟩]) t' → Loop d ⟨0, f.argv, true⟩ t'
  tested {d f g t} : Loop d f t → g.nc = .and ∨ g.nc = .or →
    Done d f.result f.argv ((g.next.setFlag false).setFlag true)
      (taken g f t ++ [⟨.fork, (0 : Int)⟩])
  test {d f g t} {r v : Int} {mark : Bool} : Loop d f t → g.nc = .and ∨ g.nc = .or → r ≠ 0 →
    Loop d ⟨0, f.argv, mark⟩ (taken g f t ++ [⟨.fork, r⟩] ++ [⟨.recvReturnValue, v⟩])
  inner {d f g t} {argv : Argv} : Loop d f t → g.nc = .backquote →
    Loop (d + 1) ⟨0, argv, true⟩ (taken g f t ++ [⟨.uninit, argv⟩])
  outerReported {d f argv g t} {r : Int} : Done (d + 1) 0 argv g t → (argv 0).isSome = true →
    Loop d f (t ++ [⟨.sendReturnValue 0, r⟩])
  outerSilent {d f argv g t} : Done (d + 1) 0 argv g t → argv 0 = none → Loop d f t
  halt {d argc argv g t u} : Done d argc argv g t → 0 < argc → Words argv argc →
    Commanded g.buf argv argc g.flag u → Halt (t ++ u)
  reported {argv g t} {r : Int} : Done 0 0 argv g t → (argv 0).isSome = true →
    Halt (t ++ [⟨.sendReturnValue 0, r⟩] ++ [⟨.closeAll, ()⟩])
  silent {argv g t} : Done 0 0 argv g t → argv 0 = none → Halt (t ++ [⟨.closeAll, ()⟩])

theorem inner_ahead {g : Statics} (hg : g.Sound) (hc : g.nc = .backquote) (s : Nat) :
    ((g.next.setFlag false).atLine s).ahead + 1 ≤ g.ahead := by
  have h1 := atLine_ahead (g.next.setFlag false) s
  have h2 := next_ahead hg (by rw [hc]; decide)
  have h3 : backquotes (g.next.setFlag false).buf * ((g.next.setFlag false).buf.length + 3) ≤
      g.next.ahead :=
    Nat.le_trans (Nat.mul_le_mul_right _ (Nat.le_add_right _ _)) (Nat.le_add_right _ _)
  have h4 : (g.next.setFlag false).buf.length = g.buf.length := next_length
  rw [if_pos hc] at h2
  omega

/-- The rule for `parsecmd`. It takes no more tokens than there are, and the `argv` that it passes
on is filled. -/
theorem Keeps.parsecmd {Loop : Nat → Frame → Trace → Prop}
    {Done : Nat → Nat → Argv → Statics → Trace → Prop} {Halt : Trace → Prop}
    (hk : Keeps Loop Done Halt) (n d : Nat) (f : Frame) (rightpipe : Int) (g : Statics) (t : Trace)
    (hl : Loop d f t) (hg : g.Sound) (hf : Words f.argv f.argc) (hn : g.ahead < n) :
    always (parsecmd n f rightpipe)
      (fun r g' t' => Done d r.1 r.2.1 g' t' ∧ g'.Sound ∧ Words r.2.1 r.1 ∧ g'.ahead ≤ g.ahead)
      (fun e _ t' => e ≠ .outOfFuel ∧ Halt t') g t := by
  induction n generalizing d f rightpipe g t with
  | zero => omega
  | succ n ih =>
  have hnone := words_none f.argv
  have hrec : ∀ (g' : Statics) (f' : Frame) (rightpipe : Int) (t : Trace), Loop d f' t →
      Later g g' → Words f'.argv f'.argc →
      always (Shell.parsecmd n f' rightpipe)
        (fun r g' t' => Done d r.1 r.2.1 g' t' ∧ g'.Sound ∧ Words r.2.1 r.1 ∧ g'.ahead ≤ g.ahead)
        (fun e _ t' => e ≠ .outOfFuel ∧ Halt t') g' t := by
    rintro g' f' rightpipe t hl' ⟨hs', ha'⟩ hf'
    refine always_mono (ih d f' rightpipe g' t hl' hs' hf' (by omega)) ?_ fun _ _ _ => id
    rintro r g'' t'' ⟨h0, h1, h2, h3⟩
    exact ⟨h0, h1, h2, by omega⟩
  have hret : ∀ {g' : Statics} {argc : Nat}, Later g g' → Words f.argv argc →
      g'.Sound ∧ Words f.argv argc ∧ g'.ahead ≤ g.ahead :=
    fun h hw => ⟨h.1, hw, Nat.le_of_succ_le h.2⟩
  unfold Shell.parsecmd
  simp only [always_bind, always_gettoken, always_call, always_get, always_modify]
  rintro ⟨⟩
  change always _ _ _ _ (taken g f t)
  by_cases hc : g.nc = .eof
  · have hs := next_sound g
    rw [hc, always_pure]
    exact ⟨hk.eof hl hc, ⟨hs.word, hs.eof, hs.moves⟩, words_result hf, next_ahead_le hg⟩
  have hnext := (later_next hg hc).setFlag false
  have hmute : ∀ {e : Event}, e.1.mute = true → Adds Call.mute (taken g f t) (taken g f t ++ [e]) :=
    fun he => (Adds.refl _).snoc he
  have hredirect : ∀ x : Sh Unit, (∀ g', Calls x Call.plain g' g'.next) → g.nc.redirects = true →
      always (do x; Shell.parsecmd n f rightpipe)
        (fun r g' t' => Done d r.1 r.2.1 g' t' ∧ g'.Sound ∧ Words r.2.1 r.1 ∧ g'.ahead ≤ g.ahead)
        (fun e _ t' => e ≠ .outOfFuel ∧ Halt t') (g.next.setFlag false) (taken g f t) := by
    intro x hx hr
    rw [always_bind]
    exact (hx _).always (fun _ t' ht => hrec _ f rightpipe t' (hk.redirect hl hr ht).1 hnext.next hf)
      (fun _ _ _ he ht => ⟨he, (hk.redirect hl hr ht).2⟩)
  cases hc' : g.nc with
  | eof => exact absurd hc' hc
  | word =>
    simp only [always_bind, always_modify, always_ite, always_call, always_exit]
    refine ⟨fun hm r r' => ⟨exited_ne, hk.full hl hc' hm ((hmute rfl).snoc rfl)⟩, fun hm => ?_⟩
    exact hrec _ _ _ _ (hk.word hl hc' (by omega)) (hnext.setJobFlag _) (words_push hf (hg.word hc))
  | less => exact hredirect _ redirectIn_calls (by rw [hc']; rfl)
  | great => exact hredirect _ redirectOut_calls (by rw [hc']; rfl)
  | append => exact hredirect _ redirectAppend_calls (by rw [hc']; rfl)
  | paren => exact hrec _ _ _ _ (hk.paren hl hc') hnext hf
  | pipe =>
    simp only [always_bind, always_ite, always_call, always_pure, always_exit]
    refine fun r => ⟨fun hr r1 r2 => ⟨exited_ne,
        hk.noPipe hl hc' hr (((Adds.refl _).snoc rfl).snoc rfl)⟩,
      fun _ r' => ⟨fun h0 r1 r2 r3 => ?_, fun h0 r1 r2 r3 => ?_⟩⟩
    · subst h0
      exact hrec _ _ _ _ (hk.right hl hc' (hmute rfl)
        ((((Adds.refl _).snoc rfl).snoc rfl).snoc rfl)) hnext hnone
    · exact ⟨hk.left hl hc' (hmute rfl) h0 ((((Adds.refl _).snoc rfl).snoc rfl).snoc rfl),
        hret hnext hf⟩
  | semi =>
    simp only [always_bind, always_ite, always_call, always_pure]
    refine fun r => ⟨fun h0 => ?_, fun h0 r' => ?_⟩
    · subst h0
      exact ⟨hk.listed hl (Or.inl hc') rfl, hret hnext hf⟩
    · exact hrec _ _ _ _ (hk.list hl (Or.inl hc') h0 ((Adds.refl _).snoc rfl)) hnext hnone
  | amp =>
    simp only [always_bind, always_ite, always_call, always_pure, always_modify]
    refine fun r => ⟨fun h0 => ?_, fun h0 => ?_⟩
    · subst h0
      exact ⟨hk.listed hl (Or.inr hc') rfl, hret (hnext.setJobFlag _) hf⟩
    · exact hrec _ _ _ _ (hk.list hl (Or.inr hc') h0 (Adds.refl _)) (hnext.setJobFlag _) hnone
  | and =>
    simp only [always_bind, always_ite, always_call, always_pure, always_modify]
    refine fun r => ⟨fun h0 => ?_, fun h0 v => ?_⟩
    · subst h0
      exact ⟨hk.tested hl (Or.inl hc'), hret (hnext.setFlag _) (words_result hf)⟩
    · exact hrec _ _ _ _ (hk.test hl (Or.inl hc') h0) (hnext.setFlag _) hnone
  | or =>
    simp only [always_bind, always_ite, always_call, always_pure, always_modify]
    refine fun r => ⟨fun h0 => ?_, fun h0 v => ?_⟩
    · subst h0
      exact ⟨hk.tested hl (Or.inr hc'), hret (hnext.setFlag _) (words_result hf)⟩
    · exact hrec _ _ _ _ (hk.test hl (Or.inr hc') h0) (hnext.setFlag _) hnone
  | backquote =>
    obtain ⟨s, hs⟩ := Option.isSome_iff_exists.mp (hg.word hc)
    have hroom := inner_ahead hg hc' s
    simp only [hs, always_bind, always_runcmdWith]
    intro argv
    refine always_mono (ih (d + 1) ⟨0, argv, true⟩ 0 _ _ (hk.inner hl hc') (atLine_sound _ s)
      (words_none argv) (by omega)) ?_ fun _ _ _ => id
    rintro ⟨argc, argv', rightpipe'⟩ g' t' ⟨hd', hs', hw', ha'⟩
    have hlater : Later g g' := ⟨hs', by omega⟩
    rcases Nat.eq_zero_or_pos argc with rfl | hpos
    · rw [finish_nothing]
      exact ⟨fun h0 r => hrec _ _ _ _ (hk.outerReported hd' h0) hlater hf,
        fun h0 => hrec _ _ _ _ (hk.outerSilent hd' (by simpa using h0)) hlater hf⟩
    · refine always_mono (finish_command hpos hw' rightpipe' g' t') (fun _ _ _ => False.elim) ?_
      rintro e g'' t'' ⟨he, u, rfl, hu⟩
      exact ⟨he, hk.halt hd' hpos hw' hu⟩

/-- Enough fuel for the line in `buf`. -/
def enough (buf : Str) : Nat := (backquotes buf + 1) * (buf.length + 3)

/-- The rule for a line shell: it starts the loop after calls that are neither a report nor a new
process, and stops in every world. -/
theorem Keeps.lineShell {Loop : Nat → Frame → Trace → Prop}
    {Done : Nat → Nat → Argv → Statics → Trace → Prop} {Halt : Trace → Prop}
    (hk : Keeps Loop Done Halt) (buf : Str)
    (hstart : ∀ t argv, Adds Call.plain [] t → Halt t ∧ Loop 0 ⟨0, argv, true⟩ t) :
    always (Shell.lineShell (enough buf)) (fun _ _ _ => False)
      (fun e _ t' => e ≠ .outOfFuel ∧ Halt t') (.ofLine buf) [] := by
  unfold Shell.lineShell
  simp only [always_bind, always_get, always_modify]
  refine (saveHistoryCmd_calls _ _).always (fun _ t' ht => ?_)
    (fun _ _ t' he ht => ⟨he, (hstart t' (fun _ => none) ht).1⟩)
  unfold runcmd
  rw [always_runcmdWith]
  intro argv
  have ha := atLine_ahead { Statics.ofLine buf with cmd := cstr buf 0 } 0
  change _ ≤ backquotes buf * (buf.length + 3) + (buf.length + 1) at ha
  have he : enough buf = backquotes buf * (buf.length + 3) + (buf.length + 3) := by
    unfold enough
    rw [Nat.add_mul, Nat.one_mul]
  refine always_mono (hk.parsecmd _ 0 _ 0 _ _ (hstart _ argv (ht.snoc rfl)).2 (atLine_sound _ 0)
    (words_none argv) (Nat.lt_of_le_of_lt ha (by omega))) ?_ fun _ _ _ => id
  rintro ⟨argc, argv', rightpipe⟩ g' t'' ⟨hd, -, hw, -⟩
  rcases Nat.eq_zero_or_pos argc with rfl | hpos
  · simp only [finish_nothing, always_exit]
    refine ⟨fun h0 r r' => ⟨exited_ne, hk.reported hd h0⟩, fun h0 r => ⟨exited_ne, hk.silent hd ?_⟩⟩
    simpa using h0
  · refine always_mono (finish_command hpos hw rightpipe g' t'') (fun _ _ _ => False.elim) ?_
    rintro e g'' t' ⟨he, u, rfl, hu⟩
    exact ⟨he, hk.halt hd hpos hw hu⟩

/-- The run of the line shell for the line in `buf`. -/
abbrev lineRun (buf : Str) (w : Proc.World Call Reply) : Trace × Except Stop Unit × Statics :=
  (lineShell (enough buf)).run w (.ofLine buf)

end Mos.Shell
