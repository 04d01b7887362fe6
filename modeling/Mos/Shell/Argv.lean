import Mos.Lib.Ghost
import Mos.Shell.Report

/-!
# The stores into `argv`

The shell again, with the indices of the array `argv` of `runcmd` that are stored to, by
`parsecmd` for a word and by `runcmd` for the zero behind the words. Both are the shell of
`user/sh.c` if the indices are left out.
-/

namespace Mos.Shell.Stores

open Lib (Prog Erases provided within)

/-! ## The turns of `parsecmd` -/

/-- How the loop of `parsecmd` goes on after a token. -/
inductive Turn where
  | returns (argc : Nat) (rightpipe : Int)
  /-- `argv[argc++] = t` -/
  | word (t : Ptr)
  | goes (f : Frame) (rightpipe : Int)
  /-- `runcmd(s)` -/
  | runs (s : Nat)

/-- What the token `c` at `t` does. -/
def act (c : Tok) (t : Ptr) (f : Frame) (rightpipe : Int) : Shell.Sh Turn := do
  modify (·.setFlag false)
  match c with
  | .eof => return .returns f.result rightpipe
  | .word =>
    modify (·.setJobFlag false)
    if f.argc ≥ MAXARGS then
      call (.debugf "too many arguments\n")
      exit
    return .word t
  | .less =>
    redirectIn
    return .goes f rightpipe
  | .great =>
    redirectOut
    return .goes f rightpipe
  | .pipe =>
    let (r, p0, p1) ← call .pipe
    if r < 0 then
      call (.debugf "failed to create pipe\n")
      exit
    let rightpipe ← call .fork
    if rightpipe = 0 then
      let _ ← call (.dup p0 0)
      let _ ← call (.close p0)
      let _ ← call (.close p1)
      return .goes ⟨0, f.argv, true⟩ rightpipe
    else
      let _ ← call (.dup p1 1)
      let _ ← call (.close p1)
      let _ ← call (.close p0)
      return .returns f.argc rightpipe
  | .semi =>
    let child ← call .fork
    if child = 0 then
      return .returns f.argc rightpipe
    else
      let _ ← call (.wait child)
      return .goes ⟨0, f.argv, true⟩ rightpipe
  | .amp =>
    modify (·.setJobFlag true)
    let child ← call .fork
    if child = 0 then
      return .returns f.argc rightpipe
    else
      return .goes ⟨0, f.argv, true⟩ rightpipe
  | .and =>
    modify (·.setFlag true)
    let child ← call .fork
    if child = 0 then
      return .returns f.result rightpipe
    else
      let value ← call .recvReturnValue
      return .goes ⟨0, f.argv, value == 0⟩ rightpipe
  | .or =>
    modify (·.setFlag true)
    let child ← call .fork
    if child = 0 then
      return .returns f.result rightpipe
    else
      let value ← call .recvReturnValue
      return .goes ⟨0, f.argv, value != 0⟩ rightpipe
  | .append =>
    redirectAppend
    return .goes f rightpipe
  | .backquote =>
    match t with
    | some s => return .runs s
    | none => throw .fault
  | .paren => return .goes f rightpipe

/-- A turn of the loop. -/
def turn (f : Frame) (rightpipe : Int) : Shell.Sh Turn := do
  let (c, t) ← gettoken
  call (.takes c t f (← get).buf)
  act c t f rightpipe

/-- What `parsecmd` does after a turn. -/
def goOn (n : Nat) (f : Frame) (rightpipe : Int) : Turn → Shell.Sh (Nat × Argv × Int)
  | .returns argc rightpipe' => return (argc, f.argv, rightpipe')
  | .word t => Shell.parsecmd n (f.push t) rightpipe
  | .goes f' rightpipe' => Shell.parsecmd n f' rightpipe'
  | .runs s => do
    runcmdWith (Shell.parsecmd n) s
    Shell.parsecmd n f rightpipe

theorem ite_bind {α β : Type} {c : Prop} [Decidable c] (x y : Shell.Sh α) (k : α → Shell.Sh β) :
    (if c then x else y) >>= k = if c then x >>= k else y >>= k := by
  split <;> rfl

theorem parsecmd_turn (n : Nat) (f : Frame) (rightpipe : Int) :
    Shell.parsecmd (n + 1) f rightpipe = turn f rightpipe >>= goOn n f rightpipe := by
  unfold Shell.parsecmd turn act
  simp only [bind_assoc]
  congr 1
  funext r
  rcases r with ⟨c, t⟩
  congr 1
  funext g
  congr 1
  funext _
  congr 1
  funext _
  cases c with
  | backquote => rcases t with _ | s <;> rfl
  | _ =>
    simp only [bind_assoc, ite_bind, pure_bind]
    rfl

/-! ## The shell with its stores -/

/-- The shell, with the indices of `argv` that have been stored to. -/
abbrev Sh := Prog Call Reply Stop (Statics × List Nat)

/-- `argv[i]` is stored to. -/
def store (i : Nat) : Sh Unit := Prog.note (· ++ [i])

/-- `runcmd` after `parsecmd` has returned `argc`. `argv[argc] = 0` comes first, if there is a word. -/
def finish (argc : Nat) (argv : Argv) (rightpipe : Int) : Sh Unit := do
  if argc ≠ 0 then
    store argc
  Prog.lift (Shell.finish argc argv rightpipe)

def runcmdWith (parse : Frame → Int → Sh (Nat × Argv × Int)) (s : Nat) : Sh Unit := do
  Prog.lift (cutComment s)
  Prog.lift (setLine s)
  let argv ← Prog.lift (call .uninit)
  let (argc, argv, rightpipe) ← parse ⟨0, argv, true⟩ 0
  finish argc argv rightpipe

def parsecmd : Nat → Frame → Int → Sh (Nat × Argv × Int)
  | 0, _, _ => throw .outOfFuel
  | n + 1, f, rightpipe => do
    match ← Prog.lift (turn f rightpipe) with
    | .returns argc rightpipe => return (argc, f.argv, rightpipe)
    | .word t =>
      store f.argc
      parsecmd n (f.push t) rightpipe
    | .goes f' rightpipe => parsecmd n f' rightpipe
    | .runs s =>
      runcmdWith (parsecmd n) s
      parsecmd n f rightpipe

def runcmd (fuel : Nat) (s : Nat) : Sh Unit := runcmdWith (parsecmd fuel) s

/-- What `main` does before `runcmd`. -/
def saveLine : Shell.Sh Unit := do
  let line := cstr (← get).buf 0
  saveHistoryCmd line
  modify fun g => { g with cmd := line }

def lineShell (fuel : Nat) : Sh Unit := do
  Prog.lift saveLine
  runcmd fuel 0
  Prog.lift exit

/-! ## Without the stores -/

theorem erases_finish (argc : Nat) (argv : Argv) (rightpipe : Int) :
    Erases (finish argc argv rightpipe) (Shell.finish argc argv rightpipe) := by
  unfold finish
  by_cases h : argc ≠ 0
  · rw [if_pos h]
    exact Lib.erases_bind (Lib.erases_note _) fun _ => Lib.erases_lift _
  · rw [if_neg h]
    exact Lib.erases_lift _

theorem erases_runcmdWith {parse' : Frame → Int → Sh (Nat × Argv × Int)}
    {parse : Frame → Int → Shell.Sh (Nat × Argv × Int)} (h : ∀ f r, Erases (parse' f r) (parse f r))
    (s : Nat) : Erases (runcmdWith parse' s) (Shell.runcmdWith parse s) := by
  unfold runcmdWith Shell.runcmdWith
  refine Lib.erases_bind (Lib.erases_lift _) fun _ => ?_
  refine Lib.erases_bind (Lib.erases_lift _) fun _ => ?_
  refine Lib.erases_bind (Lib.erases_lift _) fun argv => ?_
  exact Lib.erases_bind (h _ _) fun r => erases_finish r.1 r.2.1 r.2.2

theorem erases_parsecmd (n : Nat) (f : Frame) (rightpipe : Int) :
    Erases (parsecmd n f rightpipe) (Shell.parsecmd n f rightpipe) := by
  induction n generalizing f rightpipe with
  | zero => exact Lib.erases_throw _
  | succ n ih =>
    rw [parsecmd_turn]
    unfold parsecmd
    refine Lib.erases_bind (Lib.erases_lift _) fun r => ?_
    cases r with
    | returns argc rightpipe' => exact Lib.erases_pure _
    | word t => exact Lib.erases_bind (Lib.erases_note _) fun _ => ih _ _
    | goes f' rightpipe' => exact ih f' rightpipe'
    | runs s => exact Lib.erases_bind (erases_runcmdWith ih s) fun _ => ih f rightpipe

theorem erases_lineShell (fuel : Nat) : Erases (lineShell fuel) (Shell.lineShell fuel) := by
  have hshell : Shell.lineShell fuel = saveLine >>= fun _ => Shell.runcmd fuel 0 >>= fun _ => exit := by
    unfold Shell.lineShell saveLine
    simp only [bind_assoc]
  rw [hshell]
  refine Lib.erases_bind (Lib.erases_lift _) fun _ => ?_
  refine Lib.erases_bind ?_ fun _ => Lib.erases_lift _
  exact erases_runcmdWith (erases_parsecmd fuel) 0

/-! ## Calls that take no token -/

def untaken : Call → Bool
  | .takes .. => false
  | _ => true

/-- No token is taken. -/
def elsewhere : Lib.Effect Call Reply Statics where
  calls c := untaken c = true
  answers _ _ := True
  rel _ _ := True
  refl _ := trivial
  trans _ _ := trivial

/-- No token is taken by `x`. -/
def Untaken {α : Type} (x : Shell.Sh α) : Prop := within elsewhere x fun _ => True

section

variable {α β : Type}

theorem untaken_pure (a : α) : Untaken (pure a : Shell.Sh α) := Lib.within_pure trivial

theorem untaken_call {c : Call} (h : untaken c = true) : Untaken (call c) :=
  Lib.within_call h fun _ _ => trivial

theorem untaken_bind {x : Shell.Sh β} {f : β → Shell.Sh α} (hx : Untaken x) (hf : ∀ b, Untaken (f b)) :
    Untaken (x >>= f) := Lib.within_bind hx fun b _ => hf b

theorem untaken_ite {c : Prop} [Decidable c] {x y : Shell.Sh α} (hx : Untaken x) (hy : Untaken y) :
    Untaken (if c then x else y) := Lib.within_ite (fun _ => hx) fun _ => hy

theorem untaken_exit : Untaken (exit : Shell.Sh α) :=
  untaken_bind (untaken_call rfl) fun _ => Lib.within_throw _

theorem untaken_get : Untaken (get : Shell.Sh Statics) := Lib.within_get fun _ => trivial

theorem untaken_modify (f : Statics → Statics) : Untaken (modify f : Shell.Sh PUnit) :=
  Lib.within_modify (fun _ => trivial) trivial

theorem untaken_string (p : Ptr) : Untaken (string p) := by
  unfold string
  rcases p with _ | s
  · exact Lib.within_throw _
  · exact untaken_bind untaken_get fun _ => untaken_pure _

theorem untaken_args (argv : Argv) (argc : Nat) : Untaken (args argv argc) := by
  unfold args
  generalize List.range argc = l
  induction l with
  | nil => exact untaken_pure _
  | cons i l ih =>
    rw [List.mapM_cons]
    refine untaken_bind (untaken_string _) fun s => untaken_bind ih fun l => untaken_pure _

end

theorem untaken_report (child : Int) : Untaken (report child) := by
  unfold report
  refine untaken_bind untaken_get fun g => ?_
  refine untaken_ite (untaken_call rfl) (untaken_ite ?_ (untaken_ite ?_ ?_))
  · refine untaken_bind (untaken_call rfl) fun _ => ?_
    exact untaken_bind (untaken_call rfl) fun _ => untaken_pure _
  · refine untaken_bind (untaken_call rfl) fun _ => ?_
    exact untaken_bind (untaken_call rfl) fun _ => untaken_pure _
  · exact untaken_bind (untaken_call rfl) fun _ => untaken_pure _

theorem untaken_executeFg (jobId : Int) : Untaken (executeFg jobId) := by
  unfold executeFg
  refine untaken_bind (untaken_call rfl) fun envid => untaken_ite (untaken_call rfl) ?_
  refine untaken_bind (untaken_call rfl) fun running => untaken_ite (untaken_call rfl) ?_
  exact untaken_bind (untaken_call rfl) fun _ => untaken_pure _

theorem untaken_runBuiltin (prog : Str) (argv : Argv) : Untaken (runBuiltin prog argv) := by
  unfold runBuiltin
  refine untaken_ite ?_ (untaken_ite ?_ (untaken_ite ?_ (untaken_ite ?_ (untaken_pure _))))
  · exact untaken_bind (untaken_call rfl) fun _ => untaken_exit
  · refine untaken_bind (untaken_string _) fun s => ?_
    exact untaken_bind (untaken_executeFg _) fun _ => untaken_exit
  · refine untaken_bind (untaken_string _) fun s => ?_
    exact untaken_bind (untaken_call rfl) fun _ => untaken_exit
  · exact untaken_bind (untaken_call rfl) fun _ => untaken_exit

theorem untaken_finish (argc : Nat) (argv : Argv) (rightpipe : Int) :
    Untaken (Shell.finish argc argv rightpipe) := by
  unfold Shell.finish
  refine untaken_ite (untaken_ite ?_ (untaken_pure _)) ?_
  · exact untaken_bind (untaken_call rfl) fun _ => untaken_pure _
  · refine untaken_bind (untaken_string _) fun s => ?_
    refine untaken_bind (untaken_runBuiltin _ _) fun _ => ?_
    unfold runExternal waitRight
    refine untaken_bind (untaken_args _ _) fun l => ?_
    refine untaken_bind (untaken_call rfl) fun child => ?_
    refine untaken_bind (untaken_report child) fun _ => ?_
    refine untaken_bind (untaken_ite ?_ (untaken_pure _)) fun _ => ?_
    · exact untaken_bind (untaken_call rfl) fun _ => untaken_pure _
    · exact untaken_bind (untaken_call rfl) fun _ => untaken_exit

theorem untaken_gettoken : Untaken gettoken := by
  unfold gettoken Untaken
  apply Lib.within_update
  exact fun s => ⟨trivial, fun _ _ => trivial⟩

theorem untaken_redirectTo (fd newfd : Int) (msg : String) : Untaken (redirectTo fd newfd msg) := by
  unfold redirectTo
  refine untaken_bind (untaken_call rfl) fun r => untaken_ite ?_ ?_
  · refine untaken_bind (untaken_call rfl) fun _ => untaken_bind untaken_exit fun _ => ?_
    exact untaken_bind (untaken_call rfl) fun _ => untaken_pure _
  · exact untaken_bind (untaken_call rfl) fun _ => untaken_pure _

theorem untaken_openTarget (mode : Nat) (notWord failed : String) :
    Untaken (openTarget mode notWord failed) := by
  have hopen : ∀ t, Untaken (do
      let fd ← call (.open (← string t) mode)
      if fd < 0 then
        call (.debugf failed)
        exit
      return fd) := by
    intro t
    refine untaken_bind (untaken_string t) fun s => untaken_bind (untaken_call rfl) fun fd => ?_
    refine untaken_ite ?_ (untaken_pure _)
    exact untaken_bind (untaken_call rfl) fun _ => untaken_bind untaken_exit fun _ => untaken_pure _
  unfold openTarget
  refine untaken_bind untaken_gettoken fun r => untaken_ite ?_ (hopen _)
  exact untaken_bind (untaken_call rfl) fun _ => untaken_bind untaken_exit fun _ => hopen _

theorem untaken_redirectIn : Untaken redirectIn :=
  untaken_bind (untaken_openTarget _ _ _) fun _ => untaken_redirectTo _ _ _

theorem untaken_redirectOut : Untaken redirectOut :=
  untaken_bind (untaken_openTarget _ _ _) fun _ => untaken_redirectTo _ _ _

theorem untaken_redirectAppend : Untaken redirectAppend := by
  have hseek : ∀ (fd size : Int), Untaken (do
      let _ ← call (.seek fd size)
      redirectTo fd 1 "failed to duplicate file to <stdout>\n") := fun fd size =>
    untaken_bind (untaken_call rfl) fun _ => untaken_redirectTo _ _ _
  unfold redirectAppend
  refine untaken_bind (untaken_openTarget _ _ _) fun fd => untaken_bind (untaken_call rfl) fun r => ?_
  refine untaken_ite ?_ (hseek _ _)
  exact untaken_bind (untaken_call rfl) fun _ => untaken_bind untaken_exit fun _ => hseek _ _

theorem untaken_writeLine (fd : Int) (cmd : Str) : Untaken (do
    let (_, size) ← call (.stat historyFile)
    let _ ← call (.seek fd size)
    let _ ← call (.write fd cmd)
    let _ ← call (.write fd (bytes "\n"))
    let _ ← call (.close fd)) := by
  refine untaken_bind (untaken_call rfl) fun _ => untaken_bind (untaken_call rfl) fun _ => ?_
  refine untaken_bind (untaken_call rfl) fun _ => untaken_bind (untaken_call rfl) fun _ => ?_
  exact untaken_bind (untaken_call rfl) fun _ => untaken_pure _

theorem untaken_saveLine : Untaken saveLine := by
  unfold saveLine saveHistoryCmd
  refine untaken_bind untaken_get fun g => untaken_bind ?_ fun _ => untaken_modify _
  refine untaken_bind (untaken_call rfl) fun fd => untaken_ite ?_ (untaken_writeLine _ _)
  exact untaken_bind (untaken_call rfl) fun _ => untaken_writeLine _ _

/-! ## The words of a command -/

/-- The command before such a token ends. -/
def ends : Tok → Bool
  | .eof | .pipe | .semi | .amp | .and | .or => true
  | _ => false

/-- A command ends that has exactly as many words as `argv` has elements. -/
def full : Call → Bool
  | .takes c _ f _ => ends c && f.argc == MAXARGS
  | _ => false

/-- There is room for the word. -/
def fine : Call → Prop
  | .takes c _ f _ => f.argc ≤ MAXARGS ∧ (c = .word → f.argc < MAXARGS)
  | _ => True

def Fine (t : Trace) : Prop := ∀ e ∈ t, fine e.1

/-- There is no room for the last word. -/
def Rejected (e : Stop) (t : Trace) : Prop :=
  e = .exited ∧ ∃ l p f buf, Fine l ∧ t = l ++ [⟨.takes .word p f buf, ()⟩] ++
    [⟨.debugf "too many arguments\n", ()⟩] ++ [⟨.closeAll, ()⟩]

/-- The stores are into `argv`. -/
def InBounds (stores : List Nat) : Prop := ∀ i ∈ stores, i < MAXARGS

/-- No command ends that has exactly that many words. -/
def short : Lib.Cond Call Reply where
  Holds t := ∀ e ∈ t, full e.1 = false
  closed h e he := h e (List.mem_append_left _ he)

theorem Fine.append {t l : Trace} (h : Fine t) (hl : ∀ e ∈ l, untaken e.1 = true) : Fine (t ++ l) := by
  intro e he
  rcases List.mem_append.mp he with he | he
  · exact h e he
  · have hun := hl e he
    unfold fine
    split
    · rename_i heq
      rw [heq] at hun
      exact nomatch hun
    · trivial

theorem Fine.snoc {t : Trace} {c : Tok} {p : Ptr} {f : Frame} {buf : Str} (h : Fine t)
    (hle : f.argc ≤ MAXARGS) (hw : c = .word → f.argc < MAXARGS) :
    Fine (t ++ [⟨.takes c p f buf, ()⟩]) := by
  intro e he
  rcases List.mem_append.mp he with he | he
  · exact h e he
  · rw [List.mem_singleton.mp he]
    exact ⟨hle, hw⟩

theorem provided_untaken {α : Type} {x : Shell.Sh α} {P : α → Prop} (h : within elsewhere x P)
    {t : Trace} (ht : Fine t) (g : Statics) :
    provided short x (fun a _ t' => Fine t' ∧ P a) (fun _ _ t' => Fine t') g t := by
  refine Lib.provided_mono (Lib.provided_within (fun _ _ _ _ => trivial) h g t) (fun a s' t' _ hl => ?_)
    fun e s' t' _ hl => ?_
  · obtain ⟨⟨l, rfl, hl⟩, -, ha⟩ := hl
    exact ⟨ht.append hl, ha⟩
  · obtain ⟨⟨l, rfl, hl⟩, -⟩ := hl
    exact ht.append hl

/-! ## The loop -/

/-- What a turn leads to has room. -/
def Turn.Fits (f : Frame) : Turn → Prop
  | .returns argc _ => argc < MAXARGS
  | .word _ => f.argc < MAXARGS
  | .goes f' _ => f'.argc ≤ MAXARGS
  | .runs _ => True

theorem result_lt {f : Frame} (h : f.argc < MAXARGS) : f.result < MAXARGS := by
  unfold Frame.result
  split
  · exact h
  · decide

theorem within_untaken {α β : Type} {x : Shell.Sh β} {k : β → Shell.Sh α} {P : α → Prop} (hx : Untaken x)
    (hk : ∀ b, within elsewhere (k b) P) : within elsewhere (x >>= k) P :=
  Lib.within_bind hx fun b _ => hk b

theorem within_act {c : Tok} {f : Frame} (t : Ptr) (rightpipe : Int) (hle : f.argc ≤ MAXARGS)
    (hw : c = .word → f.argc < MAXARGS) (hends : ends c = true → f.argc < MAXARGS) :
    within elsewhere (act c t f rightpipe) (Turn.Fits f) := by
  have hzero : ∀ {argv mark}, (⟨0, argv, mark⟩ : Frame).argc ≤ MAXARGS := Nat.zero_le _
  unfold act
  refine within_untaken (untaken_modify _) fun _ => ?_
  cases c with
  | eof => exact Lib.within_pure (result_lt (hends rfl))
  | word =>
    refine within_untaken (untaken_modify _) fun _ => ?_
    rw [if_neg (Nat.not_le_of_lt (hw rfl))]
    exact Lib.within_pure (hw rfl)
  | less => exact within_untaken untaken_redirectIn fun _ => Lib.within_pure hle
  | great => exact within_untaken untaken_redirectOut fun _ => Lib.within_pure hle
  | append => exact within_untaken untaken_redirectAppend fun _ => Lib.within_pure hle
  | pipe =>
    have hfork : ∀ p0 p1, within elsewhere (do
        let rightpipe ← call .fork
        if rightpipe = 0 then
          let _ ← call (.dup p0 0)
          let _ ← call (.close p0)
          let _ ← call (.close p1)
          return .goes ⟨0, f.argv, true⟩ rightpipe
        else
          let _ ← call (.dup p1 1)
          let _ ← call (.close p1)
          let _ ← call (.close p0)
          return .returns f.argc rightpipe) (Turn.Fits f) := by
      intro p0 p1
      refine within_untaken (untaken_call rfl) fun r => Lib.within_ite (fun _ => ?_) fun _ => ?_
      · refine within_untaken (untaken_call rfl) fun _ => within_untaken (untaken_call rfl) fun _ => ?_
        exact within_untaken (untaken_call rfl) fun _ => Lib.within_pure hzero
      · refine within_untaken (untaken_call rfl) fun _ => within_untaken (untaken_call rfl) fun _ => ?_
        exact within_untaken (untaken_call rfl) fun _ => Lib.within_pure (hends rfl)
    refine within_untaken (untaken_call rfl) fun r => Lib.within_ite (fun _ => ?_) fun _ => hfork _ _
    refine within_untaken (untaken_call rfl) fun _ => within_untaken untaken_exit fun _ => hfork _ _
  | semi =>
    refine within_untaken (untaken_call rfl) fun r => Lib.within_ite (fun _ => ?_) fun _ => ?_
    · exact Lib.within_pure (hends rfl)
    · exact within_untaken (untaken_call rfl) fun _ => Lib.within_pure hzero
  | amp =>
    refine within_untaken (untaken_modify _) fun _ => within_untaken (untaken_call rfl) fun r => ?_
    exact Lib.within_ite (fun _ => Lib.within_pure (hends rfl)) fun _ => Lib.within_pure hzero
  | and =>
    refine within_untaken (untaken_modify _) fun _ => within_untaken (untaken_call rfl) fun r => ?_
    refine Lib.within_ite (fun _ => Lib.within_pure (result_lt (hends rfl))) fun _ => ?_
    exact within_untaken (untaken_call rfl) fun _ => Lib.within_pure hzero
  | or =>
    refine within_untaken (untaken_modify _) fun _ => within_untaken (untaken_call rfl) fun r => ?_
    refine Lib.within_ite (fun _ => Lib.within_pure (result_lt (hends rfl))) fun _ => ?_
    exact within_untaken (untaken_call rfl) fun _ => Lib.within_pure hzero
  | backquote =>
    rcases t with _ | s
    · exact Lib.within_throw _
    · exact Lib.within_pure trivial
  | paren => exact Lib.within_pure hle

theorem turn_spec {f : Frame} (rightpipe : Int) (hle : f.argc ≤ MAXARGS) {t : Trace} (ht : Fine t)
    (g : Statics) :
    provided short (turn f rightpipe) (fun r _ t' => Fine t' ∧ r.Fits f)
      (fun e _ t' => Fine t' ∨ Rejected e t') g t := by
  unfold turn gettoken
  simp only [Lib.provided_bind, Lib.provided_get, Lib.provided_set, Lib.provided_pure, Lib.provided_call]
  intro _ _ _ _ r hshort
  have hr : r = () := rfl
  subst hr
  by_cases hover : g.nc = .word ∧ f.argc = MAXARGS
  · rw [hover.1]
    unfold act
    simp only [Lib.provided_bind, Lib.provided_modify, Lib.provided_ite, Lib.provided_call,
      Lib.provided_pure]
    refine fun _ _ => ⟨fun _ r hr => ?_, fun hlt => absurd (Nat.le_of_eq hover.2.symm) hlt⟩
    unfold exit
    simp only [Lib.provided_bind, Lib.provided_call, Lib.provided_throw]
    exact fun r' _ _ => Or.inr ⟨rfl, t, _, f, _, ht, rfl⟩
  · have hends : ends g.nc = true → f.argc < MAXARGS := by
      intro he
      have hnot : (ends g.nc && f.argc == MAXARGS) = false :=
        hshort _ (List.mem_append_right t List.mem_cons_self)
      rw [he, Bool.true_and, beq_eq_false_iff_ne] at hnot
      omega
    have hw : g.nc = .word → f.argc < MAXARGS := fun hw =>
      Nat.lt_of_le_of_ne hle fun heq => hover ⟨hw, heq⟩
    refine Lib.provided_mono (provided_untaken (within_act _ rightpipe hle hw hends) (ht.snoc hle hw) _)
      (fun _ _ _ _ h => h) fun _ _ _ _ h => Or.inl h

/-! ## Runs -/

/-- So far all stores are into `argv` and all words have room. -/
structure Kept (stores : List Nat) (t : Trace) : Prop where
  stores : InBounds stores
  fine : Fine t

/-- The shell has stopped. -/
structure Halted (e : Stop) (stores : List Nat) (t : Trace) : Prop where
  stores : InBounds stores
  fine : Fine t ∨ Rejected e t

theorem InBounds.snoc {stores : List Nat} (h : InBounds stores) {i : Nat} (hi : i < MAXARGS) :
    InBounds (stores ++ [i]) := by
  intro j hj
  rcases List.mem_append.mp hj with hj | hj
  · exact h j hj
  · rw [List.mem_singleton.mp hj]
    exact hi

section

variable {α β : Type} {g : Statics} {l : List Nat} {t : Trace}

theorem provided_part {x : Shell.Sh α} (hx : Untaken x) (h : Kept l t) :
    provided short (Prog.lift x : Sh α) (fun _ σ t' => Kept σ.2 t') (fun e σ t' => Halted e σ.2 t')
      (g, l) t := by
  rw [Lib.provided_lift]
  exact Lib.provided_mono (provided_untaken hx h.fine g) (fun _ _ _ _ ht => ⟨h.stores, ht.1⟩)
    fun _ _ _ _ ht => ⟨h.stores, Or.inl ht⟩

theorem finish_spec {argc : Nat} {argv : Argv} (rightpipe : Int) (hlt : argc < MAXARGS) (h : Kept l t) :
    provided short (finish argc argv rightpipe) (fun _ σ t' => Kept σ.2 t')
      (fun e σ t' => Halted e σ.2 t') (g, l) t := by
  unfold finish
  by_cases hzero : argc ≠ 0
  · rw [if_pos hzero]
    unfold store
    rw [Lib.provided_bind, Lib.provided_note]
    exact fun _ => provided_part (untaken_finish ..) ⟨h.stores.snoc hlt, h.fine⟩
  · rw [if_neg hzero]
    exact provided_part (untaken_finish ..) h

theorem runcmdWith_spec {parse : Frame → Int → Sh (Nat × Argv × Int)}
    (hparse : ∀ (argv : Argv) (g : Statics) (l : List Nat) (t : Trace), Kept l t →
      provided short (parse ⟨0, argv, true⟩ 0) (fun r σ t' => Kept σ.2 t' ∧ r.1 < MAXARGS)
        (fun e σ t' => Halted e σ.2 t') (g, l) t) (s : Nat) (h : Kept l t) :
    provided short (runcmdWith parse s) (fun _ σ t' => Kept σ.2 t') (fun e σ t' => Halted e σ.2 t')
      (g, l) t := by
  unfold runcmdWith
  rw [Lib.provided_bind]
  refine Lib.provided_mono (provided_part (untaken_modify _) h) (fun _ σ t₁ _ h₁ => ?_) fun _ _ _ _ h => h
  rw [Lib.provided_bind]
  refine Lib.provided_mono (provided_part (untaken_modify _) h₁) (fun _ σ t₂ _ h₂ => ?_) fun _ _ _ _ h => h
  rw [Lib.provided_bind]
  refine Lib.provided_mono (provided_part (untaken_call rfl) h₂) (fun argv σ t₃ _ h₃ => ?_)
    fun _ _ _ _ h => h
  rw [Lib.provided_bind]
  refine Lib.provided_mono (hparse argv σ.1 σ.2 t₃ h₃) (fun r σ t₄ _ h₄ => ?_) fun _ _ _ _ h => h
  exact finish_spec r.2.2 h₄.2 h₄.1

theorem parsecmd_spec (n : Nat) {f : Frame} (rightpipe : Int) (hle : f.argc ≤ MAXARGS) (h : Kept l t) :
    provided short (parsecmd n f rightpipe) (fun r σ t' => Kept σ.2 t' ∧ r.1 < MAXARGS)
      (fun e σ t' => Halted e σ.2 t') (g, l) t := by
  induction n generalizing f rightpipe g l t with
  | zero =>
    unfold parsecmd
    rw [Lib.provided_throw]
    exact fun _ => ⟨h.stores, Or.inl h.fine⟩
  | succ n ih =>
    unfold parsecmd
    rw [Lib.provided_bind, Lib.provided_lift]
    refine Lib.provided_mono (turn_spec rightpipe hle h.fine g) (fun r g' t' _ hr => ?_)
      fun _ _ _ _ he => ⟨h.stores, he⟩
    have hkept : Kept l t' := ⟨h.stores, hr.1⟩
    have hfits := hr.2
    cases r with
    | returns argc rightpipe' =>
      simp only [Lib.provided_pure]
      exact fun _ => ⟨hkept, hfits⟩
    | word p =>
      unfold store
      simp only [Lib.provided_bind, Lib.provided_note]
      exact fun _ => ih rightpipe hfits ⟨h.stores.snoc hfits, hr.1⟩
    | goes f' rightpipe' => exact ih rightpipe' hfits hkept
    | runs s =>
      simp only [Lib.provided_bind]
      refine Lib.provided_mono (runcmdWith_spec (fun argv g l t hk => ih 0 (Nat.zero_le _) hk) s hkept)
        (fun _ σ t'' _ h'' => ?_) fun _ _ _ _ h => h
      exact ih rightpipe hle h''

theorem lineShell_spec (fuel : Nat) (h : Kept l t) :
    provided short (lineShell fuel) (fun _ σ t' => Kept σ.2 t') (fun e σ t' => Halted e σ.2 t') (g, l) t := by
  unfold lineShell runcmd
  rw [Lib.provided_bind]
  refine Lib.provided_mono (provided_part untaken_saveLine h) (fun _ σ t₁ _ h₁ => ?_) fun _ _ _ _ h => h
  rw [Lib.provided_bind]
  refine Lib.provided_mono (runcmdWith_spec (fun argv g l t hk => parsecmd_spec fuel 0 (Nat.zero_le _) hk) 0 h₁)
    (fun _ σ t₂ _ h₂ => ?_) fun _ _ _ _ h => h
  exact provided_part untaken_exit h₂

end

/-- What a process of the shell has stored and taken. -/
structure Bounded (t : Trace) (r : Except Stop Unit) (stores : List Nat) : Prop where
  stores : InBounds stores
  /-- A command that ends has no more words than fit. -/
  fits : ∀ c p f buf, ⟨.takes c p f buf, ()⟩ ∈ t → ends c = true → f.argc < MAXARGS
  rejects : ∀ p f buf, ⟨.takes .word p f buf, ()⟩ ∈ t → MAXARGS ≤ f.argc →
    r = .error .exited ∧ [⟨.debugf "too many arguments\n", ()⟩, ⟨.closeAll, ()⟩] <:+ t

theorem Fine.argc {t : Trace} {c : Tok} {p : Ptr} {f : Frame} {buf : Str} (h : Fine t)
    (he : ⟨.takes c p f buf, ()⟩ ∈ t) : f.argc ≤ MAXARGS ∧ (c = .word → f.argc < MAXARGS) := h _ he

theorem full_argc {t : Trace} {c : Tok} {p : Ptr} {f : Frame} {buf : Str} (h : short.Holds t)
    (he : ⟨.takes c p f buf, ()⟩ ∈ t) (hends : ends c = true) : f.argc ≠ MAXARGS := by
  have hnot : (ends c && f.argc == MAXARGS) = false := h _ he
  rwa [hends, Bool.true_and, beq_eq_false_iff_ne] at hnot

theorem Kept.bounded {t : Trace} {r : Except Stop Unit} {stores : List Nat} (h : Kept stores t)
    (hshort : short.Holds t) : Bounded t r stores where
  stores := h.stores
  fits _ _ _ _ he hends := Nat.lt_of_le_of_ne (h.fine.argc he).1 (full_argc hshort he hends)
  rejects _ _ _ he hle := absurd ((h.fine.argc he).2 rfl) (Nat.not_lt_of_le hle)

theorem Halted.bounded {t : Trace} {e : Stop} {stores : List Nat} (h : Halted e stores t)
    (hshort : short.Holds t) : Bounded t (.error e) stores := by
  rcases h.fine with hfine | ⟨rfl, l, p, f, buf, hl, rfl⟩
  · exact (Kept.mk h.stores hfine).bounded hshort
  · refine ⟨h.stores, fun c p' f' buf' he hends => ?_, fun _ _ _ _ _ => ⟨rfl, ?_⟩⟩
    · refine Nat.lt_of_le_of_ne ?_ (full_argc hshort he hends)
      simp only [List.mem_append, List.mem_singleton] at he
      rcases he with ((he | he) | he) | he
      · exact (hl.argc he).1
      · cases he
        exact nomatch hends
      · exact nomatch he
      · exact nomatch he
    · rw [List.append_assoc]
      exact List.suffix_append ..

/-- The run of the shell that is forked for a line, with the stores into `argv`. -/
def lineRun (fuel : Nat) (buf : Str) (w : Lib.Proc.World Call Reply) :
    Trace × Except Stop Unit × Statics × List Nat :=
  (lineShell fuel).run w (Statics.ofLine buf, [])

theorem lineRun_erases (fuel : Nat) (buf : Str) (w : Lib.Proc.World Call Reply) :
    (Shell.lineShell fuel).run w (Statics.ofLine buf) =
      ((lineRun fuel buf w).1, (lineRun fuel buf w).2.1, (lineRun fuel buf w).2.2.1) :=
  (erases_lineShell fuel).run w _ _

theorem argv_bounded_iff (fuel : Nat) (buf : Str) (w : Lib.Proc.World Call Reply) :
    Bounded (lineRun fuel buf w).1 (lineRun fuel buf w).2.1 (lineRun fuel buf w).2.2.2 ↔
      ∀ e ∈ (lineRun fuel buf w).1, full e.1 = false := by
  constructor
  · rintro h ⟨c, r⟩ he
    cases c with
    | takes c p f buf =>
      show (ends c && f.argc == MAXARGS) = false
      rw [Bool.and_eq_false_imp, beq_eq_false_iff_ne]
      exact fun hends => Nat.ne_of_lt (h.fits c p f buf he hends)
    | _ => rfl
  · intro hshort
    have hstart : Kept [] [] := ⟨fun _ h => (List.not_mem_nil h).elim, fun _ h => (List.not_mem_nil h).elim⟩
    have hspec := lineShell_spec (g := Statics.ofLine buf) fuel hstart
    rcases hrun : lineRun fuel buf w with ⟨t, r, g, stores⟩
    rw [hrun] at hshort
    have hnil : short.Holds [] := fun _ h => (List.not_mem_nil h).elim
    rcases r with e | ⟨⟩
    · exact (Lib.provided_run_error hspec hrun hnil hshort).bounded hshort
    · exact (Lib.provided_run_ok hspec hrun hnil hshort).bounded hshort

/-- A line with as many words as `argv` has elements. -/
def crowded : Str := (List.replicate MAXARGS (bytes "a ")).flatten ++ [0]

theorem not_argv_bounded :
    ¬ ∀ (fuel : Nat) (buf : Str) (w : Lib.Proc.World Call Reply),
      Bounded (lineRun fuel buf w).1 (lineRun fuel buf w).2.1 (lineRun fuel buf w).2.2.2 := by
  intro h
  have hstore : MAXARGS ∈ (lineRun 200 crowded (calm 7)).2.2.2 := by decide +kernel
  exact Nat.lt_irrefl _ ((h 200 crowded (calm 7)).stores _ hstore)

end Mos.Shell.Stores
