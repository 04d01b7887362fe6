import Mos.Shell.Line
import Mos.Shell.Report

/-!
# Evaluation of `&&` and `||`

The documented evaluation goes from left to right, both operators having the same
precedence, and a skipped command leaves the status as it is. The shell lets the subshell of
a skipped command report 0 instead.
-/

namespace Mos.Shell

open Lib (Proc Prog)

/-! ## Two evaluations -/

/-- A command of a line: where its first word is, and its words. -/
structure Place where
  ptr : Nat
  args : List Str
  deriving DecidableEq, Repr

/-- An operator and the command behind it. It is glued if no blank stands before it. -/
structure Link where
  glued : Bool
  op : Op
  cmd : Place

/-- The command behind the operator runs. -/
def Op.goesOn : Op → Int → Bool
  | .and, status => status == 0
  | .or, status => status != 0

/-- The commands that run after the status `s`, by the documented evaluation. -/
def leftToRight (status : Place → Int) : Int → List Link → List Place
  | _, [] => []
  | s, l :: rest =>
    if l.op.goesOn s then l.cmd :: leftToRight status (status l.cmd) rest
    else leftToRight status s rest

/-- The documented evaluation of a line. -/
def evaluate (status : Place → Int) (c : Place) (rest : List Link) : List Place :=
  c :: leftToRight status (status c) rest

/-- The command as `spawn` gets it. The first byte of a glued operator is not cleared. -/
def Place.passed (c : Place) : List Link → Place
  | [] => c
  | l :: _ => if l.glued then ⟨c.ptr, addToLast c.args [l.op.byte]⟩ else c

/-- The commands that the shell runs. -/
def shellRuns (status : Place → Int) : Bool → Place → List Link → List Place
  | mark, c, [] => if mark then [c] else []
  | mark, c, l :: rest =>
    (if mark then [c.passed (l :: rest)] else []) ++
      shellRuns status
        (l.op.goesOn (if mark then status (c.passed (l :: rest)) else 0)) l.cmd rest

/-- The commands of a line that run stand apart from the operator behind them, and every `&&` that
is not the last operator is reached with the status 0. `s` is the status after `c`. -/
def Safe (status : Place → Int) : Bool → Int → List Link → Prop
  | _, _, [] => True
  | ran, s, l :: rest =>
    (ran = true → l.glued = false) ∧ (l.op = .and → rest ≠ [] → s = 0) ∧
      if l.op.goesOn s then Safe status true (status l.cmd) rest else Safe status false s rest

instance decidableSafe (status : Place → Int) :
    (ran : Bool) → (s : Int) → (rest : List Link) → Decidable (Safe status ran s rest)
  | _, _, [] => isTrue trivial
  | ran, s, l :: rest =>
    have := decidableSafe status true (status l.cmd) rest
    have := decidableSafe status false s rest
    inferInstanceAs (Decidable ((ran = true → l.glued = false) ∧ (l.op = .and → rest ≠ [] → s = 0) ∧
      if l.op.goesOn s then Safe status true (status l.cmd) rest else Safe status false s rest))

/-! ## When they agree -/

/-- The commands of a line stand one behind the other. -/
def Ordered (p : Nat) : List Link → Prop
  | [] => True
  | l :: rest => p < l.cmd.ptr ∧ Ordered l.cmd.ptr rest

theorem leftToRight_after {status : Place → Int} {p : Nat} {s : Int} {rest : List Link}
    (h : Ordered p rest) : ∀ c ∈ leftToRight status s rest, p < c.ptr := by
  induction rest generalizing p s with
  | nil => simp [leftToRight]
  | cons l rest ih =>
    intro c hc
    unfold leftToRight at hc
    have htail : ∀ s, c ∈ leftToRight status s rest → p < c.ptr := fun s hc =>
      Nat.lt_trans h.1 (ih h.2 c hc)
    split at hc
    · rcases List.mem_cons.mp hc with rfl | hc
      · exact h.1
      · exact htail _ hc
    · exact htail _ hc

theorem passed_ptr (c : Place) (rest : List Link) : (c.passed rest).ptr = c.ptr := by
  unfold Place.passed
  split
  · rfl
  · split <;> rfl

/-- What runs from a skipped command on stands behind it. -/
theorem shellRuns_after {status : Place → Int} {p : Nat} {mark : Bool} {c : Place}
    {rest : List Link} (hp : p < c.ptr ∨ p ≤ c.ptr ∧ mark = false) (h : Ordered c.ptr rest) :
    ∀ x ∈ shellRuns status mark c rest, p < x.ptr := by
  induction rest generalizing p mark c with
  | nil =>
    intro x hx
    unfold shellRuns at hx
    split at hx
    · obtain rfl := List.mem_singleton.mp hx
      rcases hp with hp | ⟨-, hm⟩
      · exact hp
      · simp_all
    · simp at hx
  | cons l rest ih =>
    intro x hx
    unfold shellRuns at hx
    rcases List.mem_append.mp hx with hx | hx
    · split at hx
      · obtain rfl := List.mem_singleton.mp hx
        rw [passed_ptr]
        rcases hp with hp | ⟨-, hm⟩
        · exact hp
        · simp_all
      · simp at hx
    · exact ih (Or.inl (by have := h.1; omega)) h.2 x hx

theorem addToLast_ne (l : List Str) (s : Str) (hl : l ≠ []) (hs : s ≠ []) : addToLast l s ≠ l := by
  induction l with
  | nil => exact absurd rfl hl
  | cons w l ih =>
    cases l with
    | nil => simp [addToLast, hs]
    | cons w' l =>
      unfold addToLast
      intro h
      exact ih (by simp) (List.cons.inj h).2

theorem passed_eq_iff {c : Place} (hc : c.args ≠ []) (l : Link) (rest : List Link) :
    c.passed (l :: rest) = c ↔ l.glued = false := by
  have heq : c.passed (l :: rest) =
      if l.glued then ⟨c.ptr, addToLast c.args [l.op.byte]⟩ else c := rfl
  rw [heq]
  by_cases hg : l.glued = true
  · rw [if_pos hg, hg]
    refine iff_of_false (fun h => ?_) nofun
    exact addToLast_ne c.args [l.op.byte] hc (by simp) (congrArg Place.args h)
  · rw [if_neg hg]
    exact iff_of_true rfl (by simpa using hg)

theorem ne_of_after {c : Place} {l l' : List Place} (h : ∀ x ∈ l', c.ptr < x.ptr) : c :: l ≠ l' := by
  rintro rfl
  exact absurd (h c List.mem_cons_self) (Nat.lt_irrefl _)

/-- After an `&&` that is reached with a status other than 0 and is not the last operator, the next
operator is decided wrongly. -/
theorem skipped_and_differs {status : Place → Int} {c : Place} {l : Link} {rest : List Link}
    {s : Int} (ho : Ordered c.ptr (l :: rest)) (hs : s ≠ 0) :
    shellRuns status false c (l :: rest) ≠ leftToRight status s (l :: rest) := by
  have hafter : ∀ mark, ∀ x ∈ shellRuns status mark l.cmd rest, mark = false → l.cmd.ptr < x.ptr :=
    fun mark x hx hm => shellRuns_after (Or.inr ⟨Nat.le_refl _, hm⟩) ho.2 x hx
  unfold shellRuns leftToRight
  simp only [Bool.false_eq_true, if_false, List.nil_append]
  cases hop : l.op with
  | and =>
    have h1 : Op.goesOn .and 0 = true := rfl
    have h2 : Op.goesOn .and s = false := by simpa [Op.goesOn] using hs
    rw [h1, h2]
    simp only [Bool.false_eq_true, if_false]
    intro heq
    -- The shell runs the command, the documented evaluation something behind it.
    have hlater : ∀ x ∈ leftToRight status s rest, l.cmd.ptr < x.ptr := leftToRight_after ho.2
    rw [← heq] at hlater
    cases rest with
    | nil =>
      have := hlater l.cmd (by simp [shellRuns])
      omega
    | cons l' rest =>
      have := hlater (l.cmd.passed (l' :: rest)) (by simp [shellRuns])
      rw [passed_ptr] at this
      omega
  | or =>
    have h1 : Op.goesOn .or 0 = false := rfl
    have h2 : Op.goesOn .or s = true := by simpa [Op.goesOn] using hs
    rw [h1, h2, if_pos rfl]
    exact fun heq => ne_of_after (fun x hx => hafter false x hx rfl) heq.symm

theorem runs_iff {status : Place → Int} {ran : Bool} {c : Place} {s : Int} {rest : List Link}
    (ho : Ordered c.ptr rest) (hc : c.args ≠ []) (hargs : ∀ l ∈ rest, l.cmd.args ≠ [])
    (hran : ran = true → s = status c) (hskip : ran = false → s = 0 ∨ rest = []) :
    shellRuns status ran c rest = (if ran then [c] else []) ++ leftToRight status s rest ↔
      Safe status ran s rest := by
  induction rest generalizing ran c s with
  | nil => simp [shellRuns, leftToRight, Safe]
  | cons l rest ih =>
    have hargs' : ∀ l' ∈ rest, l'.cmd.args ≠ [] := fun l' h => hargs l' (by simp [h])
    by_cases hglue : ran = true ∧ l.glued = true
    · -- The command runs under another name.
      obtain ⟨rfl, hg⟩ := hglue
      refine iff_of_false (fun h => ?_) fun h => ?_
      · unfold shellRuns at h
        rw [if_pos rfl, if_pos rfl] at h
        have := (passed_eq_iff hc l rest).mp (List.cons.inj h).1
        rw [hg] at this
        exact absurd this nofun
      · unfold Safe at h
        have := h.1 rfl
        rw [hg] at this
        exact absurd this nofun
    have hglue' : ran = true → l.glued = false := fun h => by
      by_contra hg
      exact hglue ⟨h, by simpa using hg⟩
    -- The shell decides by the same status.
    have hstatus : (if ran then status (c.passed (l :: rest)) else 0) = s := by
      cases hr : ran with
      | false => exact (hskip hr).elim Eq.symm nofun
      | true =>
        rw [if_pos rfl, (passed_eq_iff hc l rest).mpr (hglue' hr), hran hr]
    have hhead : (if ran = true then [c.passed (l :: rest)] else []) = if ran then [c] else [] := by
      cases hr : ran with
      | false => rfl
      | true => rw [(passed_eq_iff hc l rest).mpr (hglue' hr)]
    unfold shellRuns
    rw [hhead, hstatus, List.append_cancel_left_eq]
    unfold leftToRight Safe
    cases hgo : l.op.goesOn s with
    | true =>
      have hand : l.op = .and → rest ≠ [] → s = 0 := by
        intro h _
        rw [h] at hgo
        simpa [Op.goesOn] using hgo
      have hrun : shellRuns status true l.cmd rest =
          [l.cmd] ++ leftToRight status (status l.cmd) rest ↔
            Safe status true (status l.cmd) rest :=
        ih ho.2 (hargs l (by simp)) hargs' (fun _ => rfl) nofun
      rw [if_pos rfl, if_pos rfl, ← List.singleton_append, hrun]
      exact ⟨fun h => ⟨hglue', hand, h⟩, fun h => h.2.2⟩
    | false =>
      simp only [Bool.false_eq_true, if_false]
      by_cases hs : s = 0 ∨ rest = []
      · have hskipped : shellRuns status false l.cmd rest = [] ++ leftToRight status s rest ↔
            Safe status false s rest :=
          ih ho.2 (hargs l (by simp)) hargs' nofun (fun _ => hs)
        rw [List.nil_append] at hskipped
        rw [hskipped]
        exact ⟨fun h => ⟨hglue', fun _ hr => hs.resolve_right hr, h⟩, fun h => h.2.2⟩
      · obtain ⟨hs0, hrest⟩ := not_or.mp hs
        obtain ⟨l', rest', rfl⟩ := List.exists_cons_of_ne_nil hrest
        have hop : l.op = .and := by
          cases h : l.op with
          | and => rfl
          | or =>
            rw [h] at hgo
            exact absurd (by simpa [Op.goesOn] using hgo) hs0
        exact iff_of_false (skipped_and_differs ho.2 hs0) fun h => hs0 (h.2.1 hop hrest)

/-! ## The shell and its subshells -/

/-- What the processes of a line have run, in that order, and what this one has reported. -/
structure Outcome where
  ran : List Place
  sent : Option Int

/-- What happens from a report that has not been received and an outcome on. It is `none` if the
process waits for a report that nobody sends, or spawns a command without a name. -/
abbrev Deed := Option Int → Outcome → Option Outcome

/-- A subshell runs before its parent goes on, since the parent waits for its report, and the report
is delivered. A command that was spawned reports its status. Everything else is answered by `w`. -/
def act (w : (c : Call) → Reply c) (status : Place → Int) : (c : Call) → (Reply c → Deed) → Deed
  | .fork, k => fun _ o => (k (0 : Int) none ⟨o.ran, none⟩).bind fun o' =>
      k (1 : Int) o'.sent ⟨o'.ran, o.sent⟩
  | .spawn (some p) args, k => fun _ o =>
      k (2 : Int) (some (status ⟨p, args⟩)) ⟨o.ran ++ [⟨p, args⟩], o.sent⟩
  | .spawn none _, _ => fun _ _ => none
  | .recvReturnValue, k => fun inbox o => inbox.bind fun v => k v none o
  | .sendReturnValue v, k => fun inbox o => k (0 : Int) inbox ⟨o.ran, some v⟩
  | c, k => fun inbox o => k (w c) inbox o

def done {α : Type} : Except Stop α → Statics → Deed := fun _ _ _ o => some o

/-- What the line shell for `buf` and its subshells run. -/
def execLine (w : (c : Call) → Reply c) (status : Place → Int) (buf : Str) : Option Outcome :=
  (lineShell (enough buf)).fold (act w status) (.ofLine buf) done none ⟨[], none⟩

/-- What is left of a line shell when `parsecmd` has returned. -/
def afterParse (w : (c : Call) → Reply c) (status : Place → Int) :
    Except Stop (Nat × Argv × Int) → Statics → Deed
  | .ok (argc, argv, rightpipe), g =>
    (do finish argc argv rightpipe; exit : Sh Unit).fold (act w status) g done
  | .error e, g => done (.error e : Except Stop Unit) g

section

variable {w : (c : Call) → Reply c} {status : Place → Int}

theorem fold_ite {α β : Type} {step : (c : Call) → (Reply c → β) → β} {c : Prop} [Decidable c]
    (x y : Sh α) (g : Statics) (k : Except Stop α → Statics → β) :
    (if c then x else y).fold step g k = if c then x.fold step g k else y.fold step g k := by
  split <;> rfl

theorem exec_nothing {argv : Argv} (h : (argv 0).isSome = true) (g : Statics) (o : Outcome) :
    afterParse w status (.ok (0, argv, 0)) g none o = some ⟨o.ran, some 0⟩ := by
  unfold afterParse finish exit
  simp only [Lib.fold_bind, if_true, h, Lib.fold_call, Lib.fold_pure, Lib.fold_throw]
  rfl

theorem fold_string {β : Type} {step : (c : Call) → (Reply c → β) → β} {p : Ptr}
    (h : p.isSome = true) (g : Statics) (k : Except Stop Str → Statics → β) :
    (string p).fold step g k = k (.ok (text g.buf p)) g := by
  obtain ⟨s, rfl⟩ := Option.isSome_iff_exists.mp h
  rfl

theorem fold_args {β : Type} {step : (c : Call) → (Reply c → β) → β} {argv : Argv} {argc : Nat}
    (h : Words argv argc) (g : Statics) (k : Except Stop (List Str) → Statics → β) :
    (args argv argc).fold step g k =
      k (.ok ((List.range argc).map fun i => text g.buf (argv i))) g := by
  have hl : ∀ i ∈ List.range argc, (argv i).isSome = true := fun i hi => h i (List.mem_range.mp hi)
  unfold args
  generalize List.range argc = l at hl
  induction l generalizing k with
  | nil => simp only [List.mapM_nil, Lib.fold_pure, List.map_nil]
  | cons i l ih =>
    simp only [List.mapM_cons, Lib.fold_bind, Lib.fold_pure, fold_string (hl i List.mem_cons_self),
      List.map_cons]
    rw [ih _ fun j hj => hl j (List.mem_cons_of_mem _ hj)]

theorem fold_runBuiltin {β : Type} {step : (c : Call) → (Reply c → β) → β} {prog : Str}
    (h : prog ∉ builtins) (argv : Argv) (g : Statics) (k : Except Stop Unit → Statics → β) :
    (runBuiltin prog argv).fold step g k = k (.ok ()) g := by
  unfold builtins at h
  simp only [List.mem_cons, List.not_mem_nil, or_false, not_or] at h
  unfold runBuiltin
  rw [if_neg h.1, if_neg h.2.1, if_neg h.2.2.1, if_neg h.2.2.2]
  rfl

/-- A process that runs an external command reports its status if the token before asks for it. -/
theorem exec_command {argc p : Nat} {argv : Argv} {args : List Str} (hpos : 0 < argc)
    (hw : Words argv argc) (h0 : argv 0 = some p) (g : Statics) (o : Outcome)
    (hargs : ((List.range argc).map fun i => text g.buf (argv i)) = args)
    (hext : text g.buf (argv 0) ∉ builtins) :
    afterParse w status (.ok (argc, argv, 0)) g none o =
      some ⟨o.ran ++ [⟨p, args⟩], if g.flag then some (status ⟨p, args⟩) else o.sent⟩ := by
  have hlt : ∀ i < argc, Function.update argv argc none i = argv i := fun i hi =>
    Function.update_of_ne (by omega) ..
  have hw' : Words (Function.update argv argc none) argc := by
    intro i hi
    rw [hlt i hi]
    exact hw i hi
  have hargs' : ((List.range argc).map fun i => text g.buf (Function.update argv argc none i)) =
      args := by
    rw [← hargs]
    refine List.map_congr_left fun i hi => ?_
    rw [hlt i (List.mem_range.mp hi)]
  have hne : argc ≠ 0 := by omega
  unfold afterParse finish runExternal
  simp only [Lib.fold_bind, hne, if_false, hlt 0 hpos, fold_string (hw 0 hpos),
    fold_runBuiltin hext, fold_args hw', Lib.fold_call]
  rw [hlt 0 hpos, h0, hargs']
  unfold report waitRight exit
  have h2 : ¬ (2 : Int) < 0 := by decide
  by_cases hf : g.flag = true
  · simp only [Lib.fold_bind, fold_ite, Lib.fold_get, Lib.fold_call, Lib.fold_pure, Lib.fold_throw,
      act, hf, h2, if_true, if_false, Option.bind_some, ne_eq, not_true_eq_false, done]
  · by_cases hj : g.jobFlag = true
    · simp only [Lib.fold_bind, fold_ite, Lib.fold_get, Lib.fold_call, Lib.fold_pure, Lib.fold_throw,
        act, hf, hj, h2, if_true, if_false, ne_eq, not_true_eq_false, done]
      rfl
    · simp only [Lib.fold_bind, fold_ite, Lib.fold_get, Lib.fold_call, Lib.fold_pure, Lib.fold_throw,
        act, hf, hj, h2, if_false, ne_eq, not_true_eq_false, done]
      rfl

/-! ## Parsing a command -/

/-- The frame when the words at `ps` have been taken. -/
def Frame.pushes (f : Frame) (ps : List Nat) : Frame := ps.foldl (fun f p => f.push (some p)) f

theorem pushes_mark (f : Frame) (ps : List Nat) : (f.pushes ps).mark = f.mark := by
  induction ps generalizing f with
  | nil => rfl
  | cons p ps ih => exact ih (f.push (some p))

theorem pushes_argc (f : Frame) (ps : List Nat) : (f.pushes ps).argc = f.argc + ps.length := by
  induction ps generalizing f with
  | nil => rfl
  | cons p ps ih =>
    have := ih (f.push (some p))
    have hp : (f.push (some p)).argc = f.argc + 1 := rfl
    rw [List.length_cons]
    unfold Frame.pushes at this ⊢
    rw [List.foldl_cons]
    omega

theorem pushes_argv (f : Frame) (ps : List Nat) :
    (∀ i < f.argc, (f.pushes ps).argv i = f.argv i) ∧
      ∀ i (h : i < ps.length), (f.pushes ps).argv (f.argc + i) = some ps[i] := by
  induction ps generalizing f with
  | nil => exact ⟨fun _ _ => rfl, fun i h => absurd h (by simp)⟩
  | cons p ps ih =>
    obtain ⟨h1, h2⟩ := ih (f.push (some p))
    have hpush : ∀ i < f.argc, (f.push (some p)).argv i = f.argv i := fun i hi =>
      Function.update_of_ne (by omega) ..
    have hself : (f.push (some p)).argv f.argc = some p := Function.update_self ..
    have hp : (f.push (some p)).argc = f.argc + 1 := rfl
    refine ⟨fun i hi => (h1 i (by omega)).trans (hpush i hi), fun i hi => ?_⟩
    rcases i with _ | i
    · exact (h1 f.argc (by omega)).trans hself
    · have := h2 i (by simpa using hi)
      rw [hp] at this
      rw [List.getElem_cons_succ, ← this]
      exact congrArg (f.pushes (p :: ps)).argv (by omega)

theorem fold_gettoken {β : Type} {step : (c : Call) → (Reply c → β) → β} (g : Statics)
    (k : Except Stop (Tok × Ptr) → Statics → β) :
    gettoken.fold step g k = k (.ok (g.nc, g.np1)) g.next := rfl

theorem exec_word (n : Nat) (f : Frame) {g : Statics} (hc : g.nc = .word) (hroom : f.argc < MAXARGS)
    (k : Except Stop (Nat × Argv × Int) → Statics → Deed) (inbox : Option Int) (o : Outcome) :
    (parsecmd (n + 1) f 0).fold (act w status) g k inbox o =
      (parsecmd n (f.push g.np1) 0).fold (act w status)
        ((g.next.setFlag false).setJobFlag false) k inbox o := by
  have hroom' : ¬ f.argc ≥ MAXARGS := by omega
  conv_lhs => unfold parsecmd
  simp only [Lib.fold_bind, fold_gettoken, Lib.fold_get, Lib.fold_call, Lib.fold_modify, hc, act,
    hroom', if_false]

variable (w status) in
/-- The words of a command are taken one by one. -/
theorem exec_words {ws : List (Str × Str)} {todo : List Lexeme} {tail done : Str} {g : Statics}
    (n : Nat) (f : Frame)
    (hat : At g done (wordLexemes ws ++ todo) tail) (hv : Valid (wordLexemes ws ++ todo))
    (he : IsEnd tail) (hfits : f.argc + ws.length ≤ MAXARGS)
    (k : Except Stop (Nat × Argv × Int) → Statics → Deed) :
    ∃ g', At g' (done ++ images (wordLexemes ws)) todo tail ∧
      ∀ inbox o, (parsecmd (n + ws.length) f 0).fold (act w status) g k inbox o =
        (parsecmd n (f.pushes (pointers done.length ws)) 0).fold (act w status) g' k inbox o := by
  induction ws generalizing done g f with
  | nil =>
    refine ⟨g, ?_, fun _ _ => rfl⟩
    simpa [images, wordLexemes] using hat
  | cons x ws ih =>
    obtain ⟨gap, x⟩ := x
    rw [wordLexemes, List.map_cons, List.cons_append] at hat hv
    obtain ⟨hnc, hp1, -, hat'⟩ := hat.word hv he
    have hat'' : At ((g.next.setFlag false).setJobFlag false)
        (done ++ (Lexeme.word gap x).image) (wordLexemes ws ++ todo) tail :=
      (hat'.setFlag false).setJobFlag false
    obtain ⟨g', hg', heq⟩ := ih (f.push (some (done.length + gap.length))) hat'' hv.2.2.2 (by
      have : (f.push (some (done.length + gap.length))).argc = f.argc + 1 := rfl
      rw [List.length_cons] at hfits
      omega)
    refine ⟨g', ?_, fun inbox o => ?_⟩
    · simpa [images, wordLexemes] using hg'
    · have hlen : (done ++ (Lexeme.word gap x).image).length =
          done.length + (gap.length + x.length) := by
        simp [Lexeme.image]
      rw [hlen] at heq
      have hroom : f.argc < MAXARGS := by
        rw [List.length_cons] at hfits
        omega
      rw [List.length_cons, ← Nat.add_assoc, exec_word _ f hnc hroom, hp1]
      exact heq inbox o

theorem exec_eof (n : Nat) (f : Frame) {g : Statics} (hc : g.nc = .eof)
    (k : Except Stop (Nat × Argv × Int) → Statics → Deed) (inbox : Option Int) (o : Outcome) :
    (parsecmd (n + 1) f 0).fold (act w status) g k inbox o =
      k (.ok (f.result, f.argv, 0)) (g.next.setFlag false) inbox o := by
  conv_lhs => unfold parsecmd
  simp only [Lib.fold_bind, fold_gettoken, Lib.fold_get, Lib.fold_call, Lib.fold_modify, hc, act,
    Lib.fold_pure]

/-- At an operator the subshell runs the command in front of it and the parent goes on with the
value that it reports. -/
theorem exec_op (n : Nat) (f : Frame) (op : Op) {g : Statics} (hc : g.nc = op.tok)
    (k : Except Stop (Nat × Argv × Int) → Statics → Deed) (o : Outcome) :
    (parsecmd (n + 1) f 0).fold (act w status) g k none o =
      (k (.ok (f.result, f.argv, 0)) (g.next.setFlag true) none ⟨o.ran, none⟩).bind fun o' =>
        o'.sent.bind fun v =>
          (parsecmd n ⟨0, f.argv, op.goesOn v⟩ 0).fold (act w status) (g.next.setFlag true) k none
            ⟨o'.ran, o.sent⟩ := by
  have h1 : (1 : Int) ≠ 0 := by decide
  conv_lhs => unfold parsecmd
  cases op with
  | and =>
    simp only [Lib.fold_bind, fold_gettoken, Lib.fold_get, Lib.fold_call, Lib.fold_modify, hc, act,
      Op.tok, fold_ite, Lib.fold_pure, if_true, h1, if_false]
    rfl
  | or =>
    simp only [Lib.fold_bind, fold_gettoken, Lib.fold_get, Lib.fold_call, Lib.fold_modify, hc, act,
      Op.tok, fold_ite, Lib.fold_pure, if_true, h1, if_false]
    rfl

/-- A process whose frame holds the words at `ps` runs them if it is marked. -/
theorem exec_pushed (argv : Argv) (mark : Bool) (p : Nat) (ps' : List Nat) {args : List Str}
    (g : Statics) (o : Outcome) (hargs : (p :: ps').map (fun p => text g.buf (some p)) = args)
    (hext : ∀ name, args.head? = some name → name ∉ builtins) :
    let f := (Frame.mk 0 argv mark).pushes (p :: ps')
    afterParse w status (.ok (f.result, f.argv, 0)) g none o =
      if mark then some ⟨o.ran ++ [⟨p, args⟩], if g.flag then some (status ⟨p, args⟩) else o.sent⟩
      else some ⟨o.ran, some 0⟩ := by
  intro f
  have hargc : f.argc = (p :: ps').length := by
    have := pushes_argc (Frame.mk 0 argv mark) (p :: ps')
    rwa [Nat.zero_add] at this
  have hargv : ∀ i (h : i < (p :: ps').length), f.argv i = some ((p :: ps')[i]) := by
    intro i hi
    have := (pushes_argv (Frame.mk 0 argv mark) (p :: ps')).2 i hi
    rwa [Nat.zero_add] at this
  have hfirst : f.argv 0 = some p := hargv 0 (by simp)
  have hmark : f.mark = mark := pushes_mark ..
  unfold Frame.result
  rw [hmark, hargc]
  cases mark with
  | false =>
    simp only [Bool.false_eq_true, if_false]
    exact exec_nothing (by rw [hfirst]; rfl) g o
  | true =>
    have hwords : Words f.argv (p :: ps').length := fun i hi => by
      rw [hargv i hi]
      rfl
    have htexts : ((List.range (p :: ps').length).map fun i => text g.buf (f.argv i)) = args := by
      rw [← hargs]
      refine List.ext_getElem (by simp) fun i h1 h2 => ?_
      rw [List.getElem_map, List.getElem_map, List.getElem_range]
      exact congrArg (text g.buf) (hargv i (by simpa using h1))
    have hname : text g.buf (f.argv 0) ∉ builtins := by
      rw [hfirst]
      refine hext _ ?_
      rw [← hargs]
      rfl
    simp only [if_true]
    exact exec_command (by simp) hwords hfirst g o htexts hname

/-! ## A line -/

/-- The command that starts at `base`. -/
def Cmd.place (base : Nat) (c : Cmd) : Place := ⟨base + c.lead.length, c.args⟩

/-- The operators and the commands behind a command that ends at `base`. -/
def links : Nat → List Join → List Link
  | _, [] => []
  | base, j :: rest =>
    ⟨j.gap.isEmpty, j.op, j.cmd.place (base + j.gap.length + 2)⟩ ::
      links (base + j.gap.length + 2 + (images j.cmd.lexemes).length) rest

theorem lead_le_images (c : Cmd) : c.lead.length ≤ (images c.lexemes).length := by
  unfold images Cmd.lexemes Cmd.words wordLexemes
  simp only [List.map_cons, List.flatMap_cons, Lexeme.image, List.length_append,
    List.length_replicate]
  omega

theorem ordered_links {p base : Nat} (h : p < base + 2) (rest : List Join) :
    Ordered p (links base rest) := by
  induction rest generalizing p base with
  | nil => trivial
  | cons j rest ih =>
    refine ⟨?_, ih ?_⟩
    · have : (j.cmd.place (base + j.gap.length + 2)).ptr =
        base + j.gap.length + 2 + j.cmd.lead.length := rfl
      show p < (j.cmd.place (base + j.gap.length + 2)).ptr
      omega
    · have hlead := lead_le_images j.cmd
      show base + j.gap.length + 2 + j.cmd.lead.length < _
      omega

theorem links_args (base : Nat) (rest : List Join) : ∀ l ∈ links base rest, l.cmd.args ≠ [] := by
  induction rest generalizing base with
  | nil => nofun
  | cons j rest ih =>
    intro l hl
    rcases List.mem_cons.mp hl with rfl | hl
    · exact nofun
    · exact ih _ l hl

theorem addToLast_nil (l : List Str) : addToLast l [] = l := by
  induction l with
  | nil => rfl
  | cons w l ih =>
    cases l with
    | nil => rw [addToLast, List.append_nil]
    | cons w' l => rw [addToLast, ih]; nofun

/-- What the operator behind a command leaves in the memory next to it. -/
def uncleared : List Link → Str
  | [] => []
  | l :: _ => if l.glued then [l.op.byte] else []

theorem passed_args (c : Place) (after : List Link) :
    (c.passed after).args = addToLast c.args (uncleared after) := by
  unfold Place.passed uncleared
  split
  · rw [addToLast_nil]
  · split
    · rfl
    · rw [addToLast_nil]

theorem uncleared_nonzero (after : List Link) : ∀ b ∈ uncleared after, b ≠ 0 := by
  intro b hb
  unfold uncleared at hb
  split at hb
  · nomatch hb
  · rename_i l _
    split at hb
    · obtain rfl := List.mem_singleton.mp hb
      cases l.op <;> decide
    · nomatch hb

theorem glued_external {name : Str} (op : Op) : name ++ [op.byte] ∉ builtins := by
  intro h
  have : ∀ b ∈ builtins, b.getLast? ≠ some op.byte := by cases op <;> decide +kernel
  exact this _ h (by simp)

theorem passed_external {c : Cmd} (h : c.Simple) (base : Nat) (rest : List Link) :
    ∀ name, ((c.place base).passed rest).args.head? = some name → name ∉ builtins := by
  intro name hname
  unfold Place.passed at hname
  split at hname
  · obtain rfl := Option.some.inj hname
    exact h.external
  · rename_i l _
    split at hname
    · unfold Cmd.place Cmd.args Cmd.words at hname
      rcases hr : c.rest with _ | ⟨w, ws⟩
      · rw [hr] at hname
        obtain rfl := Option.some.inj hname
        exact glued_external l.op
      · rw [hr] at hname
        obtain rfl := Option.some.inj hname
        exact h.external
    · obtain rfl := Option.some.inj hname
      exact h.external

variable (w status) in
/-- A process that has taken the words of the command `c` runs it if it is marked. `after` is what
the line holds behind them. -/
theorem exec_simple {c : Cmd} (h : c.Simple) (argv : Argv) (mark : Bool) (done : Str)
    (after : List Link) {g : Statics} (junk : Str) (o : Outcome)
    (hbuf : g.buf = done ++ images c.lexemes ++ junk)
    (hjunk : ∃ junk', junk = uncleared after ++ 0 :: junk') :
    let f := (Frame.mk 0 argv mark).pushes (pointers done.length c.words)
    let p := (c.place done.length).passed after
    afterParse w status (.ok (f.result, f.argv, 0)) g none o =
      if mark then some ⟨o.ran ++ [p], if g.flag then some (status p) else o.sent⟩
      else some ⟨o.ran, some 0⟩ := by
  intro f p
  obtain ⟨junk', rfl⟩ := hjunk
  have hargs : (pointers done.length c.words).map (fun q => text g.buf (some q)) = p.args := by
    have hnul : ∀ w ∈ c.words, ∀ b ∈ w.2, b ≠ 0 := fun w hw b hb =>
      ((wordByte_iff b).mp ((h.words w hw).bytes b hb).1).1
    rw [hbuf]
    unfold Cmd.lexemes
    rw [texts_of_words done (uncleared_nonzero after) hnul fun w hw => (h.gaps w hw).2, passed_args]
    rfl
  have hp : p = ⟨done.length + c.lead.length, p.args⟩ := by
    have : p.ptr = done.length + c.lead.length := passed_ptr ..
    rw [← this]
  rw [hp]
  exact exec_pushed argv mark _ _ g o hargs (passed_external h done.length after)

variable (w status) in
theorem exec_line {rest : List Join} {c : Cmd} (hc : c.Simple) (hrest : ∀ j ∈ rest, j.Simple)
    {tail done : Str} (he : IsEnd tail) {g : Statics}
    (hat : At g done (c.lexemes ++ joinLexemes rest) tail)
    (n : Nat) (hn : (c.lexemes ++ joinLexemes rest).length < n) (argv : Argv) (mark : Bool)
    (o : Outcome) :
    ∃ sent, (parsecmd n ⟨0, argv, mark⟩ 0).fold (act w status) g (afterParse w status) none o =
      some ⟨o.ran ++ (shellRuns status mark (c.place done.length)
        (links (done.length + (images c.lexemes).length) rest)), sent⟩ := by
  induction rest generalizing c done g n argv mark o with
  | nil =>
    -- The last command runs in this process.
    obtain ⟨n, rfl⟩ : ∃ m, n = m + 1 + c.words.length := by
      refine ⟨n - 1 - c.words.length, ?_⟩
      have : c.lexemes.length = c.words.length := List.length_map ..
      simp only [joinLexemes, List.flatMap_nil, List.append_nil] at hn
      omega
    obtain ⟨g', hat', hrun⟩ := exec_words w status (n + 1) ⟨0, argv, mark⟩ hat
      (hc.valid trivial trivial) he (by have := hc.fits; simp only; omega) (afterParse w status)
    obtain ⟨hnc, hp2, k, junk, hbuf⟩ := hat'.eof he
    have hnext : g'.next.buf = g'.buf := by
      unfold Statics.next
      rw [hp2]
      rfl
    have := exec_simple w status hc argv mark done []
      (List.replicate k 0 ++ 0 :: junk) o (g := g'.next.setFlag false)
      (by
        show g'.next.buf = _
        rw [hnext, hbuf]
        simp only [Cmd.lexemes, List.append_assoc]) (by
        cases k with
        | zero => exact ⟨junk, rfl⟩
        | succ k => exact ⟨List.replicate k 0 ++ 0 :: junk, rfl⟩)
    rw [hrun, exec_eof n _ hnc, this]
    unfold links shellRuns Place.passed
    cases mark with
    | true => exact ⟨_, rfl⟩
    | false =>
      refine ⟨some 0, ?_⟩
      simp
  | cons j rest ih =>
    have hj := hrest j List.mem_cons_self
    have hrest' : ∀ j' ∈ rest, j'.Simple := fun j' hj' => hrest j' (List.mem_cons_of_mem _ hj')
    have hvalid := valid_joins hrest
    obtain ⟨n, rfl, hn'⟩ : ∃ m, n = m + 1 + c.words.length ∧
        (j.cmd.lexemes ++ joinLexemes rest).length < m := by
      refine ⟨n - 1 - c.words.length, ?_⟩
      have : c.lexemes.length = c.words.length := List.length_map ..
      have hcons : joinLexemes (j :: rest) =
        .op j.gap j.op :: (j.cmd.lexemes ++ joinLexemes rest) := rfl
      rw [hcons, List.length_append, List.length_cons] at hn
      omega
    obtain ⟨g', hat', hrun⟩ := exec_words w status (n + 1) ⟨0, argv, mark⟩ hat
      (hc.valid hvalid (apart_joins _)) he (by have := hc.fits; simp only; omega)
      (afterParse w status)
    obtain ⟨hnc, -, -, hnext⟩ := hat'.op hvalid
    have hat'' : At (g'.next.setFlag true) _ (j.cmd.lexemes ++ joinLexemes rest) tail :=
      hnext.setFlag true
    obtain ⟨junk, hbuf⟩ := hat''.buf (hj.2.valid (valid_joins hrest') (apart_joins rest)) he
    set l : Link := ⟨j.gap.isEmpty, j.op, j.cmd.place (done.length + (images c.lexemes).length +
      j.gap.length + 2)⟩
    set after := links (done.length + (images c.lexemes).length + j.gap.length + 2 +
      (images j.cmd.lexemes).length) rest
    -- The subshell runs the command in front of the operator and reports.
    have hchild := exec_simple w status hc argv mark done (l :: after) _
      (g := g'.next.setFlag true) ⟨o.ran, none⟩ (hbuf.trans (by
        simp only [Cmd.lexemes, List.append_assoc]; rfl)) (by
        by_cases hg : j.gap = []
        · refine ⟨junk, ?_⟩
          simp [hg, Lexeme.image, uncleared, l]
        · obtain ⟨b, gap, hgap⟩ := List.exists_cons_of_ne_nil hg
          refine ⟨List.replicate gap.length 0 ++ (j.op.byte :: 0 :: junk), ?_⟩
          simp [hgap, Lexeme.image, uncleared, l, List.replicate_succ])
    -- The parent goes on behind the operator.
    set p := (c.place done.length).passed (l :: after)
    obtain ⟨sent, hparent⟩ := ih hj.2 hrest' hat'' n hn'
      ((Frame.mk 0 argv mark).pushes (pointers done.length c.words)).argv
      (j.op.goesOn (if mark then status p else 0))
      ⟨o.ran ++ if mark then [p] else [], o.sent⟩
    have hlen : (done ++ images (wordLexemes c.words) ++ (Lexeme.op j.gap j.op).image).length =
        done.length + (images c.lexemes).length + j.gap.length + 2 := by
      simp only [List.length_append, Lexeme.image, List.length_replicate, List.length_cons,
        List.length_nil, Cmd.lexemes]
      omega
    rw [hlen] at hparent
    refine ⟨sent, ?_⟩
    rw [hrun, exec_op n _ j.op hnc, hchild]
    unfold links shellRuns
    cases mark with
    | true =>
      simp only [if_true] at hparent ⊢
      show (parsecmd n _ 0).fold (act w status) _ _ none _ = _
      rw [hparent, List.append_assoc]
    | false =>
      simp only [Bool.false_eq_true, if_false, List.append_nil] at hparent ⊢
      exact hparent

/-! ## The start of a line -/

theorem fold_saveHistoryCmd (cmd : Str) (g : Statics) (k : Except Stop Unit → Statics → Deed) :
    (saveHistoryCmd cmd).fold (act w status) g k = k (.ok ()) g := by
  unfold saveHistoryCmd
  funext inbox o
  simp only [Lib.fold_bind, fold_ite, Lib.fold_call, Lib.fold_pure, act]
  split <;> rfl

/-- The bytes of a line of words and operators. -/
theorem render_bytes {l : List Lexeme} (hv : Valid l) :
    ∀ b ∈ l.flatMap Lexeme.text, b ≠ 0 ∧ b ≠ ch '#' := by
  have hblank : ∀ gap, IsBlank gap → ∀ b ∈ gap, b ≠ 0 ∧ b ≠ ch '#' := by
    intro gap hgap b hb
    have := hgap b hb
    constructor
    · rintro rfl
      exact absurd this (by decide)
    · rintro rfl
      exact absurd this (by decide)
  induction l with
  | nil => nofun
  | cons x l ih =>
    intro b hb
    rw [List.flatMap_cons] at hb
    rcases x with ⟨gap, w⟩ | ⟨gap, o⟩
    · rcases List.mem_append.mp hb with hb | hb
      · rcases List.mem_append.mp hb with hb | hb
        · exact hblank gap hv.1 b hb
        · obtain ⟨h1, h2⟩ := hv.2.1.bytes b hb
          exact ⟨((wordByte_iff b).mp h1).1, h2⟩
      · exact ih hv.2.2.2 b hb
    · rcases List.mem_append.mp hb with hb | hb
      · rcases List.mem_append.mp hb with hb | hb
        · exact hblank gap hv.1 b hb
        · have : b = o.byte := by simpa using hb
          rw [this]
          cases o <;> decide
      · exact ih hv.2 b hb

/-- A line without `#` is not cut. -/
theorem cut_nothing {l : List Lexeme} {tail : Str} (hv : Valid l) (he : IsEnd tail) :
    (render l tail).set (scan (fun c => c != 0 && c != ch '#') (render l tail) 0) 0 =
      render l tail := by
  obtain ⟨gap, junk, hgap, rfl⟩ := he
  have hbytes : ∀ b ∈ l.flatMap Lexeme.text ++ gap, (b != 0 && b != ch '#') = true := by
    intro b hb
    rcases List.mem_append.mp hb with hb | hb
    · simpa using render_bytes hv b hb
    · have := hgap b hb
      rw [Bool.and_eq_true, bne_iff_ne, bne_iff_ne]
      constructor
      · rintro rfl
        exact absurd this (by decide)
      · rintro rfl
        exact absurd this (by decide)
  have hscan : scan (fun c => c != 0 && c != ch '#')
      ([] ++ (l.flatMap Lexeme.text ++ gap ++ 0 :: junk)) 0 =
        0 + (l.flatMap Lexeme.text ++ gap).length := scan_append [] hbytes fun c hc => by
    obtain rfl := Option.some.inj hc
    rfl
  rw [List.nil_append, Nat.zero_add] at hscan
  unfold render
  rw [← List.append_assoc, hscan, set_append]

theorem length_le_render {l : List Lexeme} (hv : Valid l) (tail : Str) :
    l.length ≤ (render l tail).length := by
  induction l with
  | nil => exact Nat.zero_le _
  | cons x l ih =>
    rw [render_cons, List.length_append, List.length_cons]
    rcases x with ⟨gap, w⟩ | ⟨gap, o⟩
    · have := List.length_pos_iff.mpr hv.2.1.nonempty
      have hrest := ih hv.2.2.2
      simp only [Lexeme.text, List.length_append]
      omega
    · have hrest := ih hv.2
      simp only [Lexeme.text, List.length_append, List.length_cons]
      omega

variable (w status) in
theorem exec_start {l : List Lexeme} {tail : Str} (hv : Valid l) (he : IsEnd tail) :
    ∃ g, At g [] l tail ∧
      execLine w status (render l tail) =
        (parsecmd (enough (render l tail)) ⟨0, w .uninit, true⟩ 0).fold (act w status) g
          (afterParse w status) none ⟨[], none⟩ := by
  let g : Statics := { Statics.ofLine (render l tail) with cmd := cstr (render l tail) 0 }
  refine ⟨g.scanned (_gettoken (render l tail) (some 0)), rfl, ?_⟩
  unfold execLine lineShell runcmd runcmdWith cutComment setLine
  simp only [Lib.fold_bind, Lib.fold_get, fold_saveHistoryCmd, Lib.fold_modify, Lib.fold_call, act]
  have hcut : (Statics.ofLine (render l tail)).buf.set
      (scan (fun c => c != 0 && c != ch '#') (Statics.ofLine (render l tail)).buf 0) 0 =
        render l tail := cut_nothing hv he
  rw [hcut]
  refine congrArg (fun k => Prog.fold (act w status) _ _ k none ⟨[], none⟩) ?_
  funext r s'
  rcases r with e | ⟨argc, argv, rightpipe⟩
  · rfl
  · simp only [afterParse, Lib.fold_bind]

/-! ## The order of the commands -/

/-- A line of simple commands with `&&` and `||` spawns what the documented evaluation runs, in that
order, exactly if the line is safe. -/
theorem spawns_left_to_right_iff (w : (c : Call) → Reply c) (status : Place → Int) {c : Cmd}
    {rest : List Join} {tail : Str} (hc : c.Simple) (hrest : ∀ j ∈ rest, j.Simple)
    (he : IsEnd tail) :
    ∃ o, execLine w status (render (c.lexemes ++ joinLexemes rest) tail) = some o ∧
      (o.ran = evaluate status (c.place 0) (links (images c.lexemes).length rest) ↔
        Safe status true (status (c.place 0)) (links (images c.lexemes).length rest)) := by
  have hv := hc.valid (valid_joins hrest) (apart_joins rest)
  obtain ⟨g, hat, hstart⟩ := exec_start w status hv he
  have hfuel : (c.lexemes ++ joinLexemes rest).length <
      enough (render (c.lexemes ++ joinLexemes rest) tail) := by
    have := length_le_render hv tail
    unfold enough
    rw [Nat.add_mul, Nat.one_mul]
    omega
  obtain ⟨sent, hline⟩ := exec_line w status hc hrest he hat _ hfuel (w .uninit)
    true ⟨[], none⟩
  rw [List.length_nil, Nat.zero_add, List.nil_append] at hline
  refine ⟨_, hstart.trans hline, ?_⟩
  refine runs_iff (ordered_links ?_ rest) nofun (links_args _ rest) (fun _ => rfl) nofun
  have := lead_le_images c
  show 0 + c.lead.length < _
  omega

end

def name (s : String) : Cmd := ⟨bytes " ", bytes s, []⟩

/-- Only `false` returns 1. -/
def onlyFalse (c : Place) : Int := if c.args = [bytes "false"] then 1 else 0

/-- `&& a || b` -/
def andOr : List Join := [⟨bytes " ", .and, name "a"⟩, ⟨bytes " ", .or, name "b"⟩]

theorem spawns_and_or :
    ∃ o, execLine (calm 7 []) onlyFalse
        (render ((name "true").lexemes ++ joinLexemes andOr) [0]) = some o ∧
      o.ran = evaluate onlyFalse ((name "true").place 0) (links 5 andOr) := by
  have hc : (name "true").Simple := by decide +kernel
  have hrest : ∀ j ∈ andOr, j.Simple := by decide +kernel
  have he : IsEnd [0] := ⟨[], [], nofun, rfl⟩
  obtain ⟨o, ho, hiff⟩ := spawns_left_to_right_iff (calm 7 []) onlyFalse hc hrest he
  exact ⟨o, ho, hiff.mpr (by decide)⟩

/-- In `false && a && b` the shell spawns `b`. -/
theorem spawns_after_two_skips :
    ¬ ∀ (w : (c : Call) → Reply c) (status : Place → Int) (c : Cmd) (rest : List Join) (tail : Str),
      c.Simple → (∀ j ∈ rest, j.Simple) → IsEnd tail →
        (execLine w status (render (c.lexemes ++ joinLexemes rest) tail)).map Outcome.ran =
          some (evaluate status (c.place 0) (links (images c.lexemes).length rest)) := by
  intro h
  have := h (calm 7 []) onlyFalse (name "false")
    [⟨bytes " ", .and, name "a"⟩, ⟨bytes " ", .and, name "b"⟩] [0] (by decide +kernel)
    (by decide +kernel) ⟨[], [], nofun, rfl⟩
  revert this
  decide +kernel

end Mos.Shell
