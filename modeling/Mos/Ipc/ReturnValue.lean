import Mos.Kern.Slots

/-!
# The return value of a program

A shell spawns a program and then waits in `sys_recv_return_value`. `libmain`
sends the value of `main` to the parent once, does not look at the result, and
destroys the environment. The history knows the program each environment has
spawned last, and what became of the value it sent.
-/

namespace Mos

open Lib

variable {k k₁ k' : Kernel} {e c x : EnvIx}

/-! ## Shells and programs -/

/-- The environment that a shell has created last: none; the one in this slot; it is destroyed, and
of the value it had sent it is known whether it reached the shell. -/
inductive Program where
  | nobody
  | running (slot : EnvIx)
  | gone (arrived : Option Bool)
  deriving DecidableEq, Repr

/-- `arrived` is `none` as long as the environment has sent no return value. -/
structure Returns where
  program : EnvIx → Program
  arrived : EnvIx → Option Bool

/-- The call of `libmain` in the slot `c`, `syscall_send_return_value(env->env_parent_id, r, 0, 0)`. -/
def Syscall.returns (k : Kernel) (c : EnvIx) : Syscall → Bool
  | .sendReturnValue envid _ srcva _ => envid == (k.envs c).envParentId && srcva == 0
  | _ => false

/-- `curenv` makes a call of this kind. -/
def calls (p : EnvIx → Syscall → Bool) (op : Op) (k : Kernel) (c : EnvIx) : Bool :=
  match op with
  | .syscall f inp => k.curenv == some c && (Syscall.ofFrame f inp).any (p c)
  | _ => false

/-- The value that `c` has sent is with the shell that spawned `c`. -/
def Returns.arrives (g : Returns) (k k' : Kernel) (c : EnvIx) : Bool :=
  k'.kstack.regs 2 == 0 &&
    (target k (k.envs c).envParentId false).any fun e => g.program e == .running c

/-- The environment that a `sys_exofork` of the slot `c` has created. -/
def spawned (op : Op) (k k' : Kernel) (c : EnvIx) : Option EnvIx :=
  if calls (fun _ s => s == .exofork) op k c then
    k.envFreeList.head?.filter fun e => (k'.envs e).envStatus != .free
  else none

/-- What a shell knows of its program when it is freed. -/
def Program.after (k' : Kernel) (g : Returns) : Program → Program
  | .running p => if (k'.envs p).envStatus = .free then .gone (g.arrived p) else .running p
  | b => b

/-- A slot without an environment, or with a new one. -/
def renewed (k k' : Kernel) (e : EnvIx) : Bool :=
  (k.envs e).envStatus == .free || (k'.envs e).envStatus == .free

def Returns.arrivedAfter (op : Op) (k k' : Kernel) (g : Returns) (e : EnvIx) : Option Bool :=
  if renewed k k' e then none
  else if calls (Syscall.returns k) op k e then some (g.arrives k k' e || g.arrived e == some true)
  else g.arrived e

def Returns.programAfter (op : Op) (k k' : Kernel) (g : Returns) (e : EnvIx) : Program :=
  if renewed k k' e then .nobody
  else match spawned op k k' e with
    | some p => .running p
    | none => (g.program e).after k' g

def Returns.follow (op : Op) (k k' : Kernel) (g : Returns) : Returns where
  program := g.programAfter op k k'
  arrived := g.arrivedAfter op k k'

/-- The machine with the history of its programs. -/
def shells : System (Kernel × Returns) Op :=
  mos.watch ⟨fun _ => .nobody, fun _ => none⟩ Returns.follow

/-- The shell `e` is blocked, and the program it waits for is freed, with a value that never reached
the shell. -/
structure Stuck (k : Kernel) (g : Returns) (e : EnvIx) : Prop where
  blocked : (k.envs e).envStatus = .notRunnable
  waiting : (k.envs e).waitingReturnValue = 1
  lost : g.program e = .gone (some false)

/-! ## The invariant -/

/-- A program that a shell waits for, or may wait for, has this shell as its parent and has lost no
value. -/
structure Child (k : Kernel) (g : Returns) (e p : EnvIx) : Prop where
  shell : (k.envs e).envStatus ≠ .free
  live : (k.envs p).envStatus ≠ .free
  other : p ≠ e
  parent : (k.envs p).envParentId = (k.envs e).envId
  kept : g.arrived p ≠ some false

structure ReturnInv (k : Kernel) (g : Returns) (e : EnvIx) : Prop where
  kept : g.program e ≠ .gone (some false)
  child : ∀ p, g.program e = .running p → Child k g e p

theorem ReturnInv.not_stuck {g : Returns} (h : ReturnInv k g e) : ¬ Stuck k g e :=
  fun hs => h.kept hs.lost

/-- When a program returns, the shell that spawned it already waits. -/
def Rendezvous (g : Returns) (op : Op) (k : Kernel) : Prop :=
  ∀ c e, calls (Syscall.returns k) op k c = true → g.program e = .running c →
    (k.envs e).waitingReturnValue = 1 ∧ (k.envs e).envId ≠ 0

theorem calls_cur {p : EnvIx → Syscall → Bool} {op : Op} (h : calls p op k c = true) :
    k.curenv = some c := by
  cases op with
  | syscall f inp => exact eq_of_beq (Bool.and_eq_true_iff.mp h).1
  | _ => cases h

/-- A spawned environment is new, and the child of the one that made the call. -/
theorem spawned_child {op : Op} (h : SlotInv k) (hsp : spawned op k k' c = some e)
    (hs : next op k = some k') : (k.envs e).envStatus = .free ∧ (k'.envs e).envStatus ≠ .free ∧
      (k'.envs e).envParentId = (k.envs c).envId := by
  unfold spawned at hsp
  split at hsp
  case isTrue hcall =>
    obtain ⟨hhead, hlive⟩ := Option.filter_eq_some_iff.mp hsp
    have hfree := h.free_status e (List.mem_of_head? hhead)
    have hlive : (k'.envs e).envStatus ≠ .free := by simpa using hlive
    refine ⟨hfree, hlive, ?_⟩
    rcases next_same_or_forked h hs with hsame | ⟨c', e', hc, he, hparent, _⟩
    · rcases hsame e with hgone | ⟨hbefore, _⟩
      · exact absurd hgone hlive
      · exact absurd hfree hbefore
    · obtain rfl : e = e' := Option.some.inj (hhead.symm.trans he)
      obtain rfl : c = c' := Option.some.inj ((calls_cur hcall).symm.trans hc)
      exact hparent
  case isFalse => cases hsp

/-! ## One step -/

variable {g : Returns} {op : Op}

/-- The value of a program goes to the shell that waits for it. -/
theorem arrives_of_rendezvous {p : EnvIx} (h : SlotInv k) (hr : Rendezvous g op k)
    (hc : Child k g e p) (hp : g.program e = .running p)
    (hcall : calls (Syscall.returns k) op k p = true) (hs : next op k = some k') :
    g.arrives k k' p = true := by
  obtain ⟨hwait, hid⟩ := hr p e hcall hp
  have htarget : target k (k.envs p).envParentId false = some e := by
    rw [hc.parent]
    exact h.target_envId hc.shell hid
  -- the call is the one of `libmain`
  cases op with
  | syscall f inp =>
    obtain ⟨hcur, hany⟩ := Bool.and_eq_true_iff.mp hcall
    have hcur := eq_of_beq hcur
    obtain ⟨s, hsys, hret⟩ := (Option.any_eq_true _ _).mp hany
    cases s with
    | sendReturnValue envid value srcva perm =>
      obtain ⟨henvid, hsrcva⟩ := Bool.and_eq_true_iff.mp hret
      have henvid : envid = (k.envs p).envParentId := eq_of_beq henvid
      have hsrcva : srcva = 0 := eq_of_beq hsrcva
      have heff := effect_of_ends (doSyscall_ends hsys hs)
      have hv : k'.kstack.regs 2 = 0 := by
        cases heff with
        | quiet noSend _ => cases noSend
        | refusedReturn _ _ why =>
          refine absurd ⟨by simp [hsrcva], ?_, ?_, hcur⟩ (why p e)
          · rw [target_entered, henvid]
            exact htarget
          · exact beq_iff_eq.mpr hwait
        | sendReturn sent => exact sent.value.mpr (sent.maps hsrcva)
      unfold Returns.arrives
      rw [hv, htarget]
      simp [hp]
    | _ => cases hret
  | _ => cases hcall

theorem child_kept {p : EnvIx} (h : SlotInv k) (hr : Rendezvous g op k) (hc : Child k g e p)
    (hp : g.program e = .running p) (hs : next op k = some k') :
    g.arrivedAfter op k k' p ≠ some false := by
  unfold Returns.arrivedAfter
  split
  · simp
  · split
    case isTrue hcall =>
      rw [arrives_of_rendezvous h hr hc hp hcall hs]
      simp
    case isFalse => exact hc.kept

theorem renewed_false (h : ¬ renewed k k' x = true) :
    (k.envs x).envStatus ≠ .free ∧ (k'.envs x).envStatus ≠ .free := by
  unfold renewed at h
  rw [Bool.or_eq_true, not_or, beq_iff_eq, beq_iff_eq] at h
  exact h

theorem live_ids (h : SlotInv k) (hs : next op k = some k') (hx : (k.envs x).envStatus ≠ .free)
    (hx' : (k'.envs x).envStatus ≠ .free) :
    (k'.envs x).envId = (k.envs x).envId ∧ (k'.envs x).envParentId = (k.envs x).envParentId := by
  rcases live_same h hx hs with hgone | ⟨_, hids⟩
  · exact absurd hgone hx'
  · exact hids

theorem return_next (h : SlotInv k) (hi : ∀ e, ReturnInv k g e) (hr : Rendezvous g op k)
    (hs : next op k = some k') (e : EnvIx) : ReturnInv k' (g.follow op k k') e := by
  by_cases hnew : renewed k k' e = true
  · have hprog : (g.follow op k k').program e = .nobody := if_pos hnew
    refine ⟨by simp [hprog], fun p hp => ?_⟩
    exact absurd (hprog.symm.trans hp) (by simp)
  obtain ⟨hlive, hlive'⟩ := renewed_false hnew
  cases hsp : spawned op k k' e with
  | some p =>
    have hprog : (g.follow op k k').program e = .running p := by
      simp [Returns.follow, Returns.programAfter, hnew, hsp]
    obtain ⟨hfree, hplive, hparent⟩ := spawned_child h hsp hs
    refine ⟨by simp [hprog], fun p' hp' => ?_⟩
    obtain rfl : p = p' := Program.running.inj (hprog.symm.trans hp')
    refine ⟨hlive', hplive, ?_, ?_, ?_⟩
    · rintro rfl
      exact hlive hfree
    · rw [hparent, (live_ids h hs hlive hlive').1]
    · simp [Returns.follow, Returns.arrivedAfter, renewed, hfree]
  | none =>
    have hprog : (g.follow op k k').program e = (g.program e).after k' g := by
      simp [Returns.follow, Returns.programAfter, hnew, hsp]
    cases hp : g.program e with
    | nobody =>
      rw [hp] at hprog
      refine ⟨by simp [hprog, Program.after], fun p hp' => ?_⟩
      exact absurd (hprog.symm.trans hp') (by simp [Program.after])
    | gone r =>
      rw [hp] at hprog
      refine ⟨?_, fun p hp' => absurd (hprog.symm.trans hp') (by simp [Program.after])⟩
      rw [hprog]
      exact fun hlost => (hi e).kept (hp.trans hlost)
    | running p =>
      have hc := (hi e).child p hp
      have hprog : (g.follow op k k').program e =
          if (k'.envs p).envStatus = .free then .gone (g.arrived p) else .running p := by
        rw [hprog, hp]
        rfl
      split at hprog
      case isTrue hgone =>
        refine ⟨?_, fun p hp' => absurd (hprog.symm.trans hp') (by simp)⟩
        rw [hprog]
        exact fun hlost => hc.kept (Program.gone.inj hlost)
      case isFalse hplive =>
        refine ⟨by simp [hprog], fun p' hp' => ?_⟩
        obtain rfl : p = p' := Program.running.inj (hprog.symm.trans hp')
        refine ⟨hlive', hplive, hc.other, ?_, child_kept h hr hc hp hs⟩
        rw [(live_ids h hs hc.live hplive).2, (live_ids h hs hlive hlive').1]
        exact hc.parent

/-! ## Runs -/

theorem return_inv (h : shells.Run (fun p op => Rendezvous p.2 op p.1) (k, g)) :
    SlotInv k ∧ ∀ e, ReturnInv k g e := by
  refine h.invariant (I := fun p => SlotInv p.1 ∧ ∀ e, ReturnInv p.1 p.2 e) ?_ ?_
  · rintro ⟨k, g⟩ ⟨⟨mc, programs, hb⟩, rfl⟩
    refine ⟨slot_boot hb, fun e => ⟨by simp, ?_⟩⟩
    rintro p ⟨⟩
  · rintro ⟨k, g⟩ op ⟨k', g'⟩ ⟨hslot, hi⟩ hr hs
    obtain ⟨hnext, hg⟩ := System.watch_next hs
    have hg : g' = g.follow op k k' := hg
    subst hg
    exact ⟨slot_next hslot hnext, return_next hslot hi hr hnext⟩

/-- In a run in which every program returns to a shell that already waits for it, no shell waits for
a value that is lost. -/
theorem return_value_kept (h : shells.Run (fun p op => Rendezvous p.2 op p.1) (k, g)) :
    ∀ e, ¬ Stuck k g e := fun e => ((return_inv h).2 e).not_stuck

/-! ## Runs of the small machine -/

instance (g : Returns) (op : Op) (k : Kernel) : Decidable (Rendezvous g op k) :=
  decidable_of_iff (∀ c ∈ k.curenv, calls (Syscall.returns k) op k c = true →
      ∀ e, g.program e = .running c →
        (k.envs e).waitingReturnValue = 1 ∧ (k.envs e).envId ≠ 0) (by
    constructor
    · exact fun h c e hcall => h c (calls_cur hcall) hcall e
    · exact fun h c _ hcall e => h c e hcall)

/-- The shell, 2048, waits before its program returns. -/
def inTime : List Op :=
  [.start,
    callOp 9 0 0 0,       -- `sys_exofork`: the program is 4097
    callOp 10 4097 1 0,   -- `sys_set_env_status(program, ENV_RUNNABLE)`
    callOp 24 0 0 0,      -- the shell: `sys_recv_return_value`
    callOp 23 2048 7 0,   -- the program: `sys_send_return_value(parent, 7, 0, 0)`
    callOp 4 0 0 0]       -- and `sys_env_destroy(0)`

theorem return_value_kept_in_time : ∃ (k : Kernel) (g : Returns),
    g.program 0 = .gone (some true) ∧ ∀ e, ¬ Stuck k g e := by
  have hrun : ((boot smallMachine [(bareLoop, 1)]).any fun k =>
      (shells.execMeeting (fun p op => Rendezvous p.2 op p.1) inTime
        (k, ⟨fun _ => .nobody, fun _ => none⟩)).any fun p =>
        p.2.program 0 == .gone (some true)) = true := by decide +kernel
  obtain ⟨k₀, hk₀, hexec⟩ := (Option.any_eq_true _ _).mp hrun
  obtain ⟨⟨k, g⟩, hk, hprog⟩ := (Option.any_eq_true _ _).mp hexec
  have h₀ : shells.Run (fun p op => Rendezvous p.2 op p.1)
      (k₀, ⟨fun _ => .nobody, fun _ => none⟩) := .init ⟨⟨_, _, hk₀⟩, rfl⟩
  exact ⟨k, g, eq_of_beq hprog, return_value_kept (System.Run.execMeeting h₀ hk)⟩

/-- The shell, 4097, loses the processor before it waits; another environment, 2048, keeps the
machine busy. -/
def tooLate : List Op :=
  [.start,
    callOp 9 0 0 0,       -- the shell: `sys_exofork`, the program is 6146
    callOp 10 6146 1 0,   -- `sys_set_env_status(program, ENV_RUNNABLE)`
    .timer .zero,
    callOp 3 0 0 0,       -- 2048: `sys_yield`
    callOp 23 4097 7 0,   -- the program: `sys_send_return_value(parent, 7, 0, 0)`
    callOp 4 0 0 0,       -- and `sys_env_destroy(0)`
    callOp 24 0 0 0]      -- the shell: `sys_recv_return_value`

theorem return_value_lost : ∃ k g, shells.Reachable (k, g) ∧ Stuck k g 1 := by
  have hrun : ((boot smallMachine [(bareLoop, 1), (bareLoop, 1)]).any fun k =>
      (shells.exec tooLate (k, ⟨fun _ => .nobody, fun _ => none⟩)).any fun p =>
        (p.1.envs 1).envStatus == .notRunnable && (p.1.envs 1).waitingReturnValue == 1 &&
          p.2.program 1 == .gone (some false)) = true := by decide +kernel
  obtain ⟨k₀, hk₀, hexec⟩ := (Option.any_eq_true _ _).mp hrun
  obtain ⟨⟨k, g⟩, hk, hbad⟩ := (Option.any_eq_true _ _).mp hexec
  obtain ⟨hwaits, hlost⟩ := Bool.and_eq_true_iff.mp hbad
  obtain ⟨hblocked, hwaiting⟩ := Bool.and_eq_true_iff.mp hwaits
  refine ⟨k, g, System.Run.exec (.init ⟨⟨_, _, hk₀⟩, rfl⟩) hk, ?_⟩
  exact ⟨eq_of_beq hblocked, eq_of_beq hwaiting, eq_of_beq hlost⟩

end Mos
