import Mos.Jobs.Table

/-!
# `kill` and `fg`

An entry of the job table keeps an identifier, and `env_kill_job` and `execute_fg` go from there to
the slot. The history knows which environment had the identifier when the entry was made.
-/

namespace Mos

open Lib

variable {k k' : Kernel} {g : Births} {e : EnvIx} {i n : Nat}

/-! ## What an entry stands for -/

/-- For every entry, which of the environments that were created it was made for. -/
abbrev Owners := Nat → Option Nat

/-- The environment that has the identifier. -/
def Births.named (k : Kernel) (g : Births) (envid : Word) : Option Nat :=
  if (k.envs (envx envid)).envStatus ≠ .free ∧ (k.envs (envx envid)).envId = envid then
    g.lives (envx envid)
  else none

def Owners.follow (_ : Call) (p p' : Kernel × Births) (o : Owners) : Owners :=
  if p'.1.jobCnt = p.1.jobCnt then o
  else Function.update o p.1.jobCnt (p.2.named p.1 (p'.1.jobs p.1.jobCnt).envid)

/-- The machine with the history of its environments and of its jobs. -/
def ledger : System ((Kernel × Births) × Owners) Call := lineage.watch (fun _ => none) Owners.follow

/-- The environment is alive. -/
def Births.alive (g : Births) (owner : Option Nat) : Prop := ∃ n, owner = some n ∧ ∃ e, g.lives e = some n

/-- What `execute_fg` does with the identifier it got from `env_fg_job`, if it reads `envs` in this
state. -/
inductive FgVerdict where
  | noJob
  | notRunning
  | waits
  deriving DecidableEq, Repr

def executeFg (k : Kernel) (envid : Word) : FgVerdict :=
  if envid = -1 then .noJob
  else if (k.envs (envx envid)).envStatus ≠ .runnable then .notRunning
  else .waits

/-- `env_kill_job` destroys nothing but the environment of the entry, and does nothing if that is
gone. -/
structure KillsOwner (k : Kernel) (g : Births) (owner : Option Nat) (jobId : Word) : Prop where
  atMost : ∀ k' e, (envKillJob jobId k = .ok () k' ∨ envKillJob jobId k = .error .resched k') →
    (k.envs e).envStatus ≠ .free → (k'.envs e).envStatus = .free →
    ∃ n, owner = some n ∧ g.lives e = some n
  gone : ¬ g.alive owner → envKillJob jobId k = .ok () k

/-- `execute_fg` waits exactly if the environment of the entry is alive and can run. -/
def JudgesOwner (k : Kernel) (g : Births) (owner : Option Nat) (envid : Word) : Prop :=
  executeFg k envid = .waits ↔
    ∃ n, owner = some n ∧ ∃ e, g.lives e = some n ∧ (k.envs e).envStatus = .runnable

/-- What can run in the slot of the entry is the environment that the entry was made for. -/
def SlotKept (k : Kernel) (g : Births) (o : Owners) (i : Nat) : Prop :=
  (k.envs (k.jobSlot i)).envStatus = .runnable → g.lives (k.jobSlot i) = o i

/-! ## The invariant -/

structure OwnerInv (k : Kernel) (g : Births) (o : Owners) : Prop where
  births : BirthInv k g
  owner : ∀ i < k.jobCnt, ∀ n, o i = some n → g.born[n]? = some (k.jobSlot i, (k.jobs i).envid)

theorem born_kept {c : Call} {b : EnvIx × Word} (h : g.born[n]? = some b) :
    (g.follow c k k').born[n]? = some b := by
  unfold Births.follow
  split
  · exact h
  · rw [List.getElem?_append_left (List.getElem?_eq_some_iff.mp h).1]
    exact h

theorem named_born (hi : BirthInv k g) {envid : Word} (h : g.named k envid = some n) :
    g.born[n]? = some (envx envid, envid) := by
  unfold Births.named at h
  obtain ⟨⟨_, hid⟩, hn⟩ := Option.ite_none_right_eq_some.mp h
  obtain ⟨_, hborn⟩ := hi.born_of_lives hn
  rw [hid] at hborn
  exact hborn

theorem owner_call {c : Call} {o : Owners} (hi : OwnerInv k g o)
    (hs : afterEnvInit.next c k = some k') :
    OwnerInv k' (g.follow c k k') (o.follow c (k, g) (k', g.follow c k k')) := by
  refine ⟨birth_call hi.births hs, fun i hlt n hn => ?_⟩
  unfold Owners.follow at hn
  rcases jobs_call hs with ⟨hcnt, hids⟩ | ⟨hcnt, hother⟩
  · rw [if_pos hcnt] at hn
    have hold := hi.owner i (hcnt ▸ hlt) n hn
    unfold Kernel.jobSlot at hold ⊢
    rw [hids]
    exact born_kept hold
  · rw [if_neg (by simp [hcnt])] at hn
    rcases eq_or_ne i k.jobCnt with rfl | hne
    · rw [Function.update_self] at hn
      exact born_kept (named_born hi.births hn)
    · rw [Function.update_of_ne hne] at hn
      have hold := hi.owner i (by omega) n hn
      unfold Kernel.jobSlot at hold ⊢
      rw [hother i hne]
      exact born_kept hold

theorem ledger_next {c : Call} {p p' : (Kernel × Births) × Owners} (h : ledger.next c p = some p') :
    afterEnvInit.next c p.1.1 = some p'.1.1 ∧ p'.1.2 = p.1.2.follow c p.1.1 p'.1.1 ∧
      p'.2 = p.2.follow c p.1 p'.1 := by
  obtain ⟨hlineage, ho⟩ := System.watch_next h
  obtain ⟨hnext, hg⟩ := System.watch_next hlineage
  exact ⟨hnext, hg, ho⟩

theorem owner_inv {p : (Kernel × Births) × Owners} (h : ledger.Reachable p) :
    OwnerInv p.1.1 p.1.2 p.2 := by
  refine h.invariant (I := fun p => OwnerInv p.1.1 p.1.2 p.2) ?_ ?_
  · rintro ⟨⟨k, g⟩, o⟩ ⟨⟨⟨mc, hx⟩, rfl⟩, rfl⟩
    exact ⟨birth_init hx, fun _ _ _ hn => nomatch hn⟩
  · rintro ⟨⟨k, g⟩, o⟩ c ⟨⟨k', g'⟩, o'⟩ hi _ hs
    obtain ⟨hnext, hg, ho⟩ := ledger_next hs
    have hinv := owner_call hi hnext
    rw [← show g' = g.follow c k k' from hg] at hinv
    exact (show o' = o.follow c (k, g) (k', g') from ho) ▸ hinv

/-! ## The two commands -/

theorem envKillJob_idle {jobId : Word}
    (h : ∀ i, k.jobOf jobId = some i → (k.envs (k.jobSlot i)).envStatus ≠ .runnable) :
    envKillJob jobId k = .ok () k := by
  have hw : wp (envKillJob jobId) (fun _ k' => k' = k) (fun _ _ => False) k := by
    unfold envKillJob
    rw [wp_bind, wp_findJob]
    rw [show (k.jobAt fun j => j.jobId == jobId) = k.jobOf jobId from rfl]
    cases hj : k.jobOf jobId with
    | none => exact (wp_pure _).mpr rfl
    | some i =>
      simp only [wp_bind, wp_get, wp_ite, wp_pure]
      exact ⟨fun hrun => absurd hrun (h i hj), fun _ => trivial⟩
  obtain ⟨_, k', hx, rfl⟩ := exists_of_wp hw
  exact hx

variable {o : Owners} {jobId : Word}

theorem OwnerInv.slot_of_lives (hi : OwnerInv k g o) (hlt : i < k.jobCnt) (ho : o i = some n)
    (hl : g.lives e = some n) : e = k.jobSlot i ∧ (k.envs e).envId = (k.jobs i).envid := by
  have hborn := hi.owner i hlt n ho
  obtain ⟨_, hborn'⟩ := hi.births.born_of_lives hl
  rw [hborn] at hborn'
  obtain ⟨hslot, hid⟩ := Prod.mk.inj (Option.some.inj hborn')
  exact ⟨hslot.symm, hid.symm⟩

theorem killsOwner_of_kept (hi : OwnerInv k g o) (hj : k.jobOf jobId = some i)
    (hkept : SlotKept k g o i) : KillsOwner k g (o i) jobId := by
  have hlives : (k.envs (k.jobSlot i)).envStatus = .runnable →
      ∃ n, o i = some n ∧ g.lives (k.jobSlot i) = some n := by
    intro hrun
    obtain ⟨n, hn, _⟩ := hi.births.lives (k.jobSlot i) (by simp [hrun])
    exact ⟨n, (hkept hrun).symm.trans hn, hn⟩
  have hw := envKillJob_table k jobId
  refine ⟨fun k' e hend hlive hgone => ?_, fun hdead => envKillJob_idle fun i' hi' hrun => ?_⟩
  · rcases hend with hx | hx
    · rcases (wp_run_ok hw hx :) with ⟨-, rfl⟩ | ⟨i', hi', hrun, -, hstate, -⟩
      · exact absurd hgone hlive
      · obtain rfl := Option.some.inj (hi'.symm.trans hj)
        obtain rfl := slot_of_released hlive hgone hstate.envs
        exact hlives hrun
    · rcases (wp_run_error hw hx :) with ⟨-, i', hi', hrun, -, -, -, k₀, c, hstate, hs⟩ | hh
      · obtain rfl := Option.some.inj (hi'.symm.trans hj)
        obtain rfl := slot_of_gone hlive hgone hstate hs
        exact hlives hrun
      · exact hh.elim
  · obtain rfl := Option.some.inj (hi'.symm.trans hj)
    obtain ⟨n, ho, hl⟩ := hlives hrun
    exact hdead ⟨n, ho, _, hl⟩

theorem kept_of_killsOwner (hi : OwnerInv k g o) (hj : k.jobOf jobId = some i)
    (h : KillsOwner k g (o i) jobId) : SlotKept k g o i := by
  intro hrun
  by_contra hne
  have hdead : ¬ g.alive (o i) := by
    rintro ⟨n, ho, e, hl⟩
    obtain ⟨rfl, _⟩ := hi.slot_of_lives (Kernel.jobAt_lt hj).1 ho hl
    exact hne (hl.trans ho.symm)
  have hw := envKillJob_table k jobId
  rcases (wp_run_ok hw (h.gone hdead) :) with ⟨hidle, -⟩ | ⟨i', hi', -, -, hstate, -⟩
  · exact hidle i hj hrun
  · obtain rfl := Option.some.inj (hi'.symm.trans hj)
    have hfree : (k.envs (k.jobSlot i')).envStatus = .free := by
      rw [hstate.envs]
      simp [Kernel.released]
    rw [hrun] at hfree
    cases hfree

theorem envidOf_ne_neg_one (c : Word) (e : EnvIx) : envidOf c e ≠ -1 := by
  intro h
  have hbit : (envidOf c e).getLsbD 10 = false := by
    unfold envidOf
    rw [BitVec.getLsbD_or, BitVec.getLsbD_shiftLeft, BitVec.getLsbD_ofNat,
      Nat.testBit_lt_two_pow e.isLt]
    simp
  rw [h] at hbit
  exact absurd hbit (by decide)

theorem judgesOwner_of_kept (hi : OwnerInv k g o) (hlt : i < k.jobCnt) (hkept : SlotKept k g o i) :
    JudgesOwner k g (o i) (k.jobs i).envid := by
  have hwaits : executeFg k (k.jobs i).envid = .waits ↔
      (k.jobs i).envid ≠ -1 ∧ (k.envs (k.jobSlot i)).envStatus = .runnable := by
    unfold executeFg Kernel.jobSlot
    split_ifs <;> simp_all
  unfold JudgesOwner
  rw [hwaits]
  constructor
  · rintro ⟨_, hrun⟩
    obtain ⟨n, hn, _⟩ := hi.births.lives (k.jobSlot i) (by simp [hrun])
    exact ⟨n, (hkept hrun).symm.trans hn, _, hn, hrun⟩
  · rintro ⟨n, ho, e, hl, hrun⟩
    obtain ⟨rfl, hid⟩ := hi.slot_of_lives hlt ho hl
    obtain ⟨_, hborn⟩ := hi.births.born_of_lives hl
    refine ⟨?_, hrun⟩
    rw [← hid, hi.births.ids n _ _ hborn]
    exact envidOf_ne_neg_one _ _

/-- In every history, the two commands hit the environment of the entry exactly if nothing else can
run in its slot. -/
theorem kill_fg_iff {p : (Kernel × Births) × Owners} (h : ledger.Reachable p) {jobId : Word} {i : Nat}
    (hj : p.1.1.jobOf jobId = some i) :
    (KillsOwner p.1.1 p.1.2 (p.2 i) jobId ∧
      JudgesOwner p.1.1 p.1.2 (p.2 i) (p.1.1.jobs i).envid) ↔ SlotKept p.1.1 p.1.2 p.2 i := by
  have hi := owner_inv h
  exact ⟨fun hboth => kept_of_killsOwner hi hj hboth.1, fun hkept =>
    ⟨killsOwner_of_kept hi hj hkept, judgesOwner_of_kept hi (Kernel.jobAt_lt hj).1 hkept⟩⟩

theorem ledger_reachable (h : afterEnvInit.Reachable k) : ∃ g o, ledger.Reachable ((k, g), o) := by
  obtain ⟨g, hg⟩ : ∃ g, lineage.Run (fun _ _ => True) (k, g) := h.watched
  obtain ⟨o, ho⟩ : ∃ o, ledger.Run (fun _ _ => True) ((k, g), o) := hg.watched
  exact ⟨g, o, ho⟩

theorem reachable_of_check (calls : List Call) (check : Kernel → Bool)
    (h : ((smallInit.bind (afterEnvInit.exec calls)).any check) = true) :
    ∃ k, afterEnvInit.Reachable k ∧ check k = true := by
  obtain ⟨k, hk, hcheck⟩ := (Option.any_eq_true _ _).mp h
  obtain ⟨k₀, h₀, hrun⟩ := Option.bind_eq_some_iff.mp hk
  exact ⟨k, System.Run.exec (.init (smallInit_init h₀)) hrun, hcheck⟩

/-- A job of a child that has not run yet. -/
theorem kill_fg_iff_child : ∃ p : (Kernel × Births) × Owners, ledger.Reachable p ∧
    p.1.1.jobOf 1 = some 0 ∧
    ((KillsOwner p.1.1 p.1.2 (p.2 0) 1 ∧ JudgesOwner p.1.1 p.1.2 (p.2 0) (p.1.1.jobs 0).envid) ↔
      SlotKept p.1.1 p.1.2 p.2 0) := by
  obtain ⟨k, hr, hcheck⟩ := reachable_of_check
    [.create bareLoop 1, .step .start, .step (callOp 9 0 0 0), .step (callOp 18 4097 0 0)]
    (fun k => k.jobOf 1 == some 0) (by decide +kernel)
  have hjob : k.jobOf 1 = some 0 := eq_of_beq hcheck
  obtain ⟨g, o, hp⟩ := ledger_reachable hr
  exact ⟨((k, g), o), hp, hjob, kill_fg_iff hp hjob⟩

theorem SlotKept.id_eq (hi : OwnerInv k g o) (hlt : i < k.jobCnt) (hkept : SlotKept k g o i)
    (hrun : (k.envs (k.jobSlot i)).envStatus = .runnable) :
    (k.envs (k.jobSlot i)).envId = (k.jobs i).envid := by
  obtain ⟨n, hn, _⟩ := hi.births.lives (k.jobSlot i) (by simp [hrun])
  exact (hi.slot_of_lives hlt ((hkept hrun).symm.trans hn) hn).2

/-- The child 4097 gets a job, runs and is destroyed, and the next child, 6145, takes its slot:
`kill 1` destroys 6145. -/
theorem not_kill_fg : ∃ p : (Kernel × Births) × Owners, ledger.Reachable p ∧ ∃ jobId i,
    p.1.1.jobOf jobId = some i ∧ ¬ (KillsOwner p.1.1 p.1.2 (p.2 i) jobId ∧
      JudgesOwner p.1.1 p.1.2 (p.2 i) (p.1.1.jobs i).envid) := by
  obtain ⟨k, hr, hcheck⟩ := reachable_of_check
    [.create bareLoop 1, .step .start,
      .step (callOp 9 0 0 0), .step (callOp 18 4097 0 0), .step (callOp 10 4097 1 0),
      .step (callOp 4 4097 0 0),
      .step (callOp 9 0 0 0), .step (callOp 10 6145 1 0)]
    (fun k => k.jobOf 1 == some 0 && (k.envs (k.jobSlot 0)).envStatus == .runnable &&
      (k.envs (k.jobSlot 0)).envId == 6145 && (k.jobs 0).envid == 4097) (by decide +kernel)
  simp only [Bool.and_eq_true, beq_iff_eq] at hcheck
  obtain ⟨⟨⟨hjob, hrun⟩, hnow⟩, hthen⟩ := hcheck
  obtain ⟨g, o, hp⟩ := ledger_reachable hr
  refine ⟨((k, g), o), hp, 1, 0, hjob, fun hboth => ?_⟩
  have hi : OwnerInv k g o := owner_inv hp
  have hkept := kept_of_killsOwner hi hjob hboth.1
  have hid := hkept.id_eq hi (Kernel.jobAt_lt hjob).1 hrun
  rw [hnow, hthen] at hid
  exact absurd hid (by decide)

end Mos
