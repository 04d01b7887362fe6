import Mos.Jobs.Kill

/-!
# Running and Done

`job_status` against the environments. Nothing but the calls themselves keeps them in step.
-/

namespace Mos

open Lib

variable {k k' : Kernel} {g : Births} {o : Owners} {e x : EnvIx} {i l n : Nat}

/-- The table is within its bounds, and an entry is Running exactly if its environment is alive. -/
structure Agrees (p : (Kernel × Births) × Owners) : Prop where
  room : p.1.1.jobCnt ≤ njobs
  ids : ∀ i < p.1.1.jobCnt, (p.1.1.jobs i).jobId = BitVec.ofNat 32 i + 1
  status : ∀ i < p.1.1.jobCnt, (p.1.1.jobs i).jobStatus = 1 ↔ p.1.2.alive (p.2 i)

/-- The calls of a machine that keeps the table in step. -/
def Orderly (p : (Kernel × Births) × Owners) : Call → Prop
  | .create .. => True
  | .step (.syscall f inp) =>
    match Syscall.ofFrame f inp with
    | some (.createJob envid _) =>
      p.1.1.jobCnt < njobs ∧ inp.cmd.length < 1024 ∧ p.1.2.named p.1.1 envid ≠ none
    | some (.setJobDone envid) =>
      ∀ i, p.1.1.jobAt (fun j => j.envid == envid) = some i → ¬ p.1.2.alive (p.2 i)
    | some (.killJob jobId) =>
      ∀ i, p.1.1.jobOf jobId = some i → (p.1.1.envs (p.1.1.jobSlot i)).envStatus = .runnable →
        ∀ l < p.1.1.jobCnt, p.2 l = p.1.2.lives (p.1.1.jobSlot i) →
          l = i ∧ p.1.1.curenv ≠ some (p.1.1.jobSlot i)
    | some (.envDestroy envid) =>
      ∀ x, target p.1.1 envid true = some x → ∀ l < p.1.1.jobCnt, p.2 l ≠ p.1.2.lives x
    | _ => True
  | .step _ => True

/-- The call uses no index above 31, and stores in one entry at most. -/
structure Contained (p : (Kernel × Births) × Owners) (c : Call) : Prop where
  inside : ∀ f inp envid cmd k', c = .step (.syscall f inp) →
    Syscall.ofFrame f inp = some (.createJob envid cmd) →
    envCreateJob envid inp.cmd (p.1.1.entered f) ≠ .error .wild k'
  apart : ∀ p', ledger.next c p = some p' →
    ∃ i < njobs, ∀ l, l ≠ i → p'.1.1.jobs l = p.1.1.jobs l

/-! ## Who is alive after a step -/

theorem lives_follow {c : Call} {b : Bool} (hi : BirthInv k g) (hb : Bears b k k')
    (hn : n < g.born.length) :
    (g.follow c k k').lives e = some n ↔ g.lives e = some n ∧ (k'.envs e).envStatus ≠ .free := by
  have hsurvive : g.survive k' e = some n ↔ g.lives e = some n ∧ (k'.envs e).envStatus ≠ .free := by
    unfold Births.survive
    split_ifs with hfree
    · simp [hfree]
    · simp [hfree]
  cases hb with
  | nobody same ids =>
    rw [follow_nobody g same]
    exact hsurvive
  | one made y free live id others ids =>
    rw [follow_newborn g (.one made y free live id others ids) (newborn_iff.mpr ⟨free, live⟩)]
    rcases eq_or_ne e y with rfl | hne
    · simp only [Function.update_self, Option.some.injEq, hi.gone e free]
      exact ⟨fun heq => absurd heq (by omega), fun h => nomatch h.1⟩
    · simp only [ne_eq, hne, not_false_eq_true, Function.update_of_ne]
      exact hsurvive

/-- The slot whose environment the call destroys. -/
def Call.victim (k : Kernel) : Call → Option EnvIx
  | .step (.syscall f inp) =>
    match Syscall.ofFrame f inp with
    | some (.envDestroy envid) => target k envid true
    | some (.killJob jobId) =>
      (k.jobOf jobId).bind fun i =>
        if (k.envs (k.jobSlot i)).envStatus = .runnable then some (k.jobSlot i) else none
    | _ => none
  | _ => none

theorem victim_of_destroys {op : Op} (h : Destroys k op x) : (Call.step op).victim k = some x := by
  cases h with
  | call op_eq call target =>
    subst op_eq
    simp only [Call.victim, call]
    exact target
  | kill op_eq call found runnable slot =>
    subst op_eq
    simp only [Call.victim, call, found, Option.bind_some, runnable, if_true, slot]

theorem Ends.gone {inp : Inputs} {s : Syscall} (h : Ends inp s k k')
    (hw : wp (s.run inp) (fun _ k' => (k'.envs x).envStatus = .free)
      (fun err k' => (err = .resched ∧ (k'.envs x).envStatus = .free) ∨ Halts err) k) :
    (k'.envs x).envStatus = .free := by
  rcases h.spec hw with ⟨v, k₁, hfree, rfl⟩ | ⟨err, k₁, ⟨hr, _⟩ | hh, rfl⟩ | hk | ⟨_, ⟨hr, _⟩ | hh, _⟩
  · exact hfree
  · cases hr
  · exact hh.elim
  · exact hk.elim (fun hfree => hfree.2) (fun hh => hh.elim)
  · cases hr
  · exact hh.elim

theorem released_free (henvs : k'.envs = (k.released x).envs) : (k'.envs x).envStatus = .free := by
  rw [henvs]
  simp [Kernel.released]

theorem switched_free {k₀ : Kernel} {c : EnvIx} (hs : Switched k₀ c k')
    (hfree : (k₀.envs x).envStatus = .free) : (k'.envs x).envStatus = .free := by
  rw [hs.envs]
  exact hfree

theorem sysEnvDestroy_gone {envid : Word} (hx : target k envid true = some x) :
    wp (sysEnvDestroy envid) (fun _ k' => (k'.envs x).envStatus = .free)
      (fun err k' => (err = .resched ∧ (k'.envs x).envStatus = .free) ∨ Halts err) k := by
  unfold sysEnvDestroy
  rw [wp_bind]
  refine wp_mono (envid2env_spec k envid true) ?_ ?_
  · rintro y _ ⟨rfl, hy⟩
    obtain rfl := Option.some.inj (hy.symm.trans hx)
    rw [wp_bind]
    refine wp_mono (envDestroy_spec _ y) ?_ ?_
    · rintro _ _ ⟨-, m, asids, q, b, rfl⟩
      exact (wp_pure _).mpr (released_free (k := _) rfl)
    · rintro err k' (⟨rfl, -, m, asids, q, b, c, hs⟩ | herr)
      · exact Or.inl ⟨rfl, switched_free hs (released_free (k := _) rfl)⟩
      · exact Or.inr herr
  · rintro _ _ ⟨-, -, hnone⟩
    exact nomatch hnone.symm.trans hx

theorem envKillJob_gone {jobId : Word} (hj : k.jobOf jobId = some i)
    (hrun : (k.envs (k.jobSlot i)).envStatus = .runnable) :
    wp (envKillJob jobId) (fun _ k' => (k'.envs (k.jobSlot i)).envStatus = .free)
      (fun err k' => (err = .resched ∧ (k'.envs (k.jobSlot i)).envStatus = .free) ∨ Halts err) k := by
  refine wp_mono (envKillJob_table k jobId) ?_ ?_
  · rintro _ k' (⟨hidle, -⟩ | ⟨i', hi', -, -, hstate, -⟩)
    · exact absurd hrun (hidle i hj)
    · obtain rfl := Option.some.inj (hi'.symm.trans hj)
      exact released_free hstate.envs
  · rintro err k' (⟨rfl, i', hi', -, -, -, -, k₀, c, hstate, hs⟩ | hh)
    · obtain rfl := Option.some.inj (hi'.symm.trans hj)
      exact Or.inl ⟨rfl, switched_free hs (released_free (k := k) hstate.envs)⟩
    · exact Or.inr hh

theorem free_of_victim {op : Op} (hx : (Call.step op).victim k = some x) (h : next op k = some k') :
    (k'.envs x).envStatus = .free := by
  cases op with
  | syscall f inp =>
    cases hcall : Syscall.ofFrame f inp with
    | none => simp [Call.victim, hcall] at hx
    | some s =>
      have hends := doSyscall_ends hcall h
      simp only [Call.victim, hcall] at hx
      cases s with
      | envDestroy envid =>
        exact hends.gone (sysEnvDestroy_gone ((target_entered k f envid true).trans hx))
      | killJob jobId =>
        obtain ⟨i, hj, hi⟩ := Option.bind_eq_some_iff.mp hx
        obtain ⟨hrun, hslot⟩ := Option.ite_none_right_eq_some.mp hi
        obtain rfl := Option.some.inj hslot
        exact hends.gone (wp_seq_pure inp.v0 (envKillJob_gone (k := k.entered f) hj hrun))
      | _ => cases hx
  | _ => cases hx

theorem create_not_gone {image : Image} {priority : Word}
    (h : afterEnvInit.next (.create image priority) k = some k') (hlive : (k.envs x).envStatus ≠ .free) :
    (k'.envs x).envStatus ≠ .free := by
  simp only [afterEnvInit, Call.next] at h
  split at h
  case h_1 e k₁ hx =>
    obtain rfl := Option.some.inj h
    obtain ⟨he, pgdir, asid, id, hid, hsame⟩ := wp_run_ok (envCreate_spec k image priority) hx
    intro hgone
    exact not_gone_of_setEnv (e := e) (f := fun env => env.create pgdir asid id priority image.entry)
      hlive hgone hsame.envs (by simp [Env.create])
  case h_2 => cases h

theorem gone_iff {c : Call} (hi : SlotInv k) (h : afterEnvInit.next c k = some k')
    (hlive : (k.envs x).envStatus ≠ .free) :
    (k'.envs x).envStatus = .free ↔ c.victim k = some x := by
  cases c with
  | create image priority =>
    exact ⟨fun hgone => absurd hgone (create_not_gone h hlive), fun hv => nomatch hv⟩
  | step op =>
    exact ⟨fun hgone => victim_of_destroys (destroys_of_gone hlive hgone hi h), fun hv =>
      free_of_victim hv h⟩

theorem alive_some : g.alive (some n) ↔ ∃ e, g.lives e = some n := by
  simp [Births.alive]

/-- Of the environments that an entry may be made for, a call takes its victim. -/
theorem alive_follow {c : Call} (hi : BirthInv k g) (h : afterEnvInit.next c k = some k')
    (hn : n < g.born.length) :
    (g.follow c k k').alive (some n) ↔ g.alive (some n) ∧ ∀ x, c.victim k = some x →
      g.lives x ≠ some n := by
  have hb := (bears_call hi.slots h).1
  rw [alive_some, alive_some]
  constructor
  · rintro ⟨e, he⟩
    obtain ⟨hl, hlive⟩ := (lives_follow hi hb hn).mp he
    refine ⟨⟨e, hl⟩, fun x hx hlx => ?_⟩
    obtain ⟨hbefore, hborn⟩ := hi.born_of_lives hl
    obtain ⟨_, hborn'⟩ := hi.born_of_lives hlx
    obtain rfl := (Prod.mk.inj (Option.some.inj (hborn.symm.trans hborn'))).1
    exact hlive ((gone_iff hi.slots h hbefore).mpr hx)
  · rintro ⟨⟨e, he⟩, hv⟩
    refine ⟨e, (lives_follow hi hb hn).mpr ⟨he, fun hgone => ?_⟩⟩
    exact hv e ((gone_iff hi.slots h (hi.born_of_lives he).1).mp hgone) he

/-! ## One call -/

theorem alive_none : ¬ g.alive none := by
  rintro ⟨n, hn, -⟩
  cases hn

/-- The call takes the environments of exactly those entries that it sets to Done. -/
def Matched (k : Kernel) (g : Births) (o : Owners) (c : Call) : Prop :=
  (∀ j, c.makes k = some j → g.named k j.envid ≠ none) ∧
  ∀ l < k.jobCnt, g.alive (o l) → ((∃ x, c.victim k = some x ∧ g.lives x = o l) ↔ c.finishes k = some l)

theorem alive_entry {c : Call} (hi : OwnerInv k g o) (h : afterEnvInit.next c k = some k')
    (hl : l < k.jobCnt) : (g.follow c k k').alive (o l) ↔
      g.alive (o l) ∧ ¬ ∃ x, c.victim k = some x ∧ g.lives x = o l := by
  cases ho : o l with
  | none => simp [alive_none]
  | some n =>
    have hn : n < g.born.length := (List.getElem?_eq_some_iff.mp (hi.owner l hl n ho)).1
    rw [alive_follow hi.births h hn]
    simp only [not_exists, not_and]

theorem makes_fields {c : Call} {j : Job} (h : c.makes k = some j) :
    j.jobStatus = 1 ∧ j.jobId = BitVec.ofNat 32 k.jobCnt + 1 ∧ c.victim k = none := by
  cases c with
  | create => cases h
  | step op =>
    cases op with
    | syscall f inp =>
      cases hcall : Syscall.ofFrame f inp with
      | none => simp [Call.makes, hcall] at h
      | some s =>
        simp only [Call.makes, Call.victim, hcall] at h ⊢
        cases s with
        | createJob envid cmd =>
          obtain rfl := Option.some.inj h
          exact ⟨rfl, rfl, rfl⟩
        | _ => cases h
    | _ => cases h

theorem entry_kept {c : Call} (hi : OwnerInv k g o) (hagree : Agrees ((k, g), o))
    (h : afterEnvInit.next c k = some k') (hl : l < k.jobCnt) (hne : c.finishes k ≠ some l)
    (hjob : k'.jobs l = k.jobs l) :
    ((k'.jobs l).jobStatus = 1 ↔ (g.follow c k k').alive (o l)) ↔
      (g.alive (o l) → ((∃ x, c.victim k = some x ∧ g.lives x = o l) ↔ c.finishes k = some l)) := by
  have hst : (k.jobs l).jobStatus = 1 ↔ g.alive (o l) := hagree.status l hl
  rw [hjob, hst, alive_entry hi h hl]
  simp only [hne, iff_false]
  exact iff_self_and

theorem entry_done {c : Call} (hi : OwnerInv k g o) (h : afterEnvInit.next c k = some k')
    (hl : l < k.jobCnt) (heq : c.finishes k = some l) (hjob : (k'.jobs l).jobStatus = 0) :
    ((k'.jobs l).jobStatus = 1 ↔ (g.follow c k k').alive (o l)) ↔
      (g.alive (o l) → ((∃ x, c.victim k = some x ∧ g.lives x = o l) ↔ c.finishes k = some l)) := by
  have hzero : ¬ (k'.jobs l).jobStatus = 1 := by simp [hjob]
  rw [alive_entry hi h hl]
  simp only [hzero, heq, iff_true, false_iff, not_and, not_not]

theorem entry_made {c : Call} {j : Job} (hi : OwnerInv k g o) (h : afterEnvInit.next c k = some k')
    (hmakes : c.makes k = some j) :
    (g.follow c k k').alive (g.named k j.envid) ↔ g.named k j.envid ≠ none := by
  constructor
  · rintro ⟨n, hn, -⟩ hnone
    exact nomatch hn.symm.trans hnone
  · intro hne
    obtain ⟨n, hn⟩ := Option.ne_none_iff_exists'.mp hne
    have hlt : n < g.born.length := (List.getElem?_eq_some_iff.mp (named_born hi.births hn)).1
    rw [hn, alive_follow hi.births h hlt]
    obtain ⟨_, hl⟩ := Option.ite_none_right_eq_some.mp hn
    refine ⟨⟨n, rfl, _, hl⟩, fun x hx => ?_⟩
    rw [(makes_fields hmakes).2.2] at hx
    cases hx

theorem agrees_iff : Agrees ((k, g), o) ↔ k.jobCnt ≤ njobs ∧
    (∀ i < k.jobCnt, (k.jobs i).jobId = BitVec.ofNat 32 i + 1) ∧
    ∀ i < k.jobCnt, (k.jobs i).jobStatus = 1 ↔ g.alive (o i) :=
  ⟨fun h => ⟨h.room, h.ids, h.status⟩, fun h => ⟨h.1, h.2.1, h.2.2⟩⟩

theorem agrees_call {c : Call} (hi : OwnerInv k g o) (hagree : Agrees ((k, g), o))
    (h : afterEnvInit.next c k = some k') :
    Agrees ((k', g.follow c k k'), o.follow c (k, g) (k', g.follow c k k')) ↔ Matched k g o c := by
  obtain ⟨hroom, hids, -⟩ := agrees_iff.mp hagree
  have entries : (∀ l < k.jobCnt, ((k'.jobs l).jobStatus = 1 ↔ (g.follow c k k').alive (o l)) ↔
      (g.alive (o l) → ((∃ x, c.victim k = some x ∧ g.lives x = o l) ↔ c.finishes k = some l))) ∧
      ∀ l < k.jobCnt, (k'.jobs l).jobId = (k.jobs l).jobId := by
    cases entered_call h with
    | same finishes _ jobs _ =>
      refine ⟨fun l hl => entry_kept hi hagree h hl (by simp [finishes]) (by rw [jobs]), fun l _ => ?_⟩
      rw [jobs]
    | @done d finishes lt _ jobs _ =>
      refine ⟨fun l hl => ?_, fun l _ => ?_⟩
      · rcases eq_or_ne l d with rfl | hne
        · exact entry_done hi h hl finishes (by simp [jobs])
        · refine entry_kept hi hagree h hl ?_ (by simp [jobs, hne])
          rw [finishes]
          exact fun heq => hne (Option.some.inj heq).symm
      · rcases eq_or_ne l d with rfl | hne
        · simp [jobs]
        · simp [jobs, hne]
    | made finishes _ _ _ jobs _ =>
      refine ⟨fun l hl => entry_kept hi hagree h hl (by simp [finishes]) ?_, fun l hl => ?_⟩
      · simp [jobs, hl.ne]
      · simp [jobs, hl.ne]
  obtain ⟨hentries, hkept⟩ := entries
  cases entered_call h with
  | same _ makes _ cnt | done _ _ makes _ cnt =>
    have hsame : o.follow c (k, g) (k', g.follow c k k') = o := if_pos cnt
    rw [hsame, agrees_iff]
    constructor
    · rintro ⟨-, -, hafter⟩
      refine ⟨fun j hj => ?_, fun l hl => (hentries l hl).mp ?_⟩
      · rw [makes] at hj
        cases hj
      · exact hafter l (Nat.lt_of_lt_of_eq hl cnt.symm)
    · rintro ⟨-, hmatch⟩
      refine ⟨cnt.le.trans hroom, fun i hlt => ?_, fun i hlt => ?_⟩
      · have hlt : i < k.jobCnt := Nat.lt_of_lt_of_eq hlt cnt
        exact (hkept i hlt).trans (hids i hlt)
      · have hlt : i < k.jobCnt := Nat.lt_of_lt_of_eq hlt cnt
        exact (hentries i hlt).mpr (hmatch i hlt)
  | @made j _ makes room _ jobs cnt =>
    obtain ⟨hst, hid, -⟩ := makes_fields makes
    have hlast : k'.jobs k.jobCnt = j := by simp [jobs]
    have howner : o.follow c (k, g) (k', g.follow c k k') =
        Function.update o k.jobCnt (g.named k j.envid) := by
      unfold Owners.follow
      rw [if_neg (by simp [cnt]), hlast]
    rw [howner, agrees_iff]
    have hother : ∀ l < k.jobCnt, Function.update o k.jobCnt (g.named k j.envid) l = o l :=
      fun l hl => Function.update_of_ne hl.ne _ _
    constructor
    · rintro ⟨-, -, hafter⟩
      refine ⟨fun j' hj' => ?_, fun l hl => (hentries l hl).mp ?_⟩
      · obtain rfl := Option.some.inj (makes.symm.trans hj')
        have hnew := hafter k.jobCnt (by omega)
        simp only [hlast, hst, Function.update_self, true_iff] at hnew
        exact (entry_made hi h makes).mp hnew
      · have hold := hafter l (by omega)
        rw [hother l hl] at hold
        exact hold
    · rintro ⟨hnamed, hmatch⟩
      refine ⟨by omega, fun i hlt => ?_, fun i hlt => ?_⟩
      · rcases Nat.lt_or_ge i k.jobCnt with hl | hge
        · exact (hkept i hl).trans (hids i hl)
        · obtain rfl : i = k.jobCnt := by omega
          rw [hlast, hid]
      · rcases Nat.lt_or_ge i k.jobCnt with hl | hge
        · rw [hother i hl]
          exact (hentries i hl).mpr (hmatch i hl)
        · obtain rfl : i = k.jobCnt := by omega
          simp only [hlast, hst, Function.update_self, true_iff]
          exact (entry_made hi h makes).mpr (hnamed j makes)

/-- For a call that the machine takes, the conditions are exact. -/
theorem orderly_iff {c : Call} (hi : OwnerInv k g o) (h : afterEnvInit.next c k = some k') :
    Orderly ((k, g), o) c ↔ Matched k g o c := by
  have idle : c.makes k = none → c.finishes k = none → c.victim k = none → Matched k g o c := by
    intro hmakes hfinishes hvictim
    refine ⟨fun j hj => ?_, fun l _ _ => ?_⟩
    · rw [hmakes] at hj
      cases hj
    · simp [hvictim, hfinishes]
  cases c with
  | create => exact iff_of_true trivial (idle rfl rfl rfl)
  | step op =>
    cases op with
    | syscall f inp =>
      cases hcall : Syscall.ofFrame f inp with
      | none =>
        refine iff_of_true ?_ (idle ?_ ?_ ?_)
        · simp only [Orderly, hcall]
        · simp only [Call.makes, hcall]
        · simp only [Call.finishes, hcall]
        · simp only [Call.victim, hcall]
      | some s =>
        simp only [Orderly, Matched, Call.makes, Call.finishes, Call.victim, hcall] at idle ⊢
        cases s with
        | createJob envid cmd =>
          have hmakes : (Call.step (.syscall f inp)).makes k =
              some { envid := envid, jobStatus := 1, cmd := inp.cmd
                     jobId := BitVec.ofNat 32 k.jobCnt + 1 } := by
            simp only [Call.makes, hcall]
          cases entered_call h with
          | same _ makes | done _ _ makes => cases makes.symm.trans hmakes
          | @made j _ makes room fits _ _ =>
            obtain rfl := Option.some.inj (makes.symm.trans hmakes)
            simp only [room, true_and, Option.some.injEq, forall_eq', reduceCtorEq, false_and,
              exists_false, implies_true, and_true, and_iff_right_iff_imp]
            exact fun _ => fits
        | setJobDone envid =>
          simp only [reduceCtorEq, false_implies, implies_true, false_and, exists_false, false_iff,
            true_and]
          exact ⟨fun hdead l _ halive hl => hdead l hl halive, fun hmatch i hj halive =>
            hmatch i (Kernel.jobAt_lt hj).1 halive hj⟩
        | envDestroy envid =>
          simp only [reduceCtorEq, false_implies, implies_true, iff_false, true_and, not_exists,
            not_and]
          constructor
          · exact fun hnone l hl _ x hx heq => hnone x hx l hl heq.symm
          · intro hmatch x hx l hl heq
            obtain ⟨n, hn, _⟩ := hi.births.lives x (hi.births.slots.target_live hx)
            have halive : g.alive (o l) := ⟨n, heq.trans hn, x, hn⟩
            exact hmatch l hl halive x hx heq.symm
        | killJob jobId =>
          simp only [reduceCtorEq, false_implies, implies_true, true_and, Option.bind_eq_some_iff,
            Option.ite_none_right_eq_some, Option.some.injEq, Option.filter_eq_some_iff,
            decide_eq_true_eq]
          constructor
          · rintro hkill l hl ⟨n, hn, e, he⟩
            constructor
            · rintro ⟨x, ⟨i, hj, hrun, rfl⟩, hx⟩
              obtain ⟨rfl, hcur⟩ := hkill i hj hrun l hl hx.symm
              exact ⟨hj, hrun, hcur⟩
            · rintro ⟨hj, hrun, hcur⟩
              obtain ⟨rfl, -⟩ := hi.slot_of_lives hl hn he
              exact ⟨_, ⟨l, hj, hrun, rfl⟩, he.trans hn.symm⟩
          · intro hmatch i hj hrun l hl heq
            obtain ⟨n, hn, _⟩ := hi.births.lives (k.jobSlot i) (by simp [hrun])
            have halive : g.alive (o l) := ⟨n, heq.trans hn, _, hn⟩
            obtain ⟨hj', -, hcur⟩ := (hmatch l hl halive).mp ⟨_, ⟨i, hj, hrun, rfl⟩, heq.symm⟩
            obtain rfl := Option.some.inj (hj.symm.trans hj')
            exact ⟨rfl, hcur⟩
        | _ => exact iff_of_true trivial (idle rfl rfl rfl)
    | _ => exact iff_of_true trivial (idle rfl rfl rfl)

/-! ## Runs -/

theorem envCreateJob_fits {envid : Word} {cmd : List UInt8} (hroom : k.jobCnt < njobs)
    (hfits : cmd.length < 1024) :
    wp (envCreateJob envid cmd) (fun _ _ => True) (fun _ _ => False) k := by
  unfold envCreateJob
  simp only [wp_bind, wp_get, wp_ite, wp_throw, wp_updJob, wp_modify]
  exact ⟨fun hover => by omega, fun _ => trivial⟩

theorem contained_of_orderly {c : Call} {p : (Kernel × Births) × Owners} (hroom : p.1.1.jobCnt ≤ njobs)
    (h : Orderly p c) : Contained p c := by
  constructor
  · rintro f inp envid cmd k' rfl hcall hx
    simp only [Orderly, hcall] at h
    exact (wp_run_error (envCreateJob_fits (k := p.1.1.entered f) h.1 h.2.1) hx :)
  · intro p' hp
    obtain ⟨hnext, -, -⟩ := ledger_next hp
    cases entered_call hnext with
    | same _ _ jobs _ => exact ⟨0, by decide, fun l _ => by rw [jobs]⟩
    | @done i _ lt _ jobs _ =>
      refine ⟨i, by omega, fun l hl => ?_⟩
      rw [jobs, Function.update_of_ne hl]
    | made _ _ room _ jobs _ =>
      refine ⟨_, room, fun l hl => ?_⟩
      rw [jobs, Function.update_of_ne hl]

theorem agrees_next {c : Call} {p p' : (Kernel × Births) × Owners} (hi : OwnerInv p.1.1 p.1.2 p.2)
    (hagree : Agrees p) (h : ledger.next c p = some p') : Agrees p' ↔ Orderly p c := by
  obtain ⟨⟨k, g⟩, o⟩ := p
  obtain ⟨⟨k', g'⟩, o'⟩ := p'
  obtain ⟨hnext, hg, ho⟩ := ledger_next h
  have hg : g' = g.follow c k k' := hg
  have ho : o' = o.follow c (k, g) (k', g') := ho
  have hcall := (agrees_call hi hagree hnext).trans (orderly_iff hi hnext).symm
  rw [← hg, ← ho] at hcall
  exact hcall

theorem agrees_init {p : (Kernel × Births) × Owners} (h : ledger.init p) : Agrees p := by
  obtain ⟨⟨k, g⟩, o⟩ := p
  obtain ⟨⟨⟨mc, hx⟩, -⟩, -⟩ := h
  have hrec := records_envInit mc mc.initial
  have hcnt : k.jobCnt = 0 := (wp_run_ok hrec hx :).jobCnt
  rw [agrees_iff, hcnt]
  exact ⟨by decide, fun i hi => absurd hi (Nat.not_lt_zero i), fun i hi => absurd hi (Nat.not_lt_zero i)⟩

/-- In a run of such calls the table is right in every state, and the next call keeps it so exactly
if it is one of them too. -/
theorem jobs_agree {p : (Kernel × Births) × Owners} (h : ledger.Run Orderly p) :
    Agrees p ∧ ∀ c, (Orderly p c → Contained p c) ∧
      ∀ p', ledger.next c p = some p' → (Agrees p' ↔ Orderly p c) := by
  have hboth : OwnerInv p.1.1 p.1.2 p.2 ∧ Agrees p := by
    induction h with
    | init hinit => exact ⟨owner_inv (.init hinit), agrees_init hinit⟩
    | step hr hc hs ih =>
      exact ⟨owner_inv (.step hr.reachable trivial hs), (agrees_next ih.1 ih.2 hs).mpr hc⟩
  exact ⟨hboth.2, fun c => ⟨contained_of_orderly hboth.2.room, fun p' hs =>
    agrees_next hboth.1 hboth.2 hs⟩⟩

theorem ledger_call {C : (Kernel × Births) × Owners → Call → Prop} {p : (Kernel × Births) × Owners}
    {c : Call} (h : ledger.Run C p) (hc : C p c) (hs : afterEnvInit.next c p.1.1 = some k') :
    ∃ g o, ledger.Run C ((k', g), o) := by
  refine ⟨p.1.2.follow c p.1.1 k', p.2.follow c p.1 (k', p.1.2.follow c p.1.1 k'), .step h hc ?_⟩
  show (((afterEnvInit.next c p.1.1).map _).map _) = _
  rw [hs]
  rfl

/-- A job that is made for a child. -/
theorem jobs_agree_child : ∃ p, ledger.Run Orderly p ∧ p.1.1.jobCnt = 1 ∧
    Agrees p ∧ ∀ c, (Orderly p c → Contained p c) ∧
      ∀ p', ledger.next c p = some p' → (Agrees p' ↔ Orderly p c) := by
  have hcheck : (smallInit.any fun k₀ => (afterEnvInit.exec [.create bareLoop 1, .step .start,
      .step (callOp 9 0 0 0)] k₀).any fun k => (k.envs 1).envStatus == .notRunnable &&
        (k.envs 1).envId == 4097 && k.jobCnt == 0 &&
        ((next (callOp 18 4097 0 0) k).any fun k' => k'.jobCnt == 1)) = true := by
    decide +kernel
  obtain ⟨k₀, h₀, hcheck⟩ := (Option.any_eq_true _ _).mp hcheck
  obtain ⟨k, hrun, hcheck⟩ := (Option.any_eq_true _ _).mp hcheck
  simp only [Bool.and_eq_true, beq_iff_eq, Option.any_eq_true] at hcheck
  obtain ⟨⟨⟨hst, hid⟩, hcnt⟩, k', hlast, hone⟩ := hcheck
  obtain ⟨k₁, h₁, hrun⟩ := Option.bind_eq_some_iff.mp hrun
  obtain ⟨k₂, h₂, hrun⟩ := Option.bind_eq_some_iff.mp hrun
  obtain ⟨k₃, h₃, hrun⟩ := Option.bind_eq_some_iff.mp hrun
  obtain rfl := Option.some.inj hrun
  have hr₀ : ledger.Run Orderly ((k₀, ⟨[], fun _ => none⟩), fun _ => none) :=
    .init ⟨⟨smallInit_init h₀, rfl⟩, rfl⟩
  obtain ⟨g₁, o₁, hr₁⟩ := ledger_call hr₀ (c := .create bareLoop 1) trivial h₁
  obtain ⟨g₂, o₂, hr₂⟩ := ledger_call hr₁ (c := .step .start) trivial h₂
  obtain ⟨g₃, o₃, hr₃⟩ := ledger_call hr₂ (c := .step (callOp 9 0 0 0)) trivial h₃
  have hnamed : g₃.named k₃ 4097 ≠ none := by
    have hi : OwnerInv k₃ g₃ o₃ := owner_inv hr₃.reachable
    obtain ⟨n, hn, -⟩ := hi.births.lives 1 (by simp [hst])
    have hslot : envx 4097 = 1 := by decide
    unfold Births.named
    rw [hslot, if_pos ⟨by simp [hst], hid⟩, hn]
    exact Option.some_ne_none n
  have hroom : k₃.jobCnt < njobs := by
    rw [hcnt]
    decide
  obtain ⟨g, o, hr⟩ := ledger_call hr₃ (c := .step (callOp 18 4097 0 0))
    ⟨hroom, by decide, hnamed⟩ hlast
  exact ⟨_, hr, hone, jobs_agree hr⟩

/-- The child 4097 gets a job, and is destroyed before it can call `sys_set_job_done`. -/
theorem not_jobs_agree : ∃ p, ledger.Reachable p ∧ ¬ Agrees p := by
  obtain ⟨k, hr, hcheck⟩ := reachable_of_check
    [.create bareLoop 1, .step .start, .step (callOp 9 0 0 0), .step (callOp 18 4097 0 0),
      .step (callOp 10 4097 1 0), .step (callOp 4 4097 0 0)]
    (fun k => k.jobCnt == 1 && (k.jobs 0).jobStatus == 1 &&
      (k.envs (k.jobSlot 0)).envStatus == .free) (by decide +kernel)
  simp only [Bool.and_eq_true, beq_iff_eq] at hcheck
  obtain ⟨⟨hcnt, hst⟩, hfree⟩ := hcheck
  obtain ⟨g, o, hp⟩ := ledger_reachable hr
  refine ⟨((k, g), o), hp, fun hagree => ?_⟩
  have hi : OwnerInv k g o := owner_inv hp
  have hlt : 0 < k.jobCnt := by omega
  obtain ⟨n, ho, e, hl⟩ := (hagree.status 0 hlt).mp hst
  obtain ⟨rfl, -⟩ := hi.slot_of_lives hlt ho hl
  exact (hi.births.born_of_lives hl).1 hfree

end Mos
