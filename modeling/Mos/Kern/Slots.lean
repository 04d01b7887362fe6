import Mos.Kern.Effects

/-!
# Slots of `envs`

`curenv` lives, `env_free_list` holds free slots only, each once, and the
identifier of a live environment leads to its slot. No system call can break
this, whatever its arguments are.
-/

namespace Mos

open Lib

variable {k k₁ k' : Kernel} {e c x : EnvIx}

structure SlotInv (k : Kernel) : Prop where
  cur_live : ∀ c, k.curenv = some c → (k.envs c).envStatus ≠ .free
  free_status : ∀ e ∈ k.envFreeList, (k.envs e).envStatus = .free
  free_nodup : k.envFreeList.Nodup
  ids : ∀ e, (k.envs e).envStatus ≠ .free → envx (k.envs e).envId = e

namespace SlotInv

theorem congr (h : SlotInv k) (hs : EnvsOnly k k') : SlotInv k' := by
  obtain ⟨henvs, hcur, hfree⟩ := hs
  constructor
  · rw [hcur, henvs]
    exact h.cur_live
  · rw [hfree, henvs]
    exact h.free_status
  · rw [hfree]
    exact h.free_nodup
  · rw [henvs]
    exact h.ids

theorem not_free (h : SlotInv k) (he : (k.envs e).envStatus ≠ .free) : e ∉ k.envFreeList :=
  fun hf => he (h.free_status e hf)

theorem target_live (h : SlotInv k) {envid : Word} {checkperm : Bool}
    (he : target k envid checkperm = some e) : (k.envs e).envStatus ≠ .free := by
  rcases target_cases he with ⟨_, hc⟩ | ⟨_, _, hlive, _⟩
  · exact h.cur_live e hc
  · exact hlive

theorem target_envId (h : SlotInv k) (he : (k.envs e).envStatus ≠ .free)
    (hid : (k.envs e).envId ≠ 0) : target k (k.envs e).envId false = some e := by
  unfold target
  rw [if_neg hid]
  simp only [h.ids e he]
  rw [if_neg (by simp [he]), if_neg (by simp)]

theorem setEnv {f : Env → Env} (h : SlotInv k)
    (hst : (f (k.envs e)).envStatus ≠ .free ↔ (k.envs e).envStatus ≠ .free)
    (hid : (f (k.envs e)).envId = (k.envs e).envId) : SlotInv (k.setEnv e f) := by
  have henv : ∀ x, ((k.setEnv e f).envs x).envStatus ≠ .free ↔ (k.envs x).envStatus ≠ .free := by
    intro x
    rcases eq_or_ne x e with rfl | hx
    · simpa using not_congr (not_iff_not.mp hst)
    · simp [hx]
  refine ⟨fun c hc => (henv c).mpr (h.cur_live c hc), fun x hx => ?_, h.free_nodup, fun x hx => ?_⟩
  · exact not_not.mp fun hn => (henv x).mp hn (h.free_status x hx)
  · have hlive := (henv x).mp hx
    rcases eq_or_ne x e with rfl | hxe
    · simpa [hid] using h.ids x hlive
    · simpa [hxe] using h.ids x hlive

theorem switched (h : SlotInv { k with curenv := none }) (hs : Switched k e k') : SlotInv k' := by
  have hst : ∀ x, (k'.envs x).envStatus = (k.envs x).envStatus ∧
      (k'.envs x).envId = (k.envs x).envId := fun x => by
    rw [hs.envs]
    exact ⟨rfl, rfl⟩
  refine ⟨fun c hc => ?_, fun x hx => ?_, hs.free ▸ h.free_nodup, fun x hx => ?_⟩
  · obtain rfl : e = c := Option.some.inj (hs.cur.symm.trans hc)
    rw [(hst e).1, hs.runnable]
    simp
  · rw [(hst x).1]
    exact h.free_status x (hs.free ▸ hx)
  · rw [(hst x).1] at hx
    rw [(hst x).2]
    exact h.ids x hx

theorem forget (h : SlotInv k) : SlotInv { k with curenv := none } :=
  ⟨by simp, h.free_status, h.free_nodup, h.ids⟩

theorem depart (h : SlotInv k) {k₀ : Kernel} (hs : EnvsOnly k k₀) (hsw : Switched k₀ e k') :
    SlotInv k' := (h.congr hs).forget.switched hsw

/-- A live environment that is not `curenv` goes to `env_free_list`. -/
theorem released (h : SlotInv k) (he : (k.envs e).envStatus ≠ .free) (hc : k.curenv ≠ some e) :
    SlotInv (k.released e) := by
  have hnot := h.not_free he
  have hother : ∀ x, x ≠ e → (k.released e).envs x = k.envs x := fun x hx => by
    simp [Kernel.released, hx]
  have hself : ((k.released e).envs e).envStatus = .free := by simp [Kernel.released]
  refine ⟨fun c hc' => ?_, fun x hx => ?_, List.nodup_cons.mpr ⟨hnot, h.free_nodup⟩, fun x hx => ?_⟩
  · have hce : c ≠ e := by
      rintro rfl
      exact hc hc'
    rw [hother c hce]
    exact h.cur_live c hc'
  · rcases List.mem_cons.mp hx with rfl | hmem
    · exact hself
    · have hxe : x ≠ e := by
        rintro rfl
        exact hnot hmem
      rw [hother x hxe]
      exact h.free_status x hmem
  · have hxe : x ≠ e := by
      rintro rfl
      exact hx hself
    rw [hother x hxe] at hx ⊢
    exact h.ids x hx

/-- A free slot is taken. -/
theorem taken {env : Env} {k' : Kernel} (h : SlotInv k) (he : k.envFreeList.head? = some e)
    (hid : envx env.envId = e) (henvs : k'.envs = Function.update k.envs e env)
    (hcur : k'.curenv = k.curenv) (hfree : k'.envFreeList = k.envFreeList.erase e) :
    SlotInv k' := by
  have hmem : e ∈ k.envFreeList := List.mem_of_head? he
  have hfreeStatus := h.free_status e hmem
  refine ⟨fun c hc => ?_, fun x hx => ?_, ?_, fun x hx => ?_⟩
  · have hlive := h.cur_live c (hcur ▸ hc)
    have hce : c ≠ e := by
      rintro rfl
      exact hlive hfreeStatus
    simpa [henvs, hce] using hlive
  · rw [hfree] at hx
    have hxe : x ≠ e := by
      rintro rfl
      exact h.free_nodup.not_mem_erase hx
    simpa [henvs, hxe] using h.free_status x (List.mem_of_mem_erase hx)
  · rw [hfree]
    exact h.free_nodup.erase e
  · rw [henvs] at hx ⊢
    rcases eq_or_ne x e with rfl | hxe
    · simpa using hid
    · simp only [Function.update_of_ne hxe] at hx ⊢
      exact h.ids x hx

end SlotInv

/-! ## Steps -/

theorem slot_waits {f : Env → Env} (h : SlotInv k) (hw : Waits k c f k')
    (hst : ∀ env, (f env).envId = env.envId) : SlotInv k' := by
  obtain ⟨k₀, e, hsame, hs⟩ := hw.switched
  refine SlotInv.depart (h.setEnv ?_ ?_) hsame hs
  · exact iff_of_true (by simp) (h.cur_live c hw.cur)
  · exact hst _

theorem slot_delivered {envid srcva : Word} {waiting : Env → Bool} {deliver : Word → Env → Env}
    {ok : Bool} (h : SlotInv k) (hd : Delivered k envid srcva waiting deliver ok c e k')
    (hid : ∀ sender env, (deliver sender env).envId = env.envId) : SlotInv k' := by
  refine SlotInv.congr (h.setEnv ?_ ?_) hd.state
  · exact iff_of_true (by simp) (h.target_live hd.target)
  · exact hid _ _

theorem slot_effect {inp : Inputs} {s : Syscall} (h : SlotInv k) (he : Effect k inp s k') :
    SlotInv k' := by
  have gone : ∀ {e c k₀}, (k.envs e).envStatus ≠ .free →
      EnvsOnly { k.released e with curenv := none } k₀ → Switched k₀ c k' → SlotInv k' := by
    intro e c k₀ hlive hsame hs
    have hr : SlotInv { k.released e with curenv := none } :=
      SlotInv.congr (h.forget.released hlive (by simp)) ⟨rfl, rfl, rfl⟩
    exact hr.depart hsame hs
  cases he with
  | quiet _ same | refused same _ | refusedReturn same _ _ => exact h.congr same
  | yield same switched => exact h.depart same switched
  | setTlbModEntry target state => exact (h.setEnv Iff.rfl rfl).congr state
  | fork cur head slot value state => exact h.taken head slot state.envs state.cur state.free
  | forkFails head state => exact (h.setEnv Iff.rfl rfl).congr state
  | setStatus known target state =>
    refine (h.setEnv ?_ ?_).congr state
    · refine iff_of_true ?_ (h.target_live target)
      unfold toStatus at known
      split_ifs at known
      · simp [← Option.some.inj known]
      · simp [← Option.some.inj known]
    · rfl
  | setFrame legal target other state => exact (h.setEnv Iff.rfl rfl).congr state
  | destroy target other state => exact (h.released (h.target_live target) other).congr state
  | destroySelf target cur state switched => exact gone (h.target_live target) state switched
  | kill job id runnable other state => exact (h.released (by simp [runnable]) other).congr state
  | killSelf job id runnable cur state switched => exact gone (h.cur_live _ cur) state switched
  | recv legal waits => exact slot_waits h waits fun _ => rfl
  | recvReturn waits => exact slot_waits h waits fun _ => rfl
  | send sent => exact slot_delivered h sent fun _ _ => rfl
  | sendReturn sent => exact slot_delivered h sent fun _ _ => rfl

theorem slot_next {op : Op} (h : SlotInv k) (hs : next op k = some k') : SlotInv k' := by
  by_cases hop : ∃ f inp, op = .syscall f inp
  · obtain ⟨f, inp, rfl⟩ := hop
    cases hcall : Syscall.ofFrame f inp with
    | none =>
      rw [unknown_next hcall hs]
      exact h.congr ⟨rfl, rfl, rfl⟩
    | some s =>
      have he := effect_of_ends (doSyscall_ends hcall hs)
      exact slot_effect (h.congr (entered_envsOnly k f)) he
  · have hop' : ∀ f inp, op ≠ .syscall f inp := fun f inp h => hop ⟨f, inp, h⟩
    rcases other_next hop' hs with hsame | ⟨k₀, e, hsame, hsw⟩
    · exact h.congr hsame
    · exact h.depart hsame hsw

theorem slot_initial {mc : Machine} : SlotInv mc.initial := by
  refine ⟨?_, fun _ _ => rfl, ?_, fun e he => absurd rfl he⟩
  · rintro c ⟨⟩
  · have hf : mc.initial.envFreeList = List.finRange 1024 := by simp only [Machine.initial]
    rw [hf]
    exact List.nodup_finRange 1024

theorem slot_envInit (mc : Machine) :
    wp (envInit mc) (fun _ => SlotInv) (fun _ _ => True) mc.initial :=
  wp_mono ((sameEnvs_envInit mc).always _) (fun _ _ h₁ => slot_initial.congr (.of_same h₁))
    (fun _ _ _ => trivial)

theorem slot_envCreate (h : SlotInv k) (image : Image) (priority : Word) :
    wp (envCreate image priority) (fun _ => SlotInv) (fun _ _ => True) k := by
  refine wp_mono (envCreate_spec k image priority) ?_ (fun _ _ h => h)
  rintro e k' ⟨he, pgdir, asid, id, hid, hsame⟩
  exact h.taken he hid hsame.envs hsame.cur hsame.free

theorem slot_boot {mc : Machine} {programs : List (Image × Word)} (hb : boot mc programs = some k) :
    SlotInv k :=
  boot_rule (slot_envInit mc) (fun _ image priority hk => slot_envCreate hk image priority) hb

theorem slot_inv {C : Kernel → Op → Prop} (h : mos.Run C k) : SlotInv k := by
  refine h.invariant ?_ ?_
  · rintro k ⟨mc, programs, hb⟩
    exact slot_boot hb
  · intro k op k' hi _ hs
    exact slot_next hi hs

/-! ## Who lives in a slot -/

/-- The environment in a slot is destroyed, or it is the one from before. -/
def SameOrGone (k k' : Kernel) (x : EnvIx) : Prop :=
  (k'.envs x).envStatus = .free ∨ ((k.envs x).envStatus ≠ .free ∧
    (k'.envs x).envId = (k.envs x).envId ∧ (k'.envs x).envParentId = (k.envs x).envParentId)

namespace SameOrGone

theorem refl (k : Kernel) (x : EnvIx) : SameOrGone k k x := by
  by_cases hx : (k.envs x).envStatus = .free
  · exact Or.inl hx
  · exact Or.inr ⟨hx, rfl, rfl⟩

theorem of_env (h : SameOrGone k k₁ x) (henv : k'.envs x = k₁.envs x) : SameOrGone k k' x := by
  unfold SameOrGone
  rw [henv]
  exact h

theorem of_envs (h : SameOrGone k k₁ x) (henvs : k'.envs = k₁.envs) : SameOrGone k k' x :=
  h.of_env (congrFun henvs x)

theorem of_switched (h : SameOrGone k k₁ x) (hs : Switched k₁ e k') : SameOrGone k k' x := by
  unfold SameOrGone
  rw [hs.envs]
  exact h

theorem setEnv {f : Env → Env} {k' : Kernel} (henvs : k'.envs = (k.setEnv e f).envs)
    (hlive : (k.envs e).envStatus ≠ .free ∨ (f (k.envs e)).envStatus = .free)
    (hid : (f (k.envs e)).envId = (k.envs e).envId)
    (hparent : (f (k.envs e)).envParentId = (k.envs e).envParentId) : SameOrGone k k' x := by
  unfold SameOrGone
  rw [henvs, Kernel.setEnv_envs]
  rcases eq_or_ne x e with rfl | hx
  · rw [Function.update_self]
    rcases hlive with h | h
    · exact Or.inr ⟨h, hid, hparent⟩
    · exact Or.inl h
  · rw [Function.update_of_ne hx]
    exact refl k x

theorem released (henvs : k'.envs = (k.released e).envs) : SameOrGone k k' x :=
  setEnv (f := fun env => { env with envStatus := .free }) henvs (Or.inr rfl) rfl rfl

end SameOrGone

/-- A system call but `sys_exofork` puts nobody new into a slot. -/
theorem same_or_forked {inp : Inputs} {s : Syscall} (h : SlotInv k) (he : Effect k inp s k') :
    (∀ x, SameOrGone k k' x) ∨ (s = .exofork ∧ ∃ c e pgdir asid id, k.curenv = some c ∧
      k.envFreeList.head? = some e ∧ EnvsOnly (k.forked c e pgdir asid id) k') := by
  have gone : ∀ {e c k₀}, EnvsOnly { k.released e with curenv := none } k₀ → Switched k₀ c k' →
      ∀ x, SameOrGone k k' x := by
    intro e c k₀ hsame hs x
    exact (SameOrGone.released hsame.envs).of_switched hs
  have waits : ∀ {c f}, Waits k c f k' → (∀ env, (f env).envId = env.envId) →
      (∀ env, (f env).envParentId = env.envParentId) → ∀ x, SameOrGone k k' x := by
    intro c f hw hid hparent x
    obtain ⟨k₀, e, hsame, hs⟩ := hw.switched
    refine SameOrGone.of_switched (SameOrGone.setEnv hsame.envs (Or.inl ?_) ?_ ?_) hs
    · exact h.cur_live c hw.cur
    · exact hid _
    · exact hparent _
  cases he with
  | fork cur head slot value state =>
    exact Or.inr ⟨rfl, _, _, _, _, _, cur, head, state⟩
  | quiet _ same | refused same _ | refusedReturn same _ _ =>
    exact Or.inl fun x => (SameOrGone.refl k x).of_envs same.envs
  | yield same switched =>
    exact Or.inl fun x => ((SameOrGone.refl k x).of_envs same.envs).of_switched switched
  | forkFails head state =>
    refine Or.inl fun x => .setEnv state.envs (Or.inr ?_) rfl rfl
    exact h.free_status _ (List.mem_of_head? head)
  | setTlbModEntry target state | setStatus _ target state | setFrame _ target _ state =>
    exact Or.inl fun x => .setEnv state.envs (Or.inl (h.target_live target)) rfl rfl
  | destroy _ _ state | kill _ _ _ _ state =>
    exact Or.inl fun x => .released state.envs
  | destroySelf _ _ state switched | killSelf _ _ _ _ state switched =>
    exact Or.inl (gone state switched)
  | recv _ hw | recvReturn hw => exact Or.inl (waits hw (fun _ => rfl) fun _ => rfl)
  | send sent | sendReturn sent =>
    exact Or.inl fun x => .setEnv sent.state.envs (Or.inl (h.target_live sent.target)) rfl rfl

/-- A step puts nobody new into a slot, or it is a `sys_exofork`. -/
theorem next_same_or_forked {op : Op} (h : SlotInv k) (hs : next op k = some k') :
    (∀ x, SameOrGone k k' x) ∨ ∃ c e, k.curenv = some c ∧ k.envFreeList.head? = some e ∧
      (k'.envs e).envParentId = (k.envs c).envId ∧ ∀ x, x ≠ e → SameOrGone k k' x := by
  by_cases hop : ∃ f inp, op = .syscall f inp
  · obtain ⟨f, inp, rfl⟩ := hop
    cases hcall : Syscall.ofFrame f inp with
    | none =>
      rw [unknown_next hcall hs]
      exact Or.inl (SameOrGone.refl k)
    | some s =>
      have heff := effect_of_ends (doSyscall_ends hcall hs)
      rcases same_or_forked (h.congr (entered_envsOnly k f)) heff with
        hsame | ⟨_, c, e, pgdir, asid, id, hc, he, hstate⟩
      · exact Or.inl hsame
      · have henv : k'.envs = (k.setEnv e fun env =>
            (env.alloc pgdir asid id (k.envs c).envId).fork (k.envs c)
              (k.entered f).kstack).envs := hstate.envs
        refine Or.inr ⟨c, e, hc, he, ?_, fun x hx => (SameOrGone.refl k x).of_env ?_⟩
        · rw [henv]
          simp [Env.fork, Env.alloc]
        · rw [henv]
          simp [hx]
  · have hop' : ∀ f inp, op ≠ .syscall f inp := fun f inp h => hop ⟨f, inp, h⟩
    rcases other_next hop' hs with hsame | ⟨k₀, e, hsame, hsw⟩
    · exact Or.inl fun x => (SameOrGone.refl k x).of_envs hsame.envs
    · exact Or.inl fun x => ((SameOrGone.refl k x).of_envs hsame.envs).of_switched hsw

theorem live_same {op : Op} (h : SlotInv k) (hx : (k.envs x).envStatus ≠ .free)
    (hs : next op k = some k') : SameOrGone k k' x := by
  rcases next_same_or_forked h hs with hsame | ⟨_, e, _, he, _, hsame⟩
  · exact hsame x
  · refine hsame x ?_
    rintro rfl
    exact hx (h.free_status x (List.mem_of_head? he))

end Mos
