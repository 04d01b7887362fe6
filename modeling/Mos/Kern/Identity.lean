import Mos.Kern.Slots
import Mos.Kern.Records

/-!
# Identifiers of environments

`mkenvid` shifts a counter and adds the slot, and `envid2env` finds the environment again. The
history lists every environment that was created, with its slot and its identifier, and knows which
of them lives in a slot.
-/

namespace Mos

open Lib

variable {k k₁ k' : Kernel} {e x : EnvIx}

/-! ## Creation and destruction -/

/-- `mips_init` creates environments by itself, and a running machine by `sys_exofork`. -/
inductive Call where
  | create (image : Image) (priority : Word)
  | step (op : Op)

def Call.creates : Call → Bool
  | .create .. => true
  | .step (.syscall f inp) => Syscall.ofFrame f inp == some .exofork
  | .step _ => false

def Call.next : Call → Kernel → Option Kernel
  | .create image priority, k =>
    match envCreate image priority k with
    | .ok _ k' => some k'
    | .error _ _ => none
  | .step op, k => Mos.next op k

/-- The kernel from the end of `env_init` on. -/
def afterEnvInit : System Kernel Call where
  init k := ∃ mc, envInit mc mc.initial = .ok () k
  next := Call.next

/-- The environments that were created, in order, and which of them lives in a slot. -/
structure Births where
  born : List (EnvIx × Word)
  lives : EnvIx → Option Nat

/-- The slot was free and is not any more. -/
def newborn (k k' : Kernel) (e : EnvIx) : Bool :=
  (k.envs e).envStatus == .free && (k'.envs e).envStatus != .free

def Births.survive (k' : Kernel) (h : Births) (e : EnvIx) : Option Nat :=
  if (k'.envs e).envStatus = .free then none else h.lives e

def Births.follow (_ : Call) (k k' : Kernel) (h : Births) : Births :=
  match (List.finRange 1024).find? (newborn k k') with
  | none => { h with lives := h.survive k' }
  | some e =>
    { born := h.born ++ [(e, (k'.envs e).envId)]
      lives := Function.update (h.survive k') e (some h.born.length) }

def lineage : System (Kernel × Births) Call :=
  afterEnvInit.watch ⟨[], fun _ => none⟩ Births.follow

/-- No identifier is used twice, and an identifier finds nothing but the environment it was made
for. -/
structure NeverReused (k : Kernel) (h : Births) : Prop where
  nonzero : ∀ b ∈ h.born, b.2 ≠ 0
  slot : ∀ b ∈ h.born, envx b.2 = b.1
  distinct : (h.born.map Prod.snd).Nodup
  found : ∀ id e, id ≠ 0 → envid2env id false k = .ok e k →
    ∃ n, h.lives e = some n ∧ h.born[n]? = some (e, id)

/-! ## The identifiers -/

theorem envidOf_toNat {c : Word} (hc : c.toNat < 2 ^ 21) (e : EnvIx) :
    (envidOf c e).toNat = c.toNat * 2 ^ 11 + e.val := by
  have he := e.isLt
  have hshift : c.toNat <<< 11 % 2 ^ 32 = 2 ^ 11 * c.toNat := by
    rw [Nat.shiftLeft_eq]
    omega
  have hslot : e.val % 2 ^ 32 = e.val := Nat.mod_eq_of_lt (by omega)
  unfold envidOf
  rw [BitVec.toNat_or, BitVec.toNat_shiftLeft, BitVec.toNat_ofNat, hshift, hslot,
    ← Nat.two_pow_add_eq_or_of_lt (by omega)]
  omega

/-! ## One step -/

/-- What a step does to the slots and to the counter. -/
inductive Bears (creates : Bool) (k k' : Kernel) : Prop where
  | nobody (same : ∀ x, SameOrGone k k' x) (ids : k'.mkenvidCount = k.mkenvidCount)
  | one (made : creates = true) (e : EnvIx) (free : (k.envs e).envStatus = .free)
      (live : (k'.envs e).envStatus ≠ .free) (id : (k'.envs e).envId = envidOf (k.mkenvidCount + 1) e)
      (others : ∀ x, x ≠ e → SameOrGone k k' x) (ids : k'.mkenvidCount = k.mkenvidCount + 1)

theorem bears_exofork {inp : Inputs} (h : SlotInv k) (he : Ends inp .exofork k k') :
    Bears true k k' := by
  rcases he.spec (sysExofork_spec k) with
    ⟨v, _, ⟨c, e, m, asids, pgdir, asid, hc, hhead, hv, rfl⟩, rfl⟩ | ⟨err, _, ⟨_, m, hk⟩, rfl⟩ |
    ⟨hf, _⟩ | ⟨_, ⟨hf, _⟩, _⟩
  · refine .one rfl e (h.free_status e (List.mem_of_head? hhead)) ?_ ?_ (fun x hx => ?_) rfl
    · simp [Kernel.returned, Env.fork]
    · simp [Kernel.returned, Env.fork, Env.alloc, hv]
    · refine (SameOrGone.refl k x).of_env ?_
      simp [Kernel.returned, hx]
  · rcases hk with rfl | ⟨e, pgdir, hhead, rfl⟩
    · exact .nobody (SameOrGone.refl k) rfl
    · refine .nobody (fun x => ?_) rfl
      have hfree := h.free_status e (List.mem_of_head? hhead)
      exact SameOrGone.setEnv (e := e) (f := fun env =>
        { env with envPgdir := pgdir, envUserTlbModEntry := 0, envRuns := 0 }) rfl (Or.inr hfree) rfl rfl
  · exact absurd hf not_faults_resched
  · exact absurd hf not_faults_tlbMod

theorem bears_next {op : Op} (h : SlotInv k) (hs : next op k = some k') :
    Bears (Call.step op).creates k k' := by
  by_cases hop : ∃ f inp, op = .syscall f inp
  · obtain ⟨f, inp, rfl⟩ := hop
    cases hcall : Syscall.ofFrame f inp with
    | none =>
      rw [unknown_next hcall hs]
      exact .nobody (SameOrGone.refl k) rfl
    | some s =>
      have hent : SlotInv (k.entered f) := h.congr (entered_envsOnly k f)
      have hends := doSyscall_ends hcall hs
      by_cases hfork : s = .exofork
      · subst hfork
        -- the frame of the caller is not looked at
        cases bears_exofork hent hends with
        | nobody same ids => exact .nobody same ids
        | one _ e free live id others ids =>
          exact .one (beq_iff_eq.mpr hcall) e free live id others ids
      · rcases same_or_forked hent (effect_of_ends hends) with hsame | ⟨heq, _⟩
        · exact .nobody hsame (hends.keeps (ids_run inp hfork)).ids
        · exact absurd heq hfork
  · have hop' : ∀ f inp, op ≠ .syscall f inp := fun f inp h => hop ⟨f, inp, h⟩
    have hids := (other_records hop' hs).ids
    rcases other_next hop' hs with hsame | ⟨k₀, e, hsame, hsw⟩
    · exact .nobody (fun x => (SameOrGone.refl k x).of_envs hsame.envs) hids
    · exact .nobody (fun x => ((SameOrGone.refl k x).of_envs hsame.envs).of_switched hsw) hids

theorem envCreate_bears (h : SlotInv k) (image : Image) (priority : Word) :
    wp (envCreate image priority) (fun _ k' => Bears true k k') (fun _ _ => True) k := by
  unfold envCreate loadIcode
  rw [wp_bind, wp_mapStop]
  refine wp_mono (envAlloc_spec k 0) ?_ (fun _ _ _ => trivial)
  rintro e _ ⟨he, m, asids, pgdir, asid, rfl⟩
  simp only [wp_bind, wp_updEnv, wp_get]
  refine wp_onMem_any (fun _ m' => ?_) (fun _ _ => trivial)
  unfold schedInsertHead
  rw [wp_modify, wp_pure]
  refine .one rfl e (h.free_status e (List.mem_of_head? he)) ?_ ?_ (fun x hx => ?_) rfl
  · simp
  · simp [Env.alloc]
  · refine (SameOrGone.refl k x).of_env ?_
    simp [hx]

theorem bears_call {c : Call} (h : SlotInv k) (hs : afterEnvInit.next c k = some k') :
    Bears c.creates k k' ∧ SlotInv k' := by
  cases c with
  | create image priority =>
    simp only [afterEnvInit, Call.next] at hs
    split at hs
    case h_1 e k₁ hx =>
      obtain rfl := Option.some.inj hs
      obtain ⟨he, pgdir, asid, id, hid, hsame⟩ := wp_run_ok (envCreate_spec k image priority) hx
      have hbears := envCreate_bears h image priority
      exact ⟨(wp_run_ok hbears hx :), h.taken he hid hsame.envs hsame.cur hsame.free⟩
    case h_2 => cases hs
  | step op => exact ⟨bears_next h hs, slot_next h hs⟩

/-! ## The invariant -/

/-- The history agrees with the slots, and the `n`th identifier is made of the number `n + 1`. -/
structure BirthInv (k : Kernel) (h : Births) : Prop where
  slots : SlotInv k
  count : k.mkenvidCount = BitVec.ofNat 32 h.born.length
  ids : ∀ n e id, h.born[n]? = some (e, id) → id = envidOf (BitVec.ofNat 32 (n + 1)) e
  lives : ∀ e, (k.envs e).envStatus ≠ .free →
    ∃ n, h.lives e = some n ∧ h.born[n]? = some (e, (k.envs e).envId)
  gone : ∀ e, (k.envs e).envStatus = .free → h.lives e = none

theorem BirthInv.born_of_lives {h : Births} (hi : BirthInv k h) {n : Nat} (hn : h.lives e = some n) :
    (k.envs e).envStatus ≠ .free ∧ h.born[n]? = some (e, (k.envs e).envId) := by
  have hlive : (k.envs e).envStatus ≠ .free := fun hfree => by simp [hi.gone e hfree] at hn
  obtain ⟨m, hm, hborn⟩ := hi.lives e hlive
  obtain rfl := Option.some.inj (hm.symm.trans hn)
  exact ⟨hlive, hborn⟩

theorem newborn_iff : newborn k k' e = true ↔
    (k.envs e).envStatus = .free ∧ (k'.envs e).envStatus ≠ .free := by
  simp [newborn]

theorem birth_init {mc : Machine} (hx : envInit mc mc.initial = .ok () k) :
    BirthInv k ⟨[], fun _ => none⟩ := by
  have hinit := sameEnvs_envInit mc mc.initial
  have hids := records_envInit mc mc.initial
  have hsame : SameEnvs mc.initial k := (wp_run_ok hinit hx :)
  have hfree : ∀ e, (k.envs e).envStatus = .free := fun e => by
    rw [hsame.envs]
    rfl
  refine ⟨slot_initial.congr (.of_same hsame), ?_, fun n e id hn => by simp at hn, fun e he => ?_,
    fun _ _ => rfl⟩
  · exact (wp_run_ok hids hx :).ids
  · exact absurd (hfree e) he

/-- The history of a step that bears an environment. -/
theorem follow_newborn {b : Bool} {c : Call} (h : Births) (hb : Bears b k k')
    (hnew : newborn k k' e = true) : h.follow c k k' =
      { born := h.born ++ [(e, (k'.envs e).envId)]
        lives := Function.update (h.survive k') e (some h.born.length) } := by
  have hone : ∀ x, newborn k k' x = true → x = e := by
    intro x hx
    have old : ∀ y, newborn k k' y = true → ¬ SameOrGone k k' y := by
      intro y hy hsame
      obtain ⟨hfree, hlive⟩ := newborn_iff.mp hy
      rcases hsame with hgone | ⟨hbefore, -⟩
      · exact hlive hgone
      · exact hbefore hfree
    cases hb with
    | nobody same ids => exact absurd (same e) (old e hnew)
    | one _ y free live id others ids =>
      have hxy : x = y := by_contra fun hne => old x hx (others x hne)
      have hey : e = y := by_contra fun hne => old e hnew (others e hne)
      exact hxy.trans hey.symm
  have hsome : (List.finRange 1024).find? (newborn k k') = some e := by
    cases hf : (List.finRange 1024).find? (newborn k k') with
    | none => exact absurd hnew (List.find?_eq_none.mp hf e (List.mem_finRange e))
    | some x => exact congrArg some (hone x (List.find?_some hf))
  unfold Births.follow
  rw [hsome]

theorem follow_nobody {c : Call} (h : Births) (same : ∀ x, SameOrGone k k' x) :
    h.follow c k k' = { h with lives := h.survive k' } := by
  have hnone : (List.finRange 1024).find? (newborn k k') = none := by
    refine List.find?_eq_none.mpr fun x _ hx => ?_
    obtain ⟨hfree, hlive⟩ := newborn_iff.mp hx
    rcases same x with hgone | ⟨hbefore, -⟩
    · exact hlive hgone
    · exact hbefore hfree
  unfold Births.follow
  rw [hnone]

theorem birth_call {c : Call} {h : Births} (hi : BirthInv k h)
    (hs : afterEnvInit.next c k = some k') : BirthInv k' (h.follow c k k') := by
  obtain ⟨hbears, hslots⟩ := bears_call hi.slots hs
  have survive : ∀ x, SameOrGone k k' x → (k'.envs x).envStatus ≠ .free →
      ∃ n, h.survive k' x = some n ∧ h.born[n]? = some (x, (k'.envs x).envId) := by
    intro x hsame hx
    rcases hsame with hgone | ⟨hlive, hid, -⟩
    · exact absurd hgone hx
    · obtain ⟨n, hn, hborn⟩ := hi.lives x hlive
      exact ⟨n, by simp [Births.survive, hx, hn], by rw [hborn, hid]⟩
  cases hbears with
  | nobody same ids =>
    rw [follow_nobody h same]
    refine ⟨hslots, ids.trans hi.count, hi.ids, fun x hx => survive x (same x) hx, fun x hx => ?_⟩
    simp [Births.survive, hx]
  | one made e free live id others ids =>
    rw [follow_newborn h (.one made e free live id others ids) (newborn_iff.mpr ⟨free, live⟩)]
    refine ⟨hslots, ?_, fun n x id' hn => ?_, fun x hx => ?_, fun x hx => ?_⟩
    · rw [ids, hi.count, List.length_append, List.length_singleton, BitVec.ofNat_add]
      rfl
    · rcases Nat.lt_or_ge n h.born.length with hlt | hge
      · rw [List.getElem?_append_left hlt] at hn
        exact hi.ids n x id' hn
      · rw [List.getElem?_append_right hge] at hn
        obtain ⟨hzero, hpair⟩ := List.getElem?_eq_some_iff.mp hn
        have hlast : n = h.born.length := by
          simp only [List.length_singleton] at hzero
          omega
        subst hlast
        simp only [Nat.sub_self, List.getElem_cons_zero, Prod.mk.injEq] at hpair
        rw [← hpair.1, ← hpair.2, id, hi.count, BitVec.ofNat_add]
        rfl
    · rcases eq_or_ne x e with rfl | hxe
      · exact ⟨h.born.length, by simp, by simp⟩
      · obtain ⟨n, hn, hborn⟩ := survive x (others x hxe) hx
        refine ⟨n, by simp [hxe, hn], ?_⟩
        have hlt : n < h.born.length := (List.getElem?_eq_some_iff.mp hborn).1
        rw [List.getElem?_append_left hlt]
        exact hborn
    · have hxe : x ≠ e := by
        rintro rfl
        exact live hx
      simp [Births.survive, hxe, hx]

theorem lineage_call {C : Kernel × Births → Call → Prop} {p : Kernel × Births} {c : Call}
    (h : lineage.Run C p) (hc : C p c) (hs : afterEnvInit.next c p.1 = some k') :
    lineage.Run C (k', p.2.follow c p.1 k') := by
  refine .step h hc ?_
  show (afterEnvInit.next c p.1).map _ = _
  rw [hs]
  rfl

theorem birth_inv {C : Kernel × Births → Call → Prop} {p : Kernel × Births} (h : lineage.Run C p) :
    BirthInv p.1 p.2 := by
  refine h.invariant (I := fun p => BirthInv p.1 p.2) ?_ ?_
  · rintro ⟨k, g⟩ ⟨⟨mc, hx⟩, rfl⟩
    exact birth_init hx
  · rintro ⟨k, g⟩ c ⟨k', g'⟩ hi _ hs
    obtain ⟨hnext, hg⟩ := System.watch_next hs
    exact hg ▸ birth_call hi hnext

/-! ## Fewer than `2 ^ 21` environments -/

/-- The shift in `mkenvid` loses no bit of the counter. -/
def CountFits (p : Kernel × Births) (c : Call) : Prop :=
  c.creates = true → p.1.mkenvidCount.toNat + 1 < 2 ^ 21

theorem follow_length {c : Call} {h : Births} (hb : Bears c.creates k k') :
    (h.follow c k k').born.length = h.born.length ∨
      (c.creates = true ∧ (h.follow c k k').born.length = h.born.length + 1) := by
  unfold Births.follow
  cases hf : (List.finRange 1024).find? (newborn k k') with
  | none => exact Or.inl rfl
  | some x =>
    obtain ⟨hfree, hlive⟩ := newborn_iff.mp (List.find?_some hf)
    refine Or.inr ⟨?_, by simp⟩
    cases hb with
    | nobody same ids =>
      rcases same x with hgone | ⟨hbefore, -⟩
      · exact absurd hgone hlive
      · exact absurd hfree hbefore
    | one made => exact made

theorem few_inv {p : Kernel × Births} (h : lineage.Run CountFits p) :
    BirthInv p.1 p.2 ∧ p.2.born.length < 2 ^ 21 := by
  refine h.invariant (I := fun p => BirthInv p.1 p.2 ∧ p.2.born.length < 2 ^ 21) ?_ ?_
  · rintro ⟨k, g⟩ ⟨⟨mc, hx⟩, rfl⟩
    exact ⟨birth_init hx, by simp⟩
  · rintro ⟨k, g⟩ c ⟨k', g'⟩ ⟨hi, hfew⟩ hfits hs
    obtain ⟨hnext, hg⟩ := System.watch_next hs
    simp only at hg hnext hi hfew ⊢
    refine ⟨hg ▸ birth_call hi hnext, ?_⟩
    have hcount : k.mkenvidCount.toNat = g.born.length := by
      rw [hi.count, BitVec.toNat_ofNat, Nat.mod_eq_of_lt (by omega)]
    rw [hg]
    rcases follow_length (h := g) (bears_call hi.slots hnext).1 with hsame | ⟨hmade, hmore⟩
    · rw [hsame]
      exact hfew
    · have := hfits hmade
      simp only at this
      omega

theorem envidOf_inj {m n : Nat} (hm : m < 2 ^ 21) (hn : n < 2 ^ 21) {x y : EnvIx}
    (h : envidOf (BitVec.ofNat 32 m) x = envidOf (BitVec.ofNat 32 n) y) : m = n := by
  have hnat : ∀ {l : Nat}, l < 2 ^ 21 → (BitVec.ofNat 32 l).toNat = l := fun hl => by
    rw [BitVec.toNat_ofNat, Nat.mod_eq_of_lt (by omega)]
  have heq := congrArg BitVec.toNat h
  rw [envidOf_toNat (by rw [hnat hm]; exact hm), envidOf_toNat (by rw [hnat hn]; exact hn),
    hnat hm, hnat hn] at heq
  have hx := x.isLt
  have hy := y.isLt
  omega

theorem NeverReused.of_birth {h : Births} (hi : BirthInv k h) (hfew : h.born.length < 2 ^ 21) :
    NeverReused k h := by
  have hid : ∀ b ∈ h.born, ∃ n, n < h.born.length ∧ b.2 = envidOf (BitVec.ofNat 32 (n + 1)) b.1 := by
    intro b hb
    obtain ⟨n, hn, hget⟩ := List.getElem_of_mem hb
    exact ⟨n, hn, hi.ids n b.1 b.2 (List.getElem?_eq_some_iff.mpr ⟨hn, hget⟩)⟩
  refine ⟨fun b hb hzero => ?_, fun b hb => ?_, ?_, fun id e hne henv => ?_⟩
  · obtain ⟨n, hn, hb2⟩ := hid b hb
    have hnat := envidOf_toNat (c := BitVec.ofNat 32 (n + 1)) (e := b.1)
    rw [BitVec.toNat_ofNat, Nat.mod_eq_of_lt (by omega)] at hnat
    have := hnat (by omega)
    rw [← hb2, hzero, show BitVec.toNat (0 : Word) = 0 from rfl] at this
    omega
  · obtain ⟨n, -, hb2⟩ := hid b hb
    rw [hb2]
    exact envx_envidOf _ _
  · rw [List.nodup_iff_getElem?_ne_getElem?]
    intro i j hij hj heq
    rw [List.length_map] at hj
    have hget : ∀ {n : Nat} (hn : n < h.born.length), (h.born.map Prod.snd)[n]? =
        some (envidOf (BitVec.ofNat 32 (n + 1)) (h.born[n]).1) := by
      intro n hn
      rw [List.getElem?_map, List.getElem?_eq_getElem hn, Option.map_some]
      exact congrArg some (hi.ids n _ _ (List.getElem?_eq_getElem hn))
    rw [hget (by omega), hget hj] at heq
    have := envidOf_inj (by omega) (by omega) (Option.some.inj heq)
    omega
  · have hspec := envid2env_spec k id false
    obtain ⟨-, htarget⟩ := wp_run_ok hspec henv
    rcases target_cases htarget with ⟨hzero, _⟩ | ⟨_, _, hlive, hid, _⟩
    · exact absurd hzero hne
    · exact hid ▸ hi.lives e hlive

/-- In every run that creates fewer than `2 ^ 21` environments no identifier is used again. -/
theorem never_reused {p : Kernel × Births} (h : lineage.Run CountFits p) : NeverReused p.1 p.2 := by
  obtain ⟨hi, hfew⟩ := few_inv h
  exact .of_birth hi hfew

/-- The state after `env_init` on the small machine. -/
def smallInit : Option Kernel :=
  match envInit smallMachine smallMachine.initial with
  | .ok _ k => some k
  | .error _ _ => none

theorem smallInit_init (h : smallInit = some k) : afterEnvInit.init k := by
  unfold smallInit at h
  split at h
  · rename_i hx
    exact ⟨_, hx.trans (congrArg _ (Option.some.inj h))⟩
  · cases h

instance (p : Kernel × Births) (c : Call) : Decidable (CountFits p c) :=
  inferInstanceAs (Decidable (c.creates = true → p.1.mkenvidCount.toNat + 1 < 2 ^ 21))

/-- A child comes and goes, and another one takes its slot. -/
def slotReused : List Call :=
  [.create bareLoop 1, .step .start, .step (callOp 9 0 0 0), .step (callOp 10 4097 1 0),
    .step (callOp 4 4097 0 0), .step (callOp 9 0 0 0)]

theorem never_reused_slot : ∃ p, lineage.Run CountFits p ∧
    p.2.born = [(0, 2048), (1, 4097), (1, 6145)] ∧ NeverReused p.1 p.2 := by
  have hcheck : (smallInit.any fun k =>
      (lineage.execMeeting CountFits slotReused (k, ⟨[], fun _ => none⟩)).any fun p =>
        p.2.born == [(0, 2048), (1, 4097), (1, 6145)]) = true := by
    decide +kernel
  obtain ⟨k, hk, hrun⟩ := (Option.any_eq_true _ _).mp hcheck
  obtain ⟨p, hp, hborn⟩ := (Option.any_eq_true _ _).mp hrun
  have hr : lineage.Run CountFits p := Lib.System.Run.execMeeting (.init ⟨smallInit_init hk, rfl⟩) hp
  exact ⟨p, hr, eq_of_beq hborn, never_reused hr⟩

end Mos
