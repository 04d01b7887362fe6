import Mos.Fork.Handler
import Mos.Mem.Tlb

/-!
# The permissions of copy-on-write pages

The permission word goes through the masks of `duppage` and `cow_entry` and then through
`page_insert`. A page can be forked many times before somebody writes to it.
-/

namespace Mos

open Lib (wp wp_mono wp_run_ok wp_trivial)

variable {pool : Finset Nat} {base : Nat} {k k' k₂ k₃ : Kernel} {c e x : EnvIx} {p : Nat} {op : Op}
  {addr envid vpn w w' perm tf : Word} {content : Trapframe}

/-! ## What is documented -/

/-- The permission bits that both entries have after `duppage`. -/
def documentedFlags (w : Word) : Word :=
  if IsPrivate w then pteFlags w &&& ~~~pteD ||| pteCow else pteFlags w

/-- The entry maps the frame of `w` with these bits. -/
def HasFlags (k : Kernel) (x : EnvIx) (addr w flags : Word) : Prop :=
  ∃ w', k.mapping x addr = some w' ∧ ppn w' = ppn w ∧ pteFlags w' = flags

/-- `duppage` of an entry `w` has left what is documented. -/
def Documented (c e : EnvIx) (addr w : Word) (k' : Kernel) : Prop :=
  HasFlags k' c addr w (documentedFlags w) ∧ HasFlags k' e addr w (documentedFlags w)

/-- The bits that every entry of `page_insert` has. -/
def insertedFlags : Word := pteCCacheable ||| pteV

/-- The masks of `duppage` lose no bit. -/
def KeepsFlags (w : Word) : Prop :=
  (IsPrivate w → pteFlags w &&& ~~~pteCow = pteD ||| insertedFlags) ∧
    (¬ IsPrivate w → pteFlags w &&& insertedFlags = insertedFlags)

instance (w : Word) : Decidable (KeepsFlags w) := inferInstanceAs (Decidable ((_ → _) ∧ (_ → _)))

/-! ## Flags -/

theorem flags_lt (w : Word) : (pteFlags w).toNat < 4096 := by
  rw [pteFlags, BitVec.toNat_and]
  exact Nat.lt_of_le_of_lt Nat.and_le_right (by decide)

theorem flags_all {P : Word → Prop} (h : ∀ a < 64, ∀ b < 64, P (BitVec.ofNat 32 (64 * a + b))) (w : Word) :
    P (pteFlags w) := by
  have hlt := flags_lt w
  have := h ((pteFlags w).toNat / 64) (by omega) ((pteFlags w).toNat % 64) (by omega)
  rwa [Nat.div_add_mod, BitVec.ofNat_toNat, BitVec.setWidth_eq] at this

theorem flags_low (hp : perm.toNat < 4096) : pteFlags perm = perm := by
  apply BitVec.eq_of_toNat_eq
  rw [pteFlags, BitVec.toNat_and]
  change perm.toNat &&& (2 ^ 12 - 1) = _
  rw [Nat.and_two_pow_sub_one_eq_mod]
  omega

theorem flags_flags (w : Word) : pteFlags (pteFlags w) = pteFlags w := flags_low (flags_lt w)

theorem flags_pteWord (p : Nat) (hp : perm.toNat < 4096) :
    pteFlags (pteWord p perm) = perm ||| insertedFlags := by
  have hpa : page2pa p &&& 0xFFF = 0 := page2pa_low (by decide)
  have hperm : perm &&& 0xFFF = perm := flags_low hp
  have hflags : insertedFlags &&& 0xFFF = insertedFlags := by decide
  rw [pteWord, BitVec.or_assoc, pteFlags, BitVec.and_or_distrib_right, BitVec.and_or_distrib_right, hpa,
    hperm]
  change 0 ||| perm ||| (insertedFlags &&& 0xFFF) = _
  rw [hflags]
  simp

theorem ppn_kept (hp : perm.toNat < 4096) : ppn (pteWord (ppn w) perm) = ppn w :=
  ppn_pteWord_low (ppn_lt w) hp

theorem sentPerm_lt (w : Word) : (sentPerm w).toNat < 4096 := by
  unfold sentPerm
  split
  · decide
  · exact flags_lt w

theorem isPrivate_flags (w : Word) : IsPrivate (pteFlags w) ↔ IsPrivate w := by
  unfold IsPrivate
  rw [flags_and (by decide), flags_and (by decide)]

theorem isPrivate_inserted (w : Word) : IsPrivate (w ||| insertedFlags) ↔ IsPrivate w := by
  have hD : insertedFlags &&& pteD = 0 := by decide
  have hL : insertedFlags &&& pteLibrary = 0 := by decide
  unfold IsPrivate
  rw [BitVec.and_or_distrib_right, BitVec.and_or_distrib_right, hD, hL]
  simp

theorem documented_flags_iff (hv : pteValid w = true) :
    (sentPerm w ||| insertedFlags = documentedFlags w) ↔ KeepsFlags w := by
  have hall := flags_all (P := fun f => pteValid f = true →
    ((sentPerm f ||| insertedFlags = documentedFlags f) ↔ KeepsFlags f)) (by decide +kernel) w
  have hvalid : pteValid (pteFlags w) = true := by
    unfold pteValid at hv ⊢
    rwa [flags_and (by decide)]
  unfold sentPerm documentedFlags KeepsFlags at *
  simp only [isPrivate_flags, flags_flags] at hall
  exact hall hvalid

/-! ## One fork -/

theorem mapping_valid (h : k.mapping x addr = some w) : pteValid w = true :=
  (Option.filter_eq_some_iff.mp h).2

theorem Duplicated.documented_iff (h : Duplicated k c e addr w k') (hv : pteValid w = true) :
    Documented c e addr w k' ↔ HasRoom k e addr ∧ KeepsFlags w := by
  have hsent := flags_pteWord (ppn w) (sentPerm_lt w)
  have hppn := ppn_kept (w := w) (sentPerm_lt w)
  constructor
  · rintro ⟨-, w', hw', -, hflags⟩
    rw [h.child] at hw'
    split at hw'
    case isTrue hroom =>
      rw [← Option.some.inj hw', hsent] at hflags
      exact ⟨hroom, (documented_flags_iff hv).mp hflags⟩
    case isFalse => exact nomatch hw'
  · rintro ⟨hroom, hkeeps⟩
    have hflags := (documented_flags_iff hv).mpr hkeeps
    refine ⟨?_, _, h.child.trans (if_pos hroom), hppn, hsent.trans hflags⟩
    by_cases hpriv : IsPrivate w
    · rw [sentPerm, if_pos hpriv] at hsent hppn hflags
      exact ⟨_, h.parent.trans (congrArg some (if_pos ⟨hpriv, hroom.1⟩)), hppn, hsent.trans hflags⟩
    · refine ⟨_, h.parent.trans (congrArg some (if_neg fun h => hpriv h.1)), rfl, ?_⟩
      rw [documentedFlags, if_neg hpriv]

/-! ## Forks one after another -/

/-- The address spaces of the kernel are in order. -/
def WellFormed (k : Kernel) : Prop := ∃ pool base, Sound pool base k

/-- The child has nothing at the page that `curenv` gives it. -/
structure Forks (k : Kernel) (c e : EnvIx) (envid vpn : Word) (k' : Kernel) : Prop where
  wellFormed : WellFormed k
  cur : k.curenv = some c
  child : target k envid true = some e
  other : e ≠ c
  page : k.mapping c (vpn * pageSize) ≠ none
  empty : k.mapping e (vpn * pageSize) = none
  run : duppage envid vpn k = .ok () k'

/-- What was the entry of one environment is the entry of another one or of the same later on. -/
inductive Inherits (vpn : Word) : Kernel × EnvIx → Kernel × EnvIx → Prop
  | stays {k k' : Kernel} {x : EnvIx} (h : k'.mapping x (vpn * pageSize) = k.mapping x (vpn * pageSize)) :
      Inherits vpn (k, x) (k', x)
  | forks {k k' : Kernel} {c e x : EnvIx} {envid : Word} (h : Forks k c e envid vpn k') (hx : x = c ∨ x = e) :
      Inherits vpn (k, c) (k', x)

/-- The entry has been copied as it was, or it has been made copy-on-write. -/
def Descends (w addr : Word) (w' : Word) : Prop :=
  w' &&& pteCow = 0 ∧ (IsPrivate w' ↔ IsPrivate w) ∨
    IsPrivate w ∧ utemp ≤ addr ∧ pteFlags w' = pteCow ||| insertedFlags

theorem flag_eq {mask : Word} (hmask : 0xFFF &&& mask = mask) (h : pteFlags w' = perm) :
    w' &&& mask = perm &&& mask := by
  rw [← flags_and hmask, h]

theorem Forks.duplicated (h : Forks k c e envid vpn k') (hva : vpn * pageSize < utop)
    (hw : k.mapping c (vpn * pageSize) = some w) : Duplicated k c e (vpn * pageSize) w k' := by
  obtain ⟨pool, base, hs⟩ := h.wellFormed
  exact (wp_run_ok (duppage_spec hs h.cur h.child h.other hva hw h.empty) h.run :)

/-- Both entries after a fork descend from what the entry before it does. -/
theorem Descends.fork {w₁ : Word} (hd : Descends w addr w₁) (h : Duplicated k c e addr w₁ k')
    (hx : x = c ∨ x = e) (hw' : k'.mapping x addr = some w') : Descends w addr w' := by
  have hcow := flags_pteWord (ppn w₁) (show pteCow.toNat < 4096 by decide)
  rcases hx with rfl | rfl
  · rw [h.parent] at hw'
    rw [← Option.some.inj hw']
    split
    case isTrue hpriv =>
      rcases hd with ⟨-, hsame⟩ | ⟨hw, hlow, -⟩
      · exact Or.inr ⟨hsame.mp hpriv.1, hpriv.2, hcow⟩
      · exact Or.inr ⟨hw, hlow, hcow⟩
    case isFalse => exact hd
  · rw [h.child] at hw'
    split at hw'
    case isFalse => exact nomatch hw'
    case isTrue hroom =>
      rw [← Option.some.inj hw']
      have hsent := flags_pteWord (ppn w₁) (sentPerm_lt w₁)
      by_cases hpriv : IsPrivate w₁
      · rw [sentPerm, if_pos hpriv]
        rcases hd with ⟨-, hsame⟩ | ⟨hw, hlow, -⟩
        · exact Or.inr ⟨hsame.mp hpriv, hroom.1, hcow⟩
        · exact Or.inr ⟨hw, hlow, hcow⟩
      · rw [sentPerm, if_neg hpriv] at hsent ⊢
        rcases hd with ⟨hno, hsame⟩ | ⟨hw, hlow, hflags⟩
        · refine Or.inl ⟨?_, ?_⟩
          · rw [flag_eq (by decide) hsent, BitVec.and_or_distrib_right, flags_and (by decide), hno]
            decide
          · rw [← hsame, ← isPrivate_flags, hsent, isPrivate_inserted, isPrivate_flags]
        · refine Or.inr ⟨hw, hlow, ?_⟩
          rw [hsent, hflags]
          decide

theorem Inherits.descends {s s' : Kernel × EnvIx} (hva : vpn * pageSize < utop) (h : Inherits vpn s s')
    (hd : ∀ w', s.1.mapping s.2 (vpn * pageSize) = some w' → Descends w (vpn * pageSize) w') :
    ∀ w', s'.1.mapping s'.2 (vpn * pageSize) = some w' → Descends w (vpn * pageSize) w' := by
  cases h with
  | stays h =>
    intro w' hw'
    exact hd w' (h.symm.trans hw')
  | forks h hx =>
    intro w' hw'
    obtain ⟨w₁, hw₁⟩ := Option.ne_none_iff_exists'.mp h.page
    exact (hd w₁ hw₁).fork (h.duplicated hva hw₁) hx hw'

theorem descends_of_run {s s' : Kernel × EnvIx} (hva : vpn * pageSize < utop)
    (h : Relation.ReflTransGen (Inherits vpn) s s')
    (hd : ∀ w', s.1.mapping s.2 (vpn * pageSize) = some w' → Descends w (vpn * pageSize) w') :
    ∀ w', s'.1.mapping s'.2 (vpn * pageSize) = some w' → Descends w (vpn * pageSize) w' := by
  induction h with
  | refl => exact hd
  | tail _ hs ih => exact hs.descends hva ih

/-! ## The first write -/

/-- `cow_entry` has handled a write of `x` to the page `addr`. -/
structure Handles (k : Kernel) (x : EnvIx) (addr : Word) (k' : Kernel) : Prop where
  wellFormed : WellFormed k
  cur : k.curenv = some x
  page : k.mapping x addr ≠ none
  run : ∃ tf content, pteAddr content.cp0Badvaddr = addr ∧ cowEntry tf content k = .ok true k'

theorem handles_flags (hva : addr < utop) (hlow : utemp ≤ addr) (h : Handles k x addr k') :
    if addr = ucow then k'.mapping x addr = none
    else ∃ w', k'.mapping x addr = some w' ∧ pteFlags w' = pteD ||| insertedFlags := by
  obtain ⟨pool, base, hs⟩ := h.wellFormed
  obtain ⟨w, hw⟩ := Option.ne_none_iff_exists'.mp h.page
  obtain ⟨tf, content, rfl, hrun⟩ := h.run
  obtain ⟨p, hp⟩ := (wp_run_ok (cowEntry_spec hs h.cur tf content hva hlow hw) hrun :) rfl
  split
  case isTrue hat => rw [hp, if_pos hat]
  case isFalse hat =>
    rw [hp, if_neg hat]
    exact ⟨_, rfl, flags_pteWord p (by decide)⟩

theorem handles_cow (hva : addr < utop) (h : Handles k x addr k') (hw : k.mapping x addr = some w) :
    w &&& pteCow ≠ 0 := by
  obtain ⟨pool, base, hs⟩ := h.wellFormed
  obtain ⟨tf, content, rfl, hrun⟩ := h.run
  exact (wp_run_ok (cowEntry_cow hs h.cur tf content hva hw) hrun :) rfl

/-- The bits of an entry `w` that `curenv` has at a page below `USTACKTOP` are those that are
documented after each fork just if the child has room for the entry and the masks lose none of
them. They come back with the first write, after however many forks, just if they are those of a
plain writable page and the page is not the one that the handler uses itself. -/
theorem cow_permissions_iff (hva : vpn * pageSize < ustacktop)
    (hw : k.mapping c (vpn * pageSize) = some w) :
    (∀ e envid k', Forks k c e envid vpn k' →
      (Documented c e (vpn * pageSize) w k' ↔ HasRoom k e (vpn * pageSize) ∧ KeepsFlags w)) ∧
    (w &&& pteCow = 0 → ∀ k₂ x k₃, Relation.ReflTransGen (Inherits vpn) (k, c) (k₂, x) →
      Handles k₂ x (vpn * pageSize) k₃ →
      ((∃ w', k₃.mapping x (vpn * pageSize) = some w' ∧ pteFlags w' = pteFlags w) ↔
        vpn * pageSize ≠ ucow ∧ pteFlags w = pteD ||| insertedFlags)) := by
  have hva : vpn * pageSize < utop := by
    rw [BitVec.lt_def] at hva ⊢
    exact hva.trans (by decide)
  refine ⟨fun e envid k' h => ?_, fun hno k₂ x k₃ hrun h => ?_⟩
  · exact (h.duplicated hva hw).documented_iff (mapping_valid hw)
  · obtain ⟨w₂, hw₂⟩ := Option.ne_none_iff_exists'.mp h.page
    have hd := descends_of_run (w := w) hva hrun (fun w' hw' => ?_) w₂ hw₂
    · have hcow := handles_cow hva h hw₂
      obtain ⟨-, hlow, -⟩ := hd.resolve_left fun h => hcow h.1
      have hflags := handles_flags hva hlow h
      split at hflags
      case isTrue hat =>
        refine iff_of_false ?_ fun h => h.1 hat
        rintro ⟨w', hw', -⟩
        exact nomatch hflags.symm.trans hw'
      case isFalse hat =>
        obtain ⟨w', hw', hbits⟩ := hflags
        constructor
        · rintro ⟨w'', hw'', hsame⟩
          rw [← Option.some.inj (hw'.symm.trans hw''), hbits] at hsame
          exact ⟨hat, hsame.symm⟩
        · exact fun h => ⟨w', hw', hbits.trans h.2.symm⟩
    · rw [← Option.some.inj (hw.symm.trans hw')]
      exact Or.inl ⟨hno, Iff.rfl⟩

/-! ## Runs of the small machine -/

/-- Address spaces are in order in a run in which no permission reaches into the frame number and no
counter of a page is used up. -/
theorem wellFormed_run (h : mos.Run (StepOk fun _ _ _ _ => True) k) : WellFormed k := by
  have hrule := memory_rule (W := fun _ _ _ _ => True) (C := StepOk fun _ _ _ _ => True)
    (J := fun _ => True) ?_ ?_ ?_ ?_ ?_ (run_mosWith h)
  · obtain ⟨pool, base, hs, -⟩ := hrule
    exact ⟨pool, base, hs⟩
  · exact fun _ _ _ _ _ _ _ _ => trivial
  · exact fun _ _ _ _ _ _ => trivial
  · exact fun _ h => h
  · exact fun _ => trivial
  · exact fun _ _ _ => trivial

/-- `curenv` is the first environment, and the second one is its child. -/
def forksSmall (k : Kernel) : Bool :=
  k.curenv == some 0 && target k 4097 true == some 1 && (k.mapping 0 (0x800 * pageSize)).isSome &&
    (k.mapping 1 (0x800 * pageSize)).isNone &&
    match duppage 4097 0x800 k with
    | .ok _ _ => true
    | .error _ _ => false

theorem forks_small (hk : WellFormed k) (h : forksSmall k = true) :
    ∃ w k', k.mapping 0 (0x800 * pageSize) = some w ∧ Forks k 0 1 4097 0x800 k' := by
  simp only [forksSmall, Bool.and_eq_true, beq_iff_eq, Option.isNone_iff_eq_none] at h
  obtain ⟨⟨⟨⟨hcur, hchild⟩, hpage⟩, hnone⟩, hrun⟩ := h
  obtain ⟨w, hw⟩ := Option.isSome_iff_exists.mp hpage
  cases hx : duppage 4097 0x800 k with
  | ok r k' =>
    have hpage : k.mapping 0 (0x800 * pageSize) ≠ none := by
      rw [hw]
      exact Option.some_ne_none w
    exact ⟨w, k', hw, hk, hcur, hchild, by decide, hpage, hnone, hx⟩
  | error err k' =>
    rw [hx] at hrun
    exact nomatch hrun

theorem stepOk_none (h : ∀ e p va perm, ¬ StepMaps k op e p va perm) :
    StepOk (fun _ _ _ _ => True) k op := fun e p va perm hm => absurd hm (h e p va perm)

theorem exofork_maps (k : Kernel) (e : EnvIx) (p : Nat) (va perm : Word) :
    ¬ StepMaps k (callOp 9 0 0 0) e p va perm := by
  rintro ⟨f, inp, s, ⟨⟩, hs, hmaps⟩
  obtain rfl := Option.some.inj hs
  cases hmaps

/-- A page that the kernel gives at the first access is forked. -/
theorem cow_permissions_iff_small : ∃ k w e envid k', Forks k 0 e envid 0x800 k' ∧
    ((∀ e envid k', Forks k 0 e envid 0x800 k' →
      (Documented 0 e (0x800 * pageSize) w k' ↔ HasRoom k e (0x800 * pageSize) ∧ KeepsFlags w)) ∧
    (w &&& pteCow = 0 → ∀ k₂ x k₃, Relation.ReflTransGen (Inherits 0x800) (k, 0) (k₂, x) →
      Handles k₂ x (0x800 * pageSize) k₃ →
      ((∃ w', k₃.mapping x (0x800 * pageSize) = some w' ∧ pteFlags w' = pteFlags w) ↔
        (0x800 : Word) * pageSize ≠ ucow ∧ pteFlags w = pteD ||| insertedFlags))) := by
  have hcheck : ((boot smallMachine [(bareLoop, 1)]).any fun k =>
      (next .start k).any fun k₁ => (next (.tlbRefill .zero 0x800000) k₁).any fun k₂ =>
        (next (callOp 9 0 0 0) k₂).any forksSmall) = true := by decide +kernel
  simp only [Option.any_eq_true] at hcheck
  obtain ⟨k, hb, k₁, h₁, k₂, h₂, k₃, h₃, hforks⟩ := hcheck
  have hrun : mos.Run (StepOk fun _ _ _ _ => True) k₃ :=
    .step (.step (.step (.init ⟨_, _, hb⟩) (stepOk_none fun _ _ _ _ => no_maps (by simp)) h₁)
      (stepOk_none fun _ _ _ _ => no_maps (by simp)) h₂) (stepOk_none (exofork_maps k₂)) h₃
  obtain ⟨w, k', hw, hf⟩ := forks_small (wellFormed_run hrun) hforks
  exact ⟨k₃, w, 1, 4097, k', hf, cow_permissions_iff (by decide) hw⟩

/-- A writable page with the global bit loses that bit. -/
theorem not_cow_permissions : ¬ ∀ k c e envid vpn w k', k.mapping c (vpn * pageSize) = some w →
    vpn * pageSize < ustacktop → Forks k c e envid vpn k' → HasRoom k e (vpn * pageSize) →
    Documented c e (vpn * pageSize) w k' := by
  have hcheck : ((boot smallMachine [(bareLoop, 1)]).any fun k =>
      (next .start k).any fun k₁ => target k₁ 0 true == some 0 &&
        k₁.mem.pageFreeList.head? == some 133 && k₁.mem.ppRef 133 == 0 &&
        (next (callOp 6 0 0x800000 (pteD ||| pteG)) k₁).any fun k₂ => (next (callOp 9 0 0 0) k₂).any fun k₃ =>
          forksSmall k₃ && decide (HasRoom k₃ 1 (0x800 * pageSize)) &&
            (k₃.mapping 0 (0x800 * pageSize)).any fun w => decide (¬ KeepsFlags w)) = true := by
    decide +kernel
  simp only [Option.any_eq_true, Bool.and_eq_true, beq_iff_eq, decide_eq_true_eq] at hcheck
  obtain ⟨k, hb, k₁, h₁, ⟨⟨htarget, hhead⟩, href⟩, k₂, h₂, k₃, h₃, ⟨hforks, hroom⟩, w, hw, hbad⟩ := hcheck
  have hrun : mos.Run (StepOk fun _ _ _ _ => True) k₃ := by
    refine .step (.step (.step (.init ⟨_, _, hb⟩) (stepOk_none fun _ _ _ _ => no_maps (by simp)) h₁) ?_ h₂)
      (stepOk_none (exofork_maps k₂)) h₃
    rintro e p va perm ⟨f, inp, s, ⟨⟩, hs, hmaps⟩
    obtain rfl := Option.some.inj hs
    cases hmaps with
    | memAlloc legal he hp =>
      obtain rfl : 133 = p := Option.some.inj (hhead.symm.trans hp)
      exact ⟨trivial, by decide, fun hmax => absurd (href ▸ hmax) (by decide)⟩
  obtain ⟨w', k', hw', hf⟩ := forks_small (wellFormed_run hrun) hforks
  obtain rfl := Option.some.inj (hw.symm.trans hw')
  intro h
  have hdocumented := h k₃ 0 1 4097 0x800 w k' hw (by decide) hf hroom
  exact hbad (((hf.duplicated (by decide) hw).documented_iff (mapping_valid hw)).mp hdocumented).2

end Mos
