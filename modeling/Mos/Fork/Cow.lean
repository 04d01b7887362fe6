import Mos.Mem.Coherence
import Mos.Mem.Entries

/-!
# Copy-on-write (`user/lib/fork.c`)

The functions run in user mode, and the kernel works for `curenv` in their system calls.
`vpt` shows the entries of `curenv`, because its directory maps itself at `UVPT`.
-/

namespace Mos

open Lib (wp wp_bind wp_get wp_modify wp_pure wp_throw wp_ite wp_mono wp_and wp_recover)

/-! ## The functions -/

/-- `!w` -/
def lnot (w : Word) : Word := if w = 0 then 1 else 0

/-- `vpt[vpn]` -/
def vpt (vpn : Word) : K Word := do
  match ← onMem (pgdirWalk (← get).curPgdir (vpn * pageSize) false) with
  | none => pure 0
  | some pte => onMem (readPte pte)

/-- `msyscall`. An error is returned as its code. -/
def msyscall (x : K Word) : K Word := Lib.recover x errnoValue

def duppage (envid vpn : Word) : K Unit := do
  let perm := (← vpt vpn) &&& 0xFFF
  let addr := vpn * pageSize
  if perm &&& pteD = 0 ∨ perm &&& pteLibrary ≠ 0 then
    let _ ← msyscall (sysMemMap 0 addr envid addr perm)
  else
    let perm := perm &&& lnot pteD ||| pteCow
    let _ ← msyscall (sysMemMap 0 addr envid addr perm)
    let _ ← msyscall (sysMemMap 0 addr 0 addr perm)

/-- `memcpy` of a page. Both pages are faulted in first, and a store to a page that may not be
written raises a TLB Mod exception. -/
def copyPage (dst src : Word) : K Unit := do
  let k ← get
  onMem (doTlbRefill k.curPgdir src k.entryHiAsid)
  onMem (doTlbRefill k.curPgdir dst k.entryHiAsid)
  match ← onMem (pageLookup k.curPgdir src), ← onMem (writable k.curPgdir dst) with
  | some (pp, _), some qq =>
    onMem (modify fun m => { m with phys := Function.update m.phys qq (m.phys pp) })
  | _, _ => throw .tlbMod

/-- The end of `cow_entry`. If the frame is taken, the process goes on at the instruction that faulted. -/
def resume (tf : Word) (content : Trapframe) : K Bool :=
  Lib.recover (do
      let _ ← sysSetTrapframe 0 tf content
      pure true)
    fun e => (errnoValue e).map fun _ => false

/-- `cow_entry` of the frame `content` at `tf`. The result is `false` where it calls `user_panic`. -/
def cowEntry (tf : Word) (content : Trapframe) : K Bool := do
  let va := content.cp0Badvaddr
  let perm := (← vpt (va >>> 12)) &&& 0xFFF
  if perm &&& pteCow = 0 then
    pure false
  else
    let perm := perm &&& lnot pteCow ||| pteD
    let _ ← msyscall (sysMemAlloc 0 ucow pteD)
    let va := pteAddr va
    copyPage ucow va
    let _ ← msyscall (sysMemMap 0 ucow 0 va perm)
    let _ ← msyscall (sysMemUnmap 0 ucow)
    resume tf content

variable {pool : Finset Nat} {base : Nat} {k k' k₁ : Kernel} {m m' : Mem} {c e src dst : EnvIx}
  {d d' p : Nat} {va addr srcid dstid srcva dstva envid vpn w perm : Word} {o : Option Word}

/-! ## Entries of environments -/

theorem mapping_eq (hva : pdx va < pdx utop) (k : Kernel) (e : EnvIx) :
    k.mapping e va = k.mem.mapped (k.envs e).envPgdir (pdx va) (ptx va) := by
  unfold Kernel.mapping Mem.walk Mem.mapped
  rw [← pde_user hva]
  cases k.mem.pde (k.envs e).envPgdir (pdx va) with
  | none => rfl
  | some t =>
    rw [Option.map_some, Option.map_some, Option.bind_some]
    unfold valid
    split
    case isTrue hv => exact Option.filter_some_pos hv
    case isFalse hv => exact Option.filter_some_neg (Bool.eq_false_iff.mpr hv)

theorem dirs_pgdir (he : k.vm.dirs e = some d) : (k.envs e).envPgdir = d := by
  unfold Vm.dirs Kernel.vm Kernel.space at he
  simp only at he
  split at he
  · exact nomatch he
  · exact Option.some.inj he

theorem Sets.mapping (h : Sets k.vm.dirs e (pdx addr) (ptx addr) o k.mem m) (he : k.vm.dirs e = some d)
    (hva : pdx va < pdx utop) {x : EnvIx} {d' : Nat} (hx : k.vm.dirs x = some d') :
    (k.setMem m).mapping x va =
      if x = e ∧ pdx va = pdx addr ∧ ptx va = ptx addr then o else k.mapping x va := by
  have hpgdir : (k.envs x).envPgdir = d' := dirs_pgdir hx
  rw [mapping_eq hva, mapping_eq hva]
  change m.mapped (k.envs x).envPgdir (pdx va) (ptx va) = _
  rw [hpgdir]
  split
  case isTrue hsame =>
    obtain ⟨rfl, hi, hj⟩ := hsame
    rw [hi, hj]
    exact h.self d' hx
  case isFalse hother => exact h.others x d' _ _ hx hother

/-! ## The system calls -/

section

variable {x : K Word} {Q : Word → Kernel → Prop} {E : Stop → Kernel → Prop}

theorem wp_msyscall (h : wp x Q (fun s k' => ∀ err, s = .errno err → Q err.code k') k) :
    wp (msyscall x) Q (fun _ _ => True) k := by
  unfold msyscall
  rw [wp_recover]
  refine wp_mono h (fun _ _ h => h) fun s k' h => ?_
  cases hs : errnoValue s with
  | none => trivial
  | some a =>
    unfold errnoValue at hs
    split at hs
    · rename_i err
      rw [← Option.some.inj hs]
      exact h err rfl
    · exact nomatch hs

theorem illegal_iff (hva : va < utop) : isIllegalVa va = true ↔ va < utemp := by
  unfold isIllegalVa
  rw [Bool.or_eq_true, decide_eq_true_iff, decide_eq_true_iff, or_iff_left (BitVec.not_le.mpr hva)]

theorem legal_of_le (hva : va < utop) (hlow : utemp ≤ va) : isIllegalVa va = false :=
  Bool.eq_false_iff.mpr fun h => absurd ((illegal_iff hva).mp h) (BitVec.not_lt.mpr hlow)

/-- `sys_mem_map` of a page that is there. -/
theorem wp_memMap {y : PtePtr} (hsrc : target k srcid true = some src)
    (hdst : target k dstid true = some dst) (hsl : isIllegalVa srcva = false)
    (hdl : isIllegalVa dstva = false)
    (hl : k.mem.lookup (k.envs src).envPgdir srcva = some (p, y))
    (hins : wp (pageInsert (k.envs dst).envPgdir (k.envs dst).envAsid p dstva perm)
      (fun _ m => Q 0 (k.setMem m)) (fun f m => E (.fault f) (k.setMem m)) k.mem)
    (hbad : ∀ f, NoErrno f → E (.fault f) k) :
    wp (sysMemMap srcid srcva dstid dstva perm) Q E k := by
  unfold sysMemMap
  refine Lib.wp_guard (fun h => absurd h (by simp [hsl, hdl])) fun _ => ?_
  rw [wp_bind]
  refine wp_envid2env_target hsrc ?_
  rw [wp_bind]
  refine wp_envid2env_target hdst ?_
  simp only [wp_bind, wp_get, wp_onMem]
  refine wp_mono (pageLookup_spec k.mem _ srcva) ?_ fun f m h => ?_
  · rintro r m ⟨rfl, rfl⟩
    rw [hl]
    simp only [wp_bind, wp_pure, wp_onMem]
    exact hins
  · rw [h.1]
    exact hbad f h.2.noErrno

end

/-- The child gets the entry if there is a page table for it or a page for one. -/
def HasRoom (k : Kernel) (e : EnvIx) (addr : Word) : Prop :=
  utemp ≤ addr ∧ Supplied k.mem (k.envs e).envPgdir addr

instance (k : Kernel) (e : EnvIx) (addr : Word) : Decidable (HasRoom k e addr) :=
  inferInstanceAs (Decidable (_ ∧ (_ ∨ _)))

/-- `addr` of `curenv` is mapped at the same address in `e`, which has nothing there. -/
theorem memMap_child (h : MemInv pool base k.vm.dirs k.mem) (hc : k.curenv = some c)
    (he : target k envid true = some e) (hdir : k.vm.dirs e = some d) (hva : addr < utop) (hw : k.mapping c addr = some w)
    (hnone : k.mapping e addr = none) :
    wp (msyscall (sysMemMap 0 addr envid addr perm))
      (fun _ k' => ∃ m, k' = k.setMem m ∧
        (HasRoom k e addr ∧ Sets k.vm.dirs e (pdx addr) (ptx addr) (some (pteWord (ppn w) perm)) k.mem m ∨
          ¬ HasRoom k e addr ∧ m.phys = k.mem.phys))
      (fun _ _ => True) k := by
  have huser := pdx_lt_utop hva
  by_cases hlow : utemp ≤ addr
  · have hlegal := legal_of_le hva hlow
    rw [mapping_eq huser] at hw hnone
    obtain ⟨t, -, -, -, -, hl⟩ := mapped_walk huser hw
    have hnone' := (lookup_mapped huser).mpr hnone
    refine wp_msyscall (wp_memMap hc he hlegal hlegal hl ?_ fun f hf err herr => ?_)
    · have hpgdir := dirs_pgdir hdir
      refine wp_mono (wp_and (wp_and (pageInsert_sets h (hpgdir ▸ hdir) huser)
        (pageInsert_errno _ _ _ _ _ _)) (pageInsert_failed _ _ _ _ _ _)) ?_ ?_
      · rintro _ m ⟨⟨hsets, hsupplied⟩, -⟩
        exact ⟨m, rfl, Or.inl ⟨⟨hlow, (not_starved_of_supplied hnone').mp hsupplied⟩, hsets⟩⟩
      · rintro f m ⟨⟨-, hstarved⟩, hfail⟩ err herr
        have hno : ¬ NoErrno f := fun hno => hno err (Stop.fault.inj herr)
        have hself : ¬ SelfTable k.mem (k.envs e).envPgdir addr (ppn w) :=
          fun hs => nomatch hnone'.symm.trans hs.lookup
        refine ⟨m, rfl, Or.inr ⟨fun hroom => ?_, ?_⟩⟩
        · exact hno (hstarved.mpr ((not_starved_of_supplied hnone').mpr hroom.2))
        · rw [(hfail hno).2 hself]
          rfl
    · exact absurd (Stop.fault.inj herr) (hf err)
  · refine wp_msyscall ?_
    unfold sysMemMap
    refine Lib.wp_guard (fun _ err _ => ⟨k.mem, rfl, Or.inr ⟨fun h => hlow h.1, rfl⟩⟩) fun hlegal => ?_
    exact absurd (Or.inl ((illegal_iff hva).mpr (BitVec.not_le.mp hlow))) hlegal

/-- The entry of `curenv` is written anew. -/
theorem memMap_again (h : Distinct k.vm.dirs k.mem) (hc : k.curenv = some c)
    (hdir : k.vm.dirs c = some d) (hva : addr < utop) (hw : k.mapping c addr = some w) :
    wp (msyscall (sysMemMap 0 addr 0 addr perm))
      (fun _ k' => ∃ m, k' = k.setMem m ∧ if utemp ≤ addr then
        Sets k.vm.dirs c (pdx addr) (ptx addr) (some (pteWord (ppn w) perm)) k.mem m
      else m = k.mem) (fun _ _ => True) k := by
  have huser := pdx_lt_utop hva
  by_cases hlow : utemp ≤ addr
  · have hlegal := legal_of_le hva hlow
    rw [mapping_eq huser] at hw
    obtain ⟨t, -, -, -, -, hl⟩ := mapped_walk huser hw
    have hpgdir := dirs_pgdir hdir
    refine wp_msyscall (wp_memMap hc hc hlegal hlegal hl ?_ fun f hf err herr => ?_)
    · refine wp_mono (pageInsert_again h (hpgdir ▸ hdir) huser hw rfl) ?_ ?_
      · exact fun _ m hsets => ⟨m, rfl, by rwa [if_pos hlow]⟩
      · exact fun f m hf err herr => absurd (Stop.fault.inj herr) (hf err)
    · exact absurd (Stop.fault.inj herr) (hf err)
  · refine wp_msyscall ?_
    unfold sysMemMap
    refine Lib.wp_guard (fun _ err _ => ⟨k.mem, rfl, by rw [if_neg hlow]⟩) fun hlegal => ?_
    exact absurd (Or.inl ((illegal_iff hva).mpr (BitVec.not_le.mp hlow))) hlegal

/-! ## `duppage` -/

/-- A page that is writable and not shared with children. -/
def IsPrivate (w : Word) : Prop := w &&& pteD ≠ 0 ∧ w &&& pteLibrary = 0

instance (w : Word) : Decidable (IsPrivate w) := inferInstanceAs (Decidable (_ ∧ _))

/-- The permission that `duppage` asks for. -/
def sentPerm (w : Word) : Word := if IsPrivate w then pteCow else pteFlags w

theorem flags_and {mask : Word} (hmask : 0xFFF &&& mask = mask) (w : Word) :
    pteFlags w &&& mask = w &&& mask := by
  rw [pteFlags, BitVec.and_assoc, hmask]

theorem and_lnot {mask : Word} (hmask : mask ≠ 0) (w b : Word) : w &&& lnot mask ||| b = b := by
  rw [lnot, if_neg hmask]
  simp

theorem wp_vpt {Q : Word → Kernel → Prop} (h : Sound pool base k) (hc : k.curenv = some c)
    (hva : vpn * pageSize < utop) (hw : k.mapping c (vpn * pageSize) = some w) (hQ : Q w k) :
    wp (vpt vpn) Q (fun _ _ => True) k := by
  have huser := pdx_lt_utop hva
  rw [mapping_eq huser, dirs_pgdir (h.dirs hc)] at hw
  obtain ⟨t, -, hwalk, hphys, -⟩ := mapped_walk huser hw
  unfold vpt
  rw [wp_bind, wp_get, wp_bind, wp_onMem]
  refine wp_mono (pgdirWalk_spec k.mem k.curPgdir _) ?_ fun _ _ _ => trivial
  rintro r m ⟨rfl, rfl⟩
  rw [hwalk]
  rw [wp_onMem, wp_readPte]
  exact hphys.symm ▸ hQ

/-- The entries that `duppage` leaves. -/
structure Duplicated (k : Kernel) (c e : EnvIx) (addr w : Word) (k' : Kernel) : Prop where
  mem : ∃ m, k' = k.setMem m
  parent : k'.mapping c addr =
    some (if IsPrivate w ∧ utemp ≤ addr then pteWord (ppn w) pteCow else w)
  child : k'.mapping e addr = if HasRoom k e addr then some (pteWord (ppn w) (sentPerm w)) else none

theorem duppage_spec (h : Sound pool base k) (hc : k.curenv = some c)
    (he : target k envid true = some e) (hne : e ≠ c) (hva : vpn * pageSize < utop)
    (hw : k.mapping c (vpn * pageSize) = some w) (hnone : k.mapping e (vpn * pageSize) = none) :
    wp (duppage envid vpn) (fun _ k' => Duplicated k c e (vpn * pageSize) w k') (fun _ _ => True) k := by
  have hdir := h.dirs hc
  have hdir' : k.vm.dirs e = some (k.envs e).envPgdir :=
    Vm.dirs_some (v := k.vm) (Sound.space_live (h.target_live he))
  have huser := pdx_lt_utop hva
  -- the entries after the page has gone to the child
  have hfirst : ∀ {perm m}, (HasRoom k e (vpn * pageSize) ∧ Sets k.vm.dirs e (pdx (vpn * pageSize))
        (ptx (vpn * pageSize)) (some (pteWord (ppn w) perm)) k.mem m ∨
      ¬ HasRoom k e (vpn * pageSize) ∧ m.phys = k.mem.phys) →
      Distinct k.vm.dirs m ∧ (k.setMem m).mapping c (vpn * pageSize) = some w ∧
        (k.setMem m).mapping e (vpn * pageSize) =
          if HasRoom k e (vpn * pageSize) then some (pteWord (ppn w) perm) else none := by
    rintro perm m (⟨hroom, hsets⟩ | ⟨hroom, hphys⟩)
    · refine ⟨hsets.distinct, ?_, ?_⟩
      · rw [hsets.mapping hdir' huser hdir, if_neg fun h => hne h.1.symm, hw]
      · rw [hsets.mapping hdir' huser hdir', if_pos ⟨rfl, rfl, rfl⟩, if_pos hroom]
    · refine ⟨h.vm.toMemInv.distinct.congr hphys, ?_, ?_⟩
      · rw [mapping_eq huser] at hw ⊢
        rw [← hw]
        exact mapped_of_phys hphys _ _ _
      · rw [if_neg hroom, ← hnone, mapping_eq huser, mapping_eq huser]
        exact mapped_of_phys hphys _ _ _
  unfold duppage
  rw [wp_bind]
  refine wp_vpt h hc hva hw ?_
  have hflagD : w &&& 0xFFF &&& pteD = w &&& pteD := flags_and (by decide) w
  have hflagL : w &&& 0xFFF &&& pteLibrary = w &&& pteLibrary := flags_and (by decide) w
  dsimp only
  rw [hflagD, hflagL]
  refine (wp_ite _ _).mpr ⟨fun hshared => ?_, fun hpriv => ?_⟩
  · have hpriv : ¬ IsPrivate w := fun h => hshared.elim h.1 fun hl => hl h.2
    rw [wp_bind]
    refine wp_mono (memMap_child h.vm.toMemInv hc he hdir' hva hw hnone) ?_ fun _ _ _ => trivial
    rintro _ _ ⟨m, rfl, hm⟩
    obtain ⟨-, hparent, hchild⟩ := hfirst hm
    rw [wp_pure]
    refine ⟨⟨m, rfl⟩, ?_, ?_⟩
    · rw [if_neg fun h => hpriv h.1]
      exact hparent
    · rw [sentPerm, if_neg hpriv]
      exact hchild
  · have hpriv : IsPrivate w := by
      obtain ⟨hd, hl⟩ := not_or.mp hpriv
      exact ⟨hd, not_not.mp hl⟩
    rw [and_lnot (by decide), wp_bind]
    refine wp_mono (memMap_child h.vm.toMemInv hc he hdir' hva hw hnone) ?_ fun _ _ _ => trivial
    rintro _ _ ⟨m, rfl, hm⟩
    obtain ⟨hdist, hparent, hchild⟩ := hfirst hm
    rw [wp_bind]
    refine wp_mono (memMap_again (k := k.setMem m) hdist hc hdir hva hparent) ?_ fun _ _ _ => trivial
    rintro _ _ ⟨m', rfl, hm'⟩
    rw [wp_pure]
    by_cases hlow : utemp ≤ vpn * pageSize
    · rw [if_pos hlow] at hm'
      refine ⟨⟨m', rfl⟩, ?_, ?_⟩
      · rw [hm'.mapping hdir huser hdir, if_pos ⟨rfl, rfl, rfl⟩, if_pos ⟨hpriv, hlow⟩]
      · rw [hm'.mapping hdir huser hdir', if_neg fun h => hne h.1, hchild, sentPerm, if_pos hpriv]
    · rw [if_neg hlow] at hm'
      subst hm'
      refine ⟨⟨_, rfl⟩, ?_, ?_⟩
      · rw [if_neg fun h => hlow h.2]
        exact hparent
      · rw [sentPerm, if_pos hpriv]
        exact hchild

end Mos
