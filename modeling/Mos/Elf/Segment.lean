import Mos.Elf.Callbacks
import Mos.Mem.Boot

/-!
# What `elf_load_seg` loads

When the file data ends in the first page and that page is not aligned, the loop over the rest of
the segment starts in the first page again and covers the data with a page of zeros.
-/

namespace Mos.Elf

open Lib (Bytes wp wp_bind wp_get wp_pure wp_throw wp_ite wp_mono wp_run_ok)

variable {ε σ : Type} {I : σ → Prop} {byteAt : σ → Nat → Option UInt8} {mapPage : Mapper ε σ}
  {stuck : ε} {ph : Phdr} {bin : Bytes} {s : σ}

/-! ## Segments -/

/-- The byte at the address `x` of the segment. -/
def Phdr.want (ph : Phdr) (bin : Bytes) (x : Nat) : UInt8 :=
  if x < ph.pVaddr.toNat + ph.pFilesz.toNat then bin (x - ph.pVaddr.toNat) else 0

/-- The segment is in memory: its pages are mapped and show the file data and zeros. -/
structure Phdr.Loaded (ph : Phdr) (bin : Bytes) (byteAt : Nat → Option UInt8) : Prop where
  mapped : ∀ j < ph.pMemsz.toNat, byteAt (ph.pVaddr.toNat + j) ≠ none
  data : ∀ j < ph.pFilesz.toNat, byteAt (ph.pVaddr.toNat + j) = some (bin j)
  bss : ∀ j < ph.pMemsz.toNat, ph.pFilesz.toNat ≤ j → byteAt (ph.pVaddr.toNat + j) = some 0

/-- The first page is aligned or full of file data, or there is nothing behind the file data; else
the file data are zeros and whole pages from their end on reach the last page. -/
def Phdr.Fits (ph : Phdr) (bin : Bytes) : Prop :=
  ph.pVaddr.toNat % 4096 = 0 ∨ 4096 ≤ ph.pVaddr.toNat % 4096 + ph.pFilesz.toNat ∨
  ph.pFilesz = ph.pMemsz ∨
  ((∀ j < ph.pFilesz.toNat, bin j = 0) ∧
    (ph.pVaddr.toNat % 4096 + ph.pMemsz.toNat - 1) / 4096 =
      (ph.pMemsz.toNat - ph.pFilesz.toNat - 1) / 4096)

theorem loaded_iff {show_ : Nat → Option UInt8} (hsize : ph.pFilesz.toNat ≤ ph.pMemsz.toNat) :
    ph.Loaded bin show_ ↔ ∀ j < ph.pMemsz.toNat,
      show_ (ph.pVaddr.toNat + j) = some (ph.want bin (ph.pVaddr.toNat + j)) := by
  have want : ∀ j, ph.want bin (ph.pVaddr.toNat + j) =
      if j < ph.pFilesz.toNat then bin j else 0 := by
    intro j
    unfold Phdr.want
    simp only [Nat.add_sub_cancel_left, Nat.add_lt_add_iff_left]
  constructor
  · intro h j hj
    rw [want]
    split
    case isTrue hlt => exact h.data j hlt
    case isFalse hge => exact h.bss j hj (Nat.le_of_not_lt hge)
  · intro h
    refine ⟨fun j hj => ?_, fun j hj => ?_, fun j hj hge => ?_⟩
    · rw [h j hj]
      simp
    · rw [h j (by omega), want, if_pos hj]
    · rw [h j hj, want, if_neg (by omega)]

/-! ## Sizes -/

theorem roundDown_offset (va : Word) : (va - roundDown va).toNat = va.toNat % 4096 := by
  have hpage : roundDown va = pteAddr va := rfl
  have hlt := va.isLt
  rw [hpage, ← pageVa_eq, BitVec.toNat_sub, pageVa_toNat, pdx_val, ptx_val]
  omega

theorem minSize_toNat (a b : Word) : (minSize a b).toNat = min a.toNat b.toNat := by
  unfold minSize
  split
  case isTrue h =>
    rw [BitVec.le_def] at h
    omega
  case isFalse h =>
    rw [BitVec.le_def] at h
    omega

/-- The callback maps a page of zeros with the bytes of `src` in it. -/
structure Maps (I : σ → Prop) (byteAt : σ → Nat → Option UInt8) (ph : Phdr) (mapPage : Mapper ε σ) :
    Prop where
  spec : ∀ s va offset src len, I s → va.toNat / 4096 < userPages → offset.toNat < 4096 →
    wp (mapPage va offset ph.perm src len)
      (fun _ s' => I s' ∧ Shows va (filled src offset len) (byteAt s) (byteAt s'))
      (fun _ _ => True) s

/-! ## The loops -/

/-- The addresses of the user end at `UTOP`. -/
abbrev Phdr.InUser (ph : Phdr) : Prop := ph.pVaddr.toNat + ph.pMemsz.toNat ≤ 4096 * userPages

theorem add_toNat {i : Word} (hu : ph.InUser) (hi : i.toNat < ph.pMemsz.toNat) :
    (ph.pVaddr + i).toNat = ph.pVaddr.toNat + i.toNat ∧ (i + pageSize).toNat = i.toNat + 4096 := by
  have hp : pageSize.toNat = 4096 := by decide
  unfold Phdr.InUser userPages at hu
  rw [BitVec.toNat_add, BitVec.toNat_add, hp]
  omega

theorem loadBss_spec (hm : Maps I byteAt ph mapPage) (hu : ph.InUser) (n : Nat) (i : Word)
    (hI : I s) : wp (loadBss mapPage stuck ph n i)
      (fun _ s' => ∀ x, x / 4096 < userPages → byteAt s' x =
        if i.toNat < ph.pMemsz.toNat ∧ (ph.pVaddr.toNat + i.toNat) / 4096 ≤ x / 4096 ∧
          x / 4096 ≤ (ph.pVaddr.toNat + i.toNat) / 4096 + (ph.pMemsz.toNat - 1 - i.toNat) / 4096
        then some 0 else byteAt s x) (fun _ _ => True) s := by
  induction n generalizing i s with
  | zero => exact (wp_throw _).mpr trivial
  | succ n ih =>
    unfold loadBss
    refine (wp_ite _ _).mpr ⟨fun hi => ?_, fun hi => ?_⟩
    · rw [BitVec.lt_def] at hi
      obtain ⟨hva, hnext⟩ := add_toNat hu hi
      have hpage : (ph.pVaddr + i).toNat / 4096 < userPages := by
        unfold Phdr.InUser at hu
        omega
      rw [wp_bind]
      refine wp_mono (hm.spec s _ 0 none _ hI hpage (by decide)) ?_ (fun _ _ _ => trivial)
      rintro _ s₁ ⟨hI₁, hs⟩
      refine wp_mono (ih (i + pageSize) hI₁) ?_ (fun _ _ _ => trivial)
      intro _ s' hs' x hx
      rw [hs' x hx, hs x hx, hva, hnext]
      unfold filled
      split_ifs
      all_goals first | rfl | (exfalso; omega)
    · rw [BitVec.lt_def] at hi
      refine (wp_pure _).mpr fun x _ => ?_
      rw [if_neg (by omega)]

theorem loadBin_done (n : Nat) {i : Word} (hi : ¬ i.toNat < ph.pFilesz.toNat) :
    wp (loadBin mapPage stuck ph bin n i) (fun i' s' => i' = i ∧ s' = s) (fun _ _ => True) s := by
  cases n with
  | zero => exact (wp_throw _).mpr trivial
  | succ n =>
    unfold loadBin
    rw [if_neg (by rwa [BitVec.lt_def])]
    exact (wp_pure _).mpr ⟨rfl, rfl⟩

theorem loadBin_spec (hm : Maps I byteAt ph mapPage) (hu : ph.InUser)
    (hsize : ph.pFilesz.toNat ≤ ph.pMemsz.toNat) (n : Nat) (i : Word) (hI : I s)
    (halign : i.toNat < ph.pFilesz.toNat → (ph.pVaddr.toNat + i.toNat) % 4096 = 0) :
    wp (loadBin mapPage stuck ph bin n i)
      (fun i' s' => I s' ∧ i.toNat ≤ i'.toNat ∧ ph.pFilesz.toNat ≤ i'.toNat ∧
        (i' = i ∨ (ph.pVaddr.toNat + i'.toNat) % 4096 = 0) ∧
        ∀ x, x / 4096 < userPages → byteAt s' x =
          if ph.pVaddr.toNat + i.toNat ≤ x ∧ x < ph.pVaddr.toNat + i'.toNat
          then some (ph.want bin x) else byteAt s x) (fun _ _ => True) s := by
  induction n generalizing i s with
  | zero => exact (wp_throw _).mpr trivial
  | succ n ih =>
    unfold loadBin
    refine (wp_ite _ _).mpr ⟨fun hi => ?_, fun hi => ?_⟩
    · rw [BitVec.lt_def] at hi
      have hal := halign hi
      obtain ⟨hva, hnext⟩ := add_toNat hu (Nat.lt_of_lt_of_le hi hsize)
      have hpage : (ph.pVaddr + i).toNat / 4096 < userPages := by
        unfold Phdr.InUser at hu
        omega
      rw [wp_bind]
      refine wp_mono (hm.spec s _ 0 _ _ hI hpage (by decide)) ?_ (fun _ _ _ => trivial)
      rintro _ s₁ ⟨hI₁, hs⟩
      have hal' : (i + pageSize).toNat < ph.pFilesz.toNat →
          (ph.pVaddr.toNat + (i + pageSize).toNat) % 4096 = 0 := by
        intro _
        rw [hnext]
        omega
      refine wp_mono (ih (i + pageSize) hI₁ hal') ?_ (fun _ _ _ => trivial)
      rintro i' s' ⟨hI', hle, hge, hor, hs'⟩
      rw [hnext] at hle hs'
      refine ⟨hI', by omega, hge, Or.inr ?_, fun x hx => ?_⟩
      · rcases hor with rfl | h
        · rw [hnext]
          omega
        · exact h
      · have hlen : (minSize (ph.pFilesz - i) pageSize).toNat =
            min (ph.pFilesz.toNat - i.toNat) 4096 := by
          have hp : pageSize.toNat = 4096 := by decide
          rw [minSize_toNat, hp, BitVec.toNat_sub_of_le (BitVec.le_def.mpr (Nat.le_of_lt hi))]
        rw [hs' x hx, hs x hx, hva]
        by_cases hin : x / 4096 = (ph.pVaddr.toNat + i.toNat) / 4096
        · have hzero : (0 : Word).toNat = 0 := rfl
          rw [if_neg (by omega), if_pos hin, if_pos (by omega)]
          refine congrArg some ?_
          unfold filled Phdr.want
          simp only [hlen, hzero]
          split_ifs
          · exact congrArg bin (by omega)
          · exfalso
            omega
          · exfalso
            omega
          · rfl
        · split_ifs
          all_goals first | rfl | (exfalso; omega)
    · rw [BitVec.lt_def] at hi
      refine (wp_pure _).mpr ⟨hI, Nat.le_refl _, by omega, Or.inl rfl, fun x _ => ?_⟩
      rw [if_neg (by omega)]

/-! ## The whole segment -/

theorem user_page (hu : ph.InUser) {j : Nat} (hj : j < ph.pMemsz.toNat) :
    (ph.pVaddr.toNat + j) / 4096 < userPages := by
  unfold Phdr.InUser at hu
  omega

/-- From a page boundary on the loops load the rest of the segment. -/
theorem loops_spec (hm : Maps I byteAt ph mapPage) (hu : ph.InUser)
    (hsize : ph.pFilesz.toNat ≤ ph.pMemsz.toNat) (n : Nat) (i : Word) (hI : I s)
    (halign : (ph.pVaddr.toNat + i.toNat) % 4096 = 0)
    (hfirst : ∀ j < ph.pMemsz.toNat, j < i.toNat →
      byteAt s (ph.pVaddr.toNat + j) = some (ph.want bin (ph.pVaddr.toNat + j))) :
    wp (do
        let i ← loadBin mapPage stuck ph bin n i
        loadBss mapPage stuck ph n i)
      (fun _ s' => ph.Loaded bin (byteAt s')) (fun _ _ => True) s := by
  rw [wp_bind]
  refine wp_mono (loadBin_spec hm hu hsize n i hI fun _ => halign) ?_ (fun _ _ _ => trivial)
  rintro i' s₁ ⟨hI₁, hle, hge, hor, hs₁⟩
  have halign' : (ph.pVaddr.toNat + i'.toNat) % 4096 = 0 := by
    rcases hor with rfl | h
    · exact halign
    · exact h
  refine wp_mono (loadBss_spec hm hu n i' hI₁) ?_ (fun _ _ _ => trivial)
  intro _ s' hs'
  rw [loaded_iff hsize]
  intro j hj
  have hx := user_page hu hj
  rw [hs' _ hx, hs₁ _ hx]
  by_cases hin : j < i'.toNat
  · rw [if_neg (by omega)]
    split_ifs with hi
    · rfl
    · exact hfirst j hj (by omega)
  · rw [if_pos (by omega)]
    unfold Phdr.want
    rw [if_neg (by omega)]

/-- The file data end in the first page: the loop over the rest starts in the first page again. -/
theorem restart_spec (hm : Maps I byteAt ph mapPage) (hu : ph.InUser)
    (hsize : ph.pFilesz.toNat ≤ ph.pMemsz.toNat) (n : Nat) (hI : I s)
    (hshort : ph.pVaddr.toNat % 4096 + ph.pFilesz.toNat < 4096)
    (hoff : ph.pVaddr.toNat % 4096 ≠ 0)
    (hfirst : ∀ j < ph.pFilesz.toNat, byteAt s (ph.pVaddr.toNat + j) = some (bin j))
    (hrest : ∀ j < ph.pMemsz.toNat, (ph.pVaddr.toNat + j) / 4096 ≠ ph.pVaddr.toNat / 4096 →
      byteAt s (ph.pVaddr.toNat + j) = none) :
    wp (do
        let i ← loadBin mapPage stuck ph bin n ph.pFilesz
        loadBss mapPage stuck ph n i)
      (fun _ s' => ph.Loaded bin (byteAt s') ↔ ph.Fits bin) (fun _ _ => True) s := by
  rw [wp_bind]
  refine wp_mono (loadBin_done n (Nat.lt_irrefl _)) ?_ (fun _ _ _ => trivial)
  rintro _ _ ⟨rfl, rfl⟩
  refine wp_mono (loadBss_spec hm hu n ph.pFilesz hI) ?_ (fun _ _ _ => trivial)
  intro _ s' hs'
  by_cases heq : ph.pFilesz = ph.pMemsz
  · refine iff_of_true ?_ (Or.inr (Or.inr (Or.inl heq)))
    rw [loaded_iff hsize]
    intro j hj
    rw [hs' _ (user_page hu hj), if_neg (by rw [heq]; omega), hfirst j (by rw [heq]; omega)]
    unfold Phdr.want
    rw [if_pos (by rw [heq]; omega), Nat.add_sub_cancel_left]
  have hlt : ph.pFilesz.toNat < ph.pMemsz.toNat := by
    have hne : ph.pFilesz.toNat ≠ ph.pMemsz.toNat := fun h => heq (BitVec.eq_of_toNat_eq h)
    omega
  constructor
  · intro hl
    refine Or.inr (Or.inr (Or.inr ⟨fun j hj => ?_, ?_⟩))
    · have hdata := hl.data j hj
      rw [hs' _ (user_page hu (by omega)), if_pos (by omega)] at hdata
      exact (Option.some.inj hdata).symm
    · have hlast := hl.mapped (ph.pMemsz.toNat - 1) (by omega)
      rw [hs' _ (user_page hu (by omega))] at hlast
      by_contra hne
      rw [if_neg (by omega)] at hlast
      exact hlast (hrest _ (by omega) (by omega))
  · rintro (h | h | h | ⟨hzero, hlast⟩)
    · exact absurd h hoff
    · omega
    · exact absurd h heq
    · rw [loaded_iff hsize]
      intro j hj
      rw [hs' _ (user_page hu hj), if_pos (by omega)]
      unfold Phdr.want
      split_ifs
      · rw [Nat.add_sub_cancel_left, hzero j (by omega)]
      · rfl

/-- What `elf_load_seg` leaves when it returns. -/
theorem elfLoadSeg_spec (hm : Maps I byteAt ph mapPage) (hu : ph.InUser)
    (hsize : ph.pFilesz.toNat ≤ ph.pMemsz.toNat) (n : Nat) (hI : I s)
    (hfree : ∀ j < ph.pMemsz.toNat, byteAt s (ph.pVaddr.toNat + j) = none) :
    wp (elfLoadSeg mapPage stuck ph bin n)
      (fun _ s' => ph.Loaded bin (byteAt s') ↔ ph.Fits bin) (fun _ _ => True) s := by
  have hoffset := roundDown_offset ph.pVaddr
  have hp : pageSize.toNat = 4096 := by decide
  unfold elfLoadSeg
  generalize ph.pVaddr - roundDown ph.pVaddr = offset at hoffset ⊢
  by_cases hz : offset = 0
  · subst hz
    have hal : ph.pVaddr.toNat % 4096 = 0 := hoffset.symm
    simp only [ne_eq, not_true_eq_false, if_false]
    refine wp_mono (loops_spec hm hu hsize n 0 hI hal fun j _ hj => absurd hj (Nat.not_lt_zero j))
      ?_ (fun _ _ _ => trivial)
    exact fun _ s' hl => iff_of_true hl (Or.inl hal)
  have hoff : ph.pVaddr.toNat % 4096 ≠ 0 := by
    rw [← hoffset]
    exact fun h => hz (BitVec.eq_of_toNat_eq h)
  have hlt : offset.toNat < 4096 := by omega
  have hlen : (minSize ph.pFilesz (pageSize - offset)).toNat =
      min ph.pFilesz.toNat (4096 - ph.pVaddr.toNat % 4096) := by
    rw [minSize_toNat, BitVec.toNat_sub_of_le (BitVec.le_def.mpr (by omega)), hp, hoffset]
  simp only [ne_eq, hz, not_false_eq_true, if_true]
  have hpage : ph.pVaddr.toNat / 4096 < userPages := by
    unfold Phdr.InUser at hu
    omega
  rw [wp_bind]
  refine wp_mono (hm.spec s _ offset (some bin) _ hI hpage hlt) ?_ (fun _ _ _ => trivial)
  rintro _ s₁ ⟨hI₁, hs⟩
  have hfirst : ∀ j < ph.pMemsz.toNat, ph.pVaddr.toNat % 4096 + j < 4096 →
      byteAt s₁ (ph.pVaddr.toNat + j) = some (ph.want bin (ph.pVaddr.toNat + j)) := by
    intro j hj hin
    rw [hs _ (user_page hu hj), if_pos (by omega)]
    refine congrArg some ?_
    unfold filled Phdr.want
    simp only [hlen, hoffset]
    split_ifs
    · exact congrArg bin (by omega)
    · exfalso
      omega
    · exfalso
      omega
    · rfl
  by_cases hshort : ph.pVaddr.toNat % 4096 + ph.pFilesz.toNat < 4096
  · have hi : minSize ph.pFilesz (pageSize - offset) = ph.pFilesz := by
      refine BitVec.eq_of_toNat_eq ?_
      rw [hlen]
      omega
    rw [hi]
    refine restart_spec hm hu hsize n hI₁ hshort hoff (fun j hj => ?_) (fun j hj hne => ?_)
    · rw [hfirst j (by omega) (by omega)]
      unfold Phdr.want
      rw [if_pos (by omega), Nat.add_sub_cancel_left]
    · rw [hs _ (user_page hu hj), if_neg hne, hfree j hj]
  · have hi : (minSize ph.pFilesz (pageSize - offset)).toNat = 4096 - ph.pVaddr.toNat % 4096 := by
      rw [hlen]
      omega
    refine wp_mono (loops_spec hm hu hsize n _ hI₁ (by omega) fun j hj hlt' =>
      hfirst j hj (by omega)) ?_ (fun _ _ _ => trivial)
    exact fun _ s' hl => iff_of_true hl (Or.inr (Or.inl (by omega)))

/-! ## The callbacks of the kernel -/

section

variable {pool : Finset Nat} {base : Nat} {k k' : Kernel} {e : EnvIx}

/-- The callback loads into the environment `e`: `spawn` runs in another one. -/
inductive Loads (k : Kernel) : Loader → EnvIx → Prop
  | loadIcode {e : EnvIx} (live : (k.envs e).envStatus ≠ .free) : Loads k (.loadIcode e) e
  | spawn {child : Word} {c e : EnvIx} (cur : k.curenv = some c)
      (target : target k child true = some e) (other : e ≠ c) : Loads k (.spawn child) e

theorem Loads.live {l : Loader} (hl : Loads k l e) (h : Sound pool base k) :
    (k.envs e).envStatus ≠ .free := by
  cases hl with
  | loadIcode live => exact live
  | spawn _ target _ => exact h.target_live target

/-- The kernel has gone on in memory alone. -/
def MemoryGoes (pool : Finset Nat) (base : Nat) (k k' : Kernel) : Prop :=
  ∃ m, k' = k.setMem m ∧ MemInv pool base k.vm.dirs m

theorem maps_loader {l : Loader} (h : Sound pool base k) (hl : Loads k l e) (ph : Phdr) :
    Maps (MemoryGoes pool base k) (fun k' => k'.byteAt e) ph l.mapPage := by
  refine ⟨fun k₁ va offset src len hI hva hoff => ?_⟩
  obtain ⟨m, rfl, hm⟩ := hI
  have hdir : k.vm.dirs e = some (k.envs e).envPgdir := Sound.dirs_live (hl.live h)
  cases hl with
  | loadIcode live =>
    unfold Loader.mapPage
    rw [wp_bind, wp_get, wp_onMem]
    refine wp_mono (loadIcodeMapper_spec hm hdir ph src hva) ?_ (fun _ _ _ => trivial)
    exact fun _ m' ⟨hm', hs⟩ => ⟨⟨m', rfl, hm'⟩, hs⟩
  | @spawn child c _ cur target other =>
    have hrun := h.running c cur
    rw [Sound.space_live (h.live cur)] at hrun
    have hspawns : Spawns pool base k child c e :=
      ⟨h.vm.toMemInv, cur, target, other, hdir, Sound.dirs_live (h.live cur),
        (congrArg AddressSpace.pgdir (Option.some.inj hrun)).symm⟩
    refine wp_mono (spawnMapper_spec (hspawns.setMem hm) ph src hva hoff) ?_ (fun _ _ _ => trivial)
    rintro _ _ ⟨m', rfl, hm', hs⟩
    exact ⟨⟨m', rfl, hm'⟩, hs⟩

/-- A segment in user memory whose pages are unmapped is loaded as it should if and only if it
fits. -/
theorem segment_loaded_iff {l : Loader} {ph : Phdr} {bin : Bytes} {n : Nat}
    (h : Sound pool base k) (hl : Loads k l e) (hu : ph.InUser)
    (hsize : ph.pFilesz.toNat ≤ ph.pMemsz.toNat)
    (hfree : ∀ j < ph.pMemsz.toNat, k.byteAt e (ph.pVaddr.toNat + j) = none)
    (hrun : l.loaded ph bin n k = some k') :
    ph.Loaded bin (k'.byteAt e) ↔ ph.Fits bin := by
  have hload : wp (l.load ph bin n) (fun _ k' => ph.Loaded bin (k'.byteAt e) ↔ ph.Fits bin)
      (fun _ _ => True) k :=
    elfLoadSeg_spec (maps_loader h hl ph) hu hsize n ⟨k.mem, rfl, h.vm.toMemInv⟩ hfree
  unfold Loader.loaded at hrun
  split at hrun
  case h_1 _ _ hok =>
    obtain rfl := Option.some.inj hrun
    exact (wp_run_ok hload hok :)
  case h_2 => cases hrun

/-! ## Segments on the small machine -/

theorem sound_run (h : (mosWith fun _ => True).Run (StepOk fun _ _ _ _ => True) k) :
    ∃ pool base, Sound pool base k := by
  obtain ⟨pool, base, hs, -⟩ := memory_rule (W := fun _ _ _ _ => True) (J := fun _ => True)
    (fun _ _ _ _ _ _ _ _ => trivial) (fun _ _ _ _ _ _ => trivial) (fun _ h => h)
    (fun _ => trivial) (fun _ _ _ => trivial) h
  exact ⟨pool, base, hs⟩

/-- Eight bytes in a page, the first four from the file. -/
def shortSegment : Phdr := ⟨0x500010, 4, 8, pfW⟩

/-- A data segment at the start of a page, with a part of zeros that reaches the next page. -/
def dataSegment : Phdr := ⟨0x500000, 4, 4100, pfW⟩

def sevens : Bytes := fun _ => 7

theorem segment_loaded_iff_spawn : ∃ k k', mos.Reachable k ∧
    (Loader.spawn 4097).loaded dataSegment sevens 3 k = some k' ∧
    dataSegment.Loaded sevens (k'.byteAt 1) := by
  have hcheck : ((boot smallMachine [(bareLoop, 1)]).any fun k₀ => (next .start k₀).any fun k₁ =>
      (next (callOp 9 0 0 0) k₁).any fun k => k.curenv == some 0 && target k 4097 true == some 1 &&
        (List.range 4100).all (fun j => (k.byteAt 1 (0x500000 + j)).isNone) &&
        ((Loader.spawn 4097).loaded dataSegment sevens 3 k).isSome) = true := by
    decide +kernel
  simp only [Option.any_eq_true, Bool.and_eq_true, beq_iff_eq, List.all_eq_true, List.mem_range,
    Option.isNone_iff_eq_none] at hcheck
  obtain ⟨k₀, hb, k₁, h₁, k, h₂, ⟨⟨hcur, htarget⟩, hfree⟩, hsome⟩ := hcheck
  obtain ⟨k', hload⟩ := Option.isSome_iff_exists.mp hsome
  have hinit : (mosWith fun _ => True).init k₀ := ⟨_, _, fun _ _ => trivial, hb⟩
  have hstart : StepOk (fun _ _ _ _ => True) k₀ .start := by
    rintro e p va perm ⟨f, inp, s, ⟨⟩, -⟩
  have hfork : StepOk (fun _ _ _ _ => True) k₁ (callOp 9 0 0 0) := by
    rintro e p va perm ⟨f, inp, s, ⟨⟩, hs, hmaps⟩
    obtain rfl := Option.some.inj hs
    cases hmaps
  obtain ⟨pool, base, hsound⟩ := sound_run (.step (.step (.init hinit) hstart h₁) hfork h₂)
  have hreach : mos.Reachable k := .step (.step (.init ⟨_, _, hb⟩) trivial h₁) trivial h₂
  have hunmapped : ∀ j < dataSegment.pMemsz.toNat,
      k.byteAt 1 (dataSegment.pVaddr.toNat + j) = none := hfree
  exact ⟨k, k', hreach, hload, (segment_loaded_iff hsound (.spawn hcur htarget (by decide))
    (by decide) (by decide) hunmapped hload).mpr (Or.inl (by decide))⟩

/-- The loop over the rest of the segment starts in the page with the data again. -/
theorem segment_not_loaded : ∃ k k', mos.Reachable k ∧ (k.envs 0).envStatus ≠ .free ∧
    (∀ j < shortSegment.pMemsz.toNat, k.byteAt 0 (shortSegment.pVaddr.toNat + j) = none) ∧
    (Loader.loadIcode 0).loaded shortSegment sevens 2 k = some k' ∧
    k'.byteAt 0 shortSegment.pVaddr.toNat = some 0 ∧ ¬ shortSegment.Loaded sevens (k'.byteAt 0) := by
  have hcheck : ((boot smallMachine [(bareLoop, 1)]).any fun k => (k.envs 0).envStatus == .runnable &&
      (List.range 8).all (fun j => (k.byteAt 0 (0x500010 + j)).isNone) &&
      ((Loader.loadIcode 0).loaded shortSegment sevens 2 k).any fun k' =>
        k'.byteAt 0 0x500010 == some 0) = true := by
    decide +kernel
  simp only [Option.any_eq_true, Bool.and_eq_true, beq_iff_eq, List.all_eq_true, List.mem_range,
    Option.isNone_iff_eq_none] at hcheck
  obtain ⟨k, hb, ⟨hlive, hfree⟩, k', hload, hbyte⟩ := hcheck
  refine ⟨k, k', .init ⟨_, _, hb⟩, by rw [hlive]; decide, hfree, hload, hbyte, fun hl => ?_⟩
  have hdata := hl.data 0 (by decide)
  exact absurd (hbyte.symm.trans hdata) (by decide)

end

end Mos.Elf
