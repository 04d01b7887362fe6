import Mos.Elf.Loader
import Mos.Mem.Exact
import Mos.Mem.Syscalls

/-!
# What the callbacks of `elf_load_seg` do

Both callbacks put a fresh page at an address, with the bytes of `src` in it and zeros around them.
-/

namespace Mos

open Lib (Bytes wp wp_bind wp_get wp_modify wp_pure wp_throw wp_ite wp_mono wp_and wp_cleanup wp_trivial)

variable {pool : Finset Nat} {base : Nat} {sp : Spaces} {m m' m₁ : Mem} {e c : EnvIx} {d p q x : Nat}
  {va offset perm len : Word} {asid : Nat} {r : Ref} {o : Option Nat} {k : Kernel} {g : WordIx → Word}

/-! ## Frames as bytes -/

theorem frameBytes_zero : frameBytes (fun _ => 0) = fun _ => 0 := by
  funext i
  simp [frameBytes]

theorem byte_word (b : Bytes) (a k : Nat) (hk : k < 4) :
    UInt8.ofNat (b.word a / 256 ^ k) = b (a + k) := by
  have h := congrFun (b.setWord_word a) (a + k)
  unfold Bytes.setWord at h
  rwa [if_pos (by omega), Nat.add_sub_cancel_left] at h

theorem frameBytes_words (b : Bytes) {i : Nat} (hi : i < 4096) : frameBytes (frameWords b) i = b i := by
  have hix : (Fin.ofNat 1024 (i / 4)).val = i / 4 := by
    rw [Fin.val_ofNat]
    omega
  have hword : (BitVec.ofNat 32 (b.word (4 * (i / 4)))).toNat = b.word (4 * (i / 4)) := by
    rw [BitVec.toNat_ofNat]
    exact Nat.mod_eq_of_lt (b.word_lt _)
  unfold frameBytes frameWords
  rw [hix, hword, byte_word b _ _ (Nat.mod_lt i (by decide)), Nat.div_add_mod]

/-- What a page holds after the copy of `len` bytes to `offset` in a page of zeros. -/
def filled (src : Option Bytes) (offset len : Word) : Bytes := fun i =>
  match src with
  | some src => if offset.toNat ≤ i ∧ i < offset.toNat + len.toNat then src (i - offset.toNat) else 0
  | none => 0

theorem memcpyFrame_spec (m : Mem) (f : Nat) (src : Bytes) (hzero : ∀ j, m.phys f j = 0) :
    wp (memcpyFrame f offset src len) (fun _ m' => ∃ g, m' = { m with phys := Function.update m.phys f g } ∧
      ∀ i < 4096, frameBytes g i = filled (some src) offset len i) (fun _ _ => True) m := by
  unfold memcpyFrame
  simp only [wp_bind, wp_ite, wp_throw, wp_modify]
  refine ⟨fun _ => trivial, fun _ => ⟨_, rfl, fun i hi => ?_⟩⟩
  have hf : m.phys f = fun _ => 0 := funext hzero
  rw [frameBytes_words _ hi, hf, frameBytes_zero]
  unfold Bytes.copy filled
  simp only [Nat.zero_add]

/-! ## What a user sees -/

/-- The indices of the page `n` of an address space. -/
def pdeIx (n : Nat) : WordIx := Fin.ofNat 1024 (n / 1024)

def pteIx (n : Nat) : WordIx := Fin.ofNat 1024 n

/-- The number of pages below `UTOP`. -/
def userPages : Nat := 509 * 1024

/-- The byte at the address `x` below `UTOP`, if its page is mapped. -/
def Mem.byteAt (m : Mem) (d : Nat) (x : Nat) : Option UInt8 :=
  (m.pte d (pdeIx (x / 4096)) (pteIx (x / 4096))).map fun p => frameBytes (m.phys p) (x % 4096)

/-- The byte that the environment `e` sees there. -/
def Kernel.byteAt (k : Kernel) (e : EnvIx) : Nat → Option UInt8 := k.mem.byteAt (k.envs e).envPgdir

theorem pdeIx_lt {n : Nat} (hn : n < userPages) : pdeIx n < pdx utop := by
  have hu : (pdx utop).val = 509 := by decide
  unfold userPages at hn
  rw [Fin.lt_def, hu, pdeIx, Fin.val_ofNat]
  omega

theorem ix_eq_iff {n : Nat} (hn : n < userPages) (va : Word) :
    (pdeIx n = pdx va ∧ pteIx n = ptx va) ↔ n = va.toNat / 4096 := by
  have hva := va.isLt
  unfold userPages at hn
  rw [Fin.ext_iff, Fin.ext_iff, pdx_val, ptx_val, pdeIx, pteIx, Fin.val_ofNat, Fin.val_ofNat]
  omega

theorem pdx_lt_userPages {va : Word} (hva : va.toNat / 4096 < userPages) : pdx va < pdx utop := by
  have hu : (pdx utop).val = 509 := by decide
  unfold userPages at hva
  rw [Fin.lt_def, hu, pdx_val]
  omega

theorem byteAt_congr {x : Nat}
    (hpte : m'.pte d (pdeIx (x / 4096)) (pteIx (x / 4096)) =
      m.pte d (pdeIx (x / 4096)) (pteIx (x / 4096)))
    (hphys : ∀ q, m.pte d (pdeIx (x / 4096)) (pteIx (x / 4096)) = some q → m'.phys q = m.phys q) :
    m'.byteAt d x = m.byteAt d x := by
  unfold Mem.byteAt
  rw [hpte]
  cases hq : m.pte d (pdeIx (x / 4096)) (pteIx (x / 4096)) with
  | none => rfl
  | some q => simp only [Option.map_some, hphys q hq]

theorem user_held (h : MemInv pool base sp m) (he : sp e = some d) {n : Nat} (hn : n < userPages)
    (hq : m.pte d (pdeIx n) (pteIx n) = some q) : Held pool sp m q := by
  obtain ⟨t, ht, hentry⟩ := Option.bind_eq_some_iff.mp hq
  exact h.held_data he hq ((h.own_table he ht (pdeIx_lt hn)).pages _ _ hentry).2

theorem Placed.byteAt (h : MemInv pool base sp m) (hpl : Placed pool base sp r o m m')
    (he : sp e = some d) (hx : x / 4096 < userPages)
    (hr : r ≠ .pte e (pdeIx (x / 4096)) (pteIx (x / 4096))) : m'.byteAt d x = m.byteAt d x := by
  refine byteAt_congr ?_ fun q hq => hpl.held h (user_held h he hx hq)
  have hentry := hpl.entry e (pdeIx (x / 4096)) (pteIx (x / 4096))
  rw [Function.update_of_ne hr.symm] at hentry
  simpa [Mem.refers, he] using hentry

theorem Placed.pte_self {i j : WordIx} (hpl : Placed pool base sp (.pte e i j) o m m')
    (he : sp e = some d) : m'.pte d i j = o := by
  have hentry := hpl.entry e i j
  rw [Function.update_self] at hentry
  simpa [Mem.refers, he] using hentry

/-! ## A fresh page -/

/-- A page that is taken from the list, and what it is filled with. -/
def Mem.filledPage (m : Mem) (p : Nat) (rest : List Nat) (g : WordIx → Word) : Mem :=
  { m with pageFreeList := rest, phys := Function.update m.phys p g }

section

variable {rest : List Nat} {g : WordIx → Word}

theorem taken_phys (m : Mem) (p : Nat) (rest : List Nat) :
    (m.taken p rest).phys = Function.update m.phys p fun _ => 0 := rfl

theorem taken_filled (m : Mem) (p : Nat) (rest : List Nat) (g : WordIx → Word) :
    { m.taken p rest with phys := Function.update (m.taken p rest).phys p g } =
      m.filledPage p rest g := by
  rw [taken_phys, Function.update_idem]
  rfl

theorem filledPage_inv (h : MemInv pool base sp m) (hfree : m.pageFreeList = p :: rest) :
    MemInv pool base sp (m.filledPage p rest g) ∧ Held pool sp (m.filledPage p rest g) p := by
  have hfresh := h.fresh_taken hfree
  have hnot := MemInv.unreferenced_not_walked hfresh.mem hfresh.unreferenced
  have hs : SameTables pool sp (m.taken p rest) (m.filledPage p rest g) :=
    .page (g := g) hfresh.mem hnot rfl (by rw [taken_phys, Function.update_idem]; rfl)
  refine ⟨(h.taken hfree).congr hs rfl rfl, ?_⟩
  have hheap : (m.filledPage p rest g).heap pool sp = (m.taken p rest).heap pool sp :=
    heap_congr (refers_congr hs.walked) rfl rfl
  unfold Held
  rw [hheap]
  exact hfresh.held

theorem filledPage_byteAt (h : MemInv pool base sp m) (hfree : m.pageFreeList = p :: rest)
    (he : sp e = some d) (hx : x / 4096 < userPages) :
    (m.filledPage p rest g).byteAt d x = m.byteAt d x := by
  have hmem : p ∈ m.pageFreeList := by
    rw [hfree]
    exact List.mem_cons_self
  have hpool := h.counts.free_used p hmem
  have hnot := MemInv.unreferenced_not_walked hpool (h.counts.free_unreferenced hmem)
  refine byteAt_congr ?_ fun q hq => ?_
  · have hs : SameTables pool sp m (m.filledPage p rest g) :=
      .page (g := g) hpool hnot rfl rfl
    rw [pte_eq, pte_eq, hs.mapped he]
  · have hne : q ≠ p := by
      rintro rfl
      exact (user_held h he hx hq).not_free hmem
    exact Function.update_of_ne hne _ _

end

theorem perm_plain (ph : Elf.Phdr) {p : Nat} (hp : p < 2 ^ 20) : ppn (pteWord p ph.perm) = p := by
  refine ppn_pteWord_low hp ?_
  unfold Elf.Phdr.perm
  split
  · decide
  · decide

/-- The page of `va` shows `bytes`, and the rest of the user's addresses show what they did. -/
def Shows (va : Word) (bytes : Bytes) (old new : Nat → Option UInt8) : Prop :=
  ∀ x, x / 4096 < userPages → new x =
    if x / 4096 = va.toNat / 4096 then some (bytes (x % 4096)) else old x

/-- The page `p`, filled with `g`, is mapped at `va` and nowhere else. -/
structure NewPage (pool : Finset Nat) (base : Nat) (sp : Spaces) (e : EnvIx) (d : Nat) (va : Word)
    (p : Nat) (g : WordIx → Word) (m m' : Mem) : Prop where
  inv : MemInv pool base sp m'
  shows : Shows va (frameBytes g) (m.byteAt d) (m'.byteAt d)
  pte : m'.pte d (pdx va) (ptx va) = some p
  frame : m'.phys p = g
  mem : p ∈ pool
  sole : ∀ r, m'.refers sp r = some p → r = .pte e (pdx va) (ptx va)

theorem insertFresh_spec (h : MemInv pool base sp m) (he : sp e = some d) (ph : Elf.Phdr)
    {rest : List Nat} (hfree : m.pageFreeList = p :: rest) (g : WordIx → Word)
    (hva : va.toNat / 4096 < userPages) : wp (pageInsert d asid p va ph.perm)
      (fun _ m' => NewPage pool base sp e d va p g m m') (fun _ _ => True) (m.filledPage p rest g) := by
  have hfresh := h.fresh_taken hfree
  have hlt := h.lt_two_pow hfresh.mem
  obtain ⟨hinv, hheld⟩ := filledPage_inv (g := g) h hfree
  have hroom : ((m.filledPage p rest g).ppRef p).toNat ≠ 65535 := by
    have h0 : (m.filledPage p rest g).ppRef p = 0 := hfresh.ppRef
    rw [h0]
    decide
  refine wp_mono (pageInsert_placed hinv he (pdx_lt_userPages hva) hheld (perm_plain ph hlt) hroom) ?_
    (fun _ _ h => h)
  intro _ m' hpl
  have hframe : m'.phys p = g := by
    rw [hpl.held hinv hheld]
    simp [Mem.filledPage]
  have hdata := hpl.inv.held_data he (hpl.pte_self he) hfresh.mem
  refine ⟨hpl.inv, fun x hx => ?_, hpl.pte_self he, hframe, hfresh.mem, fun r hr => ?_⟩
  · split
    case isTrue heq =>
      obtain ⟨hi, hj⟩ := (ix_eq_iff hx va).mpr heq
      unfold Mem.byteAt
      rw [hi, hj, hpl.pte_self he, Option.map_some, hframe]
    case isFalse hne =>
      rw [hpl.byteAt hinv he hx, filledPage_byteAt h hfree he hx]
      intro hr
      obtain ⟨-, hi, hj⟩ := Ref.pte.inj hr
      exact hne ((ix_eq_iff hx va).mp ⟨hi.symm, hj.symm⟩)
  · have hrefs : (m'.heap pool sp).refs r = some p := refs_some.mpr ⟨hr, hfresh.mem⟩
    cases r with
    | dir e' => exact absurd trivial (hdata.shared _ hrefs)
    | pde e' i => exact absurd trivial (hdata.shared _ hrefs)
    | pte e' i j =>
      by_contra hne
      rw [hpl.entry, Function.update_of_ne hne] at hr
      refine hfresh.unreferenced (.pte e' i j) (refs_some.mpr ⟨?_, hfresh.mem⟩)
      rw [← hr]
      have hnot := MemInv.unreferenced_not_walked hfresh.mem hfresh.unreferenced
      have hs : SameTables pool sp (m.taken p rest) (m.filledPage p rest g) :=
        .page (g := g) hfresh.mem hnot rfl (by rw [taken_phys, Function.update_idem]; rfl)
      rw [refers_congr hs.walked]

theorem Shows.congr {bytes bytes' : Bytes} {old new : Nat → Option UInt8}
    (hs : Shows va bytes old new) (hb : ∀ i < 4096, bytes i = bytes' i) :
    Shows va bytes' old new := by
  intro x hx
  rw [hs x hx, hb _ (Nat.mod_lt _ (by decide))]

theorem loadIcodeMapper_spec (h : MemInv pool base sp m) (he : sp e = some d) (ph : Elf.Phdr)
    (src : Option Bytes) (hva : va.toNat / 4096 < userPages) :
    wp (Elf.loadIcodeMapper d asid va offset ph.perm src len)
      (fun _ m' => MemInv pool base sp m' ∧
        Shows va (filled src offset len) (m.byteAt d) (m'.byteAt d))
      (fun _ _ => True) m := by
  unfold Elf.loadIcodeMapper
  rw [wp_bind]
  refine wp_mono (pageAlloc_spec h) ?_ (fun _ _ _ => trivial)
  rintro p _ ⟨rest, hfree, rfl⟩
  have hfresh := h.fresh_taken hfree
  have insert : ∀ g, (∀ i < 4096, frameBytes g i = filled src offset len i) →
      wp (pageInsert d asid p va ph.perm)
        (fun _ m' => MemInv pool base sp m' ∧
        Shows va (filled src offset len) (m.byteAt d) (m'.byteAt d))
        (fun _ _ => True) (m.filledPage p rest g) := fun g hg =>
    wp_mono (insertFresh_spec h he ph hfree g hva) (fun _ _ hn => ⟨hn.inv, hn.shows.congr hg⟩)
      (fun _ _ h => h)
  cases src with
  | none =>
    have hzero := insert (fun _ => 0) fun i _ => by rw [frameBytes_zero]; rfl
    exact hzero
  | some src =>
    simp only [wp_bind]
    refine wp_mono (kaddr_spec _ _) ?_ (fun _ _ _ => trivial)
    rintro f m₁ ⟨rfl, rfl⟩
    rw [ppn_page2pa (h.lt_two_pow hfresh.mem)]
    refine wp_mono (memcpyFrame_spec _ p src hfresh.zero) ?_ (fun _ _ _ => trivial)
    rintro _ _ ⟨g, rfl, hg⟩
    rw [taken_filled]
    exact insert g hg

/-! ## The callback of `spawn` -/

/-- The parent runs, and the child is another environment. -/
structure Spawns (pool : Finset Nat) (base : Nat) (k : Kernel) (child : Word) (c e : EnvIx) : Prop
    where
  inv : MemInv pool base k.vm.dirs k.mem
  cur : k.curenv = some c
  target : target k child true = some e
  other : e ≠ c
  child : k.vm.dirs e = some (k.envs e).envPgdir
  parent : k.vm.dirs c = some (k.envs c).envPgdir
  running : k.curPgdir = (k.envs c).envPgdir

@[simp] theorem setMem_dirs (k : Kernel) (m : Mem) : (k.setMem m).vm.dirs = k.vm.dirs := rfl

theorem Spawns.setMem {child : Word} (h : Spawns pool base k child c e)
    (hm : MemInv pool base k.vm.dirs m) : Spawns pool base (k.setMem m) child c e where
  inv := hm
  cur := h.cur
  target := (target_congr rfl rfl child true).trans h.target
  other := h.other
  child := h.child
  parent := h.parent
  running := h.running

theorem wp_target {Q : EnvIx → Kernel → Prop} {envid : Word} {checkperm : Bool}
    (ht : target k envid checkperm = some e) (hQ : Q e k) :
    wp (envid2env envid checkperm) Q (fun _ _ => True) k := by
  refine wp_envid2env (fun e' he' => ?_) (fun _ _ => trivial)
  obtain rfl : e = e' := Option.some.inj (ht.symm.trans he')
  exact hQ

theorem spawnAlloc_spec {child : Word} (h : Spawns pool base k child c e) (ph : Elf.Phdr)
    (hva : va.toNat / 4096 < userPages) : wp (sysMemAlloc child va ph.perm)
      (fun _ k' => ∃ m p, k' = k.setMem m ∧
        NewPage pool base k.vm.dirs e (k.envs e).envPgdir va p (fun _ => 0) k.mem m)
      (fun _ _ => True) k := by
  unfold sysMemAlloc
  simp only [wp_bind, wp_ite, wp_throw]
  refine ⟨fun _ => trivial, fun _ => wp_target h.target ?_⟩
  rw [wp_onMem]
  refine wp_mono (pageAlloc_spec h.inv) ?_ (fun _ _ _ => trivial)
  rintro p _ ⟨rest, hfree, rfl⟩
  rw [wp_get, wp_onMem]
  refine wp_mono (insertFresh_spec h.inv h.child ph hfree (fun _ => 0) hva) ?_ (fun _ _ _ => trivial)
  intro _ m hn
  exact (wp_pure _).mpr ⟨m, p, rfl, hn⟩

theorem lookup_of_pte (hva : pdx va < pdx utop) (hp : m.pte d (pdx va) (ptx va) = some p) :
    ∃ y, m.lookup d va = some (p, y) := by
  obtain ⟨t, ht, -⟩ := Option.bind_eq_some_iff.mp hp
  exact ⟨_, (lookup_user hva).mpr ⟨t, rfl, ht, hp⟩⟩

theorem pdx_utemp : pdx utemp < pdx utop := by decide

theorem NewPage.held (hn : NewPage pool base sp e d va p g m m') (he : sp e = some d) :
    Held pool sp m' p := hn.inv.held_data he hn.pte hn.mem

theorem NewPage.count (hn : NewPage pool base sp e d va p g m m') (he : sp e = some d) :
    (m'.ppRef p).toNat ≤ 1 := by
  have hcount : (m'.ppRef p).toNat = ((m'.heap pool sp).fiber p).card := (hn.held he).counted
  have hone : ((m'.heap pool sp).fiber p).card ≤ 1 := by
    rw [Finset.card_le_one]
    simp only [Lib.Heap.mem_fiber, refs_some]
    intro r hr r' hr'
    exact (hn.sole r hr.1).trans (hn.sole r' hr'.1).symm
  rwa [hcount]

/-- The page at `va` in the child is mapped at `UTEMP` in the parent. -/
theorem spawnMap_spec {child : Word} (h : Spawns pool base k child c e) (ph : Elf.Phdr) {m₀ : Mem}
    (hva : va.toNat / 4096 < userPages)
    (hn : NewPage pool base k.vm.dirs e (k.envs e).envPgdir va p g m₀ k.mem) :
    wp (sysMemMap child va 0 utemp (ph.perm ||| pteD))
      (fun _ k' => ∃ m, k' = k.setMem m ∧
        Placed pool base k.vm.dirs (.pte c (pdx utemp) (ptx utemp)) (some p) k.mem m)
      (fun _ _ => True) k := by
  have hlt := h.inv.lt_two_pow hn.mem
  have hplain : ppn (pteWord p (ph.perm ||| pteD)) = p := by
    refine ppn_pteWord_low hlt ?_
    unfold Elf.Phdr.perm
    split
    · decide
    · decide
  have hcur : target k 0 true = some c := by
    unfold target
    rw [if_pos rfl, h.cur]
  obtain ⟨y, hlookup⟩ := lookup_of_pte (pdx_lt_userPages hva) hn.pte
  unfold sysMemMap
  simp only [wp_bind, wp_ite, wp_throw]
  refine ⟨fun _ => trivial, fun _ => wp_target h.target (wp_target hcur ?_)⟩
  simp only [wp_get, wp_onMem]
  refine wp_mono (pageLookup_spec _ _ _) ?_ (fun _ _ _ => trivial)
  rintro r m ⟨hm, rfl⟩
  rw [hlookup]
  subst hm
  simp only [wp_bind, wp_onMem]
  have hroom : (k.mem.ppRef p).toNat ≠ 65535 := by
    have := hn.count h.child
    omega
  refine wp_mono (pageInsert_placed h.inv h.parent pdx_utemp (hn.held h.child) hplain hroom) ?_
    (fun _ _ _ => trivial)
  intro _ m hpl
  exact (wp_pure _).mpr ⟨m, rfl, hpl⟩

theorem writable_exact (hva : pdx va < pdx utop) (hp : m.pte d (pdx va) (ptx va) = some p) :
    wp (writable d va) (fun r m' => m' = m ∧ (r = none ∨ r = some p)) (fun _ _ => True) m := by
  obtain ⟨y, hlookup⟩ := lookup_of_pte hva hp
  unfold writable
  rw [wp_bind]
  refine wp_mono (pageLookup_spec m d va) ?_ (fun _ _ _ => trivial)
  rintro r m₁ ⟨hm, rfl⟩
  subst hm
  rw [hlookup]
  simp only [wp_bind, wp_readPte]
  rw [wp_pure]
  refine ⟨rfl, ?_⟩
  split
  · exact Or.inr rfl
  · exact Or.inl rfl

theorem spawnUnmap_spec {child : Word} (h : Spawns pool base k child c e) :
    wp (sysMemUnmap 0 utemp) (fun _ k' => ∃ m, k' = k.setMem m ∧
      Placed pool base k.vm.dirs (.pte c (pdx utemp) (ptx utemp)) none k.mem m) (fun _ _ => True) k := by
  have hcur : target k 0 true = some c := by
    unfold target
    rw [if_pos rfl, h.cur]
  unfold sysMemUnmap
  simp only [wp_bind, wp_ite, wp_throw]
  refine ⟨fun _ => trivial, fun _ => wp_target hcur ?_⟩
  simp only [wp_get, wp_onMem]
  refine wp_mono (pageRemove_placed h.inv h.parent pdx_utemp) ?_ (fun _ _ _ => trivial)
  intro _ m hpl
  exact (wp_pure _).mpr ⟨m, rfl, hpl⟩

theorem utemp_offset (hoff : offset.toNat < 4096) :
    pdx (utemp + offset) = pdx utemp ∧ ptx (utemp + offset) = ptx utemp := by
  have hu : utemp.toNat = 1022 * 4096 := by decide
  have hadd : (utemp + offset).toNat = 1022 * 4096 + offset.toNat := by
    rw [BitVec.toNat_add, hu]
    omega
  refine ⟨Fin.ext ?_, Fin.ext ?_⟩
  · rw [pdx_val, pdx_val, hadd, hu]
    omega
  · rw [ptx_val, ptx_val, hadd, hu]
    omega

/-- The bytes go through `UTEMP` into the page that the child has got. -/
theorem spawnCopy_spec {child : Word} (h : Spawns pool base k child c e) {m₀ : Mem} {m₁ : Mem}
    (src : Bytes) (hoff : offset.toNat < 4096)
    (hn : NewPage pool base k.vm.dirs e (k.envs e).envPgdir va p (fun _ => 0) m₀ m₁)
    (hpl : Placed pool base k.vm.dirs (.pte c (pdx utemp) (ptx utemp)) (some p) m₁ k.mem) :
    wp (do
        match ← onMem (writable k.curPgdir (utemp + offset)) with
        | some f => onMem (memcpyFrame f offset src len)
        | none => throw .tlbMod
        let _ ← sysMemUnmap 0 utemp : K Unit)
      (fun _ k' => ∃ m, k' = k.setMem m ∧ MemInv pool base k.vm.dirs m ∧
        Shows va (filled (some src) offset len) (m₀.byteAt (k.envs e).envPgdir)
          (m.byteAt (k.envs e).envPgdir)) (fun _ _ => True) k := by
  obtain ⟨hi, hj⟩ := utemp_offset hoff
  have hpte : k.mem.pte k.curPgdir (pdx (utemp + offset)) (ptx (utemp + offset)) = some p := by
    rw [hi, hj, h.running, hpl.pte_self h.parent]
  simp only [wp_bind, wp_onMem]
  refine wp_mono (writable_exact (by rw [hi]; exact pdx_utemp) hpte) ?_ (fun _ _ _ => trivial)
  rintro r m ⟨rfl, rfl | rfl⟩
  · exact (wp_throw _).mpr trivial
  have hheld := hn.held h.child
  have hzero : ∀ j, k.mem.phys p j = 0 := fun j => by rw [hpl.held hn.inv hheld, hn.frame]
  have hparent : k.mem.pte (k.envs c).envPgdir (pdx utemp) (ptx utemp) = some p :=
    hpl.pte_self h.parent
  have hnot : ¬ k.mem.Walked k.vm.dirs p :=
    held_not_walked hpl.inv (hpl.inv.held_data h.parent hparent hn.mem)
  simp only [wp_bind, wp_onMem]
  refine wp_mono (memcpyFrame_spec k.mem p src hzero) ?_ (fun _ _ _ => trivial)
  rintro _ m₂ ⟨g, hm₂, hg⟩
  have hs : SameTables pool k.vm.dirs k.mem m₂ :=
    .page (g := g) hn.mem hnot (by rw [hm₂]) (by rw [hm₂])
  have hinv : MemInv pool base k.vm.dirs m₂ :=
    hpl.inv.congr hs (by rw [hm₂]) (by rw [hm₂])
  have hframe : m₂.phys p = g := by simp [hm₂]
  refine wp_mono (spawnUnmap_spec (h.setMem hinv)) ?_ (fun _ _ _ => trivial)
  rintro _ _ ⟨m₃, rfl, hun⟩
  refine (wp_pure _).mpr ⟨m₃, rfl, hun.inv, fun x hx => ?_⟩
  have hother : ∀ i j, Ref.pte c (pdx utemp) (ptx utemp) ≠ .pte e i j := fun i j hr =>
    h.other (Ref.pte.inj hr).1.symm
  have hsame : ∀ i j, m₂.pte (k.envs e).envPgdir i j = m₁.pte (k.envs e).envPgdir i j := by
    intro i j
    have hentry := hpl.entry e i j
    rw [Function.update_of_ne (hother i j).symm, ← refers_congr hs.walked] at hentry
    simpa [Mem.refers, h.child] using hentry
  have hpte₂ : m₂.pte (k.envs e).envPgdir (pdx va) (ptx va) = some p := (hsame _ _).trans hn.pte
  split
  case isTrue heq =>
    obtain ⟨hi, hj⟩ := (ix_eq_iff hx va).mpr heq
    have hentry := hun.entry e (pdx va) (ptx va)
    rw [Function.update_of_ne (hother _ _).symm] at hentry
    have hpte₃ : m₃.pte (k.envs e).envPgdir (pdx va) (ptx va) = some p := by
      rw [← hpte₂]
      simpa [Mem.refers, h.child] using hentry
    have hframe₃ : m₃.phys p = g :=
      (hun.held hinv (hinv.held_data h.child hpte₂ hn.mem)).trans hframe
    unfold Mem.byteAt
    rw [hi, hj, hpte₃, Option.map_some, hframe₃, hg _ (Nat.mod_lt _ (by decide))]
  case isFalse hne =>
    have hcopied : m₂.byteAt (k.envs e).envPgdir x = k.mem.byteAt (k.envs e).envPgdir x := by
      refine byteAt_congr ?_ fun q hq => ?_
      · rw [pte_eq, pte_eq, hs.mapped h.child]
      · have hqp : q ≠ p := by
          rintro rfl
          rw [pte_eq, ← hs.mapped h.child, ← pte_eq, hsame] at hq
          have href := hn.sole (.pte e _ _) (by simpa [Mem.refers, h.child] using hq)
          obtain ⟨-, hi, hj⟩ := Ref.pte.inj href
          exact hne ((ix_eq_iff hx va).mp ⟨hi, hj⟩)
        rw [hm₂]
        exact Function.update_of_ne hqp _ _
    rw [hun.byteAt hinv h.child hx (hother _ _), hcopied, hpl.byteAt hn.inv h.child hx (hother _ _),
      hn.shows x hx, if_neg hne]

theorem spawnMapper_spec {child : Word} (h : Spawns pool base k child c e) (ph : Elf.Phdr)
    (src : Option Bytes) (hva : va.toNat / 4096 < userPages) (hoff : offset.toNat < 4096) :
    wp (Elf.spawnMapper child va offset ph.perm src len)
      (fun _ k' => ∃ m, k' = k.setMem m ∧ MemInv pool base k.vm.dirs m ∧
        Shows va (filled src offset len) (k.mem.byteAt (k.envs e).envPgdir)
          (m.byteAt (k.envs e).envPgdir)) (fun _ _ => True) k := by
  unfold Elf.spawnMapper
  rw [wp_bind]
  refine wp_mono (spawnAlloc_spec h ph hva) ?_ (fun _ _ h => h)
  rintro _ _ ⟨m₁, p, rfl, hn⟩
  cases src with
  | none =>
    refine (wp_pure _).mpr ⟨m₁, rfl, hn.inv, hn.shows.congr fun i _ => ?_⟩
    rw [frameBytes_zero]
    rfl
  | some src =>
    have h₁ := h.setMem hn.inv
    rw [wp_bind, wp_cleanup]
    refine wp_mono (spawnMap_spec h₁ ph hva hn) ?_ ?_
    · rintro _ _ ⟨m₂, rfl, hpl⟩
      have h₂ := h₁.setMem hpl.inv
      rw [wp_bind, wp_get]
      exact spawnCopy_spec h₂ src hoff hn hpl
    · exact fun _ _ _ => ⟨fun _ => wp_mono (wp_trivial _) (fun _ _ _ => trivial) fun _ _ _ => trivial,
        fun _ => trivial⟩

end Mos
