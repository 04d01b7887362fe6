import Mos.Kern.State

/-!
# Physical pages and page tables (`pmap.c`, `tlbex.c`)

A pointer to a `struct Page` is the number of the page, a pointer to a page
directory is the number of its frame, and a `Pte *` is a frame with an index.
-/

namespace Mos

/-- Where a page table entry lies. -/
abbrev PtePtr := Nat × WordIx

/-! ## Addresses -/

/-- `KADDR`: the frame behind a physical address. -/
def kaddr (pa : Word) : M Nat := do
  if (← get).npage ≤ ppn pa then throw (.panic "KADDR called with invalid pa")
  pure (ppn pa)

def pa2page (pa : Word) : M Nat := do
  if (← get).npage ≤ ppn pa then throw (.panic "pa2page called with invalid pa")
  pure (ppn pa)

def readPte (p : PtePtr) : M Word := do
  pure ((← get).phys p.1 p.2)

def writePte (p : PtePtr) (w : Word) : M Unit := modify fun m => m.store p.1 p.2 w

/-- `panic_on(expr)`: an error code is fatal. -/
def panicOn {α : Type} (msg : String) (x : M α) : M α := Lib.mapStop
  (fun e => match e with
    | .errno _ => .panic msg
    | e => e) x

/-! ## The TLB -/

def TlbEntry.global (t : TlbEntry) : Bool := t.lo0 &&& t.lo1 &&& 1 != 0

/-- The virtual page pair and the ASID of EntryHi. -/
def TlbEntry.matches (t : TlbEntry) (entryhi : Word) : Bool :=
  t.hi >>> 13 == entryhi >>> 13 && (t.global || t.hi &&& 0xFF == entryhi &&& 0xFF)

/-- `tlb_out` -/
def tlbOut (entryhi : Word) : M Unit := modify fun m =>
  { m with tlb := m.tlb.filter fun t => !t.matches entryhi }

def entryHi (asid : Nat) (va : Word) : Word :=
  (va &&& ~~~0x1FFF) ||| (BitVec.ofNat 32 asid &&& 0xFF)

def tlbInvalidate (asid : Nat) (va : Word) : M Unit := tlbOut (entryHi asid va)

/-! ## Pages -/

def pageAlloc : M Nat := do
  match (← get).pageFreeList with
  | [] => throw (.errno .noMem)
  | pp :: rest =>
    modify fun m => { m with pageFreeList := rest }
    let kva ← kaddr (page2pa pp)
    modify fun m => { m with phys := Function.update m.phys kva fun _ => 0 }
    pure pp

def pageFree (pp : Nat) : M Unit := do
  if (← get).ppRef pp ≠ 0 then throw (.panic "assertion failed: pp->pp_ref == 0")
  modify fun m => { m with pageFreeList := pp :: m.pageFreeList }

def pageDecref (pp : Nat) : M Unit := do
  if (← get).ppRef pp = 0 then throw (.panic "assertion failed: pp->pp_ref > 0")
  modify fun m => m.setRef pp (m.ppRef pp - 1)
  if (← get).ppRef pp = 0 then pageFree pp

/-! ## Page tables -/

/-- Step 3 of `pgdir_walk`. -/
def pteOf (pgdir : Nat) (va : Word) : M (Option PtePtr) := do
  let pt ← kaddr (pteAddr (← readPte (pgdir, pdx va)))
  pure (some (pt, ptx va))

def pgdirWalk (pgdir : Nat) (va : Word) (create : Bool) : M (Option PtePtr) := do
  if pteValid (← readPte (pgdir, pdx va)) then
    pteOf pgdir va
  else if create then
    let pp ← pageAlloc
    modify fun m => m.setRef pp 1
    writePte (pgdir, pdx va) (page2pa pp ||| pteV ||| pteCCacheable)
    pteOf pgdir va
  else
    pure none

def pageLookup (pgdir : Nat) (va : Word) : M (Option (Nat × PtePtr)) := do
  match ← pgdirWalk pgdir va false with
  | none => pure none
  | some pte =>
    let w ← readPte pte
    if pteValid w then
      let pp ← pa2page w
      pure (some (pp, pte))
    else
      pure none

def pageRemove (pgdir asid : Nat) (va : Word) : M Unit := do
  match ← pageLookup pgdir va with
  | none => pure ()
  | some (pp, pte) =>
    pageDecref pp
    writePte pte 0
    tlbInvalidate asid va

/-- Steps 2 to 4 of `page_insert`. -/
def pageInsertNew (pgdir asid pp : Nat) (va perm : Word) : M Unit := do
  tlbInvalidate asid va
  match ← pgdirWalk pgdir va true with
  | none => throw nullPointer
  | some pte =>
    modify fun m => m.setRef pp (m.ppRef pp + 1)
    writePte pte (pteWord pp perm)

def pageInsert (pgdir asid pp : Nat) (va perm : Word) : M Unit := do
  match ← pgdirWalk pgdir va false with
  | none => pageInsertNew pgdir asid pp va perm
  | some pte =>
    let w ← readPte pte
    if pteValid w then
      if (← pa2page w) ≠ pp then
        pageRemove pgdir asid va
        pageInsertNew pgdir asid pp va perm
      else
        tlbInvalidate asid va
        writePte pte (pteWord pp perm)
    else
      pageInsertNew pgdir asid pp va perm

/-! ## Page faults -/

/-- The entry that `passive_alloc` asks for: the pages under `UVPT` are read-only. -/
def passivePerm (va : Word) : Word := if uvpt ≤ va ∧ va < ulim then 0 else pteD

def passiveAlloc (va : Word) (pgdir asid : Nat) : M Unit := do
  if va < utemp then throw (.panic "address too low")
  if ustacktop ≤ va ∧ va < ustacktop + pageSize then throw (.panic "invalid memory")
  if uenvs ≤ va ∧ va < upages then throw (.panic "envs zone")
  if upages ≤ va ∧ va < uvpt then throw (.panic "pages zone")
  if ulim ≤ va then throw (.panic "kernel address")
  let p ← panicOn "'page_alloc(&p)' returned" pageAlloc
  panicOn "'page_insert(...)' returned" (pageInsert pgdir asid p (pteAddr va) (passivePerm va))

/-- The `while` of `_do_tlb_refill`, with a bound on its turns. -/
def refillLoop (pgdir asid : Nat) (va : Word) : Nat → M PtePtr
  | 0 => throw .wild
  | n + 1 => do
    match ← pageLookup pgdir va with
    | some (_, pte) => pure pte
    | none =>
      passiveAlloc va pgdir asid
      refillLoop pgdir asid va n

/-- `do_tlb_refill`, with the entry written by `tlbwr`: the aligned pair of entries
around the one of `va`. The loop turns at most once, so two turns bound it. -/
def doTlbRefill (pgdir : Nat) (va : Word) (asid : Nat) : M Unit := do
  tlbInvalidate asid va
  let (pt, i) ← refillLoop pgdir asid va 2
  let even : WordIx := ⟨i.val / 2 * 2, by omega⟩
  let odd : WordIx := ⟨i.val / 2 * 2 + 1, by omega⟩
  let lo0 ← readPte (pt, even)
  let lo1 ← readPte (pt, odd)
  modify fun m => { m with tlb := ⟨entryHi asid va, lo0 >>> 6, lo1 >>> 6⟩ :: m.tlb }

/-- The frame behind `va` if a store to it goes through. -/
def writable (pgdir : Nat) (va : Word) : M (Option Nat) := do
  match ← pageLookup pgdir va with
  | none => pure none
  | some (pp, pte) =>
    let w ← readPte pte
    pure (if w &&& pteD != 0 then some pp else none)

/-- The index of the word that holds `va` in its page. -/
def wordIx (va : Word) : WordIx := Fin.ofNat 1024 (va >>> 2).toNat

end Mos
