import Mos.Fs.Serve

/-!
# The effects of the functions on blocks and files

They answer no client and leave the open file table alone, and no page leaves the cache.
-/

namespace Mos.Fs

open Lib (Bytes Proc Prog Effect within within_bind within_pure within_throw within_call within_get
  within_ite within_modify within_update within_mono)

/-- What is done to the pages of the cache and to the disk: a store, a page of zeros, a block that is
read or written, a dirty mark. -/
inductive Access where
  | store (mem : Bytes)
  | zero (blockno : Nat)
  | read (blockno : Nat)
  | write (blockno : Nat)
  | dirty (blockno : Nat)

def Server.access (s : Server) : Access → Server
  | .store mem => s.setMem mem
  | .zero b => s.mapZero b
  | .read b => s.ideRead b
  | .write b => s.ideWrite b
  | .dirty b => s.setDirty b

def Server.accessed (s : Server) (l : List Access) : Server := l.foldl Server.access s

theorem accessed_append (s : Server) (l l' : List Access) :
    s.accessed (l ++ l') = (s.accessed l).accessed l' := List.foldl_append ..

/-- What no function on blocks and files changes. -/
structure Kept (s s' : Server) : Prop where
  super : s'.super = s.super
  bitmap : s'.bitmap = s.bitmap
  opentab : s'.opentab = s.opentab
  mapped : ∀ {b}, s.mapped b = true → s'.mapped b = true

theorem Kept.refl (s : Server) : Kept s s := ⟨rfl, rfl, rfl, id⟩

theorem Kept.trans {s s' s'' : Server} (h : Kept s s') (h' : Kept s' s'') : Kept s s'' :=
  ⟨h'.super.trans h.super, h'.bitmap.trans h.bitmap, h'.opentab.trans h.opentab,
    fun hb => h'.mapped (h.mapped hb)⟩

theorem Kept.cached {s s' : Server} (h : Kept s s') {a : Nat} (ha : s.cached a = true) :
    s'.cached a = true := by
  unfold Server.cached at ha ⊢
  rw [Bool.and_eq_true] at ha ⊢
  exact ⟨ha.1, h.mapped ha.2⟩

theorem kept_setMem (s : Server) (mem : Bytes) : Kept s (s.setMem mem) := ⟨rfl, rfl, rfl, id⟩

theorem kept_mapZero (s : Server) (b : Nat) : Kept s (s.mapZero b) := by
  refine ⟨rfl, rfl, rfl, fun {x} hx => ?_⟩
  unfold Server.mapZero
  by_cases h : x = b
  · rw [h]
    exact Function.update_self ..
  · exact (Function.update_of_ne h ..).trans hx

theorem kept_ideRead (s : Server) (b : Nat) : Kept s (s.ideRead b) := ⟨rfl, rfl, rfl, id⟩

theorem kept_ideWrite (s : Server) (b : Nat) : Kept s (s.ideWrite b) := ⟨rfl, rfl, rfl, id⟩

theorem kept_setDirty (s : Server) (b : Nat) : Kept s (s.setDirty b) := ⟨rfl, rfl, rfl, id⟩

/-- A block is marked dirty only if `D`. -/
def MarksOnlyIf (D : Prop) (l : List Access) : Prop := ∀ b, .dirty b ∈ l → D

/-- All that is done are accesses. -/
structure Did (D : Prop) (s s' : Server) : Prop extends Kept s s' where
  accesses : ∃ l, s' = s.accessed l ∧ MarksOnlyIf D l

section

variable {D : Prop}

theorem MarksOnlyIf.nil : MarksOnlyIf D [] := fun _ h => absurd h List.not_mem_nil

theorem MarksOnlyIf.append {l l' : List Access} (h : MarksOnlyIf D l) (h' : MarksOnlyIf D l') :
    MarksOnlyIf D (l ++ l') :=
  fun b hb => (List.mem_append.mp hb).elim (h b) (h' b)

theorem Did.refl (s : Server) : Did D s s := ⟨.refl s, [], rfl, .nil⟩

theorem Did.trans {s s' s'' : Server} (h : Did D s s') (h' : Did D s' s'') : Did D s s'' := by
  obtain ⟨l, hl, hD⟩ := h.accesses
  obtain ⟨l', hl', hD'⟩ := h'.accesses
  refine ⟨h.toKept.trans h'.toKept, l ++ l', ?_, hD.append hD'⟩
  rw [accessed_append, ← hl, hl']

theorem Did.of_access {s : Server} (a : Access) (h : Kept s (s.access a))
    (hD : ∀ b, a = .dirty b → D) : Did D s (s.access a) :=
  ⟨h, [a], rfl, fun b hb => hD b (List.mem_singleton.mp hb).symm⟩

theorem did_setMem (s : Server) (mem : Bytes) : Did D s (s.setMem mem) :=
  .of_access (.store mem) (kept_setMem s mem) fun _ h => by cases h

theorem did_mapZero (s : Server) (b : Nat) : Did D s (s.mapZero b) :=
  .of_access (.zero b) (kept_mapZero s b) fun _ h => by cases h

theorem did_ideRead (s : Server) (b : Nat) : Did D s (s.ideRead b) :=
  .of_access (.read b) (kept_ideRead s b) fun _ h => by cases h

theorem did_ideWrite (s : Server) (b : Nat) : Did D s (s.ideWrite b) :=
  .of_access (.write b) (kept_ideWrite s b) fun _ h => by cases h

theorem did_setDirty (s : Server) (b : Nat) : Did True s (s.setDirty b) :=
  .of_access (.dirty b) (kept_setDirty s b) fun _ _ => trivial

end

/-- The calls of the functions on blocks and files, with marks in `K`. Memory can only run out. A
block is marked dirty only if `D`. -/
def quiet (K : Mark → Prop) (D : Prop) : Effect Call Reply Server where
  calls
    | .mark m _ => K m
    | .memAlloc _ => True
    | .pageref _ | .ipcSend .. => False
  answers
    | .memAlloc _, r => r = .ok () ∨ r = .error .noMem
    | .mark .., _ | .pageref _, _ | .ipcSend .., _ => True
  rel := Did D
  refl := Did.refl
  trans := Did.trans

/-- The file that a mark is about. -/
def Mark.file : Mark → Nat
  | .gives f _ _ | .clears f _ | .sizes f _ | .creates f _ | .unnames f | .truncates f _ | .flushes f => f

def Any {α : Type} (_ : α) : Prop := True

/-- The result does not say that an argument is wrong. -/
def NotInval {α : Type} (r : Except Err α) : Prop := r ≠ .error .inval

theorem notInval_ok {α : Type} (a : α) : NotInval (.ok a : Except Err α) := by
  unfold NotInval
  simp

theorem notInval_error {α : Type} {e : Err} (h : e ≠ .inval) :
    NotInval (.error e : Except Err α) := by
  unfold NotInval
  simpa using h

theorem NotInval.error {α β : Type} {e : Err} (h : NotInval (.error e : Except Err α)) :
    NotInval (.error e : Except Err β) := by
  unfold NotInval at h ⊢
  simpa using h

section

variable {K : Mark → Prop} {D : Prop}

/-! ## Memory -/

theorem within_loadWord (va : Nat) : within (quiet K D) (loadWord va) Any := by
  unfold loadWord
  apply within_bind (P := Any) (within_get fun _ => trivial)
  intro s _
  exact within_ite (fun _ => within_pure trivial) fun _ => within_throw _

theorem within_storeWord (va v : Nat) : within (quiet K D) (storeWord va v) Any := by
  unfold storeWord
  apply within_update
  intro s
  split
  · exact ⟨did_setMem s _, fun _ _ => trivial⟩
  · exact ⟨Did.refl s, fun _ _ => trivial⟩

theorem within_storeList (va : Nat) (l : List UInt8) : within (quiet K D) (storeList va l) Any := by
  unfold storeList
  apply within_update
  intro s
  split
  · exact ⟨did_setMem s _, fun _ _ => trivial⟩
  · exact ⟨Did.refl s, fun _ _ => trivial⟩

theorem within_mark {m : Mark} (hK : K m) : within (quiet K D) (mark m) Any := by
  unfold mark
  apply within_bind (P := Any) (within_get fun _ => trivial)
  intro s _
  exact within_call hK fun _ _ => trivial

/-! ## Blocks -/

theorem within_dirtyBlock (b : Nat) : within (quiet K True) (dirtyBlock b) NotInval := by
  unfold dirtyBlock
  apply within_update
  intro s
  split
  · exact ⟨Did.refl s, fun r hr => by cases hr; exact notInval_error (by decide)⟩
  · split
    · exact ⟨Did.refl s, fun r hr => by cases hr; exact notInval_ok _⟩
    · exact ⟨did_setDirty s b, fun r hr => by cases hr; exact notInval_ok _⟩

theorem within_writeBlock (b : Nat) : within (quiet K D) (writeBlock b) Any := by
  unfold writeBlock
  apply within_update
  intro s
  split
  · exact ⟨did_ideWrite s b, fun _ _ => trivial⟩
  · exact ⟨Did.refl s, fun _ _ => trivial⟩

theorem within_nblocks : within (quiet K D) nblocks Any := by
  unfold nblocks
  apply within_bind (P := Any) (within_get fun _ => trivial)
  exact fun s _ => within_loadWord _

theorem within_loadBit (b : Nat) : within (quiet K D) (loadBit b) Any := by
  unfold loadBit
  apply within_bind (P := Any) (within_get fun _ => trivial)
  intro s _
  apply within_bind (within_loadWord _)
  exact fun _ _ => within_pure trivial

theorem within_blockIsFree (b : Nat) : within (quiet K D) (blockIsFree b) Any := by
  unfold blockIsFree
  apply within_bind (P := Any) (within_get fun _ => trivial)
  intro s _
  apply within_ite (fun _ => within_pure trivial)
  intro _
  apply within_bind within_nblocks
  exact fun n _ => within_ite (fun _ => within_pure trivial) fun _ => within_loadBit b

theorem within_setBit (b : Nat) : within (quiet K D) (setBit b) Any := by
  unfold setBit
  apply within_bind (P := Any) (within_get fun _ => trivial)
  intro s _
  apply within_bind (within_loadWord _)
  exact fun _ _ => within_storeWord _ _

theorem within_clearBit (b : Nat) : within (quiet K D) (clearBit b) Any := by
  unfold clearBit
  apply within_bind (P := Any) (within_get fun _ => trivial)
  intro s _
  apply within_bind (within_loadWord _)
  exact fun _ _ => within_storeWord _ _

theorem within_isNonexistent (b : Nat) : within (quiet K D) (isNonexistent b) Any := by
  unfold isNonexistent
  apply within_bind (P := Any) (within_get fun _ => trivial)
  intro s _
  apply within_ite (fun _ => within_pure trivial)
  intro _
  apply within_bind within_nblocks
  exact fun _ _ => within_pure trivial

theorem within_isKnownFree (b : Nat) : within (quiet K D) (isKnownFree b) Any := by
  unfold isKnownFree
  apply within_bind (P := Any) (within_get fun _ => trivial)
  intro s _
  exact within_ite (fun _ => within_pure trivial) fun _ => within_blockIsFree b

theorem within_memAlloc (va : Nat) :
    within (quiet K D) (call (.memAlloc va)) fun r => r = .ok () ∨ r = .error .noMem :=
  within_call trivial fun _ => id

theorem within_loadBlock (b : Nat) : within (quiet K D) (loadBlock b) NotInval := by
  unfold loadBlock
  apply within_bind (P := Any) (within_get fun _ => trivial)
  intro s _
  apply within_ite (fun _ => within_pure (notInval_ok _))
  intro _
  apply within_bind (within_memAlloc _)
  rintro _ (rfl | rfl)
  · apply within_bind (within_modify (Q := Any) (fun s => ?_) trivial)
    · exact fun _ _ => within_pure (notInval_ok _)
    · exact (did_mapZero s b).trans (did_ideRead _ b)
  · exact within_pure (notInval_error (by decide))

theorem within_readBlock (b : Nat) : within (quiet K D) (readBlock b) NotInval := by
  unfold readBlock
  apply within_bind (within_isNonexistent b)
  intro r _
  apply within_ite (fun _ => within_throw _)
  intro _
  apply within_bind (within_isKnownFree b)
  intro r' _
  exact within_ite (fun _ => within_throw _) fun _ => within_loadBlock b

theorem within_mapBlock (b : Nat) : within (quiet K D) (mapBlock b) NotInval := by
  unfold mapBlock
  apply within_bind (P := Any) (within_get fun _ => trivial)
  intro s _
  apply within_ite (fun _ => within_pure (notInval_ok _))
  intro _
  apply within_bind (within_memAlloc _)
  rintro _ (rfl | rfl)
  · apply within_bind (within_modify (Q := Any) (fun s => did_mapZero s b) trivial)
    exact fun _ _ => within_pure (notInval_ok _)
  · exact within_pure (notInval_error (by decide))

theorem within_freeBlock (b : Nat) : within (quiet K D) (freeBlock b) Any := by
  unfold freeBlock
  apply within_bind within_nblocks
  exact fun n _ => within_ite (fun _ => within_pure trivial) fun _ => within_setBit b

theorem within_allocFrom (n b : Nat) : within (quiet K D) (allocFrom n b) NotInval := by
  induction n generalizing b with
  | zero => exact within_pure (notInval_error (by decide))
  | succ n ih =>
    unfold allocFrom
    apply within_bind (within_loadBit b)
    intro r _
    apply within_ite
    · intro _
      apply within_bind (within_clearBit b)
      intro _ _
      apply within_bind (within_writeBlock _)
      exact fun _ _ => within_pure (notInval_ok _)
    · exact fun _ => ih (b + 1)

theorem within_allocBlock : within (quiet K D) allocBlock NotInval := by
  unfold allocBlock allocBlockNum
  apply within_bind (P := NotInval)
  · apply within_bind within_nblocks
    exact fun n _ => within_allocFrom _ _
  rintro (e | b) he
  · exact within_pure he.error
  · apply within_bind (within_mapBlock b)
    rintro (e | u) he
    · apply within_bind (within_freeBlock b)
      exact fun _ _ => within_pure he.error
    · exact within_pure (notInval_ok _)

/-! ## Blocks of a file -/

theorem within_indirectBlock {f : Nat} {alloc : Bool}
    (hK : alloc = true → ∀ m, m.file = f → K m) :
    within (quiet K D) (indirectBlock f alloc) NotInval := by
  unfold indirectBlock
  apply within_bind (within_loadWord _)
  intro b _
  apply within_ite
  · intro _
    apply within_ite (fun _ => within_pure (notInval_error (by decide)))
    intro ha
    apply within_bind within_allocBlock
    rintro (e | r) he
    · exact within_pure he.error
    · apply within_bind (within_mark (hK (by simpa using ha) _ rfl))
      intro _ _
      apply within_bind (within_storeWord _ _)
      exact fun _ _ => within_pure (notInval_ok _)
  · exact fun _ => within_pure (notInval_ok _)

/-- The number of the block is wrong if and only if there is no index for it. -/
theorem within_fileBlockWalk {f i : Nat} {alloc : Bool} (hK : alloc = true → ∀ m, m.file = f → K m) :
    within (quiet K D) (fileBlockWalk f i alloc) fun r => i < NINDIRECT → NotInval r := by
  unfold fileBlockWalk
  apply within_ite (fun _ => within_pure fun _ => notInval_ok _)
  intro _
  apply within_ite
  · intro _
    apply within_bind (within_indirectBlock hK)
    rintro (e | u) he
    · exact within_pure fun _ => he.error
    · apply within_bind (within_loadWord _)
      intro b _
      apply within_bind (within_readBlock b)
      rintro (e | u) he
      · exact within_pure fun _ => he.error
      · exact within_pure fun _ => notInval_ok _
  · exact fun h => within_pure fun hi => absurd hi h

theorem within_fileMapBlock {f i : Nat} {alloc : Bool} (hK : alloc = true → ∀ m, m.file = f → K m) :
    within (quiet K D) (fileMapBlock f i alloc) fun r => i < NINDIRECT → NotInval r := by
  unfold fileMapBlock
  apply within_bind (within_fileBlockWalk hK)
  rintro (e | ptr) he
  · exact within_pure fun hi => (he hi).error
  · apply within_bind (within_loadWord _)
    intro b _
    apply within_ite
    · intro _
      apply within_ite (fun _ => within_pure fun _ => notInval_error (by decide))
      intro ha
      apply within_bind within_allocBlock
      rintro (e | r) he
      · exact within_pure fun _ => he.error
      · apply within_bind (within_mark (hK (by simpa using ha) _ rfl))
        intro _ _
        apply within_bind (within_storeWord _ _)
        exact fun _ _ => within_pure fun _ => notInval_ok _
    · exact fun _ => within_pure fun _ => notInval_ok _

theorem within_fileClearBlock {f : Nat} (hK : ∀ m, m.file = f → K m) (i : Nat) :
    within (quiet K D) (fileClearBlock f i) Any := by
  unfold fileClearBlock
  apply within_bind (within_fileBlockWalk nofun)
  rintro (e | ptr) _
  · exact within_pure trivial
  · apply within_bind (within_loadWord _)
    intro b _
    apply within_ite (fun _ => within_pure trivial)
    intro _
    apply within_bind (within_mark (hK _ rfl))
    intro _ _
    apply within_bind (within_freeBlock _)
    intro _ _
    apply within_bind (within_storeWord _ _)
    exact fun _ _ => within_pure trivial

theorem within_fileGetBlock {f : Nat} (hK : ∀ m, m.file = f → K m) (i : Nat) :
    within (quiet K D) (fileGetBlock f i) fun r => i < NINDIRECT → NotInval r := by
  unfold fileGetBlock
  apply within_bind (within_fileMapBlock fun _ => hK)
  rintro (e | b) he
  · exact within_pure fun hi => (he hi).error
  · exact within_mono (within_readBlock b) fun _ h _ => h

theorem within_fileDirty (f offset : Nat) :
    within (quiet K True) (fileDirty f offset) fun r => offset / BLOCK_SIZE < NINDIRECT → NotInval r := by
  unfold fileDirty
  apply within_bind (within_fileMapBlock nofun)
  rintro (e | b) he
  · exact within_pure fun hi => (he hi).error
  · exact within_mono (within_dirtyBlock b) fun _ h _ => h

/-! ## Directories and paths -/

theorem within_lookupFrom {dir : Nat} (hK : ∀ m, m.file = dir → K m) (name : Name) (n i : Nat) :
    within (quiet K D) (lookupFrom dir name n i) Any := by
  induction n generalizing i with
  | zero => exact within_pure trivial
  | succ n ih =>
    unfold lookupFrom
    apply within_bind (within_fileGetBlock hK i)
    rintro (e | blk) _
    · exact within_pure trivial
    · apply within_bind (P := Any) (within_get fun _ => trivial)
      intro s _
      cases s.fileNamed blk name with
      | some f =>
        apply within_bind (within_storeWord _ _)
        exact fun _ _ => within_pure trivial
      | none => exact ih (i + 1)

theorem within_dirLookup {dir : Nat} (hK : ∀ m, m.file = dir → K m) (name : Name) :
    within (quiet K D) (dirLookup dir name) Any := by
  unfold dirLookup
  apply within_bind (within_loadWord _)
  exact fun _ _ => within_lookupFrom hK ..

theorem within_setSize {f : Nat} (hK : ∀ m, m.file = f → K m) (size : Nat) :
    within (quiet K D) (setSize f size) Any := by
  unfold setSize
  apply within_bind (within_mark (hK _ rfl))
  exact fun _ _ => within_storeWord _ _

theorem within_growDir {dir : Nat} (hK : ∀ m, m.file = dir → K m) (i : Nat) :
    within (quiet K D) (growDir dir i) Any := by
  unfold growDir
  apply within_bind (within_loadWord _)
  intro n _
  apply within_bind (within_setSize hK _)
  exact fun _ _ => within_mono (within_fileGetBlock hK i) fun _ _ => trivial

theorem within_allocFileFrom {dir : Nat} (hK : ∀ m, m.file = dir → K m) (n i : Nat) :
    within (quiet K D) (allocFileFrom dir n i) Any := by
  induction n generalizing i with
  | zero => exact within_growDir hK i
  | succ n ih =>
    unfold allocFileFrom
    apply within_bind (within_fileGetBlock hK i)
    rintro (e | blk) _
    · exact within_pure trivial
    · apply within_bind (P := Any) (within_get fun _ => trivial)
      intro s _
      cases s.freeFile blk with
      | some f => exact within_pure trivial
      | none => exact ih (i + 1)

theorem within_dirAllocFile {dir : Nat} (hK : ∀ m, m.file = dir → K m) :
    within (quiet K D) (dirAllocFile dir) Any := by
  unfold dirAllocFile
  apply within_bind (within_loadWord _)
  exact fun _ _ => within_allocFileFrom hK ..

theorem within_walkFrom (hK : ∀ m, K m) (n : Nat) (path : Name) (dir file : Nat) :
    within (quiet K D) (walkFrom n path dir file) Any := by
  induction n generalizing path dir file with
  | zero => exact within_throw _
  | succ n ih =>
    unfold walkFrom
    apply within_ite (fun _ => within_pure trivial)
    intro _
    apply within_ite (fun _ => within_pure trivial)
    intro _
    apply within_bind (within_loadWord _)
    intro ty _
    apply within_ite (fun _ => within_pure trivial)
    intro _
    apply within_bind (within_dirLookup (fun m _ => hK m) _)
    rintro (e | f) _
    · exact within_pure trivial
    · exact ih ..

theorem within_walkPath (hK : ∀ m, K m) (path : Name) : within (quiet K D) (walkPath path) Any := by
  unfold walkPath
  apply within_bind (P := Any) (within_get fun _ => trivial)
  exact fun _ _ => within_walkFrom hK ..

theorem within_fileOpen (hK : ∀ m, K m) (path : Name) : within (quiet K D) (fileOpen path) Any := by
  unfold fileOpen
  apply within_bind (within_walkPath hK path)
  rintro (⟨d, f⟩ | ⟨d, name⟩ | e) _ <;> exact within_pure trivial

theorem within_fillFile {f : Nat} (hK : ∀ m, m.file = f → K m) (mode : Nat) (name : Name) :
    within (quiet K D) (fillFile f mode name) Any := by
  unfold fillFile
  apply within_bind (within_mark (hK _ rfl))
  intro _ _
  apply within_bind (within_storeWord _ _)
  exact fun _ _ => within_storeList _ _

theorem within_fileCreate (hK : ∀ m, K m) (mode : Nat) (path : Name) :
    within (quiet K D) (fileCreate mode path) Any := by
  unfold fileCreate
  apply within_bind (within_walkPath hK path)
  rintro (⟨d, f⟩ | ⟨d, name⟩ | e) _
  · exact within_pure trivial
  · apply within_bind (within_dirAllocFile fun m _ => hK m)
    rintro (e | f) _
    · exact within_pure trivial
    · apply within_bind (within_fillFile (fun m _ => hK m) ..)
      exact fun _ _ => within_pure trivial
  · exact within_pure trivial

/-! ## Sizes -/

theorem within_clearOrPanic {f : Nat} (hK : ∀ m, m.file = f → K m) (i : Nat) :
    within (quiet K D) (clearOrPanic f i) Any := by
  unfold clearOrPanic
  apply within_bind (within_fileClearBlock hK i)
  rintro (e | u) _
  · exact within_throw _
  · exact within_pure trivial

theorem within_clearBlocks {f : Nat} (hK : ∀ m, m.file = f → K m) (n i : Nat) :
    within (quiet K D) (clearBlocks f n i) Any := by
  induction n generalizing i with
  | zero => exact within_pure trivial
  | succ n ih =>
    unfold clearBlocks
    apply within_bind (within_clearOrPanic hK i)
    exact fun _ _ => ih (i + 1)

theorem within_freeIndirect {f : Nat} (hK : ∀ m, m.file = f → K m) :
    within (quiet K D) (freeIndirect f) Any := by
  unfold freeIndirect
  apply within_bind (within_loadWord _)
  intro b _
  apply within_ite (fun _ => within_pure trivial)
  intro _
  apply within_bind (within_mark (hK _ rfl))
  intro _ _
  apply within_bind (within_freeBlock b)
  exact fun _ _ => within_storeWord _ _

theorem within_fileTruncate {f : Nat} (hK : ∀ m, m.file = f → K m) (size : Nat) :
    within (quiet K D) (fileTruncate f size) Any := by
  unfold fileTruncate
  apply within_bind (within_mark (hK _ rfl))
  intro _ _
  apply within_bind (within_loadWord _)
  intro old _
  apply within_bind (within_clearBlocks hK ..)
  intro _ _
  apply within_ite
  · intro _
    apply within_bind (within_freeIndirect hK)
    exact fun _ _ => within_setSize hK size
  · exact fun _ => within_setSize hK size

theorem within_flushBlock (f i : Nat) : within (quiet K D) (flushBlock f i) Any := by
  unfold flushBlock
  apply within_bind (within_fileMapBlock nofun)
  rintro (e | b) _
  · exact within_pure trivial
  · apply within_bind (P := Any) (within_get fun _ => trivial)
    intro s _
    exact within_ite (fun _ => within_writeBlock b) fun _ => within_pure trivial

theorem within_flushFrom (f n i : Nat) : within (quiet K D) (flushFrom f n i) Any := by
  induction n generalizing i with
  | zero => exact within_pure trivial
  | succ n ih =>
    unfold flushFrom
    apply within_bind (within_flushBlock f i)
    exact fun _ _ => ih (i + 1)

theorem within_fileFlush (f : Nat) : within (quiet K D) (fileFlush f) Any := by
  unfold fileFlush
  apply within_bind (within_loadWord _)
  exact fun _ _ => within_flushFrom ..

theorem within_flushDir (hF : ∀ d, K (.flushes d)) (f : Nat) : within (quiet K D) (flushDir f) Any := by
  unfold flushDir
  apply within_bind (within_loadWord _)
  intro d _
  apply within_ite (fun _ => within_pure trivial)
  intro _
  apply within_bind (within_mark (hF d))
  exact fun _ _ => within_fileFlush d

theorem within_fileSetSize {f : Nat} (hK : ∀ m, m.file = f → K m) (hF : ∀ d, K (.flushes d))
    (size : Nat) : within (quiet K D) (fileSetSize f size) Any := by
  unfold fileSetSize shrinkFile
  apply within_bind (P := Any)
  · apply within_bind (within_loadWord _)
    intro n _
    exact within_ite (fun _ => within_fileTruncate hK size) fun _ => within_pure trivial
  · intro _ _
    apply within_bind (within_setSize hK size)
    exact fun _ _ => within_flushDir hF f

theorem within_syncFrom (n i : Nat) : within (quiet K D) (syncFrom n i) Any := by
  induction n generalizing i with
  | zero => exact within_pure trivial
  | succ n ih =>
    unfold syncFrom
    apply within_bind (P := Any) (within_get fun _ => trivial)
    intro s _
    apply within_ite
    · intro _
      apply within_bind (within_writeBlock i)
      exact fun _ _ => ih (i + 1)
    · exact fun _ => ih (i + 1)

theorem within_fsSync : within (quiet K D) fsSync Any := by
  unfold fsSync
  apply within_bind within_nblocks
  exact fun _ _ => within_syncFrom ..

theorem within_fileClose (hF : ∀ d, K (.flushes d)) (f : Nat) : within (quiet K D) (fileClose f) Any := by
  unfold fileClose
  apply within_bind (within_fileFlush f)
  exact fun _ _ => within_flushDir hF f

theorem within_removeFile {f : Nat} (hK : ∀ m, m.file = f → K m) (hF : ∀ d, K (.flushes d)) :
    within (quiet K D) (removeFile f) Any := by
  unfold removeFile
  apply within_bind (within_fileTruncate hK 0)
  intro _ _
  apply within_bind (within_mark (hK _ rfl))
  intro _ _
  apply within_bind (within_storeList _ _)
  intro _ _
  apply within_bind (within_fileFlush f)
  exact fun _ _ => within_flushDir hF f

theorem within_fileRemove (hK : ∀ m, K m) (path : Name) (type : Nat) :
    within (quiet K D) (fileRemove path type) Any := by
  unfold fileRemove
  apply within_bind (within_walkPath hK path)
  rintro (⟨d, f⟩ | ⟨d, name⟩ | e) _
  · apply within_bind (within_loadWord _)
    intro ty _
    apply within_ite (fun _ => within_pure trivial)
    intro _
    apply within_bind (within_removeFile (fun m _ => hK m) fun d => hK _)
    exact fun _ _ => within_pure trivial
  · exact within_pure trivial
  · exact within_pure trivial

end

end Mos.Fs
