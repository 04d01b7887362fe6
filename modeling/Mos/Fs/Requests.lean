import Mos.Fs.Changes
import Mos.Fs.Resize

/-!
# Any requests, in any order

The tree of files is in order after every request, and clients may write to their files in
between. A request on an open file keeps the other files.
-/

namespace Mos.Fs

open Lib (Bytes Cond provided)
open Lib.Proc (Trace World)

/-! ## The open file table -/

/-- The files that are open. -/
def Server.inUse (s : Server) : Set Nat := {f | f ≠ 0 ∧ ∃ i, s.fileOf i = f}

section

variable {n : Nat} {Z : Set Nat} {s s' : Server}

theorem opentab_setOpen (i j : Nat) (o : Open) :
    (s.setOpen i o).opentab j = if j = i then o else s.opentab j := Function.update_apply ..

theorem fileOf_setOpen (i j : Nat) (o : Open) :
    (s.setOpen i o).fileOf j = if j = i then o.o_file else s.fileOf j := by
  unfold Server.fileOf
  rw [opentab_setOpen]
  split
  · rfl
  · rfl

theorem Tree.setOpen (hs : Tree n Z s) {i : Nat} {o : Open}
    (ho : o.o_file ≠ 0 → s.cached o.o_file = true) : Tree n Z (s.setOpen i o) where
  super := hs.super
  bitmap := hs.bitmap
  one := hs.one
  bits := hs.bits
  files := by
    intro j hj
    rw [opentab_setOpen] at hj ⊢
    split
    · rename_i hij
      rw [if_pos hij] at hj
      exact ho hj
    · rename_i hij
      rw [if_neg hij] at hj
      exact hs.files j hj
  sound := hs.sound
  links := hs.links

theorem Tree.setOpen_file (hs : Tree n Z s) (i : Nat) {o : Open} (ho : o.o_file = s.fileOf i) :
    Tree n Z (s.setOpen i o) ∧ ∀ j, (s.setOpen i o).fileOf j = s.fileOf j := by
  refine ⟨hs.setOpen fun hne => ?_, fun j => ?_⟩
  · rw [ho] at hne ⊢
    exact hs.files i hne
  · rw [fileOf_setOpen]
    split
    · rename_i hij
      rw [hij, ho]
    · rfl

theorem inUse_congr (h : ∀ j, s'.fileOf j = s.fileOf j) : s'.inUse = s.inUse := by
  unfold Server.inUse
  simp only [h]

theorem Kept.fileOf (h : Kept s s') (j : Nat) : s'.fileOf j = s.fileOf j := by
  unfold Server.fileOf
  rw [h.opentab]

theorem Kept.tree (h : Kept s s') (hs' : Tree n s.inUse s') : Tree n s'.inUse s' := by
  rw [inUse_congr h.fileOf]
  exact hs'

end

/-! ## Requests -/

/-- What a request must find in order: the blocks that are given, the places of new directories, the
directories that are flushed. A page that a client has is that of an entry with a file. -/
def Tidy (s : Server) : (c : Call) → Reply c → Prop
  | .mark (.gives f u b) c, _ => Fits s.inUse f u b c
  | .mark (.creates f mode) c, _ => mode = O_MKDIR → ∀ i, heldBlock c f (.block i) = 0
  | .mark (.flushes d) c, _ => IsFile c s.inUse d
  | .pageref i, r => 1 < r → s.fileOf i ≠ 0
  | .mark .., _ | .memAlloc _, _ | .ipcSend .., _ => True

def tidy (s : Server) : Cond Call Reply where
  Holds t := ∀ e ∈ t, Tidy s e.1 e.2
  closed h e he := h e (List.mem_append_left _ he)

theorem tidy_last {s : Server} {t : Trace Call Reply} {e : (c : Call) × Reply c}
    (h : (tidy s).Holds (t ++ [e])) : Tidy s e.1 e.2 :=
  h e (List.mem_append_right _ List.mem_cons_self)

theorem tidy_gives (s : Server) : Gives (tidy s) s.inUse := fun _ _ _ _ _ => tidy_last

theorem tidy_creates (s : Server) : Creates (tidy s) := fun _ _ _ _ => tidy_last

theorem tidy_flushes (s : Server) : Flushes (tidy s) s.inUse := fun _ _ _ => tidy_last

section

variable {M : Cond Call Reply} {s : Server} {t : Trace Call Reply} {n : Nat} {Z : Set Nat}

/-- A stop gives up. -/
abbrev OrGivesUp : Stop → Server → Trace Call Reply → Prop := fun e _ _ => GivesUp e

theorem or_givesUp : ∀ e s t, GivesUp e → OrGivesUp e s t := fun _ _ _ => id

theorem ipcSend_stays (hs : Tree n s.inUse s) (envid : Nat) (val : Int) (srcva perm : Nat) :
    provided M (ipcSend envid val srcva perm) (fun _ s' _ => Tree n s'.inUse s') OrGivesUp s t := by
  unfold ipcSend
  simp only [Lib.provided_bind, Lib.provided_call, Lib.provided_ite, Lib.provided_pure,
    Lib.provided_throw]
  exact fun r _ => ⟨fun _ _ => hs, fun _ _ => Or.inr rfl⟩

theorem sends_pageref (t : Trace Call Reply) (i : Nat) (r : Nat) :
    sends (t ++ [⟨.pageref i, r⟩]) = sends t := by
  simp [sends]

theorem sends_memAlloc (t : Trace Call Reply) (va : Nat) (r : Except Err Unit) :
    sends (t ++ [⟨.memAlloc va, r⟩]) = sends t := by
  simp [sends]

/-- Only the pages of the table have changed, and nothing has been sent. -/
structure Idle (s s' : Server) (t t' : Trace Call Reply) : Prop where
  files : ∀ j, s'.fileOf j = s.fileOf j
  content : s'.content = s.content
  sends : sends t' = sends t

/-- An entry is taken, and the same files are open. -/
theorem openFrom_stays (hs : Tree n Z s) (k i : Nat) :
    provided M (openFrom k i) (fun _ s' t' => Tree n Z s' ∧ Idle s s' t t') OrGivesUp s t := by
  induction k generalizing i t with
  | zero =>
    unfold openFrom
    rw [Lib.provided_pure]
    exact fun _ => ⟨hs, fun _ => rfl, rfl, rfl⟩
  | succ k ih =>
    have hclear : ∀ {t₁}, sends t₁ = sends t →
        provided M (do clearFf i; return some (.ok i) : Serv (Option (Except Err Nat)))
          (fun r s' t' => r = some (.ok i) ∧ Tree n Z s' ∧ Idle s s' t t') OrGivesUp s t₁ := by
      intro t₁ ht
      unfold clearFf
      simp only [Lib.provided_bind, Lib.provided_modify, Lib.provided_pure]
      intro _ _
      obtain ⟨htree, hfiles⟩ := hs.setOpen_file i (o := { s.opentab i with ff := emptyFilefd }) rfl
      exact ⟨trivial, htree, hfiles, rfl, ht⟩
    unfold openFrom openEntry
    rw [Lib.provided_bind, Lib.provided_bind, Lib.provided_call]
    intro r _
    have hpage := sends_pageref t i r
    rcases r with _ | _ | r
    · simp only
      rw [Lib.provided_bind, Lib.provided_call]
      intro r _
      have hmem := (sends_memAlloc _ (ffAt i) r).trans hpage
      rcases r with e | u
      · simp only
        rw [Lib.provided_pure]
        intro _
        rw [Lib.provided_pure]
        exact fun _ => ⟨hs, fun _ => rfl, rfl, hmem⟩
      · refine Lib.provided_mono (hclear hmem) (fun r s₁ t₁ _ h => ?_) fun _ _ _ _ => id
        obtain ⟨rfl, hstays⟩ := h
        simp only [Lib.provided_pure]
        exact fun _ => hstays
    · refine Lib.provided_mono (hclear hpage) (fun r s₁ t₁ _ h => ?_) fun _ _ _ _ => id
      obtain ⟨rfl, hstays⟩ := h
      simp only [Lib.provided_pure]
      exact fun _ => hstays
    · simp only [Lib.provided_pure]
      refine fun _ => Lib.provided_mono (ih (i + 1)) (fun _ s' t' _ h => ?_) fun _ _ _ _ => id
      exact ⟨h.1, h.2.files, h.2.content, h.2.sends.trans hpage⟩

theorem createIf_stays (hs : Tree n Z s) (hg : Gives M Z) (hcreate : Creates M) (flag : Bool)
    (path : Name) (mode : Nat) :
    provided M (createIf flag path mode) (fun _ s' _ => Stays n Z .univ s s') OrGivesUp s t := by
  unfold createIf
  rw [Lib.provided_ite]
  refine ⟨fun _ => ?_, fun _ => ?_⟩
  · rw [Lib.provided_bind]
    refine Lib.provided_mono (fileCreate_stays hs hg hcreate mode path) (fun r s₁ t₁ _ h => ?_)
      fun _ _ _ _ => id
    rcases r with e | f
    · rw [Lib.provided_pure]
      exact fun _ => h
    · rw [Lib.provided_pure]
      exact fun _ => h
  · rw [Lib.provided_pure]
    exact fun _ => .refl hs.sound

theorem inUse_opened {s₁ s₂ : Server} {f i omode : Nat} {ff : Filefd}
    (hk : Kept (s₂.setOpen i ⟨f, omode, ff⟩) s₁) {o : Open} (ho : o.o_file = f)
    (hZ : s₂.inUse ⊆ Z) : (s₁.setOpen i o).inUse ⊆ insert f Z := by
  rintro g ⟨hg, j, rfl⟩
  rw [fileOf_setOpen] at hg ⊢
  split
  · rw [ho]
    exact Set.mem_insert ..
  · rename_i hij
    rw [if_neg hij, hk.fileOf, fileOf_setOpen, if_neg hij] at hg
    rw [hk.fileOf, fileOf_setOpen, if_neg hij]
    exact Set.mem_insert_of_mem _ (hZ ⟨hg, j, rfl⟩)

theorem tree_opened {s₁ s₂ : Server} {f i omode : Nat} {ff : Filefd} (hs : Tree n (insert f Z) s₁)
    (hc : s₁.cached f = true) (hk : Kept (s₂.setOpen i ⟨f, omode, ff⟩) s₁) {o : Open}
    (ho : o.o_file = f) (hZ : s₂.inUse ⊆ Z) :
    Tree n (s₁.setOpen i o).inUse (s₁.setOpen i o) :=
  (hs.setOpen fun _ => ho ▸ hc).mono (inUse_opened hk ho hZ)

theorem openPath_stays (hs : Tree n Z s) (hg : Gives M Z) (hcreate : Creates M)
    (hflush : Flushes M Z) (hZ : s.inUse = Z) (envid i : Nat) (path : Name) (omode : Nat) :
    provided M (openPath envid i path omode) (fun _ s' _ => Tree n s'.inUse s') OrGivesUp s t := by
  have hkeep : ∀ {s'}, Stays n Z .univ s s' → Tree n s'.inUse s' := by
    subst hZ
    exact fun h => h.kept.tree (h.tree hs)
  unfold openPath replyError
  rw [Lib.provided_bind]
  refine Lib.provided_mono (createIf_stays hs hg hcreate _ path omode) (fun r s₁ t₁ _ h₁ => ?_)
    fun _ _ _ _ => id
  rcases r with e | u
  · exact ipcSend_stays (hkeep h₁) ..
  simp only
  rw [Lib.provided_bind]
  refine Lib.provided_mono (createIf_stays (h₁.tree hs) hg hcreate _ path omode)
    (fun r s₂ t₂ _ h₂ => ?_) fun _ _ _ _ => id
  replace h₂ := h₁.trans h₂
  rcases r with e | u
  · exact ipcSend_stays (hkeep h₂) ..
  simp only
  rw [Lib.provided_bind]
  refine Lib.provided_mono (fileOpen_grown (h₂.tree hs) hg path) (fun r s₃ t₃ _ h => ?_)
    fun _ _ _ _ => id
  obtain ⟨hgrown, hfound⟩ := h
  have h₃ := h₂.trans hgrown.stays
  rcases r with e | f
  · exact ipcSend_stays (hkeep h₃) ..
  have hf := hfound f rfl
  have hopen : Tree n (insert f Z) (s₃.setOpen i { s₃.opentab i with o_file := f }) :=
    ((h₃.tree hs).insert hf.isFile hf.linked).setOpen fun _ => hf.cached
  have htrunc : provided M (truncateIf (hasFlag omode O_TRUNC) f)
      (fun _ s' _ => Stays n (insert f Z) {f} (s₃.setOpen i { s₃.opentab i with o_file := f }) s')
      OrGivesUp (s₃.setOpen i { s₃.opentab i with o_file := f }) t₃ := by
    unfold truncateIf
    rw [Lib.provided_ite]
    refine ⟨fun _ => ?_, fun _ => ?_⟩
    · exact Lib.provided_mono (fileSetSize_cuts hopen.toReady (Set.mem_insert f Z) hf.cached hf.linked
        (hflush.mono (Set.subset_insert f Z)) or_givesUp 0) (fun _ _ _ _ h => h.toStays)
        fun _ _ _ _ => id
    · rw [Lib.provided_pure]
      exact fun _ => .refl hopen.sound
  unfold setFile sendFilefd
  simp only
  rw [Lib.provided_bind, Lib.provided_modify]
  intro _
  rw [Lib.provided_bind]
  refine Lib.provided_mono htrunc (fun _ s₄ t₄ _ h₄ => ?_) fun _ _ _ _ => id
  rw [Lib.provided_bind, Lib.provided_get]
  intro _
  rw [Lib.provided_bind, Lib.provided_set]
  intro _
  have hsub : s₃.inUse ⊆ Z := by rw [inUse_congr h₃.kept.fileOf, hZ]
  refine ipcSend_stays ?_ ..
  exact tree_opened (h₄.tree hopen) (h₄.kept.cached hf.cached) h₄.kept rfl hsub

theorem serveOpen_stays (hs : Tree n s.inUse s) (envid : Nat) (path : Name) (omode : Nat) :
    provided (tidy s) (serveOpen envid path omode) (fun _ s' _ => Tree n s'.inUse s')
      OrGivesUp s t := by
  unfold serveOpen openAlloc replyError
  rw [Lib.provided_bind]
  refine Lib.provided_mono (openFrom_stays hs MAXOPEN 0) (fun r s₁ t₁ _ h => ?_) fun _ _ _ _ => id
  obtain ⟨h₁, hidle⟩ := h
  have hZ := inUse_congr hidle.files
  rcases r with e | i
  · refine ipcSend_stays ?_ ..
    rw [hZ]
    exact h₁
  · exact openPath_stays h₁ (tidy_gives s) (tidy_creates s) (tidy_flushes s) hZ envid i path omode

theorem withOpen_stays (hs : Tree n s.inUse s) {body : Nat → Serv Unit} (envid fileid : Nat)
    (hbody : ∀ {f t}, f ∈ s.inUse → s.cached f = true →
      provided (tidy s) (body f) (fun _ s' _ => Tree n s'.inUse s') OrGivesUp s t) :
    provided (tidy s) (withOpen envid fileid body) (fun _ s' _ => Tree n s'.inUse s')
      OrGivesUp s [] := by
  have hrefuse : ∀ {t}, provided (tidy s) (replyError envid .inval)
      (fun _ s' _ => Tree n s'.inUse s') OrGivesUp s t :=
    ipcSend_stays hs ..
  refine withOpen_spec (fun _ => hrefuse) (fun _ _ => hrefuse) fun r _ hr => ?_
  refine Lib.provided_intro fun ht => ?_
  have hne : s.fileOf fileid ≠ 0 := (tidy_last (t := []) ht) hr
  exact hbody ⟨hne, fileid, rfl⟩ (hs.files fileid hne)

/-- Whatever is asked, the tree stays in order, or the server gives up. -/
theorem serve_stays (hs : Tree n s.inUse s) (envid : Nat) (req : Request) :
    provided (tidy s) (serve envid req) (fun _ s' _ => Tree n s'.inUse s') OrGivesUp s [] := by
  have hsend : ∀ {s' t} (val : Int) (srcva perm : Nat), Kept s s' → Tree n s.inUse s' →
      provided (tidy s) (ipcSend envid val srcva perm) (fun _ s' _ => Tree n s'.inUse s')
        OrGivesUp s' t := fun val srcva perm hk h => ipcSend_stays (hk.tree h) envid val srcva perm
  cases req with
  | «open» path omode => exact serveOpen_stays hs envid path _
  | map fileid offset =>
    unfold serve serveMap
    refine withOpen_stays hs envid _ fun hf hc => ?_
    rw [Lib.provided_bind]
    refine Lib.provided_mono (fileGetBlock_grown hs.toReady (.extra hf) hc (tidy_gives s))
      (fun r s₁ t₁ _ h => ?_) fun _ _ _ _ => id
    rcases r with e | blk
    · exact hsend _ _ _ h.1.kept (h.1.tree hs)
    · exact hsend _ _ _ h.1.kept (h.1.tree hs)
  | setSize fileid size =>
    unfold serve serveSetSize
    refine withOpen_stays hs envid _ fun hf hc => ?_
    rw [Lib.provided_bind]
    exact Lib.provided_mono (fileSetSize_cuts hs.toReady hf hc (hs.links _ (Or.inr hf))
      (tidy_flushes s) or_givesUp _) (fun _ s₁ t₁ _ h => hsend _ _ _ h.kept (h.tree hs))
      fun _ _ _ _ => id
  | close fileid =>
    unfold serve serveClose
    refine withOpen_stays hs envid _ fun hf hc => ?_
    rw [Lib.provided_bind]
    exact Lib.provided_mono (fileClose_intact hs.toReady (.extra hf) hc (hs.links _ (Or.inr hf))
      (tidy_flushes s)) (fun _ s₁ t₁ _ h => hsend _ _ _ h.kept (hs.of_intact h)) fun _ _ _ _ => id
  | dirty fileid offset =>
    unfold serve serveDirty
    refine withOpen_stays hs envid _ fun hf hc => ?_
    rw [Lib.provided_bind]
    refine Lib.provided_mono (fileDirty_intact hs.toReady (.extra hf) hc _) (fun r s₁ t₁ _ h => ?_)
      fun _ _ _ _ => id
    rcases r with e | u
    · exact hsend _ _ _ h.kept (hs.of_intact h)
    · exact hsend _ _ _ h.kept (hs.of_intact h)
  | remove path type =>
    unfold serve serveRemove
    rw [Lib.provided_bind]
    refine Lib.provided_mono (fileRemove_tree hs (tidy_gives s) (tidy_flushes s) or_givesUp path _)
      (fun r s₁ t₁ _ h => ?_) fun _ _ _ _ => id
    rcases r with e | u
    · exact hsend _ _ _ h.1 h.2
    · exact hsend _ _ _ h.1 h.2
  | sync =>
    unfold serve serveSync
    rw [Lib.provided_bind]
    refine Lib.provided_mono (fsSync_intact hs.toMounted) (fun _ s₁ t₁ _ h => ?_) fun _ _ _ _ => id
    exact hsend _ _ _ h.kept (hs.of_intact h)

end

/-! ## Clients that store -/

section

variable {n b : Nat} {s : Server}

/-- The page of a block that a file has for its contents. No file in use is left in it. -/
structure Lent (s : Server) (b : Nat) : Prop where
  held : ∃ f i, IsFile s.content s.inUse f ∧ s.content.word (typeAt f) ≠ FTYPE_DIR ∧
    heldBlock s.content f (.block i) ≠ 0 ∧ b = heldBlock s.content f (.block i)
  extras : ∀ z ∈ s.inUse, blockOf z ≠ b

theorem Lent.off_files (h : Lent s b) (hs : Ready n s.inUse s) {g : Nat}
    (hg : IsFile s.content s.inUse g) : blockOf g ≠ b ∧ s.content.word (indirectAt g) ≠ b := by
  obtain ⟨own, dep, ho⟩ := hs.sound.tree
  obtain ⟨⟨f, i, hf, ht, hb, rfl⟩, hz⟩ := h
  have hthree := (ho.range hf hb).three_le
  constructor
  · intro heq
    cases hg with
    | root =>
      rw [blockOf_add 1 (by omega)] at heq
      omega
    | extra hz' => exact hz g hz' heq
    | @slot d i' j hd htd hbd hj =>
      rw [blockOf_fileAt _ hj] at heq
      have h1 := ho.owner hd hbd
      rw [heq, ho.owner hf hb] at h1
      obtain ⟨rfl, -⟩ := Prod.mk.inj (Option.some.inj h1)
      exact ht htd
  · intro heq
    have hbg : heldBlock s.content g .index ≠ 0 := by rwa [heldBlock_index, heq]
    have h1 := ho.owner hg hbg
    rw [heldBlock_index, heq, ho.owner hf hb] at h1
    exact absurd (Prod.mk.inj (Option.some.inj h1)).2 (by simp)

theorem store_content {m : Bytes}
    (hm : ∀ a, m a ≠ s.mem a → diskAddr b ≤ a ∧ a < diskAddr b + 4096) (a : Nat)
    (hne : (s.setMem m).content a ≠ s.content a) : diskAddr b ≤ a ∧ a < diskAddr b + 4096 := by
  unfold Server.content at hne
  replace hne : (if s.cached a = true then m a else s.stored a) ≠
    if s.cached a = true then s.mem a else s.stored a := hne
  split at hne
  · exact hm a hne
  · exact absurd rfl hne

/-- What a client stores in the contents of a file changes no `struct File` of the tree. -/
theorem Tree.store (hs : Tree n s.inUse s) (hb : Lent s b) {m : Bytes}
    (hm : ∀ a, m a ≠ s.mem a → diskAddr b ≤ a ∧ a < diskAddr b + 4096) :
    Tree n s.inUse (s.setMem m) ∧ SameFiles n s.inUse s.content (s.setMem m).content := by
  obtain ⟨own, dep, ho⟩ := hs.sound.tree
  obtain ⟨⟨f, i, hf, ht, hne, rfl⟩, hz⟩ := id hb
  have hrange := ho.range hf hne
  have hthree := hrange.three_le
  have hk := kept_setMem s m
  have hc := store_content hm
  have hbyte : ∀ {g}, IsFile s.content s.inUse g → ∀ k < 256,
      (s.setMem m).content (g + k) = s.content (g + k) := by
    intro g hg k hk'
    have := (ho.seat hg).off_page hthree (hb.off_files hs.toReady hg).1
    by_contra hne'
    have := hc _ hne'
    omega
  have hword : ∀ x, (x + 4 ≤ diskAddr (heldBlock s.content f (.block i)) ∨
      diskAddr (heldBlock s.content f (.block i)) + 4096 ≤ x) →
      (s.setMem m).content.word x = s.content.word x := by
    intro x hx
    refine Lib.Bytes.word_congr fun a h1 h2 => ?_
    by_contra hne
    have := hc a hne
    omega
  have hfree : ∀ x < n, isFree (s.setMem m).content x = isFree s.content x := by
    intro x hx
    have := (bitAt_lt hx hrange).2
    unfold isFree
    rw [hword _ (by omega)]
  have halike := ho.alike_of_page hrange.1 (fun g hg => (hb.off_files hs.toReady hg).1)
    (fun g hg => (hb.off_files hs.toReady hg).2) hc
  have hsound : Sound n s.inUse (s.setMem m).content := by
    refine hs.sound.of_shrinks halike.shrinks (hword _ ?_) fun x hx _ => hfree x hx
    rw [diskAddr_eq, diskAddr_eq]
    omega
  refine ⟨⟨⟨hk.mounted hs.toMounted, hsound⟩, fun g hg => (hs.links g hg).keep hk ?_⟩, hsound, halike,
    fun g hg k hk' _ => hbyte hg k hk', hfree⟩
  refine Lib.Bytes.word_congr fun a h1 h2 => ?_
  obtain ⟨k, rfl⟩ := Nat.exists_eq_add_of_le (show g ≤ a by unfold dirAt at h1; omega)
  unfold dirAt at h2
  exact hbyte (isFile_inUse hg) k (by omega)

end

/-! ## Runs -/

/-- A request is served, or a client stores into a block of its file. -/
inductive Serves : Server → Server → Prop where
  | request {s s' w envid req t} (hrun : (serve envid req).run w s = (t, .ok (), s'))
      (ht : (tidy s).Holds t) : Serves s s'
  | store {s b m} (hb : Lent s b)
      (hm : ∀ a, m a ≠ s.mem a → diskAddr b ≤ a ∧ a < diskAddr b + 4096) : Serves s (s.setMem m)

theorem tidy_nil (s : Server) : (tidy s).Holds [] := fun _ he => nomatch he

theorem Serves.tree {n : Nat} {s s' : Server} (hs : Tree n s.inUse s) (h : Serves s s') :
    Tree n s'.inUse s' := by
  cases h with
  | request hrun ht => exact Lib.provided_run_ok (serve_stays hs _ _) hrun (tidy_nil s) ht
  | store hb hm => exact (kept_setMem _ _).tree (hs.store hb hm).1

theorem tree_run {n : Nat} {s s' : Server} (hs : Tree n s.inUse s)
    (h : Relation.ReflTransGen Serves s s') : Tree n s'.inUse s' := by
  induction h with
  | refl => exact hs
  | tail _ hstep ih => exact hstep.tree ih

/-! ## A run on the empty image -/

/-- What can be computed of `Tidy`, if all files in use are among `files`. -/
def checks (s : Server) (files : List Nat) : (c : Call) → Reply c → Bool
  | .mark (.gives f u b) c, _ =>
    ((u != .index && c.word (typeAt f) != FTYPE_DIR) ||
      (List.range 4096).all fun k => c (diskAddr b + k) == 0) && files.all fun z => blockOf z != b
  | .mark (.creates _ mode) _, _ => mode != O_MKDIR
  | .mark (.flushes d) _, _ => d == diskAddr 1 + 8
  | .pageref i, r => decide (r ≤ 1) || s.fileOf i != 0
  | .mark .., _ | .memAlloc _, _ | .ipcSend .., _ => true

theorem tidy_checks {s : Server} {files : List Nat} (hs : ∀ z ∈ s.inUse, z ∈ files)
    {t : Trace Call Reply} (h : (t.all fun e => checks s files e.1 e.2) = true) :
    (tidy s).Holds t := by
  intro e he
  have hc := List.all_eq_true.mp h e he
  rcases e with ⟨⟨⟨f, u, b⟩ | _ | _ | ⟨f, mode⟩ | _ | _ | ⟨d⟩, c⟩ | _ | ⟨i⟩ | _, r⟩
  · simp only [checks, Bool.and_eq_true, Bool.or_eq_true, List.all_eq_true, bne_iff_ne, beq_iff_eq,
      List.mem_range] at hc
    refine ⟨fun hu a h1 h2 => ?_, fun z hz => hc.2 z (hs z hz)⟩
    rcases hc.1 with hnot | hblank
    · exact absurd hu (by simp [hnot])
    · obtain ⟨k, rfl⟩ := Nat.exists_eq_add_of_le h1
      exact hblank k (by omega)
  · trivial
  · trivial
  · intro hmode
    exact absurd hmode (by simpa [checks] using hc)
  · trivial
  · trivial
  · obtain rfl : d = diskAddr 1 + 8 := by simpa [checks] using hc
    exact .root
  · trivial
  · intro hr
    simp only [checks, Bool.or_eq_true, decide_eq_true_eq, bne_iff_ne] at hc
    exact hc.resolve_left (Nat.not_le_of_lt hr)
  · trivial

theorem inUse_fresh : fresh.inUse = ∅ := by
  ext z
  simp only [Set.mem_empty_iff_false, iff_false]
  rintro ⟨hz, i, rfl⟩
  exact absurd rfl hz

theorem files_fresh : ∀ z ∈ fresh.inUse, z ∈ [] := by
  rw [inUse_fresh]
  exact fun _ hz => absurd hz (Set.notMem_empty _)

theorem tree_fresh : Tree 1024 fresh.inUse fresh := by
  rw [inUse_fresh]
  refine ⟨ready_fresh, fun f hf => Or.inl ?_⟩
  rcases hf with rfl | hf
  · decide +kernel
  · exact absurd hf (Set.notMem_empty f)

theorem serves_opened : Relation.ReflTransGen Serves fresh opened.1 := by
  have hends : fresh.Ends (fun _ => 0) (serve 1 (.open [97] 0x0100)) := by decide +kernel
  exact .single (.request hends.run
    (tidy_checks files_fresh (by decide +kernel)))

theorem files_opened : ∀ z ∈ opened.1.inUse, z ∈ [diskAddr 3] := by
  rintro z ⟨hz, i, rfl⟩
  cases i with
  | zero =>
    have h : opened.1.fileOf 0 = diskAddr 3 := by decide +kernel
    exact List.mem_singleton.mpr h
  | succ j => exact absurd rfl hz

theorem tidy_resize : (tidy opened.1).Holds (resize 1).1 :=
  tidy_checks files_opened (by decide +kernel)

/-- The first block of the file is asked for. -/
def lentBlock : Trace Call Reply × Except Stop Unit × Server :=
  (serve 1 (.map 0 0)).run (obliging refsOpened) opened.1

theorem serves_lent : Relation.ReflTransGen Serves fresh lentBlock.2.2 := by
  have hends : lentBlock.2.1 = .ok () := by decide +kernel
  have hrun : (serve 1 (.map 0 0)).run (obliging refsOpened) opened.1 =
      (lentBlock.1, .ok (), lentBlock.2.2) := by
    rw [← hends]
    rfl
  exact serves_opened.tail (.request hrun (tidy_checks files_opened (by decide +kernel)))

theorem lent_block : Lent lentBlock.2.2 4 := by
  have hfile : lentBlock.2.2.fileOf 0 = diskAddr 3 := by decide +kernel
  have hheld : heldBlock lentBlock.2.2.content (diskAddr 3) (.block 0) = 4 := by decide +kernel
  refine ⟨⟨diskAddr 3, 0, .extra ⟨by decide, 0, hfile⟩, by decide +kernel, ?_, hheld.symm⟩, ?_⟩
  · rw [hheld]
    decide
  · rintro z ⟨hz, i, rfl⟩
    cases i with
    | zero =>
      rw [hfile]
      decide
    | succ j => exact absurd rfl hz

/-! ## Every run -/

/-- Blocks have one owner each, and the bitmap says that they are in use. -/
def OneOwner (n : Nat) (s : Server) : Prop :=
  ∀ f u, IsFile s.content s.inUse f → heldBlock s.content f u ≠ 0 →
    InRange n (heldBlock s.content f u) ∧ isFree s.content (heldBlock s.content f u) = false ∧
    ∀ g v, IsFile s.content s.inUse g → heldBlock s.content g v = heldBlock s.content f u →
      g = f ∧ v = u

theorem Tree.oneOwner {n : Nat} {s : Server} (hs : Tree n s.inUse s) : OneOwner n s := by
  obtain ⟨own, dep, ho⟩ := hs.sound.tree
  refine fun f u hf hb => ⟨ho.range hf hb, ho.used hf hb, fun g v hg heq => ?_⟩
  have hown := ho.owner hg (heq ▸ hb)
  rw [heq, ho.owner hf hb] at hown
  obtain ⟨rfl, rfl⟩ := Prod.mk.inj (Option.some.inj hown)
  exact ⟨rfl, rfl⟩

/-- The tree stays a tree whatever is asked in whatever order, as long as what is given is blank, no
open file is overwritten, and flushed directories are there. -/
theorem files_kept {n : Nat} {s₀ s : Server} (h₀ : Tree n s₀.inUse s₀)
    (hrun : Relation.ReflTransGen Serves s₀ s) : Tree n s.inUse s ∧ OneOwner n s :=
  ⟨tree_run h₀ hrun, (tree_run h₀ hrun).oneOwner⟩

/-- The client of a new file stores two letters into the block that it was lent. -/
theorem files_kept_stored :
    Tree 1024 (lentBlock.2.2.setMem (lentBlock.2.2.mem.setList (diskAddr 4) [104, 105])).inUse
      (lentBlock.2.2.setMem (lentBlock.2.2.mem.setList (diskAddr 4) [104, 105])) ∧
    OneOwner 1024 (lentBlock.2.2.setMem (lentBlock.2.2.mem.setList (diskAddr 4) [104, 105])) := by
  refine files_kept tree_fresh (serves_lent.tail (.store lent_block fun a ha => ?_))
  have hin : ¬ (a < diskAddr 4 ∨ diskAddr 4 + 2 ≤ a) := fun h => ha (Bytes.setList_of_ne h)
  omega

/-- No access of the server faults, and it reads no free block and none beyond the disk. -/
theorem serve_gives_up_only {n : Nat} {s₀ s s' : Server} {w : World Call Reply} {envid : Nat}
    {req : Request} {t : Trace Call Reply} {x : Except Stop Unit} (h₀ : Tree n s₀.inUse s₀)
    (hrun : Relation.ReflTransGen Serves s₀ s) (hreq : (serve envid req).run w s = (t, x, s'))
    (ht : (tidy s).Holds t) :
    x = .ok () ∨ x = .error (.panic .clearBlock) ∨ x = .error (.panic .notSent) := by
  rcases x with e | u
  · have hspec := serve_stays (tree_run h₀ hrun) envid req
    rcases Lib.provided_run_error hspec hreq (tidy_nil s) ht with rfl | rfl
    · exact Or.inr (Or.inl rfl)
    · exact Or.inr (Or.inr rfl)
  · exact Or.inl rfl

theorem serve_gives_up_only_opened :
    (resize 1).2.1 = .ok () ∨ (resize 1).2.1 = .error (.panic .clearBlock) ∨
      (resize 1).2.1 = .error (.panic .notSent) := by
  have hrun : (serve 1 (.setSize 0 8192)).run (obliging refsOpened) opened.1 =
      ((resize 1).1, (resize 1).2.1, (resize 1).2.2) := rfl
  exact serve_gives_up_only tree_fresh serves_opened hrun tidy_resize

/-! ## The other files -/

/-- After a request on the file `f`, which has its name and its type still. -/
structure Spared (s : Server) (f : Nat) (s' : Server) : Prop where
  kept : Kept s s'
  others : ∀ g, IsFile s.content s.inUse g → g ≠ f → SameFile {f} s.content s'.content g
  title : Titled f s.content s'.content

theorem Intact.spared {s s' : Server} (h : Intact s s') (f : Nat) : Spared s f s' :=
  ⟨h.kept, fun _ _ _ => h.content ▸ .refl _ _, h.title f⟩

theorem ipcSend_keeps {M : Cond Call Reply} {s₁ : Server} {t : Trace Call Reply} {Q : Server → Prop}
    (h : Q s₁) (envid : Nat) (val : Int) (srcva perm : Nat) :
    provided M (ipcSend envid val srcva perm) (fun _ s' _ => Q s') AnyStop s₁ t :=
  Lib.provided_mono (ipcSend_spec M envid val srcva perm s₁ t) (fun _ _ _ _ hr => hr.1 ▸ h)
    fun _ _ _ _ _ => trivial

theorem Ready.all_files {n : Nat} {Z : Set Nat} {s : Server} (hs : Ready n Z s) :
    Ready n {g | IsFile s.content Z g} s :=
  ⟨hs.toMounted, hs.sound.of_files fun _ hz => hz⟩

/-- A request that only looks at the file `f`. -/
def Request.Looks (s : Server) (f : Nat) : Request → Prop
  | .close _ | .dirty .. => True
  | .map _ offset => heldBlock s.content f (.block (offset.toNat / BLOCK_SIZE)) ≠ 0
  | .open .. | .setSize .. | .remove .. | .sync => False

theorem body_intact {n : Nat} {s : Server} (hs : Tree n s.inUse s) {req : Request} {f : Nat}
    (hf : f ∈ s.inUse) (hlooks : req.Looks s f) (envid : Nat) (t : Trace Call Reply) :
    provided (tidy s) (req.body envid f) (fun _ s' _ => Intact s s') AnyStop s t := by
  obtain ⟨hne, i, rfl⟩ := id hf
  have hc := hs.files i hne
  have hfile : IsFile s.content s.inUse (s.fileOf i) := .extra hf
  cases req with
  | map fileid offset =>
    unfold Request.body
    rw [Lib.provided_bind]
    refine Lib.provided_mono (fileGetBlock_spec hs.toReady hfile hc hlooks) (fun r s₁ t₁ _ h => ?_)
      fun _ _ _ _ => id
    rcases r with e | blk
    · exact ipcSend_keeps h.1 ..
    · exact ipcSend_keeps h.1 ..
  | close fileid =>
    unfold Request.body
    rw [Lib.provided_bind]
    exact Lib.provided_mono (fileClose_intact hs.toReady hfile hc (hs.links _ (Or.inr hf))
      (tidy_flushes s)) (fun _ s₁ t₁ _ h => ipcSend_keeps h ..) fun _ _ _ _ => id
  | dirty fileid offset =>
    unfold Request.body
    rw [Lib.provided_bind]
    refine Lib.provided_mono (fileDirty_intact hs.toReady hfile hc _) (fun r s₁ t₁ _ h => ?_)
      fun _ _ _ _ => id
    rcases r with e | u
    · exact ipcSend_keeps h ..
    · exact ipcSend_keeps h ..
  | «open» path omode => exact hlooks.elim
  | setSize fileid size => exact hlooks.elim
  | remove path type => exact hlooks.elim
  | sync => exact hlooks.elim

theorem body_spared {n : Nat} {s : Server} (hs : Tree n s.inUse s) {req : Request} {fileid : Nat}
    (hreq : req.fileid = some fileid) {f : Nat} (hf : f ∈ s.inUse) (envid : Nat)
    (t : Trace Call Reply) :
    provided (tidy s) (req.body envid f) (fun _ s' _ => Spared s f s') AnyStop s t := by
  obtain ⟨hne, i, rfl⟩ := id hf
  have hc := hs.files i hne
  have hl := hs.links _ (Or.inr hf)
  have hfile : IsFile s.content s.inUse (s.fileOf i) := .extra hf
  cases req with
  | map fileid' offset =>
    unfold Request.body
    rw [Lib.provided_bind]
    refine Lib.provided_mono (fileGetBlock_grown hs.toReady hfile hc (tidy_gives s))
      (fun r s₁ t₁ _ h => ?_) fun _ _ _ _ => id
    have hspared : Spared s (s.fileOf i) s₁ :=
      ⟨h.1.kept, fun g hg hout => h.1.others hg hout, fun k hk _ => h.2.1.bytes k hk⟩
    rcases r with e | blk
    · exact ipcSend_keeps hspared ..
    · exact ipcSend_keeps hspared ..
  | setSize fileid' size =>
    unfold Request.body
    rw [Lib.provided_bind]
    exact Lib.provided_mono (fileSetSize_cuts (E := AnyStop) hs.toReady.all_files hfile hc hl
      ((tidy_flushes s).mono fun z hz => .extra hz) (fun _ _ _ _ => trivial) _)
      (fun _ s₁ t₁ _ h => ipcSend_keeps ⟨h.kept, fun g hg hout => h.others hg hout, h.title⟩ ..)
      fun _ _ _ _ => id
  | close fileid' =>
    exact Lib.provided_mono (body_intact hs hf (show Request.Looks s _ (.close fileid') from trivial)
      envid t) (fun _ _ _ _ h => h.spared _) fun _ _ _ _ => id
  | dirty fileid' offset =>
    exact Lib.provided_mono (body_intact hs hf
      (show Request.Looks s _ (.dirty fileid' offset) from trivial) envid t)
      (fun _ _ _ _ h => h.spared _) fun _ _ _ _ => id
  | «open» path omode => nomatch hreq
  | remove path type => nomatch hreq
  | sync => nomatch hreq

theorem serve_spared {n : Nat} {s : Server} (hs : Tree n s.inUse s) {req : Request} {fileid : Nat}
    (hreq : req.fileid = some fileid) (envid : Nat) :
    provided (tidy s) (serve envid req) (fun _ s' _ => Spared s (s.fileOf fileid) s') AnyStop s [] := by
  have hself := (Intact.refl s).spared (s.fileOf fileid)
  rw [serve_fileid hreq envid]
  refine withOpen_spec (fun _ => ipcSend_keeps hself ..) (fun _ _ => ipcSend_keeps hself ..)
    fun r _ hr => Lib.provided_intro fun ht => ?_
  have hne : s.fileOf fileid ≠ 0 := (tidy_last (t := []) ht) hr
  exact body_spared hs hreq ⟨hne, fileid, rfl⟩ envid _

/-- A request on an open file keeps the name, the size, the type, the blocks and the contents of every
other file, of those in the tree and of those that are open without being in it. -/
theorem other_files_kept {n : Nat} {s₀ s s' : Server} {w : World Call Reply} {envid fileid : Nat}
    {req : Request} {t : Trace Call Reply} (h₀ : Tree n s₀.inUse s₀)
    (hrun : Relation.ReflTransGen Serves s₀ s) (hreq : req.fileid = some fileid)
    (hserve : (serve envid req).run w s = (t, .ok (), s')) (ht : (tidy s).Holds t) :
    ∀ g, IsFile s.content s.inUse g → g ≠ s.fileOf fileid →
      SameFile {s.fileOf fileid} s.content s'.content g :=
  (Lib.provided_run_ok (serve_spared (tree_run h₀ hrun) hreq envid) hserve (tidy_nil s) ht).others

/-- While the new file gets a size, the root stays. -/
theorem other_files_kept_opened :
    SameFile {opened.1.fileOf 0} opened.1.content (resize 1).2.2.content (diskAddr 1 + 8) := by
  have hends : (resize 1).2.1 = .ok () := by decide +kernel
  have hrun : (serve 1 (.setSize 0 8192)).run (obliging refsOpened) opened.1 =
      ((resize 1).1, .ok (), (resize 1).2.2) := by
    rw [← hends]
    rfl
  exact other_files_kept tree_fresh serves_opened rfl hrun tidy_resize _ .root (by decide +kernel)

end Mos.Fs
