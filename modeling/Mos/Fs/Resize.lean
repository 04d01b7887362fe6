import Mos.Fs.Access
import Mos.Fs.Create

/-!
# Requests on an open file

What `serve_set_size` and `serve_map` do to the size of the file, and what they send.
-/

namespace Mos.Fs

open Lib (Bytes Effect provided within within_bind within_pure within_throw within_ite)
open Lib.Proc (Trace World)

/-! ## Flushing a directory -/

/-- No contents change. -/
def reading : Effect Call Reply Server where
  calls := (quiet Any True).calls
  answers := (quiet Any True).answers
  rel := Intact
  refl := .refl
  trans := .trans

theorem reads_loadWord (va : Nat) : within reading (loadWord va) Any := by
  unfold loadWord
  apply within_bind (P := Any) (Lib.within_get fun _ => trivial)
  intro s _
  exact within_ite (fun _ => within_pure trivial) fun _ => within_throw _

theorem reads_mark (m : Mark) : within reading (mark m) Any := by
  unfold mark
  apply within_bind (P := Any) (Lib.within_get fun _ => trivial)
  intro s _
  exact Lib.within_call trivial fun _ _ => trivial

theorem reads_nblocks : within reading nblocks Any := by
  unfold nblocks
  apply within_bind (P := Any) (Lib.within_get fun _ => trivial)
  intro s _
  exact reads_loadWord _

theorem reads_isNonexistent (b : Nat) : within reading (isNonexistent b) Any := by
  unfold isNonexistent
  apply within_bind (P := Any) (Lib.within_get fun _ => trivial)
  intro s _
  refine within_ite (fun _ => within_pure trivial) fun _ => ?_
  exact within_bind reads_nblocks fun _ _ => within_pure trivial

theorem reads_isKnownFree (b : Nat) : within reading (isKnownFree b) Any := by
  unfold isKnownFree blockIsFree loadBit
  apply within_bind (P := Any) (Lib.within_get fun _ => trivial)
  intro s _
  refine within_ite (fun _ => within_pure trivial) fun _ => ?_
  apply within_bind (P := Any) (Lib.within_get fun _ => trivial)
  intro s _
  refine within_ite (fun _ => within_pure trivial) fun _ => ?_
  apply within_bind reads_nblocks
  intro k _
  refine within_ite (fun _ => within_pure trivial) fun _ => ?_
  apply within_bind (P := Any) (Lib.within_get fun _ => trivial)
  intro s _
  exact within_bind (reads_loadWord _) fun _ _ => within_pure trivial

theorem reads_loadBlock (b : Nat) : within reading (loadBlock b) Any := by
  unfold loadBlock
  apply Lib.within_update
  intro s
  split
  · exact ⟨.refl s, fun _ _ => trivial⟩
  · rename_i hm
    refine ⟨trivial, fun r hr => ?_⟩
    rcases r with e | u
    · exact ⟨.refl s, fun _ _ => trivial⟩
    · exact ⟨⟨kept_read s b, content_read s (by simpa using hm)⟩, fun _ _ => trivial⟩

theorem reads_readBlock (b : Nat) : within reading (readBlock b) Any := by
  unfold readBlock
  apply within_bind (reads_isNonexistent b)
  intro r _
  refine within_ite (fun _ => within_throw _) fun _ => ?_
  apply within_bind (reads_isKnownFree b)
  intro r _
  exact within_ite (fun _ => within_throw _) fun _ => reads_loadBlock b

theorem reads_writeBlock (b : Nat) : within reading (writeBlock b) Any := by
  unfold writeBlock
  apply Lib.within_update
  intro s
  split
  · exact ⟨⟨kept_ideWrite s b, content_ideWrite ‹_›⟩, fun _ _ => trivial⟩
  · exact ⟨.refl s, fun _ _ => trivial⟩

theorem reads_fileMapBlock (f i : Nat) : within reading (fileMapBlock f i false) Any := by
  unfold fileMapBlock fileBlockWalk indirectBlock
  apply within_bind (P := Any)
  · refine within_ite (fun _ => within_pure trivial) fun _ => ?_
    refine within_ite (fun _ => ?_) fun _ => within_pure trivial
    apply within_bind (P := Any)
    · apply within_bind (reads_loadWord _)
      intro v _
      exact within_ite (fun _ => within_pure trivial) fun _ => within_pure trivial
    · rintro (e | u) _
      · exact within_pure trivial
      · apply within_bind (reads_loadWord _)
        intro v _
        apply within_bind (reads_readBlock v)
        rintro (e | blk) _
        · exact within_pure trivial
        · exact within_pure trivial
  · rintro (e | p) _
    · exact within_pure trivial
    · apply within_bind (reads_loadWord _)
      intro v _
      exact within_ite (fun _ => within_pure trivial) fun _ => within_pure trivial

theorem reads_flushFrom (f n i : Nat) : within reading (flushFrom f n i) Any := by
  induction n generalizing i with
  | zero => exact within_pure trivial
  | succ n ih =>
    unfold flushFrom flushBlock
    apply within_bind (P := Any)
    · apply within_bind (reads_fileMapBlock f i)
      rintro (e | b) _
      · exact within_pure trivial
      · apply within_bind (P := Any) (Lib.within_get fun _ => trivial)
        intro s _
        exact within_ite (fun _ => reads_writeBlock b) fun _ => within_pure trivial
    · exact fun _ _ => ih (i + 1)

theorem reads_flushDir (f : Nat) : within reading (flushDir f) Any := by
  unfold flushDir fileFlush
  apply within_bind (reads_loadWord _)
  intro d _
  refine within_ite (fun _ => within_pure trivial) fun _ => ?_
  apply within_bind (reads_mark _)
  intro _ _
  exact within_bind (reads_loadWord _) fun _ _ => reads_flushFrom d _ 0

/-! ## Setting the size -/

section

variable {n f v : Nat} {s : Server} {t : Trace Call Reply}

theorem memory_answers : ∀ t, memory.Holds t → ∀ e ∈ t, (quiet Any True).answers e.1 e.2 := fun _ h => h

/-- Nothing has been sent since. -/
def Unsent (t t' : Trace Call Reply) : Prop := sends t' = sends t

theorem unsent_quiet {l : Trace Call Reply} (h : ∀ e ∈ l, (quiet Any True).calls e.1) : Unsent t (t ++ l) :=
  sends_quiet h

theorem setSize_spec (hc : s.cached (sizeAt f) = true) :
    provided memory (setSize f v) (fun _ s' t' => Unsent t t' ∧ s' = s.put (sizeAt f) v) AnyStop s t := by
  unfold setSize
  rw [Lib.provided_bind, provided_mark]
  intro _
  rw [provided_storeWord hc]
  refine fun _ => ⟨unsent_quiet (l := [_]) fun e he => ?_, rfl⟩
  rw [List.mem_singleton.mp he]
  trivial

/-- The size is what was asked for. If the file does not shrink, the store is all. -/
theorem fileSetSize_spec (hc : s.cached (sizeAt f) = true) (ha : f % 4 = 0) :
    provided memory (fileSetSize f v)
      (fun _ s' t' => Unsent t t' ∧ Kept s s' ∧ s'.content.word (sizeAt f) = v % 2 ^ 32 ∧
        (s.content.word (sizeAt f) ≤ v → Intact (s.put (sizeAt f) v) s'))
      AnyStop s t := by
  have hmod : sizeAt f % 4 = 0 := by
    unfold sizeAt
    omega
  have hput : ∀ {s₁ : Server}, s₁.cached (sizeAt f) = true →
      (s₁.put (sizeAt f) v).content.word (sizeAt f) = v % 2 ^ 32 := fun h => by
    rw [content_put h hmod, Lib.Bytes.word_setWord_self]
  have hrest : ∀ {s₁ t₁}, s₁.cached (sizeAt f) = true → Unsent t t₁ →
      provided memory (do setSize f v; flushDir f)
        (fun _ s' t' => Unsent t t' ∧ Intact (s₁.put (sizeAt f) v) s') AnyStop s₁ t₁ := by
    intro s₁ t₁ h₁ ht₁
    rw [Lib.provided_bind]
    refine Lib.provided_mono (setSize_spec h₁) ?_ fun _ _ _ _ _ => trivial
    rintro _ s₂ t₂ - ⟨ht₂, rfl⟩
    refine Lib.provided_mono (Lib.provided_within (F := reading) memory_answers (reads_flushDir f) _ _)
      ?_ fun _ _ _ _ _ => trivial
    rintro _ s₃ t₃ - ⟨⟨l, rfl, hl⟩, hin, -⟩
    exact ⟨(unsent_quiet hl).trans (ht₂.trans ht₁), hin⟩
  unfold fileSetSize shrinkFile
  rw [Lib.provided_bind, Lib.provided_bind, provided_loadWord hc hmod]
  intro _
  rw [Lib.provided_ite]
  refine ⟨fun hlt => ?_, fun hle => ?_⟩
  · refine Lib.provided_mono (Lib.provided_within memory_answers
      (within_fileTruncate (K := Any) (fun _ _ => trivial) v) s t) ?_ fun _ _ _ _ _ => trivial
    rintro _ s₁ t₁ - ⟨⟨l, rfl, hl⟩, hk, -⟩
    have hc₁ := hk.cached hc
    refine Lib.provided_mono (hrest hc₁ (unsent_quiet hl)) ?_ fun _ _ _ _ => id
    rintro _ s' t' - ⟨ht', hin⟩
    exact ⟨ht', hk.toKept.trans ((kept_put _ _ _).trans hin.kept), hin.content ▸ hput hc₁, by omega⟩
  · rw [Lib.provided_pure]
    intro _
    refine Lib.provided_mono (hrest hc rfl) ?_ fun _ _ _ _ => id
    rintro _ s' t' - ⟨ht', hin⟩
    exact ⟨ht', (kept_put _ _ _).trans hin.kept, hin.content ▸ hput hc, fun _ => hin⟩

theorem Settled.grow (h : Settled n f s.content s) (v : Nat) :
    Settled n f (s.put (sizeAt f) v).content (s.put (sizeAt f) v) := by
  have hc : s.cached (sizeAt f) = true := h.anchored.cached 128 (by omega)
  have hsize : sizeAt f = f + 128 := rfl
  have hindirect : indirectAt f = f + 176 := rfl
  have habove := h.anchored.above
  have hmod : sizeAt f % 4 = 0 := by
    have := h.anchored.aligned
    omega
  refine ⟨⟨h.anchored.put v hc hmod (by omega) fun b hb => ?_, rfl⟩, fun hne => ?_⟩
  · have := h.anchored.bitmap b hb
    omega
  · have hidx := h.index
    unfold IndexApart at hidx ⊢
    rw [content_put hc hmod, Lib.Bytes.word_setWord_of_ne v (by omega)] at hne ⊢
    exact hidx hne

end

/-! ## What is sent -/

/-- The request is answered with that value, page and permission. -/
def Replied (envid : Nat) (val : Int) (srcva perm : Nat) (t : Trace Call Reply) : Prop :=
  ∃ l r, t = l ++ [⟨.ipcSend envid val srcva perm, r⟩] ∧ sends l = []

section

variable {n envid fileid v : Nat} {s : Server} {t : Trace Call Reply}

theorem ipcSend_replied {val : Int} {srcva perm : Nat} {Q : Server → Prop} (ht : sends t = [])
    (hs : Q s) :
    provided memory (ipcSend envid val srcva perm)
      (fun _ s' t' => Replied envid val srcva perm t' ∧ Q s')
      (fun _ _ t' => Replied envid val srcva perm t') s t := by
  unfold ipcSend
  simp only [Lib.provided_bind, Lib.provided_call, Lib.provided_ite, Lib.provided_pure,
    Lib.provided_throw]
  exact fun r _ => ⟨fun _ _ => ⟨⟨t, r, rfl, ht⟩, hs⟩, fun _ _ => ⟨t, r, rfl, ht⟩⟩

/-- The file of an entry. -/
def Server.fileOf (s : Server) (i : Nat) : Nat := (s.opentab i).o_file

/-- After `serve_set_size` that sends `val`. -/
def Resized (i v : Nat) (s : Server) (val : Int) (s' : Server) : Prop :=
  val < 0 ∧ s' = s ∨ val = 0 ∧ Kept s s' ∧ s'.content.word (sizeAt (s.fileOf i)) = v % 2 ^ 32 ∧
    (s.content.word (sizeAt (s.fileOf i)) ≤ v → Intact (s.put (sizeAt (s.fileOf i)) v) s')

theorem serveSetSize_spec (hc : s.cached (sizeAt (s.fileOf fileid)) = true)
    (ha : s.fileOf fileid % 4 = 0) :
    provided memory (serveSetSize envid fileid v)
      (fun _ s' t' => ∃ val, Replied envid val 0 0 t' ∧ Resized fileid v s val s')
      (fun _ _ t' => sends t' = [] ∨ ∃ val, Replied envid val 0 0 t') s [] := by
  have hrefuse : ∀ {l}, sends l = [] → provided memory (replyError envid .inval)
      (fun _ s' t' => ∃ val, Replied envid val 0 0 t' ∧ Resized fileid v s val s')
      (fun _ _ t' => sends t' = [] ∨ ∃ val, Replied envid val 0 0 t') s l := by
    intro l hl
    refine Lib.provided_mono (ipcSend_replied (Q := (· = s)) hl rfl) ?_ fun _ _ _ _ h => .inr ⟨_, h⟩
    rintro _ s' t' - ⟨ht', hs'⟩
    exact ⟨_, ht', .inl ⟨by decide, hs'⟩⟩
  refine withOpen_spec (fun _ => hrefuse rfl) (fun _ _ => hrefuse rfl) fun r _ _ => ?_
  rw [Lib.provided_bind]
  refine Lib.provided_mono (Lib.provided_and (fileSetSize_spec hc ha)
    (Lib.provided_within memory_answers
      (within_fileSetSize (K := Any) (fun _ _ => trivial) (fun _ => trivial) v) _ _)) ?_ ?_
  · rintro _ s₁ t₁ - ⟨⟨ht₁, h₁⟩, -⟩
    refine Lib.provided_mono (ipcSend_replied (Q := (· = s₁)) ht₁ rfl) ?_ fun _ _ _ _ h => .inr ⟨_, h⟩
    rintro _ s' t' - ⟨ht', rfl⟩
    exact ⟨0, ht', .inr ⟨rfl, h₁⟩⟩
  · rintro _ _ _ - ⟨-, ⟨l, rfl, hl⟩, -⟩
    exact .inl (unsent_quiet hl)

end

end Mos.Fs
