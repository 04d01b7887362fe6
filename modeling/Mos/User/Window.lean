import Mos.User.File

/-!
# Reads and writes stay in the file

The guards of `file_read` and `file_write` compare sums modulo `2 ^ 32`.
-/

namespace Mos.User

open Fs (Err MAXFILESIZE DEVFILE_ID)
open Lib (Bytes wp wp_mono wp_ite)

/-! ## What `memcpy` copies -/

theorem copies_add (src dst j m : Nat) :
    copies src dst (j + m) = copies src dst j ++ copies (src + j) (dst + j) m := by
  unfold copies
  rw [List.range_add, List.map_append, List.map_map]
  congr 1
  refine List.map_congr_left fun k _ => ?_
  rw [Function.comp_apply, Nat.add_assoc, Nat.add_assoc]

@[simp] theorem copies_zero (src dst : Nat) : copies src dst 0 = [] := rfl

theorem mem_copies {src dst n : Nat} {a : Access} :
    a ∈ copies src dst n ↔ ∃ k < n, a = .copy (src + k) (dst + k) := by
  unfold copies
  simp only [List.mem_map, List.mem_range, eq_comm]

theorem copy_add {m : Bytes} {dst src j n : Nat} (h : dst + (j + n) ≤ src ∨ src + (j + n) ≤ dst) :
    (m.copy dst m src j).copy (dst + j) (m.copy dst m src j) (src + j) n =
      m.copy dst m src (j + n) := by
  funext i
  unfold Bytes.copy
  by_cases hi : dst + j ≤ i ∧ i < dst + j + n
  · rw [if_pos hi, if_neg (by omega), if_pos (by omega)]
    congr 1
    omega
  · rw [if_neg hi]
    by_cases hj : dst ≤ i ∧ i < dst + j
    · rw [if_pos hj, if_pos (by omega)]
    · rw [if_neg hj, if_neg (by omega)]

/-- From `s` on, the `j` bytes at `src` have been copied to `dst`. -/
structure Copied (dst src j : Nat) (s s' : Client) : Prop where
  log : s'.log = s.log ++ copies src dst j
  mem : dst + j ≤ src ∨ src + j ≤ dst → s'.mem = s.mem.copy dst s.mem src j
  le : j = 0 ∨ dst + j ≤ ULIM

theorem Copied.zero (dst src : Nat) (s : Client) : Copied dst src 0 s s where
  log := (List.append_nil _).symm
  mem _ := (Bytes.copy_zero _ _ _ _).symm
  le := .inl rfl

theorem Copied.copy {dst src j m : Nat} {s s' : Client} (h : Copied dst src j s s')
    (hle : dst + (j + m) ≤ ULIM) :
    Copied dst src (j + m) s (s'.copy (dst + j) (src + j) m) where
  log := by
    unfold Client.copy
    rw [h.log, copies_add, List.append_assoc]
  mem hd := by
    unfold Client.copy
    rw [h.mem (by omega), copy_add hd]
  le := .inr hle

/-- The copy has stopped at an address of the kernel. -/
def Faulted (dst src n : Nat) (s s' : Client) : Prop :=
  ∃ j < n, Copied dst src j s s' ∧ (ULIM ≤ dst + j ∨ ULIM ≤ src + j)

theorem copyByte_spec {dst src j : Nat} {s₀ s : Client} (h : Copied dst src j s₀ s) :
    wp (copyByte (dst + j) (src + j)) (fun _ => Copied dst src (j + 1) s₀)
      (fun _ s' => Copied dst src j s₀ s' ∧ (ULIM ≤ dst + j ∨ ULIM ≤ src + j)) s := by
  unfold copyByte
  refine (wp_ite _ _).mpr ⟨fun hb => ?_, fun hb => ?_⟩
  · exact (Lib.wp_modify _).mpr (h.copy (by omega))
  · exact (Lib.wp_throw _).mpr ⟨h, by omega⟩

theorem copyBytes_spec (go : Nat → Bool) {dst src n j : Nat} (hj : j ≤ n) {s₀ s : Client}
    (h : Copied dst src j s₀ s) :
    wp (copyBytes go (dst + n) (dst + j) (src + j))
      (fun p s' => ∃ k ≤ n, p = (dst + k, src + k) ∧ Copied dst src k s₀ s' ∧
        (k < n → go (dst + k) = false))
      (fun _ => Faulted dst src n s₀) s := by
  rw [copyBytes]
  refine (wp_ite _ _).mpr ⟨fun hg => ?_, fun hg => ?_⟩
  · refine (Lib.wp_bind _ _).mpr (wp_mono (copyByte_spec h) (fun _ s' hs' => ?_) ?_)
    · exact copyBytes_spec go (j := j + 1) (by omega) hs'
    · exact fun _ s' hs' => ⟨j, by omega, hs'⟩
  · refine (Lib.wp_pure _).mpr ⟨j, hj, rfl, h, fun hlt => ?_⟩
    exact Bool.eq_false_iff.mpr fun hgo => hg ⟨hgo, by omega⟩
termination_by n - j

/-- The loop on words, which starts at a whole word unless all is done. -/
theorem copyWords_spec {dst src n j : Nat} (hd : dst < ULIM) (ha : src % 4 = dst % 4)
    (hn : dst + n < 2 ^ 32) (hj : j ≤ n) (hw : j < n → (dst + j) % 4 = 0) {s₀ s : Client}
    (h : Copied dst src j s₀ s) :
    wp (copyWords (dst + n) (dst + j) (src + j))
      (fun p s' => ∃ k ≤ n, p = (dst + k, src + k) ∧ Copied dst src k s₀ s')
      (fun _ => Faulted dst src n s₀) s := by
  have hle : dst + j ≤ ULIM := by
    have := h.le
    omega
  have hmod : (dst + j + 4) % 2 ^ 32 = dst + j + 4 :=
    Nat.mod_eq_of_lt (by simp only [ULIM] at hle; omega)
  rw [copyWords, hmod]
  refine (wp_ite _ _).mpr ⟨fun hlt => ?_, fun _ => ?_⟩
  · have h4 := hw (by omega)
    split
    · rename_i hb
      refine (Lib.wp_bind _ _).mpr ((Lib.wp_modify _).mpr ?_)
      have hU : dst + (j + 4) ≤ ULIM := by
        simp only [ULIM] at hb ⊢
        omega
      exact copyWords_spec (j := j + 4) hd ha hn (by omega) (by omega) (h.copy hU)
    · rename_i hb
      exact (Lib.wp_throw _).mpr ⟨j, by omega, h, by omega⟩
  · exact (Lib.wp_pure _).mpr ⟨j, hj, rfl, h⟩
termination_by n - j

theorem copyRest_spec {dst src n j : Nat} (hj : j ≤ n) {s₀ s : Client}
    (h : Copied dst src j s₀ s) :
    wp (copyRest (dst + n) (dst + j) (src + j)) (fun _ => Copied dst src n s₀)
      (fun _ => Faulted dst src n s₀) s := by
  unfold copyRest
  refine (Lib.wp_bind _ _).mpr (wp_mono (copyBytes_spec _ hj h) ?_ fun _ _ hs => hs)
  rintro _ s' ⟨k, hk, -, hs', hlt⟩
  have : k = n := by
    by_contra hne
    exact Bool.noConfusion (hlt (by omega))
  subst this
  exact (Lib.wp_pure _).mpr hs'

theorem memcpy_spec {dst src n : Nat} (hd : dst < ULIM) (hn : dst + n < 2 ^ 32) (s : Client) :
    wp (memcpy dst src n) (fun _ => Copied dst src n s) (fun _ => Faulted dst src n s) s := by
  have h0 := Copied.zero dst src s
  unfold memcpy
  rw [Nat.mod_eq_of_lt hn]
  refine (wp_ite _ _).mpr ⟨fun _ => copyRest_spec (Nat.zero_le n) h0, fun ha => ?_⟩
  refine (Lib.wp_bind _ _).mpr
    (wp_mono (copyBytes_spec _ (Nat.zero_le n) h0) ?_ fun _ _ hs => hs)
  rintro _ s₁ ⟨k, hk, rfl, h₁, hgo⟩
  have hw : k < n → (dst + k) % 4 = 0 := fun hlt => by simpa using hgo hlt
  refine (Lib.wp_bind _ _).mpr
    (wp_mono (copyWords_spec hd (by omega) hn hk hw h₁) ?_ fun _ _ hs => hs)
  rintro _ s₂ ⟨l, hl, rfl, h₂⟩
  exact copyRest_spec hl h₂

/-- `memcpy` copies a word because `dst + 4` wraps. -/
def LastWord (dst src n : Nat) : Prop :=
  src % 4 = dst % 4 ∧ (dst + 4) % 2 ^ 32 ≤ (dst + n) % 2 ^ 32

theorem copyBytes_done {go : Nat → Bool} {max dst src : Nat} (h : max ≤ dst) :
    copyBytes go max dst src = pure (dst, src) := by
  rw [copyBytes, if_neg (by omega)]

/-- If the end wraps, nothing is copied. -/
theorem memcpy_wraps {dst src n : Nat} (hd : dst < 2 ^ 32) (hn : (dst + n) % 2 ^ 32 ≤ dst)
    (s : Client) :
    wp (memcpy dst src n) (fun _ s' => s' = s ∧ ¬ LastWord dst src n)
      (fun _ s' => s' = s ∧ LastWord dst src n) s := by
  have hrest : copyRest ((dst + n) % 2 ^ 32) dst src = pure () := by
    unfold copyRest
    rw [copyBytes_done hn]
    rfl
  unfold memcpy LastWord
  dsimp only
  rw [copyBytes_done hn]
  refine (wp_ite _ _).mpr ⟨fun ha => ?_, fun ha => ?_⟩
  · rw [hrest]
    exact (Lib.wp_pure _).mpr ⟨rfl, fun h => ha h.1⟩
  · refine (Lib.wp_bind _ _).mpr ((Lib.wp_pure _).mpr ((Lib.wp_bind _ _).mpr ?_))
    dsimp only
    rw [copyWords]
    refine (wp_ite _ _).mpr ⟨fun hlt => ?_, fun hlt => ?_⟩
    · rw [dif_neg (by simp only [ULIM]; omega)]
      exact (Lib.wp_throw _).mpr ⟨rfl, by omega, hlt⟩
    · refine (Lib.wp_pure _).mpr ?_
      dsimp only
      rw [hrest]
      exact (Lib.wp_pure _).mpr ⟨rfl, fun h => hlt h.2⟩

/-! ## Access to a file -/

/-- What has been done from `s` to `s'` satisfies `P`. -/
def Since (P : Access → Prop) (s s' : Client) : Prop := ∃ l, s'.log = s.log ++ l ∧ ∀ a ∈ l, P a

theorem Since.refl (P : Access → Prop) (s : Client) : Since P s s :=
  ⟨[], (List.append_nil _).symm, fun _ h => nomatch h⟩

theorem Since.trans {P : Access → Prop} {s s₁ s₂ : Client} (h₁ : Since P s s₁)
    (h₂ : Since P s₁ s₂) : Since P s s₂ := by
  obtain ⟨l₁, e₁, p₁⟩ := h₁
  obtain ⟨l₂, e₂, p₂⟩ := h₂
  refine ⟨l₁ ++ l₂, by rw [e₂, e₁, List.append_assoc], fun a ha => ?_⟩
  exact (List.mem_append.mp ha).elim (p₁ a) (p₂ a)

theorem Since.mono {P Q : Access → Prop} {s s' : Client} (h : Since P s s')
    (hPQ : ∀ a, P a → Q a) : Since Q s s' := by
  obtain ⟨l, e, p⟩ := h
  exact ⟨l, e, fun a ha => hPQ a (p a ha)⟩

theorem Since.single {P : Access → Prop} {s s' : Client} {a : Access} (h : s'.log = s.log ++ [a])
    (ha : P a) : Since P s s' :=
  ⟨[a], h, fun _ hb => List.mem_singleton.mp hb ▸ ha⟩

theorem Since.of_log {P : Access → Prop} {s s' : Client} (h : s'.log = s.log) : Since P s s' :=
  ⟨[], by rw [h, List.append_nil], fun _ h => nomatch h⟩

theorem Copied.since {dst src j : Nat} {s s' : Client} {P : Access → Prop}
    (h : Copied dst src j s s') (hP : ∀ k < j, P (.copy (src + k) (dst + k))) : Since P s s' := by
  refine ⟨copies src dst j, h.log, fun a ha => ?_⟩
  obtain ⟨k, hk, rfl⟩ := mem_copies.mp ha
  exact hP k hk

theorem Since.of_copied {dst src j k : Nat} {s₀ s s' : Client} {P Q : Access → Prop}
    (h : Since P s₀ s') (h₀ : Since Q s₀ s) (hc : Copied dst src j s s') (hk : k < j) :
    P (.copy (src + k) (dst + k)) := by
  obtain ⟨l, hl, hP⟩ := h
  obtain ⟨l₀, hl₀, -⟩ := h₀
  have hlog := hl.symm.trans hc.log
  rw [hl₀, List.append_assoc] at hlog
  have : l = l₀ ++ copies src dst j := List.append_cancel_left hlog
  exact hP _ (this ▸ List.mem_append_right _ (mem_copies.mpr ⟨k, hk, rfl⟩))

/-- `f_size` of a descriptor. -/
def Client.size (s : Client) (i : Nat) : Nat := s.mem.word (fsizeAt (index2fd i))

/-- `f_fileid` of a descriptor. -/
def Client.fileid (s : Client) (i : Nat) : Nat := s.mem.word (fileidAt (index2fd i))

/-- The descriptor `i` is open on a file. -/
structure IsFile (s : Client) (i : Nat) : Prop where
  lt : i < MAXFD
  mapped : s.mapped (index2fd i / PTMAP) = true
  dev : s.mem.word (devIdAt (index2fd i)) = DEVFILE_ID
  size : s.size i ≤ MAXFILESIZE

/-- The window of the descriptor `i`. -/
def InWindow (i va : Nat) : Prop := index2data i ≤ va ∧ va < index2data i + PDMAP

/-- The address that is read. -/
def Access.source : Access → Nat
  | .copy src _ => src
  | .map va => va
  | .unmap va => va

/-- The address that is written. -/
def Access.target : Access → Nat
  | .copy _ dst => dst
  | .map va => va
  | .unmap va => va

/-- `file_read` loads from the window only, and a number that is no error is that of the bytes
copied from the file. -/
def ReadsInside (s : Client) (i : Nat) (buf : UserPtr) (n offset : UInt32) : Prop :=
  let k := min n.toNat (s.size i - offset.toNat)
  wp (fileRead (index2fd i) buf.va n.toNat offset.toNat)
    (fun r s' => Since (fun a => InWindow i a.source) s s' ∧
      (0 ≤ r → r = k ∧ Copied buf.va (index2data i + offset.toNat) k s s'))
    (fun _ => Since (fun a => InWindow i a.source) s) s

/-- What `file_write` returns and leaves: stores and mapped pages are in the window, and if the result
is no error, then `n` bytes in front of `MAXFILESIZE` have been copied after pages were mapped. -/
def WriteResult (s : Client) (i buf n offset : Nat) (r : Int) (s' : Client) : Prop :=
  Since (fun a => InWindow i a.target) s s' ∧
    (0 ≤ r → r = n ∧ offset + n ≤ MAXFILESIZE ∧
      ∃ s₁, Since (fun a => ∃ va, a = .map va) s s₁ ∧ Copied (index2data i + offset) buf n s₁ s')

def WritesInside (srv : Answers) (s : Client) (i : Nat) (buf : UserPtr) (n offset : UInt32) : Prop :=
  wp (fileWrite srv (index2fd i) buf.va n.toNat offset.toNat)
    (WriteResult s i buf.va n.toNat offset.toNat)
    (fun _ => Since (fun a => InWindow i a.target) s) s

theorem fd2num_index2fd (i : Nat) : fd2num (index2fd i) = i := by
  simp only [fd2num, index2fd, FDTABLE, FILEBASE, PDMAP, PTMAP]
  omega

theorem fd2data_index2fd (i : Nat) : fd2data (index2fd i) = index2data i := by
  rw [fd2data, fd2num_index2fd]

theorem index2data_le {i : Nat} (h : i < MAXFD) : index2data i + PDMAP ≤ 0x68000000 := by
  simp only [MAXFD] at h
  simp only [index2data, FILEBASE, PDMAP]
  omega

/-! ### Reading -/

/-- The end of the range to read wraps, and that of the buffer does not. -/
def ReadWraps (s : Client) (i : Nat) (buf : UserPtr) (n offset : UInt32) : Prop :=
  offset.toNat ≤ s.size i ∧ 2 ^ 32 ≤ offset.toNat + n.toNat ∧ buf.va + n.toNat < 2 ^ 32

theorem toInt_of_lt {n : Nat} (h : n < 2 ^ 31) : toInt n = n := if_pos h

theorem toInt_neg {n : Nat} (h : ¬ n < 2 ^ 31) (hn : n < 2 ^ 32) : toInt n < 0 := by
  rw [toInt, if_neg h]
  omega

/-- The copy of `file_read`, after `n` has been clamped. -/
def copyOut (i buf n offset : Nat) : Program Int := do
  memcpy buf ((index2data i + offset) % 2 ^ 32) n
  return toInt n

theorem fileRead_eq (s : Client) (i buf n offset : Nat) {Q : Int → Client → Prop}
    {E : Stop → Client → Prop} :
    wp (fileRead (index2fd i) buf n offset) Q E s ↔
      if offset > s.size i then Q 0 s
      else wp (copyOut i buf
        (if (offset + n) % 2 ^ 32 > s.size i then s.size i - offset else n) offset) Q E s := by
  unfold fileRead loadWord copyOut
  simp only [Lib.wp_bind, Lib.wp_get, Lib.wp_pure, fd2data_index2fd, Client.size]
  split
  · exact Lib.wp_pure _
  · simp only [Lib.wp_bind, Lib.wp_pure]
    rfl

/-- A read that does not wrap. -/
theorem copyOut_inside {s : Client} {i k offset : Nat} {buf : UserPtr} (hi : i < MAXFD)
    (hk : offset + k ≤ PDMAP) :
    wp (copyOut i buf.va k offset)
      (fun r s' => Since (fun a => InWindow i a.source) s s' ∧
        (0 ≤ r → r = k ∧ Copied buf.va (index2data i + offset) k s s'))
      (fun _ => Since (fun a => InWindow i a.source) s) s := by
  have hd := index2data_le hi
  have hb := buf.below
  have hin : ∀ j < k, InWindow i (index2data i + offset + j) :=
    fun j hj => ⟨by omega, by omega⟩
  simp only [ULIM, PDMAP] at hb hk hd
  unfold copyOut
  rw [Nat.mod_eq_of_lt (by omega)]
  refine (Lib.wp_bind _ _).mpr (wp_mono (memcpy_spec buf.below (by omega) s) ?_ ?_)
  · intro _ s' hs'
    refine (Lib.wp_pure _).mpr ⟨hs'.since hin, fun _ => ⟨toInt_of_lt (by omega), hs'⟩⟩
  · rintro _ s' ⟨j, hj, hs', -⟩
    exact hs'.since fun l hl => hin l (by omega)

theorem copyOut_wraps {s : Client} {i n offset : Nat} {buf : UserPtr} (ho : offset ≤ PDMAP)
    (hn : n < 2 ^ 32) (hw : 2 ^ 32 ≤ offset + n) (hb : 2 ^ 32 ≤ buf.va + n) :
    wp (copyOut i buf.va n offset) (fun r s' => r < 0 ∧ s' = s) (fun _ s' => s' = s) s := by
  have hlt := buf.below
  simp only [ULIM, PDMAP] at hlt ho
  refine (Lib.wp_bind _ _).mpr
    (wp_mono (memcpy_wraps (by omega) (by omega) s) (fun _ s' hs' => ?_) fun _ _ hs' => hs'.1)
  exact (Lib.wp_pure _).mpr ⟨toInt_neg (by omega) hn, hs'.1⟩

/-- A copy that wraps in the file only leaves the window. -/
theorem copyOut_leaves {s : Client} {i n offset : Nat} {buf : UserPtr} (hi : i < MAXFD)
    (ho : offset ≤ PDMAP) (hw : 2 ^ 32 ≤ offset + n) (hb : buf.va + n < 2 ^ 32) :
    wp (copyOut i buf.va n offset) (fun _ s' => ¬ Since (fun a => InWindow i a.source) s s')
      (fun _ s' => ¬ Since (fun a => InWindow i a.source) s s') s := by
  have hd := index2data_le hi
  have hout : ¬ InWindow i (index2data i + offset + (PDMAP - offset)) := fun h => by
    have := h.2
    omega
  have hbuf := buf.below
  simp only [ULIM, PDMAP] at hbuf ho hd
  have leaves : ∀ j s', PDMAP - offset < j → Copied buf.va (index2data i + offset) j s s' →
      ¬ Since (fun a => InWindow i a.source) s s' :=
    fun j s' hj hs' h => hout (h.of_copied (.refl (fun _ => True) s) hs' hj)
  unfold copyOut
  rw [Nat.mod_eq_of_lt (by omega)]
  refine (Lib.wp_bind _ _).mpr (wp_mono (memcpy_spec buf.below hb s) (fun _ s' hs' => ?_) ?_)
  · exact (Lib.wp_pure _).mpr (leaves n s' (by simp only [PDMAP]; omega) hs')
  · rintro _ s' ⟨j, -, hs', hf⟩
    exact leaves j s' (by simp only [ULIM] at hf; simp only [PDMAP]; omega) hs'

/-- Exactly when a read stays in the file. -/
theorem readsInside_iff {s : Client} {i : Nat} (h : IsFile s i) (buf : UserPtr)
    (n offset : UInt32) : ReadsInside s i buf n offset ↔ ¬ ReadWraps s i buf n offset := by
  have hsize : s.size i ≤ PDMAP := h.size
  have hn := n.toNat_lt
  unfold ReadsInside ReadWraps
  rw [fileRead_eq]
  by_cases ho : offset.toNat > s.size i
  · rw [if_pos ho, show min n.toNat (s.size i - offset.toNat) = 0 by omega]
    exact iff_of_true ⟨.refl _ s, fun _ => ⟨rfl, .zero _ _ s⟩⟩ fun hw => by omega
  rw [if_neg ho]
  by_cases hw : 2 ^ 32 ≤ offset.toNat + n.toNat
  · rw [if_neg (by omega)]
    by_cases hb : buf.va + n.toNat < 2 ^ 32
    · refine iff_of_false (fun hin => ?_) fun hno => hno ⟨by omega, hw, hb⟩
      have hwp := Lib.wp_and hin (copyOut_leaves h.lt (by omega) hw hb)
      obtain ⟨_, _, _, hres, hleft⟩ := Lib.exists_of_wp_of_not hwp fun _ _ hs => hs.2 hs.1
      exact hleft hres.1
    · refine iff_of_true ?_ fun hno => hb hno.2.2
      refine wp_mono (copyOut_wraps (by omega) hn hw (by omega)) ?_ ?_
      · rintro r _ ⟨hr, rfl⟩
        exact ⟨.refl _ _, fun hle => by omega⟩
      · rintro _ _ rfl
        exact .refl _ _
  · refine iff_of_true ?_ fun hno => hw hno.2.1
    have hk : (if (offset.toNat + n.toNat) % 2 ^ 32 > s.size i then s.size i - offset.toNat
        else n.toNat) = min n.toNat (s.size i - offset.toNat) := by
      split <;> omega
    rw [hk]
    exact copyOut_inside h.lt (by omega)

/-! ### Growing -/

/-- The server has sent a page as `fsipc_map` expects it. -/
def Answer.Ok (a : Answer) : Prop := 0 ≤ a.val ∧ permOk a.perm = true

/-- The server sets the size of the file and sends each page that the file gets. -/
def Granted (srv : Answers) (s : Client) (i tot : Nat) : Prop :=
  0 ≤ srv.setSize (s.fileid i) tot ∧
    ∀ j, round (s.size i) ≤ j → j < round tot → PTMAP ∣ j → (srv.map (s.fileid i) j).Ok

theorem fsipcMap_spec (srv : Answers) (fileid offset va : Nat) (s : Client) :
    wp (fsipcMap srv fileid offset va)
      (fun r s' => Since (fun a => a = .map va) s s' ∧ (0 ≤ r ↔ (srv.map fileid offset).Ok))
      (fun _ s' => Since (fun a => a = .map va) s s' ∧ ¬ (srv.map fileid offset).Ok) s := by
  have hrec : wp (receive (srv.map fileid offset) va)
      (fun _ => Since (fun a => a = .map va) s) (fun _ _ => False) s := by
    unfold receive
    split
    · exact (Lib.wp_modify _).mpr (.single rfl rfl)
    · exact (Lib.wp_pure _).mpr (.refl _ s)
  unfold fsipcMap Answer.Ok
  dsimp only
  refine (Lib.wp_bind _ _).mpr (wp_mono hrec (fun _ s' hs' => ?_) fun _ _ h => h.elim)
  refine (wp_ite _ _).mpr ⟨fun hneg => ?_, fun hpos => ?_⟩
  · exact (Lib.wp_pure _).mpr ⟨hs', by omega⟩
  · refine (wp_ite _ _).mpr ⟨fun hp => ?_, fun hp => ?_⟩
    · exact (Lib.wp_pure _).mpr ⟨hs', iff_of_true (by omega) ⟨by omega, hp⟩⟩
    · exact (Lib.wp_throw _).mpr ⟨hs', fun hok => hp hok.2⟩

/-- A page that is mapped for one of the `n` turns from `i` on. -/
def MapsPage (va i n : Nat) (a : Access) : Prop := ∃ k < n, a = .map (va + (i + k * PTMAP))

theorem MapsPage.first (va i n : Nat) : MapsPage va i (n + 1) (.map (va + i)) :=
  ⟨0, by omega, by simp⟩

theorem MapsPage.next {va i n : Nat} {a : Access} (h : MapsPage va (i + PTMAP) n a) :
    MapsPage va i (n + 1) a := by
  obtain ⟨k, hk, rfl⟩ := h
  refine ⟨k + 1, by omega, ?_⟩
  rw [Nat.succ_mul, Nat.add_assoc, Nat.add_comm PTMAP]

theorem forall_lt_succ_page {P : Nat → Prop} {i n : Nat} :
    (∀ k < n + 1, P (i + k * PTMAP)) ↔ P i ∧ ∀ k < n, P (i + PTMAP + k * PTMAP) := by
  have hadd : ∀ k, i + (k + 1) * PTMAP = i + PTMAP + k * PTMAP := fun k => by
    rw [Nat.succ_mul]
    omega
  constructor
  · refine fun h => ⟨by simpa using h 0 (by omega), fun k hk => ?_⟩
    rw [← hadd]
    exact h (k + 1) (by omega)
  · rintro ⟨h0, h⟩ k hk
    rcases k with _ | k
    · simpa using h0
    · rw [hadd]
      exact h k (by omega)

theorem mapFrom_spec (srv : Answers) (fileid oldsize va n i : Nat) (s : Client) :
    wp (mapFrom srv fileid oldsize va n i)
      (fun r s' => Since (MapsPage va i n) s s' ∧
        (0 ≤ r ↔ ∀ k < n, (srv.map fileid (i + k * PTMAP)).Ok))
      (fun _ s' => Since (MapsPage va i n) s s' ∧
        ¬ ∀ k < n, (srv.map fileid (i + k * PTMAP)).Ok) s := by
  induction n generalizing i s with
  | zero =>
    unfold mapFrom
    exact (Lib.wp_pure _).mpr ⟨.refl _ s, iff_of_true (by omega) fun k hk => by omega⟩
  | succ n ih =>
    have hfirst : ∀ {s'}, Since (fun a => a = .map (va + i)) s s' →
        Since (MapsPage va i (n + 1)) s s' :=
      fun hs' => hs'.mono fun a ha => ha ▸ .first va i n
    have hall := forall_lt_succ_page (P := fun j => (srv.map fileid j).Ok) (i := i) (n := n)
    unfold mapFrom
    refine (Lib.wp_bind _ _).mpr (wp_mono (fsipcMap_spec srv fileid i (va + i) s) ?_ ?_)
    · rintro r s₁ ⟨h₁, hr⟩
      refine (wp_ite _ _).mpr ⟨fun hneg => ?_, fun hpos => ?_⟩
      · refine (Lib.wp_pure _).mpr ⟨hfirst h₁, iff_of_false ?_ fun h => ?_⟩
        · split <;> omega
        · have := hr.mpr (hall.mp h).1
          omega
      · refine wp_mono (ih (i + PTMAP) s₁) ?_ ?_
        · rintro r' s₂ ⟨h₂, hr'⟩
          refine ⟨(hfirst h₁).trans (h₂.mono fun _ => .next), hr'.trans ?_⟩
          rw [hall]
          exact ⟨fun h => ⟨hr.mp (by omega), h⟩, fun h => h.2⟩
        · rintro _ s₂ ⟨h₂, hno⟩
          exact ⟨(hfirst h₁).trans (h₂.mono fun _ => .next), fun h => hno (hall.mp h).2⟩
    · rintro _ s₁ ⟨h₁, hno⟩
      exact ⟨hfirst h₁, fun h => hno (hall.mp h).1⟩

theorem round_of_le {a : Nat} (h : a ≤ MAXFILESIZE) : round a = (a + 4095) / 4096 * 4096 := by
  have : MAXFILESIZE = 4194304 := rfl
  unfold round PTMAP
  rw [Nat.mod_eq_of_lt (by omega)]

theorem round_le {a : Nat} (h : a ≤ MAXFILESIZE) : round a ≤ PDMAP := by
  have : MAXFILESIZE = 4194304 := rfl
  have : PDMAP = 4194304 := rfl
  rw [round_of_le h]
  omega

theorem round_mono {a b : Nat} (hab : a ≤ b) (hb : b ≤ MAXFILESIZE) : round a ≤ round b := by
  rw [round_of_le (by omega), round_of_le hb]
  omega

theorem dvd_round (a : Nat) : PTMAP ∣ round a := ⟨_, Nat.mul_comm _ _⟩

theorem forall_turns_iff {P : Nat → Prop} {a b : Nat} :
    (∀ k < turns a b, P (round a + k * PTMAP)) ↔
      ∀ j, round a ≤ j → j < round b → PTMAP ∣ j → P j := by
  obtain ⟨x, hx⟩ := dvd_round a
  obtain ⟨y, hy⟩ := dvd_round b
  have ht : turns a b = y - x := by
    unfold turns
    rw [hx, hy, ← Nat.mul_sub, Nat.mul_div_cancel_left _ (by decide)]
  rw [ht, hx, hy]
  simp only [PTMAP]
  constructor
  · rintro h j hle hlt ⟨z, rfl⟩
    have := h (z - x) (by omega)
    rwa [show 4096 * x + (z - x) * 4096 = 4096 * z by omega] at this
  · exact fun h k hk => h _ (by omega) (by omega) ⟨x + k, by omega⟩

/-- A page is mapped in the window. -/
def MapIn (i : Nat) (a : Access) : Prop := ∃ va, a = .map va ∧ InWindow i va

theorem MapsPage.mapIn {i old size : Nat} (hs : size ≤ MAXFILESIZE) {a : Access}
    (h : MapsPage (index2data i) (round old) (turns old size) a) : MapIn i a := by
  obtain ⟨k, hk, rfl⟩ := h
  have hle := round_le hs
  have hpage : ∀ k < turns old size, round old + k * PTMAP < PDMAP :=
    (forall_turns_iff (P := fun j => j < PDMAP)).mpr fun j _ hj _ => by omega
  have := hpage k hk
  exact ⟨_, rfl, by omega, by omega⟩

theorem remap_spec (srv : Answers) {fileid old size i : Nat} (hs : size ≤ MAXFILESIZE)
    (hle : old ≤ size) (s : Client) :
    wp (remap srv fileid old size (index2data i))
      (fun r s' => Since (MapIn i) s s' ∧
        (0 ≤ r ↔ ∀ k < turns old size, (srv.map fileid (round old + k * PTMAP)).Ok))
      (fun _ s' => Since (MapIn i) s s' ∧
        ¬ ∀ k < turns old size, (srv.map fileid (round old + k * PTMAP)).Ok) s := by
  have hturns : turns size old = 0 := by
    have := round_mono hle hs
    unfold turns
    rw [Nat.sub_eq_zero_of_le this, Nat.zero_div]
  unfold remap
  rw [hturns]
  refine (Lib.wp_bind _ _).mpr (wp_mono (mapFrom_spec srv fileid old _ _ _ s) ?_ ?_)
  · rintro r s₁ ⟨h₁, hr⟩
    have hin := h₁.mono fun _ => MapsPage.mapIn hs
    refine (wp_ite _ _).mpr ⟨fun _ => (Lib.wp_pure _).mpr ⟨hin, hr⟩, fun hpos => ?_⟩
    unfold unmapFrom
    refine (Lib.wp_bind _ _).mpr ((Lib.wp_pure _).mpr ((Lib.wp_pure _).mpr ⟨hin, ?_⟩))
    exact iff_of_true (by omega) (hr.mp (by omega))
  · rintro _ s₁ ⟨h₁, hno⟩
    exact ⟨h₁.mono fun _ => MapsPage.mapIn hs, hno⟩

theorem ftruncate_spec (srv : Answers) {s : Client} {i size : Nat} (h : IsFile s i)
    (hs : size ≤ MAXFILESIZE) (hle : s.size i ≤ size) :
    wp (ftruncate srv i size)
      (fun r s' => Since (MapIn i) s s' ∧ (0 ≤ r ↔ Granted srv s i size))
      (fun _ s' => Since (MapIn i) s s' ∧ ¬ Granted srv s i size) s := by
  have hgrant : Granted srv s i size ↔ 0 ≤ srv.setSize (s.fileid i) size ∧
      ∀ k < turns (s.size i) size,
        (srv.map (s.fileid i) (round (s.size i) + k * PTMAP)).Ok := by
    exact and_congr_right' (forall_turns_iff (P := fun j => (srv.map (s.fileid i) j).Ok)).symm
  have hlt := h.lt
  unfold ftruncate fdLookup loadWord storeWord
  rw [if_neg (by omega), if_neg (by omega)]
  simp only [Lib.wp_bind, Lib.wp_get, Lib.wp_pure, h.mapped, if_true, h.dev, ne_eq,
    not_true_eq_false, if_false, Lib.wp_modify, fd2data_index2fd]
  refine (wp_ite _ _).mpr ⟨fun hneg => ?_, fun hpos => ?_⟩
  · exact (Lib.wp_pure _).mpr ⟨.of_log rfl, iff_of_false (by simpa using hneg) fun hg =>
      absurd (hgrant.mp hg).1 (by simpa [Client.fileid] using hneg)⟩
  · refine wp_mono (remap_spec srv hs hle _) ?_ ?_
    · rintro r s' ⟨h', hr⟩
      refine ⟨(Since.of_log rfl).trans h', hr.trans ?_⟩
      rw [hgrant]
      exact ⟨fun hk => ⟨by simpa [Client.fileid] using hpos, hk⟩, fun hk => hk.2⟩
    · rintro _ s' ⟨h', hno⟩
      exact ⟨(Since.of_log rfl).trans h', fun hg => hno (hgrant.mp hg).2⟩

theorem growTo_spec (srv : Answers) {s : Client} {i tot : Nat} (h : IsFile s i)
    (ht : tot ≤ MAXFILESIZE) :
    wp (growTo srv (index2fd i) tot)
      (fun r s' => Since (MapIn i) s s' ∧ (0 ≤ r ↔ (s.size i < tot → Granted srv s i tot)))
      (fun _ s' => Since (MapIn i) s s' ∧ ¬ (s.size i < tot → Granted srv s i tot)) s := by
  unfold growTo loadWord
  simp only [Lib.wp_bind, Lib.wp_get, Lib.wp_pure, fd2num_index2fd]
  refine (wp_ite _ _).mpr ⟨fun hlt => ?_, fun hle => ?_⟩
  · refine wp_mono (ftruncate_spec srv h ht (Nat.le_of_lt hlt)) ?_ ?_
    · exact fun r s' hs' => ⟨hs'.1, hs'.2.trans ⟨fun hg _ => hg, fun hg => hg hlt⟩⟩
    · exact fun _ s' hs' => ⟨hs'.1, fun hg => hs'.2 (hg hlt)⟩
  · exact (Lib.wp_pure _).mpr ⟨.refl _ s, iff_of_true (by omega) fun hlt => absurd hlt hle⟩

/-! ### Writing -/

/-- The end of the range to write wraps, the guards let it pass, and the copy starts in front of the
window or does nothing. -/
def WriteWraps (srv : Answers) (s : Client) (i : Nat) (buf : UserPtr) (n offset : UInt32) : Prop :=
  let tot := (offset.toNat + n.toNat) % 2 ^ 32
  let dst := index2data i + offset.toNat
  2 ^ 32 ≤ offset.toNat + n.toNat ∧ tot ≤ MAXFILESIZE ∧ (s.size i < tot → Granted srv s i tot) ∧
    (2 ^ 32 ≤ dst ∨ n.toNat < 2 ^ 31 ∧ ¬ LastWord dst buf.va n.toNat)

theorem MapIn.target {i : Nat} {a : Access} (h : MapIn i a) : InWindow i a.target := by
  obtain ⟨va, rfl, hva⟩ := h
  exact hva

theorem MapIn.map {i : Nat} {a : Access} (h : MapIn i a) : ∃ va, a = .map va := by
  obtain ⟨va, rfl, -⟩ := h
  exact ⟨va, rfl⟩

/-- The copy of `file_write`. -/
def copyIn (i buf n offset : Nat) : Program Int := do
  memcpy ((index2data i + offset) % 2 ^ 32) buf n
  return toInt n

theorem copyIn_inside {s : Client} {i n offset : Nat} (buf : UserPtr) (hi : i < MAXFD)
    (hk : offset + n ≤ PDMAP) :
    wp (copyIn i buf.va n offset)
      (fun r s' => Since (fun a => InWindow i a.target) s s' ∧
        r = n ∧ Copied (index2data i + offset) buf.va n s s')
      (fun _ => Since (fun a => InWindow i a.target) s) s := by
  have hd := index2data_le hi
  have hin : ∀ j < n, InWindow i (index2data i + offset + j) :=
    fun j hj => ⟨by omega, by omega⟩
  simp only [PDMAP] at hk hd
  unfold copyIn
  rw [Nat.mod_eq_of_lt (by omega)]
  refine (Lib.wp_bind _ _).mpr
    (wp_mono (memcpy_spec (by simp only [ULIM]; omega) (by omega) s) ?_ ?_)
  · intro _ s' hs'
    exact (Lib.wp_pure _).mpr ⟨hs'.since hin, toInt_of_lt (by omega), hs'⟩
  · rintro _ s' ⟨j, hj, hs', -⟩
    exact hs'.since fun l hl => hin l (by omega)

/-- A copy to an address that has wrapped leaves the window. -/
theorem copyIn_leaves {s₀ s : Client} {P : Access → Prop} (h₀ : Since P s₀ s) {i n offset : Nat}
    (buf : UserPtr) (hi : i < MAXFD) (ho : offset < 2 ^ 32) (hn : n < 2 ^ 32) (hw : 2 ^ 32 ≤ offset + n)
    (ht : offset + n ≤ 2 ^ 32 + PDMAP) (hd : 2 ^ 32 ≤ index2data i + offset) :
    wp (copyIn i buf.va n offset) (fun _ s' => ¬ Since (fun a => InWindow i a.target) s₀ s')
      (fun _ s' => ¬ Since (fun a => InWindow i a.target) s₀ s') s := by
  have hle := index2data_le hi
  have hbuf := buf.below
  obtain ⟨dst, hdst⟩ := Nat.exists_eq_add_of_le' hd
  have hout : ¬ InWindow i (dst + 0) := fun h => by
    have := h.1
    omega
  have leaves : ∀ j s', 0 < j → Copied dst buf.va j s s' →
      ¬ Since (fun a => InWindow i a.target) s₀ s' :=
    fun j s' hj hs' h => hout (h.of_copied h₀ hs' hj)
  simp only [PDMAP] at hle ht
  have hlow : dst < ULIM := by
    simp only [ULIM]
    omega
  unfold copyIn
  rw [hdst, Nat.add_mod_right, Nat.mod_eq_of_lt (by omega)]
  refine (Lib.wp_bind _ _).mpr (wp_mono (memcpy_spec hlow (by omega) s) (fun _ s' hs' => ?_) ?_)
  · exact (Lib.wp_pure _).mpr (leaves n s' (by omega) hs')
  · rintro _ s' ⟨j, -, hs', hf⟩
    exact leaves j s' (by omega) hs'

theorem copyIn_wraps {s : Client} {i n offset : Nat} (buf : UserPtr)
    (hn : n < 2 ^ 32) (hw : 2 ^ 32 ≤ offset + n) (hd : index2data i + offset < 2 ^ 32) :
    wp (copyIn i buf.va n offset)
      (fun r s' => r = toInt n ∧ s' = s ∧ ¬ LastWord (index2data i + offset) buf.va n)
      (fun _ s' => s' = s ∧ LastWord (index2data i + offset) buf.va n) s := by
  unfold copyIn
  rw [Nat.mod_eq_of_lt hd]
  refine (Lib.wp_bind _ _).mpr
    (wp_mono (memcpy_wraps hd (by omega) s) (fun _ s' hs' => ?_) fun _ _ hs' => hs')
  exact (Lib.wp_pure _).mpr ⟨rfl, hs'⟩

theorem fileWrite_eq (srv : Answers) (s : Client) (i buf n offset : Nat)
    {Q : Int → Client → Prop} {E : Stop → Client → Prop} :
    wp (fileWrite srv (index2fd i) buf n offset) Q E s ↔
      if (offset + n) % 2 ^ 32 > MAXFILESIZE then Q Err.noDisk.code s
      else wp (growTo srv (index2fd i) ((offset + n) % 2 ^ 32))
        (fun r s' => if r < 0 then Q r s' else wp (copyIn i buf n offset) Q E s') E s := by
  have hlast : ∀ (r : Int) s', wp (if r < 0 then pure r else copyIn i buf n offset) Q E s' ↔
      if r < 0 then Q r s' else wp (copyIn i buf n offset) Q E s' := fun r s' => by
    split
    · exact Lib.wp_pure _
    · exact Iff.rfl
  have hbody : fileWrite srv (index2fd i) buf n offset =
      if (offset + n) % 2 ^ 32 > MAXFILESIZE then pure Err.noDisk.code
      else growTo srv (index2fd i) ((offset + n) % 2 ^ 32) >>= fun r =>
        if r < 0 then pure r else copyIn i buf n offset := by
    unfold fileWrite copyIn
    rw [fd2data_index2fd]
  rw [hbody]
  split
  · exact Lib.wp_pure _
  · rw [Lib.wp_bind]
    simp only [hlast]

theorem fileWrite_copies (srv : Answers) {s : Client} {i buf n offset : Nat} (h : IsFile s i)
    {Q : Int → Client → Prop} {E : Stop → Client → Prop}
    (ht : (offset + n) % 2 ^ 32 ≤ MAXFILESIZE)
    (hfail : ∀ r s', r < 0 → Since (MapIn i) s s' → Q r s')
    (hstop : ∀ e s', Since (MapIn i) s s' → E e s')
    (hcopy : (s.size i < (offset + n) % 2 ^ 32 → Granted srv s i ((offset + n) % 2 ^ 32)) →
      ∀ s₁, Since (MapIn i) s s₁ → wp (copyIn i buf n offset) Q E s₁) :
    wp (fileWrite srv (index2fd i) buf n offset) Q E s := by
  rw [fileWrite_eq, if_neg (by omega)]
  refine wp_mono (growTo_spec srv h ht) (fun r s₁ hs₁ => ?_) fun e s₁ hs₁ => hstop e s₁ hs₁.1
  split
  · rename_i hneg
    exact hfail r s₁ hneg hs₁.1
  · rename_i hpos
    exact hcopy (hs₁.2.mp (by omega)) s₁ hs₁.1

theorem fileWrite_copied (srv : Answers) {s : Client} {i buf n offset : Nat} (h : IsFile s i)
    {Q : Int → Client → Prop} {E : Stop → Client → Prop}
    (ht : (offset + n) % 2 ^ 32 ≤ MAXFILESIZE)
    (hg : s.size i < (offset + n) % 2 ^ 32 → Granted srv s i ((offset + n) % 2 ^ 32))
    (hw : wp (fileWrite srv (index2fd i) buf n offset) Q E s) :
    ∃ s₁, Since (MapIn i) s s₁ ∧ wp (copyIn i buf n offset) Q E s₁ := by
  rw [fileWrite_eq, if_neg (by omega)] at hw
  obtain ⟨r, s₁, -, hcopy, hs₁, hr⟩ := Lib.exists_of_wp_of_not
    (Lib.wp_and hw (growTo_spec srv h ht)) fun _ _ hs => hs.2.2 hg
  have hpos := hr.mpr hg
  rw [if_neg (by omega)] at hcopy
  exact ⟨s₁, hs₁, hcopy⟩

/-- Exactly when a write stays in the file. -/
theorem writesInside_iff (srv : Answers) {s : Client} {i : Nat} (h : IsFile s i) (buf : UserPtr)
    (n offset : UInt32) : WritesInside srv s i buf n offset ↔ ¬ WriteWraps srv s i buf n offset := by
  have hn := n.toNat_lt
  have ho := offset.toNat_lt
  have hmax : MAXFILESIZE = PDMAP := rfl
  have hin : ∀ {s'}, Since (MapIn i) s s' → Since (fun a => InWindow i a.target) s s' :=
    fun hs => hs.mono fun _ => MapIn.target
  have hfail : ∀ r s', r < 0 → Since (MapIn i) s s' →
      WriteResult s i buf.va n.toNat offset.toNat r s' :=
    fun r s' hr hs => ⟨hin hs, fun hle => by omega⟩
  unfold WritesInside WriteWraps
  dsimp only
  by_cases ht : (offset.toNat + n.toNat) % 2 ^ 32 ≤ MAXFILESIZE
  case neg =>
    refine iff_of_true ?_ fun hno => ht hno.2.1
    rw [fileWrite_eq, if_pos (by omega)]
    exact hfail _ s (by decide) (.refl _ s)
  by_cases hw : 2 ^ 32 ≤ offset.toNat + n.toNat
  case neg =>
    refine iff_of_true ?_ fun hno => hw hno.1
    refine fileWrite_copies srv h ht hfail (fun _ _ => hin) fun _ s₁ h₁ => ?_
    refine wp_mono (copyIn_inside buf h.lt (by omega)) ?_ fun _ _ hs => (hin h₁).trans hs
    rintro r s' ⟨hs, hr, hc⟩
    exact ⟨(hin h₁).trans hs, fun _ => ⟨hr, by omega, s₁, h₁.mono fun _ => MapIn.map, hc⟩⟩
  by_cases hd : 2 ^ 32 ≤ index2data i + offset.toNat
  · by_cases hg : s.size i < (offset.toNat + n.toNat) % 2 ^ 32 →
        Granted srv s i ((offset.toNat + n.toNat) % 2 ^ 32)
    · refine iff_of_false (fun hwp => ?_) fun hno => hno ⟨hw, ht, hg, .inl hd⟩
      obtain ⟨s₁, h₁, hcopy⟩ := fileWrite_copied srv h ht hg hwp
      have hno := Lib.wp_and hcopy (copyIn_leaves h₁ buf h.lt ho hn hw (by omega) hd)
      obtain ⟨_, _, _, hres, hleft⟩ := Lib.exists_of_wp_of_not hno fun _ _ hs => hs.2 hs.1
      exact hleft hres.1
    · refine iff_of_true ?_ fun hno => hg hno.2.2.1
      exact fileWrite_copies srv h ht hfail (fun _ _ => hin) fun hg' => absurd hg' hg
  · have hdst : index2data i + offset.toNat < 2 ^ 32 := by omega
    by_cases hg : (s.size i < (offset.toNat + n.toNat) % 2 ^ 32 →
        Granted srv s i ((offset.toNat + n.toNat) % 2 ^ 32)) ∧ n.toNat < 2 ^ 31 ∧
          ¬ LastWord (index2data i + offset.toNat) buf.va n.toNat
    · refine iff_of_false (fun hwp => ?_) fun hno => hno ⟨hw, ht, hg.1, .inr hg.2⟩
      obtain ⟨s₁, h₁, hcopy⟩ := fileWrite_copied srv h ht hg.1 hwp
      obtain ⟨r, s', -, hres, hr, -⟩ := Lib.exists_of_wp_of_not
        (Lib.wp_and hcopy (copyIn_wraps buf hn hw hdst)) fun _ _ hs => hg.2.2 hs.2.2
      rw [toInt_of_lt hg.2.1] at hr
      have := (hres.2 (by omega)).2.1
      simp only [hmax, PDMAP] at this
      omega
    · refine iff_of_true ?_ fun hno => ?_
      · refine fileWrite_copies srv h ht hfail (fun _ _ => hin) fun hg' s₁ h₁ => ?_
        refine wp_mono (copyIn_wraps buf hn hw hdst) ?_ ?_
        · rintro r _ ⟨rfl, rfl, hlast⟩
          refine ⟨hin h₁, fun hle => ?_⟩
          have := toInt_neg (fun hlt => hg ⟨hg', hlt, hlast⟩) hn
          omega
        · rintro _ _ ⟨rfl, -⟩
          exact hin h₁
      · rcases hno.2.2.2 with hd' | hr
        · exact hd hd'
        · exact hg ⟨hno.2.2.1, hr⟩

/-- Reads and writes stay in the file exactly when no sum wraps on the way to a copy. -/
theorem access_inside_iff (srv : Answers) (s : Client) (i : Nat) (h : IsFile s i) (buf : UserPtr)
    (n offset : UInt32) :
    (ReadsInside s i buf n offset ↔ ¬ ReadWraps s i buf n offset) ∧
      (WritesInside srv s i buf n offset ↔ ¬ WriteWraps srv s i buf n offset) :=
  ⟨readsInside_iff h buf n offset, writesInside_iff srv h buf n offset⟩

/-- Descriptor 1 is open on an empty file. -/
def emptyFile : Client where
  mem a := if a = index2fd 1 then 102 else 0
  mapped _ := true
  log := []

theorem isFile_emptyFile : IsFile emptyFile 1 := by
  refine ⟨by decide, rfl, by decide, by decide⟩

/-- The server refuses everything. -/
def refusing : Answers := ⟨fun _ _ => ⟨-3, 0, none⟩, fun _ _ => -3⟩

def textPtr : UserPtr := ⟨0x400000, by decide⟩

/-- At offset 10 in the empty file, nothing can be read and the server has to grow the file. -/
theorem access_inside_iff_empty :
    ReadsInside emptyFile 1 textPtr 5 10 ∧ WritesInside refusing emptyFile 1 textPtr 5 10 := by
  have h := access_inside_iff refusing emptyFile 1 isFile_emptyFile textPtr 5 10
  exact ⟨h.1.mpr fun hw => absurd hw.2.1 (by decide), h.2.mpr fun hw => absurd hw.1 (by decide)⟩

/-- One byte at the offset `-1` goes to the last byte of the window of descriptor 0. -/
theorem not_access_inside :
    ¬ ∀ (srv : Answers) (s : Client) (i : Nat), IsFile s i → ∀ (buf : UserPtr) (n offset : UInt32),
      ReadsInside s i buf n offset ∧ WritesInside srv s i buf n offset := by
  intro h
  refine (writesInside_iff refusing isFile_emptyFile textPtr 1 0xFFFFFFFF).mp
    (h refusing emptyFile 1 isFile_emptyFile textPtr 1 0xFFFFFFFF).2 ⟨by decide, by decide, ?_, ?_⟩
  · exact fun hlt => absurd hlt (by decide)
  · exact .inl (by decide)

end Mos.User
