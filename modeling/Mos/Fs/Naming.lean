import Mos.Fs.Names
import Mos.Fs.Requests

/-!
# Making and removing names

A file that is made adds one path, and a file that is removed takes one path and what was
below it away. The other paths mean what they meant.
-/

namespace Mos.Fs

open Lib (Bytes Cond provided)
open Lib.Proc (Trace World)

section

variable {n : Nat} {Z : Set Nat} {c c' c'' : Bytes}

/-! ## A place for a name -/

/-- `f` is a place without a name in `dir`, which has at most got a block of such places. -/
structure Offers (dir f : Nat) (c c' : Bytes) : Prop where
  mem : f ∈ slots c' dir
  unnamed : c' f = 0
  full : Full c' dir
  tight : ∀ i, c'.word (sizeAt dir) / BLOCK_SIZE ≤ i → heldBlock c' dir (.block i) = 0
  name : ∀ k < 128, c' (dir + k) = c (dir + k)
  slots : slots c' dir = slots c dir ∨
    ∃ b, slots c' dir = slots c dir ++ blockSlots (diskAddr b) ∧ Blank c' b

theorem Blank.slot {b g : Nat} (h : Blank c b) (hg : g ∈ blockSlots (diskAddr b)) : c g = 0 := by
  have h16 : FILE2BLK = 16 := rfl
  obtain ⟨j, hj, rfl⟩ := mem_blockSlots.mp hg
  exact h _ (by rw [fileAt_eq]; omega) (by rw [fileAt_eq]; omega)

theorem Blank.slot_word {b g k : Nat} (h : Blank c b) (hg : g ∈ blockSlots (diskAddr b))
    (hk : k + 4 ≤ 256) : c.word (g + k) = 0 := by
  have h16 : FILE2BLK = 16 := rfl
  obtain ⟨j, hj, rfl⟩ := mem_blockSlots.mp hg
  exact h.word (by rw [fileAt_eq]; omega) (by rw [fileAt_eq]; omega)

theorem slots_grow {dir i : Nat} (hi : c.word (sizeAt dir) / BLOCK_SIZE = i)
    (hi' : c'.word (sizeAt dir) / BLOCK_SIZE = i + 1)
    (hheld : ∀ j < i, heldBlock c' dir (.block j) = heldBlock c dir (.block j)) :
    Fs.slots c' dir = Fs.slots c dir ++ blockSlots (diskAddr (heldBlock c' dir (.block i))) := by
  unfold Fs.slots
  rw [hi, hi', List.range_succ, List.flatMap_append, List.flatMap_singleton]
  refine congrArg (· ++ _) (List.flatMap_congr fun j hj => ?_)
  rw [hheld j (List.mem_range.mp hj)]

end

section

variable {M : Cond Call Reply} {E : Stop → Server → Trace Call Reply → Prop} {s : Server}
  {t : Trace Call Reply} {n : Nat} {Z : Set Nat}

theorem growDir_offers (hs : Ready n Z s) {dir : Nat} (hd : IsFile s.content Z dir)
    (hc : s.cached dir = true) (ht : s.content.word (typeAt dir) = FTYPE_DIR) (hg : Gives M Z)
    (hfull : Full s.content dir)
    (htight : ∀ i, s.content.word (sizeAt dir) / BLOCK_SIZE ≤ i →
      heldBlock s.content dir (.block i) = 0) :
    provided M (growDir dir (s.content.word (sizeAt dir) / BLOCK_SIZE))
      (fun r s' _ => Grown n Z {dir} s s' ∧ ∀ f, r = .ok f → Offers dir f s.content s'.content)
      E s t := by
  have h4096 : BLOCK_SIZE = 4096 := rfl
  have hword : s.cached (sizeAt dir) = true := hs.file_word hd hc (by omega)
  have hmod := hs.file_mod hd
  have hcontent := content_put (v := s.content.word (sizeAt dir) + BLOCK_SIZE) hword
    (show sizeAt dir % 4 = 0 by unfold sizeAt; omega)
  refine Lib.provided_mono (growDir_grown hs hd hc hg _) (fun r s' t' _ h => ⟨h.1, ?_⟩)
    fun _ _ _ _ => id
  rintro f rfl
  obtain ⟨-, hfills, hok⟩ := h
  obtain ⟨hf, hne, -⟩ := hok f rfl
  set i := s.content.word (sizeAt dir) / BLOCK_SIZE with hi
  rw [hcontent] at hfills
  have hold : ∀ u, heldBlock (s.content.setWord (sizeAt dir) (s.content.word (sizeAt dir) + BLOCK_SIZE))
      dir u = heldBlock s.content dir u :=
    fun u => (hs.sound.of_fields hd (setWord_fields (k := 128) (by omega))).2.held u hd
  have hlt : i < 1024 := by
    have hu := hasUse_of_held hne
    rw [hasUse_block] at hu
    have h10 : NDIRECT = 10 := rfl
    have h1024 : NINDIRECT = 1024 := rfl
    omega
  have hsize : s'.content.word (sizeAt dir) / BLOCK_SIZE = i + 1 := by
    rw [show s'.content.word (sizeAt dir) = _ from word_of_bytes hfills.bytes (by omega),
      show dir + 128 = sizeAt dir from rfl, Lib.Bytes.word_setWord_self]
    rw [h4096] at hi ⊢
    omega
  have htype : (s.content.setWord (sizeAt dir) (s.content.word (sizeAt dir) + BLOCK_SIZE)).word
      (typeAt dir) = FTYPE_DIR := by
    rw [Lib.Bytes.word_setWord_of_ne _ (by unfold sizeAt typeAt; omega), ht]
  have hblank := (hfills.blank ((hold _).trans (htight i (le_refl i))) htype).resolve_left hne
  have hheld : ∀ j < i, heldBlock s'.content dir (.block j) = heldBlock s.content dir (.block j) :=
    fun j hj => (hfills.held j (Or.inl (by omega))).trans (hold _)
  have hslots := slots_grow hi.symm hsize hheld
  have hmem : f ∈ blockSlots (diskAddr (heldBlock s'.content dir (.block i))) :=
    mem_blockSlots.mpr ⟨0, by decide, hf⟩
  refine ⟨?_, hblank.slot hmem, fun j hj => ?_, fun j hj => ?_, fun k hk => ?_,
    Or.inr ⟨_, hslots, hblank⟩⟩
  · rw [hslots]
    exact List.mem_append_right _ hmem
  · rw [hsize] at hj
    rcases Nat.lt_succ_iff_lt_or_eq.mp hj with hj | rfl
    · rw [hheld j hj]
      exact hfull j hj
    · exact hne
  · rw [hsize] at hj
    rw [hfills.held j (Or.inl (by omega)), hold]
    exact htight j (by omega)
  · rw [hfills.bytes k (by omega), Lib.Bytes.setWord_of_ne (by unfold sizeAt; omega)]

theorem allocFileFrom_offers (hs : Ready n Z s) {dir : Nat} (hd : IsFile s.content Z dir)
    (hc : s.cached dir = true) (ht : s.content.word (typeAt dir) = FTYPE_DIR) (hg : Gives M Z)
    (hfull : Full s.content dir)
    (htight : ∀ i, s.content.word (sizeAt dir) / BLOCK_SIZE ≤ i →
      heldBlock s.content dir (.block i) = 0)
    (k i : Nat) (hk : i + k = s.content.word (sizeAt dir) / BLOCK_SIZE) :
    provided M (allocFileFrom dir k i)
      (fun r s' _ => Grown n Z {dir} s s' ∧ ∀ f, r = .ok f → Offers dir f s.content s'.content)
      E s t := by
  induction k generalizing i s t with
  | zero =>
    obtain rfl : i = s.content.word (sizeAt dir) / BLOCK_SIZE := hk
    exact growDir_offers hs hd hc ht hg hfull htight
  | succ k ih =>
    have hheld := hfull i (by omega)
    unfold allocFileFrom
    rw [Lib.provided_bind]
    refine Lib.provided_mono (fileGetBlock_spec hs hd hc hheld) (fun r s₁ t₁ _ h => ?_)
      fun _ _ _ _ => id
    obtain ⟨hin, hr⟩ := h
    rcases r with e | blk
    · rw [Lib.provided_pure]
      exact fun _ => ⟨hin.grown hs, fun _ h => by cases h⟩
    · obtain ⟨rfl, hm⟩ := hr
      simp only
      rw [Lib.provided_bind, Lib.provided_get]
      intro _
      rcases hfound : s₁.freeFile (diskAddr (heldBlock s.content dir (.block i))) with _ | f
      · have hcontent := hin.content
        rw [← hcontent] at hd ht hfull htight hk
        refine Lib.provided_mono (ih (hin.ready hs) hd (hin.kept.cached hc) ht hfull htight (i + 1)
          (by omega)) (fun r s₂ t₂ _ h => ?_) fun _ _ _ _ => id
        rw [hcontent] at h
        exact ⟨(hin.grown hs).trans h.1, h.2⟩
      · simp only
        rw [Lib.provided_pure]
        refine fun _ => ⟨hin.grown hs, fun f' hf' => ?_⟩
        obtain rfl := Except.ok.inj hf'
        rw [hin.content]
        have hmap := hm.block
        rw [hin.content] at hmap
        obtain ⟨⟨j, hj, rfl⟩, hzero⟩ := freeFile_some hfound
        have hcached : s₁.cached (fileAt (diskAddr (heldBlock s.content dir (.block i))) j) = true :=
          cached_slot hmap hj (k := 0) (by omega)
        rw [mem_eq_content hcached, hin.content] at hzero
        exact ⟨mem_slots.mpr ⟨i, by omega, j, hj, rfl⟩, hzero, hfull, htight, fun _ _ => rfl, Or.inl rfl⟩

theorem dirAllocFile_offers (hs : Ready n Z s) {dir : Nat} (hd : IsFile s.content Z dir)
    (hc : s.cached dir = true) (ht : s.content.word (typeAt dir) = FTYPE_DIR) (hg : Gives M Z)
    (hfull : Full s.content dir)
    (htight : ∀ i, s.content.word (sizeAt dir) / BLOCK_SIZE ≤ i →
      heldBlock s.content dir (.block i) = 0) :
    provided M (dirAllocFile dir)
      (fun r s' _ => Grown n Z {dir} s s' ∧ ∀ f, r = .ok f → Offers dir f s.content s'.content)
      E s t := by
  have hword : s.cached (sizeAt dir) = true := hs.file_word hd hc (by omega)
  have hmod := hs.file_mod hd
  unfold dirAllocFile
  rw [Lib.provided_bind, provided_loadWord hword (by unfold sizeAt; omega)]
  exact fun _ => allocFileFrom_offers hs hd hc ht hg hfull htight _ 0 (Nat.zero_add _)

end

/-! ## Making a name -/

theorem find?_unique {α : Type} {p : α → Bool} {l : List α} {a : α} (ha : a ∈ l) (hp : p a = true)
    (h : ∀ b ∈ l, p b = true → b = a) : l.find? p = some a := by
  obtain ⟨b, hb⟩ := Option.isSome_iff_exists.mp (List.find?_isSome.mpr ⟨a, ha, hp⟩)
  rw [hb, h b (List.mem_of_find?_eq_some hb) (List.find?_some hb)]

section

variable {n : Nat} {Z : Set Nat} {s s₁ s₂ : Server} {dir f : Nat}

theorem Grown.bytes (hgrown : Grown n Z {dir} s s₁) (hoff : Offers dir f s.content s₁.content) {g : Nat}
    (hg : IsFile s.content Z g) : ∀ k < 128, s₁.content (g + k) = s.content (g + k) := by
  by_cases hgd : g = dir
  · exact hgd ▸ hoff.name
  · exact fun k hk => (hgrown.others hg hgd).bytes k (by omega)

theorem Grown.used (hgrown : Grown n Z {dir} s s₁) (hoff : Offers dir f s.content s₁.content) {g : Nat}
    (hg : IsFile s.content Z g) : Used s₁.content g ↔ Used s.content g :=
  used_congr (hgrown.bytes hoff hg 0 (by omega))

theorem Grown.full (hgrown : Grown n Z {dir} s s₁) (hoff : Offers dir f s.content s₁.content) {g : Nat}
    (hg : IsFile s.content Z g) (hfull : Full s.content g) : Full s₁.content g := by
  by_cases hgd : g = dir
  · exact hgd ▸ hoff.full
  · exact (hgrown.others hg hgd).full hfull

theorem Grown.lookup (hgrown : Grown n Z {dir} s s₁) (hoff : Offers dir f s.content s₁.content)
    {g : Nat} (hg : IsFile s.content Z g) (ht : s.content.word (typeAt g) = FTYPE_DIR)
    (hfull : Full s.content g) {name : Name} (hne : name ≠ []) (h0 : 0 ∉ name)
    (hlong : name.length < MAXNAMELEN) :
    Fs.lookup s₁.content g name = Fs.lookup s.content g name := by
  have hholds : ∀ x ∈ slots s.content g, s₁.content.holds x name = s.content.holds x name :=
    fun x hx => holds_name (hgrown.bytes hoff (slot_isFile hg ht hfull hx)) hlong
  by_cases hgd : g = dir
  · subst hgd
    rcases hoff.slots with hslots | ⟨b, hslots, hblank⟩
    · exact lookup_congr hslots hholds
    · have hnew : (blockSlots (diskAddr b)).find? (fun x => s₁.content.holds x name) = none :=
        List.find?_eq_none.mpr fun x hx => by simp [holds_false (hblank.slot hx) hne h0]
      rw [lookup_eq, lookup_eq, hslots, List.find?_append, hnew, Option.or_none]
      exact List.find?_congr hholds
  · exact lookup_congr (hgrown.others hg hgd).slots hholds

/-- The files are those there were and the new places. -/
theorem Grown.isFile_cases (hgrown : Grown n Z {dir} s s₁)
    (hoff : Offers dir f s.content s₁.content) (hn : NoHoles Z s.content) {g : Nat}
    (hg : IsFile s₁.content Z g) :
    IsFile s.content Z g ∨ ∃ b, Blank s₁.content b ∧ g ∈ blockSlots (diskAddr b) := by
  induction hg with
  | root => exact Or.inl .root
  | extra hz => exact Or.inl (.extra hz)
  | @slot d i j hd ht hb hj ih =>
    rcases ih with hd | ⟨b, hblank, hmem⟩
    · rw [hgrown.types hd] at ht
      by_cases hdd : d = dir
      · subst hdd
        have hi : i < s₁.content.word (sizeAt d) / BLOCK_SIZE := by
          by_contra hge
          exact hb (hoff.tight i (Nat.le_of_not_lt hge))
        have hmem : fileAt (diskAddr (heldBlock s₁.content d (.block i))) j ∈ slots s₁.content d :=
          mem_slots.mpr ⟨i, hi, j, hj, rfl⟩
        rcases hoff.slots with hslots | ⟨b, hslots, hblank⟩
        · rw [hslots] at hmem
          exact Or.inl (slot_isFile hd ht (hn.full hd ht) hmem)
        · rw [hslots] at hmem
          rcases List.mem_append.mp hmem with hmem | hmem
          · exact Or.inl (slot_isFile hd ht (hn.full hd ht) hmem)
          · exact Or.inr ⟨b, hblank, hmem⟩
      · rw [(hgrown.others hd hdd).held] at hb ⊢
        exact Or.inl (.slot hd ht hb hj)
    · rw [show typeAt d = d + 132 from rfl, hblank.slot_word hmem (by omega)] at ht
      exact absurd ht (by decide)

theorem Grown.orderly (hgrown : Grown n Z {dir} s s₁) (hoff : Offers dir f s.content s₁.content)
    (ho : Orderly Z s.content) (hu : Used s.content dir) : Orderly Z s₁.content := by
  have hn := ho.full
  have hold : ∀ {d}, IsFile s₁.content Z d → s₁.content.word (typeAt d) = FTYPE_DIR →
      IsFile s.content Z d ∧ s.content.word (typeAt d) = FTYPE_DIR := by
    intro d hd ht
    rcases hgrown.isFile_cases hoff hn hd with hd | ⟨b, hblank, hmem⟩
    · exact ⟨hd, (hgrown.types hd).symm.trans ht⟩
    · rw [show typeAt d = d + 132 from rfl, hblank.slot_word hmem (by omega)] at ht
      exact absurd ht (by decide)
  refine ⟨fun d hd ht => ?_, fun d hd ht hu' i hi => ?_, fun d hd ht => ?_, fun g hg hu' => ?_⟩
  · obtain ⟨hd, ht⟩ := hold hd ht
    exact hgrown.full hoff hd (hn.full hd ht)
  · obtain ⟨hd, ht⟩ := hold hd ht
    by_cases hdd : d = dir
    · exact hdd ▸ hoff.tight i (hdd ▸ hi)
    · have hsame := hgrown.others hd hdd
      rw [hsame.size] at hi
      rw [hsame.held]
      exact ho.tight d hd ht (hsame.used.mp hu') i hi
  · obtain ⟨hd, ht⟩ := hold hd ht
    have hkeep : ∀ {x}, x ∈ slots s₁.content d → ∀ {name : Name}, name ≠ [] → 0 ∉ name →
        name.length < MAXNAMELEN → s₁.content.holds x name = true →
        x ∈ slots s.content d ∧ s.content.holds x name = true := by
      intro x hx name hne h0 hlong hholds
      have hin : x ∈ slots s.content d := by
        by_cases hdd : d = dir
        · subst hdd
          rcases hoff.slots with hslots | ⟨b, hslots, hblank⟩
          · rwa [hslots] at hx
          · rw [hslots] at hx
            rcases List.mem_append.mp hx with hx | hx
            · exact hx
            · rw [holds_false (hblank.slot hx) hne h0] at hholds
              exact absurd hholds Bool.false_ne_true
        · rwa [(hgrown.others hd hdd).slots] at hx
      refine ⟨hin, ?_⟩
      rwa [holds_name (hgrown.bytes hoff (slot_isFile hd ht (hn.full hd ht) hin)) hlong] at hholds
    intro g hg g' hg' name hne h0 hlong hholds hholds'
    obtain ⟨hg, hholds⟩ := hkeep hg hne h0 hlong hholds
    obtain ⟨hg', hholds'⟩ := hkeep hg' hne h0 hlong hholds'
    exact ho.distinct d hd ht g hg g' hg' name hne h0 hlong hholds hholds'
  · rcases hgrown.isFile_cases hoff hn hg with hg | ⟨b, hblank, hmem⟩
    · have hused : ¬ Used s.content g := fun h => hu' ((hgrown.used hoff hg).mpr h)
      by_cases hgd : g = dir
      · exact absurd (hgd ▸ hu) hused
      · rw [(hgrown.others hg hgd).size]
        exact ho.vacant g hg hused
    · exact hblank.slot_word hmem (by omega)

/-- The place `f` gets its type and its name. -/
structure Names (n : Nat) (Z : Set Nat) (f mode : Nat) (name : Name) (s s' : Server) : Prop extends
    Stays n {g | IsFile s.content Z g} {f} s s' where
  content : s'.content = (s.content.setWord (typeAt f) (typeOf mode)).setList f (name ++ [0])
  blank : mode = O_MKDIR → ∀ i, heldBlock s'.content f (.block i) = 0

theorem Names.holds {mode : Nat} {name : Name} (h : Names n Z f mode name s s₁) :
    s₁.content.holds f name = true := by
  rw [h.content]
  exact Lib.Bytes.holds_setList _ _ _

theorem Names.fields {mode : Nat} {name : Name} (h : Names n Z f mode name s s₁)
    (hlong : name.length < MAXNAMELEN) : s₁.content.word (typeAt f) = typeOf mode ∧
      s₁.content.word (sizeAt f) = s.content.word (sizeAt f) := by
  have h128 : MAXNAMELEN = 128 := rfl
  have hlen : (name ++ [0]).length ≤ 128 := by
    rw [List.length_append, List.length_singleton]
    omega
  rw [h.content, Lib.Bytes.word_setList_of_ne (by unfold typeAt; omega),
    Lib.Bytes.word_setList_of_ne (by unfold sizeAt; omega), Lib.Bytes.word_setWord_self,
    Lib.Bytes.word_setWord_of_ne _ (by unfold typeAt sizeAt; omega)]
  exact ⟨Nat.mod_eq_of_lt (typeOf_lt mode), rfl⟩

theorem Names.empty {mode : Nat} {name : Name} (h : Names n Z f mode name s s₁)
    (hlong : name.length < MAXNAMELEN) (ht : s₁.content.word (typeAt f) = FTYPE_DIR) (i : Nat) :
    heldBlock s₁.content f (.block i) = 0 := by
  refine h.blank ?_ i
  rw [(h.fields hlong).1] at ht
  by_contra hne
  unfold typeOf at ht
  rw [if_neg hne] at ht
  exact absurd ht (by decide)

theorem Names.touches {mode : Nat} {name : Name} (h : Names n Z f mode name s s₁)
    (hlong : name.length < MAXNAMELEN) : Touches Z {f} f s.content s₁.content :=
  ⟨fun _ hg hgf => h.others hg hgf, fun ht i => Or.inl (h.empty hlong ht i)⟩

/-- What the path led to was missing, and now it is the new file. -/
theorem Grown.adds (hgrown : Grown n Z {dir} s s₁) (hs : Ready n Z s) (ho : Orderly Z s.content)
    (hoff : Offers dir f s.content s₁.content) {path : List Name} (hpath : Proper path) {name : Name}
    (hmissing : resolve s.content path = .missing dir name) {mode : Nat}
    (hnames : Names n Z f mode name s₁ s₂) :
    Orderly Z s₂.content ∧ ∀ names, Proper names → entry s₂.content names =
      if names = path then some (f, typeOf mode) else entry s.content names := by
  obtain ⟨above, parent, rfl, habove, hlong, ht, hnone⟩ := resolve_missing.mp hmissing
  have hn := ho.full
  have hlast := hpath.last
  have hs₁ := hgrown.ready hs
  have hd := found_isFile hn habove
  have hd₁ := hgrown.isFile hd
  have ht₁ := (hgrown.types hd).trans ht
  have hdf := slot_ne hs₁.sound hd₁ ht₁ hoff.full hoff.mem
  have hroot := root_not_slot hs₁.sound hd₁ hoff.full
  obtain ⟨htype, hsize⟩ := hnames.fields hlong
  have htouches := hnames.touches hlong
  rw [← hgrown.lookup hoff hd ht (hn.full hd ht) hlast.1 hlast.2 hlong, lookup_eq,
    List.find?_eq_none] at hnone
  have hdused : Used s.content dir := found_used habove (fun h => hpath.init h)
  have ho₁ := hgrown.orderly hoff ho hdused
  have hunused : ¬ Used s₁.content f := by
    rintro (rfl | hne)
    · exact hroot hoff.mem
    · exact hne hoff.unnamed
  have hzero : s₂.content.word (sizeAt f) = 0 :=
    hsize.trans (ho₁.vacant f (slot_isFile hd₁ ht₁ hoff.full hoff.mem) hunused)
  have ho₂ : Orderly Z s₂.content := by
    refine htouches.orderly ho₁ hzero (fun _ => hnames.empty hlong)
      fun d hd' ht' hf g hg hgf nm hne h0 hholds => ?_
    obtain rfl := slot_owner hs₁.sound hd₁ hoff.full hd' (ho₁.full.full hd' ht') hoff.mem hf
    obtain rfl := holds_inj hholds hnames.holds h0 hlast.2
    exact Bool.eq_false_iff.mpr (hnone g hg)
  have hrebinds : Rebinds Z dir name f s.content s₂.content := by
    refine ⟨fun g hg hgf => ?_, fun g hg hgf htg nm hne h0 hlen hout => ?_⟩
    · rw [(htouches.same g (hgrown.isFile hg) hgf).type]
      exact hgrown.types hg
    · have hg₁ := hgrown.isFile hg
      have hfull := hn.full hg htg
      have hfull₁ := hgrown.full hoff hg hfull
      rw [← hgrown.lookup hoff hg htg hfull hne h0 hlen]
      refine lookup_congr (htouches.same g hg₁ hgf).slots fun x hx => ?_
      by_cases hxf : x = f
      · subst hxf
        obtain rfl := slot_owner hs₁.sound hd₁ hoff.full hg₁ hfull₁ hoff.mem hx
        rw [holds_false hoff.unnamed hne h0]
        by_contra htrue
        rw [Bool.not_eq_false] at htrue
        exact hout (by rw [holds_inj htrue hnames.holds h0 hlast.2])
      · exact (htouches.same x (slot_isFile hg₁ ((hgrown.types hg).trans htg) hfull₁ hx) hxf).holds hlen
  -- No path leads to a place without a name.
  have hreach : ∀ q d, Proper q → ¬ (above ++ [name]) <+: q → resolve s.content q ≠ .found d f := by
    intro q d hq _ hres
    exact hunused ((hgrown.used hoff (found_isFile hn hres)).mpr (found_used hres hq))
  have hfound : resolve s₂.content (above ++ [name]) = .found dir f := by
    refine resolve_found.mpr ⟨⟨parent, ?_⟩, hlong, ?_, ?_⟩
    · rw [hrebinds.resolve hs.sound hn hpath habove hreach hpath.init not_prefix_init, habove]
    · rw [hrebinds.types dir hd hdf, ht]
    · rw [lookup_eq, (htouches.same dir hd₁ hdf).slots]
      refine find?_unique hoff.mem hnames.holds fun x hx hholds => ?_
      by_contra hxf
      rw [(htouches.same x (slot_isFile hd₁ ht₁ hoff.full hx) hxf).holds hlong] at hholds
      exact hnone x hx hholds
  refine ⟨ho₂, fun names hproper => ?_⟩
  split
  case isTrue heq => rw [heq, entry_found hfound, htype]
  case isFalse hne =>
  by_cases hpre : (above ++ [name]) <+: names
  · -- There is nothing below a new file.
    obtain ⟨rest, rfl⟩ := hpre
    obtain _ | ⟨next, rest⟩ := rest
    · exact absurd (List.append_nil _) hne
    · have hbelow : ∀ d g, resolve s₂.content (above ++ [name] ++ [next]) ≠ .found d g := by
        intro d g hres
        obtain ⟨⟨parent', hparent⟩, -, -, hl⟩ := resolve_found.mp hres
        rw [hfound] at hparent
        obtain ⟨rfl, rfl⟩ := Walk.found.inj hparent
        have hmem := (lookup_mem hl).1
        rw [slots_empty hzero] at hmem
        exact absurd hmem List.not_mem_nil
      have hold : ∀ d g, resolve s.content (above ++ [name]) ≠ .found d g := by
        intro d g
        rw [hmissing]
        exact nofun
      rw [entry_none.mpr (resolve_below ⟨rest, by simp⟩ hbelow),
        entry_none.mpr (resolve_below ⟨_, rfl⟩ hold)]
  · exact hrebinds.entry hs.sound hn hpath habove hreach hproper hpre

end

section

variable {M : Cond Call Reply} {E : Stop → Server → Trace Call Reply → Prop} {s : Server}
  {t : Trace Call Reply} {n : Nat} {Z : Set Nat}

theorem walkPath_means (hs : Tree n Z s) (hn : NoHoles Z s.content) (hg : Gives M Z)
    (hm : ∀ t, M.Holds t → memory.Holds t) (path : Name) :
    provided M (walkPath path) (fun r s' _ =>
      Tree n Z s' ∧ r.There Z s' ∧ SameFiles n Z s.content s'.content ∧
        (r = resolve s.content (components path) ∨ r = .failed .noMem)) E s t := by
  refine Lib.provided_mono (Lib.provided_and (walkPath_grown hs hg path)
    (Lib.provided_weaken hm (walkPath_spec (E := E) hs.toReady hn path))) (fun r s₁ t₁ _ h => ?_)
    fun _ _ _ _ h => h.1
  obtain ⟨⟨hgrown, hthere⟩, -, hlinks, hmeans⟩ := h
  refine ⟨hgrown.tree hs, hthere, hlinks.same hs.sound, ?_⟩
  rcases hmeans with ⟨rfl, -⟩ | ⟨rfl, -⟩
  · exact Or.inl rfl
  · exact Or.inr rfl

theorem fileCreate_entries (hs : Tree n Z s) (ho : Orderly Z s.content) (hg : Gives M Z)
    (hcreate : Creates M) (hm : ∀ t, M.Holds t → memory.Holds t) {path : Name} (hpath : 0 ∉ path)
    (mode : Nat) :
    provided M (fileCreate mode path) (fun r s' _ => match r with
      | .ok f => (∃ d name, resolve s.content (components path) = .missing d name) ∧
        Orderly Z s'.content ∧ ∀ names, Proper names → entry s'.content names =
          if names = components path then some (f, typeOf mode) else entry s.content names
      | .error e => e = .notFound ∧ (∃ d name, resolve s.content (components path) = .missing d name) ∨
        Orderly Z s'.content ∧ ∀ names, entry s'.content names = entry s.content names) E s t := by
  have hn := ho.full
  unfold fileCreate
  rw [Lib.provided_bind]
  refine Lib.provided_mono (walkPath_means hs hn hg hm path) (fun w s₁ t₁ _ h => ?_) fun _ _ _ _ => id
  obtain ⟨hs₁, hthere, hsame, hmeans⟩ := h
  have ho₁ := hsame.orderly ho
  have hentry := hsame.entry hn
  rcases w with ⟨dir, file⟩ | ⟨dir, name⟩ | e
  · rw [Lib.provided_pure]
    exact fun _ => Or.inr ⟨ho₁, hentry⟩
  · obtain ⟨hdir, ht, hname⟩ := hthere
    have hmissing : resolve s.content (components path) = .missing dir name := by
      rcases hmeans with heq | heq
      · exact heq.symm
      · cases heq
    have hmissing₁ := (hsame.resolve hn _).trans hmissing
    obtain ⟨above, parent, habove, hparent, -⟩ := resolve_missing.mp hmissing₁
    have hproper := proper_components hpath
    have hused := found_used hparent (habove ▸ hproper).init
    rw [Lib.provided_bind]
    refine Lib.provided_mono (Lib.provided_and
      (dirAllocFile_grown (E := E) hs₁.toReady hdir.isFile hdir.cached ht hg)
      (dirAllocFile_offers (E := E) hs₁.toReady hdir.isFile hdir.cached ht hg
        (ho₁.full.full hdir.isFile ht) (ho₁.tight dir hdir.isFile ht hused)))
      (fun r s₂ t₂ _ h => ?_) fun _ _ _ _ => And.left
    obtain ⟨⟨hgrown, hgot⟩, -, hoffers⟩ := h
    rcases r with e | f
    · rw [Lib.provided_pure]
      exact fun _ => Or.inl ⟨rfl, dir, name, hmissing⟩
    · obtain ⟨hf, hc⟩ := hgot f rfl
      rw [Lib.provided_bind]
      refine Lib.provided_mono (fillFile_stays (hgrown.ready hs₁.toReady).all_files (.extra hf) hc
        hcreate hname mode) (fun _ s₃ t₃ _ h => ?_) fun _ _ _ _ => id
      rw [Lib.provided_pure]
      obtain ⟨ho₃, hadds⟩ := hgrown.adds hs₁.toReady ho₁ (hoffers f rfl) hproper hmissing₁
        ⟨h.1, h.2.1, h.2.2⟩
      refine fun _ => ⟨⟨dir, name, hmissing⟩, ho₃, fun names hnames => ?_⟩
      rw [hadds names hnames, hentry]
  · rw [Lib.provided_pure]
    exact fun _ => Or.inr ⟨ho₁, hentry⟩

theorem fileRemove_entries (hs : Tree n Z s) (ho : Orderly Z s.content) (hg : Gives M Z)
    (hflush : Flushes M Z) (hm : ∀ t, M.Holds t → memory.Holds t)
    (hE : ∀ e s t, GivesUp e → E e s t) {path : Name} (hpath : 0 ∉ path) (hroot : components path ≠ [])
    (type : Nat) :
    provided M (fileRemove path type) (fun r s' _ => Orderly Z s'.content ∧ match r with
      | .ok _ => (∃ d f, resolve s.content (components path) = .found d f) ∧
        ∀ names, Proper names → entry s'.content names =
          if components path <+: names then none else entry s.content names
      | .error _ => ∀ names, entry s'.content names = entry s.content names) E s t := by
  have hn := ho.full
  unfold fileRemove
  rw [Lib.provided_bind]
  refine Lib.provided_mono (walkPath_means hs hn hg hm path) (fun w s₁ t₁ _ h => ?_) fun _ _ _ _ => id
  obtain ⟨hs₁, hthere, hsame, hmeans⟩ := h
  have ho₁ := hsame.orderly ho
  have hentry := hsame.entry hn
  rcases w with ⟨dir, f⟩ | ⟨dir, name⟩ | e
  · have hfile : Present Z s₁ f := hthere
    have hword : s₁.cached (typeAt f) = true := hs₁.file_word hfile.isFile hfile.cached (by omega)
    have hmod := hs₁.file_mod hfile.isFile
    have hfound : resolve s.content (components path) = .found dir f := by
      rcases hmeans with heq | heq
      · exact heq.symm
      · cases heq
    rw [Lib.provided_bind, provided_loadWord hword (by unfold typeAt; omega), Lib.provided_ite]
    refine fun _ => ⟨fun _ => ?_, fun _ => ?_⟩
    · rw [Lib.provided_pure]
      exact fun _ => ⟨ho₁, hentry⟩
    · have hfiles : ∀ z ∈ Z, IsFile s₁.content Z z := fun z hz => .extra hz
      rw [Lib.provided_bind]
      refine Lib.provided_mono (removeFile_removed hs₁.toReady.all_files hfile.isFile hfile.cached
        hfile.linked (hflush.mono hfiles) hE) (fun _ s₂ t₂ _ h₂ => ?_) fun _ _ _ _ => id
      rw [Lib.provided_pure]
      have htouches : Touches Z {f} f s₁.content s₂.content :=
        ⟨fun g hg hne => h₂.others hg hne, fun ht i =>
          (h₂.held (.block i)).imp_right fun heq => ⟨h₂.type ▸ ht, heq⟩⟩
      have hfound₁ := (hsame.resolve hn _).trans hfound
      have hproper := proper_components hpath
      have hunused : ¬ Used s₂.content f := by
        rintro (rfl | hne)
        · exact hroot (resolve_injective hs₁.sound ho₁.full hproper (q := []) (fun _ h => nomatch h)
            hfound₁ rfl)
        · exact hne h₂.unnamed
      refine fun _ => ⟨htouches.orderly ho₁ h₂.empty (fun hu => absurd hu hunused)
        fun _ _ _ _ _ _ _ name hne hz hholds => ?_, ⟨dir, f, hfound⟩, fun names hnames => ?_⟩
      · exact absurd h₂.unnamed (holds_first hholds hne hz)
      · rw [entry_cleared hs₁.sound ho₁ htouches.same h₂.unnamed hproper hroot hfound₁ hnames, hentry]
  · rw [Lib.provided_pure]
    exact fun _ => ⟨ho₁, hentry⟩
  · rw [Lib.provided_pure]
    exact fun _ => ⟨ho₁, hentry⟩

theorem fileOpen_entries (hs : Tree n Z s) (ho : Orderly Z s.content) (hg : Gives M Z)
    (hm : ∀ t, M.Holds t → memory.Holds t) (path : Name) :
    provided M (fileOpen path) (fun r s' _ => (Tree n Z s' ∧ Kept s s') ∧ Orderly Z s'.content ∧
      (∀ names, entry s'.content names = entry s.content names) ∧
      (∀ f, r = .ok f → ∃ ty, entry s.content (components path) = some (f, ty)) ∧
      (r = .error .notFound → entry s.content (components path) = none)) E s t := by
  have hn := ho.full
  unfold fileOpen
  rw [Lib.provided_bind]
  refine Lib.provided_mono (Lib.provided_and (walkPath_means (E := E) hs hn hg hm path)
    (walkPath_grown (E := E) hs hg path)) (fun w s₁ t₁ _ h => ?_) fun _ _ _ _ => And.left
  obtain ⟨⟨hs₁, -, hsame, hmeans⟩, hgrown, -⟩ := h
  have hrest := And.intro (And.intro hs₁ hgrown.kept) (And.intro (hsame.orderly ho) (hsame.entry hn))
  rcases w with ⟨dir, f⟩ | ⟨dir, name⟩ | e
  · rw [Lib.provided_pure]
    refine fun _ => ⟨hrest.1, hrest.2.1, hrest.2.2, fun f' hf' => ?_, nofun⟩
    obtain rfl := Except.ok.inj hf'
    rcases hmeans with heq | heq
    · exact ⟨_, entry_found heq.symm⟩
    · cases heq
  · rw [Lib.provided_pure]
    refine fun _ => ⟨hrest.1, hrest.2.1, hrest.2.2, nofun, fun _ => entry_none.mpr ?_⟩
    rcases hmeans with heq | heq
    · rw [← heq]
      exact nofun
    · cases heq
  · rw [Lib.provided_pure]
    refine fun _ => ⟨hrest.1, hrest.2.1, hrest.2.2, nofun, fun he => entry_none.mpr ?_⟩
    rcases hmeans with heq | heq
    · rw [← heq]
      exact nofun
    · obtain rfl : e = .noMem := Walk.failed.inj heq
      exact absurd he (by simp)

end

end Mos.Fs
