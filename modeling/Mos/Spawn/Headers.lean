import Mos.Strings

/-!
# The program headers (`user/lib/spawn.c`, `spawn`)

The loop over the program headers has the ELF header and each program header in one buffer, and
takes the number and the size of the headers from it in every turn.
-/

namespace Mos.Spawn.Headers

open Lib (Bytes wp wp_mono wp_ite)
open Strings (wrap wrap_of_lt)

def E_NOT_EXEC : Int := 13
def PT_LOAD : Nat := 1

/-- `sizeof(Elf32_Ehdr)` -/
def EHDR_SIZE : Nat := 52

/-- `sizeof(elfbuf)` -/
def ELFBUF_SIZE : Nat := 512

/-- The 16 bits at `a`. -/
def half (m : Bytes) (a : Nat) : Nat := (m a).toNat + 256 * (m (a + 1)).toNat

def ePhoff (m : Bytes) : Nat := m.word 28
def ePhentsize (m : Bytes) : Nat := half m 42
def ePhnum (m : Bytes) : Nat := half m 44
def pType (m : Bytes) : Nat := m.word 0
def pOffset (m : Bytes) : Nat := m.word 4

/-- What `spawn` works on: a file that has been opened, what its buffer holds at first, and the
results of what it calls. Those of a turn may be other than those of the last one. -/
structure Setting where
  file : Bytes
  size : Nat
  stack : Bytes
  exofork : Int
  initStack : Nat → Int
  readMap : Nat → Nat → Int
  elfLoadSeg : Nat → Bytes → Int
  elfLoadSeg_le : ∀ i ph, elfLoadSeg i ph ≤ 0

/-- `u_int child` -/
def Setting.child (x : Setting) : Nat := (x.exofork % 2 ^ 32).toNat

inductive Stop where
  /-- A store behind the end of the buffer. -/
  | overflow
  /-- `spawn` returns. -/
  | returns (r : Int)
  /-- A loop that has not ended. -/
  | turns
  deriving DecidableEq, Repr

structure State where
  elfbuf : Bytes
  /-- The offsets that headers were read from. -/
  visited : List Nat

abbrev Prog := EStateM Stop State

/-- `seek(fd, offset)` and `read(fd, elfbuf, n)` -/
def readAt (x : Setting) (offset n : Nat) : Prog Nat := do
  modify fun st => { st with visited := st.visited ++ [offset] }
  let r := if x.size < offset then 0 else if x.size < offset + n then x.size - offset else n
  if ELFBUF_SIZE < r then throw .overflow
  modify fun st => { st with elfbuf := st.elfbuf.copy 0 x.file offset r }
  return r

/-- `elf_from(elfbuf, sizeof(Elf32_Ehdr))` -/
def elfFrom (m : Bytes) : Bool :=
  m 0 == 0x7f && m 1 == 0x45 && m 2 == 0x4c && m 3 == 0x46 && half m 16 == 2

def loadHeader (x : Setting) (i : Nat) : Prog Unit := do
  let ph := (← get).elfbuf
  if pType ph = PT_LOAD then do
    let r := x.readMap i (pOffset ph)
    if r < 0 then throw (.returns r)
    let r := x.elfLoadSeg i ph
    if r ≠ 0 then throw (.returns r)

/-- One turn of the loop. `read` gives no error on the open file, and its result is compared with the
size that is in the buffer after it. -/
def turn (x : Setting) (i phOff : Nat) : Prog Unit := do
  let r ← readAt x phOff (ePhentsize (← get).elfbuf)
  if r ≠ ePhentsize (← get).elfbuf then throw (.returns (-E_NOT_EXEC))
  loadHeader x i

/-- `ELF_FOREACH_PHDR_OFF`, for `k` turns at most. -/
def headers (x : Setting) : Nat → Nat → Nat → Prog Unit
  | 0, _, _ => throw .turns
  | k + 1, i, phOff => do
    if i < ePhnum (← get).elfbuf then do
      turn x i phOff
      headers x k (i + 1) (wrap (phOff + ePhentsize (← get).elfbuf))
    else return ()

/-- `spawn` up to the end of the loop. The check whether the unsigned `child` is an error is never true. -/
def spawn (x : Setting) (k : Nat) : Prog Unit := do
  let r := min EHDR_SIZE x.size
  modify fun st => { st with elfbuf := st.elfbuf.copy 0 x.file 0 r }
  if r ≠ EHDR_SIZE then throw (.returns (-E_NOT_EXEC))
  if elfFrom (← get).elfbuf = false then throw (.returns (-E_NOT_EXEC))
  let r := x.initStack x.child
  if r < 0 then throw (.returns r)
  headers x k 0 (ePhoff (← get).elfbuf)

/-! ## What is promised -/

namespace Setting

variable (x : Setting)

/-- The file begins with an ELF header that is accepted. -/
structure Accepted : Prop where
  size : EHDR_SIZE ≤ x.size
  header : elfFrom x.file = true

def phnum : Nat := ePhnum x.file

def phentsize : Nat := ePhentsize x.file

/-- Where the ELF header says that the header `i` is. -/
def offset (i : Nat) : Nat := wrap (ePhoff x.file + i * x.phentsize)

def offsets : List Nat := (List.range x.phnum).map x.offset

def start : State := ⟨x.stack, []⟩

/-- An error that `spawn` may return. -/
def Failed (e : Stop) (t : State) : Prop := ∃ r, e = .returns r ∧ r < 0 ∧ t.visited <+: x.offsets

/-- Just the headers of the ELF header are read in their order, all of them unless `spawn` returns
an error, and nothing is stored behind the buffer. -/
def ReadsHeaders : Prop :=
  ∃ k, wp (spawn x k) (fun _ t => t.visited = x.offsets) x.Failed x.start

/-! ## The buffer in each turn -/

/-- How much of the header `i` is in the file. -/
def available (i : Nat) : Nat := min x.phentsize (x.size - x.offset i)

/-- The buffer before the turn `i`, if the turns before it were right. -/
def bufAt : Nat → Bytes
  | 0 => x.stack.copy 0 x.file 0 EHDR_SIZE
  | i + 1 => (bufAt i).copy 0 x.file (x.offset i) (x.available i)

/-- The header `i` is loaded, if it is to be. -/
def Loaded (i : Nat) : Prop :=
  pType (x.bufAt (i + 1)) = PT_LOAD →
    0 ≤ x.readMap i (pOffset (x.bufAt (i + 1))) ∧ x.elfLoadSeg i (x.bufAt (i + 1)) = 0

/-- No error is seen in the turn `i`. -/
def Passes (i : Nat) : Prop := x.available i = ePhentsize (x.bufAt (i + 1)) ∧ x.Loaded i

/-- The turn `i` has left the size and the number of the headers in the buffer, or what has the
loop end with the last header all the same. -/
def Keeps (i : Nat) : Prop :=
  if i + 1 < x.phnum then ePhentsize (x.bufAt (i + 1)) = x.phentsize ∧ i + 1 < ePhnum (x.bufAt (i + 1))
  else ePhnum (x.bufAt (i + 1)) ≤ x.phnum

/-- As long as there is no error, the headers fit in the buffer and do not change what the loop
takes from it. -/
def Harmless : Prop :=
  ∀ i < x.phnum, (∀ j < i, x.Passes j) → x.available i ≤ ELFBUF_SIZE ∧ (x.Passes i → x.Keeps i)

end Setting

/-! ## One turn -/

variable {x : Setting} {k i : Nat} {st : State} {Q : Unit → State → Prop} {E : Stop → State → Prop}

theorem readAt_iff {n offset : Nat} {P : Nat → State → Prop} :
    wp (readAt x offset n) P E st ↔
      if min n (x.size - offset) ≤ ELFBUF_SIZE then
        P (min n (x.size - offset))
          ⟨st.elfbuf.copy 0 x.file offset (min n (x.size - offset)), st.visited ++ [offset]⟩
      else E .overflow ⟨st.elfbuf, st.visited ++ [offset]⟩ := by
  have hr : (if x.size < offset then 0 else if x.size < offset + n then x.size - offset else n) =
      min n (x.size - offset) := by
    split
    · omega
    · split
      · omega
      · omega
  unfold readAt
  simp only [Lib.wp_bind, Lib.wp_modify, hr, wp_ite, Lib.wp_throw, Lib.wp_pure]
  by_cases hfits : min n (x.size - offset) ≤ ELFBUF_SIZE
  · rw [if_pos hfits]
    exact ⟨fun h => h.2 (by omega), fun h => ⟨fun hlt => absurd hfits (by omega), fun _ => h⟩⟩
  · rw [if_neg hfits]
    exact ⟨fun h => h.1 (by omega), fun h => ⟨fun _ => h, fun hle => absurd (by omega) hfits⟩⟩

theorem offsets_get (hi : i < x.phnum) : x.offsets[i]? = some (x.offset i) := by
  unfold Setting.offsets
  rw [List.getElem?_map, List.getElem?_range hi]
  rfl

theorem take_succ (hi : i < x.phnum) : x.offsets.take i ++ [x.offset i] = x.offsets.take (i + 1) := by
  rw [List.take_add_one, offsets_get hi]
  rfl

theorem length_offsets : x.offsets.length = x.phnum := by
  unfold Setting.offsets
  rw [List.length_map, List.length_range]

/-- The state before the turn `i`, if the turns before it were right. -/
def Setting.stateAt (x : Setting) (i : Nat) : State := ⟨x.bufAt i, x.offsets.take i⟩

theorem loadHeader_iff (hE : ∀ r, r < 0 → E (.returns r) (x.stateAt (i + 1))) :
    wp (loadHeader x i) Q E (x.stateAt (i + 1)) ↔ (x.Loaded i → Q () (x.stateAt (i + 1))) := by
  unfold loadHeader Setting.Loaded
  simp only [Lib.wp_bind, Lib.wp_get, wp_ite, Lib.wp_throw, Lib.wp_pure]
  constructor
  · rintro ⟨hload, hskip⟩ hok
    by_cases hpt : pType (x.bufAt (i + 1)) = PT_LOAD
    · obtain ⟨hmap, hseg⟩ := hok hpt
      exact ((hload hpt).2 (Int.not_lt.mpr hmap)).2 fun hne => hne hseg
    · exact hskip hpt
  · intro hok
    refine ⟨fun hpt => ⟨fun hneg => hE _ hneg, fun hmap => ⟨fun hne => hE _ ?_, fun heq => ?_⟩⟩,
      fun hpt => hok fun h => absurd h hpt⟩
    · have hle := x.elfLoadSeg_le i (x.stateAt (i + 1)).elfbuf
      omega
    · exact hok fun _ => ⟨Int.not_lt.mp hmap, not_not.mp heq⟩

theorem failed_at {r : Int} (hr : r < 0) : x.Failed (.returns r) (x.stateAt i) :=
  ⟨r, rfl, hr, List.take_prefix _ _⟩

/-- What a turn with the right fields in the buffer does. -/
theorem turn_iff (hi : i < x.phnum) (hsize : ePhentsize (x.bufAt i) = x.phentsize) :
    wp (turn x i (x.offset i)) Q x.Failed (x.stateAt i) ↔
      x.available i ≤ ELFBUF_SIZE ∧ (x.Passes i → Q () (x.stateAt (i + 1))) := by
  have hover : ¬ x.Failed .overflow ⟨x.bufAt i, x.offsets.take i ++ [x.offset i]⟩ := by
    rintro ⟨r, hr, -⟩
    cases hr
  have hread : min (ePhentsize (x.stateAt i).elfbuf) (x.size - x.offset i) = x.available i := by
    unfold Setting.available Setting.stateAt
    rw [hsize]
  have hstate : (⟨(x.stateAt i).elfbuf.copy 0 x.file (x.offset i) (x.available i),
      (x.stateAt i).visited ++ [x.offset i]⟩ : State) = x.stateAt (i + 1) := by
    unfold Setting.stateAt
    rw [take_succ hi]
    rfl
  unfold turn
  rw [Lib.wp_bind, Lib.wp_get, Lib.wp_bind, readAt_iff, hread, hstate]
  by_cases hfits : x.available i ≤ ELFBUF_SIZE
  · rw [if_pos hfits]
    simp only [Lib.wp_bind, Lib.wp_get, wp_ite, Lib.wp_throw]
    rw [loadHeader_iff fun r hr => failed_at hr]
    constructor
    · rintro ⟨-, hgo⟩
      exact ⟨hfits, fun hp => hgo (fun hne => hne hp.1) hp.2⟩
    · rintro ⟨-, hgo⟩
      exact ⟨fun _ => failed_at (by decide), fun heq hl => hgo ⟨not_not.mp heq, hl⟩⟩
  · rw [if_neg hfits]
    exact iff_of_false hover fun h => hfits h.1

/-! ## The loop -/

variable {phOff : Nat}

theorem readAt_grows (n offset : Nat) :
    wp (readAt x offset n) (fun _ t => st.visited ++ [offset] <+: t.visited)
      (fun _ t => st.visited ++ [offset] <+: t.visited) st := by
  rw [readAt_iff]
  split <;> exact List.prefix_rfl

theorem turn_grows : wp (turn x i phOff) (fun _ t => st.visited ++ [phOff] <+: t.visited)
    (fun _ t => st.visited ++ [phOff] <+: t.visited) st := by
  unfold turn
  rw [Lib.wp_bind, Lib.wp_get, Lib.wp_bind]
  refine wp_mono (readAt_grows _ _) (fun r t h => ?_) (fun _ _ h => h)
  unfold loadHeader
  simp only [Lib.wp_bind, Lib.wp_get, wp_ite, Lib.wp_throw, Lib.wp_pure, h, implies_true, and_self]

/-- Every header that is read is one more. -/
theorem headers_grows : wp (headers x k i phOff) (fun _ t => st.visited <+: t.visited)
    (fun _ t => st.visited <+: t.visited) st := by
  induction k generalizing i phOff st with
  | zero =>
    unfold headers
    exact (Lib.wp_throw _).mpr List.prefix_rfl
  | succ k ih =>
    unfold headers
    rw [Lib.wp_bind, Lib.wp_get, wp_ite]
    refine ⟨fun _ => ?_, fun _ => ?_⟩
    · rw [Lib.wp_bind]
      refine wp_mono turn_grows (fun _ t h => ?_) (fun _ t h => ?_)
      · have hle : st.visited <+: t.visited := (List.prefix_append _ _).trans h
        rw [Lib.wp_bind, Lib.wp_get]
        exact wp_mono ih (fun _ _ h => hle.trans h) (fun _ _ h => hle.trans h)
      · exact (List.prefix_append _ _).trans h
    · exact (Lib.wp_pure ()).mpr List.prefix_rfl

theorem headers_visits (hnum : i < ePhnum st.elfbuf) :
    wp (headers x (k + 1) i phOff) (fun _ t => st.visited ++ [phOff] <+: t.visited)
      (fun _ t => st.visited ++ [phOff] <+: t.visited) st := by
  rw [headers, Lib.wp_bind, Lib.wp_get, if_pos hnum, Lib.wp_bind]
  refine wp_mono turn_grows (fun _ t h => ?_) (fun _ _ h => h)
  rw [Lib.wp_bind, Lib.wp_get]
  exact wp_mono headers_grows (fun _ _ h' => h.trans h') (fun _ _ h' => h.trans h')

/-- The outcome that is promised. -/
def Setting.Promised (x : Setting) (k i phOff : Nat) (st : State) : Prop :=
  wp (headers x k i phOff) (fun _ t => t.visited = x.offsets) x.Failed st

theorem of_wp {α : Type} {y : Prog α} {P : Prop} (h : wp y (fun _ _ => P) (fun _ _ => P) st) : P := by
  unfold wp at h
  cases hy : y st with
  | ok a t => rwa [hy] at h
  | error e t => rwa [hy] at h

theorem Setting.Promised.visits (h : x.Promised (k + 1) i phOff st) (hnum : i < ePhnum st.elfbuf) :
    st.visited ++ [phOff] <+: x.offsets := by
  refine of_wp (wp_mono (Lib.wp_and h (headers_visits hnum)) ?_ ?_)
  · rintro _ t ⟨hall, hgrows⟩
    rwa [hall] at hgrows
  · rintro e t ⟨⟨r, -, -, hpre⟩, hgrows⟩
    exact hgrows.trans hpre

theorem Setting.Promised.ends (h : x.Promised k i phOff st) (hnum : ePhnum st.elfbuf ≤ i) :
    k ≠ 0 ∧ st.visited = x.offsets := by
  unfold Setting.Promised at h
  cases k with
  | zero =>
    unfold headers at h
    rw [Lib.wp_throw] at h
    obtain ⟨r, hr, -⟩ := h
    cases hr
  | succ k =>
    rw [headers, Lib.wp_bind, Lib.wp_get, if_neg (Nat.not_lt.mpr hnum), Lib.wp_pure] at h
    exact ⟨Nat.succ_ne_zero k, h⟩

theorem Setting.Promised.turns (h : x.Promised k i phOff st) : k ≠ 0 := by
  rintro rfl
  unfold Setting.Promised headers at h
  rw [Lib.wp_throw] at h
  obtain ⟨r, hr, -⟩ := h
  cases hr

/-! ## All turns -/

/-- Before the turn `i` the buffer has what the loop takes from it. -/
structure Setting.Fields (x : Setting) (i : Nat) : Prop where
  size : ePhentsize (x.bufAt i) = x.phentsize
  num : i < ePhnum (x.bufAt i)

/-- From the turn `i` on, the outcome is as promised. -/
def Setting.PromisedFrom (x : Setting) (i : Nat) : Prop := ∃ k, x.Promised k i (x.offset i) (x.stateAt i)

theorem half_lt (m : Bytes) (a : Nat) : half m a < 2 ^ 16 := by
  have h0 := (m a).toNat_lt
  have h1 := (m (a + 1)).toNat_lt
  unfold half
  omega

theorem offset_succ (x : Setting) (i : Nat) : x.offset (i + 1) = wrap (x.offset i + x.phentsize) := by
  unfold Setting.offset
  rw [Nat.succ_mul]
  unfold wrap
  omega

theorem offset_next {n : Nat} (hn : n < 2 ^ 16) (h : wrap (x.offset i + n) = x.offset (i + 1)) :
    n = x.phentsize := by
  have hsize : x.phentsize < 2 ^ 16 := half_lt _ _
  rw [offset_succ] at h
  unfold wrap at h
  omega

theorem promised_succ (hi : i < x.phnum) (hf : x.Fields i) :
    x.Promised (k + 1) i (x.offset i) (x.stateAt i) ↔ x.available i ≤ ELFBUF_SIZE ∧ (x.Passes i →
      x.Promised k (i + 1) (wrap (x.offset i + ePhentsize (x.bufAt (i + 1)))) (x.stateAt (i + 1))) := by
  unfold Setting.Promised
  rw [headers, Lib.wp_bind, Lib.wp_get, if_pos (show i < ePhnum (x.stateAt i).elfbuf from hf.num),
    Lib.wp_bind, turn_iff hi hf.size, Lib.wp_bind, Lib.wp_get]
  rfl

theorem visits_next (h : x.offsets.take i ++ [phOff] <+: x.offsets) :
    i < x.phnum ∧ phOff = x.offset i := by
  have hlen := h.length_le
  rw [List.length_append, List.length_take, length_offsets, List.length_singleton] at hlen
  have hi : i < x.phnum := by omega
  have htake := List.prefix_iff_eq_take.mp h
  rw [List.length_append, List.length_take, length_offsets, List.length_singleton,
    Nat.min_eq_left hi.le, ← take_succ hi] at htake
  exact ⟨hi, List.singleton_inj.mp (List.append_cancel_left htake)⟩

/-- After a turn that has passed, the fields have to be right. -/
theorem keeps_of_promised (hi : i < x.phnum)
    (h : x.Promised k (i + 1) (wrap (x.offset i + ePhentsize (x.bufAt (i + 1)))) (x.stateAt (i + 1))) :
    x.Keeps i := by
  obtain ⟨k, rfl⟩ := Nat.exists_eq_succ_of_ne_zero h.turns
  unfold Setting.Keeps
  by_cases hmore : i + 1 < x.phnum
  · rw [if_pos hmore]
    have hnum : i + 1 < ePhnum (x.bufAt (i + 1)) := by
      by_contra hle
      have hall := congrArg List.length (h.ends (Nat.not_lt.mp hle)).2
      unfold Setting.stateAt at hall
      rw [List.length_take, length_offsets] at hall
      omega
    exact ⟨offset_next (half_lt _ _) (visits_next (h.visits hnum)).2, hnum⟩
  · rw [if_neg hmore]
    by_contra hgt
    have hlt := (visits_next (h.visits (show i + 1 < ePhnum (x.bufAt (i + 1)) by omega))).1
    exact hmore hlt

theorem promisedFrom_iff (hi : i < x.phnum) (hf : x.Fields i) :
    x.PromisedFrom i ↔ x.available i ≤ ELFBUF_SIZE ∧
      (x.Passes i → x.Keeps i ∧ (i + 1 < x.phnum → x.PromisedFrom (i + 1))) := by
  have hnext : i + 1 < x.phnum → x.Keeps i →
      wrap (x.offset i + ePhentsize (x.bufAt (i + 1))) = x.offset (i + 1) := by
    intro hmore hkeeps
    unfold Setting.Keeps at hkeeps
    rw [if_pos hmore] at hkeeps
    rw [hkeeps.1, offset_succ]
  constructor
  · rintro ⟨k, h⟩
    obtain ⟨k, rfl⟩ := Nat.exists_eq_succ_of_ne_zero h.turns
    obtain ⟨hfits, hgo⟩ := (promised_succ hi hf).mp h
    refine ⟨hfits, fun hp => ?_⟩
    have hkeeps := keeps_of_promised hi (hgo hp)
    refine ⟨hkeeps, fun hmore => ⟨k, ?_⟩⟩
    rw [← hnext hmore hkeeps]
    exact hgo hp
  · rintro ⟨hfits, hgo⟩
    by_cases hp : x.Passes i
    · obtain ⟨hkeeps, hrest⟩ := hgo hp
      by_cases hmore : i + 1 < x.phnum
      · obtain ⟨k, h⟩ := hrest hmore
        rw [← hnext hmore hkeeps] at h
        exact ⟨k + 1, (promised_succ hi hf).mpr ⟨hfits, fun _ => h⟩⟩
      · -- This was the last header.
        refine ⟨2, (promised_succ hi hf).mpr ⟨hfits, fun _ => ?_⟩⟩
        unfold Setting.Keeps at hkeeps
        rw [if_neg hmore] at hkeeps
        unfold Setting.Promised
        rw [headers, Lib.wp_bind, Lib.wp_get,
          if_neg (show ¬ i + 1 < ePhnum (x.stateAt (i + 1)).elfbuf from Nat.not_lt.mpr (by
            show ePhnum (x.bufAt (i + 1)) ≤ i + 1
            omega)), Lib.wp_pure]
        refine List.take_of_length_le ?_
        rw [length_offsets]
        omega
    · exact ⟨1, (promised_succ hi hf).mpr ⟨hfits, fun h => absurd h hp⟩⟩

theorem fields_succ (hmore : i + 1 < x.phnum) (h : x.Keeps i) : x.Fields (i + 1) := by
  unfold Setting.Keeps at h
  rw [if_pos hmore] at h
  exact ⟨h.1, h.2⟩

/-- By induction on the turns that are left. -/
theorem promisedFrom_all (n : Nat) (hn : x.phnum = i + n + 1) (hf : x.Fields i) :
    x.PromisedFrom i ↔ ∀ j, i ≤ j → j < x.phnum → (∀ l, i ≤ l → l < j → x.Passes l) →
      x.available j ≤ ELFBUF_SIZE ∧ (x.Passes j → x.Keeps j) := by
  induction n generalizing i with
  | zero =>
    rw [promisedFrom_iff (by omega) hf]
    constructor
    · rintro ⟨hfits, hgo⟩ j hij hj -
      obtain rfl : i = j := by omega
      exact ⟨hfits, fun hp => (hgo hp).1⟩
    · intro h
      have hi := h i (Nat.le_refl i) (by omega) fun l h1 h2 => by omega
      exact ⟨hi.1, fun hp => ⟨hi.2 hp, fun hmore => by omega⟩⟩
  | succ n ih =>
    rw [promisedFrom_iff (by omega) hf]
    constructor
    · rintro ⟨hfits, hgo⟩ j hij hj hpass
      by_cases heq : i = j
      · subst heq
        exact ⟨hfits, fun hp => (hgo hp).1⟩
      · obtain ⟨hkeeps, hrest⟩ := hgo (hpass i (Nat.le_refl i) (by omega))
        have hmore : i + 1 < x.phnum := by omega
        exact (ih (by omega) (fields_succ hmore hkeeps)).mp (hrest hmore) j (by omega) hj
          fun l h1 h2 => hpass l (by omega) h2
    · intro h
      have hi := h i (Nat.le_refl i) (by omega) fun l h1 h2 => by omega
      refine ⟨hi.1, fun hp => ⟨hi.2 hp, fun hmore => ?_⟩⟩
      refine (ih (by omega) (fields_succ hmore (hi.2 hp))).mpr fun j hij hj hpass => ?_
      refine h j (by omega) hj fun l h1 h2 => ?_
      by_cases heq : i = l
      · exact heq ▸ hp
      · exact hpass l (by omega) h2

/-! ## `spawn` -/

theorem header_byte {a : Nat} (ha : a < EHDR_SIZE) : x.bufAt 0 a = x.file a := by
  have hbyte : x.stack.copy 0 x.file 0 EHDR_SIZE (0 + a) = x.file (0 + a) := Bytes.copy_of_mem ha
  rw [Nat.zero_add] at hbyte
  exact hbyte

theorem header_half {a : Nat} (ha : a + 1 < EHDR_SIZE) : half (x.bufAt 0) a = half x.file a := by
  unfold half
  rw [header_byte (by omega), header_byte ha]

theorem header_accepted : elfFrom (x.bufAt 0) = elfFrom x.file := by
  unfold elfFrom
  rw [header_byte (by decide), header_byte (by decide), header_byte (by decide), header_byte (by decide),
    header_half (by decide)]

theorem fields_zero (h0 : 0 < x.phnum) : x.Fields 0 where
  size := header_half (by decide)
  num := by
    unfold ePhnum
    rw [header_half (by decide)]
    exact h0

theorem offset_zero : ePhoff (x.bufAt 0) = x.offset 0 := by
  have hoff : ePhoff (x.bufAt 0) = ePhoff x.file :=
    Bytes.word_congr fun i _ hi => header_byte (by unfold EHDR_SIZE; omega)
  rw [hoff]
  unfold Setting.offset ePhoff
  rw [Nat.zero_mul, Nat.add_zero, wrap_of_lt (Bytes.word_lt _ _)]

theorem spawn_iff (hx : x.Accepted) :
    wp (spawn x k) (fun _ t => t.visited = x.offsets) x.Failed x.start ↔
      (0 ≤ x.initStack x.child → x.Promised k 0 (x.offset 0) (x.stateAt 0)) := by
  have hread : min EHDR_SIZE x.size = EHDR_SIZE := Nat.min_eq_left hx.size
  have hstart : (⟨x.start.elfbuf.copy 0 x.file 0 EHDR_SIZE, x.start.visited⟩ : State) = x.stateAt 0 := rfl
  have hok : elfFrom (x.start.elfbuf.copy 0 x.file 0 EHDR_SIZE) = true := header_accepted.trans hx.header
  have hoff : ePhoff (x.start.elfbuf.copy 0 x.file 0 EHDR_SIZE) = x.offset 0 := offset_zero
  unfold spawn Setting.Promised
  simp only [Lib.wp_bind, Lib.wp_get, Lib.wp_modify, wp_ite, Lib.wp_throw, hread, hstart, hok, hoff]
  constructor
  · rintro ⟨-, hgo⟩ hinit
    exact ((hgo fun h => h rfl).2 (by simp)).2 (Int.not_lt.mpr hinit)
  · intro hgo
    refine ⟨fun h => absurd rfl h, fun _ => ⟨fun h => absurd h (by simp), fun _ => ⟨?_, fun h => ?_⟩⟩⟩
    · exact fun hneg => failed_at hneg
    · exact hgo (Int.not_lt.mp h)

theorem promisedFrom_zero : x.PromisedFrom 0 ↔ x.Harmless := by
  unfold Setting.Harmless
  by_cases h0 : 0 < x.phnum
  · rw [promisedFrom_all (x.phnum - 1) (by omega) (fields_zero h0)]
    constructor
    · exact fun h j hj hpass => h j (Nat.zero_le j) hj fun l _ hl => hpass l hl
    · exact fun h j _ hj hpass => h j hj fun l hl => hpass l (Nat.zero_le l) hl
  · -- There is no header.
    refine iff_of_true ⟨1, ?_⟩ fun i hi => absurd hi (by omega)
    have hnum : ePhnum (x.stateAt 0).elfbuf = x.phnum := header_half (by decide)
    unfold Setting.Promised
    rw [headers, Lib.wp_bind, Lib.wp_get, if_neg (by omega), Lib.wp_pure]
    have hnil : x.offsets = [] := List.length_eq_zero_iff.mp (length_offsets.trans (by omega))
    unfold Setting.stateAt
    rw [hnil]
    rfl

theorem reads_iff (hx : x.Accepted) :
    x.ReadsHeaders ↔ (0 ≤ x.initStack x.child → x.Harmless) := by
  unfold Setting.ReadsHeaders
  simp only [spawn_iff hx]
  rw [← promisedFrom_zero]
  constructor
  · rintro ⟨k, h⟩ hinit
    exact ⟨k, h hinit⟩
  · intro h
    by_cases hinit : 0 ≤ x.initStack x.child
    · obtain ⟨k, hk⟩ := h hinit
      exact ⟨k, fun _ => hk⟩
    · exact ⟨0, fun h => absurd h hinit⟩

/-- A header of the usual size leaves the fields behind it alone. -/
theorem harmless_of_small (hsize : x.phentsize ≤ 42) : x.Harmless := by
  have hkept : ∀ i a, 42 ≤ a → a < EHDR_SIZE → x.bufAt i a = x.file a := by
    intro i a h42 ha
    induction i with
    | zero => exact header_byte ha
    | succ i ih =>
      have hle : x.available i ≤ x.phentsize := Nat.min_le_left _ _
      exact (Bytes.copy_of_ne (by omega)).trans ih
  have hfield : ∀ i a, 42 ≤ a → a + 1 < EHDR_SIZE → half (x.bufAt i) a = half x.file a := by
    intro i a h42 ha
    unfold half
    rw [hkept i a h42 (by omega), hkept i (a + 1) (by omega) ha]
  intro i hi _
  have hle : x.available i ≤ x.phentsize := Nat.min_le_left _ _
  refine ⟨by unfold ELFBUF_SIZE; omega, fun _ => ?_⟩
  have hnum : ePhnum (x.bufAt (i + 1)) = x.phnum := hfield _ _ (by decide) (by decide)
  unfold Setting.Keeps
  rw [hnum]
  split
  · rename_i hmore
    exact ⟨hfield _ _ (by decide) (by decide), hmore⟩
  · exact Nat.le_refl _

/-- The headers are read as the ELF header says just when what is read leaves that header as it was. -/
theorem readsHeaders_iff (x : Setting) (hx : x.Accepted) :
    x.ReadsHeaders ↔ x.initStack x.child < 0 ∨ x.Harmless := by
  rw [reads_iff hx]
  by_cases hinit : x.initStack x.child < 0
  · exact iff_of_true (fun h => absurd hinit (Int.not_lt.mpr h)) (.inl hinit)
  · rw [or_iff_right hinit]
    exact ⟨fun h => h (Int.not_lt.mp hinit), fun h _ => h⟩

/-- An executable file with the program headers of the given size right behind its ELF header. -/
def exec (phentsize phnum : UInt8 × UInt8) (size : Nat) : Setting where
  file a := [0x7f, 0x45, 0x4c, 0x46, 0, 0, 0, 0, 0, 0, 0, 0, 0, 0, 0, 0, 2, 0, 8, 0, 1, 0, 0, 0, 0, 0, 0x40,
    0, 52, 0, 0, 0, 0, 0, 0, 0, 0, 0, 0, 0, 52, 0, phentsize.1, phentsize.2, phnum.1, phnum.2].getD a 0
  size := size
  stack _ := 0
  exofork := 2049
  initStack _ := 0
  readMap _ _ := 0
  elfLoadSeg _ _ := 0
  elfLoadSeg_le _ _ := Int.le_refl 0

theorem readsHeaders_usual : (exec (32, 0) (2, 0) 116).ReadsHeaders :=
  (readsHeaders_iff _ ⟨by decide, by decide⟩).mpr (.inr (harmless_of_small (by decide)))

/-- A header of 600 bytes is read behind the buffer. -/
theorem not_readsHeaders : ¬ ∀ x : Setting, x.Accepted → x.ReadsHeaders := by
  intro h
  have hx : (exec (0x58, 2) (1, 0) 652).Accepted := ⟨by decide, by decide⟩
  have hharmless := (reads_iff hx).mp (h _ hx) (by decide)
  have hfits := (hharmless 0 (by decide) fun j hj => absurd hj (Nat.not_lt_zero j)).1
  exact absurd hfits (by decide)

end Mos.Spawn.Headers
