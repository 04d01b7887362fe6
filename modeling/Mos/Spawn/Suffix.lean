import Mos.Strings

/-!
# The suffix of programs (`user/lib/spawn.c`, `spawn`)

If there is no program of the name, the one with `.b` behind it is opened. That name is put
together in an array on the stack.
-/

namespace Mos.Spawn.Suffix

open Lib (Bytes wp wp_mono wp_ite)
open Strings (StringAt view wrap wrap_of_lt strcpy strlen storeByte)

structure State (σ : Type) where
  mem : Bytes
  /-- The file system, and what else `open` works on. -/
  fs : σ
  /-- The strings that `open` was given. -/
  opened : List (List UInt8)

abbrev Prog (σ : Type) := EStateM Strings.Stop (State σ)

variable {σ : Type}

def onMem {α : Type} (x : Strings.Mem α) : Prog σ α :=
  Lib.zoom State.mem (fun st m => { st with mem := m }) id x

/-- The string at `s`, without its `NUL`. -/
def stringAt (k s : Nat) : Strings.Mem (List UInt8) := do
  let n ← strlen k s
  let m ← get
  return (List.range n).map fun i => m (wrap (s + i))

/-- `open(path, O_RDONLY)` -/
def openAt (opens : List UInt8 → σ → Int × σ) (k path : Nat) : Prog σ Int := do
  let name ← onMem (stringAt k path)
  let st ← get
  let (fd, fs) := opens name st.fs
  set { st with fs := fs, opened := st.opened ++ [name] }
  return fd

/-- `".b"` -/
def ext : List UInt8 := [0x2e, 0x62]

/-- `for (i, j; j < strlen(ext); i++, j++) prog_b[i] = ext[j]`, on the characters that are left. -/
def append (progB : Nat) : Nat → List UInt8 → Strings.Mem Unit
  | _, [] => return ()
  | i, c :: l => do
    storeByte c (wrap (progB + i))
    append progB (i + 1) l

/-- The first step of `spawn`, which ends with a descriptor or an error. -/
def openProgram (opens : List UInt8 → σ → Int × σ) (k prog progB : Nat) : Prog σ Int := do
  let fd ← openAt opens k prog
  if fd < 0 then do
    onMem (strcpy k progB prog)
    let i ← onMem (strlen k progB)
    onMem (append progB i ext)
    openAt opens k progB
  else return fd

/-! ## The name that is opened -/

/-- The memory when `spawn` is called: a name at `prog`, and any bytes in the array at `progB`. -/
structure Launch where
  mem : Bytes
  prog : Nat
  length : Nat
  progB : Nat
  string : StringAt mem prog length
  short : length < 1022
  array : progB + 1024 ≤ 2 ^ 32
  apart : prog + length < progB ∨ progB + 1024 ≤ prog

namespace Launch

def name (x : Launch) : List UInt8 := view x.mem x.prog x.length

/-- The byte that happens to be behind the suffix. -/
def leftover (x : Launch) : UInt8 := x.mem (x.progB + x.length + 2)

end Launch

/-- When the name itself cannot be opened, just the name with the suffix is opened next, and `spawn`
goes on with what that gives. -/
def FallsBack (opens : List UInt8 → σ → Int × σ) (x : Launch) (fs : σ) : Prop :=
  ∃ k fd t, openProgram opens k x.prog x.progB ⟨x.mem, fs, []⟩ = .ok fd t ∧
    t.opened = [x.name, x.name ++ ext] ∧ (fd, t.fs) = opens (x.name ++ ext) (opens x.name fs).2

variable {opens : List UInt8 → σ → Int × σ} {x : Launch} {fs : σ} {k : Nat} {m : Bytes}

theorem stringAt_spec {a n : Nat} (h : StringAt m a n) :
    wp (stringAt k a) (fun r s => r = view m a n ∧ s = m) (fun _ _ => k ≤ n) m := by
  unfold stringAt
  rw [Lib.wp_bind]
  refine wp_mono (Strings.strlen_spec h) ?_ (fun _ _ h => h)
  rintro _ _ ⟨rfl, rfl⟩
  rw [Lib.wp_bind, Lib.wp_get, Lib.wp_pure]
  refine ⟨List.map_congr_left fun i hi => ?_, rfl⟩
  have hlow := h.low
  have hlt := List.mem_range.mp hi
  rw [wrap_of_lt (by omega)]

theorem stringAt_nul {a : Nat} (ha : a < 2 ^ 32) :
    wp (stringAt k a) (fun r s => s = m ∧ (a + r.length < 2 ^ 32 → m (a + r.length) = 0))
      (fun _ _ => True) m := by
  have hnul := Strings.strlenFrom_nul (k := k) (m := m) (a := a) (j := 0)
  rw [Nat.add_zero, wrap_of_lt ha] at hnul
  unfold stringAt strlen
  rw [Lib.wp_bind]
  refine wp_mono hnul ?_ (fun _ _ h => h)
  rintro n _ ⟨rfl, h⟩
  rw [Lib.wp_bind, Lib.wp_get, Lib.wp_pure, List.length_map, List.length_range]
  exact ⟨rfl, h⟩

/-- The array after the loop over the suffix. -/
def Launch.joined (x : Launch) : Bytes :=
  Function.update (Function.update (x.mem.copy x.progB x.mem x.prog (x.length + 1))
    (x.progB + x.length) 0x2e) (x.progB + (x.length + 1)) 0x62

theorem joined_char {i : Nat} (hi : i < x.length) : x.joined (x.progB + i) = x.mem (x.prog + i) := by
  unfold Launch.joined
  rw [Function.update_of_ne (by omega), Function.update_of_ne (by omega)]
  exact Bytes.copy_of_mem (by omega)

theorem joined_dot : x.joined (x.progB + x.length) = 0x2e := by
  unfold Launch.joined
  rw [Function.update_of_ne (by omega), Function.update_self]

theorem joined_b : x.joined (x.progB + (x.length + 1)) = 0x62 := by
  unfold Launch.joined
  rw [Function.update_self]

theorem joined_leftover : x.joined (x.progB + (x.length + 2)) = x.leftover := by
  unfold Launch.joined Launch.leftover
  rw [Function.update_of_ne (by omega), Function.update_of_ne (by omega), Bytes.copy_of_ne (by omega)]
  rfl

theorem view_joined : view x.joined x.progB (x.length + 2) = x.name ++ ext := by
  rw [Strings.view_append]
  have hname : view x.joined x.progB x.length = x.name :=
    List.map_congr_left fun i hi => joined_char (List.mem_range.mp hi)
  have hext : view x.joined (x.progB + x.length) 2 = ext := by
    have hb := joined_b (x := x)
    rw [← Nat.add_assoc] at hb
    show [x.joined (x.progB + x.length), x.joined (x.progB + x.length + 1)] = ext
    rw [joined_dot, hb]
    rfl
  rw [hname, hext]

theorem joined_string (h0 : x.leftover = 0) : StringAt x.joined x.progB (x.length + 2) where
  chars i hi := by
    by_cases hlt : i < x.length
    · rw [joined_char hlt]
      exact x.string.chars i hlt
    · by_cases hdot : i = x.length
      · rw [hdot, joined_dot]
        decide
      · obtain rfl : i = x.length + 1 := by omega
        rw [joined_b]
        decide
  nul := joined_leftover.trans h0
  low := by
    have harray := x.array
    have hshort := x.short
    omega

/-- What has been done when the array is opened. -/
theorem build_spec (st : State σ) (hst : st.mem = x.mem) :
    wp (do
      onMem (strcpy k x.progB x.prog)
      let i ← onMem (strlen k x.progB)
      onMem (append x.progB i ext))
      (fun _ t => t = { st with mem := x.joined }) (fun _ _ => k ≤ x.length) st := by
  have harray := x.array
  have hshort := x.short
  have hapart := x.apart
  have hcopied : StringAt (x.mem.copy x.progB x.mem x.prog (x.length + 1)) x.progB x.length := by
    refine ⟨fun i hi => ?_, ?_, by omega⟩
    · rw [Bytes.copy_of_mem (by omega)]
      exact x.string.chars i hi
    · rw [Bytes.copy_of_mem (by omega)]
      exact x.string.nul
  unfold onMem
  rw [Lib.wp_bind, Lib.wp_zoom, hst]
  refine wp_mono (Strings.strcpy_spec x.string (by omega) (by omega)) ?_ (fun _ _ h => h)
  rintro _ _ rfl
  rw [Lib.wp_bind, Lib.wp_zoom]
  refine wp_mono (Strings.strlen_spec hcopied) ?_ (fun _ _ h => h)
  rintro _ _ ⟨rfl, rfl⟩
  rw [Lib.wp_zoom]
  unfold ext append storeByte append storeByte append
  rw [wrap_of_lt (by omega), wrap_of_lt (by omega), Lib.wp_bind, Lib.wp_modify, Lib.wp_bind,
    Lib.wp_modify, Lib.wp_pure]
  rfl

theorem openAt_spec {path n : Nat} {st : State σ} (h : StringAt st.mem path n) :
    wp (openAt opens k path)
      (fun fd t => (fd, t.fs) = opens (view st.mem path n) st.fs ∧ t.mem = st.mem ∧
        t.opened = st.opened ++ [view st.mem path n]) (fun _ _ => k ≤ n) st := by
  unfold openAt onMem
  rw [Lib.wp_bind, Lib.wp_zoom]
  refine wp_mono (stringAt_spec h) ?_ (fun _ _ h => h)
  rintro _ _ ⟨rfl, rfl⟩
  rw [Lib.wp_bind, Lib.wp_get]
  simp only
  rw [Lib.wp_bind, Lib.wp_set, Lib.wp_pure]
  exact ⟨rfl, rfl, rfl⟩

theorem openAt_nul (path : Nat) {st : State σ} (hp : path < 2 ^ 32) :
    wp (openAt opens k path)
      (fun _ t => ∃ r, t.opened = st.opened ++ [r] ∧
        (path + r.length < 2 ^ 32 → st.mem (path + r.length) = 0)) (fun _ _ => True) st := by
  unfold openAt onMem
  rw [Lib.wp_bind, Lib.wp_zoom]
  refine wp_mono (stringAt_nul hp) ?_ (fun _ _ h => h)
  rintro r _ ⟨rfl, hnul⟩
  rw [Lib.wp_bind, Lib.wp_get]
  simp only
  rw [Lib.wp_bind, Lib.wp_set, Lib.wp_pure]
  exact ⟨r, rfl, hnul⟩

/-- After the first `open` has failed, what `spawn` does is what it does with the joined name. -/
theorem openProgram_of_fails (hfail : (opens x.name fs).1 < 0) {Q : Int → State σ → Prop}
    {E : Strings.Stop → State σ → Prop} (hE : ∀ e t, k ≤ x.length → E e t)
    (h : wp (openAt opens k x.progB) Q E ⟨x.joined, (opens x.name fs).2, [x.name]⟩) :
    wp (openProgram opens k x.prog x.progB) Q E ⟨x.mem, fs, []⟩ := by
  unfold openProgram
  rw [Lib.wp_bind]
  refine wp_mono (openAt_spec x.string) ?_ hE
  rintro fd ⟨_, fs', _⟩ ⟨hopen, rfl, rfl⟩
  have hfd : fd = (opens x.name fs).1 := congrArg Prod.fst hopen
  obtain rfl : fs' = (opens x.name fs).2 := congrArg Prod.snd hopen
  have hbuild := build_spec (x := x) (k := k) ⟨x.mem, (opens x.name fs).2, [x.name]⟩ rfl
  rw [Lib.wp_bind] at hbuild
  rw [if_pos (hfd ▸ hfail), Lib.wp_bind]
  refine wp_mono hbuild (fun _ st₁ h₁ => ?_) hE
  rw [Lib.wp_bind] at h₁ ⊢
  refine wp_mono h₁ (fun i st₂ h₂ => ?_) hE
  rw [Lib.wp_bind]
  refine wp_mono h₂ ?_ hE
  rintro _ _ rfl
  exact h

/-! ## Where the suffix is right -/

theorem leftover_of_fallsBack (hfail : (opens x.name fs).1 < 0) (h : FallsBack opens x fs) :
    x.leftover = 0 := by
  have harray := x.array
  have hshort := x.short
  obtain ⟨k, fd, t, hrun, hopened, -⟩ := h
  have hspec := openProgram_of_fails (k := k) hfail (fun _ _ _ => trivial)
    (openAt_nul (k := k) x.progB (by omega))
  obtain ⟨r, hr, hnul⟩ := Lib.wp_run_ok hspec hrun
  obtain rfl : x.name ++ ext = r := by
    rw [hr] at hopened
    simpa using hopened.symm
  have hlen : (x.name ++ ext).length = x.length + 2 := by
    unfold Launch.name view
    rw [List.length_append, List.length_map, List.length_range]
    rfl
  rw [hlen] at hnul
  exact joined_leftover.symm.trans (hnul (by omega))

/-- The name with the suffix is opened just when the stack happens to have a zero behind it. -/
theorem fallsBack_iff (opens : List UInt8 → σ → Int × σ) (x : Launch) (fs : σ)
    (hfail : (opens x.name fs).1 < 0) : FallsBack opens x fs ↔ x.leftover = 0 := by
  constructor
  · exact leftover_of_fallsBack hfail
  · intro h0
    have hspec := openProgram_of_fails (k := x.length + 3) hfail (E := fun _ _ => False)
      (fun _ _ hk => by omega) (wp_mono (openAt_spec (joined_string h0))
        (fun _ _ h => h) (fun _ _ hk => by omega))
    obtain ⟨fd, t, hrun, hopen, -, hopened⟩ := Lib.exists_of_wp hspec
    simp only [view_joined] at hopen hopened
    exact ⟨x.length + 3, fd, t, hrun, hopened, hopen⟩

/-! ### Two stacks -/

/-- A file system with `ls.b` alone. -/
def onlyLs (name : List UInt8) (fs : Unit) : Int × Unit :=
  if name = [0x6c, 0x73] ++ ext then (0, fs) else (-10, fs)

/-- The name `ls` at 0, and an array that has `c` in it. -/
def launchLs (c : UInt8) : Launch where
  mem i := if i = 0 then 0x6c else if i = 1 then 0x73 else if i = 2 then 0 else c
  prog := 0
  length := 2
  progB := 4096
  string := by
    refine ⟨fun i hi => ?_, rfl, by decide⟩
    rcases i with _ | _ | i
    · simp
    · simp
    · omega
  short := by decide
  array := by decide
  apart := by decide

/-- With other bytes on the stack, a program that is there is not started. -/
theorem not_fallsBack :
    ¬ ∀ (x : Launch) (fs : Unit), (onlyLs x.name fs).1 < 0 → FallsBack onlyLs x fs := by
  intro h
  have hzero := leftover_of_fallsBack (by decide) (h (launchLs 0x41) () (by decide))
  exact absurd hzero (by decide)

theorem fallsBack_zero : FallsBack onlyLs (launchLs 0) () ↔ (launchLs 0).leftover = 0 :=
  fallsBack_iff onlyLs (launchLs 0) () (by decide)

end Mos.Spawn.Suffix
