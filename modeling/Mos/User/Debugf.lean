import Mathlib.Algebra.Order.BigOperators.Group.List
import Mathlib.Algebra.Order.Group.Nat
import Mos.Strings

/-!
# Buffered output (`user/lib/debugf.c`)

`debug_output` collects what it is given in a buffer on the stack and has the kernel print the
buffer when it is full.
-/

namespace Mos.User.Debugf

open Lib (Bytes wp wp_mono wp_ite)
open Strings (memcpy view wrap wrap_of_lt)

def BUF_LEN : Nat := 1024

def UTOP : Nat := 0x7f400000

def E_INVAL : Int := 3

inductive Stop where
  | memory (e : Strings.Stop)
  /-- A loop that has not ended. -/
  | turns
  /-- `user_panic` on a result of the kernel. -/
  | panic (r : Int)
  deriving DecidableEq, Repr

structure State where
  mem : Bytes
  /-- What the console has been given. -/
  printed : List UInt8

abbrev Prog := EStateM Stop State

def onMem {α : Type} (x : Strings.Mem α) : Prog α :=
  Lib.zoom State.mem (fun st m => { st with mem := m }) .memory x

/-- The address of a `struct debug_ctx`, on a stack. -/
structure DebugCtx where
  addr : Nat
  aligned : addr % 4 = 0
  below : addr + 1028 ≤ UTOP

namespace DebugCtx

def buf (ctx : DebugCtx) : Nat := ctx.addr

def pos (ctx : DebugCtx) : Nat := ctx.addr + BUF_LEN

/-- `ctx->pos` -/
def getPos (ctx : DebugCtx) (st : State) : Nat := st.mem.word ctx.pos

def setPos (ctx : DebugCtx) (v : Nat) : Prog Unit :=
  modify fun st => { st with mem := st.mem.setWord ctx.pos v }

end DebugCtx

/-- The kernel checks the range before it prints. -/
def syscallPrintCons (s num : Nat) : Prog Int := do
  if UTOP < wrap (s + num) ∨ UTOP ≤ s ∨ wrap (s + num) < s then
    return -E_INVAL
  else do
    modify fun st => { st with printed := st.printed ++ view st.mem s num }
    return 0

def debugFlush (ctx : DebugCtx) : Prog Unit := do
  let pos := ctx.getPos (← get)
  if pos = 0 then
    return ()
  else do
    let r ← syscallPrintCons ctx.buf pos
    if r ≠ 0 then throw (.panic r)
    ctx.setPos 0

/-- The loop has `k` turns at most. The arithmetic is that of `size_t`. -/
def debugOutput (ctx : DebugCtx) : Nat → Nat → Nat → Prog Unit
  | 0, _, _ => throw .turns
  | k + 1, s, l => do
    let pos := ctx.getPos (← get)
    if BUF_LEN < wrap (pos + l) then do
      let n := wrap (BUF_LEN + 2 ^ 32 - pos)
      let _ ← onMem (memcpy (n + 1) (wrap (ctx.buf + pos)) s n)
      ctx.setPos BUF_LEN
      debugFlush ctx
      debugOutput ctx k (wrap (s + n)) (wrap (l + 2 ^ 32 - n))
    else do
      let _ ← onMem (memcpy (l + 1) (wrap (ctx.buf + pos)) s l)
      ctx.setPos (wrap (pos + l))

/-! ## Calls -/

/-- A call of `debug_output` on a string that is not in the buffer. `mem` is the memory at that
time, apart from the buffer. -/
structure Call (ctx : DebugCtx) where
  mem : Bytes
  s : Nat
  l : Nat
  address : s < 2 ^ 32
  fits : s + l ≤ 2 ^ 32
  apart : s + l ≤ ctx.addr ∨ ctx.addr + 1028 ≤ s

def Call.text {ctx : DebugCtx} (c : Call ctx) : List UInt8 := view c.mem c.s c.l

/-- What others have stored since the last call. -/
def Call.others {ctx : DebugCtx} (c : Call ctx) : Prog Unit :=
  modify fun st => { st with mem := c.mem.copy ctx.addr st.mem ctx.addr 1028 }

def output (ctx : DebugCtx) (k : Nat) : List (Call ctx) → Prog Unit
  | [] => return ()
  | c :: cs => do
    c.others
    debugOutput ctx k c.s c.l
    output ctx k cs

/-- `vdebugf`, where `vprintfmt` makes the calls. -/
def vdebugf (ctx : DebugCtx) (k : Nat) (calls : List (Call ctx)) : Prog Unit := do
  ctx.setPos 0
  output ctx k calls
  debugFlush ctx

/-! ## The buffer -/

variable {ctx : DebugCtx} {st : State} {k : Nat}

/-- What the console has been given and what is still in the buffer. -/
def all (ctx : DebugCtx) (st : State) : List UInt8 :=
  st.printed ++ view st.mem ctx.buf (ctx.getPos st)

/-- The memories agree outside of `*ctx`. -/
def SameOutside (ctx : DebugCtx) (m m' : Bytes) : Prop :=
  ∀ a, a < ctx.addr ∨ ctx.addr + 1028 ≤ a → m' a = m a

theorem SameOutside.trans {m m' m'' : Bytes} (h : SameOutside ctx m m') (h' : SameOutside ctx m' m'') :
    SameOutside ctx m m'' := fun a ha => (h' a ha).trans (h a ha)

theorem SameOutside.view {m m' : Bytes} (h : SameOutside ctx m m') {s l : Nat}
    (hs : s + l ≤ ctx.addr ∨ ctx.addr + 1028 ≤ s) : view m' s l = view m s l :=
  Strings.view_congr fun i h1 h2 => h i (by omega)

theorem sameOutside_setPos (m : Bytes) (v : Nat) : SameOutside ctx m (m.setWord ctx.pos v) := by
  intro a ha
  unfold DebugCtx.pos BUF_LEN
  exact Bytes.setWord_of_ne (by omega)

theorem getPos_setWord {v : Nat} (hv : v < 2 ^ 32) (out : List UInt8) (m : Bytes) :
    ctx.getPos ⟨m.setWord ctx.pos v, out⟩ = v := by
  unfold DebugCtx.getPos
  rw [Bytes.word_setWord_self, Nat.mod_eq_of_lt hv]

theorem view_setPos (m : Bytes) {v n : Nat} (hn : n ≤ BUF_LEN) :
    view (m.setWord ctx.pos v) ctx.buf n = view m ctx.buf n := by
  refine Strings.view_congr fun i _ hi => Bytes.setWord_of_ne ?_
  unfold DebugCtx.buf at hi
  unfold DebugCtx.pos
  omega

/-- `n` bytes are put behind those in the buffer, and `pos` is set. -/
theorem store_spec {s n : Nat} (hpos : ctx.getPos st + n ≤ BUF_LEN) (haddr : s < 2 ^ 32)
    (hs : s + n ≤ 2 ^ 32) (hapart : s + n ≤ ctx.addr ∨ ctx.addr + 1028 ≤ s) :
    wp (do
      let _ ← onMem (memcpy (n + 1) (wrap (ctx.buf + ctx.getPos st)) s n)
      ctx.setPos (ctx.getPos st + n))
      (fun _ t => all ctx t = all ctx st ++ view st.mem s n ∧ ctx.getPos t = ctx.getPos st + n ∧
        SameOutside ctx st.mem t.mem) (fun _ _ => False) st := by
  have hbelow := ctx.below
  have hbuf : ctx.buf = ctx.addr := rfl
  unfold BUF_LEN at hpos
  unfold UTOP at hbelow
  rw [Lib.wp_bind, wrap_of_lt (by omega)]
  unfold onMem
  rw [Lib.wp_zoom]
  refine wp_mono (Strings.memcpy_spec st.mem haddr hs (by omega) (by omega) (Nat.lt_succ_self n)) ?_
    (fun _ _ h => h)
  rintro _ _ ⟨-, rfl⟩
  unfold DebugCtx.setPos
  rw [Lib.wp_modify]
  refine ⟨?_, getPos_setWord (by omega) _ _, ?_⟩
  · unfold all
    rw [getPos_setWord (by omega), view_setPos _ hpos, Strings.view_append, Strings.view_copy]
    have hold : view (st.mem.copy (ctx.buf + ctx.getPos st) st.mem s n) ctx.buf (ctx.getPos st) =
        view st.mem ctx.buf (ctx.getPos st) :=
      Strings.view_congr fun i _ hi => Bytes.copy_of_ne (.inl hi)
    rw [hold, List.append_assoc]
  · refine SameOutside.trans (fun a ha => ?_) (sameOutside_setPos _ _)
    exact Bytes.copy_of_ne (by omega)

theorem syscallPrintCons_spec {num : Nat} (hnum : num ≤ BUF_LEN) :
    wp (syscallPrintCons ctx.buf num)
      (fun r t => r = 0 ∧ t = { st with printed := st.printed ++ view st.mem ctx.buf num })
      (fun _ _ => False) st := by
  have hbelow := ctx.below
  have hbuf : ctx.buf = ctx.addr := rfl
  unfold BUF_LEN at hnum
  unfold UTOP at hbelow
  unfold syscallPrintCons UTOP
  rw [wrap_of_lt (by omega), if_neg (by omega), Lib.wp_bind, Lib.wp_modify, Lib.wp_pure]
  exact ⟨rfl, rfl⟩

/-- `debug_flush` prints what is in the buffer. -/
theorem debugFlush_spec (hpos : ctx.getPos st ≤ BUF_LEN) :
    wp (debugFlush ctx) (fun _ t => t.printed = all ctx st ∧ ctx.getPos t = 0 ∧
      SameOutside ctx st.mem t.mem) (fun _ _ => False) st := by
  unfold debugFlush
  rw [Lib.wp_bind, Lib.wp_get]
  simp only
  rw [wp_ite]
  constructor
  · intro h0
    rw [Lib.wp_pure]
    refine ⟨?_, h0, fun _ _ => rfl⟩
    unfold all
    rw [h0]
    exact (List.append_nil _).symm
  · intro _
    rw [Lib.wp_bind]
    refine wp_mono (syscallPrintCons_spec hpos) ?_ (fun _ _ h => h)
    rintro _ _ ⟨rfl, rfl⟩
    refine Lib.wp_guard (fun h => h rfl) fun _ => ?_
    unfold DebugCtx.setPos
    rw [Lib.wp_modify]
    exact ⟨rfl, getPos_setWord (Nat.two_pow_pos 32) _ _, sameOutside_setPos _ _⟩

/-! ## The calls -/

/-- `debug_output` ends, loses nothing and stores to the buffer alone. -/
theorem debugOutput_spec {s l : Nat} (hpos : ctx.getPos st ≤ BUF_LEN) (haddr : s < 2 ^ 32)
    (hs : s + l ≤ 2 ^ 32) (hapart : s + l ≤ ctx.addr ∨ ctx.addr + 1028 ≤ s)
    (hk : ctx.getPos st + l < BUF_LEN * k) :
    wp (debugOutput ctx k s l)
      (fun _ t => all ctx t = all ctx st ++ view st.mem s l ∧ ctx.getPos t ≤ BUF_LEN ∧
        SameOutside ctx st.mem t.mem) (fun _ _ => False) st := by
  have hbelow := ctx.below
  have hlen : BUF_LEN = 1024 := rfl
  unfold UTOP at hbelow
  induction k generalizing s l st with
  | zero => omega
  | succ k ih =>
    rw [Nat.mul_succ] at hk
    unfold debugOutput
    rw [Lib.wp_bind, Lib.wp_get]
    simp only
    -- The string and `*ctx` are apart, so their lengths do not add up to all addresses.
    rw [wrap_of_lt (show ctx.getPos st + l < 2 ^ 32 by omega), wp_ite]
    constructor
    · intro hfull
      obtain ⟨n, hsum⟩ := Nat.exists_eq_add_of_le hpos
      have hn : wrap (BUF_LEN + 2 ^ 32 - ctx.getPos st) = n := by
        unfold wrap
        omega
      have hstore := store_spec (Nat.le_of_eq hsum.symm) haddr (s := s) (by omega) (by omega)
      rw [← hsum, Lib.wp_bind] at hstore
      rw [hn, Lib.wp_bind]
      refine wp_mono hstore (fun _ st₁ h₁ => ?_) (fun _ _ h => h)
      rw [Lib.wp_bind]
      refine wp_mono h₁ ?_ (fun _ _ h => h)
      rintro _ st₂ ⟨hall, hpos₂, hsame₂⟩
      rw [Lib.wp_bind]
      refine wp_mono (debugFlush_spec (by omega)) ?_ (fun _ _ h => h)
      rintro _ st₃ ⟨hprinted, hpos₃, hsame₃⟩
      have hsame := hsame₂.trans hsame₃
      have hleft : wrap (l + 2 ^ 32 - n) = l - n := by
        unfold wrap
        omega
      rw [hleft, wrap_of_lt (by omega)]
      refine wp_mono (ih (by omega) (by omega) (by omega) (by omega) (by omega)) ?_ (fun _ _ h => h)
      rintro _ t ⟨hall', hpos', hsame'⟩
      refine ⟨?_, hpos', hsame.trans hsame'⟩
      have hempty : all ctx st₃ = st₃.printed := by
        unfold all
        rw [hpos₃]
        exact List.append_nil _
      rw [hall', hempty, hprinted, hall, hsame.view (by omega), List.append_assoc, ← Strings.view_append,
        Nat.add_sub_cancel' (by omega)]
    · intro hfits
      refine wp_mono (store_spec (by omega) haddr hs hapart) ?_ (fun _ _ h => h)
      rintro _ t ⟨hall, hpos', hsame⟩
      exact ⟨hall, by omega, hsame⟩

/-- The memory outside of `*ctx` that the last of the calls has seen. -/
def lastMem (m : Bytes) : List (Call ctx) → Bytes
  | [] => m
  | c :: cs => lastMem c.mem cs

theorem SameOutside.lastMem {m m' : Bytes} (h : SameOutside ctx m m') (calls : List (Call ctx)) :
    SameOutside ctx (lastMem m calls) (Debugf.lastMem m' calls) := by
  cases calls with
  | nil => exact h
  | cons c cs => exact fun _ _ => rfl

theorem others_spec (c : Call ctx) (hle : ctx.getPos st ≤ BUF_LEN) :
    wp c.others (fun _ t => all ctx t = all ctx st ∧ ctx.getPos t = ctx.getPos st ∧
      SameOutside ctx c.mem t.mem) (fun _ _ => False) st := by
  have hin : ∀ i, ctx.addr ≤ i → i < ctx.addr + 1028 →
      c.mem.copy ctx.addr st.mem ctx.addr 1028 i = st.mem i := by
    intro i h1 h2
    obtain ⟨j, rfl⟩ := Nat.exists_eq_add_of_le h1
    exact Bytes.copy_of_mem (by omega)
  have hlen : BUF_LEN = 1024 := rfl
  have hpos : (c.mem.copy ctx.addr st.mem ctx.addr 1028).word ctx.pos = st.mem.word ctx.pos := by
    unfold DebugCtx.pos BUF_LEN
    exact Bytes.word_congr fun i h1 h2 => hin i (by omega) (by omega)
  unfold Call.others
  rw [Lib.wp_modify]
  refine ⟨?_, hpos, fun a ha => Bytes.copy_of_ne ha⟩
  unfold all DebugCtx.getPos
  rw [hpos]
  refine congrArg (st.printed ++ ·) (Strings.view_congr fun i h1 h2 => hin i h1 ?_)
  unfold DebugCtx.getPos at hle
  unfold DebugCtx.buf at h2
  omega

theorem call_spec (c : Call ctx) (hpos : ctx.getPos st ≤ BUF_LEN) (hk : BUF_LEN + c.l < BUF_LEN * k) :
    wp (do
      c.others
      debugOutput ctx k c.s c.l)
      (fun _ t => all ctx t = all ctx st ++ c.text ∧ ctx.getPos t ≤ BUF_LEN ∧
        SameOutside ctx c.mem t.mem) (fun _ _ => False) st := by
  rw [Lib.wp_bind]
  refine wp_mono (others_spec c hpos) ?_ (fun _ _ h => h)
  rintro _ t ⟨hall, hpos', hsame⟩
  refine wp_mono (debugOutput_spec (by omega) c.address c.fits c.apart (by omega)) ?_ (fun _ _ h => h)
  rintro _ u ⟨hall', hpos'', hsame'⟩
  refine ⟨?_, hpos'', hsame.trans hsame'⟩
  rw [hall', hall, hsame.view c.apart]
  rfl

theorem output_spec (calls : List (Call ctx)) (hpos : ctx.getPos st ≤ BUF_LEN)
    (hk : ∀ c ∈ calls, BUF_LEN + c.l < BUF_LEN * k) :
    wp (output ctx k calls)
      (fun _ t => all ctx t = all ctx st ++ calls.flatMap Call.text ∧ ctx.getPos t ≤ BUF_LEN ∧
        SameOutside ctx (lastMem st.mem calls) t.mem) (fun _ _ => False) st := by
  induction calls generalizing st with
  | nil =>
    unfold output
    rw [Lib.wp_pure]
    exact ⟨(List.append_nil _).symm, hpos, fun _ _ => rfl⟩
  | cons c calls ih =>
    have hcall := call_spec c hpos (hk c List.mem_cons_self)
    rw [Lib.wp_bind] at hcall
    unfold output
    rw [Lib.wp_bind]
    refine wp_mono hcall (fun _ t h => ?_) (fun _ _ h => h)
    rw [Lib.wp_bind]
    refine wp_mono h ?_ (fun _ _ h => h)
    rintro _ u ⟨hall, hpos', hsame⟩
    refine wp_mono (ih hpos' fun c hc => hk c (List.mem_cons_of_mem _ hc)) ?_ (fun _ _ h => h)
    rintro _ v ⟨hall', hpos'', hsame'⟩
    refine ⟨?_, hpos'', ?_⟩
    · rw [hall', hall, List.flatMap_cons, List.append_assoc]
    · exact (hsame.lastMem calls).trans hsame'

/-- Turns that are enough for each of the calls. -/
def turnsFor (calls : List (Call ctx)) : Nat := (calls.map Call.l).sum + 2

theorem lt_turnsFor {c : Call ctx} {calls : List (Call ctx)} (hc : c ∈ calls) :
    BUF_LEN + c.l < BUF_LEN * turnsFor calls := by
  have hle : c.l ≤ (calls.map Call.l).sum := List.le_sum_of_mem (List.mem_map_of_mem hc)
  unfold turnsFor BUF_LEN
  omega

/-- Output is transparent: whatever the calls, they end, nothing outside of `*ctx` changes, and the
bytes printed and those in the buffer are the strings in a row. -/
theorem output_transparent (ctx : DebugCtx) (calls : List (Call ctx)) (st : State)
    (hpos : ctx.getPos st = 0) :
    ∃ k t, output ctx k calls st = .ok () t ∧
      t.printed ++ view t.mem ctx.buf (ctx.getPos t) = st.printed ++ calls.flatMap Call.text ∧
      ctx.getPos t ≤ BUF_LEN ∧ SameOutside ctx (lastMem st.mem calls) t.mem := by
  have hspec := output_spec (k := turnsFor calls) calls (hpos ▸ Nat.zero_le _) fun c hc => lt_turnsFor hc
  obtain ⟨_, t, hrun, hall, hrest⟩ := Lib.exists_of_wp hspec
  refine ⟨turnsFor calls, t, hrun, hall.trans ?_, hrest⟩
  unfold all
  rw [hpos]
  exact congrArg (· ++ calls.flatMap Call.text) (List.append_nil _)

/-- The last call fills the buffer exactly, after one that was longer than the buffer. -/
theorem output_transparent_full :
    let ctx : DebugCtx := ⟨0x7f3fd000, rfl, by decide⟩
    let call (l : Nat) (hl : l < 4000) : Call ctx :=
      ⟨fun _ => 65, 0x400000, l, by decide, by omega, .inl (show 0x400000 + l ≤ 0x7f3fd000 by omega)⟩
    let calls := [call 3000 (by decide), call 72 (by decide)]
    ∃ k t, output ctx k calls ⟨fun _ => 0, []⟩ = .ok () t ∧
      t.printed ++ view t.mem ctx.buf (ctx.getPos t) = [] ++ calls.flatMap Call.text ∧
      ctx.getPos t ≤ BUF_LEN ∧ SameOutside ctx (lastMem (fun _ => 0) calls) t.mem := by
  intro ctx call calls
  exact output_transparent ctx calls ⟨fun _ => 0, []⟩ (Bytes.word_zero fun _ _ _ => rfl)

theorem vdebugf_prints (ctx : DebugCtx) (calls : List (Call ctx)) (st : State) :
    ∃ k t, vdebugf ctx k calls st = .ok () t ∧
      t.printed = st.printed ++ calls.flatMap Call.text := by
  obtain ⟨m, hm⟩ : ∃ m, m = st.mem.setWord ctx.pos 0 := ⟨_, rfl⟩
  have h0 : ctx.getPos ⟨m, st.printed⟩ = 0 := hm ▸ getPos_setWord (Nat.two_pow_pos 32) _ _
  have hspec := output_spec (k := turnsFor calls) calls (h0 ▸ Nat.zero_le _) fun c hc => lt_turnsFor hc
  obtain ⟨_, t, hrun, hall, hpos, -⟩ := Lib.exists_of_wp hspec
  obtain ⟨_, u, hflush, hprinted, -⟩ := Lib.exists_of_wp (debugFlush_spec hpos)
  have hstart : all ctx ⟨m, st.printed⟩ = st.printed := by
    unfold all
    rw [h0]
    exact List.append_nil _
  refine ⟨turnsFor calls, u, ?_, ?_⟩
  · subst hm
    exact (Lib.bind_ok rfl).trans ((Lib.bind_ok hrun).trans hflush)
  · rw [hprinted, hall, hstart]

end Mos.User.Debugf
