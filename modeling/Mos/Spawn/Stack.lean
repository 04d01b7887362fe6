import Mos.Fs.Disk

/-!
# The arguments of a child (`user/lib/spawn.c`, `init_stack`)

The strings, the array of pointers to them and two words are laid out in a page of the
parent, with the addresses that they have in the child, and the child gets the page.
Addresses are numbers modulo `2 ^ 32`.
-/

namespace Mos.Spawn

open Fs (Err)
open Lib (Bytes)

def PAGE_SIZE : Nat := 4096
def UTEMP : Nat := 0x003fe000
def USTACKTOP : Nat := 0x7f3fe000

/-- A string without its terminator. -/
abbrev Arg := List UInt8

/-- The parent: its memory, the addresses that were stored to, and the page that the child has got. -/
structure Parent where
  mem : Bytes
  stores : List Nat
  child : Option Bytes

def Parent.start (mem : Bytes) : Parent := ⟨mem, [], none⟩

/-- What the system calls return. -/
structure Calls where
  memAlloc : Int
  memMap : Int
  memUnmap : Int

/-! ## Stores -/

/-- `*(char *)a = b` -/
def Parent.storeByte (p : Parent) (a : Nat) (b : UInt8) : Parent :=
  { p with
    mem := Function.update p.mem (a % 2 ^ 32) b
    stores := p.stores ++ [a % 2 ^ 32] }

/-- `*(u_int *)a = v` -/
def Parent.storeWord (p : Parent) (a v : Nat) : Parent :=
  { p with
    mem := p.mem.setWord (a % 2 ^ 32) v
    stores := p.stores ++ [a % 2 ^ 32, a % 2 ^ 32 + 1, a % 2 ^ 32 + 2, a % 2 ^ 32 + 3] }

def Parent.storeBytes (p : Parent) (ctemp : Nat) : List UInt8 → Parent
  | [] => p
  | c :: l => (p.storeByte ctemp c).storeBytes (ctemp + 1) l

/-- The strings with their terminators, from `ctemp` on. -/
def Parent.copyStrings (p : Parent) (ctemp : Nat) : List Arg → Parent
  | [] => p
  | s :: argv => (p.storeBytes ctemp (s ++ [0])).copyStrings (ctemp + (s.length + 1)) argv

/-- The pointers to the strings, and what comes after them. -/
def Parent.storeArgs (p : Parent) (args ctemp : Nat) : List Arg → Parent
  | [] => p.storeWord args ((ctemp + (2 ^ 32 - 1)) % 2 ^ 32)
  | s :: argv =>
    (p.storeWord args ctemp).storeArgs (args + 4) ((ctemp + (s.length + 1)) % 2 ^ 32) argv

/-- The page at `UTEMP` is a new one. -/
def Parent.alloc (p : Parent) : Parent :=
  { p with mem := p.mem.copy UTEMP (fun _ => 0) 0 PAGE_SIZE }

/-- The child gets the page at `UTEMP`. -/
def Parent.show (p : Parent) : Parent := { p with child := some fun i => p.mem (UTEMP + i) }

/-! ## `init_stack` -/

/-- The number of characters of the strings, with their terminators. -/
def total (argv : List Arg) : Nat := (argv.map fun s => s.length + 1).sum

/-- `ROUND(tot, 4)` -/
def round4 (tot : Nat) : Nat := (tot + 3) % 2 ^ 32 / 4 * 4

def stringsAt (argv : List Arg) : Nat :=
  (UTEMP + PAGE_SIZE + (2 ^ 32 - total argv % 2 ^ 32)) % 2 ^ 32

def argsAt (argv : List Arg) : Nat :=
  (UTEMP + PAGE_SIZE + (2 ^ 32 - round4 (total argv % 2 ^ 32)) +
    (2 ^ 32 - 4 * (argv.length + 1) % 2 ^ 32)) % 2 ^ 32

/-- `USTACKTOP - UTEMP - PAGE_SIZE + a` -/
def toChild (a : Nat) : Nat := (USTACKTOP - UTEMP - PAGE_SIZE + a) % 2 ^ 32

/-- `pargv_ptr` at the end -/
def pargvAt (argv : List Arg) : Nat := (argsAt argv + (2 ^ 32 - 8)) % 2 ^ 32

/-- All stores, in the new page or not. -/
def Parent.layOut (p : Parent) (argv : List Arg) : Parent :=
  (((p.alloc.copyStrings (stringsAt argv) argv).storeArgs (argsAt argv) (toChild (stringsAt argv))
    argv).storeWord (argsAt argv + (2 ^ 32 - 4)) (toChild (argsAt argv))).storeWord (pargvAt argv)
    argv.length

/-- The result is `*init_sp`, if there is no error. -/
def initStack (k : Calls) (argv : List Arg) (p : Parent) : Except Int Nat × Parent :=
  if (round4 (total argv % 2 ^ 32) + 4 * (argv.length + 3)) % 2 ^ 32 > PAGE_SIZE then
    (.error Err.noMem.code, p)
  else if k.memAlloc < 0 then
    (.error k.memAlloc, p)
  else if k.memMap < 0 then
    (.error k.memMap, p.layOut argv)
  else if k.memUnmap < 0 then
    (.error k.memUnmap, (p.layOut argv).show)
  else
    (.ok (toChild (pargvAt argv)), (p.layOut argv).show)

/-! ## What the child reads -/

/-- The page at its addresses in the child. -/
def atTop (page : Bytes) : Bytes := fun a => page (a - (USTACKTOP - PAGE_SIZE))

/-- The `n` bytes from `a` on are in the page below `USTACKTOP`. -/
def InPage (a n : Nat) : Prop := USTACKTOP - PAGE_SIZE ≤ a ∧ a + n ≤ USTACKTOP

/-- At `sp` there are the number of the arguments and a pointer to pointers to them. -/
structure ArgBlock (c : Bytes) (sp : Nat) (argv : List Arg) : Prop where
  header : InPage sp 8
  argc : c.word sp = argv.length
  array : InPage (c.word (sp + 4)) (4 * (argv.length + 1))
  strings : ∀ i (h : i < argv.length), InPage (c.word (c.word (sp + 4) + 4 * i)) (argv[i].length + 1) ∧
    c.holds (c.word (c.word (sp + 4) + 4 * i)) argv[i] = true

/-- The word after the pointers. -/
def lastWord (c : Bytes) (sp : Nat) (argv : List Arg) : Nat :=
  c.word (c.word (sp + 4) + 4 * argv.length)

/-- All stores are in the page at `UTEMP`, and the child reads the arguments with a null pointer after
them. -/
def RoundTrip (argv : List Arg) (sp : Nat) (p : Parent) : Prop :=
  (∀ a ∈ p.stores, UTEMP ≤ a ∧ a < UTEMP + PAGE_SIZE) ∧
    ∃ page, p.child = some page ∧ ArgBlock (atTop page) sp argv ∧ lastWord (atTop page) sp argv = 0

/-! ## The last word -/

theorem storeArgs_last (p : Parent) {args : Nat} (hargs : args % 4 = 0) (ctemp : Nat)
    (argv : List Arg) :
    (p.storeArgs args ctemp argv).mem.word ((args + 4 * argv.length) % 2 ^ 32) =
      (ctemp + total argv + (2 ^ 32 - 1)) % 2 ^ 32 := by
  induction argv generalizing p args ctemp with
  | nil =>
    unfold Parent.storeArgs Parent.storeWord
    simp only
    rw [List.length_nil, Nat.mul_zero, Nat.add_zero, Lib.Bytes.word_setWord_self, Nat.mod_mod]
    rfl
  | cons s argv ih =>
    have htotal : total (s :: argv) = s.length + 1 + total argv := List.sum_cons ..
    have haddr : args + 4 * (s :: argv).length = args + 4 + 4 * argv.length := by
      rw [List.length_cons]
      omega
    unfold Parent.storeArgs
    rw [haddr, ih _ (by omega), htotal]
    omega

theorem word_layOut_last (p : Parent) (argv : List Arg) (hlen : argv.length < 1024) :
    (p.layOut argv).mem.word ((argsAt argv + 4 * argv.length) % 2 ^ 32) = USTACKTOP - 1 := by
  have hu : UTEMP = 0x003fe000 := rfl
  have ht : USTACKTOP = 0x7f3fe000 := rfl
  have hp : PAGE_SIZE = 4096 := rfl
  have haligned : argsAt argv % 4 = 0 := by
    unfold argsAt round4
    omega
  have hlast := storeArgs_last (p.alloc.copyStrings (stringsAt argv) argv) haligned
    (toChild (stringsAt argv)) argv
  unfold Parent.layOut Parent.storeWord pargvAt
  simp only
  rw [Lib.Bytes.word_setWord_of_ne _ (by omega), Lib.Bytes.word_setWord_of_ne _ (by omega), hlast]
  unfold toChild stringsAt
  omega

theorem word_atTop {m : Bytes} {a : Nat} (h : USTACKTOP - PAGE_SIZE ≤ a) :
    (atTop fun i => m (UTEMP + i)).word a = m.word (UTEMP + (a - (USTACKTOP - PAGE_SIZE))) := by
  have hsucc : ∀ k, a + k - (USTACKTOP - PAGE_SIZE) = a - (USTACKTOP - PAGE_SIZE) + k := fun k => by
    omega
  unfold Lib.Bytes.word atTop
  simp only [hsucc, Nat.add_assoc]

theorem word_layOut_argv (p : Parent) (argv : List Arg) :
    (p.layOut argv).mem.word ((pargvAt argv + 4) % 2 ^ 32) = toChild (argsAt argv) := by
  have hu : UTEMP = 0x003fe000 := rfl
  have hp : PAGE_SIZE = 4096 := rfl
  have haligned : argsAt argv % 4 = 0 := by
    unfold argsAt round4
    omega
  have hsame : (pargvAt argv + 4) % 2 ^ 32 = (argsAt argv + (2 ^ 32 - 4)) % 2 ^ 32 := by
    unfold pargvAt
    omega
  have hlt : toChild (argsAt argv) < 2 ^ 32 := Nat.mod_lt _ (by omega)
  rw [hsame]
  unfold Parent.layOut Parent.storeWord pargvAt
  simp only
  rw [Lib.Bytes.word_setWord_of_ne _ (by omega), Lib.Bytes.word_setWord_self, Nat.mod_eq_of_lt hlt]

/-- The word after the pointers is one less than the end of the strings. -/
theorem lastWord_eq {p : Parent} {argv : List Arg}
    (h : ArgBlock (atTop fun i => (p.layOut argv).mem (UTEMP + i)) (toChild (pargvAt argv)) argv) :
    lastWord (atTop fun i => (p.layOut argv).mem (UTEMP + i)) (toChild (pargvAt argv)) argv =
      USTACKTOP - 1 := by
  have hu : UTEMP = 0x003fe000 := rfl
  have ht : USTACKTOP = 0x7f3fe000 := rfl
  have hp : PAGE_SIZE = 4096 := rfl
  obtain ⟨hlow, hhigh⟩ := h.header
  obtain ⟨halow, hahigh⟩ := h.array
  have hsp : UTEMP + (toChild (pargvAt argv) + 4 - (USTACKTOP - PAGE_SIZE)) =
      (pargvAt argv + 4) % 2 ^ 32 := by
    have hlt : pargvAt argv < 2 ^ 32 := Nat.mod_lt _ (by omega)
    unfold toChild at hlow hhigh ⊢
    omega
  have hargv : (atTop fun i => (p.layOut argv).mem (UTEMP + i)).word (toChild (pargvAt argv) + 4) =
      toChild (argsAt argv) := by
    rw [word_atTop (by omega), hsp, word_layOut_argv]
  rw [hargv] at halow hahigh
  have hend : UTEMP + (toChild (argsAt argv) + 4 * argv.length - (USTACKTOP - PAGE_SIZE)) =
      (argsAt argv + 4 * argv.length) % 2 ^ 32 := by
    have hlt : argsAt argv < 2 ^ 32 := Nat.mod_lt _ (by omega)
    unfold toChild at halow hahigh ⊢
    omega
  unfold lastWord
  rw [hargv, word_atTop (by omega), hend, word_layOut_last p argv (by omega)]

theorem initStack_ok {k : Calls} {argv : List Arg} {p p' : Parent} {sp : Nat}
    (h : initStack k argv p = (.ok sp, p')) :
    sp = toChild (pargvAt argv) ∧ p' = (p.layOut argv).show ∧
      (round4 (total argv % 2 ^ 32) + 4 * (argv.length + 3)) % 2 ^ 32 ≤ PAGE_SIZE := by
  unfold initStack at h
  split at h
  · exact absurd (congrArg Prod.fst h) (by simp)
  · rename_i hfits
    split at h
    · exact absurd (congrArg Prod.fst h) (by simp)
    · split at h
      · exact absurd (congrArg Prod.fst h) (by simp)
      · split at h
        · exact absurd (congrArg Prod.fst h) (by simp)
        · obtain ⟨hsp, hp⟩ := Prod.mk.inj h
          exact ⟨(Except.ok.inj hsp).symm, hp.symm, Nat.le_of_not_lt hfits⟩

/-! ## The other words -/

theorem setList_append (m : Bytes) (a : Nat) (l l' : List UInt8) :
    (m.setList a l).setList (a + l.length) l' = m.setList a (l ++ l') := by
  funext i
  unfold Lib.Bytes.setList
  rw [List.length_append]
  by_cases h : a + l.length ≤ i ∧ i < a + l.length + l'.length
  · rw [if_pos h, if_pos (by omega), List.getD_append_right l l' 0 (i - a) (by omega)]
    congr 1
    omega
  · rw [if_neg h]
    by_cases h' : a ≤ i ∧ i < a + l.length
    · rw [if_pos h', if_pos (by omega), List.getD_append l l' 0 (i - a) (by omega)]
    · rw [if_neg h', if_neg (by omega)]

theorem setList_one (m : Bytes) (a : Nat) (c : UInt8) : m.setList a [c] = Function.update m a c := by
  funext i
  unfold Lib.Bytes.setList
  by_cases h : i = a
  · rw [h, if_pos (by simp), Function.update_self, Nat.sub_self]
    rfl
  · rw [if_neg (by simp; omega), Function.update_of_ne h]

/-- The addresses of the stores so far and those from `a` on for `n` bytes. -/
def StoresIn (p p' : Parent) (a n : Nat) : Prop := ∀ x ∈ p'.stores, x ∈ p.stores ∨ a ≤ x ∧ x < a + n

theorem StoresIn.refl (p : Parent) (a : Nat) : StoresIn p p a 0 := fun _ hx => Or.inl hx

theorem StoresIn.trans {p p' p'' : Parent} {a n m : Nat} (h : StoresIn p p' a n)
    (h' : StoresIn p' p'' (a + n) m) : StoresIn p p'' a (n + m) := by
  intro x hx
  rcases h' x hx with hx | hx
  · exact (h x hx).imp_right fun hx => ⟨hx.1, by omega⟩
  · exact Or.inr ⟨by omega, by omega⟩

theorem storesIn_byte (p : Parent) {a : Nat} (c : UInt8) (ha : a < 2 ^ 32) :
    StoresIn p (p.storeByte a c) a 1 := by
  intro x hx
  refine (List.mem_append.mp hx).imp_right fun hx => ?_
  rw [List.mem_singleton, Nat.mod_eq_of_lt ha] at hx
  omega

theorem storesIn_word (p : Parent) {a : Nat} (v : Nat) (ha : a < 2 ^ 32) :
    StoresIn p (p.storeWord a v) a 4 := by
  intro x hx
  refine (List.mem_append.mp hx).imp_right fun hx => ?_
  rw [Nat.mod_eq_of_lt ha] at hx
  simp only [List.mem_cons, List.not_mem_nil, or_false] at hx
  omega

/-- Bytes that are stored one after the other. -/
theorem storeBytes_spec (p : Parent) {a : Nat} (l : List UInt8) (ha : a + l.length ≤ 2 ^ 32) :
    (p.storeBytes a l).mem = p.mem.setList a l ∧ StoresIn p (p.storeBytes a l) a l.length := by
  induction l generalizing p a with
  | nil =>
    refine ⟨?_, .refl p a⟩
    funext i
    exact (Lib.Bytes.setList_of_ne (by simp; omega)).symm
  | cons c l ih =>
    rw [List.length_cons] at ha
    obtain ⟨hmem, hin⟩ := ih (p.storeByte a c) (a := a + 1) (by omega)
    constructor
    · have hbyte : (p.storeByte a c).mem = p.mem.setList a [c] := by
        rw [setList_one]
        unfold Parent.storeByte
        rw [Nat.mod_eq_of_lt (by omega)]
      unfold Parent.storeBytes
      rw [hmem, hbyte]
      exact setList_append p.mem a [c] l
    · rw [List.length_cons, Nat.add_comm]
      exact (storesIn_byte p c (by omega)).trans hin

theorem total_cons (s : Arg) (argv : List Arg) : total (s :: argv) = s.length + 1 + total argv :=
  List.sum_cons ..

/-- The strings with their terminators. -/
def flat (argv : List Arg) : List UInt8 := argv.flatMap (· ++ [0])

theorem copyStrings_spec (p : Parent) {a : Nat} (argv : List Arg) (ha : a + total argv ≤ 2 ^ 32) :
    (p.copyStrings a argv).mem = p.mem.setList a (flat argv) ∧
      StoresIn p (p.copyStrings a argv) a (total argv) := by
  induction argv generalizing p a with
  | nil =>
    refine ⟨?_, .refl p a⟩
    funext i
    exact (Lib.Bytes.setList_of_ne (by simp [flat]; omega)).symm
  | cons s argv ih =>
    rw [total_cons] at ha ⊢
    have hlen : (s ++ [0]).length = s.length + 1 := List.length_append
    obtain ⟨hmem, hin⟩ := storeBytes_spec p (a := a) (s ++ [0]) (by omega)
    obtain ⟨hmem', hin'⟩ := ih (p.storeBytes a (s ++ [0])) (a := a + (s.length + 1)) (by omega)
    rw [hlen] at hin
    refine ⟨?_, hin.trans hin'⟩
    unfold Parent.copyStrings
    rw [hmem', hmem, ← hlen, setList_append]
    rfl

/-- The pointers are stored in turn, and nothing else changes. -/
theorem storeArgs_spec (p : Parent) {a : Nat} (ctemp : Nat) (argv : List Arg)
    (ha : a + 4 * (argv.length + 1) ≤ 2 ^ 32) :
    (∀ i < argv.length, (p.storeArgs a ctemp argv).mem.word (a + 4 * i) =
      (ctemp + total (argv.take i)) % 2 ^ 32) ∧
    (∀ x, x < a ∨ a + 4 * (argv.length + 1) ≤ x → (p.storeArgs a ctemp argv).mem x = p.mem x) ∧
    StoresIn p (p.storeArgs a ctemp argv) a (4 * (argv.length + 1)) := by
  have hword : ∀ (p : Parent) {a : Nat} (v : Nat), a < 2 ^ 32 →
      (p.storeWord a v).mem = p.mem.setWord a v := fun p a v ha => by
    unfold Parent.storeWord
    rw [Nat.mod_eq_of_lt ha]
  induction argv generalizing p a ctemp with
  | nil =>
    rw [List.length_nil] at ha ⊢
    refine ⟨fun i hi => absurd hi (Nat.not_lt_zero i), fun x hx => ?_, storesIn_word p _ (by omega)⟩
    unfold Parent.storeArgs
    rw [hword p _ (by omega)]
    exact Lib.Bytes.setWord_of_ne (by omega)
  | cons s argv ih =>
    rw [List.length_cons] at ha ⊢
    obtain ⟨hargs, hframe, hin⟩ := ih (p.storeWord a ctemp) (a := a + 4)
      ((ctemp + (s.length + 1)) % 2 ^ 32) (by omega)
    refine ⟨fun i hi => ?_, fun x hx => ?_, ?_⟩
    · unfold Parent.storeArgs
      rcases i with _ | i
      · rw [Lib.Bytes.word_congr fun x h1 h2 => hframe x (by omega), hword p _ (by omega)]
        exact Lib.Bytes.word_setWord_self ..
      · have haddr : a + 4 * (i + 1) = a + 4 + 4 * i := by omega
        rw [haddr, hargs i (by omega), List.take_succ_cons, total_cons, Nat.mod_add_mod]
        congr 1
        omega
    · unfold Parent.storeArgs
      rw [hframe x (by omega), hword p _ (by omega)]
      exact Lib.Bytes.setWord_of_ne (by omega)
    · have hlen : 4 * (argv.length + 1 + 1) = 4 + 4 * (argv.length + 1) := by omega
      rw [hlen]
      exact (storesIn_word p ctemp (by omega)).trans hin

/-- Each string is where its pointer points to. -/
theorem holds_flat (m : Bytes) (a : Nat) (argv : List Arg) (i : Nat) (hi : i < argv.length) :
    (m.setList a (flat argv)).holds (a + total (argv.take i)) argv[i] = true := by
  induction argv generalizing m a i with
  | nil => exact absurd hi (Nat.not_lt_zero i)
  | cons s argv ih =>
    have hflat : flat (s :: argv) = (s ++ [0]) ++ flat argv := rfl
    rcases i with _ | i
    · have hbyte : ∀ k < s.length + 1,
          (m.setList a (flat (s :: argv))) (a + k) = (s ++ [0]).getD k 0 := by
        intro k hk
        have hlen : (s ++ [0]).length = s.length + 1 := List.length_append
        unfold Lib.Bytes.setList
        rw [if_pos (by rw [hflat, List.length_append]; omega), Nat.add_sub_cancel_left, hflat,
          List.getD_append _ _ _ _ (by omega)]
      rw [List.take_zero, List.getElem_cons_zero, Lib.Bytes.holds_iff]
      constructor
      · intro k hk
        rw [show a + total [] + k = a + k from rfl, hbyte k (by omega),
          List.getD_append _ _ _ _ hk, List.getD_eq_getElem _ _ hk]
      · rw [show a + total [] + s.length = a + s.length from rfl, hbyte s.length (by omega),
          List.getD_append_right _ _ _ _ (Nat.le_refl _), Nat.sub_self]
        rfl
    · have hlen : (s ++ [0]).length = s.length + 1 := List.length_append
      have haddr : a + total ((s :: argv).take (i + 1)) =
          a + (s ++ [0]).length + total (argv.take i) := by
        rw [List.take_succ_cons, total_cons, hlen]
        omega
      rw [haddr, hflat, ← setList_append, List.getElem_cons_succ]
      exact ih _ _ i (by rwa [List.length_cons, Nat.add_lt_add_iff_right] at hi)

theorem holds_atTop {m : Bytes} {a : Nat} (h : USTACKTOP - PAGE_SIZE ≤ a) (l : List UInt8) :
    (atTop fun i => m (UTEMP + i)).holds a l = m.holds (UTEMP + (a - (USTACKTOP - PAGE_SIZE))) l := by
  have hsucc : ∀ k, a + k - (USTACKTOP - PAGE_SIZE) = a - (USTACKTOP - PAGE_SIZE) + k := fun k => by
    omega
  rw [Bool.eq_iff_iff, Lib.Bytes.holds_iff, Lib.Bytes.holds_iff]
  unfold atTop
  simp only [hsucc, Nat.add_assoc]

/-- The block fits into the page, with sums that are not reduced. -/
def Fits (argv : List Arg) : Prop := (total argv + 3) / 4 * 4 + 4 * (argv.length + 3) ≤ PAGE_SIZE

theorem addresses {argv : List Arg} (h : Fits argv) :
    stringsAt argv = UTEMP + PAGE_SIZE - total argv ∧
    argsAt argv = UTEMP + PAGE_SIZE - (total argv + 3) / 4 * 4 - 4 * (argv.length + 1) ∧
    pargvAt argv = UTEMP + PAGE_SIZE - (total argv + 3) / 4 * 4 - 4 * (argv.length + 3) := by
  have hu : UTEMP = 0x003fe000 := rfl
  have hp : PAGE_SIZE = 4096 := rfl
  unfold Fits at h
  unfold pargvAt stringsAt argsAt round4
  omega

theorem total_take (argv : List Arg) (i : Nat) (hi : i < argv.length) :
    total (argv.take i) + (argv[i].length + 1) ≤ total argv := by
  induction argv generalizing i with
  | nil => exact absurd hi (Nat.not_lt_zero i)
  | cons s argv ih =>
    rcases i with _ | i
    · rw [List.take_zero, List.getElem_cons_zero, total_cons]
      exact Nat.le_trans (Nat.le_of_eq (Nat.zero_add _)) (Nat.le_add_right ..)
    · have := ih i (by rwa [List.length_cons, Nat.add_lt_add_iff_right] at hi)
      rw [List.take_succ_cons, List.getElem_cons_succ, total_cons, total_cons]
      omega

/-- What the page holds at the addresses of the parent. -/
structure LaidOut (m : Bytes) (argv : List Arg) : Prop where
  argc : m.word (pargvAt argv) = argv.length
  array : m.word (pargvAt argv + 4) = toChild (argsAt argv)
  args : ∀ i < argv.length,
    m.word (argsAt argv + 4 * i) = toChild (stringsAt argv + total (argv.take i))
  strings : ∀ i (h : i < argv.length),
    m.holds (stringsAt argv + total (argv.take i)) argv[i] = true

theorem layOut_spec (mem : Bytes) {argv : List Arg} (h : Fits argv) :
    LaidOut ((Parent.start mem).layOut argv).mem argv ∧
      ∀ x ∈ ((Parent.start mem).layOut argv).stores, UTEMP ≤ x ∧ x < UTEMP + PAGE_SIZE := by
  have hu : UTEMP = 0x003fe000 := rfl
  have hp : PAGE_SIZE = 4096 := rfl
  have hst : USTACKTOP = 0x7f3fe000 := rfl
  obtain ⟨hS, hA, hP⟩ := addresses h
  unfold Fits at h
  obtain ⟨hcopied, hin⟩ := copyStrings_spec (Parent.start mem).alloc (a := stringsAt argv) argv
    (by omega)
  obtain ⟨hargs, hframe, hin'⟩ := storeArgs_spec
    ((Parent.start mem).alloc.copyStrings (stringsAt argv) argv) (a := argsAt argv)
    (toChild (stringsAt argv)) argv (by omega)
  generalize hq : ((Parent.start mem).alloc.copyStrings (stringsAt argv) argv).storeArgs (argsAt argv)
    (toChild (stringsAt argv)) argv = q at hargs hframe hin'
  have hfour : (argsAt argv + (2 ^ 32 - 4)) % 2 ^ 32 = pargvAt argv + 4 := by omega
  have height : pargvAt argv % 2 ^ 32 = pargvAt argv := Nat.mod_eq_of_lt (by omega)
  have hmem : ((Parent.start mem).layOut argv).mem =
      (q.mem.setWord (pargvAt argv + 4) (toChild (argsAt argv))).setWord (pargvAt argv) argv.length := by
    unfold Parent.layOut
    rw [hq]
    unfold Parent.storeWord
    simp only
    rw [hfour, height]
  have hstores : ((Parent.start mem).layOut argv).stores = q.stores ++
      [pargvAt argv + 4, pargvAt argv + 4 + 1, pargvAt argv + 4 + 2, pargvAt argv + 4 + 3] ++
      [pargvAt argv, pargvAt argv + 1, pargvAt argv + 2, pargvAt argv + 3] := by
    unfold Parent.layOut
    rw [hq]
    unfold Parent.storeWord
    simp only
    rw [hfour, height]
  refine ⟨⟨?_, ?_, fun i hi => ?_, fun i hi => ?_⟩, fun x hx => ?_⟩
  · rw [hmem, Lib.Bytes.word_setWord_self, Nat.mod_eq_of_lt (by omega)]
  · have hlt : toChild (argsAt argv) < 2 ^ 32 := Nat.mod_lt _ (by omega)
    rw [hmem, Lib.Bytes.word_setWord_of_ne _ (by omega), Lib.Bytes.word_setWord_self,
      Nat.mod_eq_of_lt hlt]
  · rw [hmem, Lib.Bytes.word_setWord_of_ne _ (by omega), Lib.Bytes.word_setWord_of_ne _ (by omega),
      hargs i hi]
    unfold toChild
    omega
  · have htake := total_take argv i hi
    have hsame : ∀ x, stringsAt argv + total (argv.take i) ≤ x →
        x ≤ stringsAt argv + total (argv.take i) + argv[i].length →
        ((Parent.start mem).layOut argv).mem x =
          ((Parent.start mem).alloc.mem.setList (stringsAt argv) (flat argv)) x := by
      intro x h1 h2
      rw [hmem, Lib.Bytes.setWord_of_ne (by omega), Lib.Bytes.setWord_of_ne (by omega),
        hframe x (by omega), hcopied]
    rw [Lib.Bytes.holds_congr hsame]
    exact holds_flat _ _ argv i hi
  · rw [hstores] at hx
    rcases List.mem_append.mp hx with hx | hx
    · rcases List.mem_append.mp hx with hx | hx
      · rcases hin' x hx with hx | hx
        · rcases hin x hx with hx | hx
          · exact absurd hx List.not_mem_nil
          · omega
        · omega
      · simp only [List.mem_cons, List.not_mem_nil, or_false] at hx
        omega
    · simp only [List.mem_cons, List.not_mem_nil, or_false] at hx
      omega

/-- Apart from the last word the child reads the arguments, and all stores are in the page. -/
theorem argBlock_of_ok {k : Calls} {argv : List Arg} {mem : Bytes} {sp : Nat} {p : Parent}
    (hsmall : total argv + 4 * argv.length + 15 < 2 ^ 32)
    (h : initStack k argv (.start mem) = (.ok sp, p)) :
    (∀ x ∈ p.stores, UTEMP ≤ x ∧ x < UTEMP + PAGE_SIZE) ∧
      ∃ page, p.child = some page ∧ ArgBlock (atTop page) sp argv := by
  have hu : UTEMP = 0x003fe000 := rfl
  have hp : PAGE_SIZE = 4096 := rfl
  have hst : USTACKTOP = 0x7f3fe000 := rfl
  obtain ⟨hsp, hpar, hfits⟩ := initStack_ok h
  have hfit : Fits argv := by
    unfold round4 at hfits
    unfold Fits
    omega
  obtain ⟨hlaid, hstores⟩ := layOut_spec mem hfit
  obtain ⟨hS, hA, hP⟩ := addresses hfit
  unfold Fits at hfit
  have hshift : ∀ x, UTEMP ≤ x → x < UTEMP + PAGE_SIZE →
      toChild x = x - UTEMP + (USTACKTOP - PAGE_SIZE) := by
    intro x h1 h2
    unfold toChild
    omega
  have hargv : toChild (argsAt argv) = argsAt argv - UTEMP + (USTACKTOP - PAGE_SIZE) :=
    hshift _ (by omega) (by omega)
  have hpargv : toChild (pargvAt argv) = pargvAt argv - UTEMP + (USTACKTOP - PAGE_SIZE) :=
    hshift _ (by omega) (by omega)
  rw [hpar, hsp]
  refine ⟨hstores, _, rfl, ?_⟩
  have hback : ∀ x, UTEMP ≤ x → UTEMP + (x - UTEMP + (USTACKTOP - PAGE_SIZE) -
      (USTACKTOP - PAGE_SIZE)) = x := fun x hx => by omega
  have hptr : (atTop fun i => ((Parent.start mem).layOut argv).mem (UTEMP + i)).word
      (toChild (pargvAt argv) + 4) = toChild (argsAt argv) := by
    have haddr : toChild (pargvAt argv) + 4 = pargvAt argv + 4 - UTEMP + (USTACKTOP - PAGE_SIZE) := by
      omega
    rw [haddr, word_atTop (by omega), hback _ (by omega), hlaid.array]
  refine ⟨?_, ?_, ?_, fun i hi => ?_⟩
  · unfold InPage
    omega
  · rw [hpargv, word_atTop (by omega), hback _ (by omega), hlaid.argc]
  · rw [hptr]
    unfold InPage
    omega
  · have htake := total_take argv i hi
    have hstring : toChild (stringsAt argv + total (argv.take i)) =
        stringsAt argv + total (argv.take i) - UTEMP + (USTACKTOP - PAGE_SIZE) :=
      hshift _ (by omega) (by omega)
    have hentry : (atTop fun i => ((Parent.start mem).layOut argv).mem (UTEMP + i)).word
        (toChild (argsAt argv) + 4 * i) = toChild (stringsAt argv + total (argv.take i)) := by
      have haddr : toChild (argsAt argv) + 4 * i =
          argsAt argv + 4 * i - UTEMP + (USTACKTOP - PAGE_SIZE) := by
        omega
      rw [haddr, word_atTop (by omega), hback _ (by omega), hlaid.args i hi]
    rw [hptr, hentry]
    refine ⟨?_, ?_⟩
    · unfold InPage
      omega
    · rw [hstring, holds_atTop (by omega), hback _ (by omega)]
      exact hlaid.strings i hi

/-- The pointers are never terminated. -/
theorem not_roundTrip {k : Calls} {argv : List Arg} {mem : Bytes} {sp : Nat} {p : Parent}
    (h : initStack k argv (.start mem) = (.ok sp, p)) : ¬ RoundTrip argv sp p := by
  obtain ⟨hsp, hp, -⟩ := initStack_ok h
  rintro ⟨-, page, hpage, hblock, hlast⟩
  rw [hp] at hpage
  rw [hsp, ← Option.some.inj hpage] at hblock hlast
  rw [lastWord_eq hblock] at hlast
  exact absurd hlast (by decide)

/-- The arguments `echo` and `hi`. -/
theorem not_roundTrip_echo :
    ¬ RoundTrip [[101, 99, 104, 111], [104, 105]] (toChild (pargvAt [[101, 99, 104, 111], [104, 105]]))
      ((Parent.start fun _ => 0).layOut [[101, 99, 104, 111], [104, 105]]).show := by
  have hrun : initStack ⟨0, 0, 0⟩ [[101, 99, 104, 111], [104, 105]] (.start fun _ => 0) =
      (.ok (toChild (pargvAt [[101, 99, 104, 111], [104, 105]])),
        ((Parent.start fun _ => 0).layOut [[101, 99, 104, 111], [104, 105]]).show) := rfl
  exact not_roundTrip hrun

theorem not_init_stack : ¬ ∀ k argv mem sp p, initStack k argv (.start mem) = (.ok sp, p) →
    RoundTrip argv sp p := by
  intro h
  obtain ⟨-, page, hpage, -, hlast⟩ := h ⟨0, 0, 0⟩ [] (fun _ => 0) _ _ rfl
  rw [← Option.some.inj hpage] at hlast
  exact absurd hlast (by decide +kernel)

end Mos.Spawn
