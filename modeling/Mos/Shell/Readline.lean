import Mathlib.Data.List.Infix
import Mos.Shell.Lexer

/-!
# Reading a line (`readline` in `sh.c`, `cons_read`)

The bytes around `buf` are part of the memory, and every index at which the function
accesses it is recorded. The index `i` does not overflow, since `buf` lies in the user
half of the address space.
-/

namespace Mos.Shell.Readline

/-! ## The console -/

/-- What `read(0, .., 1)` comes to: a byte, or another result than 1. -/
inductive Read where
  | byte (c : Byte)
  | ended (r : Int)

/-- The reads from the console, when `syscall_cgetc` returns `keys` one after the other: 0 says that
there is no input yet, and ctl-d that there will be none. -/
def consReads : List Byte → List Read
  | [] => []
  | c :: keys =>
    if c = 0 then consReads keys
    else if c = 0x04 then .ended 0 :: consReads keys
    else .byte c :: consReads keys

/-! ## The function -/

structure Tty where
  buf : Int → Byte
  touched : List Int
  out : List String

abbrev Edit := StateM Tty

def load (i : Int) : Edit Byte := do
  modify fun s => { s with touched := i :: s.touched }
  return (← get).buf i

def store (i : Int) (c : Byte) : Edit Unit := modify fun s =>
  { s with buf := Function.update s.buf i c, touched := i :: s.touched }

def print (text : String) : Edit Unit := modify fun s => { s with out := s.out ++ [text] }

def isErase (c : Byte) : Bool := c == 0x08 || c == 0x7f

def isEol (c : Byte) : Bool := c == ch '\r' || c == ch '\n'

/-- The index after a backspace, before `i++`. -/
def before (i : Int) : Int := if i > 0 then i - 2 else -1

def back (i : Int) : Edit Int := do
  if (← load (before i)) != 0x08 then print "\x08"
  return before i

/-- The end of the loop body, and `i++`. -/
def finish (i : Int) : Edit (Option Int) := do
  if isEol (← load i) then
    store i 0
    return none
  else
    return some (i + 1)

/-- The loop body once the byte is read. -/
def turn (i : Int) (c : Byte) : Edit (Option Int) := do
  store i c
  finish (← if isErase (← load i) then back i else pure i)

inductive Ended where
  | returned
  | exited
  /-- `read` has not come back. -/
  | waiting
  deriving DecidableEq

/-- The loop behind the message. -/
def skipLine : List Read → Edit Ended
  | [] => return .waiting
  | .ended _ :: _ => do
    store 0 0
    return .returned
  | .byte c :: reads => do
    store 0 c
    if isEol (← load 0) then
      store 0 0
      return .returned
    else
      skipLine reads

def tooLong (reads : List Read) : Edit Ended := do
  print "line too long\n"
  skipLine reads

def readlineFrom (n : Nat) : List Read → Int → Edit Ended
  | [], i => if i < n then return .waiting else tooLong []
  | .ended r :: reads, i => do
    if i < n then
      if r < 0 then print ("read error: " ++ toString r ++ "\n")
      return .exited
    else
      tooLong (.ended r :: reads)
  | .byte c :: reads, i => do
    if i < n then
      match ← turn i c with
      | some i => readlineFrom n reads i
      | none => return .returned
    else
      tooLong (.byte c :: reads)

def readline (n : Nat) (reads : List Read) : Edit Ended := readlineFrom n reads 0

/-! ## Editing -/

/-- The line after its bytes: an erasing byte deletes the last one that is left. -/
def edited (line : Str) : Str :=
  line.foldl (fun l c => if isErase c then l.dropLast else l ++ [c]) []

theorem edited_append (p : Str) (c : Byte) :
    edited (p ++ [c]) = if isErase c then (edited p).dropLast else edited p ++ [c] := by
  unfold edited
  rw [List.foldl_append]
  rfl

theorem edited_subset (p : Str) : ∀ c ∈ edited p, c ∈ p := by
  induction p using List.reverseRecOn with
  | nil => exact fun c hc => hc
  | append_singleton p d ih =>
    intro c hc
    rw [edited_append] at hc
    split_ifs at hc
    · exact List.mem_append_left _ (ih c (List.mem_of_mem_dropLast hc))
    · rcases List.mem_append.mp hc with hc | hc
      · exact List.mem_append_left _ (ih c hc)
      · exact List.mem_append_right _ hc

/-- The function has stored the edited line, and has kept to the buffer. -/
structure Edits (n : Nat) (line : Str) (r : Ended × Tty) : Prop where
  returned : r.1 = .returned
  text : ∀ (j : Nat) (h : j < (edited line).length), r.2.buf j = (edited line)[j]
  nul : r.2.buf (edited line).length = 0
  inside : ∀ a ∈ r.2.touched, 0 ≤ a ∧ a < n

/-! ## A turn of the loop -/

variable {n : Nat} {p q line : Str} {c eol : Byte} {s : Tty}

/-- The bytes of `p` have been read. -/
structure Typed (n : Nat) (p : Str) (s : Tty) : Prop where
  text : ∀ (j : Nat) (h : j < (edited p).length), s.buf j = (edited p)[j]
  inside : ∀ a ∈ s.touched, 0 ≤ a ∧ a < n

section

variable {α β : Type} {x : Edit α} {f : α → Edit β} {i : Int} {text : String}

theorem run_bind : (x >>= f) s = f (x s).1 (x s).2 := rfl

theorem run_pure (a : α) : (pure a : Edit α) s = (a, s) := rfl

def Tty.visit (s : Tty) (i : Int) : Tty := { s with touched := i :: s.touched }

def Tty.put (s : Tty) (i : Int) (c : Byte) : Tty :=
  { s.visit i with buf := Function.update s.buf i c }

theorem run_load : load i s = (s.buf i, s.visit i) := rfl

theorem run_store : store i c s = ((), s.put i c) := rfl

@[simp] theorem buf_visit : (s.visit i).buf = s.buf := rfl

@[simp] theorem buf_put : (s.put i c).buf = Function.update s.buf i c := rfl

@[simp] theorem touched_visit : (s.visit i).touched = i :: s.touched := rfl

@[simp] theorem touched_put : (s.put i c).touched = i :: s.touched := rfl

theorem back_spec : ∃ out, back i s = (before i, { s.visit (before i) with out := out }) := by
  unfold back
  rw [run_bind, run_load]
  dsimp only
  split_ifs
  · exact ⟨_, rfl⟩
  · exact ⟨_, rfl⟩

theorem run_finish : finish i s = if isEol (s.buf i) then (none, (s.visit i).put i 0)
    else (some (i + 1), s.visit i) := by
  unfold finish
  rw [run_bind, run_load]
  dsimp only
  split_ifs <;> rfl

theorem run_turn : turn i c s =
    if isErase c then finish (back i ((s.put i c).visit i)).1 (back i ((s.put i c).visit i)).2
    else finish i ((s.put i c).visit i) := by
  unfold turn
  rw [run_bind, run_store, run_bind, run_load]
  dsimp only
  rw [buf_put, Function.update_self]
  split_ifs <;> rfl

theorem turn_plain (he : isErase c = false) (hl : isEol c = false) :
    turn i c s = (some (i + 1), ((s.put i c).visit i).visit i) := by
  rw [run_turn, he, if_neg (by simp), run_finish, buf_visit, buf_put, Function.update_self, hl,
    if_neg (by simp)]

theorem turn_eol (he : isErase c = false) (hl : isEol c = true) :
    turn i c s = (none, (((s.put i c).visit i).visit i).put i 0) := by
  rw [run_turn, he, if_neg (by simp), run_finish, buf_visit, buf_put, Function.update_self, hl,
    if_pos rfl]

theorem turn_erase (he : isErase c = true) : ∃ s',
    turn i c s = finish (before i) s' ∧ s'.buf = Function.update s.buf i c ∧
      s'.touched = before i :: i :: i :: s.touched := by
  obtain ⟨out, hback⟩ := back_spec (i := i) (s := (s.put i c).visit i)
  rw [run_turn, he, if_pos rfl, hback]
  exact ⟨_, rfl, rfl, rfl⟩

/-! ## Lines -/

theorem Typed.plain (h : Typed n p s) (he : isErase c = false) (hl : isEol c = false)
    (hfit : (edited p).length < n) : ∃ s',
    turn (edited p).length c s = (some ((edited (p ++ [c])).length : Int), s') ∧
      Typed n (p ++ [c]) s' := by
  have hed : edited (p ++ [c]) = edited p ++ [c] := by
    rw [edited_append, he]
    rfl
  have hlen : (edited (p ++ [c])).length = (edited p).length + 1 := by
    rw [hed, List.length_append, List.length_singleton]
  refine ⟨(((s.put (edited p).length c).visit (edited p).length).visit (edited p).length), ?_,
    fun j hj => ?_, fun a ha => ?_⟩
  · rw [turn_plain he hl, hlen]
    rfl
  · simp only [buf_visit, buf_put, hed]
    rcases Nat.lt_or_ge j (edited p).length with hlt | hge
    · rw [Function.update_of_ne (by omega), List.getElem_append_left hlt]
      exact h.text j hlt
    · obtain rfl : j = (edited p).length := by omega
      simp
  · simp only [touched_visit, touched_put, List.mem_cons] at ha
    rcases ha with rfl | rfl | rfl | ha
    · omega
    · omega
    · omega
    · exact h.inside a ha

/-- With two bytes left, the first of them is looked at, and the second goes. -/
theorem Typed.erase (h : Typed n p s) (he : isErase c = true) (hline : ∀ x ∈ p, isEol x = false)
    (hfit : (edited p).length < n) (htwo : 2 ≤ (edited p).length) : ∃ s',
    turn (edited p).length c s = (some ((edited (p ++ [c])).length : Int), s') ∧
      Typed n (p ++ [c]) s' := by
  have hed : edited (p ++ [c]) = (edited p).dropLast := by
    rw [edited_append, he]
    rfl
  have hlen : (edited (p ++ [c])).length = (edited p).length - 1 := by
    rw [hed, List.length_dropLast]
  have hbefore : before (edited p).length = ((edited p).length - 2 : Nat) := by
    unfold before
    rw [if_pos (by omega)]
    omega
  obtain ⟨s', hturn, hbuf, htouched⟩ := turn_erase (i := (edited p).length) (s := s) he
  have hkept : ∀ (j : Nat) (hj : j < (edited p).length), s'.buf j = (edited p)[j] := by
    intro j hj
    rw [hbuf, Function.update_of_ne (by omega)]
    exact h.text j hj
  have hlook : isEol (s'.buf (before (edited p).length)) = false := by
    rw [hbefore, hkept _ (by omega)]
    exact hline _ (edited_subset p _ (List.getElem_mem _))
  refine ⟨s'.visit (before (edited p).length), ?_, fun j hj => ?_, fun a ha => ?_⟩
  · rw [hturn, run_finish, hlook, if_neg (by simp), hbefore, hlen]
    congr 2
    omega
  · simp only [buf_visit, hed, List.getElem_dropLast]
    exact hkept j (by omega)
  · simp only [touched_visit, htouched, List.mem_cons, hbefore] at ha
    rcases ha with rfl | rfl | rfl | rfl | ha
    · omega
    · omega
    · omega
    · omega
    · exact h.inside a ha

theorem turn_outside (he : isErase c = true) (hlen : (edited p).length < 2) :
    -1 ∈ (turn (edited p).length c s).2.touched := by
  have hbefore : before (edited p).length = -1 := by
    unfold before
    split_ifs <;> omega
  obtain ⟨s', hturn, _, htouched⟩ := turn_erase (i := (edited p).length) (s := s) he
  have hmem : -1 ∈ s'.touched := by
    rw [htouched, hbefore]
    exact List.mem_cons_self
  rw [hturn, run_finish]
  split_ifs
  · exact List.mem_cons_of_mem _ (List.mem_cons_of_mem _ hmem)
  · exact List.mem_cons_of_mem _ hmem

/-! ## The loop -/

theorem run_byte (reads : List Read) (hi : i < n) : readlineFrom n (.byte c :: reads) i s =
    match (turn i c s).1 with
    | some j => readlineFrom n reads j (turn i c s).2
    | none => (.returned, (turn i c s).2) := by
  conv => lhs; unfold readlineFrom
  rw [if_pos hi, run_bind]
  split <;> simp_all [run_pure]

/-- No access is forgotten. -/
def Remembers (x : Edit α) : Prop := ∀ s a, a ∈ s.touched → a ∈ (x s).2.touched

theorem remembers_bind (hx : Remembers x) (hf : ∀ a, Remembers (f a)) : Remembers (x >>= f) :=
  fun s a ha => hf _ _ a (hx s a ha)

theorem remembers_pure (a : α) : Remembers (pure a) := fun _ _ h => h

theorem remembers_load (i : Int) : Remembers (load i) := fun _ _ h => List.mem_cons_of_mem _ h

theorem remembers_store (i : Int) (c : Byte) : Remembers (store i c) :=
  fun _ _ h => List.mem_cons_of_mem _ h

theorem remembers_print (text : String) : Remembers (print text) := fun _ _ h => h

theorem remembers_ite {b : Prop} [Decidable b] {x y : Edit α} (hx : Remembers x)
    (hy : Remembers y) : Remembers (if b then x else y) := by
  split
  · exact hx
  · exact hy

theorem remembers_back (i : Int) : Remembers (back i) := by
  refine remembers_bind (remembers_load _) fun _ => remembers_ite ?_ (remembers_pure _)
  exact remembers_bind (remembers_print _) fun _ => remembers_pure _

theorem remembers_finish (i : Int) : Remembers (finish i) := by
  refine remembers_bind (remembers_load _) fun _ => remembers_ite ?_ (remembers_pure _)
  exact remembers_bind (remembers_store _ _) fun _ => remembers_pure _

theorem remembers_turn (i : Int) (c : Byte) : Remembers (turn i c) := by
  refine remembers_bind (remembers_store _ _) fun _ => remembers_bind (remembers_load _) fun _ =>
    remembers_ite ?_ ?_
  · exact remembers_bind (remembers_back _) fun _ => remembers_finish _
  · exact remembers_bind (remembers_pure _) fun _ => remembers_finish _

theorem remembers_skipLine (reads : List Read) : Remembers (skipLine reads) := by
  induction reads with
  | nil => exact remembers_pure _
  | cons r reads ih =>
    cases r with
    | ended r => exact remembers_bind (remembers_store _ _) fun _ => remembers_pure _
    | byte c =>
      refine remembers_bind (remembers_store _ _) fun _ => remembers_bind (remembers_load _) fun _ =>
        remembers_ite ?_ ih
      exact remembers_bind (remembers_store _ _) fun _ => remembers_pure _

theorem remembers_tooLong (reads : List Read) : Remembers (tooLong reads) :=
  remembers_bind (remembers_print _) fun _ => remembers_skipLine reads

theorem remembers_readlineFrom (n : Nat) (reads : List Read) (i : Int) :
    Remembers (readlineFrom n reads i) := by
  induction reads generalizing i with
  | nil => exact remembers_ite (remembers_pure _) (remembers_tooLong _)
  | cons r reads ih =>
    cases r with
    | ended r =>
      refine remembers_ite (remembers_ite ?_ (remembers_pure _)) (remembers_tooLong _)
      exact remembers_bind (remembers_print _) fun _ => remembers_pure _
    | byte c =>
      refine remembers_ite (remembers_bind (remembers_turn i c) fun r => ?_) (remembers_tooLong _)
      cases r with
      | none => exact remembers_pure _
      | some j => exact ih j

/-- Every erasing byte finds two bytes to its left. -/
def Behind (p q : Str) : Prop := ∀ l c, l ++ [c] <+: q → isErase c = true → 2 ≤ (edited (p ++ l)).length

theorem behind_cons : Behind p (c :: q) ↔
    (isErase c = true → 2 ≤ (edited p).length) ∧ Behind (p ++ [c]) q := by
  constructor
  · intro h
    refine ⟨fun he => ?_, fun l d hl hd => ?_⟩
    · simpa using h [] c (by simp) he
    · simpa using h (c :: l) d (by simpa using hl) hd
  · rintro ⟨hc, hq⟩ l d hl hd
    cases l with
    | nil =>
      have hdc : d = c := by simpa using hl
      simpa using hc (hdc ▸ hd)
    | cons x l =>
      rw [List.cons_append, List.cons_prefix_cons] at hl
      obtain ⟨rfl, hl⟩ := hl
      simpa using hq l d hl hd

theorem isErase_eol (h : isEol c = true) : isErase c = false := by
  unfold isEol at h
  simp only [Bool.or_eq_true, beq_iff_eq] at h
  rcases h with rfl | rfl
  · decide
  · decide

theorem Typed.ends (h : Typed n p s) (heol : isEol eol = true) (hfit : (edited p).length < n)
    (rest : List Read) : Edits n p (readlineFrom n (.byte eol :: rest) (edited p).length s) := by
  rw [run_byte rest (by omega), turn_eol (isErase_eol heol) heol]
  refine ⟨rfl, fun j hj => ?_, ?_, fun a ha => ?_⟩
  · simp only [buf_put, buf_visit]
    rw [Function.update_of_ne (by omega), Function.update_of_ne (by omega)]
    exact h.text j hj
  · simp only [buf_put, Function.update_self]
  · simp only [touched_visit, touched_put, List.mem_cons] at ha
    rcases ha with rfl | rfl | rfl | rfl | ha
    · omega
    · omega
    · omega
    · omega
    · exact h.inside a ha

theorem not_edits_outside {line : Str} (he : isErase c = true) (hlen : (edited p).length < 2)
    (hfit : (edited p).length < n) (reads : List Read) :
    ¬ Edits n line (readlineFrom n (.byte c :: reads) (edited p).length s) := by
  intro h
  have hout := turn_outside (s := s) he hlen
  have hmem : -1 ∈ (readlineFrom n (.byte c :: reads) (edited p).length s).2.touched := by
    rw [run_byte reads (by omega)]
    split
    · exact remembers_readlineFrom _ _ _ _ _ hout
    · exact hout
  have := h.inside _ hmem
  omega

theorem readline_from_iff (h : Typed n p s) (hline : ∀ x ∈ p ++ q, isEol x = false)
    (hfit : ∀ l, l <+: q → (edited (p ++ l)).length < n) (heol : isEol eol = true)
    (rest : List Read) :
    Edits n (p ++ q) (readlineFrom n (q.map .byte ++ .byte eol :: rest) (edited p).length s) ↔
      Behind p q := by
  have hfitp : (edited p).length < n := by simpa using hfit [] List.nil_prefix
  induction q generalizing p s with
  | nil =>
    rw [List.append_nil]
    refine iff_of_true (h.ends heol hfitp rest) fun l c hl => ?_
    exact absurd (List.eq_nil_of_prefix_nil hl) (by simp)
  | cons c q ih =>
    rw [behind_cons, List.map_cons, List.cons_append]
    have hp : ∀ x ∈ p, isEol x = false := fun x hx => hline x (List.mem_append_left _ hx)
    have hc : isEol c = false := hline c (by simp)
    -- The turn for `c` stays in the buffer.
    have go : (∃ s', turn (edited p).length c s = (some ((edited (p ++ [c])).length : Int), s') ∧
        Typed n (p ++ [c]) s') → (Edits n (p ++ c :: q)
          (readlineFrom n (.byte c :: (q.map .byte ++ .byte eol :: rest)) (edited p).length s) ↔
        Behind (p ++ [c]) q) := by
      rintro ⟨s', hturn, h'⟩
      rw [run_byte _ (by omega), hturn]
      have hfit' : ∀ l, l <+: q → (edited (p ++ [c] ++ l)).length < n := fun l hl => by
        simpa using hfit (c :: l) (by simpa using hl)
      have hih := ih h' (by simpa using hline) hfit' (by simpa using hfit' [] List.nil_prefix)
      simpa using hih
    by_cases he : isErase c = true
    · by_cases htwo : 2 ≤ (edited p).length
      · rw [go (h.erase he hp hfitp htwo)]
        exact ⟨fun hq => ⟨fun _ => htwo, hq⟩, And.right⟩
      · refine iff_of_false (not_edits_outside he (by omega) hfitp _) fun hq => ?_
        exact htwo (hq.1 he)
    · have he : isErase c = false := by simpa using he
      rw [go (h.plain he hc hfitp)]
      exact ⟨fun hq => ⟨fun ht => absurd ht (by simp [he]), hq⟩, And.right⟩

end

/-! ## Lines -/

def Tty.start (buf : Int → Byte) : Tty := { buf := buf, touched := [], out := [] }

theorem consReads_typed {keys : List Byte} (h : 0x04 ∉ keys) :
    consReads keys = (keys.filter (· ≠ 0)).map .byte := by
  induction keys with
  | nil => rfl
  | cons c keys ih =>
    rw [List.mem_cons, not_or] at h
    unfold consReads
    by_cases hzero : c = 0
    · rw [if_pos hzero, ih h.2, List.filter_cons_of_neg (by simp [hzero])]
    · rw [if_neg hzero, if_neg (Ne.symm h.1), ih h.2, List.filter_cons_of_pos (by simp [hzero]),
        List.map_cons]

/-- `readline` stores the edited line, and keeps to the buffer, exactly when every erasing byte comes
while at least two bytes are left; so it does at the console. -/
theorem readline_edits_iff (n : Nat) (line : Str) (eol : Byte) (buf : Int → Byte)
    (hline : ∀ c ∈ line, isEol c = false) (heol : isEol eol = true)
    (hfit : ∀ l, l <+: line → (edited l).length < n) :
    (∀ rest, Edits n line (readline n ((line ++ [eol]).map .byte ++ rest) (.start buf)) ↔
      ∀ l c, l ++ [c] <+: line → isErase c = true → 2 ≤ (edited l).length) ∧
    ∀ keys more, 0x04 ∉ keys → keys.filter (· ≠ 0) = line ++ eol :: more →
      (Edits n line (readline n (consReads keys) (.start buf)) ↔
        ∀ l c, l ++ [c] <+: line → isErase c = true → 2 ≤ (edited l).length) := by
  have h : Typed n [] (.start buf) :=
    ⟨fun _ hj => absurd hj (Nat.not_lt_zero _), fun _ ha => absurd ha List.not_mem_nil⟩
  have hiff : ∀ rest, Edits n line (readline n ((line ++ [eol]).map .byte ++ rest) (.start buf)) ↔
      ∀ l c, l ++ [c] <+: line → isErase c = true → 2 ≤ (edited l).length := by
    intro rest
    have hfrom := readline_from_iff (q := line) h (by simpa using hline) (by simpa using hfit) heol rest
    rw [List.nil_append] at hfrom
    rw [List.map_append, List.append_assoc]
    exact hfrom
  refine ⟨hiff, fun keys more hkeys htyped => ?_⟩
  rw [consReads_typed hkeys, htyped, ← hiff (more.map .byte)]
  simp

theorem edited_length_le (p : Str) : (edited p).length ≤ p.length := by
  induction p using List.reverseRecOn with
  | nil => exact Nat.le_refl 0
  | append_singleton p c ih =>
    rw [edited_append]
    split_ifs
    · rw [List.length_dropLast, List.length_append]
      omega
    · rw [List.length_append, List.length_append]
      exact Nat.add_le_add_right ih _

/-- `ab`, a backspace and `c`, typed with a pause. -/
theorem readline_edits_abc : Edits 1024 [97, 98, 0x08, 99]
    (readline 1024 (consReads [97, 98, 0, 0x08, 99, 13]) (.start fun _ => 0)) := by
  have hend : Behind [97, 98, 0x08, 99] [] := fun l c hl =>
    absurd (List.eq_nil_of_prefix_nil hl) (by simp)
  have hbehind : Behind [] [97, 98, 0x08, 99] := behind_cons.mpr ⟨by decide, behind_cons.mpr
    ⟨by decide, behind_cons.mpr ⟨by decide, behind_cons.mpr ⟨by decide, hend⟩⟩⟩⟩
  have hfit : ∀ l, l <+: [(97 : Byte), 98, 0x08, 99] → (edited l).length < 1024 := fun l hl => by
    have hlen := hl.length_le
    have hedited := edited_length_le l
    simp only [List.length_cons, List.length_nil] at hlen
    omega
  exact ((readline_edits_iff 1024 [97, 98, 0x08, 99] 13 (fun _ => 0) (by simp [isEol, ch]) (by decide)
    hfit).2 _ [] (by decide) (by decide)).mpr hbehind

/-- A backspace at the start of the line. -/
theorem not_readline_edits : ¬ ∀ (n : Nat) (line : Str) (eol : Byte) (rest : List Read)
    (buf : Int → Byte), (∀ c ∈ line, isEol c = false) → isEol eol = true →
    (∀ l, l <+: line → (edited l).length < n) →
    Edits n line (readline n ((line ++ [eol]).map .byte ++ rest) (.start buf)) := by
  intro h
  have hfit : ∀ l, l <+: [(0x08 : Byte)] → (edited l).length < 1024 := fun l hl => by
    have hlen := hl.length_le
    have hedited := edited_length_le l
    simp only [List.length_cons, List.length_nil] at hlen
    omega
  have hinside := (h 1024 [0x08] 10 [] (fun _ => 0) (by simp [isEol, ch]) (by decide) hfit).inside (-1)
    (by decide)
  omega

end Mos.Shell.Readline
