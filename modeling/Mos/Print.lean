import Mathlib.Data.Nat.Digits.Defs
import Mos.Lib.Program
import Mos.Shell.Lexer

/-!
# Formatted output (`lib/print.c`)

`int` and `long` are the integers of 32 bits in two's complement. The calls of the callback are
recorded with the bytes that they are given.
-/

namespace Mos.Print

open Lib (wp wp_mono wp_ite)
open Shell (Byte Str ch)

def INT_MAX : Nat := 2 ^ 31 - 1

/-- The value of an `int`. -/
@[irreducible] def int (x : Int) : Int := x.bmod (2 ^ 32)

/-- A C string, without its `NUL`. -/
structure CString where
  text : Str
  noNul : (0 : Byte) ∉ text

inductive Arg where
  | num (w : BitVec 32)
  | str (s : CString)

inductive Stop where
  /-- An access outside of a string or of `buf`. -/
  | outside
  /-- An array without a positive size. -/
  | size
  /-- A loop that has not ended. -/
  | turns
  /-- No argument of the type that is asked for. -/
  | arg
  deriving DecidableEq, Repr

structure State where
  ap : List Arg
  /-- What the calls of `out` were given. -/
  out : List Str
  buf : Nat → Byte
  size : Nat

abbrev Printer := EStateM Stop State

/-- The character at `i` of a string. -/
def fetch (fmt : CString) (i : Nat) : Printer Byte :=
  match (fmt.text ++ [0])[i]? with
  | some c => return c
  | none => throw .outside

def out (s : Str) : Printer Unit := modify fun st => { st with out := st.out ++ [s] }

/-- `va_arg(ap, int)`, and `va_arg(ap, long int)`. -/
def vaNum : Printer (BitVec 32) := do
  let s ← get
  match s.ap with
  | .num w :: ap => do
    set { s with ap := ap }
    return w
  | _ => throw .arg

/-- `va_arg(ap, char *)` -/
def vaStr : Printer CString := do
  let s ← get
  match s.ap with
  | .str t :: ap => do
    set { s with ap := ap }
    return t
  | _ => throw .arg

def store (i : Nat) (c : Byte) : Printer Unit := do
  let s ← get
  if i < s.size then set { s with buf := Function.update s.buf i c } else throw .outside

def load (i : Nat) : Printer Byte := do
  let s ← get
  if i < s.size then return s.buf i else throw .outside

/-! ## The local helpers -/

def spaces : Nat → Printer Unit
  | 0 => return ()
  | n + 1 => do
    out [ch ' ']
    spaces n

def printChar (c : Byte) (length : Int) (ladjust : Bool) : Printer Unit := do
  let length := if length < 1 then 1 else length
  if ladjust then do
    out [c]
    spaces (length - 1).toNat
  else do
    spaces (length - 1).toNat
    out [c]

/-- `while (*s1++) len++;` -/
def strlenFrom (s : CString) : Nat → Nat → Printer Nat
  | 0, _ => throw .turns
  | n + 1, len => do if (← fetch s len) = 0 then return len else strlenFrom s n (len + 1)

def printStr (s : CString) (length : Int) (ladjust : Bool) : Printer Unit := do
  let len ← strlenFrom s (s.text.length + 1) 0
  let length := if length < len then (len : Int) else length
  if ladjust then do
    out (s.text.take len)
    spaces (length - len).toNat
  else do
    spaces (length - len).toNat
    out (s.text.take len)

def digitByte (upcase : Bool) (tmp : Nat) : Byte :=
  if tmp ≤ 9 then ch '0' + UInt8.ofNat tmp
  else if upcase then ch 'A' + UInt8.ofNat tmp - 10
  else ch 'a' + UInt8.ofNat tmp - 10

/-- The loop over the digits, for `n` turns at most. -/
def putDigits (base : Nat) (upcase : Bool) : Nat → Nat → Nat → Printer Nat
  | 0, _, _ => throw .turns
  | n + 1, u, p => do
    store p (digitByte upcase (u % base))
    if u / base ≠ 0 then putDigits base upcase n (u / base) (p + 1) else return p + 1

/-- `n` bytes `padc` from `i` on. -/
def pad (padc : Byte) : Nat → Nat → Printer Unit
  | 0, _ => return ()
  | n + 1, i => do
    store i padc
    pad padc n (i + 1)

/-- `while (end > begin)`, for `n` turns at most. -/
def reverse : Nat → Nat → Nat → Printer Unit
  | 0, _, _ => throw .turns
  | n + 1, i, j => do
    if j > i then do
      let tmp ← load i
      store i (← load j)
      store j tmp
      reverse n (i + 1) (j - 1)
    else return ()

/-- `out(data, buf, length)` -/
def outBuf (length : Nat) : Printer Unit := do
  let s ← get
  if length ≤ s.size then out ((List.range length).map s.buf) else throw .outside

def printNum (u base : Nat) (negFlag : Bool) (length : Int) (ladjust : Bool) (padc : Byte)
    (upcase : Bool) : Printer Unit := do
  let size := int (length + 70)
  if size ≤ 0 then
    throw .size
  else do
    modify fun s => { s with size := size.toNat }
    let p ← putDigits base upcase 32 u 0
    let actualLength ← (if negFlag then do
        store p (ch '-')
        return p + 1
      else return p : Printer Nat)
    let length := if length < actualLength then actualLength else length.toNat
    let padc := if ladjust then ch ' ' else padc
    if negFlag ∧ ¬ ladjust ∧ padc = ch '0' then do
      pad padc (length - actualLength) (actualLength - 1)
      store (length - 1) (ch '-')
    else
      pad padc (length - actualLength) actualLength
    let last := if ladjust then actualLength - 1 else length - 1
    reverse (last + 1) 0 last
    outBuf length

/-! ## `vprintfmt` -/

/-- The scan for the next `%`. -/
def scan (fmt : CString) : Nat → Nat → Printer Nat
  | 0, _ => throw .turns
  | n + 1, s => do
    let c ← fetch fmt s
    if c ≠ ch '%' ∧ c ≠ 0 then scan fmt n (s + 1) else return s

/-- A flag character that may stand at `i`. -/
def flag (fmt : CString) (c : Char) (i : Nat) : Printer (Bool × Nat) := do
  if (← fetch fmt i) = ch c then return (true, i + 1) else return (false, i)

def isDigit (c : Byte) : Bool := decide (ch '0' ≤ c ∧ c ≤ ch '9')

def getWidth (fmt : CString) : Nat → Nat → Int → Printer (Int × Nat)
  | 0, _, _ => throw .turns
  | n + 1, i, width => do
    let c ← fetch fmt i
    if isDigit c then getWidth fmt n (i + 1) (int (width * 10 + (c.toNat - (ch '0').toNat)))
    else return (width, i)

/-- The cases that print an unsigned number. -/
def printUnsigned (base : Nat) (width : Int) (ladjust : Bool) (padc : Byte) (upcase : Bool) :
    Printer Unit := do
  let num ← vaNum
  printNum num.toNat base false width ladjust padc upcase

/-- The cases `d` and `D`. -/
def printSigned (width : Int) (ladjust : Bool) (padc : Byte) : Printer Unit := do
  let num ← vaNum
  if num.toInt < 0 then printNum (-num).toNat 10 true width ladjust padc false
  else printNum num.toNat 10 false width ladjust padc false

/-- The `switch`. It returns where the conversion character is, or one before the `NUL`. -/
def convert (fmt : CString) (i : Nat) (ladjust : Bool) (padc : Byte) (width : Int) :
    Printer Nat := do
  let c ← fetch fmt i
  if c = ch 'b' then do
    printUnsigned 2 width ladjust padc false
    return i
  else if c = ch 'd' ∨ c = ch 'D' then do
    printSigned width ladjust padc
    return i
  else if c = ch 'o' ∨ c = ch 'O' then do
    printUnsigned 8 width ladjust padc false
    return i
  else if c = ch 'u' ∨ c = ch 'U' then do
    printUnsigned 10 width ladjust padc false
    return i
  else if c = ch 'x' then do
    printUnsigned 16 width ladjust padc false
    return i
  else if c = ch 'X' then do
    printUnsigned 16 width ladjust padc true
    return i
  else if c = ch 'c' then do
    let w ← vaNum
    printChar (UInt8.ofNat w.toNat) width ladjust
    return i
  else if c = ch 's' then do
    let s ← vaStr
    printStr s width ladjust
    return i
  else if c = 0 then
    return i - 1
  else do
    out [c]
    return i

/-- The loop from `i` on, for `n` turns at most. -/
def loop (fmt : CString) : Nat → Nat → Printer Unit
  | 0, _ => throw .turns
  | n + 1, i => do
    let s ← scan fmt (fmt.text.length + 1) i
    out ((fmt.text.drop i).take (s - i))
    if (← fetch fmt s) = 0 then
      return ()
    else do
      let (ladjust, i) ← flag fmt '-' (s + 1)
      let (zero, i) ← flag fmt '0' i
      let (width, i) ← getWidth fmt (fmt.text.length + 1) i 0
      let (_, i) ← flag fmt 'l' i
      let i ← convert fmt i ladjust (if zero then ch '0' else ch ' ') width
      loop fmt n (i + 1)

def vprintfmt (fmt : CString) : Printer Unit := loop fmt (fmt.text.length + 1) 0

/-! ## What a format means -/

structure Directive where
  left : Bool
  zero : Bool
  width : Nat
  conv : Byte
  deriving DecidableEq

inductive Piece where
  | plain (c : Byte)
  | conv (d : Directive)

/-- A character that may start `l`, and what follows it. -/
def optional (c : Char) : Str → Bool × Str
  | [] => (false, [])
  | x :: l => if x = ch c then (true, l) else (false, x :: l)

/-- The number with the decimal digits `l`. -/
def decimal (l : Str) : Nat := l.foldl (fun w c => w * 10 + (c.toNat - (ch '0').toNat)) 0

/-- The conversion that stands after a `%`, unless the format ends inside of it. -/
def directive (l : Str) : Option (Directive × Str) :=
  let (left, l) := optional '-' l
  let (zero, l) := optional '0' l
  let width := decimal (l.takeWhile isDigit)
  let (_, l) := optional 'l' (l.dropWhile isDigit)
  match l with
  | [] => none
  | conv :: l => some (⟨left, zero, width, conv⟩, l)

theorem optional_length (c : Char) (l : Str) : (optional c l).2.length ≤ l.length := by
  unfold optional
  split
  · exact Nat.le_refl _
  · split
    · exact Nat.le_succ _
    · exact Nat.le_refl _

theorem directive_length {l l' : Str} {d : Directive} (h : directive l = some (d, l')) :
    l'.length < l.length := by
  unfold directive at h
  simp only at h
  split at h
  · cases h
  · rename_i conv r hr
    cases h
    have h1 := optional_length '-' l
    have h2 := optional_length '0' (optional '-' l).2
    have h3 := ((optional '0' (optional '-' l).2).2.dropWhile_sublist isDigit).length_le
    have h4 := optional_length 'l' ((optional '0' (optional '-' l).2).2.dropWhile isDigit)
    rw [hr, List.length_cons] at h4
    omega

def parse : Str → List Piece
  | [] => []
  | c :: l =>
    if c = ch '%' then
      match _h : directive l with
      | none => []
      | some (d, l') => .conv d :: parse l'
    else .plain c :: parse l
termination_by l => l.length
decreasing_by
  · exact Nat.lt_succ_of_lt (directive_length ‹_›)
  · exact Nat.lt_succ_self l.length

def digitChar (upcase : Bool) (d : Nat) : Byte :=
  (Shell.bytes (if upcase then "0123456789ABCDEF" else "0123456789abcdef")).getD d 0

/-- The number in a base. -/
def numeral (base : Nat) (upcase : Bool) (u : Nat) : Str :=
  if u = 0 then [ch '0'] else ((base.digits u).map (digitChar upcase)).reverse

def justified (left : Bool) (width : Nat) (text : Str) : Str :=
  let fill := List.replicate (width - text.length) (ch ' ')
  if left then text ++ fill else fill ++ text

def numText (d : Directive) (neg : Bool) (digits : Str) : Str :=
  let sign := if neg then [ch '-'] else []
  if d.zero ∧ ¬ d.left then
    sign ++ List.replicate (d.width - (sign ++ digits).length) (ch '0') ++ digits
  else justified d.left d.width (sign ++ digits)

def unsignedBase (c : Byte) : Option Nat :=
  if c = ch 'b' then some 2
  else if c = ch 'o' ∨ c = ch 'O' then some 8
  else if c = ch 'u' ∨ c = ch 'U' then some 10
  else if c = ch 'x' ∨ c = ch 'X' then some 16
  else none

def isSigned (c : Byte) : Bool := decide (c = ch 'd' ∨ c = ch 'D')

/-- The conversion prints a number. -/
def Directive.isNumber (d : Directive) : Bool := isSigned d.conv || (unsignedBase d.conv).isSome

/-- What a conversion prints and the arguments that it leaves, if they match. -/
def meaning (d : Directive) (args : List Arg) : Option (Str × List Arg) :=
  if isSigned d.conv then
    match args with
    | .num w :: args => some (numText d (w.toInt < 0) (numeral 10 false w.toInt.natAbs), args)
    | _ => none
  else
    match unsignedBase d.conv with
    | some base =>
      match args with
      | .num w :: args => some (numText d false (numeral base (d.conv = ch 'X') w.toNat), args)
      | _ => none
    | none =>
      if d.conv = ch 'c' then
        match args with
        | .num w :: args => some (justified d.left d.width [UInt8.ofNat w.toNat], args)
        | _ => none
      else if d.conv = ch 's' then
        match args with
        | .str s :: args => some (justified d.left d.width s.text, args)
        | _ => none
      else some ([d.conv], args)

/-- What a format prints, if the arguments match. -/
def formatted : List Piece → List Arg → Option Str
  | [], _ => some []
  | .plain c :: ps, args => (formatted ps args).map (c :: ·)
  | .conv d :: ps, args => (meaning d args).bind fun (text, args) =>
    (formatted ps args).map (text ++ ·)

example : directive (Shell.bytes "-05ld!") = some (⟨true, true, 5, ch 'd'⟩, Shell.bytes "!") := by
  decide

/-! ## Strings -/

/-- The pointer `i` is at the rest `l` of the string. -/
structure At (s : CString) (i : Nat) (l : Str) : Prop where
  le : i ≤ s.text.length
  rest : s.text.drop i = l

variable {fmt : CString} {i : Nat} {l : Str} {c : Byte} {s s₀ : State}

theorem At.next (h : At fmt i (c :: l)) : At fmt (i + 1) l where
  le := by
    have hlen := congrArg List.length h.rest
    rw [List.length_drop, List.length_cons] at hlen
    omega
  rest := by
    rw [← List.drop_drop, h.rest]
    rfl

theorem At.length (h : At fmt i l) : i + l.length = fmt.text.length := by
  have hlen := congrArg List.length h.rest
  have hle := h.le
  rw [List.length_drop] at hlen
  omega

theorem At.noNul (h : At fmt i l) : (0 : Byte) ∉ l := by
  rw [← h.rest]
  exact fun hmem => fmt.noNul (List.mem_of_mem_drop hmem)

/-- A load at a pointer to the string finds the next character or the `NUL`. -/
theorem wp_fetch (h : At fmt i l) {Q : Byte → State → Prop} {E : Stop → State → Prop} :
    wp (fetch fmt i) Q E s ↔ Q (l.headD 0) s := by
  have hget : (fmt.text ++ [0])[i]? = some (l.headD 0) := by
    cases l with
    | nil =>
      have hlen := h.length
      rw [List.length_nil, Nat.add_zero] at hlen
      rw [hlen, List.getElem?_append_right (Nat.le_refl _), Nat.sub_self]
      rfl
    | cons c l =>
      have hlen := h.length
      rw [List.length_cons] at hlen
      rw [List.getElem?_append_left (by omega), ← Nat.add_zero i, ← List.getElem?_drop, h.rest]
      rfl
  unfold fetch
  rw [hget]
  exact Lib.wp_pure _

theorem wp_out {t : Str} {Q : Unit → State → Prop} {E : Stop → State → Prop} :
    wp (out t) Q E s ↔ Q () { s with out := s.out ++ [t] } := by
  unfold out
  exact Lib.wp_modify _

/-- `text` has been printed, and the arguments `ap` are left. -/
structure Emits (ap : List Arg) (text : Str) (s s' : State) : Prop where
  out : s'.out.flatten = s.out.flatten ++ text
  ap : s'.ap = ap

theorem emits_out (t : Str) (s : State) :
    wp (out t) (fun _ s' => Emits s.ap t s s') (fun _ _ => False) s := by
  rw [wp_out]
  exact ⟨by rw [List.flatten_append, List.flatten_singleton], rfl⟩

theorem Emits.trans {s' s'' : State} {a a' : List Arg} {t t' : Str} (h : Emits a t s s')
    (h' : Emits a' t' s' s'') : Emits a' (t ++ t') s s'' where
  out := by rw [h'.out, h.out, List.append_assoc]
  ap := h'.ap

theorem emits_spaces (n : Nat) (s : State) :
    wp (spaces n) (fun _ s' => Emits s.ap (List.replicate n (ch ' ')) s s') (fun _ _ => False) s := by
  induction n generalizing s with
  | zero =>
    unfold spaces
    rw [Lib.wp_pure]
    exact ⟨(List.append_nil _).symm, rfl⟩
  | succ n ih =>
    unfold spaces
    rw [Lib.wp_bind]
    refine wp_mono (emits_out _ s) (fun _ s₁ h₁ => ?_) (fun _ _ h => h)
    refine wp_mono (ih s₁) (fun _ s₂ h₂ => ?_) (fun _ _ h => h)
    rw [h₁.ap] at h₂
    exact h₁.trans h₂

/-- The text, and spaces on one side of it. -/
theorem emits_justified {k : Nat} (left : Bool) (t : Str) (s : State) :
    wp (if left then do
        out t
        spaces k
      else do
        spaces k
        out t : Printer Unit)
      (fun _ s' => Emits s.ap (if left then t ++ List.replicate k (ch ' ')
        else List.replicate k (ch ' ') ++ t) s s') (fun _ _ => False) s := by
  cases left
  · simp only [Bool.false_eq_true, if_false, Lib.wp_bind]
    refine wp_mono (emits_spaces k s) (fun _ s₁ h₁ => ?_) (fun _ _ h => h)
    refine wp_mono (emits_out t s₁) (fun _ s₂ h₂ => ?_) (fun _ _ h => h)
    rw [h₁.ap] at h₂
    exact h₁.trans h₂
  · simp only [if_true, Lib.wp_bind]
    refine wp_mono (emits_out t s) (fun _ s₁ h₁ => ?_) (fun _ _ h => h)
    refine wp_mono (emits_spaces k s₁) (fun _ s₂ h₂ => ?_) (fun _ _ h => h)
    rw [h₁.ap] at h₂
    exact h₁.trans h₂

theorem emits_printChar (c : Byte) (width : Nat) (left : Bool) (s : State) :
    wp (printChar c width left) (fun _ s' => Emits s.ap (justified left width [c]) s s')
      (fun _ _ => False) s := by
  have hcount : ((if (width : Int) < 1 then 1 else (width : Int)) - 1).toNat = width - 1 := by
    split <;> omega
  unfold printChar justified
  simp only [hcount]
  exact emits_justified left [c] s

theorem strlenFrom_spec {n len : Nat} {t : CString} (h : At t len l) (hn : l.length < n) (s : State) :
    wp (strlenFrom t n len) (fun r s' => r = t.text.length ∧ s' = s) (fun _ _ => False) s := by
  induction n generalizing len l with
  | zero => omega
  | succ n ih =>
    unfold strlenFrom
    rw [Lib.wp_bind, wp_fetch h, wp_ite]
    cases l with
    | nil =>
      have hlen := h.length
      exact ⟨fun _ => (Lib.wp_pure _).mpr ⟨by simpa using hlen, rfl⟩, fun hne => absurd rfl hne⟩
    | cons c l =>
      refine ⟨fun hzero => ?_, fun _ => ih h.next ?_⟩
      · exact absurd (List.mem_cons.mpr (.inl hzero.symm)) h.noNul
      · rw [List.length_cons] at hn
        omega

theorem emits_printStr (t : CString) (width : Nat) (left : Bool) (s : State) :
    wp (printStr t width left) (fun _ s' => Emits s.ap (justified left width t.text) s s')
      (fun _ _ => False) s := by
  have hcount : ((if (width : Int) < t.text.length then (t.text.length : Int) else width) -
      t.text.length).toNat = width - t.text.length := by
    split <;> omega
  unfold printStr
  rw [Lib.wp_bind]
  refine wp_mono (strlenFrom_spec ⟨Nat.zero_le _, rfl⟩ (by rw [List.drop_zero]; omega) s) ?_
    (fun _ _ h => h)
  rintro _ _ ⟨rfl, rfl⟩
  unfold justified
  simp only [hcount, List.take_length]
  exact emits_justified left t.text _

/-! ## The buffer -/

/-- `buf` starts with `l`, and nothing is printed yet. -/
structure Holds (n : Nat) (l : Str) (s₀ s : State) : Prop where
  size : s.size = n
  fits : l.length ≤ n
  bytes : ∀ j (h : j < l.length), s.buf j = l[j]
  out : s.out = s₀.out
  ap : s.ap = s₀.ap

variable {n : Nat} {a b m : Str} {x y : Byte}

theorem Holds.prefix (h : Holds n (a ++ b) s₀ s) : Holds n a s₀ s where
  size := h.size
  fits := by have := h.fits; rw [List.length_append] at this; omega
  bytes j hj := by
    have hlt : j < (a ++ b).length := by rw [List.length_append]; omega
    rw [h.bytes j hlt, List.getElem_append_left hj]
  out := h.out
  ap := h.ap

/-- The byte after `a` is stored. -/
theorem Holds.update {r : Str} (h : Holds n (a ++ r) s₀ s) (ha : a.length < n)
    (hb : b.length = r.length - 1) (hrest : ∀ j (hj : j < b.length) (hr : j + 1 < r.length), b[j] = r[j + 1]) :
    Holds n (a ++ c :: b) s₀ { s with buf := Function.update s.buf a.length c } where
  size := h.size
  fits := by
    have := h.fits
    rw [List.length_append] at this
    rw [List.length_append, List.length_cons]
    omega
  bytes j hj := by
    by_cases heq : j = a.length
    · subst heq
      rw [List.getElem_append_right (Nat.le_refl _)]
      simp only [Function.update_self, Nat.sub_self, List.getElem_cons_zero]
    · rw [List.length_append, List.length_cons] at hj
      show Function.update s.buf a.length c j = _
      rw [Function.update_of_ne heq]
      rcases Nat.lt_or_ge j a.length with hlt | hge
      · rw [List.getElem_append_left hlt, h.bytes j (by rw [List.length_append]; omega),
          List.getElem_append_left hlt]
      · obtain ⟨k, rfl⟩ : ∃ k, j = a.length + (k + 1) := ⟨j - a.length - 1, by omega⟩
        rw [h.bytes _ (by rw [List.length_append]; omega),
          List.getElem_append_right (by omega), List.getElem_append_right (by omega)]
        simp only [Nat.add_sub_cancel_left, List.getElem_cons_succ]
        exact (hrest k (by omega) (by omega)).symm
  out := h.out
  ap := h.ap

theorem wp_store {j : Nat} (hj : j < s.size) {Q : Unit → State → Prop} {E : Stop → State → Prop} :
    wp (store j c) Q E s ↔ Q () { s with buf := Function.update s.buf j c } := by
  unfold store
  rw [Lib.wp_bind, Lib.wp_get, if_pos hj, Lib.wp_set]

theorem store_append (h : Holds n l s₀ s) (hn : l.length < n) :
    wp (store l.length c) (fun _ => Holds n (l ++ [c]) s₀) (fun _ _ => False) s := by
  rw [wp_store (by rw [h.size]; exact hn)]
  refine Holds.update (r := []) (by rwa [List.append_nil]) hn rfl ?_
  intro j hj
  exact absurd hj (Nat.not_lt_zero j)

theorem store_middle (h : Holds n (a ++ x :: b) s₀ s) :
    wp (store a.length c) (fun _ => Holds n (a ++ c :: b) s₀) (fun _ _ => False) s := by
  have hn := h.fits
  rw [List.length_append, List.length_cons] at hn
  rw [wp_store (by rw [h.size]; omega)]
  refine h.update (by omega) rfl ?_
  intro j _ _
  rfl

theorem load_middle (h : Holds n (a ++ x :: b) s₀ s) :
    wp (load a.length) (fun r s' => r = x ∧ s' = s) (fun _ _ => False) s := by
  have hn := h.fits
  rw [List.length_append, List.length_cons] at hn
  unfold load
  rw [Lib.wp_bind, Lib.wp_get, if_pos (by rw [h.size]; omega), Lib.wp_pure]
  refine ⟨?_, rfl⟩
  rw [h.bytes a.length (by rw [List.length_append, List.length_cons]; omega),
    List.getElem_append_right (Nat.le_refl _)]
  simp only [Nat.sub_self, List.getElem_cons_zero]

theorem pad_spec {k : Nat} (h : Holds n l s₀ s) (hk : l.length + k ≤ n) :
    wp (pad c k l.length) (fun _ => Holds n (l ++ List.replicate k c) s₀) (fun _ _ => False) s := by
  induction k generalizing l s with
  | zero =>
    unfold pad
    rw [Lib.wp_pure, List.replicate_zero, List.append_nil]
    exact h
  | succ k ih =>
    unfold pad
    rw [Lib.wp_bind]
    refine wp_mono (store_append h (by omega)) (fun _ s₁ h₁ => ?_) (fun _ _ h => h)
    have hlen : (l ++ [c]).length = l.length + 1 := List.length_append
    have hrest := ih h₁ (by omega)
    rw [hlen, List.append_assoc] at hrest
    exact hrest

/-- The bytes between `a` and `b` are reversed, by induction on the turns. -/
theorem reverse_spec {k j : Nat} (h : Holds n (a ++ m ++ b) s₀ s) (hj : j + 1 = a.length + m.length)
    (hk : m.length < 2 * k) :
    wp (reverse k a.length j) (fun _ => Holds n (a ++ m.reverse ++ b) s₀) (fun _ _ => False) s := by
  induction k generalizing a m b j s with
  | zero => omega
  | succ k ih =>
    unfold reverse
    rw [wp_ite]
    constructor
    · intro hlt
      obtain ⟨x, t, rfl⟩ : ∃ x t, m = x :: t := by
        cases m with
        | nil => rw [List.length_nil] at hj; omega
        | cons x t => exact ⟨x, t, rfl⟩
      obtain ⟨t, y, rfl⟩ : ∃ t' y, t = t' ++ [y] := by
        rcases List.eq_nil_or_concat t with rfl | ⟨t', y, rfl⟩
        · rw [List.length_singleton] at hj
          omega
        · exact ⟨t', y, List.concat_eq_append⟩
      rw [List.length_cons, List.length_append, List.length_singleton] at hj hk
      have hx : Holds n (a ++ x :: (t ++ y :: b)) s₀ s := by
        simpa only [List.append_assoc, List.cons_append, List.nil_append] using h
      have hy : Holds n ((a ++ x :: t) ++ y :: b) s₀ s := by
        simpa only [List.append_assoc, List.cons_append] using hx
      have hjy : (a ++ x :: t).length = j := by
        rw [List.length_append, List.length_cons]
        omega
      rw [Lib.wp_bind]
      refine wp_mono (load_middle hx) ?_ (fun _ _ h => h)
      rintro tmp s₁ ⟨htmp, hs₁⟩
      rw [htmp, hs₁]
      rw [Lib.wp_bind, ← hjy]
      refine wp_mono (load_middle hy) ?_ (fun _ _ h => h)
      rintro other s₂ ⟨hother, hs₂⟩
      rw [hother, hs₂]
      rw [Lib.wp_bind]
      refine wp_mono (store_middle hx) (fun _ s₃ h₃ => ?_) (fun _ _ h => h)
      have hy₃ : Holds n ((a ++ y :: t) ++ y :: b) s₀ s₃ := by
        simpa only [List.append_assoc, List.cons_append] using h₃
      have hlen : (a ++ x :: t).length = (a ++ y :: t).length := by
        rw [List.length_append, List.length_append, List.length_cons, List.length_cons]
      rw [Lib.wp_bind, hlen]
      refine wp_mono (store_middle hy₃) (fun _ s₄ h₄ => ?_) (fun _ _ h => h)
      have hrest : Holds n ((a ++ [y]) ++ t ++ x :: b) s₀ s₄ := by
        simpa only [List.append_assoc, List.cons_append, List.nil_append] using h₄
      have hnext := ih hrest (j := j - 1)
        (by rw [List.length_append, List.length_singleton]; omega) (by omega)
      rw [List.length_append, List.length_singleton] at hnext
      rw [← hlen, hjy]
      refine wp_mono hnext (fun _ s₅ h₅ => ?_) (fun _ _ h => h)
      simpa only [List.reverse_cons, List.reverse_append, List.reverse_nil, List.nil_append,
        List.append_assoc, List.cons_append] using h₅
    · intro hge
      have hrev : m.reverse = m := by
        match m, hj with
        | [], _ => rfl
        | [x], _ => rfl
        | x :: y :: t, hj =>
          rw [List.length_cons, List.length_cons] at hj
          omega
      rw [Lib.wp_pure, hrev]
      exact h

theorem outBuf_spec (h : Holds n l s₀ s) :
    wp (outBuf l.length) (fun _ s' => Emits s₀.ap l s₀ s') (fun _ _ => False) s := by
  have hbytes : (List.range l.length).map s.buf = l := by
    apply List.ext_getElem
    · rw [List.length_map, List.length_range]
    · intro j _ hj
      rw [List.getElem_map, List.getElem_range]
      exact h.bytes j hj
  unfold outBuf
  rw [Lib.wp_bind, Lib.wp_get, if_pos (by rw [h.size]; exact h.fits), wp_out, hbytes]
  refine ⟨?_, h.ap⟩
  show (s.out ++ [l]).flatten = _
  rw [h.out, List.flatten_append, List.flatten_singleton]

/-! ## Numbers -/

theorem int_of_le {x : Int} (h0 : 0 ≤ x) (h : x ≤ 2147483647) : int x = x := by
  unfold int
  exact Int.bmod_eq_of_le (by omega) (by omega)

theorem int_of_gt {x : Int} (h : 2147483647 < x) (h' : x ≤ 4294967295) : int x = x - 4294967296 := by
  have hemod : x % (2 ^ 32 : Nat) = x := Int.emod_eq_of_lt (by omega) (by omega)
  unfold int
  rw [Int.bmod_eq_emod, hemod, if_pos (by omega)]
  rfl

variable {base u : Nat} {up : Bool}

theorem digitByte_eq {d : Nat} (hd : d < 16) : digitByte up d = digitChar up d := by
  have hall : ∀ (up : Bool) (d : Fin 16), digitByte up d.1 = digitChar up d.1 := by decide +kernel
  exact hall up ⟨d, hd⟩

/-- The digits of a number, the lowest one first. -/
def lowFirst (base : Nat) (up : Bool) (u : Nat) : Str :=
  (if u = 0 then [0] else base.digits u).map (digitChar up)

theorem lowFirst_step (hb : 2 ≤ base) : lowFirst base up u =
    digitChar up (u % base) :: (if u / base = 0 then [] else lowFirst base up (u / base)) := by
  unfold lowFirst
  by_cases hu : u = 0
  · subst hu
    rw [if_pos rfl, Nat.zero_div, Nat.zero_mod, if_pos rfl]
    rfl
  · rw [if_neg hu, Nat.digits_def' (by omega) (by omega), List.map_cons]
    by_cases hq : u / base = 0
    · rw [if_pos hq, hq, Nat.digits_zero]
      rfl
    · rw [if_neg hq, if_neg hq]

theorem numeral_eq (base : Nat) (up : Bool) (u : Nat) :
    numeral base up u = (lowFirst base up u).reverse := by
  unfold numeral lowFirst
  by_cases hu : u = 0
  · rw [if_pos hu, if_pos hu]
    cases up <;> rfl
  · rw [if_neg hu, if_neg hu]

/-- The digits are put in turn, by induction on the turns. -/
theorem putDigits_spec {k : Nat} (hb : 2 ≤ base ∧ base ≤ 16) (hu : u < 2 ^ (k + 1))
    (h : Holds n l s₀ s) (hn : l.length + (k + 1) ≤ n) :
    wp (putDigits base up (k + 1) u l.length)
      (fun p s' => p = (l ++ lowFirst base up u).length ∧ Holds n (l ++ lowFirst base up u) s₀ s' ∧
        (lowFirst base up u).length ≤ k + 1)
      (fun _ _ => False) s := by
  induction k generalizing l u s with
  | zero =>
    have hq : u / base = 0 := Nat.div_eq_of_lt (by omega)
    unfold putDigits
    rw [Lib.wp_bind, digitByte_eq (Nat.lt_of_lt_of_le (Nat.mod_lt _ (by omega)) hb.2)]
    refine wp_mono (store_append h (by omega)) (fun _ s₁ h₁ => ?_) (fun _ _ h => h)
    rw [if_neg (not_not.mpr hq), Lib.wp_pure, lowFirst_step hb.1, if_pos hq]
    exact ⟨by rw [List.length_append]; rfl, h₁, Nat.le_refl _⟩
  | succ k ih =>
    have hlen : ∀ x : Byte, (l ++ [x]).length = l.length + 1 := fun _ => List.length_append
    unfold putDigits
    rw [Lib.wp_bind, digitByte_eq (Nat.lt_of_lt_of_le (Nat.mod_lt _ (by omega)) hb.2)]
    refine wp_mono (store_append h (by omega)) (fun _ s₁ h₁ => ?_) (fun _ _ h => h)
    rw [lowFirst_step hb.1, wp_ite]
    constructor
    · intro hq
      have hless : u / base < 2 ^ (k + 1) := by
        refine Nat.div_lt_of_lt_mul (Nat.lt_of_lt_of_le hu ?_)
        rw [Nat.pow_succ, Nat.mul_comm]
        exact Nat.mul_le_mul_right _ hb.1
      have hnext := ih hless h₁ (by rw [hlen]; omega)
      rw [hlen] at hnext
      refine wp_mono hnext ?_ (fun _ _ h => h)
      rintro p s₂ ⟨hp, h₂, hle⟩
      rw [List.append_assoc] at hp h₂
      rw [if_neg hq]
      refine ⟨hp, h₂, ?_⟩
      rw [List.length_cons]
      omega
    · intro hq
      rw [Lib.wp_pure, if_pos (not_not.mp hq)]
      exact ⟨(hlen _).symm, h₁, by rw [List.length_singleton]; omega⟩

/-- What `printNum` does after the digits, whose end is `p`. -/
def finishNum (negFlag : Bool) (length : Int) (ladjust : Bool) (padc : Byte) (p : Nat) :
    Printer Unit := do
  let actualLength ← (if negFlag then do
      store p (ch '-')
      return p + 1
    else return p : Printer Nat)
  let length := if length < actualLength then actualLength else length.toNat
  let padc := if ladjust then ch ' ' else padc
  if negFlag ∧ ¬ ladjust ∧ padc = ch '0' then do
    pad padc (length - actualLength) (actualLength - 1)
    store (length - 1) (ch '-')
  else
    pad padc (length - actualLength) actualLength
  let last := if ladjust then actualLength - 1 else length - 1
  reverse (last + 1) 0 last
  outBuf length

theorem reverse_out (h : Holds n (m ++ b) s₀ s) (hm : 0 < m.length) {k : Nat}
    (hk : k = (m ++ b).length) :
    wp (do
      reverse (m.length - 1 + 1) 0 (m.length - 1)
      outBuf k : Printer Unit)
      (fun _ s' => Emits s₀.ap (m.reverse ++ b) s₀ s') (fun _ _ => False) s := by
  have hstart : Holds n ([] ++ m ++ b) s₀ s := h
  have hrev := reverse_spec (k := m.length - 1 + 1) (j := m.length - 1) hstart
    (by rw [List.length_nil]; omega) (by omega)
  rw [Lib.wp_bind]
  refine wp_mono hrev (fun _ s₁ h₁ => ?_) (fun _ _ h => h)
  have hlen : k = (m.reverse ++ b).length := by
    rw [hk, List.length_append, List.length_append, List.length_reverse]
  rw [hlen]
  exact outBuf_spec h₁

theorem pad_before {k : Nat} (h : Holds n l s₀ s) (hl : 0 < l.length) (hk : l.length + k ≤ n) :
    wp (do
      pad c k l.length
      reverse (l.length + k - 1 + 1) 0 (l.length + k - 1)
      outBuf (l.length + k) : Printer Unit)
      (fun _ s' => Emits s₀.ap (List.replicate k c ++ l.reverse) s₀ s') (fun _ _ => False) s := by
  rw [Lib.wp_bind]
  refine wp_mono (pad_spec h hk) (fun _ s₁ h₁ => ?_) (fun _ _ h => h)
  have hlen : (l ++ List.replicate k c).length = l.length + k := by
    rw [List.length_append, List.length_replicate]
  have hall : Holds n ((l ++ List.replicate k c) ++ []) s₀ s₁ := by rwa [List.append_nil]
  have hout := reverse_out hall (by rw [hlen]; omega) (by rw [List.append_nil, hlen])
  rw [hlen, List.reverse_append, List.reverse_replicate, List.append_nil] at hout
  exact hout

theorem pad_after {k : Nat} (h : Holds n l s₀ s) (hl : 0 < l.length) (hk : l.length + k ≤ n) :
    wp (do
      pad c k l.length
      reverse (l.length - 1 + 1) 0 (l.length - 1)
      outBuf (l.length + k) : Printer Unit)
      (fun _ s' => Emits s₀.ap (l.reverse ++ List.replicate k c) s₀ s') (fun _ _ => False) s := by
  rw [Lib.wp_bind]
  refine wp_mono (pad_spec h hk) (fun _ s₁ h₁ => ?_) (fun _ _ h => h)
  exact reverse_out h₁ hl (by rw [List.length_append, List.length_replicate])

/-- Zeros take the place of the sign, which is put after them. -/
theorem pad_sign {k : Nat} (h : Holds n (l ++ [ch '-']) s₀ s) (hk : l.length + 1 + k ≤ n) :
    wp (do
      pad (ch '0') k l.length
      store (l.length + k) (ch '-')
      reverse (l.length + k + 1) 0 (l.length + k)
      outBuf (l.length + 1 + k) : Printer Unit)
      (fun _ s' => Emits s₀.ap ([ch '-'] ++ List.replicate k (ch '0') ++ l.reverse) s₀ s')
      (fun _ _ => False) s := by
  rw [Lib.wp_bind]
  refine wp_mono (pad_spec h.prefix (by omega)) (fun _ s₁ h₁ => ?_) (fun _ _ h => h)
  have hlen : (l ++ List.replicate k (ch '0')).length = l.length + k := by
    rw [List.length_append, List.length_replicate]
  rw [Lib.wp_bind, ← hlen]
  refine wp_mono (store_append h₁ (by omega)) (fun _ s₂ h₂ => ?_) (fun _ _ h => h)
  have hall : Holds n ((l ++ List.replicate k (ch '0') ++ [ch '-']) ++ []) s₀ s₂ := by
    rwa [List.append_nil]
  have hone : (l ++ List.replicate k (ch '0') ++ [ch '-']).length = l.length + k + 1 := by
    rw [List.length_append, hlen]
    rfl
  have hout := reverse_out (k := l.length + 1 + k) hall (by rw [hone]; omega)
    (by rw [List.append_nil, hone]; omega)
  rw [hone, List.reverse_append, List.reverse_append, List.reverse_replicate, List.append_nil,
    ← List.append_assoc] at hout
  rw [hlen]
  exact hout

/-- The sign and the padding are where the flags want them. -/
theorem finishNum_spec {ds : Str} (hds : 0 < ds.length) {d : Directive} (neg : Bool)
    (h : Holds n ds s₀ s) (hn : d.width + ds.length + 1 ≤ n) :
    wp (finishNum neg d.width d.left (if d.zero then ch '0' else ch ' ') ds.length)
      (fun _ s' => Emits s₀.ap (numText d neg ds.reverse) s₀ s') (fun _ _ => False) s := by
  have hsum : ∀ (x : Nat), (if (d.width : Int) < x then x else (d.width : Int).toNat) =
      x + (d.width - x) := by
    intro x
    split <;> omega
  have hblank : ¬ ch ' ' = ch '0' := by decide
  unfold finishNum numText justified
  cases neg
  · -- There is no sign.
    simp only [Bool.false_eq_true, if_false, false_and, Lib.wp_bind, Lib.wp_pure, hsum,
      Nat.add_sub_cancel_left, List.nil_append, List.length_reverse]
    cases hleft : d.left
    · cases hzero : d.zero
      · simpa only [Bool.false_eq_true, if_false, Lib.wp_bind, false_and] using
          pad_before (c := ch ' ') h hds (by omega)
      · simpa only [Bool.false_eq_true, if_false, if_true, Lib.wp_bind, not_false_eq_true,
          true_and] using pad_before (c := ch '0') h hds (by omega)
    · simpa only [if_true, Lib.wp_bind, not_true_eq_false, and_false, if_false] using
        pad_after (c := ch ' ') h hds (by omega)
  · have hlen : (ds ++ [ch '-']).length = ds.length + 1 := List.length_append
    have hback : (ds ++ [ch '-']).reverse = [ch '-'] ++ ds.reverse := List.reverse_append
    have hall : ([ch '-'] ++ ds.reverse).length = ds.length + 1 := by
      rw [← hback, List.length_reverse, hlen]
    rw [if_pos rfl, Lib.wp_bind, Lib.wp_bind]
    refine wp_mono (store_append h (by omega)) (fun _ s₁ h₁ => ?_) (fun _ _ h => h)
    rw [Lib.wp_pure]
    simp only [hsum, Nat.add_sub_cancel_left, true_and, if_true, hall]
    cases hleft : d.left
    · cases hzero : d.zero
      · have hout := pad_before (c := ch ' ') h₁ (by omega)
          (by omega : (ds ++ [ch '-']).length + (d.width - (ds.length + 1)) ≤ n)
        rw [hlen, hback] at hout
        simpa only [Bool.false_eq_true, if_false, hblank, and_false, false_and] using hout
      · have hout := pad_sign h₁ (by omega : ds.length + 1 + (d.width - (ds.length + 1)) ≤ n)
        simp only [Bool.false_eq_true, if_false, if_true, not_false_eq_true, and_self]
        rw [show ds.length + 1 + (d.width - (ds.length + 1)) - 1 =
          ds.length + (d.width - (ds.length + 1)) by omega, Nat.add_sub_cancel]
        exact hout
    · have hout := pad_after (c := ch ' ') h₁ (by omega)
        (by omega : (ds ++ [ch '-']).length + (d.width - (ds.length + 1)) ≤ n)
      rw [hlen, hback] at hout
      simpa only [if_true, not_true_eq_false, and_false, false_and, if_false] using hout

/-- The number, with its padding, is printed if the buffer has a size. -/
theorem printNum_spec (hb : 2 ≤ base ∧ base ≤ 16) (hu : u < 2 ^ 32) {d : Directive}
    (hw : d.width ≤ INT_MAX) (neg : Bool) (s : State) :
    wp (printNum u base neg d.width d.left (if d.zero then ch '0' else ch ' ') up)
      (fun _ s' => Emits s.ap (numText d neg (numeral base up u)) s s' ∧ d.width + 70 ≤ INT_MAX)
      (fun e _ => e = .size ∧ ¬ d.width + 70 ≤ INT_MAX) s := by
  have hmax : INT_MAX = 2147483647 := rfl
  rw [hmax] at hw ⊢
  unfold printNum
  simp only
  rw [wp_ite, Lib.wp_throw]
  constructor
  · intro hsize
    refine ⟨rfl, fun hle => ?_⟩
    rw [int_of_le (by omega) (by omega)] at hsize
    omega
  · intro hsize
    have hle : d.width + 70 ≤ 2147483647 := by
      by_contra hnot
      refine hsize ?_
      rw [int_of_gt (by omega) (by omega)]
      omega
    have hint : int (d.width + 70) = ((d.width + 70 : Nat) : Int) := int_of_le (by omega) (by omega)
    rw [hint, Int.toNat_natCast, Lib.wp_bind, Lib.wp_modify, Lib.wp_bind]
    have hstart : Holds (d.width + 70) [] s { s with size := d.width + 70 } :=
      ⟨rfl, Nat.zero_le _, fun j hj => absurd hj (Nat.not_lt_zero j), rfl, rfl⟩
    refine wp_mono (putDigits_spec hb hu hstart (by rw [List.length_nil]; omega)) ?_
      (fun _ _ h => h.elim)
    rintro p s₁ ⟨hp, h₁, hlen⟩
    rw [List.nil_append] at hp h₁
    have hpos : 0 < (lowFirst base up u).length := by
      rw [lowFirst_step hb.1]
      exact Nat.succ_pos _
    rw [hp, numeral_eq]
    exact wp_mono (finishNum_spec hpos neg h₁ (by omega)) (fun _ _ h => ⟨h, hle⟩)
      (fun _ _ h => h.elim)

/-! ## Conversions -/

variable {d : Directive} {w : BitVec 32} {ap : List Arg} {t : Str}

theorem wp_vaNum (h : s.ap = .num w :: ap) {Q : BitVec 32 → State → Prop} {E : Stop → State → Prop} :
    wp vaNum Q E s ↔ Q w { s with ap := ap } := by
  unfold vaNum
  rw [Lib.wp_bind, Lib.wp_get, h]
  simp only [Lib.wp_bind, Lib.wp_set, Lib.wp_pure]

theorem wp_vaStr {v : CString} (h : s.ap = .str v :: ap) {Q : CString → State → Prop}
    {E : Stop → State → Prop} : wp vaStr Q E s ↔ Q v { s with ap := ap } := by
  unfold vaStr
  rw [Lib.wp_bind, Lib.wp_get, h]
  simp only [Lib.wp_bind, Lib.wp_set, Lib.wp_pure]

/-- `buf` has a size for the width of the conversion. -/
def Directive.Sized (d : Directive) : Prop := d.width + 70 ≤ INT_MAX

theorem printUnsigned_spec (hb : 2 ≤ base ∧ base ≤ 16) (hw : d.width ≤ INT_MAX)
    (h : s.ap = .num w :: ap) :
    wp (printUnsigned base d.width d.left (if d.zero then ch '0' else ch ' ') up)
      (fun _ s' => Emits ap (numText d false (numeral base up w.toNat)) s s' ∧ d.Sized)
      (fun e _ => e = .size ∧ ¬ d.Sized) s := by
  unfold printUnsigned
  rw [Lib.wp_bind, wp_vaNum h]
  exact wp_mono (printNum_spec hb w.isLt hw false _) (fun _ _ h => ⟨⟨h.1.out, h.1.ap⟩, h.2⟩)
    (fun _ _ h => h)

theorem toNat_neg (h : w.toInt < 0) : (-w).toNat = w.toInt.natAbs := by
  have hlt := w.isLt
  rw [BitVec.toInt_eq_toNat_cond] at h ⊢
  rw [BitVec.toNat_neg]
  split at h
  · omega
  · rw [if_neg ‹_›]
    omega

theorem toNat_nonneg (h : ¬ w.toInt < 0) : w.toNat = w.toInt.natAbs := by
  have hlt := w.isLt
  rw [BitVec.toInt_eq_toNat_cond] at h ⊢
  split at h
  · rw [if_pos ‹_›]
    rfl
  · omega

theorem printSigned_spec (hw : d.width ≤ INT_MAX) (h : s.ap = .num w :: ap) :
    wp (printSigned d.width d.left (if d.zero then ch '0' else ch ' '))
      (fun _ s' => Emits ap (numText d (w.toInt < 0) (numeral 10 false w.toInt.natAbs)) s s' ∧ d.Sized)
      (fun e _ => e = .size ∧ ¬ d.Sized) s := by
  have hten : 2 ≤ 10 ∧ 10 ≤ 16 := by decide
  unfold printSigned
  rw [Lib.wp_bind, wp_vaNum h, wp_ite]
  constructor
  · intro hneg
    rw [toNat_neg hneg, decide_eq_true hneg]
    refine wp_mono (printNum_spec hten ?_ hw true _) (fun _ _ h => ⟨⟨h.1.out, h.1.ap⟩, h.2⟩)
      (fun _ _ h => h)
    rw [← toNat_neg hneg]
    exact (-w).isLt
  · intro hnonneg
    rw [toNat_nonneg hnonneg, decide_eq_false hnonneg]
    refine wp_mono (printNum_spec hten ?_ hw false _) (fun _ _ h => ⟨⟨h.1.out, h.1.ap⟩, h.2⟩)
      (fun _ _ h => h)
    rw [← toNat_nonneg hnonneg]
    exact w.isLt

/-- The conversion has printed `t`, and `buf` had a size if it was needed. -/
def Printed (d : Directive) (i : Nat) (ap : List Arg) (t : Str) (s : State) (j : Nat) (s' : State) :
    Prop :=
  j = i ∧ Emits ap t s s' ∧ (d.isNumber = true → d.Sized)

def Unsized (d : Directive) (e : Stop) : Prop := e = .size ∧ d.isNumber = true ∧ ¬ d.Sized

/-- A conversion to an unsigned number. -/
theorem convert_unsigned (hsigned : isSigned d.conv = false) (hbase : unsignedBase d.conv = some base)
    (hb : 2 ≤ base ∧ base ≤ 16) (hup : up = decide (d.conv = ch 'X'))
    (hm : meaning d s.ap = some (t, ap)) (hw : d.width ≤ INT_MAX) :
    wp (do
      printUnsigned base d.width d.left (if d.zero then ch '0' else ch ' ') up
      return i : Printer Nat) (Printed d i ap t s) (fun e _ => Unsized d e) s := by
  have hnum : d.isNumber = true := by
    unfold Directive.isNumber
    rw [hbase, Option.isSome_some, Bool.or_true]
  unfold meaning at hm
  rw [hsigned, if_neg Bool.false_ne_true, hbase] at hm
  simp only at hm
  split at hm
  · rename_i w ap' hap
    cases hm
    rw [Lib.wp_bind]
    refine wp_mono (printUnsigned_spec hb hw hap) (fun _ s₁ h₁ => ?_)
      (fun _ _ h => ⟨h.1, hnum, h.2⟩)
    rw [Lib.wp_pure, ← hup]
    exact ⟨rfl, h₁.1, fun _ => h₁.2⟩
  · cases hm

theorem convert_spec {r : Str} (h : At fmt i (d.conv :: r)) (hm : meaning d s.ap = some (t, ap))
    (hw : d.width ≤ INT_MAX) :
    wp (convert fmt i d.left (if d.zero then ch '0' else ch ' ') d.width) (Printed d i ap t s)
      (fun e _ => Unsized d e) s := by
  have hzero : d.conv ≠ 0 := fun h0 => h.noNul (List.mem_cons.mpr (.inl h0.symm))
  unfold convert
  rw [Lib.wp_bind, wp_fetch h, List.headD_cons]
  by_cases hc : d.conv = ch 'b'
  · rw [if_pos hc]
    refine convert_unsigned ?_ ?_ (by decide) ?_ hm hw <;> rw [hc] <;> decide
  rw [if_neg hc]
  by_cases hd : d.conv = ch 'd' ∨ d.conv = ch 'D'
  · have hsigned : isSigned d.conv = true := decide_eq_true hd
    have hnum : d.isNumber = true := by
      unfold Directive.isNumber
      rw [hsigned, Bool.true_or]
    rw [if_pos hd, Lib.wp_bind]
    unfold meaning at hm
    rw [if_pos hsigned] at hm
    split at hm
    · rename_i w ap' hap
      cases hm
      refine wp_mono (printSigned_spec hw hap) (fun _ s₁ h₁ => ?_) (fun _ _ h => ⟨h.1, hnum, h.2⟩)
      rw [Lib.wp_pure]
      exact ⟨rfl, h₁.1, fun _ => h₁.2⟩
    · cases hm
  have hsigned : isSigned d.conv = false := decide_eq_false hd
  rw [if_neg hd]
  by_cases ho : d.conv = ch 'o' ∨ d.conv = ch 'O'
  · rw [if_pos ho]
    refine convert_unsigned hsigned ?_ (by decide) ?_ hm hw <;>
      rcases ho with ho | ho <;> rw [ho] <;> decide
  rw [if_neg ho]
  by_cases hu : d.conv = ch 'u' ∨ d.conv = ch 'U'
  · rw [if_pos hu]
    refine convert_unsigned hsigned ?_ (by decide) ?_ hm hw <;>
      rcases hu with hu | hu <;> rw [hu] <;> decide
  rw [if_neg hu]
  by_cases hx : d.conv = ch 'x'
  · rw [if_pos hx]
    refine convert_unsigned hsigned ?_ (by decide) ?_ hm hw <;> rw [hx] <;> decide
  rw [if_neg hx]
  by_cases hX : d.conv = ch 'X'
  · rw [if_pos hX]
    refine convert_unsigned hsigned ?_ (by decide) ?_ hm hw <;> rw [hX] <;> decide
  rw [if_neg hX]
  have hbase : unsignedBase d.conv = none := by
    unfold unsignedBase
    rw [if_neg hc, if_neg ho, if_neg hu, if_neg (not_or.mpr ⟨hx, hX⟩)]
  have hnum : d.isNumber = false := by
    unfold Directive.isNumber
    rw [hsigned, hbase]
    rfl
  unfold meaning at hm
  rw [hsigned, if_neg Bool.false_ne_true, hbase] at hm
  simp only at hm
  have hsized : d.isNumber = true → d.Sized := fun hn => by rw [hnum] at hn; cases hn
  by_cases hchar : d.conv = ch 'c'
  · rw [if_pos hchar] at hm ⊢
    split at hm
    · rename_i w ap' hap
      cases hm
      rw [Lib.wp_bind, wp_vaNum hap, Lib.wp_bind]
      refine wp_mono (emits_printChar _ _ _ _) (fun _ s₁ h₁ => ?_) (fun _ _ h => h.elim)
      rw [Lib.wp_pure]
      exact ⟨rfl, ⟨h₁.out, h₁.ap⟩, hsized⟩
    · cases hm
  rw [if_neg hchar] at hm ⊢
  by_cases hstr : d.conv = ch 's'
  · rw [if_pos hstr] at hm ⊢
    split at hm
    · rename_i v ap' hap
      cases hm
      rw [Lib.wp_bind, wp_vaStr hap, Lib.wp_bind]
      refine wp_mono (emits_printStr _ _ _ _) (fun _ s₁ h₁ => ?_) (fun _ _ h => h.elim)
      rw [Lib.wp_pure]
      exact ⟨rfl, ⟨h₁.out, h₁.ap⟩, hsized⟩
    · cases hm
  rw [if_neg hstr] at hm ⊢
  cases hm
  rw [if_neg hzero, Lib.wp_bind]
  refine wp_mono (emits_out _ s) (fun _ s₁ h₁ => ?_) (fun _ _ h => h.elim)
  rw [Lib.wp_pure]
  exact ⟨rfl, h₁, hsized⟩

/-! ## The parser -/

theorem flag_spec {f : Char} (hf : ch f ≠ 0) (h : At fmt i l) :
    wp (flag fmt f i) (fun r s' => s' = s ∧ r.1 = (optional f l).1 ∧ At fmt r.2 (optional f l).2)
      (fun _ _ => False) s := by
  unfold flag optional
  rw [Lib.wp_bind, wp_fetch h]
  cases l with
  | nil =>
    rw [List.headD_nil, if_neg (Ne.symm hf), Lib.wp_pure]
    exact ⟨rfl, rfl, h⟩
  | cons c l =>
    rw [List.headD_cons]
    by_cases hc : c = ch f
    · have hopt : (if c = ch f then (true, l) else (false, c :: l)) = (true, l) := if_pos hc
      rw [if_pos hc, Lib.wp_pure]
      simp only [hopt]
      exact ⟨trivial, trivial, h.next⟩
    · have hopt : (if c = ch f then (true, l) else (false, c :: l)) = (false, c :: l) := if_neg hc
      rw [if_neg hc, Lib.wp_pure]
      simp only [hopt]
      exact ⟨trivial, trivial, h⟩

theorem int_digit {v : Nat} (hc : isDigit c = true) :
    int (int v * 10 + (c.toNat - (ch '0').toNat)) =
      int ((v * 10 + (c.toNat - (ch '0').toNat) : Nat)) := by
  have hle : (ch '0').toNat ≤ c.toNat := (of_decide_eq_true hc).1
  have hmul : int (int v * 10 + (c.toNat - (ch '0').toNat)) =
      int (v * 10 + (c.toNat - (ch '0').toNat)) := by
    unfold int
    rw [← Int.bmod_add_bmod, Int.bmod_mul_bmod, Int.bmod_add_bmod]
  rw [hmul, Nat.cast_add, Nat.cast_mul, Nat.cast_sub hle]
  rfl

theorem getWidth_spec {n v : Nat} (h : At fmt i l) (hn : l.length < n) :
    wp (getWidth fmt n i (int v))
      (fun r s' => s' = s ∧ r.1 = int ((l.takeWhile isDigit).foldl
          (fun w c => w * 10 + (c.toNat - (ch '0').toNat)) v : Nat) ∧
        At fmt r.2 (l.dropWhile isDigit))
      (fun _ _ => False) s := by
  induction n generalizing i l v with
  | zero => omega
  | succ n ih =>
    unfold getWidth
    rw [Lib.wp_bind, wp_fetch h, wp_ite]
    cases l with
    | nil =>
      have hnul : isDigit 0 = false := by decide
      rw [List.headD_nil, hnul, List.takeWhile_nil, List.dropWhile_nil, List.foldl_nil, Lib.wp_pure]
      exact ⟨fun hd => absurd hd Bool.false_ne_true, fun _ => ⟨rfl, rfl, h⟩⟩
    | cons c l =>
      rw [List.headD_cons]
      constructor
      · intro hd
        rw [List.length_cons] at hn
        rw [List.takeWhile_cons_of_pos hd, List.dropWhile_cons_of_pos hd, int_digit hd]
        exact ih h.next (by omega)
      · intro hd
        rw [List.takeWhile_cons_of_neg hd, List.dropWhile_cons_of_neg hd, List.foldl_nil, Lib.wp_pure]
        exact ⟨rfl, rfl, h⟩

theorem getWidth_decimal {n : Nat} (h : At fmt i l) (hn : l.length < n) :
    wp (getWidth fmt n i 0)
      (fun r s' => s' = s ∧ r.1 = int (decimal (l.takeWhile isDigit)) ∧ At fmt r.2 (l.dropWhile isDigit))
      (fun _ _ => False) s := by
  have hspec := getWidth_spec (v := 0) (s := s) h hn
  have hzero : int (0 : Nat) = 0 := int_of_le (Int.le_refl 0) (by decide)
  rw [hzero] at hspec
  exact hspec

/-- The scan passes plain characters. -/
theorem scan_spec {n : Nat} (h : At fmt i l) (hn : l.length < n) :
    wp (scan fmt n i)
      (fun j s' => s' = s ∧ ∃ a r, l = a ++ r ∧ j = i + a.length ∧ ch '%' ∉ a ∧ At fmt j r ∧
        (r = [] ∨ ∃ r', r = ch '%' :: r'))
      (fun _ _ => False) s := by
  induction n generalizing i l with
  | zero => omega
  | succ n ih =>
    unfold scan
    rw [Lib.wp_bind, wp_fetch h, wp_ite]
    cases l with
    | nil =>
      refine ⟨fun hc => absurd rfl hc.2, fun _ => (Lib.wp_pure _).mpr ⟨rfl, [], [], rfl, rfl, ?_, h, .inl rfl⟩⟩
      exact List.not_mem_nil
    | cons c l =>
      rw [List.headD_cons]
      constructor
      · intro hc
        rw [List.length_cons] at hn
        refine wp_mono (ih h.next (by omega)) ?_ (fun _ _ h => h)
        rintro j _ ⟨rfl, a, r, rfl, rfl, ha, hat, hr⟩
        refine ⟨rfl, c :: a, r, rfl, ?_, ?_, hat, hr⟩
        · rw [List.length_cons]
          omega
        · rw [List.mem_cons, not_or]
          exact ⟨Ne.symm hc.1, ha⟩
      · intro hc
        have hzero : c ≠ 0 := fun h0 => h.noNul (List.mem_cons.mpr (.inl h0.symm))
        have hpercent : c = ch '%' := not_not.mp fun hne => hc ⟨hne, hzero⟩
        rw [Lib.wp_pure]
        refine ⟨rfl, [], c :: l, rfl, rfl, List.not_mem_nil, h, .inr ⟨l, ?_⟩⟩
        rw [hpercent]

theorem parse_plain {a r : Str} (ha : ch '%' ∉ a) : parse (a ++ r) = a.map .plain ++ parse r := by
  induction a with
  | nil => rfl
  | cons c a ih =>
    rw [List.mem_cons, not_or] at ha
    rw [List.cons_append, parse, if_neg (Ne.symm ha.1), ih ha.2]
    rfl

theorem parse_conv (r : Str) : parse (ch '%' :: r) = match directive r with
    | none => []
    | some (d, r') => .conv d :: parse r' := by
  rw [parse, if_pos rfl]
  split
  · rename_i hd
    rw [hd]
  · rename_i d r' hd
    show Piece.conv d :: parse r' = _
    rw [hd]

theorem formatted_plain {a : Str} {ps : List Piece} {args : List Arg} :
    formatted (a.map .plain ++ ps) args = (formatted ps args).map (a ++ ·) := by
  induction a with
  | nil => simp
  | cons c a ih =>
    rw [List.map_cons, List.cons_append, formatted, ih, Option.map_map]
    rfl

/-- Every number that a format prints has a width for which `buf` has a size. -/
def Sized (ps : List Piece) : Prop := ∀ d, .conv d ∈ ps → d.isNumber = true → d.Sized

/-- Every width fits in an `int`. -/
def Fit (ps : List Piece) : Prop := ∀ d, .conv d ∈ ps → d.width ≤ INT_MAX

theorem sized_cons {ps : List Piece} :
    Sized (.conv d :: ps) ↔ (d.isNumber = true → d.Sized) ∧ Sized ps := by
  unfold Sized
  simp only [List.mem_cons, Piece.conv.injEq]
  constructor
  · intro h
    exact ⟨h d (.inl rfl), fun d' hd' => h d' (.inr hd')⟩
  · rintro ⟨hd, hps⟩ d' (rfl | hd')
    · exact hd
    · exact hps d' hd'

theorem convert_nul (h : At fmt i []) {left : Bool} {width : Int} {padc : Byte} :
    wp (convert fmt i left padc width) (fun j s' => j = i - 1 ∧ s' = s) (fun _ _ => False) s := by
  have hall : ("bdDoOuUxXcs".toList.all fun f => decide (¬ (0 : Byte) = ch f)) = true := by decide
  have hne : ∀ f ∈ "bdDoOuUxXcs".toList, ¬ (0 : Byte) = ch f := fun f hf =>
    of_decide_eq_true (List.all_eq_true.mp hall f hf)
  unfold convert
  rw [Lib.wp_bind, wp_fetch h, List.headD_nil, if_neg (hne 'b' (by decide)),
    if_neg (not_or.mpr ⟨hne 'd' (by decide), hne 'D' (by decide)⟩),
    if_neg (not_or.mpr ⟨hne 'o' (by decide), hne 'O' (by decide)⟩),
    if_neg (not_or.mpr ⟨hne 'u' (by decide), hne 'U' (by decide)⟩), if_neg (hne 'x' (by decide)),
    if_neg (hne 'X' (by decide)), if_neg (hne 'c' (by decide)), if_neg (hne 's' (by decide)),
    if_pos rfl, Lib.wp_pure]
  exact ⟨rfl, rfl⟩

/-! ## `vprintfmt` -/

/-- The format is printed from any of its pieces on, by induction on the turns. -/
theorem loop_spec {n : Nat} (h : At fmt i l) (hn : l.length < n) (hfit : Fit (parse l))
    (hm : formatted (parse l) s.ap = some t) :
    wp (loop fmt n i) (fun _ s' => s'.out.flatten = s.out.flatten ++ t ∧ Sized (parse l))
      (fun e _ => e = .size ∧ ¬ Sized (parse l)) s := by
  induction n generalizing i l s t with
  | zero => omega
  | succ n ih =>
    have hlen := h.length
    unfold loop
    rw [Lib.wp_bind]
    refine wp_mono (scan_spec h (by omega)) ?_ (fun _ _ h => h.elim)
    rintro j _ ⟨rfl, a, r, rfl, rfl, ha, hat, hr⟩
    have htake : (fmt.text.drop i).take (i + a.length - i) = a := by
      rw [h.rest, Nat.add_sub_cancel_left, List.take_left]
    rw [parse_plain ha, formatted_plain, Option.map_eq_some_iff] at hm
    obtain ⟨t, hm, rfl⟩ := hm
    rw [htake, Lib.wp_bind]
    refine wp_mono (emits_out a _) (fun _ s₁ h₁ => ?_) (fun _ _ h => h.elim)
    rw [← h₁.ap] at hm
    have hsame : Sized (parse (a ++ r)) ↔ Sized (parse r) := by
      unfold Sized
      rw [parse_plain ha]
      simp
    rw [Lib.wp_bind, wp_fetch hat, hsame, ← List.append_assoc, ← h₁.out]
    rcases hr with rfl | ⟨r, rfl⟩
    · -- The end of the format.
      rw [List.headD_nil, if_pos rfl, Lib.wp_pure]
      rw [parse] at hm ⊢
      cases hm
      exact ⟨(List.append_nil _).symm, fun d hd => absurd hd List.not_mem_nil⟩
    · -- The flags and the width of a conversion.
      rw [List.headD_cons, if_neg (by decide)]
      rw [parse_conv] at hm ⊢
      rw [parse_plain ha, parse_conv] at hfit
      have hdash : ch '-' ≠ 0 := by decide
      have hzero : ch '0' ≠ 0 := by decide
      have hell : ch 'l' ≠ 0 := by decide
      rw [Lib.wp_bind]
      refine wp_mono (flag_spec hdash hat.next) ?_ (fun _ _ h => h.elim)
      rintro ⟨ladjust, i₁⟩ _ ⟨rfl, hleft, hat₁⟩
      rw [Lib.wp_bind]
      refine wp_mono (flag_spec hzero hat₁) ?_ (fun _ _ h => h.elim)
      rintro ⟨zero, i₂⟩ _ ⟨rfl, hz, hat₂⟩
      have hlen₂ := hat₂.length
      rw [Lib.wp_bind]
      refine wp_mono (getWidth_decimal hat₂ (by omega)) ?_ (fun _ _ h => h.elim)
      rintro ⟨width, i₃⟩ _ ⟨rfl, hwidth, hat₃⟩
      rw [Lib.wp_bind]
      refine wp_mono (flag_spec hell hat₃) ?_ (fun _ _ h => h.elim)
      rintro ⟨long, i₄⟩ s₂ ⟨rfl, -, hat₄⟩
      simp only at hleft hz hwidth hat₁ hat₂ hat₃ hat₄ ⊢
      have hdir : directive r = match (optional 'l' ((optional '0' (optional '-' r).2).2.dropWhile
          isDigit)).2 with
          | [] => none
          | conv :: r' => some (⟨ladjust, zero, decimal ((optional '0' (optional '-' r).2).2.takeWhile
              isDigit), conv⟩, r') := by
        rw [hleft, hz]
        rfl
      have hlen₄ := hat₄.length
      have hchunk := hat.length
      rw [List.length_append, List.length_cons] at hn
      rw [List.length_cons] at hchunk
      generalize (optional 'l' ((optional '0' (optional '-' r).2).2.dropWhile isDigit)).2 = l₄
        at hdir hat₄ hlen₄
      rw [Lib.wp_bind]
      cases l₄ with
      | nil =>
        -- The format ends inside of the conversion.
        rw [hdir] at hm ⊢
        simp only at hm ⊢
        cases hm
        refine wp_mono (convert_nul hat₄) ?_ (fun _ _ h => h.elim)
        rintro j _ ⟨rfl, rfl⟩
        rw [List.length_nil, Nat.add_zero] at hlen₄
        rw [Nat.sub_add_cancel (by omega)]
        have hend := fun s : State => ih (s := s) (t := []) hat₄ (by rw [List.length_nil]; omega)
          (by rw [parse]; exact nofun) (by rw [parse]; rfl)
        rw [parse] at hend
        exact hend _
      | cons conv r' =>
        -- The conversion, and then the rest of the format.
        generalize decimal ((optional '0' (optional '-' r).2).2.takeWhile isDigit) = v at hdir hwidth
        have hless := directive_length hdir
        rw [hdir] at hm hfit ⊢
        simp only at hm hfit ⊢
        have hw := hfit _ (List.mem_append_right _ (List.mem_cons_self ..))
        have hmax : INT_MAX = 2147483647 := rfl
        simp only at hw
        rw [int_of_le (by omega) (by omega)] at hwidth
        rw [formatted, Option.bind_eq_some_iff] at hm
        obtain ⟨⟨t₁, ap₁⟩, hmean, hm⟩ := hm
        obtain ⟨t₂, hrest, rfl⟩ := Option.map_eq_some_iff.mp hm
        rw [sized_cons, hwidth]
        have hconv := convert_spec (d := ⟨ladjust, zero, v, conv⟩) hat₄ hmean hw
        refine wp_mono hconv ?_ (fun e _ h => ⟨h.1, fun hall => ?_⟩)
        · rintro j s₃ ⟨rfl, h₃, hsized⟩
          rw [← h₃.ap] at hrest
          rw [List.length_cons] at hlen₄
          have hfit' : Fit (parse r') := fun d hd =>
            hfit d (List.mem_append_right _ (List.mem_cons_of_mem _ hd))
          refine wp_mono (ih hat₄.next (by omega) hfit' hrest) ?_ ?_
          · rintro _ s₄ ⟨hout, hsized'⟩
            refine ⟨?_, hsized, hsized'⟩
            rw [hout, h₃.out, List.append_assoc]
          · rintro e _ ⟨rfl, hnot⟩
            exact ⟨rfl, fun hall => hnot hall.2⟩
        · exact h.2.2 (hall.1 h.2.1)

/-- The bytes of the format with its arguments are passed to the callback, in order. -/
def Exact (fmt : CString) (s : State) (t : Str) : Prop :=
  ∃ s', vprintfmt fmt s = .ok () s' ∧ s'.out.flatten = s.out.flatten ++ t

/-- The output is exact if `buf` has a size at every number. Otherwise the function stops there. -/
theorem vprintfmt_exact_iff (fmt : CString) (s : State) (t : Str) (hfit : Fit (parse fmt.text))
    (hm : formatted (parse fmt.text) s.ap = some t) :
    (Exact fmt s t ↔ Sized (parse fmt.text)) ∧
      ∀ e s', vprintfmt fmt s = .error e s' → e = .size := by
  have hstart : At fmt 0 fmt.text := ⟨Nat.zero_le _, List.drop_zero⟩
  have hspec : wp (vprintfmt fmt) _ _ s :=
    loop_spec hstart (Nat.lt_succ_self fmt.text.length) hfit hm
  refine ⟨⟨?_, fun hsized => ?_⟩, fun e s' hrun => (Lib.wp_run_error hspec hrun).1⟩
  · rintro ⟨s', hrun, -⟩
    exact (Lib.wp_run_ok hspec hrun).2
  · obtain ⟨⟨⟩, s', hrun, hout, -⟩ := Lib.exists_of_wp_of_not hspec fun _ _ h => h.2 hsized
    exact ⟨s', hrun, hout⟩

theorem parse_one {r : Str} (h : directive r = some (d, [])) : parse (ch '%' :: r) = [.conv d] := by
  rw [parse_conv, h]
  simp only
  rw [parse]

theorem forall_one {P : Directive → Prop} (h : P d) : ∀ d', Piece.conv d' ∈ [.conv d] → P d' := by
  intro d' hd'
  cases List.mem_singleton.mp hd'
  exact h

def start (ap : List Arg) : State := ⟨ap, [], fun _ => 0, 0⟩

/-- `printf("%-12d", INT_MIN)` -/
theorem exact_least : Exact ⟨ch '%' :: Shell.bytes "-12d", by decide⟩ (start [.num (-2147483648)])
    (Shell.bytes "-2147483648 ") := by
  have hparse := parse_one (d := ⟨true, false, 12, ch 'd'⟩) (r := Shell.bytes "-12d") (by decide)
  refine (vprintfmt_exact_iff _ _ _ ?_ ?_).1.mpr ?_ <;> simp only [hparse]
  · exact forall_one (by decide)
  · decide +kernel
  · exact forall_one fun _ => by unfold Directive.Sized; decide

/-- The size of `buf` overflows for the widest numbers. -/
theorem not_vprintfmt_exact : ¬ ∀ (fmt : CString) (s : State) (t : Str), Fit (parse fmt.text) →
    formatted (parse fmt.text) s.ap = some t → Exact fmt s t := by
  intro h
  have hparse := parse_one (d := ⟨false, false, 2147483647, ch 'd'⟩)
    (r := Shell.bytes "2147483647d") (by decide +kernel)
  have hfit : Fit [.conv ⟨false, false, 2147483647, ch 'd'⟩] := forall_one (by decide)
  obtain ⟨t, hm⟩ : ∃ t, formatted [.conv ⟨false, false, 2147483647, ch 'd'⟩] [.num 7] = some t :=
    ⟨_, rfl⟩
  let fmt : CString := ⟨ch '%' :: Shell.bytes "2147483647d", by decide⟩
  have htext : parse fmt.text = [.conv ⟨false, false, 2147483647, ch 'd'⟩] := hparse
  have hstart : At fmt 0 fmt.text := ⟨Nat.zero_le _, List.drop_zero⟩
  rw [← htext] at hfit hm
  obtain ⟨s', hrun, -⟩ := h fmt (start [.num 7]) t hfit hm
  have hsized := (Lib.wp_run_ok (loop_spec hstart (Nat.lt_succ_self _) hfit hm) hrun).2
  rw [htext] at hsized
  have hsmall := hsized _ (List.mem_singleton.mpr rfl) (by decide)
  revert hsmall
  unfold Directive.Sized
  decide

end Mos.Print
