import Mathlib.Data.List.GetD
import Mathlib.Tactic.Common

/-!
# The lexer of the shell

Memory from the start of `buf` on is a list of bytes, a pointer into it an index and
`NULL` is `none`. What lies past the end of the list reads as a zero byte.
-/

namespace Mos.Shell

abbrev Byte := UInt8

abbrev Ptr := Option Nat

abbrev Str := List Byte

def ch (c : Char) : Byte := c.toNat.toUInt8

def bytes (s : String) : Str := s.toList.map ch

def WHITESPACE : Str := [ch ' ', ch '\t', ch '\r', ch '\n']

def SYMBOLS : Str := bytes "<|>&;()"

/-- `strchr(set, c) != 0`. The terminator of `set` is not one of its characters. -/
def strchr (set : Str) (c : Byte) : Bool := set.contains c

/-- `*s` -/
def load (buf : Str) (s : Nat) : Byte := buf.getD s 0

/-- `while (p(*s)) s++;` -/
def scan (p : Byte → Bool) (buf : Str) (s : Nat) : Nat := s + ((buf.drop s).takeWhile p).length

/-- Zero bytes from `s` up to `e`. -/
def clear (buf : Str) (s e : Nat) : Str := buf.take s ++ List.replicate (e - s) 0 ++ buf.drop e

/-- The C string at `s`. -/
def cstr (buf : Str) (s : Nat) : Str := (buf.drop s).takeWhile (· != 0)

/-- What `_gettoken` returns: 0, `'w'`, `'f'`, `'a'`, `'o'`, `'z'` or the symbol itself. -/
inductive Tok where
  | eof
  | word
  | backquote
  | and
  | or
  | append
  | less
  | great
  | pipe
  | semi
  | amp
  | paren
  deriving DecidableEq, Repr

/-- `t = *s` for a symbol that stands alone. -/
def symbol (c : Byte) : Tok :=
  if c = ch '<' then .less
  else if c = ch '>' then .great
  else if c = ch '|' then .pipe
  else if c = ch ';' then .semi
  else if c = ch '&' then .amp
  else .paren

structure Scanned where
  buf : Str
  tok : Tok
  p1 : Ptr
  p2 : Ptr

def _gettoken (buf : Str) (s : Ptr) : Scanned :=
  match s with
  | none => ⟨buf, .eof, none, none⟩
  | some s =>
    let e := scan (strchr WHITESPACE) buf s
    let buf := clear buf s e
    let s := e
    if load buf s = ch '"' then
      let s := s + 1
      let e := scan (fun c => c != 0 && c != ch '"') buf s
      ⟨buf.set e 0, .word, some s, some (e + 1)⟩
    else if load buf s = ch '\x60' then
      let buf := buf.set s 0
      let s := s + 1
      let e := scan (fun c => c != 0 && c != ch '\x60') buf s
      ⟨buf.set e 0, .backquote, some s, some (e + 1)⟩
    else if load buf s = 0 then
      ⟨buf, .eof, none, none⟩
    else if strchr SYMBOLS (load buf s) then
      if load buf (s + 1) = load buf s ∧ load buf s = ch '&' then
        ⟨buf.set (s + 1) 0, .and, some s, some (s + 2)⟩
      else if load buf (s + 1) = load buf s ∧ load buf s = ch '|' then
        ⟨buf.set (s + 1) 0, .or, some s, some (s + 2)⟩
      else if load buf (s + 1) = load buf s ∧ load buf s = ch '>' then
        ⟨buf.set (s + 1) 0, .append, some s, some (s + 2)⟩
      else
        ⟨buf.set s 0, symbol (load buf s), some s, some (s + 1)⟩
    else
      let e := scan (fun c => c != 0 && !strchr (WHITESPACE ++ SYMBOLS) c) buf s
      ⟨buf, .word, some s, some e⟩

/-! ## What a scan leaves -/

def isBackquote (c : Byte) : Bool := c == ch '\x60'

def backquotes (buf : Str) : Nat := buf.countP isBackquote

theorem scan_ge (p : Byte → Bool) (buf : Str) (s : Nat) : s ≤ scan p buf s := Nat.le_add_right ..

theorem scan_le (p : Byte → Bool) (buf : Str) (s : Nat) (h : s ≤ buf.length) :
    scan p buf s ≤ buf.length := by
  have := (List.takeWhile_prefix p (l := buf.drop s)).length_le
  unfold scan
  rw [List.length_drop] at this
  omega

theorem scan_past (p : Byte → Bool) (buf : Str) (s : Nat) (h : buf.length ≤ s) :
    scan p buf s = s := by
  unfold scan
  rw [List.drop_eq_nil_of_le h]
  rfl

theorem load_past {buf : Str} {s : Nat} (h : buf.length ≤ s) : load buf s = 0 := by
  unfold load
  rw [List.getD_eq_default _ _ h]

theorem lt_length_of_load {buf : Str} {s : Nat} (h : load buf s ≠ 0) : s < buf.length := by
  by_contra hs
  exact h (load_past (by omega))

theorem scan_step {p : Byte → Bool} {buf : Str} {s : Nat} (hs : load buf s ≠ 0)
    (h : p (load buf s) = true) : s < scan p buf s := by
  have hlt := lt_length_of_load hs
  unfold load at h
  rw [List.getD_eq_getElem _ _ hlt] at h
  unfold scan
  rw [List.drop_eq_getElem_cons hlt, List.takeWhile_cons_of_pos h, List.length_cons]
  omega

theorem scan_stop {p : Byte → Bool} (buf : Str) (s : Nat) (h0 : p 0 = false) :
    p (load buf (scan p buf s)) = false := by
  unfold scan load
  rw [List.getD_eq_getElem?_getD, ← List.getElem?_drop]
  induction buf.drop s with
  | nil => simpa using h0
  | cons c l ih =>
    by_cases hc : p c = true
    · rw [List.takeWhile_cons_of_pos hc, List.length_cons, List.getElem?_cons_succ]
      exact ih
    · rw [List.takeWhile_cons_of_neg hc]
      simpa using hc

theorem load_clear (buf : Str) (s e : Nat) (hse : s ≤ e) :
    load (clear buf s e) e = load buf e := by
  rcases Nat.lt_or_ge e buf.length with h | h
  · unfold load clear
    rw [List.getD_eq_getElem?_getD, List.getD_eq_getElem?_getD, List.getElem?_append_right]
    · simp only [List.length_append, List.length_take, List.length_replicate, List.getElem?_drop]
      congr 2
      omega
    · simp only [List.length_append, List.length_take, List.length_replicate]
      omega
  · rw [load_past h, load_past]
    unfold clear
    simp only [List.length_append, List.length_take, List.length_replicate, List.length_drop]
    omega

theorem length_clear (buf : Str) (s e : Nat) (hse : s ≤ e) (he : e ≤ buf.length ∨ e = s) :
    (clear buf s e).length = buf.length := by
  unfold clear
  simp only [List.length_append, List.length_take, List.length_replicate, List.length_drop]
  omega

theorem backquotes_clear (buf : Str) (s e : Nat) (hse : s ≤ e) :
    backquotes (clear buf s e) ≤ backquotes buf := by
  have hsplit : backquotes buf = backquotes (buf.take s) + backquotes (buf.drop s) := by
    unfold backquotes
    rw [← List.countP_append, List.take_append_drop]
  have hdrop : backquotes (buf.drop e) ≤ backquotes (buf.drop s) := by
    have he : e = s + (e - s) := by omega
    unfold backquotes
    rw [he, ← List.drop_drop]
    exact (List.drop_sublist _ _).countP_le
  have hzero : backquotes (List.replicate (e - s) 0) = 0 := by
    unfold backquotes
    rw [List.countP_replicate, if_neg (by decide)]
  unfold clear
  have : backquotes (buf.take s ++ List.replicate (e - s) 0 ++ buf.drop e) =
      backquotes (buf.take s) + backquotes (List.replicate (e - s) 0) +
        backquotes (buf.drop e) := by
    unfold backquotes
    rw [List.countP_append, List.countP_append]
  omega

theorem backquotes_set (buf : Str) (i : Nat) : backquotes (buf.set i 0) ≤ backquotes buf := by
  unfold backquotes
  by_cases hi : i < buf.length
  · rw [List.countP_set hi]
    have : isBackquote 0 = false := by decide
    simp [this]
  · have : buf.set i 0 = buf := List.set_eq_of_length_le (by omega)
    exact Nat.le_of_eq (congrArg _ this)

theorem backquotes_set_self {buf : Str} {i : Nat} (h : load buf i = ch '\x60') :
    backquotes (buf.set i 0) + 1 ≤ backquotes buf := by
  have hi : i < buf.length := lt_length_of_load (by rw [h]; decide)
  have hb : isBackquote buf[i] = true := by
    unfold load at h
    rw [List.getD_eq_getElem _ _ hi] at h
    rw [h]
    decide
  have hpos : 0 < buf.countP isBackquote := List.countP_pos_iff.mpr ⟨_, List.getElem_mem hi, hb⟩
  unfold backquotes
  rw [List.countP_set hi]
  have : isBackquote 0 = false := by decide
  simp only [hb, this, if_true, Bool.false_eq_true, if_false]
  omega

/-- What is left to scan behind `p2`. -/
def left (n : Nat) (p2 : Ptr) : Nat := p2.elim 0 fun s => n + 2 - s

/-- What a scan from `s` leaves to do. -/
structure Scanned.Fits (r : Scanned) (buf : Str) (s : Nat) : Prop where
  length : r.buf.length = buf.length
  quotes : backquotes r.buf + (if r.tok = .backquote then 1 else 0) ≤ backquotes buf
  word : r.tok ≠ .eof → r.p1.isSome = true
  eof : r.tok = .eof → r.p2 = none
  moves : r.tok ≠ .eof → ∃ e, r.p2 = some e ∧ s < e ∧ e ≤ buf.length + 1

theorem gettoken_fits (buf : Str) (s : Nat) : (_gettoken buf (some s)).Fits buf s := by
  have hle := scan_ge (strchr WHITESPACE) buf s
  have hend : scan (strchr WHITESPACE) buf s ≤ buf.length ∨ scan (strchr WHITESPACE) buf s = s := by
    rcases Nat.le_total s buf.length with h | h
    · exact Or.inl (scan_le _ _ _ h)
    · exact Or.inr (scan_past _ _ _ h)
  have hlen := length_clear buf s (scan (strchr WHITESPACE) buf s) hle hend
  have hbq := backquotes_clear buf s (scan (strchr WHITESPACE) buf s) hle
  have hstop := scan_stop buf s (p := strchr WHITESPACE) (by decide)
  rw [← load_clear buf s _ hle] at hstop
  unfold _gettoken
  simp only
  generalize clear buf s (scan (strchr WHITESPACE) buf s) = b at *
  generalize scan (strchr WHITESPACE) buf s = e at *
  -- A token starts at `e`, inside the memory.
  have hin : load b e ≠ 0 → e < b.length := lt_length_of_load
  have hnext : ∀ i, load b (i + 1) = load b i → load b i ≠ 0 → i + 1 < b.length := by
    intro i h h0
    exact lt_length_of_load (by rwa [h])
  have hset : ∀ i, backquotes (b.set i 0) ≤ backquotes buf := fun i =>
    Nat.le_trans (backquotes_set b i) hbq
  split
  · rename_i hq
    have hz := hin (by rw [hq]; decide)
    have hge := scan_ge (fun c => c != 0 && c != ch '"') b (e + 1)
    have hle := scan_le (fun c => c != 0 && c != ch '"') b (e + 1) (by omega)
    exact ⟨by simpa using hlen, by simpa using hset _, fun _ => rfl, nofun,
      fun _ => ⟨_, rfl, by omega, by omega⟩⟩
  · split
    · rename_i hq
      have hz := hin (by rw [hq]; decide)
      have hge := scan_ge (fun c => c != 0 && c != ch '\x60') (b.set e 0) (e + 1)
      have hle := scan_le (fun c => c != 0 && c != ch '\x60') (b.set e 0) (e + 1)
        (by rw [List.length_set]; omega)
      rw [List.length_set] at hle
      refine ⟨by simpa using hlen, ?_, fun _ => rfl, nofun, fun _ => ⟨_, rfl, by omega, by omega⟩⟩
      have h1 := backquotes_set_self hq
      have h2 := backquotes_set (b.set e 0)
        (scan (fun c => c != 0 && c != ch '\x60') (b.set e 0) (e + 1))
      simp only [if_true]
      omega
    · split
      · exact ⟨hlen, by simpa using hbq, fun h => absurd rfl h, fun _ => rfl, fun h => absurd rfl h⟩
      · rename_i hz
        have hlt := hin hz
        split
        · split
          · rename_i h2
            have := hnext e h2.1 hz
            exact ⟨by simpa using hlen, by simpa using hset _, fun _ => rfl, nofun,
              fun _ => ⟨_, rfl, by omega, by omega⟩⟩
          · split
            · rename_i h2
              have := hnext e h2.1 hz
              exact ⟨by simpa using hlen, by simpa using hset _, fun _ => rfl, nofun,
                fun _ => ⟨_, rfl, by omega, by omega⟩⟩
            · split
              · rename_i h2
                have := hnext e h2.1 hz
                exact ⟨by simpa using hlen, by simpa using hset _, fun _ => rfl, nofun,
                  fun _ => ⟨_, rfl, by omega, by omega⟩⟩
              · have hsym : symbol (load b e) ≠ .backquote ∧ symbol (load b e) ≠ .eof := by
                  unfold symbol
                  split_ifs <;> simp
                exact ⟨by simpa using hlen, by simpa [hsym.1] using hset _, fun _ => rfl,
                  fun h => absurd h hsym.2, fun _ => ⟨_, rfl, by omega, by omega⟩⟩
        · rename_i hq hb hsym
          have hw : load b e ∉ WHITESPACE := by simpa [strchr] using hstop
          have hn : load b e ∉ SYMBOLS := by simpa [strchr] using hsym
          have hstep : e < scan (fun c => c != 0 && !strchr (WHITESPACE ++ SYMBOLS) c) b e :=
            scan_step hz (by simp [strchr, hz, hw, hn])
          have hle := scan_le (fun c => c != 0 && !strchr (WHITESPACE ++ SYMBOLS) c) b e
            (by omega)
          exact ⟨hlen, by simpa using hbq, fun _ => rfl, nofun,
            fun _ => ⟨_, rfl, by omega, by omega⟩⟩

end Mos.Shell
