import Mos.Lib.Program
import Mos.Lib.System
import Mos.Shell.Line
import Mathlib.Data.List.TakeWhile

/-!
# What the lexer reads and writes

`_gettoken` and `gettoken` byte by byte, with a record of the bytes they touch. A line is
a string with its terminator, and memory goes on behind it.
-/

namespace Mos.Shell

open Lib (System wp wp_mono wp_ite)

/-! ## Byte by byte -/

/-- The memory and the bytes that have been read or written. -/
structure Tape where
  buf : Str
  touched : List Nat

/-- Functions of the lexer, which cannot fail. -/
abbrev Lex := EStateM Empty Tape

namespace Lex

/-- `*s`, as a value. -/
def peek (s : Nat) : Lex Byte := do
  modify fun t => { t with touched := s :: t.touched }
  return load (← get).buf s

/-- `*s = c` -/
def poke (s : Nat) (c : Byte) : Lex Unit := modify fun t => ⟨t.buf.set s c, s :: t.touched⟩

/-- `while (strchr(WHITESPACE, *s)) *s++ = 0;`, for `n` turns at most. -/
def blank : Nat → Nat → Lex Nat
  | 0, s => return s
  | n + 1, s => do
    if strchr WHITESPACE (← peek s) then
      poke s 0
      blank n (s + 1)
    else
      return s

/-- `while (p(*s)) s++;`, for `n` turns at most. -/
def skip (p : Byte → Bool) : Nat → Nat → Lex Nat
  | 0, s => return s
  | n + 1, s => do
    if p (← peek s) then
      skip p n (s + 1)
    else
      return s

/-- A loop ends at a zero byte, so at the latest behind the memory. -/
def turns : Lex Nat := return (← get).buf.length + 1

/-- The end of a symbol `t` whose last byte is at `s`. -/
def symbolEnd (p1 s : Nat) (t : Tok) : Lex (Tok × Ptr × Ptr) := do
  poke s 0
  return (t, some p1, some (s + 1))

/-- A quoted token, from the byte after the quote on. -/
def quoted (q : Byte) (t : Tok) (s : Nat) : Lex (Tok × Ptr × Ptr) := do
  let e ← skip (fun c => c != 0 && c != q) (← turns) s
  poke e 0
  return (t, some s, some (e + 1))

/-- `_gettoken` behind the blanks. -/
def token (s : Nat) : Lex (Tok × Ptr × Ptr) := do
  let c ← peek s
  if c = ch '"' then
    quoted (ch '"') .word (s + 1)
  else if c = ch '\x60' then
    poke s 0
    quoted (ch '\x60') .backquote (s + 1)
  else if c = 0 then
    return (.eof, none, none)
  else if strchr SYMBOLS c then
    let c1 ← peek (s + 1)
    if c1 = c ∧ c = ch '&' then
      symbolEnd s (s + 1) .and
    else if c1 = c ∧ c = ch '|' then
      symbolEnd s (s + 1) .or
    else if c1 = c ∧ c = ch '>' then
      symbolEnd s (s + 1) .append
    else
      symbolEnd s s (symbol c)
  else
    let e ← skip (fun c => c != 0 && !strchr (WHITESPACE ++ SYMBOLS) c) (← turns) s
    return (.word, some s, some e)

def _gettoken (s : Ptr) : Lex (Tok × Ptr × Ptr) := do
  match s with
  | none => return (.eof, none, none)
  | some s => token (← blank (← turns) s)

end Lex

/-! ## The same results -/

/-- From `t` to `t'` no byte behind `hi` was touched. -/
structure Tape.Upto (hi : Nat) (t t' : Tape) : Prop where
  keeps : ∀ i ∈ t.touched, i ∈ t'.touched
  upto : ∀ i ∈ t'.touched, i ∈ t.touched ∨ i ≤ hi

namespace Tape.Upto

variable {hi i : Nat} {t t' t'' : Tape}

theorem refl (hi : Nat) (t : Tape) : t.Upto hi t := ⟨fun _ h => h, fun _ h => Or.inl h⟩

theorem trans (h : t.Upto hi t') (h' : t'.Upto hi t'') : t.Upto hi t'' where
  keeps i hi := h'.keeps i (h.keeps i hi)
  upto i hi := by
    rcases h'.upto i hi with ht | hle
    · exact h.upto i ht
    · exact Or.inr hle

theorem mono {hi' : Nat} (h : t.Upto hi t') (hle : hi ≤ hi') : t.Upto hi' t' where
  keeps := h.keeps
  upto i hi := (h.upto i hi).imp_right fun hi => Nat.le_trans hi hle

theorem touch (t : Tape) (buf : Str) (hle : i ≤ hi) : t.Upto hi ⟨buf, i :: t.touched⟩ where
  keeps _ h := List.mem_cons_of_mem _ h
  upto j h := by
    rcases List.mem_cons.mp h with rfl | h
    · exact Or.inr hle
    · exact Or.inl h

end Tape.Upto

namespace Lex

variable {t : Tape} {s : Nat}

theorem wp_peek {Q : Byte → Tape → Prop} {E : Empty → Tape → Prop} :
    wp (peek s) Q E t ↔ Q (load t.buf s) ⟨t.buf, s :: t.touched⟩ := by
  unfold peek
  simp only [Lib.wp_bind, Lib.wp_modify, Lib.wp_get, Lib.wp_pure]

theorem wp_poke {c : Byte} {Q : Unit → Tape → Prop} {E : Empty → Tape → Prop} :
    wp (poke s c) Q E t ↔ Q () ⟨t.buf.set s c, s :: t.touched⟩ := Lib.wp_modify _

theorem wp_turns {Q : Nat → Tape → Prop} {E : Empty → Tape → Prop} :
    wp turns Q E t ↔ Q (t.buf.length + 1) t := by
  unfold turns
  simp only [Lib.wp_bind, Lib.wp_get, Lib.wp_pure]

theorem scan_succ {p : Byte → Bool} {buf : Str} (hp0 : p 0 = false) :
    scan p buf s = if p (load buf s) then scan p buf (s + 1) else s := by
  by_cases hlt : s < buf.length
  · unfold scan load
    rw [List.getD_eq_getElem _ _ hlt, List.drop_eq_getElem_cons hlt]
    split
    · rename_i hp
      rw [List.takeWhile_cons_of_pos hp, List.length_cons]
      omega
    · rename_i hp
      rw [List.takeWhile_cons_of_neg hp]
      rfl
  · rw [load_past (by omega), hp0, scan_past _ _ _ (by omega)]
    rfl

theorem skip_spec {p : Byte → Bool} (hp0 : p 0 = false) {n : Nat} (hn : 0 < n)
    (hlen : t.buf.length < s + n) :
    wp (skip p n s) (fun e t' => e = scan p t.buf s ∧ t'.buf = t.buf ∧ t.Upto e t')
      (fun _ _ => False) t := by
  induction n generalizing s t with
  | zero => omega
  | succ n ih =>
    have hge := scan_ge p t.buf (s + 1)
    unfold skip
    rw [Lib.wp_bind, wp_peek, wp_ite, scan_succ hp0]
    refine ⟨fun hp => ?_, fun hp => ?_⟩
    · have hlt : s < t.buf.length := lt_length_of_load fun h0 => by
        rw [h0, hp0] at hp
        exact Bool.noConfusion hp
      rw [if_pos hp]
      refine wp_mono (ih (t := ⟨t.buf, s :: t.touched⟩) (by omega) (by dsimp only; omega)) ?_
        fun _ _ h => h
      rintro e t' ⟨rfl, hbuf, hup⟩
      exact ⟨rfl, hbuf, (Tape.Upto.touch t t.buf (by dsimp only; omega)).trans hup⟩
    · rw [if_neg hp, Lib.wp_pure]
      exact ⟨rfl, rfl, .touch t t.buf (Nat.le_refl s)⟩

theorem clear_self (buf : Str) (s : Nat) : clear buf s s = buf := by
  unfold clear
  rw [Nat.sub_self, List.replicate_zero, List.append_nil, List.take_append_drop]

theorem scan_set {p : Byte → Bool} {buf : Str} {c : Byte} :
    scan p (buf.set s c) (s + 1) = scan p buf (s + 1) := by
  unfold scan
  rw [List.drop_set_of_lt (by omega)]

theorem clear_set {buf : Str} {e : Nat} (hs : s < buf.length) (he : s + 1 ≤ e) :
    clear (buf.set s 0) (s + 1) e = clear buf s e := by
  have hk : e - s = (e - (s + 1)) + 1 := by omega
  have hlen : (buf.take s).length = s := by
    rw [List.length_take]
    omega
  have htake : (buf.set s 0).take (s + 1) = buf.take s ++ [0] := by
    rw [List.take_set, List.take_succ_eq_append_getElem hs,
      List.set_append_right _ _ (Nat.le_of_eq hlen), hlen, Nat.sub_self]
    rfl
  unfold clear
  rw [htake, List.drop_set_of_lt (by omega), hk, List.replicate_succ]
  simp only [List.append_assoc, List.cons_append, List.nil_append]

theorem blank_spec {n : Nat} (hn : 0 < n) (hlen : t.buf.length < s + n) :
    wp (blank n s)
      (fun e t' => e = scan (strchr WHITESPACE) t.buf s ∧ t'.buf = clear t.buf s e ∧
        t.Upto e t' ∧ s ∈ t'.touched)
      (fun _ _ => False) t := by
  induction n generalizing s t with
  | zero => omega
  | succ n ih =>
    have hge := scan_ge (strchr WHITESPACE) t.buf (s + 1)
    unfold blank
    rw [Lib.wp_bind, wp_peek, wp_ite, scan_succ (by decide)]
    refine ⟨fun hp => ?_, fun hp => ?_⟩
    · have hlt : s < t.buf.length := lt_length_of_load fun h0 => by
        rw [h0] at hp
        exact Bool.noConfusion hp
      rw [Lib.wp_bind, wp_poke, if_pos hp]
      refine wp_mono (ih (t := ⟨t.buf.set s 0, s :: s :: t.touched⟩) (by omega)
        (by dsimp only; rw [List.length_set]; omega)) ?_ fun _ _ h => h
      rintro e t' ⟨rfl, hbuf, hup, -⟩
      dsimp only at hbuf hup ⊢
      rw [scan_set] at hbuf hup ⊢
      refine ⟨rfl, hbuf.trans (clear_set hlt hge), ?_, hup.keeps s List.mem_cons_self⟩
      have h1 : t.Upto (scan (strchr WHITESPACE) t.buf (s + 1)) ⟨t.buf, s :: t.touched⟩ :=
        .touch t t.buf (by omega)
      exact (h1.trans (.touch _ (t.buf.set s 0) (by omega))).trans hup
    · rw [if_neg hp, Lib.wp_pure, clear_self]
      exact ⟨rfl, rfl, .touch t t.buf (Nat.le_refl s), List.mem_cons_self⟩

theorem quoted_spec {q : Byte} {k : Tok} :
    wp (quoted q k s)
      (fun r t' => ∃ e, e = scan (fun c => c != 0 && c != q) t.buf s ∧
        r = (k, some s, some (e + 1)) ∧ t'.buf = t.buf.set e 0 ∧ t.Upto e t')
      (fun _ _ => False) t := by
  unfold quoted
  simp only [Lib.wp_bind, wp_turns]
  refine wp_mono (skip_spec (by simp) (Nat.succ_pos _) (by omega)) ?_ fun _ _ h => h
  rintro e t' ⟨rfl, hbuf, hup⟩
  rw [wp_poke, Lib.wp_pure, hbuf]
  exact ⟨_, rfl, rfl, rfl, hup.trans (.touch t' _ (Nat.le_refl _))⟩

/-- The result of `_gettoken` behind the blanks. -/
def tokenAt (buf : Str) (s : Nat) : Scanned :=
  if load buf s = ch '"' then
    let e := scan (fun c => c != 0 && c != ch '"') buf (s + 1)
    ⟨buf.set e 0, .word, some (s + 1), some (e + 1)⟩
  else if load buf s = ch '\x60' then
    let buf := buf.set s 0
    let e := scan (fun c => c != 0 && c != ch '\x60') buf (s + 1)
    ⟨buf.set e 0, .backquote, some (s + 1), some (e + 1)⟩
  else if load buf s = 0 then
    ⟨buf, .eof, none, none⟩
  else if strchr SYMBOLS (load buf s) then
    if load buf (s + 1) = load buf s ∧ load buf s = ch '&' then
      ⟨buf.set (s + 1) 0, .and, some s, some (s + 2)⟩
    else if load buf (s + 1) = load buf s ∧ load buf s = ch '|' then
      ⟨buf.set (s + 1) 0, .or, some s, some (s + 2)⟩
    else if load buf (s + 1) = load buf s ∧ load buf s = ch '>' then
      ⟨buf.set (s + 1) 0, .append, some s, some (s + 2)⟩
    else
      ⟨buf.set s 0, symbol (load buf s), some s, some (s + 1)⟩
  else
    let e := scan (fun c => c != 0 && !strchr (WHITESPACE ++ SYMBOLS) c) buf s
    ⟨buf, .word, some s, some e⟩

theorem gettoken_eq (buf : Str) (s : Nat) : Shell._gettoken buf (some s) =
    tokenAt (clear buf s (scan (strchr WHITESPACE) buf s)) (scan (strchr WHITESPACE) buf s) := rfl

theorem tokenAt_p2 (buf : Str) (s : Nat) : s ≤ (tokenAt buf s).p2.getD s := by
  have hge := fun p b => scan_ge p b (s + 1)
  have hw := scan_ge (fun c => c != 0 && !strchr (WHITESPACE ++ SYMBOLS) c) buf s
  unfold tokenAt
  split_ifs
  · exact Nat.le_succ_of_le (Nat.le_of_succ_le (hge _ _))
  · exact Nat.le_succ_of_le (Nat.le_of_succ_le (hge _ _))
  · exact Nat.le_refl s
  · exact Nat.le_add_right s 2
  · exact Nat.le_add_right s 2
  · exact Nat.le_add_right s 2
  · exact Nat.le_succ s
  · exact hw

/-- What a scan returns, and that it goes to the end of the token, or to `s` if there is none. -/
def Reads (r : Scanned) (s : Nat) (t : Tape) (x : Tok × Ptr × Ptr) (t' : Tape) : Prop :=
  ⟨t'.buf, x.1, x.2.1, x.2.2⟩ = r ∧ t.Upto (x.2.2.getD s) t'

theorem Reads.after {r : Scanned} {t₁ t' : Tape} {x : Tok × Ptr × Ptr} (h : Reads r s t₁ x t')
    (hup : t.Upto (r.p2.getD s) t₁) : Reads r s t x t' := by
  have hp2 : x.2.2 = r.p2 := congrArg Scanned.p2 h.1
  exact ⟨h.1, (hp2 ▸ hup).trans h.2⟩

theorem symbolEnd_spec {p1 e : Nat} {k : Tok} (_ : s ≤ e) :
    wp (symbolEnd p1 e k) (Reads ⟨t.buf.set e 0, k, some p1, some (e + 1)⟩ s t) (fun _ _ => False) t := by
  unfold symbolEnd
  rw [Lib.wp_bind, wp_poke, Lib.wp_pure]
  exact ⟨rfl, .touch t _ (Nat.le_succ e)⟩

theorem token_spec (t : Tape) (s : Nat) :
    wp (token s) (Reads (tokenAt t.buf s) s t) (fun _ _ => False) t := by
  have hpeek := Tape.Upto.touch t t.buf (Nat.le_refl s)
  unfold token tokenAt
  simp only [Lib.wp_bind, wp_peek, wp_ite, wp_turns, wp_poke, Lib.wp_pure]
  refine ⟨fun hq => ?_, fun hq => ⟨fun hb => ?_, fun hb => ⟨fun h0 => ?_, fun h0 => ⟨fun hs => ?_,
    fun hs => ?_⟩⟩⟩⟩
  · rw [if_pos hq]
    refine wp_mono quoted_spec ?_ fun _ _ h => h
    rintro _ t' ⟨e, rfl, rfl, hbuf, hup⟩
    have hge := scan_ge (fun c => c != 0 && c != ch '"') t.buf (s + 1)
    dsimp only at hbuf hup ⊢
    refine ⟨by rw [hbuf], (hpeek.mono ?_).trans (hup.mono ?_)⟩
    · exact Nat.le_trans (Nat.le_succ s) (Nat.le_succ_of_le hge)
    · exact Nat.le_succ _
  · rw [if_neg hq, if_pos hb]
    refine wp_mono quoted_spec ?_ fun _ _ h => h
    rintro _ t' ⟨e, rfl, rfl, hbuf, hup⟩
    have hge := scan_ge (fun c => c != 0 && c != ch '\x60') (t.buf.set s 0) (s + 1)
    dsimp only at hbuf hup ⊢
    refine ⟨by rw [hbuf], Tape.Upto.trans ?_ (hup.mono ?_)⟩
    · have hle : s ≤ scan (fun c => c != 0 && c != ch '\x60') (t.buf.set s 0) (s + 1) + 1 := by omega
      exact (hpeek.mono hle).trans (.touch _ _ hle)
    · exact Nat.le_succ _
  · rw [if_neg hq, if_neg hb, if_pos h0]
    exact ⟨rfl, hpeek⟩
  · have hpeek₁ := (hpeek.mono (Nat.le_succ s)).trans
      (.touch ⟨t.buf, s :: t.touched⟩ t.buf (Nat.le_refl (s + 1)))
    have double : ∀ k, wp (symbolEnd s (s + 1) k)
        (Reads ⟨t.buf.set (s + 1) 0, k, some s, some (s + 2)⟩ s t) (fun _ _ => False)
        ⟨t.buf, (s + 1) :: s :: t.touched⟩ := fun k =>
      wp_mono (symbolEnd_spec (Nat.le_succ s))
        (fun _ _ h => h.after (hpeek₁.mono (Nat.le_succ _))) fun _ _ h => h
    rw [if_neg hq, if_neg hb, if_neg h0, if_pos hs]
    refine ⟨fun h1 => ?_, fun h1 => ⟨fun h2 => ?_, fun h2 => ⟨fun h3 => ?_, fun h3 => ?_⟩⟩⟩
    · rw [if_pos h1]
      exact double .and
    · rw [if_neg h1, if_pos h2]
      exact double .or
    · rw [if_neg h1, if_neg h2, if_pos h3]
      exact double .append
    · rw [if_neg h1, if_neg h2, if_neg h3]
      exact wp_mono (symbolEnd_spec (Nat.le_refl s)) (fun _ _ h => h.after hpeek₁) fun _ _ h => h
  · rw [if_neg hq, if_neg hb, if_neg h0, if_neg hs]
    refine wp_mono (skip_spec (by decide) (Nat.succ_pos _) (by dsimp only; omega)) ?_ fun _ _ h => h
    rintro e t' ⟨rfl, hbuf, hup⟩
    have hge := scan_ge (fun c => c != 0 && !strchr (WHITESPACE ++ SYMBOLS) c) t.buf s
    exact ⟨by rw [hbuf], (hpeek.mono hge).trans hup⟩

theorem gettoken_spec (t : Tape) (s : Nat) :
    wp (_gettoken (some s))
      (fun x t' => Reads (Shell._gettoken t.buf (some s)) (scan (strchr WHITESPACE) t.buf s) t x t' ∧
        s ∈ t'.touched)
      (fun _ _ => False) t := by
  unfold _gettoken
  rw [Lib.wp_bind, wp_turns, Lib.wp_bind]
  refine wp_mono (blank_spec (Nat.succ_pos _) (by omega)) ?_ fun _ _ h => h
  rintro e t₁ ⟨rfl, hbuf, hup, hfirst⟩
  rw [gettoken_eq, ← hbuf]
  exact wp_mono (token_spec t₁ _)
    (fun x t' h => ⟨h.after (hup.mono (tokenAt_p2 _ _)), h.2.keeps s hfirst⟩) fun _ _ h => h

end Lex

/-! ## Lines -/

/-- What is left of a line behind its first token: nothing if there is no token, `unclosed` if the
token is a quote that is not closed. -/
inductive Behind where
  | nothing
  | unclosed
  | rest (l : Str)
  deriving DecidableEq, Repr

/-- What is left behind the next `q`. -/
def behindQuote (q : Byte) (l : Str) : Behind :=
  match l.dropWhile (· != q) with
  | [] => .unclosed
  | _ :: l => .rest l

/-- What is left behind an operator that starts with `c`. -/
def behindSymbol (c : Byte) (l : Str) : Str :=
  if l.head? = some c ∧ (c = ch '&' ∨ c = ch '|' ∨ c = ch '>') then l.tail else l

def behind (line : Str) : Behind :=
  match line.dropWhile (strchr WHITESPACE) with
  | [] => .nothing
  | c :: l =>
    if c = ch '"' then behindQuote (ch '"') l
    else if c = ch '\x60' then behindQuote (ch '\x60') l
    else if strchr SYMBOLS c then .rest (behindSymbol c l)
    else .rest (l.dropWhile wordByte)

/-- Every quote and every backquote that opens a token of the line is closed. -/
inductive Closed : Str → Prop
  | done {l : Str} (h : behind l = .nothing) : Closed l
  | token {l l' : Str} (h : behind l = .rest l') (hl : Closed l') : Closed l

/-- The scan of `line` behind `done`, of which `line'` is left. -/
structure Consumed (done line junk line' : Str) (r : Scanned) : Prop where
  left : ∃ done', r.buf = done' ++ (line' ++ 0 :: junk) ∧ r.p2 = some done'.length ∧
    done'.length + line'.length = done.length + line.length
  token : r.tok ≠ .eof
  start : ∃ p, r.p1 = some p ∧ p < done.length + line.length
  shorter : line'.length < line.length

theorem Consumed.blank {done gap line junk line' : Str} {r : Scanned}
    (h : Consumed (done ++ List.replicate gap.length 0) line junk line' r) :
    Consumed done (gap ++ line) junk line' r := by
  have hlen : (done ++ List.replicate gap.length (0 : Byte)).length + line.length =
      done.length + (gap ++ line).length := by
    simp only [List.length_append, List.length_replicate]
    omega
  obtain ⟨⟨d, hbuf, hp2, hd⟩, htok, ⟨p, hp, hlt⟩, hs⟩ := h
  refine ⟨⟨d, hbuf, hp2, hd.trans hlen⟩, htok, ⟨p, hp, hlen ▸ hlt⟩, ?_⟩
  rw [List.length_append]
  omega

theorem behindQuote_cases (q : Byte) (l : Str) :
    (behindQuote q l = .unclosed ∧ ∀ c ∈ l, c ≠ q) ∨
      ∃ text l', behindQuote q l = .rest l' ∧ l = text ++ q :: l' ∧ ∀ c ∈ text, c ≠ q := by
  have htext : ∀ c ∈ l.takeWhile (· != q), c ≠ q := fun c hc => by
    simpa using List.mem_takeWhile_imp hc
  have hsplit := List.takeWhile_append_dropWhile (p := (· != q)) (l := l)
  unfold behindQuote
  cases hd : l.dropWhile (· != q) with
  | nil =>
    rw [hd, List.append_nil] at hsplit
    exact Or.inl ⟨rfl, hsplit ▸ htext⟩
  | cons c l' =>
    have hc : c = q := by
      have := List.head_dropWhile_not (· != q) (l := l) (by simp [hd])
      simp only [hd, List.head_cons] at this
      simpa using this
    subst hc
    exact Or.inr ⟨_, l', rfl, (hd ▸ hsplit).symm, htext⟩

theorem scan_quote {q : Byte} (done : Str) (c : Byte) {text rest : Str} (h0 : 0 ∉ text)
    (hq : ∀ x ∈ text, x ≠ q) (hr : ∀ x, rest.head? = some x → x = 0 ∨ x = q) :
    scan (fun x => x != 0 && x != q) (done ++ c :: (text ++ rest)) (done.length + 1) =
      done.length + 1 + text.length := by
  have hin : ∀ x ∈ text, (x != 0 && x != q) = true := fun x hx => by
    have : x ≠ 0 := fun h => h0 (h ▸ hx)
    simp [this, hq x hx]
  have hstop : ∀ x, rest.head? = some x → (x != 0 && x != q) = false := fun x hx => by
    rcases hr x hx with rfl | rfl
    · rfl
    · simp
  have h := scan_append (done ++ [c]) hin hstop
  rw [List.append_assoc, List.length_append] at h
  exact h

/-- A closed quote, where `k` is what has become of its first byte. -/
theorem quote_taken {q c k : Byte} {t : Tok} (ht : t ≠ .eof) (done : Str) {l junk l' : Str}
    (h0 : 0 ∉ l) (h : behindQuote q l = .rest l') :
    Consumed done (c :: l) junk l'
      (let buf := done ++ k :: (l ++ 0 :: junk)
       let e := scan (fun x => x != 0 && x != q) buf (done.length + 1)
       ⟨buf.set e 0, t, some (done.length + 1), some (e + 1)⟩) := by
  obtain ⟨hno, -⟩ | ⟨text, l'', hrest, rfl, htext⟩ := behindQuote_cases q l
  · exact nomatch hno.symm.trans h
  obtain rfl : l'' = l' := Behind.rest.inj (hrest.symm.trans h)
  have hr : ∀ x, (q :: l'' ++ 0 :: junk).head? = some x → x = 0 ∨ x = q :=
    fun x hx => Or.inr (Option.some.inj hx).symm
  have hscan := scan_quote done k (fun h => h0 (List.mem_append_left _ h)) htext hr
  rw [← List.append_assoc] at hscan
  have hset := set_append (done ++ k :: text) (l'' ++ 0 :: junk) q 0
  have hlen : (done ++ k :: text).length = done.length + 1 + text.length := by
    rw [List.length_append, List.length_cons]
    omega
  dsimp only
  rw [hscan]
  refine ⟨⟨done ++ k :: text ++ [0], ?_, ?_, ?_⟩, ht, ⟨_, rfl, ?_⟩, ?_⟩
  · rw [hlen] at hset
    simpa [List.append_assoc] using hset
  · rw [List.length_append, hlen]
    rfl
  · simp only [List.length_append, List.length_cons, List.length_nil]
    omega
  · simp only [List.length_append, List.length_cons]
    omega
  · simp only [List.length_append, List.length_cons]
    omega

theorem quote_unclosed {q c k : Byte} (done : Str) {l junk : Str} (h0 : 0 ∉ l)
    (h : behindQuote q l = .unclosed) :
    scan (fun x => x != 0 && x != q) (done ++ k :: (l ++ 0 :: junk)) (done.length + 1) =
      done.length + (c :: l).length := by
  obtain ⟨-, hq⟩ | ⟨text, l', hrest, -, -⟩ := behindQuote_cases q l
  · have hr : ∀ x, (0 :: junk).head? = some x → x = 0 ∨ x = q :=
      fun x hx => Or.inl (Option.some.inj hx).symm
    rw [scan_quote done k h0 hq hr, List.length_cons]
    omega
  · exact nomatch hrest.symm.trans h

theorem symbol_taken {c : Byte} {l junk : Str} (done : Str) (hc : strchr SYMBOLS c = true)
    (hq : c ≠ ch '"') (hb : c ≠ ch '\x60') (h0 : c ≠ 0) :
    Consumed done (c :: l) junk (behindSymbol c l)
      (Lex.tokenAt (done ++ c :: (l ++ 0 :: junk)) done.length) := by
  have hload := load_append done (l ++ 0 :: junk) c
  have hload1 : load (done ++ c :: (l ++ 0 :: junk)) (done.length + 1) = (l ++ 0 :: junk).head?.getD 0 := by
    have := load_cases (done ++ [c]) (l ++ 0 :: junk)
    rw [List.append_assoc, List.length_append] at this
    exact this
  have hlen : done.length + 1 ≤ done.length + (c :: l).length := by
    rw [List.length_cons]
    omega
  have double : ∀ k : Tok, k ≠ .eof → l.head? = some c → (c = ch '&' ∨ c = ch '|' ∨ c = ch '>') →
      Consumed done (c :: l) junk (behindSymbol c l)
        ⟨(done ++ c :: (l ++ 0 :: junk)).set (done.length + 1) 0, k, some done.length,
          some (done.length + 2)⟩ := by
    intro k hk hhead hop
    obtain ⟨l', rfl⟩ : ∃ l', l = c :: l' := by
      rcases l with _ | ⟨x, l'⟩
      · exact nomatch hhead
      · exact ⟨l', by rw [Option.some.inj hhead]⟩
    have hset := set_append (done ++ [c]) (l' ++ 0 :: junk) c 0
    rw [List.append_assoc, List.length_append] at hset
    unfold behindSymbol
    rw [if_pos ⟨hhead, hop⟩]
    refine ⟨⟨done ++ [c, 0], ?_, ?_, ?_⟩, hk, ⟨_, rfl, ?_⟩, ?_⟩
    · exact hset.trans (by simp)
    · rw [List.length_append]
      rfl
    · simp only [List.length_append, List.length_cons, List.length_nil, List.tail_cons]
      omega
    · rw [List.length_cons]
      omega
    · rw [List.tail_cons, List.length_cons, List.length_cons]
      omega
  unfold Lex.tokenAt
  rw [hload, hload1, if_neg hq, if_neg hb, if_neg h0, if_pos hc]
  have hhead : ∀ q : Byte, q ≠ 0 → ((l ++ 0 :: junk).head?.getD 0 = c ∧ c = q) →
      l.head? = some c ∧ c = q := by
    rintro q hq0 ⟨hx, rfl⟩
    rcases l with _ | ⟨x, l⟩
    · exact absurd hx.symm hq0
    · exact ⟨congrArg some hx, rfl⟩
  split
  · -- `&&`
    rename_i h
    obtain ⟨h1, h2⟩ := hhead _ (by decide) h
    exact double .and (by decide) h1 (Or.inl h2)
  split
  · -- `||`
    rename_i h
    obtain ⟨h1, h2⟩ := hhead _ (by decide) h
    exact double .or (by decide) h1 (Or.inr (Or.inl h2))
  split
  · -- `>>`
    rename_i h
    obtain ⟨h1, h2⟩ := hhead _ (by decide) h
    exact double .append (by decide) h1 (Or.inr (Or.inr h2))
  · -- The symbol stands alone.
    rename_i h1 h2 h3
    have hsingle : behindSymbol c l = l := by
      refine if_neg ?_
      rintro ⟨hx, hop⟩
      have hfirst : (l ++ 0 :: junk).head?.getD 0 = c := by
        rcases l with _ | ⟨x, l⟩
        · exact nomatch hx
        · exact Option.some.inj hx
      rcases hop with hop | hop | hop
      · exact h1 ⟨hfirst, hop⟩
      · exact h2 ⟨hfirst, hop⟩
      · exact h3 ⟨hfirst, hop⟩
    have hsym : symbol c ≠ .eof := by
      unfold symbol
      split_ifs <;> simp
    rw [hsingle]
    refine ⟨⟨done ++ [0], ?_, ?_, ?_⟩, hsym, ⟨_, rfl, ?_⟩, ?_⟩
    · rw [set_append, List.append_assoc]
      rfl
    · rw [List.length_append]
      rfl
    · simp only [List.length_append, List.length_cons, List.length_nil]
      omega
    · rw [List.length_cons]
      omega
    · rw [List.length_cons]
      omega

theorem word_taken {c : Byte} {l junk : Str} (done : Str) (hw : wordByte c = true)
    (hq : c ≠ ch '"') (hb : c ≠ ch '\x60') :
    Consumed done (c :: l) junk (l.dropWhile wordByte)
      (Lex.tokenAt (done ++ c :: (l ++ 0 :: junk)) done.length) := by
  obtain ⟨h0, -, hsym⟩ := (wordByte_iff c).mp hw
  have hload := load_append done (l ++ 0 :: junk) c
  have hsplit := List.takeWhile_append_dropWhile (p := wordByte) (l := l)
  have hlen := congrArg List.length hsplit
  rw [List.length_append] at hlen
  have hbuf : c :: (l ++ 0 :: junk) =
      (c :: l.takeWhile wordByte) ++ (l.dropWhile wordByte ++ 0 :: junk) := by
    rw [List.cons_append, ← List.append_assoc, hsplit]
  have hscan : scan wordByte (done ++ c :: (l ++ 0 :: junk)) done.length =
      done.length + (c :: l.takeWhile wordByte).length := by
    rw [hbuf]
    refine scan_append done (fun x hx => ?_) fun x hx => ?_
    · rcases List.mem_cons.mp hx with rfl | hx
      · exact hw
      · exact List.mem_takeWhile_imp hx
    · cases hd : l.dropWhile wordByte with
      | nil =>
        rw [hd] at hx
        obtain rfl := Option.some.inj hx
        decide
      | cons y l' =>
        have hy := List.head_dropWhile_not wordByte (l := l) (by simp [hd])
        simp only [hd, List.head_cons] at hy
        rw [hd] at hx
        obtain rfl := Option.some.inj hx
        exact hy
  unfold Lex.tokenAt
  rw [hload, if_neg hq, if_neg hb, if_neg h0, if_neg (by simp [hsym])]
  refine ⟨⟨done ++ c :: l.takeWhile wordByte, ?_, congrArg some ?_, ?_⟩, nofun, ⟨_, rfl, ?_⟩, ?_⟩
  · rw [hbuf, List.append_assoc]
  · exact hscan.trans (List.length_append).symm
  · rw [List.length_append, List.length_cons, List.length_cons]
    omega
  · rw [List.length_cons]
    omega
  · rw [List.length_cons]
    omega

theorem gettoken_start {done rest : Str} (hx : ∀ c, rest.head? = some c → strchr WHITESPACE c = false) :
    _gettoken (done ++ rest) (some done.length) = Lex.tokenAt (done ++ rest) done.length := by
  obtain ⟨h1, h2⟩ := clear_start done rest hx
  rw [Lex.gettoken_eq, h1, h2]

/-- A scan of a line takes what is in front of what is left. -/
inductive Step (done line junk : Str) (r : Scanned) : Behind → Prop
  | nothing (tok : r.tok = .eof) (p2 : r.p2 = none) : Step done line junk r .nothing
  | unclosed (tok : r.tok ≠ .eof) (p2 : r.p2 = some (done.length + line.length + 1)) :
      Step done line junk r .unclosed
  | rest {line' : Str} (taken : Consumed done line junk line' r) : Step done line junk r (.rest line')

theorem Step.quote {done l junk : Str} {q c k : Byte} {t : Tok} (ht : t ≠ .eof) (h0 : 0 ∉ l) :
    Step done (c :: l) junk
      (let buf := done ++ k :: (l ++ 0 :: junk)
       let e := scan (fun x => x != 0 && x != q) buf (done.length + 1)
       ⟨buf.set e 0, t, some (done.length + 1), some (e + 1)⟩) (behindQuote q l) := by
  obtain ⟨h, -⟩ | ⟨text, l', h, -, -⟩ := behindQuote_cases q l
  · rw [h]
    refine .unclosed ht ?_
    dsimp only
    rw [quote_unclosed (c := c) done h0 h]
  · rw [h]
    exact .rest (quote_taken ht done h0 h)

theorem step_token {done line junk : Str} (h0 : 0 ∉ line)
    (hx : ∀ c, line.head? = some c → strchr WHITESPACE c = false) :
    Step done line junk (_gettoken (done ++ (line ++ 0 :: junk)) (some done.length)) (behind line) := by
  rcases line with _ | ⟨c, l⟩
  · rw [List.nil_append, gettoken_end]
    exact .nothing rfl rfl
  · have hc := hx c rfl
    have h0c : c ≠ 0 := fun h => h0 (h ▸ List.mem_cons_self)
    have h0l : (0 : Byte) ∉ l := fun h => h0 (List.mem_cons_of_mem _ h)
    have hload := load_append done (l ++ 0 :: junk) c
    rw [List.cons_append, gettoken_start (fun x hx => by
      rw [List.head?_cons] at hx
      exact Option.some.inj hx ▸ hc)]
    unfold behind
    rw [List.dropWhile_cons_of_neg (by simp [hc])]
    dsimp only
    split
    · rename_i hq
      unfold Lex.tokenAt
      rw [hload, if_pos hq, hq]
      exact Step.quote nofun h0l
    · rename_i hq
      split
      · rename_i hb
        unfold Lex.tokenAt
        rw [hload, if_neg hq, if_pos hb, set_append]
        exact Step.quote nofun h0l
      · rename_i hb
        split
        · rename_i hs
          exact .rest (symbol_taken done hs hq hb h0c)
        · rename_i hs
          exact .rest (word_taken done ((wordByte_iff c).mpr ⟨h0c, hc, by simpa using hs⟩) hq hb)

theorem Step.blank {done gap line junk : Str} {r : Scanned} {b : Behind}
    (h : Step (done ++ List.replicate gap.length 0) line junk r b) :
    Step done (gap ++ line) junk r b := by
  cases h with
  | nothing tok p2 => exact .nothing tok p2
  | unclosed tok p2 =>
    refine .unclosed tok (p2.trans (congrArg some ?_))
    simp only [List.length_append, List.length_replicate]
    omega
  | rest taken => exact .rest taken.blank

/-- One scan of a line. -/
theorem step_gettoken {done line junk : Str} (h0 : 0 ∉ line) :
    Step done line junk (_gettoken (done ++ (line ++ 0 :: junk)) (some done.length)) (behind line) := by
  obtain ⟨gap, l, rfl, hgap, hl⟩ : ∃ gap l, line = gap ++ l ∧ IsBlank gap ∧
      ∀ c, l.head? = some c → strchr WHITESPACE c = false :=
    ⟨_, _, List.takeWhile_append_dropWhile.symm, fun c hc => List.mem_takeWhile_imp hc,
      fun c hc => by simpa [hc] using List.head?_dropWhile_not (strchr WHITESPACE) line⟩
  have hbehind : behind (gap ++ l) = behind l := by
    unfold behind
    rw [List.dropWhile_append_of_pos hgap]
  have hhead : ∀ c, (l ++ 0 :: junk).head? = some c → strchr WHITESPACE c = false := by
    intro c hc
    rcases l with _ | ⟨x, l⟩
    · obtain rfl := Option.some.inj hc
      decide
    · exact hl c hc
  rw [hbehind, List.append_assoc, gettoken_blank hgap hhead]
  exact (step_token (fun h => h0 (List.mem_append_right _ h)) hl).blank

/-! ## All calls on a line -/

/-- The statics of `gettoken`, with the bytes that were touched. -/
structure Lexer where
  tape : Tape
  nc : Tok
  np1 : Ptr
  np2 : Ptr

namespace Lexer

def setTape (g : Lexer) (t : Tape) : Lexer := { g with tape := t }

def setStatics (g : Lexer) (r : Tok × Ptr × Ptr) : Lexer :=
  { g with nc := r.1, np1 := r.2.1, np2 := r.2.2 }

def onTape {α : Type} (x : Lex α) : EStateM Empty Lexer α := Lib.zoom Lexer.tape setTape id x

/-- `gettoken(s, 0)` -/
def setLine (s : Nat) : EStateM Empty Lexer Unit := do
  let r ← onTape (Lex._gettoken (some s))
  modify (·.setStatics r)

/-- `gettoken(0, &t)` -/
def gettoken : EStateM Empty Lexer (Tok × Ptr) := do
  let g ← get
  let r ← onTape (Lex._gettoken g.np2)
  modify (·.setStatics r)
  return (g.nc, g.np1)

/-- The state after a call. -/
def after {α : Type} (x : EStateM Empty Lexer α) (g : Lexer) : Lexer :=
  match x g with
  | .ok _ g' => g'
  | .error e _ => nomatch e

/-- Nothing has been scanned or touched. -/
def ofLine (line junk : Str) : Lexer := ⟨⟨line ++ 0 :: junk, []⟩, .eof, none, none⟩

end Lexer

/-- The calls `gettoken(0, &t)` after `gettoken(s, 0)`, for the line at `s` with what is in memory
behind it. -/
def lexer (line junk : Str) : System Lexer Unit where
  init g := g = (Lexer.ofLine line junk).after (Lexer.setLine 0)
  next _ g := some (g.after Lexer.gettoken)

/-- A scan from `s` has made `g'` of `g`. -/
structure Scans (s : Nat) (g g' : Lexer) : Prop where
  same : (⟨g'.tape.buf, g'.nc, g'.np1, g'.np2⟩ : Scanned) = _gettoken g.tape.buf (some s)
  first : s ∈ g'.tape.touched
  upto : g.tape.Upto (g'.np2.getD (scan (strchr WHITESPACE) g.tape.buf s)) g'.tape

theorem after_of_wp {α : Type} {x : EStateM Empty Lexer α} {g : Lexer} {Q : Lexer → Prop}
    (h : wp x (fun _ => Q) (fun _ _ => False) g) : Q (g.after x) := by
  obtain ⟨a, g', hx, hQ⟩ := Lib.exists_of_wp h
  unfold Lexer.after
  rw [hx]
  exact hQ

theorem scans_onTape (g : Lexer) (s : Nat) :
    wp (Lexer.onTape (Lex._gettoken (some s))) (fun r g' => Scans s g (g'.setStatics r))
      (fun _ _ => False) g := by
  unfold Lexer.onTape
  rw [Lib.wp_zoom]
  exact wp_mono (Lex.gettoken_spec g.tape s) (fun r t h => ⟨h.1.1, h.2, h.1.2⟩) fun _ _ h => h

theorem scans_setLine (g : Lexer) (s : Nat) : Scans s g (g.after (Lexer.setLine s)) := by
  have h : wp (Lexer.setLine s) (fun _ g' => Scans s g g') (fun _ _ => False) g := by
    unfold Lexer.setLine
    rw [Lib.wp_bind]
    refine wp_mono (scans_onTape g s) (fun r g' h => ?_) fun _ _ h => h
    exact (Lib.wp_modify _).mpr h
  exact after_of_wp h

theorem scans_gettoken {g : Lexer} {s : Nat} (hs : g.np2 = some s) :
    Scans s g (g.after Lexer.gettoken) := by
  have h : wp Lexer.gettoken (fun _ g' => Scans s g g') (fun _ _ => False) g := by
    unfold Lexer.gettoken
    rw [Lib.wp_bind, Lib.wp_get, Lib.wp_bind, hs]
    refine wp_mono (scans_onTape g s) (fun r g' h => ?_) fun _ _ h => h
    rw [Lib.wp_bind, Lib.wp_modify, Lib.wp_pure]
    exact h
  exact after_of_wp h

theorem gettoken_after_end {g : Lexer} (hs : g.np2 = none) :
    g.after Lexer.gettoken = g.setStatics (.eof, none, none) := by
  have h : wp Lexer.gettoken (fun _ g' => g' = g.setStatics (.eof, none, none)) (fun _ _ => False)
      g := by
    unfold Lexer.gettoken Lexer.onTape Lex._gettoken
    rw [Lib.wp_bind, Lib.wp_get, Lib.wp_bind, hs, Lib.wp_zoom, Lib.wp_pure, Lib.wp_bind,
      Lib.wp_modify, Lib.wp_pure]
    rfl
  exact after_of_wp h

theorem behind_suffix {l l' : Str} (h : behind l = .rest l') : l' <:+ l := by
  have hsuf := List.dropWhile_suffix (strchr WHITESPACE) (l := l)
  have hquote : ∀ (q : Byte) (x : Str), behindQuote q x = .rest l' → l' <:+ x := by
    intro q x hq
    obtain ⟨hno, -⟩ | ⟨text, l'', hrest, rfl, -⟩ := behindQuote_cases q x
    · exact nomatch hno.symm.trans hq
    · obtain rfl := Behind.rest.inj (hrest.symm.trans hq)
      exact (List.suffix_cons _ _).trans (List.suffix_append _ _)
  unfold behind at h
  split at h
  · cases h
  · rename_i c x hd
    rw [hd] at hsuf
    have hx : ∀ {y : Str}, y <:+ x → y <:+ l := fun hy => (hy.trans (List.suffix_cons c x)).trans hsuf
    split at h
    · exact hx (hquote _ _ h)
    split at h
    · exact hx (hquote _ _ h)
    split at h
    · obtain rfl := Behind.rest.inj h
      unfold behindSymbol
      split
      · exact hx (List.tail_suffix x)
      · exact hx (List.suffix_refl x)
    · obtain rfl := Behind.rest.inj h
      exact hx (List.dropWhile_suffix _)

theorem scan_blank {done l junk : Str} (h : behind l = .nothing) :
    scan (strchr WHITESPACE) (done ++ (l ++ 0 :: junk)) done.length = done.length + l.length := by
  have hblank : IsBlank l := by
    unfold behind at h
    split at h
    · rename_i hd
      exact List.dropWhile_eq_nil_iff.mp hd
    · unfold behindQuote at h
      split_ifs at h <;> split at h <;> cases h
  refine scan_append done hblank fun c hc => ?_
  obtain rfl := Option.some.inj hc
  decide

/-- The lexer waits in front of `l`, the end of a line of `n` bytes. -/
structure Before (n : Nat) (junk done l : Str) (g : Lexer) : Prop where
  buf : g.tape.buf = done ++ (l ++ 0 :: junk)
  bytes : 0 ∉ l
  length : done.length + l.length = n

/-- What the lexer has scanned last. -/
inductive Pending (n : Nat) (junk done l : Str) (g : Lexer) : Prop
  | eof (nothing : behind l = .nothing) (nc : g.nc = .eof) (np2 : g.np2 = none)
  | unclosed (quote : behind l = .unclosed) (nc : g.nc ≠ .eof) (np2 : g.np2 = some (n + 1))
  | token {done' l' : Str} (rest : behind l = .rest l') (before : Before n junk done' l' g)
      (np2 : g.np2 = some done'.length) (nc : g.nc ≠ .eof) (np1 : ∃ t < n, g.np1 = some t)
      (shorter : done.length < done'.length)

theorem pending_scan {n : Nat} {junk done l : Str} {g g' : Lexer} (hb : Before n junk done l g)
    (hs : Scans done.length g g') : Pending n junk done l g' := by
  obtain ⟨hbuf, h0, rfl⟩ := hb
  have hsame := hs.same
  rw [hbuf] at hsame
  have hstep : Step done l junk _ (behind l) := step_gettoken h0
  rw [← hsame] at hstep
  generalize hbl : behind l = b at hstep
  cases hstep with
  | nothing tok p2 => exact .eof hbl tok p2
  | unclosed tok p2 => exact .unclosed hbl tok p2
  | rest taken =>
    obtain ⟨⟨done', hbuf', hp2, hlen⟩, htok, ⟨t, ht, hlt⟩, hshort⟩ := taken
    refine .token hbl ⟨hbuf', fun h => h0 ((behind_suffix hbl).subset h), hlen⟩ hp2 htok
      ⟨t, hlt, ht⟩ ?_
    omega

/-- The lexer touches no byte behind the terminator, tokens start in the string, each scan starts
behind the one before, and the end of the string is reached and stays. -/
structure StaysInside (line junk : Str) : Prop where
  touched : ∀ g, (lexer line junk).Reachable g → ∀ i ∈ g.tape.touched, i ≤ line.length
  starts : ∀ g, (lexer line junk).Reachable g → g.nc ≠ .eof → ∃ t < line.length, g.np1 = some t
  advances : ∀ g, (lexer line junk).Reachable g → g.nc ≠ .eof →
    (g.after Lexer.gettoken).nc ≠ .eof →
    ∃ s e, g.np2 = some s ∧ (g.after Lexer.gettoken).np2 = some e ∧ s < e
  finishes : ∃ g, (lexer line junk).Reachable g ∧ g.nc = .eof
  ends : ∀ g, (lexer line junk).Reachable g → g.nc = .eof → (g.after Lexer.gettoken).nc = .eof

variable {line junk : Str}

theorem reachable_first : (lexer line junk).Reachable ((Lexer.ofLine line junk).after (Lexer.setLine 0)) :=
  .init rfl

theorem reachable_next {g : Lexer} (h : (lexer line junk).Reachable g) :
    (lexer line junk).Reachable (g.after Lexer.gettoken) :=
  .step (a := ()) h trivial rfl

theorem before_line (h0 : 0 ∉ line) : Before line.length junk [] line (Lexer.ofLine line junk) :=
  ⟨rfl, h0, Nat.zero_add _⟩

theorem pending_first (h0 : 0 ∉ line) :
    Pending line.length junk [] line ((Lexer.ofLine line junk).after (Lexer.setLine 0)) :=
  pending_scan (before_line h0) (scans_setLine _ 0)

theorem Closed.not_unclosed {l : Str} (h : Closed l) : behind l ≠ .unclosed := by
  intro hopen
  cases h with
  | done h => exact nomatch h.symm.trans hopen
  | token h => exact nomatch h.symm.trans hopen

theorem Closed.of_rest {l l' : Str} (h : Closed l) (hrest : behind l = .rest l') : Closed l' := by
  cases h with
  | done h => exact nomatch h.symm.trans hrest
  | token h hl => exact Behind.rest.inj (h.symm.trans hrest) ▸ hl

/-- The lexer has scanned in a closed line only. -/
structure Inside (n : Nat) (junk : Str) (g : Lexer) : Prop where
  pending : ∃ done l, Closed l ∧ done.length + l.length = n ∧ Pending n junk done l g
  touched : ∀ i ∈ g.tape.touched, i ≤ n

/-- A scan of what is left of a closed line stays in the line. -/
theorem inside_scan {n : Nat} {done l : Str} {g g' : Lexer} (hb : Before n junk done l g)
    (hc : Closed l) (ht : ∀ i ∈ g.tape.touched, i ≤ n) (hs : Scans done.length g g') :
    Inside n junk g' := by
  have hp := pending_scan hb hs
  refine ⟨⟨done, l, hc, hb.length, hp⟩, fun i hi => ?_⟩
  have hlen := hb.length
  have hreach : g'.np2.getD (scan (strchr WHITESPACE) g.tape.buf done.length) ≤ n := by
    cases hp with
    | eof hnone _ hp2 => rw [hp2, hb.buf, Option.getD_none, scan_blank hnone, hlen]
    | unclosed hopen => exact absurd hopen hc.not_unclosed
    | token _ hb' hp2 =>
      have := hb'.length
      rw [hp2, Option.getD_some]
      omega
  rcases hs.upto.upto i hi with hold | hle
  · exact ht i hold
  · exact Nat.le_trans hle hreach

theorem inside_next {n : Nat} {g : Lexer} (h : Inside n junk g) :
    Inside n junk (g.after Lexer.gettoken) := by
  obtain ⟨⟨done, l, hc, hlen, hp⟩, ht⟩ := h
  cases hp with
  | eof hnone _ hp2 =>
    rw [gettoken_after_end hp2]
    exact ⟨⟨done, l, hc, hlen, .eof hnone rfl rfl⟩, ht⟩
  | unclosed hopen => exact absurd hopen hc.not_unclosed
  | token hrest hb hp2 => exact inside_scan hb (hc.of_rest hrest) ht (scans_gettoken hp2)

theorem inside_reachable (h0 : 0 ∉ line) (hc : Closed line) {g : Lexer}
    (h : (lexer line junk).Reachable g) : Inside line.length junk g := by
  refine h.invariant (I := Inside line.length junk) ?_ ?_
  · rintro _ rfl
    exact inside_scan (before_line h0) hc nofun (scans_setLine _ 0)
  · intro g _ g' hi _ hg
    obtain rfl : g.after Lexer.gettoken = g' := Option.some.inj hg
    exact inside_next hi

theorem finishes_of_pending {n : Nat} {done l : Str} (hc : Closed l) {g : Lexer}
    (hr : (lexer line junk).Reachable g) (hp : Pending n junk done l g) :
    ∃ g, (lexer line junk).Reachable g ∧ g.nc = .eof := by
  induction hc generalizing done g with
  | done h =>
    cases hp with
    | eof _ nc => exact ⟨g, hr, nc⟩
    | unclosed hopen => exact nomatch h.symm.trans hopen
    | token hrest => exact nomatch h.symm.trans hrest
  | token h _ ih =>
    cases hp with
    | eof _ nc => exact ⟨g, hr, nc⟩
    | unclosed hopen => exact nomatch h.symm.trans hopen
    | token hrest hb hp2 =>
      obtain rfl := Behind.rest.inj (h.symm.trans hrest)
      exact ih (reachable_next hr) (pending_scan hb (scans_gettoken hp2))

theorem staysInside_of_closed (h0 : 0 ∉ line) (hc : Closed line) : StaysInside line junk where
  touched g hg := (inside_reachable h0 hc hg).touched
  starts g hg hnc := by
    obtain ⟨done, l, hcl, -, hp⟩ := (inside_reachable h0 hc hg).pending
    cases hp with
    | eof _ nc => exact absurd nc hnc
    | unclosed hopen => exact absurd hopen hcl.not_unclosed
    | token _ _ _ _ np1 => exact np1
  advances g hg hnc hnc' := by
    obtain ⟨done, l, hcl, -, hp⟩ := (inside_reachable h0 hc hg).pending
    cases hp with
    | eof _ nc => exact absurd nc hnc
    | unclosed hopen => exact absurd hopen hcl.not_unclosed
    | token hrest hb hp2 =>
      have hcl' := hcl.of_rest hrest
      cases pending_scan hb (scans_gettoken hp2) with
      | eof _ nc => exact absurd nc hnc'
      | unclosed hopen => exact absurd hopen hcl'.not_unclosed
      | token _ _ hp2' _ _ hlt => exact ⟨_, _, hp2, hp2', hlt⟩
  finishes := finishes_of_pending hc reachable_first (pending_first h0)
  ends g hg hnc := by
    obtain ⟨done, l, hcl, -, hp⟩ := (inside_reachable h0 hc hg).pending
    cases hp with
    | eof _ _ np2 =>
      rw [gettoken_after_end np2]
      rfl
    | unclosed _ nc => exact absurd hnc nc
    | token _ _ _ nc => exact absurd hnc nc

theorem touches_behind {n : Nat} {done l : Str} (hno : ¬ Closed l) {g : Lexer}
    (hr : (lexer line junk).Reachable g) (hp : Pending n junk done l g) :
    ∃ g, (lexer line junk).Reachable g ∧ n + 1 ∈ g.tape.touched := by
  cases hp with
  | eof h => exact absurd (.done h) hno
  | unclosed _ _ hp2 => exact ⟨_, reachable_next hr, (scans_gettoken hp2).first⟩
  | token hrest hb hp2 _ _ hlt =>
    have := hb.length
    exact touches_behind (fun hc => hno (.token hrest hc)) (reachable_next hr)
      (pending_scan hb (scans_gettoken hp2))
termination_by n - done.length

/-- The lexer stays in the line exactly when every quote that opens a token is closed. -/
theorem lexer_stays_iff (line junk : Str) (h0 : 0 ∉ line) : StaysInside line junk ↔ Closed line := by
  refine ⟨fun h => ?_, staysInside_of_closed h0⟩
  by_contra hno
  obtain ⟨g, hg, hout⟩ := touches_behind hno reachable_first (pending_first h0)
  exact absurd (h.touched g hg _ hout) (by omega)

/-- `echo "a b"` -/
theorem lexer_stays_iff_echo : StaysInside (bytes "echo \"a b\"") [] := by
  have hword : behind (bytes "echo \"a b\"") = .rest (bytes " \"a b\"") := by decide
  have hquote : behind (bytes " \"a b\"") = .rest [] := by decide
  exact (lexer_stays_iff _ [] (by decide)).mpr (.token hword (.token hquote (.done (by decide))))

/-- After the line `"` the byte behind its terminator is read. -/
theorem not_lexer_stays : ¬ ∀ line junk : Str, 0 ∉ line → StaysInside line junk := fun h =>
  ((lexer_stays_iff (bytes "\"") [] (by decide)).mp (h _ _ (by decide))).not_unclosed (by decide)

end Mos.Shell
