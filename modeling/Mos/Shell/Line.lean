import Mos.Shell.Rules

/-!
# Lines of commands with `&&` and `||`

How the lexer reads a line of words and operators. The memory is what was scanned, where
blanks have become zero bytes, and the rest of the line as it was written.
-/

namespace Mos.Shell

/-! ## Texts -/

inductive Op where
  | and
  | or
  deriving DecidableEq, Repr

def Op.byte : Op → Byte
  | .and => ch '&'
  | .or => ch '|'

def Op.tok : Op → Tok
  | .and => .and
  | .or => .or

def IsBlank (gap : Str) : Prop := ∀ c ∈ gap, strchr WHITESPACE c = true

def wordByte (c : Byte) : Bool := c != 0 && !strchr (WHITESPACE ++ SYMBOLS) c

/-- An unquoted word without `#`. -/
structure IsWord (w : Str) : Prop where
  nonempty : w ≠ []
  bytes : ∀ c ∈ w, wordByte c = true ∧ c ≠ ch '#'
  start : w.head? ≠ some (ch '"') ∧ w.head? ≠ some (ch '\x60')

instance (gap : Str) : Decidable (IsBlank gap) :=
  inferInstanceAs (Decidable (∀ c ∈ gap, strchr WHITESPACE c = true))

instance (w : Str) : Decidable (IsWord w) :=
  haveI : Decidable (∀ c ∈ w, wordByte c = true ∧ c ≠ ch '#') := List.decidableBAll _ w
  decidable_of_iff (w ≠ [] ∧ (∀ c ∈ w, wordByte c = true ∧ c ≠ ch '#') ∧
      w.head? ≠ some (ch '"') ∧ w.head? ≠ some (ch '\x60'))
    ⟨fun ⟨h1, h2, h3⟩ => ⟨h1, h2, h3⟩, fun h => ⟨h.nonempty, h.bytes, h.start⟩⟩

/-- A token of the line and the blanks before it. -/
inductive Lexeme where
  | word (gap w : Str)
  | op (gap : Str) (o : Op)

def Lexeme.gap : Lexeme → Str
  | .word gap _ => gap
  | .op gap _ => gap

def Lexeme.text : Lexeme → Str
  | .word gap w => gap ++ w
  | .op gap o => gap ++ [o.byte, o.byte]

/-- The memory of a token that was scanned. Of an operator the second byte is cleared. -/
def Lexeme.image : Lexeme → Str
  | .word gap w => List.replicate gap.length 0 ++ w
  | .op gap o => List.replicate gap.length 0 ++ [o.byte, 0]

def render (l : List Lexeme) (tail : Str) : Str := l.flatMap Lexeme.text ++ tail

/-- A word does not run into the one before it. -/
def Apart : List Lexeme → Prop
  | .word gap _ :: _ => gap ≠ []
  | _ => True

def Valid : List Lexeme → Prop
  | [] => True
  | .word gap w :: rest => IsBlank gap ∧ IsWord w ∧ Apart rest ∧ Valid rest
  | .op gap _ :: rest => IsBlank gap ∧ Valid rest

/-- What follows the last token: blanks and the end of the string. -/
def IsEnd (tail : Str) : Prop := ∃ gap junk, IsBlank gap ∧ tail = gap ++ 0 :: junk

/-! ## One scan -/

theorem takeWhile_stop {p : Byte → Bool} {l rest : Str} (hl : ∀ c ∈ l, p c = true)
    (hstop : ∀ c, rest.head? = some c → p c = false) : (l ++ rest).takeWhile p = l := by
  rw [List.takeWhile_append_of_pos hl]
  have : rest.takeWhile p = [] := by
    rcases rest with _ | ⟨c, rest⟩
    · rfl
    · rw [List.takeWhile_cons_of_neg (by simp [hstop c rfl])]
  rw [this, List.append_nil]

theorem scan_append {p : Byte → Bool} (done : Str) {l rest : Str} (hl : ∀ c ∈ l, p c = true)
    (hstop : ∀ c, rest.head? = some c → p c = false) :
    scan p (done ++ (l ++ rest)) done.length = done.length + l.length := by
  unfold scan
  rw [List.drop_left, takeWhile_stop hl hstop]

theorem clear_append (done gap rest : Str) :
    clear (done ++ (gap ++ rest)) done.length (done.length + gap.length) =
      done ++ (List.replicate gap.length 0 ++ rest) := by
  unfold clear
  rw [List.take_left, ← List.append_assoc done gap, ← List.length_append, List.drop_left,
    List.length_append, Nat.add_sub_cancel_left, List.append_assoc]

theorem load_append (done rest : Str) (c : Byte) : load (done ++ c :: rest) done.length = c := by
  unfold load
  rw [List.getD_append_right _ _ _ _ (Nat.le_refl _), Nat.sub_self]
  rfl

theorem set_append (done rest : Str) (c d : Byte) :
    (done ++ c :: rest).set done.length d = done ++ d :: rest := by
  rw [List.set_append_right _ _ (Nat.le_refl _), Nat.sub_self]
  rfl

theorem load_cases (done rest : Str) :
    load (done ++ rest) done.length = rest.head?.getD 0 := by
  rcases rest with _ | ⟨c, rest⟩
  · rw [List.append_nil, load_past (Nat.le_refl _)]
    rfl
  · exact load_append done rest c

theorem gettoken_blank {done gap rest : Str} (hgap : IsBlank gap)
    (hx : ∀ c, rest.head? = some c → strchr WHITESPACE c = false) :
    _gettoken (done ++ (gap ++ rest)) (some done.length) =
      _gettoken ((done ++ List.replicate gap.length 0) ++ rest)
        (some (done ++ List.replicate gap.length 0).length) := by
  have h1 := scan_append done hgap hx
  have h2 := scan_append (done ++ List.replicate gap.length 0) (l := [])
    (p := strchr WHITESPACE) nofun hx
  rw [List.nil_append, List.length_nil, Nat.add_zero] at h2
  have h3 := clear_append (done ++ List.replicate gap.length 0) [] rest
  rw [List.nil_append, List.length_nil, Nat.add_zero, List.replicate_zero, List.nil_append] at h3
  have hlen : (done ++ List.replicate gap.length (0 : Byte)).length = done.length + gap.length := by
    rw [List.length_append, List.length_replicate]
  unfold _gettoken
  simp only [h1, h2, h3, clear_append]
  rw [hlen, List.append_assoc]

theorem clear_start (done rest : Str) (hx : ∀ c, rest.head? = some c → strchr WHITESPACE c = false) :
    scan (strchr WHITESPACE) (done ++ rest) done.length = done.length ∧
      clear (done ++ rest) done.length done.length = done ++ rest := by
  have h2 := scan_append done (l := []) (p := strchr WHITESPACE) nofun hx
  have h3 := clear_append done [] rest
  exact ⟨h2, h3⟩

theorem wordByte_iff (c : Byte) : wordByte c = true ↔
    c ≠ 0 ∧ strchr WHITESPACE c = false ∧ strchr SYMBOLS c = false := by
  unfold wordByte strchr
  simp

theorem gettoken_word {done w tail : Str} (hw : IsWord w)
    (hstop : ∀ c, tail.head? = some c → wordByte c = false) :
    _gettoken (done ++ (w ++ tail)) (some done.length) =
      ⟨done ++ (w ++ tail), .word, some done.length, some (done.length + w.length)⟩ := by
  obtain ⟨c, w', rfl⟩ := List.exists_cons_of_ne_nil hw.nonempty
  obtain ⟨h0, hws, hsym⟩ := (wordByte_iff c).mp (hw.bytes c List.mem_cons_self).1
  have hq : c ≠ ch '"' := fun h => hw.start.1 (by rw [h]; rfl)
  have hb : c ≠ ch '\x60' := fun h => hw.start.2 (by rw [h]; rfl)
  have hstart := clear_start done (c :: w' ++ tail) (fun x hx => by
    rw [List.cons_append, List.head?_cons] at hx
    obtain rfl := Option.some.inj hx
    exact hws)
  have hload : load (done ++ (c :: w' ++ tail)) done.length = c := load_append done _ c
  have hscan : scan wordByte (done ++ (c :: w' ++ tail)) done.length =
      done.length + (c :: w').length := scan_append done (fun x hx => (hw.bytes x hx).1) hstop
  unfold _gettoken
  simp only [hstart.1, hstart.2, hload, hq, hb, h0, hsym, if_false, Bool.false_eq_true]
  exact congrArg (fun e => Scanned.mk _ _ _ (some e)) hscan

theorem gettoken_op (done tail : Str) (o : Op) :
    _gettoken (done ++ (o.byte :: o.byte :: tail)) (some done.length) =
      ⟨done ++ (o.byte :: 0 :: tail), o.tok, some done.length, some (done.length + 2)⟩ := by
  have hstart := clear_start done (o.byte :: o.byte :: tail) (fun x hx => by
    rw [List.head?_cons] at hx
    obtain rfl := Option.some.inj hx
    cases o <;> decide)
  have hload : load (done ++ (o.byte :: o.byte :: tail)) done.length = o.byte := load_append done _ _
  have hnext : load (done ++ (o.byte :: o.byte :: tail)) (done.length + 1) = o.byte := by
    have := load_append (done ++ [o.byte]) tail o.byte
    rw [List.append_assoc, List.length_append] at this
    exact this
  have hset : (done ++ (o.byte :: o.byte :: tail)).set (done.length + 1) 0 =
      done ++ (o.byte :: 0 :: tail) := by
    have := set_append (done ++ [o.byte]) tail o.byte 0
    rw [List.append_assoc, List.append_assoc, List.length_append] at this
    exact this
  unfold _gettoken
  simp only [hstart.1, hstart.2, hload, hnext, hset]
  cases o <;> rfl

theorem gettoken_end (done junk : Str) :
    _gettoken (done ++ 0 :: junk) (some done.length) = ⟨done ++ 0 :: junk, .eof, none, none⟩ := by
  have hstart := clear_start done (0 :: junk) (fun x hx => by
    rw [List.head?_cons] at hx
    obtain rfl := Option.some.inj hx
    decide)
  have hload : load (done ++ 0 :: junk) done.length = 0 := load_append done _ _
  unfold _gettoken
  simp only [hstart.1, hstart.2, hload]
  rfl

/-! ## The tokens of a line -/

theorem render_cons (x : Lexeme) (rest : List Lexeme) (tail : Str) :
    render (x :: rest) tail = x.text ++ render rest tail := by
  unfold render
  rw [List.flatMap_cons, List.append_assoc]

theorem blank_head {gap rest : Str} (hgap : IsBlank gap) (hne : gap ≠ []) (c : Byte)
    (hc : (gap ++ rest).head? = some c) : wordByte c = false := by
  obtain ⟨b, gap', rfl⟩ := List.exists_cons_of_ne_nil hne
  rw [List.cons_append, List.head?_cons] at hc
  obtain rfl := Option.some.inj hc
  have := hgap b List.mem_cons_self
  by_contra hw
  have := (wordByte_iff b).mp (by simpa using hw)
  simp_all

/-- A word ends where the rest of the line starts. -/
theorem word_stops {rest : List Lexeme} {tail : Str} (hv : Valid rest) (ha : Apart rest)
    (he : IsEnd tail) (c : Byte) (hc : (render rest tail).head? = some c) : wordByte c = false := by
  rcases rest with _ | ⟨⟨gap, w⟩ | ⟨gap, o⟩, rest⟩
  · obtain ⟨gap, junk, hgap, rfl⟩ := he
    by_cases hne : gap = []
    · subst hne
      obtain rfl := Option.some.inj hc
      decide
    · exact blank_head hgap hne c hc
  · rw [render_cons, Lexeme.text, List.append_assoc] at hc
    exact blank_head hv.1 ha c hc
  · rw [render_cons, Lexeme.text, List.append_assoc] at hc
    by_cases hne : gap = []
    · subst hne
      obtain rfl := Option.some.inj hc
      cases o <;> decide
    · exact blank_head hv.1 hne c hc

/-- The lexer has scanned `done` and looks at the first token of `todo`. -/
def At (g : Statics) (done : Str) (todo : List Lexeme) (tail : Str) : Prop :=
  g = g.scanned (_gettoken (done ++ render todo tail) (some done.length))

theorem At.setFlag {g : Statics} {done : Str} {todo : List Lexeme} {tail : Str}
    (h : At g done todo tail) (flag : Bool) : At (g.setFlag flag) done todo tail :=
  congrArg (Statics.setFlag · flag) h

theorem At.setJobFlag {g : Statics} {done : Str} {todo : List Lexeme} {tail : Str}
    (h : At g done todo tail) (jobFlag : Bool) : At (g.setJobFlag jobFlag) done todo tail :=
  congrArg (Statics.setJobFlag · jobFlag) h

theorem At.next {g : Statics} {done done' : Str} {todo rest : List Lexeme} {tail : Str} {c : Tok}
    {p : Ptr} (h : At g done todo tail)
    (hr : _gettoken (done ++ render todo tail) (some done.length) =
      ⟨done' ++ render rest tail, c, p, some done'.length⟩) :
    g.nc = c ∧ g.np1 = p ∧ g.buf = done' ++ render rest tail ∧ At g.next done' rest tail := by
  unfold At at h
  rw [hr] at h
  have hbuf : g.buf = done' ++ render rest tail := congrArg Statics.buf h
  have hp2 : g.np2 = some done'.length := congrArg Statics.np2 h
  refine ⟨congrArg Statics.nc h, congrArg Statics.np1 h, hbuf, ?_⟩
  unfold At Statics.next
  rw [hbuf, hp2]
  rfl

theorem At.word {g : Statics} {done gap w : Str} {rest : List Lexeme} {tail : Str}
    (h : At g done (.word gap w :: rest) tail) (hv : Valid (.word gap w :: rest)) (he : IsEnd tail) :
    g.nc = .word ∧ g.np1 = some (done.length + gap.length) ∧
      g.buf = done ++ (Lexeme.word gap w).image ++ render rest tail ∧
      At g.next (done ++ (Lexeme.word gap w).image) rest tail := by
  obtain ⟨hgap, hw, ha, hv⟩ := hv
  obtain ⟨c, w', rfl⟩ := List.exists_cons_of_ne_nil hw.nonempty
  have hlen : (done ++ List.replicate gap.length (0 : Byte)).length = done.length + gap.length := by
    rw [List.length_append, List.length_replicate]
  refine h.next ?_
  rw [render_cons, Lexeme.text, List.append_assoc, gettoken_blank hgap, gettoken_word hw
    (word_stops hv ha he), hlen]
  · unfold Lexeme.image
    congr 1
    · simp only [List.append_assoc]
    · simp only [List.length_append, List.length_replicate, Option.some.injEq]
      omega
  · intro x hx
    rw [List.cons_append, List.head?_cons] at hx
    obtain rfl := Option.some.inj hx
    exact ((wordByte_iff c).mp (hw.bytes c List.mem_cons_self).1).2.1

theorem At.op {g : Statics} {done gap : Str} {o : Op} {rest : List Lexeme} {tail : Str}
    (h : At g done (.op gap o :: rest) tail) (hv : Valid (.op gap o :: rest)) :
    g.nc = o.tok ∧ g.np1 = some (done.length + gap.length) ∧
      g.buf = done ++ (Lexeme.op gap o).image ++ render rest tail ∧
      At g.next (done ++ (Lexeme.op gap o).image) rest tail := by
  have hlen : (done ++ List.replicate gap.length (0 : Byte)).length = done.length + gap.length := by
    rw [List.length_append, List.length_replicate]
  refine h.next ?_
  rw [render_cons, Lexeme.text, List.append_assoc, gettoken_blank hv.1, List.cons_append,
    List.cons_append, List.nil_append, gettoken_op, hlen]
  · unfold Lexeme.image
    congr 1
    · simp only [List.append_assoc, List.cons_append, List.nil_append]
    · simp only [List.length_append, List.length_replicate, List.length_cons, List.length_nil,
        Option.some.injEq]
      omega
  · intro x hx
    obtain rfl := Option.some.inj hx
    cases o <;> decide

theorem At.eof {g : Statics} {done tail : Str} (h : At g done [] tail) (he : IsEnd tail) :
    g.nc = .eof ∧ g.np2 = none ∧
      ∃ k junk, g.buf = done ++ List.replicate k 0 ++ 0 :: junk := by
  obtain ⟨gap, junk, hgap, rfl⟩ := he
  unfold At render at h
  rw [List.flatMap_nil, List.nil_append, gettoken_blank hgap (fun x hx => by
    obtain rfl := Option.some.inj hx
    decide), gettoken_end] at h
  exact ⟨congrArg Statics.nc h, congrArg Statics.np2 h, _, _, congrArg Statics.buf h⟩

theorem At.buf {g : Statics} {done : Str} {todo : List Lexeme} {tail : Str}
    (h : At g done todo tail) (hv : Valid todo) (he : IsEnd tail) : ∃ l, g.buf = done ++ l := by
  rcases todo with _ | ⟨⟨gap, w⟩ | ⟨gap, o⟩, rest⟩
  · obtain ⟨-, -, k, junk, hb⟩ := h.eof he
    exact ⟨_, by rw [hb, List.append_assoc]⟩
  · exact ⟨_, by rw [(h.word hv he).2.2.1, List.append_assoc]⟩
  · exact ⟨_, by rw [(h.op hv).2.2.1, List.append_assoc]⟩

/-! ## Words in memory -/

def wordLexemes (ws : List (Str × Str)) : List Lexeme := ws.map fun w => .word w.1 w.2

def images (l : List Lexeme) : Str := l.flatMap Lexeme.image

/-- Where the words are, if the first one stands `base` bytes behind the start. -/
def pointers (base : Nat) : List (Str × Str) → List Nat
  | [] => []
  | w :: ws => (base + w.1.length) :: pointers (base + (w.1.length + w.2.length)) ws

theorem cstr_append (done rest : Str) {w : Str} (hw : ∀ c ∈ w, c ≠ 0) :
    cstr (done ++ (w ++ 0 :: rest)) done.length = w := by
  unfold cstr
  rw [List.drop_left]
  exact takeWhile_stop (fun c hc => by simpa using hw c hc) (fun c hc => by
    obtain rfl := Option.some.inj hc
    rfl)

def addToLast : List Str → Str → List Str
  | [], _ => []
  | [w], s => [w ++ s]
  | w :: l, s => w :: addToLast l s

/-- The words in memory, if the bytes `s` follow the last one. -/
theorem texts_of_words (done : Str) {s junk : Str} {ws : List (Str × Str)} (hs : ∀ c ∈ s, c ≠ 0)
    (hw : ∀ w ∈ ws, ∀ c ∈ w.2, c ≠ 0) (hgap : ∀ w ∈ ws.tail, w.1 ≠ []) :
    (pointers done.length ws).map (fun p =>
        text (done ++ images (wordLexemes ws) ++ (s ++ 0 :: junk)) (some p)) =
      addToLast (ws.map Prod.snd) s := by
  induction ws generalizing done with
  | nil => rfl
  | cons w ws ih =>
    obtain ⟨gap, w⟩ := w
    have hmem : done ++ images (wordLexemes ((gap, w) :: ws)) ++ (s ++ 0 :: junk) =
        (done ++ List.replicate gap.length 0 ++ w) ++ images (wordLexemes ws) ++ (s ++ 0 :: junk) := by
      unfold images wordLexemes
      simp [Lexeme.image]
    have hlen : (done ++ List.replicate gap.length (0 : Byte) ++ w).length =
        done.length + (gap.length + w.length) := by
      simp only [List.length_append, List.length_replicate]
      omega
    have hrest := ih (done ++ List.replicate gap.length 0 ++ w)
      (fun x hx => hw x (by simp [hx])) (fun x hx => hgap x (List.mem_of_mem_tail hx))
    rw [hlen] at hrest
    have hfirst : ∀ s' junk' : Str, (∀ c ∈ s', c ≠ 0) →
        images (wordLexemes ws) ++ (s ++ 0 :: junk) = s' ++ 0 :: junk' →
        text (done ++ images (wordLexemes ((gap, w) :: ws)) ++ (s ++ 0 :: junk))
          (some (done.length + gap.length)) = w ++ s' := by
      intro s' junk' hs' heq
      rw [hmem, List.append_assoc, heq]
      have := cstr_append (done ++ List.replicate gap.length 0) junk' (w := w ++ s')
        (fun c hc => by
          rcases List.mem_append.mp hc with hc | hc
          · exact hw (gap, w) List.mem_cons_self c hc
          · exact hs' c hc)
      rw [List.length_append, List.length_replicate] at this
      simpa [text] using this
    rw [pointers, List.map_cons]
    simp only [hmem] at hrest ⊢
    rw [hrest, ← hmem]
    rcases ws with _ | ⟨⟨gap', w'⟩, ws⟩
    · rw [hfirst s junk hs rfl]
      rfl
    · obtain ⟨b, gap'', rfl⟩ : ∃ b l, gap' = b :: l :=
        List.exists_cons_of_ne_nil (hgap (gap', w') (by simp))
      rw [hfirst [] _ (fun _ h => absurd h List.not_mem_nil) (by
        unfold images wordLexemes
        simp only [List.map_cons, List.flatMap_cons, Lexeme.image, List.length_cons,
          List.replicate_succ, List.cons_append, List.nil_append]
        rfl), List.append_nil]
      rfl

/-! ## Commands and lines -/

/-- A command: the blanks before it, its name, and its arguments with the blanks before each. -/
structure Cmd where
  lead : Str
  name : Str
  rest : List (Str × Str)

def Cmd.words (c : Cmd) : List (Str × Str) := (c.lead, c.name) :: c.rest

def Cmd.args (c : Cmd) : List Str := c.words.map Prod.snd

def Cmd.lexemes (c : Cmd) : List Lexeme := wordLexemes c.words

/-- A simple external command of words. -/
structure Cmd.Simple (c : Cmd) : Prop where
  lead : IsBlank c.lead
  words : ∀ w ∈ c.words, IsWord w.2
  gaps : ∀ w ∈ c.rest, IsBlank w.1 ∧ w.1 ≠ []
  fits : c.words.length < MAXARGS
  external : c.name ∉ builtins

instance (c : Cmd) : Decidable c.Simple :=
  decidable_of_iff (IsBlank c.lead ∧ (∀ w ∈ c.words, IsWord w.2) ∧
      (∀ w ∈ c.rest, IsBlank w.1 ∧ w.1 ≠ []) ∧ c.words.length < MAXARGS ∧ c.name ∉ builtins)
    ⟨fun ⟨h1, h2, h3, h4, h5⟩ => ⟨h1, h2, h3, h4, h5⟩,
      fun h => ⟨h.lead, h.words, h.gaps, h.fits, h.external⟩⟩

/-- An operator with the blanks before it, and the command behind it. -/
structure Join where
  gap : Str
  op : Op
  cmd : Cmd

def Join.Simple (j : Join) : Prop := IsBlank j.gap ∧ j.cmd.Simple

instance (j : Join) : Decidable j.Simple :=
  inferInstanceAs (Decidable (IsBlank j.gap ∧ j.cmd.Simple))

def joinLexemes (rest : List Join) : List Lexeme :=
  rest.flatMap fun j => .op j.gap j.op :: j.cmd.lexemes

theorem valid_words {ws : List (Str × Str)} {todo : List Lexeme}
    (hw : ∀ w ∈ ws, IsBlank w.1 ∧ IsWord w.2) (hgap : ∀ w ∈ ws.tail, w.1 ≠ []) (hv : Valid todo)
    (ha : Apart todo) : Valid (wordLexemes ws ++ todo) := by
  induction ws with
  | nil => exact hv
  | cons w ws ih =>
    obtain ⟨gap, w⟩ := w
    have hrest := ih (fun x hx => hw x (by simp [hx])) fun x hx => hgap x (List.mem_of_mem_tail hx)
    obtain ⟨h1, h2⟩ := hw (gap, w) List.mem_cons_self
    refine ⟨h1, h2, ?_, hrest⟩
    rcases ws with _ | ⟨w', ws⟩
    · exact ha
    · exact hgap w' List.mem_cons_self

theorem apart_joins (rest : List Join) : Apart (joinLexemes rest) := by
  cases rest <;> trivial

theorem Cmd.Simple.valid {c : Cmd} (h : c.Simple) {todo : List Lexeme} (hv : Valid todo)
    (ha : Apart todo) : Valid (c.lexemes ++ todo) := by
  refine valid_words (fun w hw => ⟨?_, h.words w hw⟩) (fun w hw => (h.gaps w hw).2) hv ha
  rcases List.mem_cons.mp hw with rfl | hw
  · exact h.lead
  · exact (h.gaps w hw).1

theorem valid_joins {rest : List Join} (h : ∀ j ∈ rest, j.Simple) : Valid (joinLexemes rest) := by
  induction rest with
  | nil => trivial
  | cons j rest ih =>
    have hj := h j List.mem_cons_self
    exact ⟨hj.1, hj.2.valid (ih fun x hx => h x (by simp [hx])) (apart_joins rest)⟩

end Mos.Shell
