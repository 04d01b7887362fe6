import Mos.Shell.ShortCircuit
import Mos.Shell.Skip

/-!
# Words and quoted strings

A line of words and quoted strings, and the words that it stands for. The comment is cut off before
the line is split, so a `#` in a quoted string ends the line too.
-/

namespace Mos.Shell

open Lib (Proc always always_bind always_call always_get always_modify always_mono always_pure
  always_throw always_ite always_grows always_run_ok always_run_error)

/-! ## Lines -/

/-- A word or a quoted string, and the blanks before it. -/
inductive Piece where
  | word (gap w : Str)
  | quoted (gap s : Str)

/-- The text between two quotes. -/
def IsQuoted (s : Str) : Prop := ∀ c ∈ s, c ≠ 0 ∧ c ≠ ch '"'

namespace Piece

def gap : Piece → Str
  | word gap _ => gap
  | quoted gap _ => gap

/-- The word that the piece stands for. -/
def text : Piece → Str
  | word _ w => w
  | quoted _ s => s

/-- The piece in the line. -/
def source : Piece → Str
  | word gap w => gap ++ w
  | quoted gap s => gap ++ ch '"' :: (s ++ [ch '"'])

/-- The memory of a piece that was scanned. -/
def image : Piece → Str
  | word gap w => List.replicate gap.length 0 ++ w
  | quoted gap s => List.replicate gap.length 0 ++ ch '"' :: (s ++ [0])

/-- How far behind its blanks the text starts. -/
def quote : Piece → Nat
  | word .. => 0
  | quoted .. => 1

/-- A quoted string with a `#`. -/
def hidesComment : Piece → Bool
  | word .. => false
  | quoted _ s => s.contains (ch '#')

end Piece

/-- A word does not run into the piece before it. -/
def Parted : List Piece → Prop
  | [] => True
  | p :: _ => p.gap ≠ []

def Pieces : List Piece → Prop
  | [] => True
  | .word gap w :: rest => IsBlank gap ∧ IsWord w ∧ Parted rest ∧ Pieces rest
  | .quoted gap s :: rest => IsBlank gap ∧ IsQuoted s ∧ Pieces rest

def sources (l : List Piece) : Str := l.flatMap Piece.source

def memory (l : List Piece) : Str := l.flatMap Piece.image

/-- A line with blanks and maybe a comment at its end. -/
structure Line where
  pieces : List Piece
  gap : Str
  comment : Str

def Line.source (l : Line) : Str := sources l.pieces ++ (l.gap ++ l.comment)

structure Line.Valid (l : Line) : Prop where
  pieces : Pieces l.pieces
  gap : IsBlank l.gap
  comment : l.comment = [] ∨ l.comment.head? = some (ch '#') ∧ 0 ∉ l.comment

/-- The reference splitting. -/
def Line.words (l : Line) : List Str := l.pieces.map Piece.text

/-! ## One piece -/

/-- The lexer looks at the first token of `rest`. -/
def Looks (g : Statics) (done rest : Str) : Prop :=
  g = g.scanned (_gettoken (done ++ rest) (some done.length))

section

variable {g : Statics} {done done' rest rest' gap w s : Str} {c : Tok} {p : Ptr}

theorem Looks.setFlags (h : Looks g done rest) :
    Looks ((g.setFlag false).setJobFlag false) done rest :=
  congrArg (fun g => Statics.setJobFlag (Statics.setFlag g false) false) h

theorem Looks.next (h : Looks g done rest)
    (hr : _gettoken (done ++ rest) (some done.length) = ⟨done' ++ rest', c, p, some done'.length⟩) :
    g.nc = c ∧ g.np1 = p ∧ Looks g.next done' rest' := by
  unfold Looks at h
  rw [hr] at h
  have hbuf : g.buf = done' ++ rest' := congrArg Statics.buf h
  have hp2 : g.np2 = some done'.length := congrArg Statics.np2 h
  refine ⟨congrArg Statics.nc h, congrArg Statics.np1 h, ?_⟩
  unfold Looks Statics.next
  rw [hbuf, hp2]
  rfl

theorem length_zeros (done gap : Str) :
    (done ++ List.replicate gap.length (0 : Byte)).length = done.length + gap.length := by
  rw [List.length_append, List.length_replicate]

theorem Looks.word (h : Looks g done (gap ++ (w ++ rest))) (hgap : IsBlank gap) (hw : IsWord w)
    (hstop : ∀ c, rest.head? = some c → wordByte c = false) :
    g.nc = .word ∧ g.np1 = some (done.length + gap.length) ∧
      Looks g.next (done ++ (Piece.word gap w).image) rest := by
  have hlen := length_zeros done gap
  refine h.next ?_
  rw [gettoken_blank hgap, gettoken_word hw hstop, hlen]
  · unfold Piece.image
    congr 1
    · simp only [List.append_assoc]
    · simp only [List.length_append, List.length_replicate, Option.some.injEq]
      omega
  · intro x hx
    obtain ⟨c, w', rfl⟩ := List.exists_cons_of_ne_nil hw.nonempty
    rw [List.cons_append, List.head?_cons] at hx
    obtain rfl := Option.some.inj hx
    exact ((wordByte_iff c).mp (hw.bytes c List.mem_cons_self).1).2.1

/-- A quoted token ends at the next quote or at the end of the string. -/
theorem gettoken_quoted {q : Byte} (hs : IsQuoted s) (hq : q = 0 ∨ q = ch '"') :
    _gettoken (done ++ (ch '"' :: (s ++ q :: rest))) (some done.length) =
      ⟨done ++ (ch '"' :: (s ++ 0 :: rest)), .word, some (done.length + 1),
        some (done.length + 1 + s.length + 1)⟩ := by
  have hstart := clear_start done (ch '"' :: (s ++ q :: rest)) fun x hx => by
    obtain rfl := Option.some.inj hx
    decide
  have hload : load (done ++ (ch '"' :: (s ++ q :: rest))) done.length = ch '"' :=
    load_append done _ _
  have hlen : (done ++ [ch '"']).length = done.length + 1 := by
    rw [List.length_append, List.length_singleton]
  have hscan : scan (fun c => c != 0 && c != ch '"') (done ++ (ch '"' :: (s ++ q :: rest)))
      (done.length + 1) = done.length + 1 + s.length := by
    have hstop : ∀ c, (q :: rest).head? = some c → (c != 0 && c != ch '"') = false := by
      intro c hc
      obtain rfl := Option.some.inj hc
      rcases hq with rfl | rfl <;> rfl
    have h := scan_append (done ++ [ch '"']) (fun c hc => by simpa using hs c hc) hstop
    rwa [hlen, List.append_assoc, List.singleton_append] at h
  have hset : (done ++ (ch '"' :: (s ++ q :: rest))).set (done.length + 1 + s.length) 0 =
      done ++ (ch '"' :: (s ++ 0 :: rest)) := by
    have h := set_append (done ++ [ch '"'] ++ s) rest q 0
    rw [List.length_append, hlen] at h
    simpa using h
  unfold _gettoken
  simp only [hstart.1, hstart.2, hload, if_true, hscan, hset]

theorem Looks.quoted {q : Byte} (h : Looks g done (gap ++ ch '"' :: (s ++ q :: rest)))
    (hgap : IsBlank gap) (hs : IsQuoted s) (hq : q = 0 ∨ q = ch '"') :
    g.nc = .word ∧ g.np1 = some (done.length + gap.length + 1) ∧
      Looks g.next (done ++ (Piece.quoted gap s).image) rest := by
  have hlen := length_zeros done gap
  refine h.next ?_
  rw [gettoken_blank hgap, gettoken_quoted hs hq, hlen]
  · unfold Piece.image
    congr 1
    · simp only [List.append_assoc, List.cons_append, List.nil_append]
    · simp only [List.length_append, List.length_replicate, List.length_cons, List.length_nil,
        Option.some.injEq]
      omega
  · intro x hx
    obtain rfl := Option.some.inj hx
    decide

end

/-! ## The pieces of a line -/

variable {done rest gap w s junk : Str} {l l' : List Piece} {p : Piece} {g : Statics}

/-- Where the texts are, if the first piece starts at `base`. -/
def places (base : Nat) : List Piece → List Nat
  | [] => []
  | p :: l => (base + p.gap.length + p.quote) :: places (base + p.image.length) l

theorem length_places (base : Nat) (l : List Piece) : (places base l).length = l.length := by
  induction l generalizing base with
  | nil => rfl
  | cons p l ih => rw [places, List.length_cons, ih, List.length_cons]

/-- What the lexer meets behind each word ends it. -/
def Reads : List Piece → Str → Prop
  | [], _ => True
  | .word gap w :: l, rest => IsBlank gap ∧ IsWord w ∧
      (∀ c, (sources l ++ rest).head? = some c → wordByte c = false) ∧ Reads l rest
  | .quoted gap s :: l, rest => IsBlank gap ∧ IsQuoted s ∧ Reads l rest

theorem blank_not_word {c : Byte} (h : strchr WHITESPACE c = true) : wordByte c = false := by
  by_contra hw
  have hblank := ((wordByte_iff c).mp (by simpa using hw)).2.1
  exact Bool.noConfusion (h.symm.trans hblank)

theorem source_gap (p : Piece) : ∃ x, p.source = p.gap ++ x := by
  cases p with
  | word gap w => exact ⟨_, rfl⟩
  | quoted gap s => exact ⟨_, rfl⟩

theorem pieces_gap (h : Pieces (p :: l)) : IsBlank p.gap := by
  cases p with
  | word gap w => exact h.1
  | quoted gap s => exact h.1

theorem parted_stops (h : Pieces (p :: l)) (hp : p.gap ≠ []) (x : Str) {c : Byte}
    (hc : (p.gap ++ x).head? = some c) : wordByte c = false := blank_head (pieces_gap h) hp c hc

theorem reads_of_pieces (h : Pieces l) (hrest : ∀ c, rest.head? = some c → wordByte c = false) :
    Reads l rest := by
  induction l with
  | nil => trivial
  | cons p l ih =>
    cases p with
    | word gap w =>
      obtain ⟨hgap, hw, hparted, hl⟩ := h
      refine ⟨hgap, hw, fun c hc => ?_, ih hl⟩
      cases l with
      | nil => exact hrest c hc
      | cons p l =>
        obtain ⟨x, hx⟩ := source_gap p
        unfold sources at hc
        rw [List.flatMap_cons, hx, List.append_assoc, List.append_assoc] at hc
        exact parted_stops hl hparted _ hc
    | quoted gap s => exact ⟨h.1, h.2.1, ih h.2.2⟩

theorem reads_before (h : Pieces (l ++ p :: l')) (x : Str) : Reads l (p.gap ++ x) := by
  induction l with
  | nil => trivial
  | cons q l ih =>
    cases q with
    | word gap w =>
      obtain ⟨hgap, hw, hparted, hl⟩ := h
      refine ⟨hgap, hw, fun c hc => ?_, ih hl⟩
      cases l with
      | nil => exact parted_stops hl hparted _ hc
      | cons q l =>
        obtain ⟨y, hy⟩ := source_gap q
        unfold sources at hc
        rw [List.flatMap_cons, hy, List.append_assoc, List.append_assoc] at hc
        exact parted_stops hl hparted _ hc
    | quoted gap s => exact ⟨h.1, h.2.1, ih h.2.2⟩

theorem pieces_front (h : Pieces (l ++ l')) : Pieces l := by
  induction l with
  | nil => trivial
  | cons q l ih =>
    cases q with
    | word gap w =>
      refine ⟨h.1, h.2.1, ?_, ih h.2.2.2⟩
      cases l with
      | nil => trivial
      | cons q l => exact h.2.2.1
    | quoted gap s => exact ⟨h.1, h.2.1, ih h.2.2⟩

theorem pieces_behind (h : Pieces (l ++ l')) : Pieces l' := by
  induction l with
  | nil => exact h
  | cons q l ih =>
    cases q with
    | word gap w => exact ih h.2.2.2
    | quoted gap s => exact ih h.2.2

theorem Looks.piece (h : Looks g done (sources (p :: l) ++ rest)) (hr : Reads (p :: l) rest) :
    g.nc = .word ∧ g.np1 = some (done.length + p.gap.length + p.quote) ∧
      Looks g.next (done ++ p.image) (sources l ++ rest) ∧ Reads l rest := by
  unfold sources at h
  rw [List.flatMap_cons, List.append_assoc] at h
  cases p with
  | word gap w =>
    obtain ⟨hgap, hw, hstop, hl⟩ := hr
    rw [Piece.source, List.append_assoc] at h
    obtain ⟨hnc, hp1, hnext⟩ := h.word hgap hw hstop
    exact ⟨hnc, hp1, hnext, hl⟩
  | quoted gap s =>
    obtain ⟨hgap, hs, hl⟩ := hr
    have h' : Looks g done (gap ++ ch '"' :: (s ++ ch '"' :: (sources l ++ rest))) := by
      simpa [Piece.source, sources] using h
    obtain ⟨hnc, hp1, hnext⟩ := h'.quoted hgap hs (Or.inr rfl)
    exact ⟨hnc, hp1, hnext, hl⟩

/-! ## The words in memory -/

theorem memory_stops (hl : Parted l) : ∃ x, memory l ++ 0 :: junk = 0 :: x := by
  cases l with
  | nil => exact ⟨junk, rfl⟩
  | cons p l =>
    obtain ⟨b, gap, hgap⟩ := List.exists_cons_of_ne_nil hl
    cases p with
    | word gap' w =>
      obtain rfl : gap' = b :: gap := hgap
      exact ⟨_, rfl⟩
    | quoted gap' s =>
      obtain rfl : gap' = b :: gap := hgap
      exact ⟨_, rfl⟩

theorem text_at (done rest : Str) {w : Str} {n : Nat} (hn : n = done.length) (hw : ∀ c ∈ w, c ≠ 0) :
    text (done ++ (w ++ 0 :: rest)) (some n) = w := by
  rw [hn]
  exact cstr_append done rest hw

theorem quoted_text (hs : IsQuoted s) (done gap rest : Str) :
    text (done ++ (Piece.quoted gap s).image ++ rest) (some (done.length + gap.length + 1)) = s := by
  have hmem : done ++ (Piece.quoted gap s).image ++ rest =
      (done ++ List.replicate gap.length 0 ++ [ch '"']) ++ (s ++ 0 :: rest) := by
    simp [Piece.image]
  rw [hmem]
  refine text_at _ _ ?_ fun c hc => (hs c hc).1
  rw [List.length_append, length_zeros, List.length_singleton]

/-- Each text stands in memory when the whole line was scanned. -/
theorem places_texts (h : Pieces l) (done : Str) :
    (places done.length l).map (fun p => text (done ++ memory l ++ 0 :: junk) (some p)) =
      l.map Piece.text := by
  induction l generalizing done with
  | nil => rfl
  | cons p l ih =>
    have hmem : done ++ memory (p :: l) ++ 0 :: junk =
        done ++ p.image ++ memory l ++ 0 :: junk := by
      simp [memory]
    have hfirst : text (done ++ p.image ++ (memory l ++ 0 :: junk))
        (some (done.length + p.gap.length + p.quote)) = p.text ∧ Pieces l := by
      cases p with
      | word gap w =>
        obtain ⟨-, hw, hparted, hl⟩ := h
        refine ⟨?_, hl⟩
        obtain ⟨x, hx⟩ : ∃ x, memory l ++ 0 :: junk = 0 :: x := memory_stops hparted
        rw [hx, Piece.image, ← List.append_assoc, List.append_assoc]
        refine text_at _ _ (length_zeros done gap).symm fun c hc => ?_
        exact ((wordByte_iff c).mp (hw.bytes c hc).1).1
      | quoted gap s => exact ⟨quoted_text h.2.1 done gap _, h.2.2⟩
    have hlen : done.length + p.image.length = (done ++ p.image).length := by
      rw [List.length_append]
    rw [hmem, places, List.map_cons, List.map_cons, hlen, ih hfirst.2,
      List.append_assoc (done ++ p.image), hfirst.1]

/-! ## What the process does first -/

def isUninit (e : Event) : Bool :=
  match e with
  | ⟨.uninit, _⟩ => true
  | _ => false

/-- The first call of the process when its command has been parsed. -/
def acted (t : Trace) : Option Event :=
  ((t.dropWhile fun e => !isUninit e).tail.dropWhile isTakes).head?

/-- The command is being parsed. -/
def Parsing (t : Trace) : Prop :=
  ∃ t₁ argv t₂, t = t₁ ++ ⟨.uninit, argv⟩ :: t₂ ∧ (∀ e ∈ t₁, isUninit e = false) ∧
    ∀ e ∈ t₂, isTakes e = true

section

variable {t t' : Trace} {e : Event}

theorem dropWhile_all {p : Event → Bool} {l x : Trace} (h : ∀ e ∈ l, p e = true) :
    (l ++ x).dropWhile p = x.dropWhile p := List.dropWhile_append_of_pos h

theorem acted_parsing (h : Parsing t) (u : Trace) :
    acted (t ++ u) = (u.dropWhile isTakes).head? := by
  obtain ⟨t₁, argv, t₂, rfl, h₁, h₂⟩ := h
  unfold acted
  rw [List.append_assoc, dropWhile_all fun e he => by rw [h₁ e he]; rfl, List.cons_append,
    List.dropWhile_cons_of_neg (by simp [isUninit]), List.tail_cons, dropWhile_all h₂]

theorem acted_none (h : Parsing t) : acted t = none := by
  have hnil := acted_parsing h []
  rw [List.append_nil] at hnil
  exact hnil

theorem acted_snoc (h : Parsing t) (he : isTakes e = false) (u : Trace) :
    acted (t ++ e :: u) = some e := by
  rw [acted_parsing h, List.dropWhile_cons_of_neg (by rw [he]; decide), List.head?_cons]

theorem Parsing.taken (h : Parsing t) (g : Statics) (f : Frame) : Parsing (taken g f t) := by
  obtain ⟨t₁, argv, t₂, rfl, h₁, h₂⟩ := h
  refine ⟨t₁, argv, t₂ ++ [⟨.takes g.nc g.np1 f g.next.buf, ()⟩], ?_, h₁, fun e he => ?_⟩
  · unfold Shell.taken
    simp
  · rcases List.mem_append.mp he with he | he
    · exact h₂ e he
    · obtain rfl := List.mem_singleton.mp he
      rfl

/-- What the process did first stays what it did first. -/
theorem acted_append (h : acted t = some e) (u : Trace) : acted (t ++ u) = some e := by
  unfold acted at h ⊢
  rw [List.dropWhile_append]
  split
  case isTrue hnil =>
    rw [List.isEmpty_iff.mp hnil] at h
    cases h
  case isFalse hne =>
    cases hd : t.dropWhile fun e => !isUninit e with
    | nil => simp [hd] at hne
    | cons x t₂ =>
      rw [hd, List.tail_cons] at h
      rw [List.cons_append, List.tail_cons, List.dropWhile_append]
      split
      case isTrue hnil =>
        rw [List.isEmpty_iff.mp hnil] at h
        cases h
      case isFalse =>
        rw [List.head?_append, h]
        rfl

theorem always_acted {α : Type} (h : acted t = some e) (x : Sh α) (g : Statics) :
    always x (fun _ _ t' => acted t' = some e) (fun _ _ t' => acted t' = some e) g t := by
  refine always_mono (always_grows x) ?_ ?_
  · rintro _ _ _ ⟨u, rfl⟩
    exact acted_append h u
  · rintro _ _ _ ⟨u, rfl⟩
    exact acted_append h u

end

/-- The process calls `spawn` with these words when it has parsed its command. -/
def SpawnsWith (ws : List Str) (t : Trace) : Prop := ∃ p r, acted t = some ⟨.spawn p ws, r⟩

/-! ## Taking the words -/

section

variable {t : Trace} {f : Frame} {Q : Nat × Argv × Int → Statics → Trace → Prop}
  {E : Stop → Statics → Trace → Prop}

theorem always_word (n : Nat) (rightpipe : Int) (hc : g.nc = .word) (hroom : f.argc < MAXARGS)
    (h : always (parsecmd n (f.push g.np1) rightpipe) Q E ((g.next.setFlag false).setJobFlag false)
      (taken g f t)) : always (parsecmd (n + 1) f rightpipe) Q E g t := by
  unfold parsecmd
  simp only [always_bind, always_gettoken, always_call, always_get, always_modify, hc, always_ite]
  rintro ⟨⟩
  exact ⟨fun hfull => absurd hfull (Nat.not_le.mpr hroom), fun _ => h⟩

theorem always_full (n : Nat) (rightpipe : Int) (hc : g.nc = .word) (hfull : MAXARGS ≤ f.argc)
    (ht : Parsing t) : always (parsecmd (n + 1) f rightpipe) (fun _ _ _ => False)
      (fun _ _ t' => acted t' = some ⟨.debugf "too many arguments\n", ()⟩) g t := by
  unfold parsecmd
  simp only [always_bind, always_gettoken, always_call, always_get, always_modify, hc, always_ite,
    always_exit]
  rintro ⟨⟩
  refine ⟨fun _ r r' => ?_, fun hroom => absurd hfull hroom⟩
  have hact : ∀ u, acted (taken g f t ++ ⟨.debugf "too many arguments\n", r⟩ :: u) =
      some ⟨.debugf "too many arguments\n", r⟩ := acted_snoc (ht.taken g f) rfl
  exact acted_append (hact []) _

theorem always_eof (n : Nat) (rightpipe : Int) (hc : g.nc = .eof)
    (h : Q (f.result, f.argv, rightpipe) (g.next.setFlag false) (taken g f t)) :
    always (parsecmd (n + 1) f rightpipe) Q E g t := by
  unfold parsecmd
  simp only [always_bind, always_gettoken, always_call, always_get, always_modify, hc, always_pure]
  rintro ⟨⟩
  exact h

/-- The pieces are taken one by one, if there is room. -/
theorem always_pieces (n : Nat) (rightpipe : Int) (hr : Reads l rest)
    (hlook : Looks g done (sources l ++ rest)) (hroom : f.argc + l.length ≤ MAXARGS) (ht : Parsing t)
    (h : ∀ g' t', Looks g' (done ++ memory l) rest → Parsing t' →
      always (parsecmd n (f.pushes (places done.length l)) rightpipe) Q E g' t') :
    always (parsecmd (n + l.length) f rightpipe) Q E g t := by
  induction l generalizing done g f t with
  | nil => exact h g t (by simpa [memory, sources] using hlook) ht
  | cons p l ih =>
    obtain ⟨hnc, hp1, hlook', hr'⟩ := hlook.piece hr
    rw [List.length_cons] at hroom
    refine always_word _ rightpipe hnc (by omega) ?_
    have hpush : (f.push g.np1).argc = f.argc + 1 := rfl
    refine ih hr' hlook'.setFlags (by omega) (ht.taken g f) fun g' t' hg ht' => ?_
    have hmem : done ++ p.image ++ memory l = done ++ memory (p :: l) := by
      simp [memory]
    have hlen : (done ++ p.image).length = done.length + p.image.length := List.length_append
    rw [hmem] at hg
    rw [hp1, hlen]
    exact h g' t' hg ht'

/-- The pieces are too many. -/
theorem always_many (n : Nat) (rightpipe : Int) (hr : Reads l rest)
    (hlook : Looks g done (sources l ++ rest)) (hfit : f.argc ≤ MAXARGS)
    (hmany : MAXARGS < f.argc + l.length) (ht : Parsing t) :
    always (parsecmd (n + l.length) f rightpipe) (fun _ _ _ => False)
      (fun _ _ t' => acted t' = some ⟨.debugf "too many arguments\n", ()⟩) g t := by
  induction l generalizing done g f t with
  | nil =>
    rw [List.length_nil] at hmany
    omega
  | cons p l ih =>
    obtain ⟨hnc, hp1, hlook', hr'⟩ := hlook.piece hr
    rw [List.length_cons] at hmany
    by_cases hfull : MAXARGS ≤ f.argc
    · exact always_full _ rightpipe hnc hfull ht
    · have hpush : (f.push g.np1).argc = f.argc + 1 := rfl
      refine always_word _ rightpipe hnc (by omega) ?_
      exact ih hr' hlook'.setFlags (by omega) (by omega) (ht.taken g f)

end

/-! ## The command -/

section

variable {t : Trace} {argc : Nat} {argv : Argv}

theorem finish_spawns {ws : List Str} (hw : Words argv argc) (rightpipe : Int) (ht : Parsing t)
    (hwords : ((List.range argc).map fun i => text g.buf (argv i)) = ws)
    (hext : ∀ name, ws.head? = some name → name ∉ builtins) (hne : ws ≠ []) :
    always (finish argc argv rightpipe) (fun _ _ _ => False) (fun _ _ t' => SpawnsWith ws t') g t := by
  have hpos : 0 < argc := by
    rcases Nat.eq_zero_or_pos argc with rfl | hpos
    · exact absurd hwords.symm hne
    · exact hpos
  refine always_mono (finish_command hpos hw rightpipe g t) (fun _ _ _ => False.elim) ?_
  rintro e g' _ ⟨-, u, rfl, hu⟩
  rcases hu with ⟨hb, -⟩ | ⟨-, child, v, rfl, -⟩
  · refine absurd hb (hext _ ?_)
    obtain ⟨m, rfl⟩ := Nat.exists_eq_succ_of_ne_zero (by omega : argc ≠ 0)
    rw [← hwords, List.range_succ_eq_map]
    rfl
  · exact ⟨argv 0, child, by rw [hwords]; exact acted_snoc ht rfl v⟩

def Call.isSpawn : Call → Bool
  | .spawn .. => true
  | _ => false

theorem builtin_spawns_nothing {prog : Str} (hb : prog ∈ builtins) (argv : Argv) (g : Statics)
    (t : Trace) : always (runBuiltin prog argv) (fun _ _ _ => False)
      (fun _ _ t' => Adds (fun c => !c.isSpawn) t t') g t := by
  have h0 : Adds (fun c => !c.isSpawn) t t := .refl t
  unfold runBuiltin executeJobs executeFg executeKill
  simp only [always_ite, always_bind, always_string, always_call, always_exit, always_pure]
  refine ⟨fun _ r r' => (h0.snoc rfl).snoc rfl, fun hj => ⟨fun _ => ⟨fun s _ r => ?_, fun _ => h0⟩,
    fun hf => ⟨fun _ => ⟨fun s _ r r' => (h0.snoc rfl).snoc rfl, fun _ => h0⟩,
      fun hk => ⟨fun _ r r' => (h0.snoc rfl).snoc rfl, fun hh => ?_⟩⟩⟩⟩
  · exact ⟨fun _ r₁ r₂ => ((h0.snoc rfl).snoc rfl).snoc rfl, fun _ r₁ =>
      ⟨fun _ r₂ r₃ => (((h0.snoc rfl).snoc rfl).snoc rfl).snoc rfl,
        fun _ r₂ r₃ => (((h0.snoc rfl).snoc rfl).snoc rfl).snoc rfl⟩⟩
  · simp [builtins, hj, hf, hk, hh] at hb

/-- If the process acts by a `spawn`, then with this word there. -/
def SpawnsAt (i : Nat) (a : Str) (t : Trace) : Prop :=
  ∀ p ws r, acted t = some ⟨.spawn p ws, r⟩ → ws[i]? = some a

theorem spawnsAt_of_acted {i : Nat} {a : Str} {e : Event} (h : acted t = some e)
    (he : e.1.isSpawn = false) : SpawnsAt i a t := by
  intro p ws r hs
  obtain rfl := Option.some.inj (h.symm.trans hs)
  cases he

theorem finish_spawnsAt {i p : Nat} {a : Str} (hi : i < argc) (hw : Words argv argc)
    (hp : argv i = some p) (ha : text g.buf (some p) = a) (rightpipe : Int) (ht : Parsing t) :
    always (finish argc argv rightpipe) (fun _ _ _ => False) (fun _ _ t' => SpawnsAt i a t') g t := by
  by_cases hb : text g.buf (argv 0) ∈ builtins
  · have hlt : Function.update argv argc none 0 = argv 0 := Function.update_of_ne (by omega) ..
    obtain ⟨s, hs⟩ := Option.isSome_iff_exists.mp (hw 0 (by omega))
    have htext : cstr g.buf s ∈ builtins := by
      rw [hs] at hb
      exact hb
    unfold finish
    rw [if_neg (by omega), always_bind, always_string, hlt]
    refine ⟨fun s' hs' => ?_, fun hn => absurd (hn.symm.trans hs) nofun⟩
    obtain rfl : s = s' := Option.some.inj (hs.symm.trans hs')
    rw [always_bind]
    refine always_mono (builtin_spawns_nothing htext _ g t) (fun _ _ _ => False.elim) ?_
    rintro e g' _ ⟨u, rfl, hu⟩ q ws r hacted
    rw [acted_parsing ht] at hacted
    have hmem := (List.dropWhile_suffix isTakes).subset (List.mem_of_head? hacted)
    have hno := hu _ hmem
    cases hno
  · refine always_mono (finish_command (by omega) hw rightpipe g t) (fun _ _ _ => False.elim) ?_
    rintro e g' _ ⟨-, u, rfl, hu⟩
    rcases hu with ⟨hb', -⟩ | ⟨-, child, v, rfl, -⟩
    · exact absurd hb' hb
    · intro q ws r hs
      obtain ⟨⟩ := (acted_snoc ht rfl v).symm.trans hs
      rw [List.getElem?_map, List.getElem?_range hi, Option.map_some, hp, ha]

end

/-! ## Behind a quote that was cut -/

/-- The memory up to the end of `done` stays as it is. -/
structure Kept (done : Str) (g : Statics) : Prop where
  buf : done <+: g.buf
  next : ∀ e, g.np2 = some e → done.length ≤ e

theorem prefix_set {buf : Str} (h : done <+: buf) {i : Nat} (hi : done.length ≤ i) (c : Byte) :
    done <+: buf.set i c := by
  obtain ⟨x, rfl⟩ := h
  rw [List.set_append_right _ _ hi]
  exact List.prefix_append done _

theorem prefix_clear {buf : Str} (h : done <+: buf) {i : Nat} (hi : done.length ≤ i) (e : Nat) :
    done <+: clear buf i e := by
  obtain ⟨x, rfl⟩ := h
  unfold clear
  rw [List.take_append, List.take_of_length_le hi, List.append_assoc, List.append_assoc]
  exact List.prefix_append done _

theorem kept_gettoken {buf : Str} (h : done <+: buf) {i : Nat} (hi : done.length ≤ i) :
    done <+: (_gettoken buf (some i)).buf := by
  have hle := scan_ge (strchr WHITESPACE) buf i
  have hclear := prefix_clear h hi (scan (strchr WHITESPACE) buf i)
  unfold _gettoken
  simp only
  generalize clear buf i (scan (strchr WHITESPACE) buf i) = b at *
  generalize scan (strchr WHITESPACE) buf i = e at *
  have hset : ∀ j c, e ≤ j → done <+: b.set j c := fun j c hj => prefix_set hclear (by omega) c
  split_ifs
  · exact hset _ _ (Nat.le_of_succ_le (scan_ge _ _ _))
  · exact prefix_set (hset e 0 (Nat.le_refl e))
      (Nat.le_trans (by omega) (scan_ge _ _ (e + 1))) 0
  · exact hclear
  · exact hset _ _ (Nat.le_succ e)
  · exact hset _ _ (Nat.le_succ e)
  · exact hset _ _ (Nat.le_succ e)
  · exact hset _ _ (Nat.le_refl e)
  · exact hclear

theorem kept_scanned {buf : Str} (h : done <+: buf) {i : Nat} (hi : done.length ≤ i) :
    Kept done (g.scanned (_gettoken buf (some i))) := by
  refine ⟨kept_gettoken h hi, fun e he => ?_⟩
  have hfits := gettoken_fits buf i
  by_cases heof : (_gettoken buf (some i)).tok = .eof
  · exact nomatch (hfits.eof heof).symm.trans he
  · obtain ⟨e', he', hlt, -⟩ := hfits.moves heof
    obtain rfl := Option.some.inj (he'.symm.trans he)
    omega

theorem Looks.kept (h : Looks g done rest) : Kept done g := by
  unfold Looks at h
  rw [h]
  exact kept_scanned (List.prefix_append done rest) (Nat.le_refl _)

theorem Looks.sound (h : Looks g done rest) : g.Sound := by
  unfold Looks at h
  rw [h]
  exact scanned_sound (g := { g with buf := done ++ rest }) (gettoken_fits _ _)

theorem Kept.next_token (h : Kept done g) : Kept done g.next := by
  unfold Statics.next
  cases hp : g.np2 with
  | none => exact ⟨h.buf, nofun⟩
  | some e => exact kept_scanned h.buf (h.next e hp)

theorem Kept.setFlag (h : Kept done g) (flag : Bool) : Kept done (g.setFlag flag) := ⟨h.buf, h.next⟩

theorem Kept.setJobFlag (h : Kept done g) (jobFlag : Bool) : Kept done (g.setJobFlag jobFlag) :=
  ⟨h.buf, h.next⟩

section

variable {t : Trace} {i p : Nat} {a : Str}

/-- The process has not acted by a `spawn`. -/
def ActsOtherwise (t : Trace) : Prop := ∃ e, acted t = some e ∧ e.1.isSpawn = false

theorem ActsOtherwise.spawnsAt (h : ActsOtherwise t) : SpawnsAt i a t := by
  obtain ⟨e, hacted, he⟩ := h
  exact spawnsAt_of_acted hacted he

theorem always_otherwise {α : Type} (h : ActsOtherwise t) (x : Sh α) (g : Statics) :
    always x (fun _ _ t' => ActsOtherwise t') (fun _ _ t' => SpawnsAt i a t') g t := by
  obtain ⟨e, hacted, he⟩ := h
  exact always_mono (always_acted hacted x g) (fun _ _ _ h => ⟨e, h, he⟩)
    fun _ _ _ h => spawnsAt_of_acted h he

theorem acts_otherwise (ht : Parsing t) {e : Event} (he : isTakes e = false)
    (hs : e.1.isSpawn = false) : ActsOtherwise (t ++ [e]) := ⟨e, acted_snoc ht he [], hs⟩

theorem openTarget_acts (mode : Nat) (notWord failed : String) (g : Statics) (ht : Parsing t) :
    always (openTarget mode notWord failed) (fun _ _ t' => ActsOtherwise t')
      (fun _ _ t' => SpawnsAt i a t') g t := by
  have hend : ∀ {e : Event} (u : Trace), isTakes e = false → e.1.isSpawn = false →
      SpawnsAt i a (t ++ [e] ++ u) := fun u he hs =>
    spawnsAt_of_acted (acted_append (acted_snoc ht he []) u) hs
  unfold openTarget
  simp only [always_bind, always_call, always_ite, always_pure, always_exit, always_gettoken,
    always_string]
  refine ⟨fun _ r r' => hend [_] rfl rfl, fun _ => ⟨fun s _ r => ⟨fun _ r₁ r₂ => ?_, fun _ => ?_⟩,
    fun _ p ws r hs => ?_⟩⟩
  · have h := hend (e := ⟨.open (cstr g.next.buf s) mode, r⟩)
      [⟨.debugf failed, r₁⟩, ⟨.closeAll, r₂⟩] rfl rfl
    simpa using h
  · exact acts_otherwise ht rfl rfl
  · cases (acted_none ht).symm.trans hs

theorem redirect_acts {x : Int → Sh Unit} (mode : Nat) (notWord failed : String) (g : Statics)
    (ht : Parsing t) : always (do let fd ← openTarget mode notWord failed; x fd)
      (fun _ _ t' => ActsOtherwise t') (fun _ _ t' => SpawnsAt i a t') g t := by
  rw [always_bind]
  refine always_mono (openTarget_acts mode notWord failed g ht) ?_ fun _ _ _ h => h
  exact fun fd g' t' hacts => always_otherwise hacts (x fd) g'

/-- The rest of the line cannot change the word. -/
theorem rest_spawnsAt (n : Nat) (f : Frame) (rightpipe : Int) (g : Statics) (hk : Kept done g)
    (hg : g.Sound) (hf : Words f.argv f.argc) (hi : i < f.argc) (hp : f.argv i = some p)
    (htext : ∀ buf, done <+: buf → text buf (some p) = a) (hm : f.mark = true) (ht : Parsing t) :
    always (parsecmd n f rightpipe)
      (fun r g' t' => always (finish r.1 r.2.1 r.2.2) (fun _ _ t' => ActsOtherwise t')
        (fun _ _ t' => SpawnsAt i a t') g' t') (fun _ _ t' => SpawnsAt i a t') g t := by
  induction n generalizing f g t with
  | zero =>
    unfold parsecmd
    rw [always_throw]
    intro p ws r hs
    cases (acted_none ht).symm.trans hs
  | succ n ih =>
  have htaken := ht.taken g f
  have hother : ∀ {t' : Trace} (x : Sh (Nat × Argv × Int)) (g' : Statics), ActsOtherwise t' →
      always x (fun r g' t' => always (finish r.1 r.2.1 r.2.2) (fun _ _ t' => ActsOtherwise t')
        (fun _ _ t' => SpawnsAt i a t') g' t') (fun _ _ t' => SpawnsAt i a t') g' t' := fun x g' h =>
    always_mono (always_otherwise h x g') (fun _ _ _ h => always_otherwise h _ _) fun _ _ _ h => h
  unfold parsecmd
  simp only [always_bind, always_gettoken, always_call, always_get, always_modify]
  rintro ⟨⟩
  change always _ _ _ _ (taken g f t)
  have hkeep := hk.next_token.setFlag false
  have hsound : g.nc ≠ .eof → (g.next.setFlag false).Sound := fun hc =>
    ((later_next hg hc).setFlag false).1
  have hacts : ∀ {e : Event}, isTakes e = false → e.1.isSpawn = false →
      ActsOtherwise (taken g f t ++ [e]) := acts_otherwise htaken
  have hredirect : ∀ x : Sh Unit, (∀ g', always x (fun _ _ t' => ActsOtherwise t')
      (fun _ _ t' => SpawnsAt i a t') g' (taken g f t)) →
      always (do x; parsecmd n f rightpipe)
        (fun r g' t' => always (finish r.1 r.2.1 r.2.2) (fun _ _ t' => ActsOtherwise t')
          (fun _ _ t' => SpawnsAt i a t') g' t') (fun _ _ t' => SpawnsAt i a t')
        (g.next.setFlag false) (taken g f t) := by
    intro x hx
    rw [always_bind]
    exact always_mono (hx _) (fun _ g' _ h => hother _ g' h) fun _ _ _ h => h
  cases hc : g.nc with
  | eof =>
    have hresult : f.result = f.argc := if_pos hm
    rw [always_pure, hresult]
    exact always_mono (finish_spawnsAt hi hf hp (htext _ hkeep.buf) rightpipe htaken)
      (fun _ _ _ => False.elim) fun _ _ _ h => h
  | word =>
    have hne : g.nc ≠ .eof := by simp [hc]
    simp only [always_bind, always_modify, always_ite, always_call, always_exit]
    refine ⟨fun _ r r' => ?_, fun hroom => ?_⟩
    · obtain ⟨e, he, hs⟩ := hacts (e := ⟨.debugf "too many arguments\n", r⟩) rfl rfl
      exact spawnsAt_of_acted (acted_append he _) hs
    · have hargc : (f.push g.np1).argc = f.argc + 1 := rfl
      refine ih (f.push g.np1) _ (hkeep.setJobFlag false) ?_ (words_push hf (hg.word hne))
        (by omega) ((Function.update_of_ne (by omega) ..).trans hp) hm htaken
      exact ((later_next hg hne).setFlag false).setJobFlag false |>.1
  | less => exact hredirect _ fun g' => redirect_acts _ _ _ g' htaken
  | great => exact hredirect _ fun g' => redirect_acts _ _ _ g' htaken
  | append => exact hredirect _ fun g' => redirect_acts _ _ _ g' htaken
  | paren => exact ih f _ hkeep (hsound (by simp [hc])) hf hi hp hm htaken
  | pipe =>
    rw [always_bind, always_call]
    exact fun r => hother _ _ (hacts rfl rfl)
  | semi =>
    rw [always_bind, always_call]
    exact fun r => hother _ _ (hacts rfl rfl)
  | amp =>
    rw [always_bind, always_modify, always_bind, always_call]
    exact fun r => hother _ _ (hacts rfl rfl)
  | and =>
    rw [always_bind, always_modify, always_bind, always_call]
    exact fun r => hother _ _ (hacts rfl rfl)
  | or =>
    rw [always_bind, always_modify, always_bind, always_call]
    exact fun r => hother _ _ (hacts rfl rfl)
  | backquote =>
    obtain ⟨s, hs⟩ := Option.isSome_iff_exists.mp (hg.word (by simp [hc]))
    simp only [hs]
    rw [always_bind, always_runcmdWith]
    intro argv
    have hacted := hacts (e := ⟨.uninit, argv⟩) rfl rfl
    refine always_mono (always_otherwise hacted _ _) (fun r g' t' h => ?_) fun _ _ _ h => h
    exact always_mono (always_otherwise h _ g') (fun _ g'' _ h => hother _ g'' h) fun _ _ _ h => h

end

/-! ## The line -/

theorem blank_bytes (hgap : IsBlank gap) : ∀ c ∈ gap, c ≠ 0 ∧ c ≠ ch '#' := by
  intro c hc
  have hblank := hgap c hc
  constructor
  · rintro rfl
    exact absurd hblank (by decide)
  · rintro rfl
    exact absurd hblank (by decide)

/-- The bytes of pieces that hide no comment. -/
theorem sources_bytes (h : Pieces l) (hno : ∀ p ∈ l, p.hidesComment = false) :
    ∀ c ∈ sources l, c ≠ 0 ∧ c ≠ ch '#' := by
  induction l with
  | nil => nofun
  | cons p l ih =>
    intro c hc
    have hno' : ∀ p ∈ l, p.hidesComment = false := fun q hq => hno q (List.mem_cons_of_mem p hq)
    unfold sources at hc
    rw [List.flatMap_cons] at hc
    cases p with
    | word gap w =>
      rcases List.mem_append.mp hc with hc | hc
      · rcases List.mem_append.mp hc with hc | hc
        · exact blank_bytes h.1 c hc
        · obtain ⟨hw, hne⟩ := h.2.1.bytes c hc
          exact ⟨((wordByte_iff c).mp hw).1, hne⟩
      · exact ih h.2.2.2 hno' c hc
    | quoted gap s =>
      have hs : ch '#' ∉ s := by simpa [Piece.hidesComment] using hno _ List.mem_cons_self
      rcases List.mem_append.mp hc with hc | hc
      · rcases List.mem_append.mp hc with hc | hc
        · exact blank_bytes h.1 c hc
        · rcases List.mem_cons.mp hc with rfl | hc
          · decide
          · rcases List.mem_append.mp hc with hc | hc
            · refine ⟨(h.2.1 c hc).1, ?_⟩
              rintro rfl
              exact hs hc
            · obtain rfl := List.mem_singleton.mp hc
              decide
      · exact ih h.2.2 hno' c hc

theorem cut_first {pre : Str} (post : Str) {x : Byte} (hpre : ∀ c ∈ pre, c ≠ 0 ∧ c ≠ ch '#')
    (hx : x = 0 ∨ x = ch '#') :
    (pre ++ x :: post).set (scan (fun c => c != 0 && c != ch '#') (pre ++ x :: post) 0) 0 =
      pre ++ 0 :: post := by
  have hstop : ∀ c, (x :: post).head? = some c → (c != 0 && c != ch '#') = false := by
    intro c hc
    obtain rfl := Option.some.inj hc
    rcases hx with rfl | rfl <;> rfl
  have hscan : scan (fun c => c != 0 && c != ch '#') ([] ++ (pre ++ x :: post)) 0 = 0 + pre.length :=
    scan_append [] (fun c hc => by simpa using hpre c hc) hstop
  rw [List.nil_append, Nat.zero_add] at hscan
  rw [hscan, set_append]

theorem length_le_sources (h : Pieces l) : l.length ≤ (sources l).length := by
  induction l with
  | nil => exact Nat.zero_le _
  | cons p l ih =>
    unfold sources at ih ⊢
    rw [List.flatMap_cons, List.length_append, List.length_cons]
    cases p with
    | word gap w =>
      have hpos := List.length_pos_iff.mpr h.2.1.nonempty
      have hrest := ih h.2.2.2
      simp only [Piece.source, List.length_append]
      omega
    | quoted gap s =>
      have hrest := ih h.2.2
      simp only [Piece.source, List.length_append, List.length_cons]
      omega

theorem parsing_start {t : Trace} (h : Adds Call.onFile [] t) (argv : Argv) :
    Parsing (t ++ [⟨.uninit, argv⟩]) := by
  obtain ⟨u, ht, hu⟩ := h
  obtain rfl : t = u := ht
  refine ⟨t, argv, [], rfl, fun e he => ?_, nofun⟩
  have hfile := hu e he
  obtain ⟨c, r⟩ := e
  cases c
  all_goals first | rfl | cases hfile

/-- The shell comes to its loop with the cut line. -/
theorem lineShell_rule {buf cut : Str} {P : Trace → Prop}
    (hcut : buf.set (scan (fun c => c != 0 && c != ch '#') buf 0) 0 = cut)
    (h : ∀ g t argv, Looks g [] cut → Parsing t →
      always (parsecmd (enough buf) ⟨0, argv, true⟩ 0)
        (fun r g' t' => always (finish r.1 r.2.1 r.2.2) (fun _ g' t' => always (exit : Sh Unit)
          (fun _ _ t' => P t') (fun _ _ t' => P t') g' t') (fun _ _ t' => P t') g' t')
        (fun _ _ t' => P t') g t)
    (w : Proc.World Call Reply) : P (lineRun buf w).1 := by
  have hall : always (lineShell (enough buf)) (fun _ _ t' => P t') (fun _ _ t' => P t') (.ofLine buf)
      [] := by
    unfold lineShell
    simp only [always_bind, always_get, always_modify]
    refine always_mono (saveHistoryCmd_onFile _ _ _) ?_ fun _ _ _ => False.elim
    rintro _ _ t ⟨rfl, ht⟩
    unfold runcmd
    rw [always_runcmdWith]
    intro argv
    refine h _ _ argv ?_ (parsing_start ht argv)
    unfold Looks
    rw [List.nil_append, ← hcut]
    rfl
  rcases hr : lineRun buf w with ⟨t, e | a, g⟩
  · exact always_run_error hall hr
  · exact always_run_ok hall hr

theorem Looks.ends (h : Looks g done (gap ++ 0 :: junk)) (hgap : IsBlank gap) :
    g.nc = .eof ∧ ∃ junk', g.next.buf = done ++ 0 :: junk' := by
  unfold Looks at h
  rw [gettoken_blank hgap (fun c hc => by
    obtain rfl := Option.some.inj hc
    decide), gettoken_end] at h
  have hnp2 : g.np2 = none := congrArg Statics.np2 h
  have hbuf : g.buf = done ++ List.replicate gap.length 0 ++ 0 :: junk := congrArg Statics.buf h
  have hnext : g.next.buf = g.buf := by
    unfold Statics.next
    rw [hnp2]
    rfl
  refine ⟨congrArg Statics.nc h, ?_⟩
  rw [hnext, hbuf]
  cases gap with
  | nil => exact ⟨junk, by simp⟩
  | cons b gap => exact ⟨List.replicate gap.length 0 ++ 0 :: junk, by simp [List.replicate_succ]⟩

theorem enough_gt (pre post : Str) {n : Nat} (h : n ≤ pre.length) :
    ∃ k, enough (pre ++ post) = k + 1 + n := by
  have hle : (pre ++ post).length + 3 ≤ enough (pre ++ post) := by
    unfold enough
    exact Nat.le_mul_of_pos_left _ (Nat.succ_pos _)
  rw [List.length_append] at hle
  exact ⟨enough (pre ++ post) - (n + 1), by omega⟩

theorem words_pushes {f : Frame} (hf : Words f.argv f.argc) (ps : List Nat) :
    Words (f.pushes ps).argv (f.pushes ps).argc := by
  induction ps generalizing f with
  | nil => exact hf
  | cons p ps ih => exact ih (f := f.push (some p)) (words_push hf rfl)

section

variable {x : Line}

theorem comment_head (h : x.Valid) (junk : Str) :
    ∃ b post, x.comment ++ 0 :: junk = b :: post ∧ (b = 0 ∨ b = ch '#') := by
  rcases h.comment with hnil | ⟨hhead, -⟩
  · exact ⟨0, junk, by rw [hnil]; rfl, Or.inl rfl⟩
  · obtain ⟨post, hpost⟩ := List.head?_eq_some_iff.mp hhead
    exact ⟨ch '#', post ++ 0 :: junk, by rw [hpost]; rfl, Or.inr rfl⟩

theorem line_cut (h : x.Valid) (hno : ∀ p ∈ x.pieces, p.hidesComment = false) (junk : Str) :
    ∃ junk', (x.source ++ 0 :: junk).set
      (scan (fun c => c != 0 && c != ch '#') (x.source ++ 0 :: junk) 0) 0 =
        sources x.pieces ++ (x.gap ++ 0 :: junk') := by
  obtain ⟨b, post, hpost, hb⟩ := comment_head h junk
  have hsplit : x.source ++ 0 :: junk = (sources x.pieces ++ x.gap) ++ b :: post := by
    unfold Line.source
    rw [← hpost]
    simp only [List.append_assoc]
  refine ⟨post, ?_⟩
  rw [hsplit, cut_first post _ hb, List.append_assoc]
  intro c hc
  rcases List.mem_append.mp hc with hc | hc
  · exact sources_bytes h.pieces hno c hc
  · exact blank_bytes h.gap c hc

theorem line_fuel (h : x.Valid) (junk : Str) :
    ∃ k, enough (x.source ++ 0 :: junk) = k + 1 + x.pieces.length := by
  unfold Line.source
  rw [List.append_assoc]
  exact enough_gt _ _ (length_le_sources h.pieces)

theorem gap_stops (hgap : IsBlank gap) (junk : Str) (c : Byte)
    (hc : (gap ++ 0 :: junk).head? = some c) : wordByte c = false := by
  cases gap with
  | nil =>
    obtain rfl := Option.some.inj hc
    decide
  | cons b gap =>
    obtain rfl := Option.some.inj hc
    exact blank_not_word (hgap b List.mem_cons_self)

/-- The reference splitting is what `spawn` gets. -/
theorem spawnsWith_words (h : x.Valid) (hno : ∀ p ∈ x.pieces, p.hidesComment = false)
    (hfit : x.pieces.length ≤ MAXARGS) (hne : x.pieces ≠ [])
    (hext : ∀ name, x.words.head? = some name → name ∉ builtins) (junk : Str)
    (w : Proc.World Call Reply) : SpawnsWith x.words (lineRun (x.source ++ 0 :: junk) w).1 := by
  obtain ⟨junk', hcut⟩ := line_cut h hno junk
  obtain ⟨k, hk⟩ := line_fuel h junk
  have hstop : ∀ c, (x.gap ++ 0 :: junk').head? = some c → wordByte c = false :=
    gap_stops h.gap junk'
  refine lineShell_rule hcut (fun g t argv hlook ht => ?_) w
  rw [hk]
  refine always_pieces (k + 1) 0 (reads_of_pieces h.pieces hstop) hlook (by simpa using hfit) ht ?_
  intro g' t' hlook' ht'
  obtain ⟨hc, junk'', hbuf⟩ := hlook'.ends h.gap
  refine always_eof k 0 hc ?_
  have hargc := pushes_argc ⟨0, argv, true⟩ (places ([] : Str).length x.pieces)
  have hargv := (pushes_argv ⟨0, argv, true⟩ (places ([] : Str).length x.pieces)).2
  have hmark := pushes_mark ⟨0, argv, true⟩ (places ([] : Str).length x.pieces)
  have hwords := words_pushes (f := ⟨0, argv, true⟩) (words_none argv)
    (places ([] : Str).length x.pieces)
  generalize (Frame.mk 0 argv true).pushes (places ([] : Str).length x.pieces) = f at *
  have hresult : f.result = f.argc := if_pos hmark
  rw [hresult]
  have htexts : ((List.range f.argc).map fun i => text g'.next.buf (f.argv i)) = x.words := by
    have hplaces : (places ([] : Str).length x.pieces).map (fun p => text ([] ++ memory x.pieces ++
        0 :: junk'') (some p)) = x.words := places_texts h.pieces []
    rw [← hplaces, hbuf]
    refine List.ext_getElem (by simpa using hargc) fun i h₁ h₂ => ?_
    rw [List.getElem_map, List.getElem_map, List.getElem_range]
    have hi := hargv i (by simpa using h₂)
    rw [Nat.zero_add] at hi
    rw [hi]
  refine always_mono (finish_spawns hwords 0 (ht'.taken g' f) htexts hext ?_)
    (fun _ _ _ => False.elim) fun _ _ _ h => h
  simpa [Line.words] using hne

theorem not_spawnsWith_many (h : x.Valid) (hno : ∀ p ∈ x.pieces, p.hidesComment = false)
    (hmany : MAXARGS < x.pieces.length) (ws : List Str) (junk : Str) (w : Proc.World Call Reply) :
    ¬ SpawnsWith ws (lineRun (x.source ++ 0 :: junk) w).1 := by
  obtain ⟨junk', hcut⟩ := line_cut h hno junk
  obtain ⟨k, hk⟩ := line_fuel h junk
  have hstop : ∀ c, (x.gap ++ 0 :: junk').head? = some c → wordByte c = false :=
    gap_stops h.gap junk'
  refine lineShell_rule (P := fun t => ¬ SpawnsWith ws t) hcut (fun g t argv hlook ht => ?_) w
  rw [hk]
  refine always_mono (always_many (k + 1) 0 (reads_of_pieces h.pieces hstop) hlook (Nat.zero_le _)
    (by simpa using hmany) ht) (fun _ _ _ => False.elim) ?_
  rintro _ _ t' hacted ⟨p, r, hs⟩
  exact nomatch hacted.symm.trans hs

theorem first_hidden (h : ∃ p ∈ l, p.hidesComment = true) :
    ∃ l₁ gap s l₂, l = l₁ ++ .quoted gap s :: l₂ ∧ (∀ p ∈ l₁, p.hidesComment = false) ∧
      ch '#' ∈ s := by
  induction l with
  | nil => simp at h
  | cons p l ih =>
    by_cases hp : p.hidesComment = true
    · cases p with
      | word gap w => cases hp
      | quoted gap s =>
        exact ⟨[], gap, s, l, rfl, nofun, by simpa [Piece.hidesComment] using hp⟩
    · obtain ⟨q, hq, hhides⟩ := h
      have hql : q ∈ l := by
        rcases List.mem_cons.mp hq with rfl | hq
        · exact absurd hhides hp
        · exact hq
      obtain ⟨l₁, gap, s, l₂, rfl, hno, hs⟩ := ih ⟨q, hql, hhides⟩
      refine ⟨p :: l₁, gap, s, l₂, rfl, fun q hq => ?_, hs⟩
      rcases List.mem_cons.mp hq with rfl | hq
      · simpa using hp
      · exact hno q hq

/-- A `#` in a quoted string cuts the word there. -/
theorem spawnsAt_cut (hl : Pieces (l ++ .quoted gap s :: l'))
    (hno : ∀ p ∈ l, p.hidesComment = false) {a b : Str} (hs : s = a ++ ch '#' :: b)
    (ha : ch '#' ∉ a) (after : Str) (w : Proc.World Call Reply) :
    SpawnsAt l.length a (lineRun (sources (l ++ .quoted gap s :: l') ++ after) w).1 := by
  have hquoted := (pieces_behind hl).2.1
  have hgap := (pieces_behind hl).1
  have hqa : IsQuoted a := fun c hc => hquoted c (by rw [hs]; exact List.mem_append_left _ hc)
  have hsplit : sources (l ++ .quoted gap s :: l') ++ after =
      (sources l ++ (gap ++ ch '"' :: a)) ++
        ch '#' :: (b ++ ch '"' :: (sources l' ++ after)) := by
    rw [hs]
    simp [sources, Piece.source]
  have hbytes : ∀ c ∈ sources l ++ (gap ++ ch '"' :: a), c ≠ 0 ∧ c ≠ ch '#' := by
    intro c hc
    rcases List.mem_append.mp hc with hc | hc
    · exact sources_bytes (pieces_front hl) hno c hc
    · rcases List.mem_append.mp hc with hc | hc
      · exact blank_bytes hgap c hc
      · rcases List.mem_cons.mp hc with rfl | hc
        · decide
        · refine ⟨(hqa c hc).1, ?_⟩
          rintro rfl
          exact ha hc
  have hcut := cut_first (b ++ ch '"' :: (sources l' ++ after)) hbytes (Or.inr rfl)
  obtain ⟨k, hk⟩ := enough_gt (sources (l ++ .quoted gap s :: l')) after (length_le_sources hl)
  have hfuel : k + 1 + (l ++ .quoted gap s :: l').length = (k + l'.length + 1) + 1 + l.length := by
    rw [List.length_append, List.length_cons]
    omega
  rw [hsplit] at hk ⊢
  refine lineShell_rule hcut (fun g t argv hlook ht => ?_) w
  rw [hk, hfuel]
  have hreads : Reads l (gap ++ ch '"' :: (a ++ 0 :: (b ++ ch '"' :: (sources l' ++ after)))) :=
    reads_before hl _
  have hlook' : Looks g []
      (sources l ++ (gap ++ ch '"' :: (a ++ 0 :: (b ++ ch '"' :: (sources l' ++ after))))) := by
    simpa using hlook
  generalize b ++ ch '"' :: (sources l' ++ after) = post at hreads hlook'
  have hfull : ∀ {e : Event} {t' : Trace}, acted t' = some e → e.1.isSpawn = false →
      SpawnsAt l.length a t' := fun h => spawnsAt_of_acted h
  by_cases hmany : MAXARGS < l.length
  · refine always_mono (always_many _ 0 hreads hlook' (Nat.zero_le _) (by simpa using hmany) ht)
      (fun _ _ _ => False.elim) fun _ _ _ h => hfull h rfl
  refine always_pieces _ 0 hreads hlook' (by simpa using Nat.le_of_not_lt hmany) ht ?_
  intro g' t' hlook₁ ht'
  obtain ⟨hnc, hp1, hnext⟩ := hlook₁.quoted hgap hqa (Or.inl rfl)
  have hsound : g'.next.Sound := hnext.sound
  have hargc := pushes_argc ⟨0, argv, true⟩ (places ([] : Str).length l)
  have hmark := pushes_mark ⟨0, argv, true⟩ (places ([] : Str).length l)
  have hwords := words_pushes (f := ⟨0, argv, true⟩) (words_none argv)
    (places ([] : Str).length l)
  generalize (Frame.mk 0 argv true).pushes (places ([] : Str).length l) = f at *
  rw [length_places, Nat.zero_add] at hargc
  by_cases hroom : f.argc < MAXARGS
  · refine always_word _ 0 hnc hroom ?_
    have hpush : (f.push g'.np1).argc = f.argc + 1 := rfl
    have hself : (f.push g'.np1).argv l.length = some (([] ++ memory l).length + gap.length + 1) := by
      rw [← hargc, ← hp1]
      exact Function.update_self ..
    refine always_mono (rest_spawnsAt (a := a) _ (f.push g'.np1) 0 _
      ((hnext.kept.setFlag false).setJobFlag false) ⟨hsound.word, hsound.eof, hsound.moves⟩
      (words_push hwords (by rw [hp1]; rfl)) (by omega) hself ?_ hmark (ht'.taken g' f)) ?_
      fun _ _ _ h => h
    · rintro _ ⟨post', rfl⟩
      exact quoted_text hqa _ gap post'
    · refine fun r g₁ t₁ h => always_mono h (fun _ g₂ t₂ h₂ => ?_) fun _ _ _ h => h
      exact always_mono (always_otherwise h₂ exit g₂) (fun _ _ _ h => h.spawnsAt) fun _ _ _ h => h
  · refine always_mono (always_full _ 0 hnc (Nat.le_of_not_lt hroom) ht')
      (fun _ _ _ => False.elim) fun _ _ _ h => hfull h rfl

/-- `spawn` gets the reference splitting in every world exactly if no quoted string has a `#` and
the words fit into `argv`. -/
theorem words_spawned_iff (h : x.Valid) (hne : x.pieces ≠ [])
    (hext : ∀ name, x.words.head? = some name → name ∉ builtins) (junk : Str) :
    (∀ w, SpawnsWith x.words (lineRun (x.source ++ 0 :: junk) w).1) ↔
      (∀ p ∈ x.pieces, p.hidesComment = false) ∧ x.pieces.length ≤ MAXARGS := by
  constructor
  · intro hall
    have hno : ∀ p ∈ x.pieces, p.hidesComment = false := by
      by_contra hhides
      push Not at hhides
      obtain ⟨p, hp, hhides⟩ := hhides
      obtain ⟨l, gap, s, l', hl, hno, hs⟩ := first_hidden ⟨p, hp, by simpa using hhides⟩
      obtain ⟨a, b, hsplit, ha⟩ := List.eq_append_cons_of_mem hs
      have hpieces := h.pieces
      rw [hl] at hpieces
      obtain ⟨q, r, hacted⟩ := hall (calm 7)
      have hsource : x.source ++ 0 :: junk =
          sources (l ++ .quoted gap s :: l') ++ (x.gap ++ x.comment ++ 0 :: junk) := by
        unfold Line.source
        rw [hl, List.append_assoc]
      rw [hsource] at hacted
      have hword := spawnsAt_cut hpieces hno hsplit ha _ (calm 7) q _ r hacted
      unfold Line.words at hword
      rw [hl, List.map_append, List.getElem?_append_right (by simp)] at hword
      have heq : s = a := by simpa [Piece.text] using hword
      rw [hsplit] at heq
      simp at heq
    refine ⟨hno, ?_⟩
    by_contra hmany
    exact not_spawnsWith_many h hno (by omega) _ junk (calm 7) (hall (calm 7))
  · rintro ⟨hno, hfit⟩ w
    exact spawnsWith_words h hno hfit hne hext junk w

end

/-- `echo "a b" # "` -/
theorem words_spawned_iff_echo :
    SpawnsWith [bytes "echo", bytes "a b"] (lineRun (bytes "echo \"a b\" # \"" ++ [0]) (calm 7)).1 :=
  have hv : (⟨[.word [] (bytes "echo"), .quoted (bytes " ") (bytes "a b")], bytes " ",
      bytes "# \""⟩ : Line).Valid :=
    ⟨⟨by decide +kernel, by decide +kernel, by simp [Parted, Piece.gap, bytes, ch],
      by decide +kernel, by
        unfold IsQuoted
        decide +kernel, trivial⟩, by decide +kernel, Or.inr (by decide +kernel)⟩
  (words_spawned_iff hv nofun (by decide +kernel) []).mpr
    ⟨by decide +kernel, by decide +kernel⟩ (calm 7)

/-- `echo "a#b"` -/
def hiddenComment : Line := ⟨[.word [] (bytes "echo"), .quoted (bytes " ") (bytes "a#b")], [], []⟩

/-- The words of the `spawn` that the process acts by. -/
def spawnedWords (t : Trace) : Option (List Str) :=
  match acted t with
  | some ⟨.spawn _ ws, _⟩ => some ws
  | _ => none

theorem spawnsWith_iff {t : Trace} {ws : List Str} : SpawnsWith ws t ↔ spawnedWords t = some ws := by
  unfold SpawnsWith spawnedWords
  split
  case h_1 p ws' r h =>
    rw [h, Option.some.injEq]
    constructor
    · rintro ⟨p', r', heq⟩
      cases heq
      rfl
    · rintro rfl
      exact ⟨p, r, rfl⟩
  case h_2 hne =>
    refine ⟨fun ⟨p, r, h⟩ => absurd h (hne p ws r), nofun⟩

/-- `echo "a#b"` is spawned with the words `echo`, `a` and `b"`. -/
theorem not_words_spawned : hiddenComment.Valid ∧
    SpawnsWith [bytes "echo", bytes "a", bytes "b\""]
      (lineRun (hiddenComment.source ++ [0]) (calm 7)).1 ∧
    ¬ ∀ w, SpawnsWith hiddenComment.words (lineRun (hiddenComment.source ++ [0]) w).1 := by
  have hrun : spawnedWords (lineRun (hiddenComment.source ++ [0]) (calm 7)).1 =
      some [bytes "echo", bytes "a", bytes "b\""] := by
    decide +kernel
  have hne : some [bytes "echo", bytes "a", bytes "b\""] ≠ some hiddenComment.words := by
    decide +kernel
  refine ⟨⟨⟨by decide +kernel, by decide +kernel, by simp [Parted, Piece.gap, bytes, ch],
    by decide +kernel, by
      unfold IsQuoted
      decide +kernel, trivial⟩, by decide +kernel, Or.inl rfl⟩, spawnsWith_iff.mpr hrun,
    fun hall => ?_⟩
  exact hne (hrun.symm.trans (spawnsWith_iff.mp (hall (calm 7))))

end Mos.Shell
