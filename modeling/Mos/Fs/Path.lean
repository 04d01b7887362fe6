import Mathlib.Data.List.DropRight
import Mathlib.Data.List.TakeWhile
import Mos.Fs.File

/-!
# Paths as lists of names

`walk_path` scans a string, and goes down the tree while it does. What it finds is what a
fold over the names between the slashes finds.
-/

namespace Mos.Fs

open Lib (Bytes Proc Prog)

/-! ## Names of a path -/

/-- The names of a path: what stands between its slashes, without what is empty. -/
def components (path : Name) : List Name := (path.splitOnP isSlash).filter (· ≠ [])

theorem components_nil : components [] = [] := by
  unfold components
  rw [List.splitOnP_nil]
  rfl

theorem components_append (a b : Name) {c : UInt8} (hc : isSlash c = true) :
    components (a ++ c :: b) = components a ++ components b := by
  unfold components
  rw [List.splitOnP_append_cons a b hc, List.filter_append]

theorem components_cons (b : Name) {c : UInt8} (hc : isSlash c = true) :
    components (c :: b) = components b := by
  have h := components_append [] b hc
  rwa [List.nil_append, components_nil, List.nil_append] at h

theorem components_skipSlash (path : Name) : components (skipSlash path) = components path := by
  induction path with
  | nil => rfl
  | cons c path ih =>
    unfold skipSlash at ih ⊢
    rw [List.dropWhile_cons]
    split
    · rename_i hc
      rw [ih, components_cons path hc]
    · rfl

theorem components_name {name : Name} (h : ∀ c ∈ name, isSlash c = false) (hne : name ≠ []) :
    components name = [name] := by
  unfold components
  rw [List.splitOnP_eq_singleton h]
  simpa using hne

theorem slash_first {c : UInt8} {path : Name} (hskip : skipSlash (c :: path) = c :: path) :
    isSlash c = false := by
  by_contra hc
  have hlen := congrArg List.length hskip
  have hle := (List.dropWhile_sublist (l := path) isSlash).length_le
  unfold skipSlash at hlen
  rw [List.dropWhile_cons_of_pos (by simpa using hc), List.length_cons] at hlen
  omega

/-- The string up to the first slash is the first name. -/
theorem components_first {path : Name} (hne : path ≠ []) (hskip : skipSlash path = path) :
    components path = path.takeWhile (!isSlash ·) ::
      components (skipSlash (path.dropWhile (!isSlash ·))) := by
  obtain ⟨c, l, rfl⟩ := List.exists_cons_of_ne_nil hne
  have hc := slash_first hskip
  have hname : ∀ x ∈ (c :: l).takeWhile (!isSlash ·), isSlash x = false := by
    intro x hx
    simpa using List.mem_takeWhile_imp hx
  have hfirst : (c :: l).takeWhile (!isSlash ·) ≠ [] := by
    rw [List.takeWhile_cons_of_pos (by simpa using hc)]
    exact List.cons_ne_nil _ _
  have hall : (c :: l).takeWhile (!isSlash ·) ++ (c :: l).dropWhile (!isSlash ·) = c :: l :=
    List.takeWhile_append_dropWhile
  generalize (c :: l).takeWhile (!isSlash ·) = name at hname hfirst hall ⊢
  rcases hrest : (c :: l).dropWhile (!isSlash ·) with _ | ⟨d, rest⟩
  · rw [hrest, List.append_nil] at hall
    rw [← hall, components_name hname hfirst, components_skipSlash, components_nil]
  · have hd : isSlash d = true := by
      have := List.head_dropWhile_not (fun x => !isSlash x) (w := by rw [hrest]; exact List.cons_ne_nil _ _)
      simpa [hrest] using this
    rw [hrest] at hall
    rw [← hall, components_append name rest hd, components_name hname hfirst, components_skipSlash,
      components_cons rest hd]
    rfl

/-! ## The fold -/

/-- A name is looked up in a file that may be a directory. -/
def enter (file : Nat) (name : Name) : Serv Walk := do
  if name.length ≥ MAXNAMELEN then
    return .failed .badPath
  else if (← loadWord (typeAt file)) ≠ FTYPE_DIR then
    return .failed .notFound
  else
    match ← dirLookup file name with
    | .ok f => return .found file f
    | .error .notFound => return .missing file name
    | .error e => return .failed e

/-- One name more. Nothing is below a file that is missing. -/
def Walk.advance : Walk → Name → Serv Walk
  | .found _ file, name => enter file name
  | .missing .., _ => return .failed .notFound
  | .failed e, _ => return .failed e

theorem foldlM_failed (e : Err) (names : List Name) :
    names.foldlM Walk.advance (.failed e) = pure (.failed e) := by
  induction names with
  | nil => rfl
  | cons name names ih =>
    rw [List.foldlM_cons]
    exact (pure_bind ..).trans ih

theorem foldlM_missing (dir : Nat) (name : Name) (names : List Name) :
    names.foldlM Walk.advance (.missing dir name) =
      pure (if names = [] then .missing dir name else .failed .notFound) := by
  rcases names with _ | ⟨next, names⟩
  · rfl
  · rw [List.foldlM_cons, if_neg (List.cons_ne_nil _ _)]
    exact (pure_bind ..).trans (foldlM_failed ..)

theorem components_eq_nil {path : Name} (hskip : skipSlash path = path) :
    components path = [] ↔ path = [] := by
  constructor
  · intro h
    by_contra hne
    rw [components_first hne hskip] at h
    exact absurd h (List.cons_ne_nil _ _)
  · rintro rfl
    exact components_nil

theorem skipSlash_skipSlash (path : Name) : skipSlash (skipSlash path) = skipSlash path :=
  List.dropWhile_idempotent _ _

theorem length_first {path : Name} (hne : path ≠ []) (hskip : skipSlash path = path) :
    (skipSlash (path.dropWhile (!isSlash ·))).length < path.length := by
  obtain ⟨c, l, rfl⟩ := List.exists_cons_of_ne_nil hne
  have hc := slash_first hskip
  have h1 := (List.dropWhile_sublist (l := (c :: l).dropWhile (!isSlash ·)) isSlash).length_le
  have h2 := (List.dropWhile_sublist (l := l) (!isSlash ·)).length_le
  unfold skipSlash
  rw [List.dropWhile_cons_of_pos (by simpa using hc)] at h1 ⊢
  rw [List.length_cons]
  omega

theorem walkFrom_eq (n : Nat) (path : Name) (dir file : Nat) (hn : path.length < n)
    (hskip : skipSlash path = path) :
    walkFrom n path dir file = (components path).foldlM Walk.advance (.found dir file) := by
  induction n generalizing path dir file with
  | zero => exact absurd hn (Nat.not_lt_zero _)
  | succ n ih =>
    unfold walkFrom
    by_cases hne : path = []
    · rw [if_pos hne, hne, components_nil]
      rfl
    · have hrest := skipSlash_skipSlash (path.dropWhile (!isSlash ·))
      have hlen := length_first hne hskip
      rw [if_neg hne, components_first hne hskip, List.foldlM_cons]
      simp only
      generalize path.takeWhile (!isSlash ·) = name
      generalize skipSlash (path.dropWhile (!isSlash ·)) = rest at hrest hlen ⊢
      show _ = enter file name >>= fun w => (components rest).foldlM Walk.advance w
      unfold enter
      by_cases hlong : name.length ≥ MAXNAMELEN
      · rw [if_pos hlong, if_pos hlong, pure_bind, foldlM_failed]
      · rw [if_neg hlong, if_neg hlong, bind_assoc]
        congr 1
        funext type
        by_cases htype : type ≠ FTYPE_DIR
        · rw [if_pos htype, if_pos htype, pure_bind, foldlM_failed]
        · rw [if_neg htype, if_neg htype, bind_assoc]
          congr 1
          funext r
          rcases r with e | f
          · rcases e <;> simp [foldlM_failed, foldlM_missing, components_eq_nil hrest]
          · rw [pure_bind]
            exact ih rest file f (by omega) hrest

theorem walkPath_eq (path : Name) :
    walkPath path = (do (components path).foldlM Walk.advance (.found 0 (← get).root)) := by
  have hlen := (List.dropWhile_sublist (l := path) isSlash).length_le
  unfold walkPath
  congr 1
  funext s
  have heq := walkFrom_eq (path.length + 1) (skipSlash path) 0 s.root (Nat.lt_succ_of_le hlen)
    (skipSlash_skipSlash path)
  rwa [components_skipSlash] at heq

theorem components_slash (a b : Name) {c : UInt8} (hc : isSlash c = true)
    (h : a = [] ∨ b = [] ∨ (∃ d ∈ a.getLast?, isSlash d = true) ∨ ∃ d ∈ b.head?, isSlash d = true) :
    components (a ++ c :: b) = components (a ++ b) := by
  rw [components_append a b hc]
  rcases h with rfl | rfl | ⟨d, hd, hslash⟩ | ⟨d, hd, hslash⟩
  · rw [components_nil, List.nil_append, List.nil_append]
  · rw [components_nil, List.append_nil, List.append_nil]
  · obtain ⟨a, rfl⟩ := List.getLast?_eq_some_iff.mp hd
    rw [List.append_assoc, List.singleton_append, components_append a b hslash,
      components_append a [] hslash, components_nil, List.append_nil]
  · obtain ⟨b, rfl⟩ := List.head?_eq_some_iff.mp hd
    rw [components_append a b hslash, components_cons b hslash]

end Mos.Fs
