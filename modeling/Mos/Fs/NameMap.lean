import Mos.Fs.Naming

/-!
# The tree as a map

From outside, the tree is a map from paths to files with their types. Making a file adds one
path to it, removing one takes away the path and what is below it, and nothing else that is
asked or stored changes it.
-/

namespace Mos.Fs

open Lib (Bytes Cond provided within)
open Lib.Proc (Trace World)

/-! ## Maps of paths -/

instance : DecidablePred Proper := fun names =>
  inferInstanceAs (Decidable (∀ name ∈ names, name ≠ [] ∧ 0 ∉ name))

/-- The file and the type behind each path. -/
abbrev Paths := List Name → Option (Nat × Nat)

def paths (c : Bytes) : Paths := fun names => if Proper names then entry c names else none

def Paths.add (m : Paths) (path : List Name) (f ty : Nat) : Paths :=
  Function.update m path (some (f, ty))

/-- The path goes, with all that is below it. -/
def Paths.cut (m : Paths) (path : List Name) : Paths := fun names =>
  if path <+: names then none else m names

/-- Requests find things in order, and memory can only run out. -/
def calm (s : Server) : Cond Call Reply where
  Holds t := (tidy s).Holds t ∧ memory.Holds t
  closed h := ⟨(tidy s).closed h.1, memory.closed h.2⟩

section

variable {n : Nat} {s s' : Server} {w : World Call Reply} {t : Trace Call Reply}

theorem calm_nil (s : Server) : (calm s).Holds [] := ⟨tidy_nil s, fun _ he => nomatch he⟩

theorem calm_gives (s : Server) : Gives (calm s) s.inUse := fun t f u b c h => tidy_gives s t f u b c h.1

theorem calm_creates (s : Server) : Creates (calm s) := fun t f mode c h => tidy_creates s t f mode c h.1

theorem calm_flushes (s : Server) : Flushes (calm s) s.inUse := fun t d c h => tidy_flushes s t d c h.1

/-- The server's tree is in order, and so are its directories. -/
structure InOrder (n : Nat) (s : Server) : Prop where
  tree : Tree n s.inUse s
  dirs : Orderly s.inUse s.content

theorem InOrder.of_kept (hk : Kept s s') (htree : Tree n s.inUse s')
    (ho : Orderly s.inUse s'.content) : InOrder n s' := by
  have hZ := inUse_congr hk.fileOf
  exact ⟨hZ ▸ htree, hZ ▸ ho⟩

theorem paths_congr {c c' : Bytes} (h : ∀ names, Proper names → entry c' names = entry c names) :
    paths c' = paths c := by
  funext names
  unfold paths
  split
  · rw [h names ‹_›]
  · rfl

theorem paths_add {c c' : Bytes} {path : List Name} (hpath : Proper path) {f ty : Nat}
    (h : ∀ names, Proper names → entry c' names = if names = path then some (f, ty) else entry c names) :
    paths c' = (paths c).add path f ty := by
  funext names
  unfold paths Paths.add
  by_cases heq : names = path
  · rw [heq, if_pos hpath, Function.update_self, h path hpath, if_pos rfl]
  · rw [Function.update_of_ne heq]
    split
    · rw [h names ‹_›, if_neg heq]
    · rfl

theorem paths_cut {c c' : Bytes} {path : List Name}
    (h : ∀ names, Proper names → entry c' names = if path <+: names then none else entry c names) :
    paths c' = (paths c).cut path := by
  funext names
  show (if Proper names then entry c' names else none) =
    if path <+: names then none else if Proper names then entry c names else none
  by_cases hnames : Proper names
  · rw [if_pos hnames, if_pos hnames, h names hnames]
  · rw [if_neg hnames, if_neg hnames, ite_self]

theorem paths_missing {c : Bytes} {path : List Name} {d : Nat} {name : Name} (hpath : Proper path)
    (h : resolve c path = .missing d name) :
    paths c path = none ∧ paths c path.dropLast = some (d, FTYPE_DIR) := by
  obtain ⟨above, parent, rfl, habove, -, ht, -⟩ := resolve_missing.mp h
  unfold paths
  rw [if_pos hpath, List.dropLast_concat, if_pos hpath.init, entry_found habove, ht]
  refine ⟨entry_none.mpr fun d' g => ?_, rfl⟩
  rw [h]
  exact nofun

theorem paths_found {c : Bytes} {path : List Name} {d g : Nat} (hpath : Proper path)
    (h : resolve c path = .found d g) : paths c path ≠ none := by
  unfold paths
  rw [if_pos hpath, entry_found h]
  exact Option.some_ne_none _

end

/-! ## The map of the empty image -/

theorem inOrder_fresh : InOrder 1024 fresh := by
  have hroot : ∀ {g}, IsFile fresh.content ∅ g → g = diskAddr 1 + 8 :=
    isFile_bare fun _ => held_fresh _
  have hsize : fresh.content.word (sizeAt (diskAddr 1 + 8)) = 0 := by decide +kernel
  refine ⟨tree_fresh, ?_⟩
  rw [inUse_fresh]
  refine ⟨noHoles_fresh, fun d hd _ _ i _ => ?_, fun d hd _ => ?_, fun g hg hu => ?_⟩
  · rw [hroot hd]
    exact held_fresh _
  · rw [hroot hd]
    intro g hg
    rw [slots_empty hsize] at hg
    exact absurd hg List.not_mem_nil
  · exact absurd (Or.inl (hroot hg)) hu

/-- The file `a` is made in the empty tree. -/
def made : Trace Call Reply × Except Stop (Except Err Nat) × Server :=
  (fileCreate 0 [97]).run (obliging fun _ => 0) fresh

theorem made_run : (fileCreate 0 [97]).run (obliging fun _ => 0) fresh =
    (made.1, .ok (.ok (diskAddr 3)), made.2.2) := by
  have h : made.2.1 = .ok (.ok (diskAddr 3)) := by decide +kernel
  rw [← h]
  rfl

theorem calm_made : (calm fresh).Holds made.1 :=
  ⟨tidy_checks files_fresh (by decide +kernel), memory_obliging _ _ _⟩

theorem inUse_made : made.2.2.inUse = ∅ := by
  rw [← inUse_fresh]
  exact inUse_congr fun j => by
    have h := (Lib.provided_run_ok (fileCreate_stays (E := AnyStop) tree_fresh (calm_gives fresh)
      (calm_creates fresh) 0 [97]) made_run (calm_nil fresh) calm_made).kept
    exact h.fileOf j

theorem files_made : ∀ z ∈ made.2.2.inUse, z ∈ [] := by
  rw [inUse_made]
  exact fun _ hz => absurd hz (Set.notMem_empty _)

/-- `a` is removed from there. -/
def unmade : Trace Call Reply × Except Stop (Except Err Unit) × Server :=
  (fileRemove [97] 0).run (obliging fun _ => 0) made.2.2

theorem unmade_run : (fileRemove [97] 0).run (obliging fun _ => 0) made.2.2 =
    (unmade.1, .ok (.ok ()), unmade.2.2) := by
  have h : unmade.2.1 = .ok (.ok ()) := by decide +kernel
  rw [← h]
  rfl

theorem calm_unmade : (calm made.2.2).Holds unmade.1 :=
  ⟨tidy_checks files_made (by decide +kernel), memory_obliging _ _ _⟩

/-! ## Making and removing files -/

section

variable {n : Nat} {s s' : Server} {w : World Call Reply} {t : Trace Call Reply}

theorem InOrder.create (hs : InOrder n s) {path : Name} (hpath : 0 ∉ path) {mode f : Nat}
    (hrun : (fileCreate mode path).run w s = (t, .ok (.ok f), s')) (ht : (calm s).Holds t) :
    InOrder n s' ∧ (∃ d name, resolve s.content (components path) = .missing d name) ∧
      ∀ names, Proper names → entry s'.content names =
        if names = components path then some (f, typeOf mode) else entry s.content names := by
  have hstays := Lib.provided_run_ok (fileCreate_stays (E := AnyStop) hs.tree (calm_gives s)
    (calm_creates s) mode path) hrun (calm_nil s) ht
  obtain ⟨hmissing, ho, hentries⟩ := Lib.provided_run_ok (fileCreate_entries (E := AnyStop)
    hs.tree hs.dirs (calm_gives s) (calm_creates s) (fun _ h => h.2) hpath mode) hrun (calm_nil s) ht
  exact ⟨.of_kept hstays.kept (hstays.tree hs.tree) ho, hmissing, hentries⟩

/-- The path of the new file leads to it from the root, however many slashes there are. -/
theorem walkPath_exact_made :
    resolve made.2.2.content (components [47, 47, 97]) = .found (diskAddr 1 + 8) (diskAddr 3) ∧
    ∃ r, ((walkPath [47, 47, 97]).run (obliging fun _ => 0) made.2.2).2.1 = .ok r ∧
      Means 1024 made.2.2.content (resolve made.2.2.content (components [47, 47, 97])) r
        ((walkPath [47, 47, 97]).run (obliging fun _ => 0) made.2.2).2.2
        ((walkPath [47, 47, 97]).run (obliging fun _ => 0) made.2.2).1 := by
  have hs := (inOrder_fresh.create (by decide) made_run calm_made).1
  refine ⟨by decide +kernel, ?_⟩
  exact walkPath_exact.2.2.1 1024 _ made.2.2 [47, 47, 97] (obliging fun _ => 0) _ _ _
    hs.tree.toReady hs.dirs.full rfl (memory_obliging _ _ _)

/-- A file that is made binds its path, which was unbound in a directory, and changes no other. -/
theorem create_binds (hs : InOrder n s) {path : Name} (hpath : 0 ∉ path) {mode f : Nat}
    (hrun : (fileCreate mode path).run w s = (t, .ok (.ok f), s')) (ht : (calm s).Holds t) :
    InOrder n s' ∧ paths s.content (components path) = none ∧
      (∃ d, paths s.content (components path).dropLast = some (d, FTYPE_DIR)) ∧
      paths s'.content = (paths s.content).add (components path) f (typeOf mode) := by
  obtain ⟨hs', ⟨d, name, hmissing⟩, hentries⟩ := hs.create hpath hrun ht
  have hproper := proper_components hpath
  obtain ⟨hnone, hparent⟩ := paths_missing hproper hmissing
  exact ⟨hs', hnone, ⟨d, hparent⟩, paths_add hproper hentries⟩

/-- `a` gets the first slot. -/
theorem create_binds_fresh :
    InOrder 1024 made.2.2 ∧ paths fresh.content (components [97]) = none ∧
      (∃ d, paths fresh.content (components [97]).dropLast = some (d, FTYPE_DIR)) ∧
      paths made.2.2.content = (paths fresh.content).add (components [97]) (diskAddr 3) (typeOf 0) :=
  create_binds inOrder_fresh (by decide) made_run calm_made

/-- A file that is removed unbinds its path and those below it, and no other. A removal that fails
changes nothing. -/
theorem remove_unbinds (hs : InOrder n s) {path : Name} (hpath : 0 ∉ path)
    (hroot : components path ≠ []) {type : Nat} {r : Except Err Unit}
    (hrun : (fileRemove path type).run w s = (t, .ok r, s')) (ht : (calm s).Holds t) :
    InOrder n s' ∧ match r with
      | .ok _ => paths s.content (components path) ≠ none ∧
        paths s'.content = (paths s.content).cut (components path)
      | .error _ => paths s'.content = paths s.content := by
  obtain ⟨hk, htree⟩ := Lib.provided_run_ok (fileRemove_tree (E := AnyStop) hs.tree (calm_gives s)
    (calm_flushes s) (fun _ _ _ _ => trivial) path type) hrun (calm_nil s) ht
  obtain ⟨ho, hr⟩ := Lib.provided_run_ok (fileRemove_entries (E := AnyStop) hs.tree hs.dirs
    (calm_gives s) (calm_flushes s) (fun _ h => h.2) (fun _ _ _ _ => trivial) hpath hroot type) hrun
    (calm_nil s) ht
  refine ⟨.of_kept hk htree ho, ?_⟩
  rcases r with e | u
  · exact paths_congr fun names _ => hr names
  · obtain ⟨⟨d, f, hfound⟩, hentries⟩ := hr
    exact ⟨paths_found (proper_components hpath) hfound, paths_cut hentries⟩

/-- `a` is removed again. -/
theorem remove_unbinds_made :
    InOrder 1024 unmade.2.2 ∧ paths made.2.2.content (components [97]) ≠ none ∧
      paths unmade.2.2.content = (paths made.2.2.content).cut (components [97]) :=
  remove_unbinds (inOrder_fresh.create (by decide) made_run calm_made).1 (by decide) (by decide)
    unmade_run calm_unmade

end

/-! ## Requests on open files -/

section

variable {n : Nat} {Z F : Set Nat} {c c' : Bytes}

theorem entry_same (hn : NoHoles Z c)
    (htypes : ∀ g, IsFile c Z g → c'.word (typeAt g) = c.word (typeAt g))
    (hlookups : ∀ g, IsFile c Z g → c.word (typeAt g) = FTYPE_DIR → ∀ name,
      name.length < MAXNAMELEN → lookup c' g name = lookup c g name) (names : List Name) :
    resolve c' names = resolve c names ∧ entry c' names = entry c names := by
  have hres : resolve c' names = resolve c names := by
    induction names using List.reverseRecOn with
    | nil => rfl
    | append_singleton q name ih =>
      rw [resolve_snoc, resolve_snoc, ih]
      rcases hq : resolve c q with ⟨d, g⟩ | ⟨d, nm⟩ | e
      · have hg := found_isFile hn hq
        show below c' g name = below c g name
        unfold below
        rw [htypes g hg]
        by_cases hlong : name.length ≥ MAXNAMELEN
        · rw [if_pos hlong, if_pos hlong]
        · by_cases ht : c.word (typeAt g) ≠ FTYPE_DIR
          · rw [if_neg hlong, if_neg hlong, if_pos ht, if_pos ht]
          · rw [if_neg hlong, if_neg hlong, if_neg ht, if_neg ht,
              hlookups g hg (not_not.mp ht) name (Nat.lt_of_not_le hlong)]
      · rfl
      · rfl
  refine ⟨hres, ?_⟩
  unfold entry
  rw [hres]
  rcases hold : resolve c names with ⟨d, g⟩ | ⟨d, nm⟩ | e
  · show some (g, c'.word (typeAt g)) = some (g, c.word (typeAt g))
    rw [htypes g (found_isFile hn hold)]
  · rfl
  · rfl

/-- An ordinary file that has a name. -/
structure Plain (c : Bytes) (f : Nat) : Prop where
  type : c.word (typeAt f) ≠ FTYPE_DIR
  used : Used c f

/-- The directories are in order, and every path means what it meant. -/
structure SameNames (Z : Set Nat) (c c' : Bytes) : Prop where
  dirs : Orderly Z c'
  entries : ∀ names, entry c' names = entry c names

theorem SameNames.refl (ho : Orderly Z c) : SameNames Z c c := ⟨ho, fun _ => rfl⟩

theorem SameFiles.names (h : SameFiles n Z c c') (ho : Orderly Z c) : SameNames Z c c' :=
  ⟨h.orderly ho, h.entry ho.full⟩

/-- What an ordinary file with a name holds may change. -/
theorem Plain.names {f : Nat} (hf : Plain c f) (ho : Orderly Z c)
    (hsame : ∀ g, IsFile c Z g → g ≠ f → SameFile F c c' g) (htitle : Titled f c c') :
    SameNames Z c c' := by
  have ht' : c'.word (typeAt f) ≠ FTYPE_DIR := fun h => hf.type (htitle.type.symm.trans h)
  have htouches : Touches Z F f c c' := ⟨hsame, fun ht => absurd ht ht'⟩
  have hdir : ∀ d, IsFile c' Z d → c'.word (typeAt d) = FTYPE_DIR →
      IsFile c Z d ∧ c.word (typeAt d) = FTYPE_DIR ∧ SameFile F c c' d := by
    intro d hd ht
    have hdf : d ≠ f := fun h => ht' (h ▸ ht)
    have hd' := htouches.isFile hd
    exact ⟨hd', (hsame d hd' hdf).type.symm.trans ht, hsame d hd' hdf⟩
  have hholds : ∀ g, IsFile c Z g → ∀ name : Name, name.length < MAXNAMELEN →
      c'.holds g name = c.holds g name := by
    intro g hg name hlong
    by_cases hgf : g = f
    · subst hgf
      exact holds_name (fun k hk => htitle k (by omega) (Or.inl hk)) hlong
    · exact (hsame g hg hgf).holds hlong
  refine ⟨⟨fun d hd ht => ?_, fun d hd ht hu i hi => ?_, fun d hd ht => ?_, fun g hg hu => ?_⟩,
    fun names => (entry_same ho.full (fun g hg => ?_) (fun g hg ht name hlong => ?_) names).2⟩
  · obtain ⟨hd, ht, hkeep⟩ := hdir d hd ht
    exact hkeep.full (ho.full d hd ht)
  · obtain ⟨hd, ht, hkeep⟩ := hdir d hd ht
    rw [hkeep.size] at hi
    rw [hkeep.held]
    exact ho.tight d hd ht (hkeep.used.mp hu) i hi
  · obtain ⟨hd, ht, hkeep⟩ := hdir d hd ht
    have hfile : ∀ {x}, x ∈ slots c d → IsFile c Z x := slot_isFile hd ht (ho.full.full hd ht)
    intro g hg g' hg' name hne h0 hlong h1 h2
    rw [hkeep.slots] at hg hg'
    rw [hholds g (hfile hg) name hlong] at h1
    rw [hholds g' (hfile hg') name hlong] at h2
    exact ho.distinct d hd ht g hg g' hg' name hne h0 hlong h1 h2
  · by_cases hgf : g = f
    · subst hgf
      exact absurd ((used_congr (htitle 0 (by omega) (Or.inl (by omega)))).mpr hf.used) hu
    · have hkeep := hsame g (htouches.isFile hg) hgf
      rw [hkeep.size]
      exact ho.vacant g (htouches.isFile hg) fun hu' => hu (hkeep.used.mpr hu')
  · by_cases hgf : g = f
    · exact hgf ▸ htitle.type
    · exact (hsame g hg hgf).type
  · have hgf : g ≠ f := fun h => hf.type (h ▸ ht)
    exact lookup_congr (hsame g hg hgf).slots fun x hx =>
      hholds x (slot_isFile hg ht (ho.full.full hg ht) hx) name hlong

theorem Intact.names {s s' : Server} (h : Intact s s') (ho : Orderly Z s.content) :
    SameNames Z s.content s'.content := by
  rw [h.content]
  exact .refl ho

end

section

variable {n : Nat} {s s' : Server}

/-- A request on the file `f` that cannot change names: it changes an ordinary file with a name, or
only looks. -/
def Request.Gentle (s : Server) (req : Request) (f : Nat) : Prop :=
  Plain s.content f ∨ req.Looks s f

/-- The requests on open files keep the names. -/
theorem serve_names (hs : InOrder n s) {req : Request} {fileid : Nat}
    (hreq : req.fileid = some fileid) (hgentle : s.fileOf fileid ≠ 0 → req.Gentle s (s.fileOf fileid))
    (envid : Nat) :
    provided (tidy s) (serve envid req)
      (fun _ s' _ => Kept s s' ∧ SameNames s.inUse s.content s'.content) AnyStop s [] := by
  have hself : Kept s s ∧ SameNames s.inUse s.content s.content := ⟨.refl s, .refl hs.dirs⟩
  rw [serve_fileid hreq envid]
  refine withOpen_spec
    (fun _ => ipcSend_keeps (Q := fun s' => Kept s s' ∧ SameNames s.inUse s.content s'.content) hself ..)
    (fun _ _ => ipcSend_keeps (Q := fun s' => Kept s s' ∧ SameNames s.inUse s.content s'.content)
      hself ..) fun r _ hr => Lib.provided_intro fun ht => ?_
  have hne : s.fileOf fileid ≠ 0 := (tidy_last (t := []) ht) hr
  have hf : s.fileOf fileid ∈ s.inUse := ⟨hne, fileid, rfl⟩
  rcases hgentle hne with hplain | hlooks
  · exact Lib.provided_mono (body_spared hs.tree hreq hf envid _)
      (fun _ _ _ _ h => ⟨h.kept, hplain.names hs.dirs h.others h.title⟩) fun _ _ _ _ => id
  · exact Lib.provided_mono (body_intact hs.tree hf hlooks envid _)
      (fun _ _ _ _ h => ⟨h.kept, h.names hs.dirs⟩) fun _ _ _ _ => id

end

/-! ## Requests on paths -/

/-- The flags ask for a file to be made. -/
def Makes (omode : Nat) : Prop := hasFlag omode O_CREAT = true ∨ hasFlag omode O_MKDIR = true

/-- The path is bound to a new file in a directory. -/
def Binds (path : Name) (ty : Nat) (m m' : Paths) : Prop :=
  m (components path) = none ∧ (∃ d, m (components path).dropLast = some (d, FTYPE_DIR)) ∧
    ∃ f, m' = m.add (components path) f ty

/-- What a request that is answered with `v` does to the map. -/
inductive Paths.Does : Request → Int → Paths → Paths → Prop where
  | same {req v m}
      (hopen : ∀ path omode, req = .open path omode → Makes omode.toNat → v = 0 →
        m (components path) ≠ none)
      (hremove : ∀ path type, req = .remove path type → v ≠ 0) : Does req v m m
  | made {path omode m m'} (hflags : Makes omode.toNat)
      (hbinds : Binds path (typeOf omode.toNat) m m') : Does (.open path omode) 0 m m'
  | removed {path type m} (hbound : m (components path) ≠ none) :
      Does (.remove path type) 0 m (m.cut (components path))

section

variable {M : Cond Call Reply} {s : Server} {t : Trace Call Reply} {n : Nat} {Z Z' : Set Nat}
  {c : Bytes}

theorem Orderly.mono (ho : Orderly Z c) (h : ∀ g, IsFile c Z' g → IsFile c Z g) : Orderly Z' c where
  full d hd := ho.full d (h d hd)
  tight d hd := ho.tight d (h d hd)
  distinct d hd := ho.distinct d (h d hd)
  vacant g hg := ho.vacant g (h g hg)

theorem entry_some {names : List Name} {g ty : Nat} (h : entry c names = some (g, ty)) :
    (∃ d, resolve c names = .found d g) ∧ c.word (typeAt g) = ty := by
  unfold entry at h
  rcases hres : resolve c names with ⟨d, f⟩ | ⟨d, name⟩ | e
  · rw [hres] at h
    obtain ⟨rfl, rfl⟩ := Prod.mk.inj (Option.some.inj h)
    exact ⟨⟨d, rfl⟩, rfl⟩
  · rw [hres] at h
    exact nomatch h
  · rw [hres] at h
    exact nomatch h

theorem paths_proper {names : List Name} (h : Proper names) : paths c names = entry c names := if_pos h

theorem code_ne_zero (e : Err) : e.code ≠ 0 := by cases e <;> decide

theorem unsent_within {α : Type} {x : Serv α} {P : α → Prop} (hm : ∀ t, M.Holds t → memory.Holds t)
    (h : within (quiet Any True) x P) :
    provided M x (fun _ _ t' => sends t' = sends t) AnyStop s t := by
  refine Lib.provided_mono (Lib.provided_within (fun t ht => memory_answers t (hm t ht)) h s t) ?_
    fun _ _ _ _ _ => trivial
  rintro _ s' t' - ⟨⟨l, rfl, hl⟩, -⟩
  exact sends_quiet hl

theorem createIf_names (hs : Tree n Z s) (ho : Orderly Z s.content) (hg : Gives M Z)
    (hcreate : Creates M) (hm : ∀ t, M.Holds t → memory.Holds t) {path : Name} (hpath : 0 ∉ path)
    (flag : Bool) (mode : Nat) :
    provided M (createIf flag path mode) (fun r s' t' => sends t' = sends t ∧
      Stays n Z .univ s s' ∧ match r with
        | .error _ => flag = true
        | .ok _ => Orderly Z s'.content ∧ (paths s'.content = paths s.content ∨
          flag = true ∧ Binds path (typeOf mode) (paths s.content) (paths s'.content))) AnyStop s t := by
  unfold createIf
  rw [Lib.provided_ite]
  refine ⟨fun hflag => ?_, fun _ => ?_⟩
  · have hproper := proper_components hpath
    rw [Lib.provided_bind]
    refine Lib.provided_mono (Lib.provided_and (unsent_within hm (within_fileCreate (fun _ => trivial)
      mode path)) (Lib.provided_and (fileCreate_stays (E := AnyStop) hs hg hcreate mode path)
      (fileCreate_entries (E := AnyStop) hs ho hg hcreate hm hpath mode))) (fun r s₁ t₁ _ h => ?_)
      fun _ _ _ _ _ => trivial
    obtain ⟨hsends, hstays, hr⟩ := h
    rcases r with e | f
    · rw [Lib.provided_pure]
      intro _
      by_cases he : e = .fileExists
      · rw [if_pos he]
        rcases hr with ⟨h, -⟩ | ⟨ho₁, hentries⟩
        · rw [h] at he
          exact absurd he (by decide)
        · exact ⟨hsends, hstays, ho₁, Or.inl (paths_congr fun names _ => hentries names)⟩
      · rw [if_neg he]
        exact ⟨hsends, hstays, hflag⟩
    · rw [Lib.provided_pure]
      obtain ⟨⟨d, name, hmissing⟩, ho₁, hentries⟩ := hr
      obtain ⟨hnone, hparent⟩ := paths_missing hproper hmissing
      exact fun _ => ⟨hsends, hstays, ho₁, Or.inr ⟨hflag, hnone, ⟨d, hparent⟩, f,
        paths_add hproper hentries⟩⟩
  · rw [Lib.provided_pure]
    exact fun _ => ⟨rfl, .refl hs.sound, ho, Or.inl rfl⟩

theorem binds_once {path : Name} {ty : Nat} {m m₁ m₂ : Paths} {p q : Prop}
    (h : m₁ = m ∨ p ∧ Binds path ty m m₁) (h' : m₂ = m₁ ∨ q ∧ Binds path ty m₁ m₂) :
    m₂ = m ∨ (p ∨ q) ∧ Binds path ty m m₂ := by
  rcases h with rfl | ⟨hp, hbinds⟩
  · exact h'.imp_right fun h => ⟨Or.inr h.1, h.2⟩
  · rcases h' with rfl | ⟨-, hnone, -⟩
    · exact Or.inr ⟨Or.inl hp, hbinds⟩
    · obtain ⟨-, -, f, rfl⟩ := hbinds
      unfold Paths.add at hnone
      rw [Function.update_self] at hnone
      exact nomatch hnone

theorem truncateIf_names (hs : Tree n Z s) (ho : Orderly Z s.content) (hflush : Flushes M Z)
    (hm : ∀ t, M.Holds t → memory.Holds t) {f : Nat} (hf : f ∈ Z) (hc : s.cached f = true) {flag : Bool}
    (hplain : flag = true → Plain s.content f) :
    provided M (truncateIf flag f) (fun _ s' t' => sends t' = sends t ∧ Kept s s' ∧
      SameNames Z s.content s'.content) AnyStop s t := by
  unfold truncateIf
  rw [Lib.provided_ite]
  refine ⟨fun hflag => ?_, fun _ => ?_⟩
  · refine Lib.provided_mono (Lib.provided_and (unsent_within hm (within_fileSetSize
      (fun _ _ => trivial) (fun _ => trivial) 0)) (fileSetSize_cuts (E := AnyStop) hs.toReady.all_files
      (.extra hf) hc (hs.links f (Or.inr hf)) (hflush.mono fun _ hz => .extra hz)
      (fun _ _ _ _ => trivial) 0)) (fun _ s₁ t₁ _ h => ?_) fun _ _ _ _ _ => trivial
    exact ⟨h.1, h.2.kept, (hplain hflag).names ho (fun g hg hne => h.2.others hg hne) h.2.title⟩
  · rw [Lib.provided_pure]
    exact fun _ => ⟨rfl, .refl s, .refl ho⟩

theorem not_makes_trunc {omode : Nat} (h : hasFlag omode O_TRUNC = true) : typeOf omode ≠ FTYPE_DIR := by
  unfold typeOf
  split
  · rename_i heq
    rw [heq] at h
    exact absurd h (by decide)
  · decide

/-- The file is truncated if that is asked for, and its page is sent. The paths stay. -/
theorem sendOpened_names (hs : Tree n Z s) (ho : Orderly Z s.content) (hflush : Flushes M Z)
    (hm : ∀ t, M.Holds t → memory.Holds t) (hsub : s.inUse ⊆ Z) {f : Nat} (hf : Present Z s f)
    {omode : Nat} (hplain : hasFlag omode O_TRUNC = true → Plain s.content f) (envid i : Nat) :
    provided M (do
        setFile i f
        truncateIf (hasFlag omode O_TRUNC) f
        sendFilefd envid i f omode)
      (fun _ s' t' => (∃ srcva, sends t' = sends t ++ [(envid, 0, srcva)]) ∧
        Orderly s'.inUse s'.content ∧ paths s'.content = paths s.content) AnyStop s t := by
  have hopen : Tree n (insert f Z) (s.setOpen i { s.opentab i with o_file := f }) :=
    (hs.insert hf.isFile hf.linked).setOpen fun _ => hf.cached
  unfold setFile sendFilefd
  rw [Lib.provided_bind, Lib.provided_modify]
  intro _
  rw [Lib.provided_bind]
  refine Lib.provided_mono (truncateIf_names hopen (ho.mono fun g hg => hg.of_files fun z hz => ?_)
    (hflush.mono (Set.subset_insert f Z)) hm (Set.mem_insert f Z) hf.cached hplain)
    (fun _ s₁ t₁ _ h₁ => ?_) fun _ _ _ _ => id
  · rcases Set.mem_insert_iff.mp hz with rfl | hz
    · exact hf.isFile
    · exact .extra hz
  obtain ⟨hsends, hkept, hnames⟩ := h₁
  rw [Lib.provided_bind, Lib.provided_get]
  intro _
  rw [Lib.provided_bind, Lib.provided_set]
  intro _
  refine Lib.provided_mono (ipcSend_spec M envid 0 _ _ _ t₁) (fun _ s' t' _ h => ?_)
    fun _ _ _ _ _ => trivial
  obtain ⟨rfl, hsent⟩ := h
  refine ⟨⟨_, by rw [hsent, hsends]⟩, hnames.dirs.mono fun g hg => hg.of_files fun z hz => ?_, ?_⟩
  · exact .extra (inUse_opened hkept rfl hsub hz)
  · exact paths_congr fun names _ => hnames.entries names

theorem openPath_names (hs : Tree n Z s) (ho : Orderly Z s.content) (hg : Gives M Z)
    (hcreate : Creates M) (hflush : Flushes M Z) (hm : ∀ t, M.Holds t → memory.Holds t)
    (hZ : s.inUse = Z) {path : Name} (hpath : 0 ∉ path) {omode : UInt32}
    (htrunc : hasFlag omode.toNat O_TRUNC = true → ∀ e,
      paths s.content (components path) = some e → e.2 ≠ FTYPE_DIR) (envid i : Nat) :
    provided M (openPath envid i path omode.toNat) (fun _ s' t' => ∃ v srcva,
      sends t' = sends t ++ [(envid, v, srcva)] ∧ ((Makes omode.toNat → v = 0) →
        Orderly s'.inUse s'.content ∧
          Paths.Does (.open path omode) v (paths s.content) (paths s'.content))) AnyStop s t := by
  have hproper := proper_components hpath
  have hrefuse : ∀ {s₁ t₁} {e : Err}, sends t₁ = sends t → Makes omode.toNat →
      provided M (ipcSend envid e.code 0 0) (fun _ s' t' => ∃ v srcva,
        sends t' = sends t ++ [(envid, v, srcva)] ∧ ((Makes omode.toNat → v = 0) →
          Orderly s'.inUse s'.content ∧
            Paths.Does (.open path omode) v (paths s.content) (paths s'.content))) AnyStop s₁ t₁ := by
    intro s₁ t₁ e ht hmakes
    refine Lib.provided_mono (ipcSend_spec M envid e.code 0 0 s₁ t₁) (fun _ s' t' _ h => ?_)
      fun _ _ _ _ _ => trivial
    exact ⟨e.code, 0, by rw [h.2, ht], fun hv => absurd (hv hmakes) (code_ne_zero e)⟩
  unfold openPath replyError
  rw [Lib.provided_bind]
  refine Lib.provided_mono (createIf_names hs ho hg hcreate hm hpath _ omode.toNat)
    (fun r s₁ t₁ _ h => ?_) fun _ _ _ _ => id
  obtain ⟨hsends₁, hstays₁, hr⟩ := h
  rcases r with e | u
  · exact hrefuse hsends₁ (Or.inl hr)
  obtain ⟨ho₁, hmap₁⟩ := hr
  have hs₁ := hstays₁.tree hs
  simp only
  rw [Lib.provided_bind]
  refine Lib.provided_mono (createIf_names hs₁ ho₁ hg hcreate hm hpath _ omode.toNat)
    (fun r s₂ t₂ _ h => ?_) fun _ _ _ _ => id
  obtain ⟨hsends₂, hstays₂, hr⟩ := h
  replace hsends₂ := hsends₂.trans hsends₁
  rcases r with e | u
  · exact hrefuse hsends₂ (Or.inr hr)
  obtain ⟨ho₂, hmap₂⟩ := hr
  have hs₂ := hstays₂.tree hs₁
  have hmap := binds_once hmap₁ hmap₂
  have hkept := hstays₁.kept.trans hstays₂.kept
  simp only
  rw [Lib.provided_bind]
  refine Lib.provided_mono (Lib.provided_and (unsent_within hm (within_fileOpen (fun _ => trivial) path))
    (Lib.provided_and (fileOpen_grown (E := AnyStop) hs₂ hg path)
      (fileOpen_entries (E := AnyStop) hs₂ ho₂ hg hm path))) (fun r s₃ t₃ _ h => ?_)
    fun _ _ _ _ _ => trivial
  obtain ⟨hsends₃, ⟨-, hpresent⟩, ⟨hs₃, hkept₃⟩, ho₃, hentries, hfound, -⟩ := h
  replace hsends₃ := hsends₃.trans hsends₂
  have hpaths : paths s₃.content = paths s₂.content := paths_congr fun names _ => hentries names
  rcases r with e | f
  · -- Nothing was to be made.
    refine Lib.provided_mono (ipcSend_spec M envid e.code 0 0 s₃ t₃) (fun _ s' t' _ h => ?_)
      fun _ _ _ _ _ => trivial
    refine ⟨e.code, 0, by rw [h.2, hsends₃], fun hv => ?_⟩
    have hnot : ¬ Makes omode.toNat := fun hmakes => code_ne_zero e (hv hmakes)
    rw [h.1, inUse_congr (hkept.trans hkept₃).fileOf, hZ, hpaths, hmap.resolve_right fun h => hnot h.1]
    exact ⟨ho₃, .same (fun _ _ _ _ h0 => absurd h0 (code_ne_zero e)) fun _ _ => nofun⟩
  obtain ⟨ty, hentry⟩ := hfound f rfl
  have hf := hpresent f rfl
  have hty : paths s₂.content (components path) = some (f, ty) := (paths_proper hproper).trans hentry
  obtain ⟨⟨d, hres⟩, htype⟩ := entry_some ((hentries _).trans hentry)
  have hplain : hasFlag omode.toNat O_TRUNC = true → Plain s₃.content f := by
    intro hflag
    refine ⟨?_, found_used hres hproper⟩
    rw [htype]
    rcases hmap with heq | ⟨-, -, -, f', heq⟩
    · exact htrunc hflag (f, ty) (heq ▸ hty)
    · rw [heq, Paths.add, Function.update_self] at hty
      obtain ⟨-, rfl⟩ := Prod.mk.inj (Option.some.inj hty)
      exact not_makes_trunc hflag
  have hsub : s₃.inUse ⊆ Z := by rw [inUse_congr (hkept.trans hkept₃).fileOf, hZ]
  refine Lib.provided_mono (sendOpened_names hs₃ ho₃ hflush hm hsub hf hplain envid i)
    (fun _ s' t' _ h => ?_) fun _ _ _ _ => id
  obtain ⟨⟨srcva, hsent⟩, ho₄, hsame⟩ := h
  refine ⟨0, srcva, by rw [hsent, hsends₃], fun _ => ⟨ho₄, ?_⟩⟩
  rw [hsame, hpaths]
  rcases hmap with heq | ⟨hflags, hbinds⟩
  · -- The path was bound before.
    rw [heq] at hty ⊢
    refine .same (fun path' omode' hreq _ _ => ?_) fun _ _ => nofun
    obtain ⟨rfl, -⟩ := Request.open.inj hreq
    rw [hty]
    exact Option.some_ne_none _
  · exact .made hflags hbinds

/-! ## Every request -/

/-- The request cannot break the order of the directories if it is answered with `v`: no file fails
to be made, and only ordinary files that have a name are resized. -/
def Request.Fits (s : Server) (v : Int) : Request → Prop
  | .open path omode => 0 ∉ path ∧ (Makes omode.toNat → v = 0) ∧
    (hasFlag omode.toNat O_TRUNC = true → ∀ e,
      paths s.content (components path) = some e → e.2 ≠ FTYPE_DIR)
  | .remove path _ => 0 ∉ path ∧ components path ≠ []
  | .map fileid offset => s.fileOf fileid.toNat ≠ 0 →
    Request.Gentle s (.map fileid offset) (s.fileOf fileid.toNat)
  | .setSize fileid _ => s.fileOf fileid.toNat ≠ 0 → Plain s.content (s.fileOf fileid.toNat)
  | .close _ | .dirty .. | .sync => True

theorem serveOpen_does (hs : InOrder n s) (envid : Nat) {path : Name} (hpath : 0 ∉ path)
    {omode : UInt32} (htrunc : hasFlag omode.toNat O_TRUNC = true → ∀ e,
      paths s.content (components path) = some e → e.2 ≠ FTYPE_DIR) :
    provided (calm s) (serveOpen envid path omode.toNat) (fun _ s' t' => ∃ v srcva,
      sends t' = [(envid, v, srcva)] ∧ ((Makes omode.toNat → v = 0) → Orderly s'.inUse s'.content ∧
        Paths.Does (.open path omode) v (paths s.content) (paths s'.content))) AnyStop s [] := by
  unfold serveOpen openAlloc replyError
  rw [Lib.provided_bind]
  refine Lib.provided_mono (openFrom_stays hs.tree MAXOPEN 0) (fun r s₁ t₁ _ h => ?_)
    fun _ _ _ _ _ => trivial
  obtain ⟨hs₁, hidle⟩ := h
  have hZ := inUse_congr hidle.files
  have ho₁ : Orderly s.inUse s₁.content := hidle.content ▸ hs.dirs
  have hsends : sends t₁ = [] := hidle.sends
  rcases r with e | i
  · refine Lib.provided_mono (ipcSend_spec _ envid e.code 0 0 s₁ t₁) (fun _ s' t' _ h => ?_)
      fun _ _ _ _ _ => trivial
    obtain ⟨rfl, hsent⟩ := h
    refine ⟨e.code, 0, by rw [hsent, hsends, List.nil_append], fun _ => ⟨hZ ▸ ho₁, ?_⟩⟩
    rw [hidle.content]
    exact .same (fun _ _ _ _ h0 => absurd h0 (code_ne_zero e)) fun _ _ => nofun
  · rw [← hidle.content] at htrunc
    refine Lib.provided_mono (openPath_names hs₁ ho₁ (calm_gives s) (calm_creates s) (calm_flushes s)
      (fun _ h => h.2) hZ hpath htrunc envid i) (fun _ s' t' _ h => ?_) fun _ _ _ _ => id
    rw [hsends, hidle.content] at h
    exact h

theorem serveRemove_does (hs : InOrder n s) (envid : Nat) {path : Name} (hpath : 0 ∉ path)
    (hroot : components path ≠ []) (type : UInt32) :
    provided (calm s) (serveRemove envid path type.toNat) (fun _ s' t' => ∃ v srcva,
      sends t' = [(envid, v, srcva)] ∧ Orderly s'.inUse s'.content ∧
        Paths.Does (.remove path type) v (paths s.content) (paths s'.content)) AnyStop s [] := by
  have hproper := proper_components hpath
  unfold serveRemove replyError
  rw [Lib.provided_bind]
  refine Lib.provided_mono (Lib.provided_and (unsent_within (fun _ h => h.2)
    (within_fileRemove (fun _ => trivial) path _)) (Lib.provided_and
    (fileRemove_tree (E := AnyStop) hs.tree (calm_gives s) (calm_flushes s) (fun _ _ _ _ => trivial)
      path _)
    (fileRemove_entries (E := AnyStop) hs.tree hs.dirs (calm_gives s) (calm_flushes s)
      (fun _ h => h.2) (fun _ _ _ _ => trivial) hpath hroot _))) (fun r s₁ t₁ _ h => ?_)
    fun _ _ _ _ _ => trivial
  obtain ⟨hsends, ⟨hkept, -⟩, ho₁, hr⟩ := h
  have hZ := inUse_congr hkept.fileOf
  rcases r with e | u
  · refine Lib.provided_mono (ipcSend_spec _ envid e.code 0 0 s₁ t₁) (fun _ s' t' _ h => ?_)
      fun _ _ _ _ _ => trivial
    obtain ⟨rfl, hsent⟩ := h
    refine ⟨e.code, 0, by rw [hsent, hsends]; rfl, hZ ▸ ho₁, ?_⟩
    rw [paths_congr fun names _ => hr names]
    exact .same (fun _ _ => nofun) fun _ _ _ => code_ne_zero e
  · refine Lib.provided_mono (ipcSend_spec _ envid 0 0 0 s₁ t₁) (fun _ s' t' _ h => ?_)
      fun _ _ _ _ _ => trivial
    obtain ⟨rfl, hsent⟩ := h
    obtain ⟨⟨d, f, hfound⟩, hentries⟩ := hr
    refine ⟨0, 0, by rw [hsent, hsends]; rfl, hZ ▸ ho₁, ?_⟩
    rw [paths_cut hentries]
    exact .removed (paths_found hproper hfound)

/-- The tree is in order after a request that fits, which does to the map what it is to do. -/
theorem serve_does (hs : InOrder n s) {s' : Server} {w : World Call Reply} {envid : Nat} {req : Request}
    {v : Int} {srcva : Nat} (hrun : (serve envid req).run w s = (t, .ok (), s'))
    (ht : (calm s).Holds t) (hv : sends t = [(envid, v, srcva)]) (hfit : req.Fits s v) :
    InOrder n s' ∧ Paths.Does req v (paths s.content) (paths s'.content) := by
  have htree := Lib.provided_run_ok (serve_stays hs.tree envid req) hrun (tidy_nil s) ht.1
  have hreply : ∀ {v' srcva'}, sends t = [(envid, v', srcva')] → v' = v := by
    intro v' srcva' h
    rw [hv] at h
    simp only [List.cons.injEq, Prod.mk.injEq] at h
    exact h.1.2.1.symm
  have hsame : (∀ path omode, req ≠ .open path omode) → (∀ path type, req ≠ .remove path type) →
      Kept s s' → SameNames s.inUse s.content s'.content →
      InOrder n s' ∧ Paths.Does req v (paths s.content) (paths s'.content) := by
    intro hopen hremove hkept hnames
    refine ⟨⟨htree, inUse_congr hkept.fileOf ▸ hnames.dirs⟩, ?_⟩
    rw [paths_congr fun names _ => hnames.entries names]
    exact .same (fun path omode h => absurd h (hopen path omode)) fun path type h =>
      absurd h (hremove path type)
  have hfile : ∀ {fileid : Nat}, req.fileid = some fileid →
      (s.fileOf fileid ≠ 0 → req.Gentle s (s.fileOf fileid)) →
      InOrder n s' ∧ Paths.Does req v (paths s.content) (paths s'.content) := by
    intro fileid hreq hgentle
    have h := Lib.provided_run_ok (serve_names hs hreq hgentle envid) hrun (tidy_nil s) ht.1
    refine hsame (fun path omode h => ?_) (fun path type h => ?_) h.1 h.2
    · rw [h] at hreq
      exact nomatch hreq
    · rw [h] at hreq
      exact nomatch hreq
  cases req with
  | «open» path omode =>
    obtain ⟨hpath, hmakes, htrunc⟩ := hfit
    obtain ⟨v', srcva', hsent, h⟩ := Lib.provided_run_ok (serveOpen_does hs envid hpath htrunc) hrun
      (calm_nil s) ht
    obtain rfl := hreply hsent
    exact ⟨⟨htree, (h hmakes).1⟩, (h hmakes).2⟩
  | remove path type =>
    obtain ⟨hpath, hroot⟩ := hfit
    obtain ⟨v', srcva', hsent, ho, hdoes⟩ := Lib.provided_run_ok
      (serveRemove_does hs envid hpath hroot type) hrun (calm_nil s) ht
    obtain rfl := hreply hsent
    exact ⟨⟨htree, ho⟩, hdoes⟩
  | map fileid offset => exact hfile rfl hfit
  | setSize fileid size => exact hfile rfl fun hne => Or.inl (hfit hne)
  | close fileid => exact hfile rfl fun _ => Or.inr trivial
  | dirty fileid offset => exact hfile rfl fun _ => Or.inr trivial
  | sync =>
    have hspec : provided (tidy s) (serve envid .sync) (fun _ s' _ => Intact s s') AnyStop s [] := by
      unfold serve serveSync
      rw [Lib.provided_bind]
      exact Lib.provided_mono (fsSync_intact hs.tree.toMounted)
        (fun _ s₁ t₁ _ h => ipcSend_keeps h ..) fun _ _ _ _ => id
    have h := Lib.provided_run_ok hspec hrun (tidy_nil s) ht.1
    exact hsame (fun _ _ => nofun) (fun _ _ => nofun) h.kept (h.names hs.dirs)

end

/-! ## Every run -/

/-- A run with the requests that are served in it and their answers. Clients store into blocks of their
files in between. -/
inductive Ran (s₀ : Server) : List (Request × Int) → Server → Prop where
  | nil : Ran s₀ [] s₀
  | request {log s s' w envid req t v srcva} (h : Ran s₀ log s)
      (hrun : (serve envid req).run w s = (t, .ok (), s')) (ht : (calm s).Holds t)
      (hv : sends t = [(envid, v, srcva)]) (hfit : req.Fits s v) : Ran s₀ (log ++ [(req, v)]) s'
  | store {log s b m} (h : Ran s₀ log s) (hb : Lent s b)
      (hm : ∀ a, m a ≠ s.mem a → diskAddr b ≤ a ∧ a < diskAddr b + 4096) : Ran s₀ log (s.setMem m)

/-- What the requests do to the map, one after the other. -/
inductive Paths.Runs (m₀ : Paths) : List (Request × Int) → Paths → Prop where
  | nil : Runs m₀ [] m₀
  | snoc {log m m' req v} (h : Runs m₀ log m) (hdoes : Does req v m m') :
      Runs m₀ (log ++ [(req, v)]) m'

/-- What is bound stays bound, unless it or a directory above it is removed. -/
theorem Paths.Runs.bound {m₀ m : Paths} {log : List (Request × Int)} (h : Runs m₀ log m)
    {names : List Name} {e : Nat × Nat} (hbound : m₀ names = some e)
    (hkept : ∀ path type, (.remove path type, 0) ∈ log → ¬ components path <+: names) :
    m names = some e := by
  induction h with
  | nil => exact hbound
  | @snoc log m m' req v _ hdoes ih =>
    have hold := ih fun path type hmem => hkept path type (List.mem_append_left _ hmem)
    have hlast : (req, v) ∈ log ++ [(req, v)] := List.mem_append_right _ List.mem_cons_self
    cases hdoes with
    | same => exact hold
    | made hflags hbinds =>
      obtain ⟨hnone, -, f, rfl⟩ := hbinds
      have hne : names ≠ components _ := fun heq => by
        rw [heq, hnone] at hold
        exact nomatch hold
      rw [Paths.add, Function.update_of_ne hne, hold]
    | removed =>
      rw [Paths.cut, if_neg (hkept _ _ hlast), hold]

theorem ran_runs {n : Nat} {s₀ s : Server} {log : List (Request × Int)} (h₀ : InOrder n s₀)
    (hrun : Ran s₀ log s) : InOrder n s ∧ Paths.Runs (paths s₀.content) log (paths s.content) := by
  induction hrun with
  | nil => exact ⟨h₀, .nil⟩
  | request _ hrun ht hv hfit ih =>
    obtain ⟨hs', hdoes⟩ := serve_does ih.1 hrun ht hv hfit
    exact ⟨hs', ih.2.snoc hdoes⟩
  | store _ hb hm ih =>
    obtain ⟨hs, hruns⟩ := ih
    obtain ⟨htree, hfiles⟩ := hs.tree.store hb hm
    have hnames := hfiles.names hs.dirs
    refine ⟨.of_kept (kept_setMem _ _) htree hnames.dirs, ?_⟩
    rw [paths_congr fun names _ => hnames.entries names]
    exact hruns

theorem ran_opened : Ran fresh [(.open [97] 0x0100, 0)] opened.1 := by
  have hends : fresh.Ends (fun _ => 0) (serve 1 (.open [97] 0x0100)) := by decide +kernel
  have hsends : sends ((serve 1 (.open [97] 0x0100)).run (obliging fun _ => 0) fresh).1 =
      [(1, 0, ffAt 0)] := by decide +kernel
  exact Ran.nil.request hends.run ⟨tidy_checks files_fresh (by decide +kernel),
    memory_obliging _ _ _⟩ hsends ⟨by decide, fun _ => rfl, fun h => absurd h (by decide)⟩

theorem ran_resized : Ran opened.1 [(.setSize 0 8192, 0)] (resize 1).2.2 := by
  have hends : (resize 1).2.1 = .ok () := by decide +kernel
  have hrun : (serve 1 (.setSize 0 8192)).run (obliging refsOpened) opened.1 =
      ((resize 1).1, .ok (), (resize 1).2.2) := by
    rw [← hends]
    rfl
  have hsends : sends (resize 1).1 = [(1, 0, 0)] := by decide +kernel
  have htype : opened.1.content.word (typeAt (opened.1.fileOf 0)) ≠ FTYPE_DIR := by decide +kernel
  have hname : opened.1.content (opened.1.fileOf 0) ≠ 0 := by decide +kernel
  exact Ran.nil.request hrun ⟨tidy_resize, memory_obliging _ _ _⟩ hsends fun _ => ⟨htype, Or.inr hname⟩

/-- `file_open` finds what the path is bound to. -/
def Finds (s : Server) : Prop :=
  ∀ path w t r s', 0 ∉ path → (fileOpen path).run w s = (t, .ok r, s') → (calm s).Holds t →
    (∀ f, r = .ok f → ∃ ty, paths s.content (components path) = some (f, ty)) ∧
    (r = .error .notFound → paths s.content (components path) = none)

theorem InOrder.finds {n : Nat} {s : Server} (hs : InOrder n s) : Finds s := by
  intro path w t r s' hpath hrun ht
  obtain ⟨-, -, -, hfound, hnone⟩ := Lib.provided_run_ok (fileOpen_entries (E := AnyStop) hs.tree hs.dirs
    (calm_gives s) (fun _ h => h.2) path) hrun (calm_nil s) ht
  rw [paths_proper (proper_components hpath)]
  exact ⟨hfound, hnone⟩

/-- In every run the directories stay in order, the paths are bound as the answered requests say, and
files are found where they are bound. -/
theorem names_refine {n : Nat} {s₀ s : Server} {log : List (Request × Int)} (h₀ : InOrder n s₀)
    (hrun : Ran s₀ log s) :
    InOrder n s ∧ Paths.Runs (paths s₀.content) log (paths s.content) ∧ Finds s := by
  obtain ⟨hs, hruns⟩ := ran_runs h₀ hrun
  exact ⟨hs, hruns, hs.finds⟩

/-- `a` is opened and made. -/
theorem names_refine_opened : InOrder 1024 opened.1 ∧
    Paths.Runs (paths fresh.content) [(.open [97] 0x0100, 0)] (paths opened.1.content) ∧
    Finds opened.1 :=
  names_refine inOrder_fresh ran_opened

/-- A path leads to the same file of the same type until it or a directory above it is removed. -/
theorem path_lasts {n : Nat} {s₀ s : Server} {log : List (Request × Int)} (h₀ : InOrder n s₀)
    (hrun : Ran s₀ log s) {names : List Name} {e : Nat × Nat}
    (hbound : paths s₀.content names = some e)
    (hkept : ∀ path type, (.remove path type, 0) ∈ log → ¬ components path <+: names) :
    paths s.content names = some e :=
  (ran_runs h₀ hrun).2.bound hbound hkept

/-- `a` leads to its file after it has got a size. -/
theorem path_lasts_resized :
    paths (resize 1).2.2.content [[97]] = some (diskAddr 3, FTYPE_REG) :=
  path_lasts (ran_runs inOrder_fresh ran_opened).1 ran_resized (by decide +kernel)
    fun path type h => by simp at h

end Mos.Fs
