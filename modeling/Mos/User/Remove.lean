import Mos.Fs.Run
import Mos.User.Open

/-!
# Requests to remove files (`user/lib/fsipc.c`, `user/lib/file.c`, `user/rm.c`)

The page of such a request has the path and, behind it, the type. `remove` takes the type from
behind the end of the path that it is given.
-/

namespace Mos.User

open Fs (Reply Err Name Request Serv Server Any quiet memory typeAt FTYPE_DIR)
open Lib (Bytes provided)
open Lib.Proc (Trace World)

/-! ## Strings -/

/-- The bytes of a string before its zero. -/
structure CString where
  chars : Name
  nonzero : 0 ∉ chars

/-- The string at an address, if it ends within `n` bytes. -/
def stringIn (m : Bytes) : Nat → Nat → Option Name
  | 0, _ => none
  | n + 1, a => if m a = 0 then some [] else (stringIn m n (a + 1)).map (m a :: ·)

def strcpy (m : Bytes) (dst : Nat) (s : Name) : Bytes := m.setList dst (s ++ [0])

theorem strcpy_byte (m : Bytes) (dst : Nat) (s : Name) {i : Nat} (hi : i ≤ s.length) :
    strcpy m dst s (dst + i) = (s ++ [0]).getD i 0 := by
  unfold strcpy Bytes.setList
  rw [List.length_append, List.length_singleton, if_pos (by omega), Nat.add_sub_cancel_left]

theorem strcpy_of_ne {m : Bytes} {dst i : Nat} {s : Name} (h : i < dst ∨ dst + s.length < i) :
    strcpy m dst s i = m i := by
  refine Bytes.setList_of_ne ?_
  rw [List.length_append, List.length_singleton]
  omega

theorem strcpy_holds (m : Bytes) (dst : Nat) (s : Name) : (strcpy m dst s).holds dst s = true := by
  refine Bytes.holds_iff.mpr ⟨fun i hi => ?_, ?_⟩
  · rw [strcpy_byte m dst s (by omega), List.getD_append _ _ _ _ hi, List.getD_eq_getElem _ _ hi]
  · rw [strcpy_byte m dst s (Nat.le_refl _), List.getD_append_right _ _ _ _ (Nat.le_refl _),
      Nat.sub_self]
    rfl

theorem stringIn_holds {m : Bytes} {s : Name} {n a : Nat} (h0 : 0 ∉ s) (hlen : s.length < n)
    (h : m.holds a s = true) : stringIn m n a = some s := by
  induction s generalizing n a with
  | nil =>
    obtain ⟨n, rfl⟩ := Nat.exists_eq_add_of_lt hlen
    unfold Bytes.holds at h
    unfold stringIn
    rw [if_pos (by simpa using h)]
  | cons c s ih =>
    rw [List.length_cons] at hlen
    obtain ⟨n, rfl⟩ := Nat.exists_eq_add_of_le hlen
    rw [Nat.succ_add]
    unfold Bytes.holds at h
    rw [Bool.and_eq_true, beq_iff_eq] at h
    have hc : c ≠ 0 := fun hc => h0 (by rw [hc]; exact List.mem_cons_self)
    unfold stringIn
    rw [h.1, if_neg hc, ih (fun h' => h0 (List.mem_cons_of_mem _ h')) (by omega) h.2]
    rfl

/-! ## Requests -/

/-- The page that `fsipc_open` sends. -/
def openRequest (path : Name) (omode : UInt32) (fsipcbuf : Bytes) : Except Err Bytes :=
  if path.length ≥ MAXPATHLEN then
    .error .badPath
  else
    .ok ((strcpy fsipcbuf 0 path).setWord MAXPATHLEN omode.toNat)

/-- The page that `fsipc_remove` sends. -/
def removeRequest (path : Name) (type : UInt32) (fsipcbuf : Bytes) : Except Err Bytes :=
  if path.length = 0 ∨ path.length > MAXPATHLEN then
    .error .badPath
  else
    .ok (strcpy (fsipcbuf.setWord MAXPATHLEN type.toNat) 0 path)

/-- `rq->req_path` -/
def reqPath (page : Bytes) : Option Name := stringIn page PTMAP 0

/-- The request as `serve_open` reads it. -/
def readOpen (page : Bytes) : Option Request :=
  (reqPath page).map (.open · (UInt32.ofNat (page.word MAXPATHLEN)))

/-- The request as `serve_remove` reads it. -/
def readRemove (page : Bytes) : Option Request :=
  (reqPath page).map (.remove · (UInt32.ofNat (page.word MAXPATHLEN)))

theorem fsipcOpen_request (opens : OpenAnswers) (path : Name) (omode : UInt32) (fd : Nat) (fsipcbuf : Bytes) :
    fsipcOpen opens path omode fd =
      match openRequest path omode fsipcbuf with
      | .error e => return e.code
      | .ok _ => do
        receive (opens path omode) fd
        return (opens path omode).val := by
  unfold fsipcOpen openRequest
  split <;> rfl

/-- The page has the path in its field with its zero, and the number in the next field. -/
structure Encodes (page fsipcbuf : Bytes) (path : Name) (v : UInt32) : Prop where
  ends : path.length < MAXPATHLEN
  path : page.holds 0 path = true
  next : page.word MAXPATHLEN = v.toNat
  rest : ∀ k, MAXPATHLEN + 4 ≤ k → page k = fsipcbuf k

theorem strcpy_setWord {m : Bytes} {path : Name} (h : path.length < MAXPATHLEN) (v : Nat) :
    strcpy (m.setWord MAXPATHLEN v) 0 path = (strcpy m 0 path).setWord MAXPATHLEN v := by
  funext i
  by_cases hi : i ≤ path.length
  · have hword : (strcpy m 0 path).setWord MAXPATHLEN v i = strcpy m 0 path i :=
      Bytes.setWord_of_ne (by omega)
    rw [hword, ← Nat.zero_add i, strcpy_byte _ _ _ hi, strcpy_byte _ _ _ hi]
  · rw [strcpy_of_ne (by omega)]
    unfold Bytes.setWord
    rw [strcpy_of_ne (by omega)]

theorem encodes_page {m : Bytes} {path : Name} (h : path.length < MAXPATHLEN) (v : UInt32) :
    Encodes ((strcpy m 0 path).setWord MAXPATHLEN v.toNat) m path v where
  ends := h
  path := by
    refine (Bytes.holds_congr fun i _ hi => ?_).trans (strcpy_holds m 0 path)
    exact Bytes.setWord_of_ne (by omega)
  next := by
    rw [Bytes.word_setWord_self]
    exact Nat.mod_eq_of_lt v.toNat_lt
  rest k hk := by
    rw [Bytes.setWord_of_ne (by omega), strcpy_of_ne (by omega)]

theorem Encodes.reqPath {page m : Bytes} {path : Name} {v : UInt32} (h : Encodes page m path v)
    (h0 : 0 ∉ path) : reqPath page = some path := by
  have hlen := h.ends
  exact stringIn_holds h0 (Nat.lt_trans hlen (by decide)) h.path

theorem Encodes.readRemove {page m : Bytes} {path : Name} {v : UInt32} (h : Encodes page m path v)
    (h0 : 0 ∉ path) : readRemove page = some (.remove path v) := by
  unfold User.readRemove
  rw [h.reqPath h0, h.next, UInt32.ofNat_toNat]
  rfl

theorem Encodes.readOpen {page m : Bytes} {path : Name} {v : UInt32} (h : Encodes page m path v)
    (h0 : 0 ∉ path) : readOpen page = some (.open path v) := by
  unfold User.readOpen
  rw [h.reqPath h0, h.next, UInt32.ofNat_toNat]
  rfl

theorem openRequest_ok {path : Name} {omode : UInt32} {m page : Bytes}
    (h : openRequest path omode m = .ok page) : Encodes page m path omode := by
  unfold openRequest at h
  split at h
  · exact nomatch h
  · rw [← Except.ok.inj h]
    exact encodes_page (by omega) omode

theorem removeRequest_ok {path : Name} {type : UInt32} {m page : Bytes} (hlen : path.length ≠ MAXPATHLEN)
    (h : removeRequest path type m = .ok page) : Encodes page m path type := by
  unfold removeRequest at h
  split at h
  · exact nomatch h
  · have hfits : path.length < MAXPATHLEN := by omega
    rw [← Except.ok.inj h, strcpy_setWord hfits]
    exact encodes_page hfits type

theorem openRequest_error {path : Name} {omode : UInt32} {m : Bytes} :
    openRequest path omode m = .error .badPath ↔ MAXPATHLEN ≤ path.length := by
  unfold openRequest
  split
  · exact iff_of_true rfl ‹_›
  · exact iff_of_false (fun h => nomatch h) ‹_›

theorem removeRequest_error {path : Name} {type : UInt32} {m : Bytes} :
    removeRequest path type m = .error .badPath ↔ path.length = 0 ∨ MAXPATHLEN < path.length := by
  unfold removeRequest
  split
  · exact iff_of_true rfl ‹_›
  · exact iff_of_false (fun h => nomatch h) ‹_›

/-- What is accepted is read as it was sent, and the same paths are too long for both requests. The
empty path, which is the root, is not too long, but it is not removed. -/
structure RoundTrips (path : Name) : Prop where
  removed : ∀ type fsipcbuf page, removeRequest path type fsipcbuf = .ok page →
    Encodes page fsipcbuf path type ∧ readRemove page = some (.remove path type)
  opened : ∀ omode fsipcbuf page, openRequest path omode fsipcbuf = .ok page →
    Encodes page fsipcbuf path omode ∧ readOpen page = some (.open path omode)
  tooLong : ∀ type omode fsipcbuf, path ≠ [] ∧ removeRequest path type fsipcbuf = .error .badPath ↔
    openRequest path omode fsipcbuf = .error .badPath

theorem not_roundTrips {path : Name} (h : path.length = MAXPATHLEN) : ¬ RoundTrips path := by
  intro hround
  have hlong := (hround.tooLong 0 0 fun _ => 0).mpr (openRequest_error.mpr (Nat.le_of_eq h.symm))
  have := removeRequest_error.mp hlong.2
  have hmax : MAXPATHLEN = 1024 := rfl
  omega

theorem requests_round_trip_iff (path : CString) : RoundTrips path.chars ↔ path.chars.length ≠ MAXPATHLEN := by
  refine ⟨fun h hlen => not_roundTrips hlen h, fun hlen => ⟨?_, ?_, ?_⟩⟩
  · intro type m page hpage
    have henc := removeRequest_ok hlen hpage
    exact ⟨henc, henc.readRemove path.nonzero⟩
  · intro omode m page hpage
    have henc := openRequest_ok hpage
    exact ⟨henc, henc.readOpen path.nonzero⟩
  · intro type omode m
    rw [removeRequest_error, openRequest_error, ← List.length_pos_iff]
    omega

theorem not_requests_round_trip : ¬ ∀ path : CString, RoundTrips path.chars := by
  intro h
  exact not_roundTrips (List.length_replicate ..) (h ⟨List.replicate MAXPATHLEN 97, by simp⟩)

/-! ## The type of a removal -/

/-- The kernel gives the server a page or has no memory. -/
structure Kernel where
  world : World Fs.Call Reply
  answers : ∀ t c, (quiet Any True).answers c (world t c)

/-- A string in the memory of the process. -/
def loadString (m : Bytes) (a : Nat) : Except Stop Name :=
  match stringIn m (ULIM - a) a with
  | some s => .ok s
  | none => .error .fault

def loadChar (m : Bytes) (a : Nat) : Except Stop UInt8 :=
  if a < ULIM then .ok (m a) else .error .fault

/-- `c - '0'`, where `char` is signed. -/
def charType (c : UInt8) : UInt32 := UInt32.ofInt (c.toInt8.toInt - 48)

/-- The page that `remove` sends for the path at an address. -/
def remove (m : Bytes) (path : Nat) (fsipcbuf : Bytes) : Except Stop (Except Err Bytes) := do
  let s ← loadString m path
  let c ← loadChar m (path + (s.length + 1))
  return removeRequest s (charType c) fsipcbuf

/-- `N`, `R` and `RF` -/
inductive Flag where
  | N
  | R
  | RF
  deriving DecidableEq, Repr

def Flag.val : Flag → UInt8
  | N => 0
  | R => 1
  | RF => 2

/-- The array `path1` on the stack. -/
structure Path1 where
  va : Nat
  below : va + (MAXPATHLEN + 1) ≤ ULIM

/-- `rm` after `open` has returned `fd`: what it removes, if it does. -/
def rm (fd : Int) (m : Bytes) (path : Nat) (path1 : Path1) (flag : Flag) (fsipcbuf : Bytes) :
    Except Stop (Option (Except Err Bytes)) := do
  if fd < 0 then
    return none
  else
    let s ← loadString m path
    let m := strcpy m path1.va s
    let s ← loadString m path1.va
    let m := m.setList (path1.va + (s.length + 1)) [flag.val + 48]
    return some (← remove m path1.va fsipcbuf)

/-- What comes of `remove`: the error of `fsipc_remove`, or what the server does. -/
def outcome (envid : Nat) (w : World Fs.Call Reply) (s : Server) (r : Except Stop (Except Err Bytes)) :
    Except Stop (Except Err (Option (Trace Fs.Call Reply × Except Fs.Stop Unit × Server))) :=
  r.map fun r => r.map fun page => (readRemove page).map fun req => (Fs.serve envid req).run w s

/-- If `rm` asks for a path to be removed, the type is its flag. -/
def RmExact (path : Name) : Prop :=
  ∀ (opens : OpenAnswers) (srv : Answers) (s s' : Client) (fd : Int) (m : Bytes) (a : Nat) (path1 : Path1)
    (flag : Flag) (fsipcbuf : Bytes), openFile opens srv path 0 s = .ok fd s' → m.holds a path = true →
    a + path.length < ULIM →
    rm fd m a path1 flag fsipcbuf = .ok
        (if fd < 0 then none else some (removeRequest path flag.val.toUInt32 fsipcbuf)) ∧
      (0 ≤ fd → ∀ page, removeRequest path flag.val.toUInt32 fsipcbuf = .ok page →
        readRemove page = some (.remove path flag.val.toUInt32))

/-- What comes of `remove` depends on the memory through the path only. -/
def Oblivious (w : World Fs.Call Reply) (s : Server) (path : Name) : Prop :=
  ∀ (envid : Nat) (a : Nat) (m m' fsipcbuf fsipcbuf' : Bytes), m.holds a path = true →
    m'.holds a path = true → a + path.length < ULIM →
    outcome envid w s (remove m a fsipcbuf) = outcome envid w s (remove m' a fsipcbuf')

/-- What `walk_path` has found is a directory. -/
def IsDir (s : Server) : Fs.Walk → Bool
  | .found _ f => s.cached (typeAt f) && s.mem.word (typeAt f) == FTYPE_DIR
  | _ => false

/-- The path leads to a directory. -/
def leadsToDir (w : World Fs.Call Reply) (s : Server) (path : Name) : Bool :=
  match ((Fs.walkPath path).run w s).2 with
  | (.ok r, s') => IsDir s' r
  | (.error _, _) => false

theorem loadString_holds {m : Bytes} {a : Nat} {s : Name} (h0 : 0 ∉ s) (h : m.holds a s = true)
    (hlt : a + s.length < ULIM) : loadString m a = .ok s := by
  unfold loadString
  rw [stringIn_holds h0 (by omega) h]

theorem remove_holds {m : Bytes} {a : Nat} {s : Name} (fsipcbuf : Bytes) (h0 : 0 ∉ s)
    (h : m.holds a s = true) (hlt : a + (s.length + 1) < ULIM) :
    remove m a fsipcbuf = .ok (removeRequest s (charType (m (a + (s.length + 1)))) fsipcbuf) := by
  unfold remove
  rw [loadString_holds h0 h (by omega)]
  show (loadChar m (a + (s.length + 1)) >>= fun c => pure (removeRequest s (charType c) fsipcbuf)) = _
  unfold loadChar
  rw [if_pos hlt]
  rfl

theorem charType_flag (flag : Flag) : charType (flag.val + 48) = flag.val.toUInt32 := by
  cases flag <;> decide

theorem Err.code_neg (e : Err) : e.code < 0 := by
  cases e <;> decide

/-- What is opened has a path that fits. -/
theorem openFile_fits {opens : OpenAnswers} {srv : Answers} {path : Name} {mode : UInt32} {s s' : Client}
    {fd : Int} (h : openFile opens srv path mode s = .ok fd s') (hfd : 0 ≤ fd) :
    path.length < MAXPATHLEN := by
  have hspec : Lib.wp (openFile opens srv path mode)
      (fun r _ => 0 ≤ r → path.length < MAXPATHLEN) (fun _ _ => True) s := by
    unfold openFile
    rw [Lib.wp_bind, Lib.wp_get]
    rcases s.fdAlloc with e | fd
    · simp only
      rw [Lib.wp_pure]
      exact fun h => absurd h (Int.not_le.mpr (Err.code_neg e))
    · by_cases hlen : path.length < MAXPATHLEN
      · exact Lib.wp_mono (Lib.wp_trivial ..) (fun _ _ _ _ => hlen) fun _ _ _ => trivial
      · simp only
        unfold fsipcOpen
        rw [Lib.wp_bind, if_pos (Nat.le_of_not_lt hlen), Lib.wp_pure]
        rw [if_pos (by decide), Lib.wp_pure]
        exact fun h => absurd h (by decide)
  exact Lib.wp_run_ok hspec h hfd

theorem rm_exact (path : CString) : RmExact path.chars := by
  intro opens srv s s' fd m a path1 flag buf hopen hm hlt
  by_cases hfd : fd < 0
  · unfold rm
    rw [if_pos hfd, if_pos hfd]
    exact ⟨rfl, fun h => absurd h (Int.not_le.mpr hfd)⟩
  · have hlen := openFile_fits hopen (Int.not_lt.mp hfd)
    have hend := path1.below
    have hmax : MAXPATHLEN = 1024 := rfl
    have hcopy := strcpy_holds m path1.va path.chars
    have hheld : ((strcpy m path1.va path.chars).setList (path1.va + (path.chars.length + 1))
        [flag.val + 48]).holds path1.va path.chars = true := by
      refine (Bytes.holds_congr fun i _ hi => ?_).trans hcopy
      exact Bytes.setList_of_ne (by omega)
    have hflag : (strcpy m path1.va path.chars).setList (path1.va + (path.chars.length + 1))
        [flag.val + 48] (path1.va + (path.chars.length + 1)) = flag.val + 48 := by
      unfold Bytes.setList
      rw [if_pos (by simp), Nat.sub_self]
      rfl
    have hremove := remove_holds buf path.nonzero hheld (by omega)
    rw [hflag, charType_flag] at hremove
    refine ⟨?_, fun _ page hpage => (removeRequest_ok (by omega) hpage).readRemove path.nonzero⟩
    unfold rm
    rw [if_neg hfd, if_neg hfd, loadString_holds path.nonzero hm hlt]
    show (loadString (strcpy m path1.va path.chars) path1.va >>= _) = _
    rw [loadString_holds path.nonzero hcopy (by omega)]
    show (remove _ path1.va buf >>= _) = _
    rw [hremove]
    rfl

/-! ## Removals of directories -/

/-- `file_remove` and the answer, once the type of the file is known. -/
def removeTyped (envid type f v : Nat) : Serv Unit := do
  match ← (if v = FTYPE_DIR ∧ type = 0 then
      return .error .isDir
    else do
      Fs.removeFile f
      return .ok () : Serv (Except Err Unit)) with
  | .error e => Fs.replyError envid e
  | .ok () => Fs.ipcSend envid 0 0 0

/-- What `serve_remove` does after `walk_path`. -/
def removeWalk (envid type : Nat) : Fs.Walk → Serv Unit
  | .missing .. => Fs.replyError envid .notFound
  | .failed e => Fs.replyError envid e
  | .found _ f => Fs.loadWord (typeAt f) >>= removeTyped envid type f

theorem serveRemove_eq (envid : Nat) (path : Name) (type : Nat) :
    Fs.serveRemove envid path type = Fs.walkPath path >>= removeWalk envid type := by
  unfold Fs.serveRemove Fs.fileRemove
  rw [bind_assoc]
  congr 1
  funext r
  rcases r with ⟨d, f⟩ | ⟨d, name⟩ | e
  · exact bind_assoc ..
  · rfl
  · rfl

theorem removeTyped_refuses (envid f : Nat) :
    removeTyped envid 0 f FTYPE_DIR = Fs.replyError envid .isDir := rfl

theorem removeTyped_removes (envid f v : Nat) {type : Nat} (h : type ≠ 0) :
    removeTyped envid type f v = Fs.removeFile f >>= fun _ => Fs.ipcSend envid 0 0 0 := by
  unfold removeTyped
  rw [if_neg fun hdir => h hdir.2, bind_assoc]
  rfl

theorem loadWord_bind {α : Type} (va : Nat) (g : Nat → Serv α) (s : Server) :
    (Fs.loadWord va >>= g) s =
      if s.cached va then g (s.mem.word va) s else .ret (.error .fault, s) := by
  have hload : Fs.loadWord va s =
      if s.cached va then .ret (.ok (s.mem.word va), s) else .ret (.error .fault, s) := by
    unfold Fs.loadWord
    show (if s.cached va then _ else _ : Serv Nat) s = _
    split <;> rfl
  have hbind : (Fs.loadWord va >>= g) s = Lib.Proc.bind (Fs.loadWord va s) fun r =>
      match r with
      | (.ok v, s') => g v s'
      | (.error e, s') => .ret (.error e, s') := by
    refine congrArg (Lib.Proc.bind (Fs.loadWord va s)) (funext fun r => ?_)
    rcases r with ⟨e | v, s'⟩ <;> rfl
  rw [hbind, hload]
  split <;> rfl

theorem removeWalk_congr (envid : Nat) {r : Fs.Walk} {s : Server} (h : IsDir s r = false) (type type' : Nat) :
    removeWalk envid type r s = removeWalk envid type' r s := by
  rcases r with ⟨d, f⟩ | ⟨d, name⟩ | e
  · show (Fs.loadWord (typeAt f) >>= removeTyped envid type f) s =
      (Fs.loadWord (typeAt f) >>= removeTyped envid type' f) s
    rw [loadWord_bind, loadWord_bind]
    have hdir : (s.cached (typeAt f) && s.mem.word (typeAt f) == FTYPE_DIR) = false := h
    by_cases hc : s.cached (typeAt f) = true
    · rw [hc, Bool.true_and, beq_eq_false_iff_ne] at hdir
      rw [if_pos hc, if_pos hc]
      unfold removeTyped
      rw [if_neg fun h => hdir h.1, if_neg fun h => hdir h.1]
    · rw [if_neg hc, if_neg hc]
  · rfl
  · rfl

theorem removeWalk_dir (envid type : Nat) {r : Fs.Walk} {s : Server} (h : IsDir s r = true) :
    ∃ f, removeWalk envid type r s = removeTyped envid type f FTYPE_DIR s := by
  rcases r with ⟨d, f⟩ | ⟨d, name⟩ | e
  · unfold IsDir at h
    rw [Bool.and_eq_true, beq_iff_eq] at h
    refine ⟨f, ?_⟩
    show (Fs.loadWord (typeAt f) >>= removeTyped envid type f) s = _
    rw [loadWord_bind, if_pos h.1, h.2]
  · exact nomatch h
  · exact nomatch h

theorem serve_remove_run {envid : Nat} {path : Name} {type : UInt32} {w : World Fs.Call Reply} {s s' : Server}
    {t : Trace Fs.Call Reply} {r : Fs.Walk} (h : (Fs.walkPath path).run w s = (t, .ok r, s')) :
    (Fs.serve envid (.remove path type)).run w s = Lib.Proc.run w (removeWalk envid type.toNat r s') t := by
  have hserve : Fs.serve envid (.remove path type) = Fs.walkPath path >>= removeWalk envid type.toNat :=
    serveRemove_eq ..
  rw [hserve]
  exact Lib.Prog.run_bind h

theorem serve_remove_congr (envid : Nat) {path : Name} {w : World Fs.Call Reply} {s : Server}
    (h : leadsToDir w s path = false) (type type' : UInt32) :
    (Fs.serve envid (.remove path type)).run w s = (Fs.serve envid (.remove path type')).run w s := by
  unfold leadsToDir at h
  rcases hwalk : (Fs.walkPath path).run w s with ⟨t, e | r, s'⟩
  · have hserve : ∀ type : UInt32, Fs.serve envid (.remove path type) =
        Fs.walkPath path >>= removeWalk envid type.toNat := fun _ => serveRemove_eq ..
    rw [hserve, hserve, Lib.Prog.run_bind_error hwalk, Lib.Prog.run_bind_error hwalk]
  · rw [hwalk] at h
    rw [serve_remove_run hwalk, serve_remove_run hwalk, removeWalk_congr envid h]

/-! ## The answers to removals -/

theorem Kernel.holds (w : Kernel) {α : Type} (p : Lib.Proc Fs.Call Reply α) {t : Trace Fs.Call Reply}
    (ht : memory.Holds t) : memory.Holds (p.run w.world t).1 := Lib.Proc.run_answers w.answers p ht

theorem Kernel.ends (w : Kernel) {α : Type} {x : Serv α} {P : Trace Fs.Call Reply → Prop} {s : Server}
    {t : Trace Fs.Call Reply} (h : provided memory x (fun _ _ t' => P t') (fun _ _ t' => P t') s t)
    (ht : memory.Holds t) : P (Lib.Proc.run w.world (x s) t).1 := by
  unfold provided Lib.always at h
  have hend := Lib.Proc.Every.run (h ht) w.world
  have hholds := w.holds (x s) ht
  rcases hrun : Lib.Proc.run w.world (x s) t with ⟨t', e | a, s'⟩
  · rw [hrun] at hend hholds
    exact hend hholds
  · rw [hrun] at hend hholds
    exact hend hholds

theorem refused_sends (w : Kernel) (envid : Nat) (s : Server) {t : Trace Fs.Call Reply} (ht : memory.Holds t) :
    Fs.sends (Lib.Proc.run w.world (Fs.replyError envid .isDir s) t).1 =
      Fs.sends t ++ [(envid, Err.isDir.code, 0)] :=
  w.ends (P := fun t' => Fs.sends t' = Fs.sends t ++ [(envid, Err.isDir.code, 0)])
    (Lib.provided_mono (Fs.ipcSend_spec ..) (fun _ _ _ _ h => h.2) fun _ _ _ _ h => h.2) ht

theorem removed_sends (w : Kernel) (envid f : Nat) (s : Server) {t : Trace Fs.Call Reply}
    (ht : memory.Holds t) :
    Fs.sends (Lib.Proc.run w.world ((Fs.removeFile f >>= fun _ => Fs.ipcSend envid 0 0 0) s) t).1 ≠
      Fs.sends t ++ [(envid, Err.isDir.code, 0)] := by
  refine w.ends (P := fun t' => Fs.sends t' ≠ Fs.sends t ++ [(envid, Err.isDir.code, 0)]) ?_ ht
  have hzero : ∀ {t'}, Fs.sends t' = Fs.sends t ++ [(envid, 0, 0)] →
      Fs.sends t' ≠ Fs.sends t ++ [(envid, Err.isDir.code, 0)] := by
    intro t' h h'
    have hval := List.append_cancel_left (h.symm.trans h')
    simp [Err.code] at hval
  have hnone : ∀ {t'}, Fs.sends t' = Fs.sends t →
      Fs.sends t' ≠ Fs.sends t ++ [(envid, Err.isDir.code, 0)] := by
    intro t' h h'
    have hlen := congrArg List.length (h.symm.trans h')
    simp at hlen
  have hsilent := silent_of_quiet (Fs.within_removeFile (K := fun _ => True) (f := f) (fun _ _ => trivial)
    fun _ => trivial)
  rw [Lib.provided_bind]
  refine Lib.provided_mono (Lib.provided_within (M := memory) (F := silent) (fun t ht => ht) hsilent s t)
    (fun _ s' t' _ h => ?_) fun _ s' t' _ h => ?_
  · obtain ⟨⟨l, rfl, hl⟩, -⟩ := h
    have hsame := sends_silent (t := t) hl
    refine Lib.provided_mono (Fs.ipcSend_spec ..) (fun _ _ _ _ h => hzero ?_) fun _ _ _ _ h => hzero ?_
    · rw [h.2, hsame]
    · rw [h.2, hsame]
  · obtain ⟨⟨l, rfl, hl⟩, -⟩ := h
    exact hnone (sends_silent hl)

/-- A directory is refused, or it is removed. -/
theorem serve_remove_differs (w : Kernel) (envid : Nat) {path : Name} {s : Server} {type : UInt32}
    (h : leadsToDir w.world s path = true) (htype : type ≠ 0) :
    (Fs.serve envid (.remove path 0)).run w.world s ≠ (Fs.serve envid (.remove path type)).run w.world s := by
  intro heq
  unfold leadsToDir at h
  rcases hwalk : (Fs.walkPath path).run w.world s with ⟨t, e | r, s'⟩
  · rw [hwalk] at h
    exact nomatch h
  · rw [hwalk] at h
    have ht : memory.Holds t := by
      have hholds := w.holds (Fs.walkPath path s) (t := []) fun _ he => nomatch he
      have hrun : (Fs.walkPath path s).run w.world [] = (t, .ok r, s') := hwalk
      rwa [hrun] at hholds
    obtain ⟨f, hzero⟩ := removeWalk_dir envid 0 h
    obtain ⟨f', hone⟩ := removeWalk_dir envid type.toNat h
    have htoNat : type.toNat ≠ 0 := fun h => htype (UInt32.toNat_inj.mp h)
    rw [removeTyped_refuses] at hzero
    rw [removeTyped_removes _ _ _ htoNat] at hone
    rw [serve_remove_run hwalk, serve_remove_run hwalk, hone] at heq
    have hsends := congrArg (fun p => Fs.sends p.1) heq
    refine removed_sends w envid f' s' ht (hsends.symm.trans ?_)
    have hrefused := refused_sends w envid s' ht
    rwa [← hzero] at hrefused

/-! ## The byte behind the path -/

/-- The type that the server reads, if the path may have destroyed its lowest byte. -/
def sentType (path : Name) (type : UInt32) : UInt32 :=
  if path.length < MAXPATHLEN then type else UInt32.ofNat (type.toNat / 256 * 256)

theorem word_strcpy {m : Bytes} {path : Name} (h : path.length = MAXPATHLEN) (v : UInt32) :
    (strcpy (m.setWord MAXPATHLEN v.toNat) 0 path).word MAXPATHLEN = v.toNat / 256 * 256 := by
  have hlow : strcpy (m.setWord MAXPATHLEN v.toNat) 0 path MAXPATHLEN = 0 := by
    have := (Bytes.holds_iff.mp (strcpy_holds (m.setWord MAXPATHLEN v.toNat) 0 path)).2
    rwa [h, Nat.zero_add] at this
  have hword := Bytes.word_setWord_self m MAXPATHLEN v.toNat
  rw [Nat.mod_eq_of_lt v.toNat_lt] at hword
  have hfirst : ((m.setWord MAXPATHLEN v.toNat) MAXPATHLEN).toNat = v.toNat % 256 := by
    unfold Bytes.setWord
    rw [if_pos (by omega), Nat.sub_self, UInt8.toNat_ofNat', Nat.pow_zero, Nat.div_one]
  unfold Bytes.word at hword ⊢
  rw [hfirst] at hword
  rw [hlow, strcpy_of_ne (by omega), strcpy_of_ne (by omega), strcpy_of_ne (by omega)]
  simp only [UInt8.toNat_zero]
  omega

theorem removeRequest_read {path : Name} (h0 : 0 ∉ path) (hpos : 0 < path.length)
    (hle : path.length ≤ MAXPATHLEN) (type : UInt32) (m : Bytes) :
    ∃ page, removeRequest path type m = .ok page ∧
      readRemove page = some (.remove path (sentType path type)) := by
  unfold removeRequest
  rw [if_neg (by omega)]
  refine ⟨_, rfl, ?_⟩
  unfold sentType
  split
  · rename_i hlt
    rw [strcpy_setWord hlt]
    exact (encodes_page hlt type).readRemove h0
  · have hpath : reqPath (strcpy (m.setWord MAXPATHLEN type.toNat) 0 path) = some path :=
      stringIn_holds h0 (Nat.lt_of_le_of_lt hle (by decide)) (strcpy_holds _ _ _)
    unfold readRemove
    rw [hpath, word_strcpy (by omega)]
    rfl

theorem outcome_remove {envid : Nat} {w : World Fs.Call Reply} {s : Server} {m : Bytes} {a : Nat} {path : Name}
    (fsipcbuf : Bytes) (h0 : 0 ∉ path) (hpos : 0 < path.length) (hle : path.length ≤ MAXPATHLEN)
    (h : m.holds a path = true) (hlt : a + (path.length + 1) < ULIM) :
    outcome envid w s (remove m a fsipcbuf) =
      .ok (.ok (some ((Fs.serve envid
        (.remove path (sentType path (charType (m (a + (path.length + 1))))))).run w s))) := by
  obtain ⟨page, hpage, hread⟩ :=
    removeRequest_read h0 hpos hle (charType (m (a + (path.length + 1)))) fsipcbuf
  rw [remove_holds fsipcbuf h0 h hlt, hpage]
  show Except.ok (Except.ok ((readRemove page).map fun req => (Fs.serve envid req).run w s)) = _
  rw [hread]
  rfl

theorem not_oblivious (w : Kernel) {s : Server} {path : CString} (hpos : 0 < path.chars.length)
    (hle : path.chars.length ≤ MAXPATHLEN) (hdir : leadsToDir w.world s path.chars = true) :
    ¬ Oblivious w.world s path.chars := by
  intro h
  have hmax : MAXPATHLEN = 1024 := rfl
  have hulim : ULIM = 0x80000000 := rfl
  have hsame := h 0 0 (strcpy (fun _ => 48) 0 path.chars) (strcpy (fun _ => 0) 0 path.chars) (fun _ => 0)
    (fun _ => 0) (strcpy_holds ..) (strcpy_holds ..) (by omega)
  rw [outcome_remove _ path.nonzero hpos hle (strcpy_holds ..) (by omega),
    outcome_remove _ path.nonzero hpos hle (strcpy_holds ..) (by omega),
    strcpy_of_ne (by omega), strcpy_of_ne (by omega)] at hsame
  have hzero : sentType path.chars (charType 48) = 0 := by
    unfold sentType
    split <;> decide
  have hone : sentType path.chars (charType 0) ≠ 0 := by
    unfold sentType
    split <;> decide
  rw [hzero] at hsame
  have hrun := Option.some.inj (Except.ok.inj (Except.ok.inj hsame))
  exact serve_remove_differs w 0 hdir hone hrun

theorem remove_mode_iff (w : Kernel) (s : Server) (path : CString) :
    RmExact path.chars ∧ Oblivious w.world s path.chars ↔
      ¬ (0 < path.chars.length ∧ path.chars.length ≤ MAXPATHLEN ∧
        leadsToDir w.world s path.chars = true) := by
  refine ⟨fun h hdir => not_oblivious w hdir.1 hdir.2.1 hdir.2.2 h.2, fun h => ⟨rm_exact path, ?_⟩⟩
  intro envid a m m' buf buf' hm hm' hlt
  by_cases hend : a + (path.chars.length + 1) < ULIM
  · by_cases hlen : 0 < path.chars.length ∧ path.chars.length ≤ MAXPATHLEN
    · have hdir : leadsToDir w.world s path.chars = false := by
        rw [← Bool.not_eq_true]
        exact fun hdir => h ⟨hlen.1, hlen.2, hdir⟩
      rw [outcome_remove buf path.nonzero hlen.1 hlen.2 hm hend,
        outcome_remove buf' path.nonzero hlen.1 hlen.2 hm' hend, serve_remove_congr envid hdir]
    · have herror : ∀ type buf, removeRequest path.chars type buf = .error .badPath := fun type buf =>
        removeRequest_error.mpr (by omega)
      rw [remove_holds buf path.nonzero hm hend, remove_holds buf' path.nonzero hm' hend, herror, herror]
  · -- The byte behind the path belongs to the kernel.
    have hfault : ∀ {m : Bytes} (buf : Bytes), m.holds a path.chars = true →
        remove m a buf = .error .fault := by
      intro m buf hm
      unfold remove
      rw [loadString_holds path.nonzero hm hlt]
      show (loadChar m (a + (path.chars.length + 1)) >>= _) = _
      unfold loadChar
      rw [if_neg hend]
      rfl
    rw [hfault buf hm, hfault buf' hm']

/-- A server with the directory `d`. -/
def dirMade : Server := Fs.fresh.after (fun _ => 0) (Fs.serve 1 (.open [100] 0x0800))

def dirPath : CString where
  chars := [100]
  nonzero := by decide

def kernel : Kernel where
  world := Fs.obliging fun _ => 0
  answers t c := by
    rcases c with _ | _ | _ | _
    · trivial
    · exact Or.inl rfl
    · trivial
    · trivial

theorem not_remove_mode :
    ¬ ∀ (w : Kernel) (s : Server) (path : CString), RmExact path.chars ∧ Oblivious w.world s path.chars := by
  intro h
  have hdir : leadsToDir kernel.world dirMade dirPath.chars = true := by decide +kernel
  have hnot : ¬ Oblivious kernel.world dirMade dirPath.chars :=
    not_oblivious kernel (by decide) (by decide) hdir
  exact hnot (h kernel dirMade dirPath).2

end Mos.User
